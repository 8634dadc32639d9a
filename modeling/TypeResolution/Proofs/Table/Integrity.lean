/-
# The integrity of a table

What the operations see to holds of every table that is built with them: the traits that are
refined, conformed to or bounding are declared, every supertype is a nominal type whose head is
declared, neither refinement nor the supertypes go round in a circle, and no declaration is
registered twice (`Table.Built.integrity`). A trait refines only traits that were there before it,
so no trait is above itself; for supertypes, which come later, see `Table.Built.acyclic`.

Key definitions: `TraitDecl.Sound`, `TypeDecl.Sound`, `Table.Refines`, `Table.Integrity`.
Key theorems: `Table.Built.sound`, `Table.Built.refinement_acyclic`, `Table.Built.integrity`.
-/
import TypeResolution.Proofs.Table.Declarations
import TypeResolution.Proofs.Table.Hierarchy

open Relation (TransGen)

namespace TypeResolution

variable {table table' : Table} {n m : Name}

/-! ### What is declared -/

/-- The traits that the trait refines are declared. -/
def TraitDecl.Sound (t : Table) (d : TraitDecl) : Prop :=
  ∀ n ∈ d.refines, (t.trait? n).isSome = true

/-- The traits that the type or a bound of its members refers to are declared, and its supertypes are
nominal types of a declared head. -/
structure TypeDecl.Sound (t : Table) (d : TypeDecl) : Prop where
  conformed : ∀ n ∈ d.conformances, (t.trait? n).isSome = true
  bounding : ∀ m ∈ d.members, ∀ g ∈ m.2.generics, ∀ n ∈ g.bounds, (t.trait? n).isSome = true
  supertypes : ∀ sup ∈ d.supertypes, ∃ head args, sup = .nominal head args ∧
    (t.type? head).isSome = true

/-- What is declared in a table is declared in the other one. -/
structure Table.Extends (t t' : Table) : Prop where
  traits : t.traits.map (·.name) ⊆ t'.traits.map (·.name)
  types : t.types.map (·.name) ⊆ t'.types.map (·.name)

theorem Table.Extends.trait? (h : table.Extends table') (hn : (table.trait? n).isSome = true) :
    (table'.trait? n).isSome = true :=
  name_mem_traits_iff.2 (h.traits (name_mem_traits_iff.1 hn))

theorem Table.Extends.type? (h : table.Extends table') (hn : (table.type? n).isSome = true) :
    (table'.type? n).isSome = true :=
  name_mem_types_iff.2 (h.types (name_mem_types_iff.1 hn))

theorem TraitDecl.Sound.mono {d : TraitDecl} (hd : d.Sound table) (h : table.Extends table') :
    d.Sound table' := fun n hn => h.trait? (hd n hn)

theorem TypeDecl.Sound.mono {d : TypeDecl} (hd : d.Sound table) (h : table.Extends table') :
    d.Sound table' where
  conformed n hn := h.trait? (hd.conformed n hn)
  bounding m hm g hg n hn := h.trait? (hd.bounding m hm g hg n hn)
  supertypes sup hsup := by
    obtain ⟨head, args, rfl, hhead⟩ := hd.supertypes sup hsup
    exact ⟨head, args, rfl, h.type? hhead⟩

namespace Table

theorem extends_modifyType {f : TypeDecl → TypeDecl} (hf : ∀ d, (f d).name = d.name) :
    table.Extends (table.modifyType n f) where
  traits := List.Subset.refl _
  types := by
    unfold modifyType
    rw [map_key_modify hf]
    exact List.Subset.refl _

theorem extends_modifyTrait {f : TraitDecl → TraitDecl} (hf : ∀ d, (f d).name = d.name) :
    table.Extends (table.modifyTrait n f) where
  traits := by
    unfold modifyTrait
    rw [map_key_modify hf]
    exact List.Subset.refl _
  types := List.Subset.refl _

/-- All declarations of the table are sound. -/
structure Sound (t : Table) : Prop where
  traits : ∀ d ∈ t.traits, d.Sound t
  types : ∀ d ∈ t.types, d.Sound t

/-- A change of types that keeps their names, and after which they are sound. -/
theorem Sound.modifyType (h : table.Sound) {f : TypeDecl → TypeDecl}
    (hname : ∀ d, (f d).name = d.name)
    (hf : ∀ d, d.Sound (table.modifyType n f) → (f d).Sound (table.modifyType n f)) :
    (table.modifyType n f).Sound where
  traits d hd := (h.traits d hd).mono (extends_modifyType hname)
  types d hd := by
    obtain ⟨d', hd', rfl⟩ := List.mem_map.1 hd
    have hsound := (h.types d' hd').mono (extends_modifyType (n := n) hname)
    split
    · exact hf d' hsound
    · exact hsound

/-- A change of traits that keeps their names and what they refine. -/
theorem Sound.modifyTrait (h : table.Sound) {f : TraitDecl → TraitDecl}
    (hname : ∀ d, (f d).name = d.name) (hf : ∀ d, (f d).refines = d.refines) :
    (table.modifyTrait n f).Sound where
  traits d hd := by
    obtain ⟨d', hd', rfl⟩ := List.mem_map.1 hd
    have hsound := (h.traits d' hd').mono (extends_modifyTrait (n := n) hname)
    split
    · unfold TraitDecl.Sound
      rw [hf]
      exact hsound
    · exact hsound
  types d hd := (h.types d hd).mono (extends_modifyTrait hname)

/-- All that a table refers to is declared in it. -/
theorem Built.sound (h : Built table) : table.Sound := by
  induction h with
  | ofNames names => exact ⟨nofun, nofun⟩
  | @declareTrait t t' name refines _ hok ih =>
    obtain ⟨-, hrefines, rfl⟩ := of_declareTrait hok
    have hextends : t.Extends { t with traits := t.traits ++ [⟨name, refines, []⟩] } := by
      refine ⟨?_, List.Subset.refl _⟩
      rw [List.map_append]
      exact List.subset_append_left _ _
    refine ⟨fun d hd => ?_, fun d hd => (ih.types d hd).mono hextends⟩
    rcases List.mem_append.1 hd with hd | hd
    · exact (ih.traits d hd).mono hextends
    · obtain rfl := List.mem_singleton.1 hd
      exact fun n hn => hextends.trait? (hrefines n hn)
  | @declareType t t' name params _ hok ih =>
    obtain ⟨-, rfl⟩ := of_declareType hok
    have hextends : t.Extends { t with types := t.types ++ [⟨name, params, [], [], []⟩] } := by
      refine ⟨List.Subset.refl _, ?_⟩
      rw [List.map_append]
      exact List.subset_append_left _ _
    refine ⟨fun d hd => (ih.traits d hd).mono hextends, fun d hd => ?_⟩
    rcases List.mem_append.1 hd with hd | hd
    · exact (ih.types d hd).mono hextends
    · obtain rfl := List.mem_singleton.1 hd
      exact ⟨nofun, nofun, nofun⟩
  | addConformance type trait _ hok ih =>
    obtain ⟨htrait, -, rfl⟩ := of_addConformance hok
    refine ih.modifyType (fun d => by split <;> rfl) fun d hd => ?_
    split
    · exact hd
    · refine { hd with conformed := List.forall_mem_append.2 ⟨hd.conformed, ?_⟩ }
      exact List.forall_mem_singleton.2 htrait
  | addSupertype type supertype _ hok ih =>
    obtain ⟨head, args, rfl, hhead, -, -, -, rfl⟩ := of_addSupertype hok
    refine ih.modifyType (fun _ => rfl) fun d hd => ?_
    refine { hd with supertypes := List.forall_mem_append.2 ⟨hd.supertypes, ?_⟩ }
    refine List.forall_mem_singleton.2 ⟨head, args, rfl, Extends.type? ?_ hhead⟩
    exact extends_modifyType fun _ => rfl
  | addMember type member c _ hok ih =>
    obtain ⟨-, hbounds, -, rfl⟩ := of_addMember hok
    refine ih.modifyType (fun _ => rfl) fun d hd => ?_
    refine { hd with bounding := List.forall_mem_append.2 ⟨hd.bounding, ?_⟩ }
    exact List.forall_mem_singleton.2 hbounds
  | addRequirement trait member decl type _ hok ih =>
    obtain ⟨-, -, rfl⟩ := of_addRequirement hok
    exact ih.modifyTrait (fun _ => rfl) fun _ => rfl
  | @setLiteralDefault t kind type _ ih =>
    have hextends : t.Extends (t.setLiteralDefault kind type) :=
      ⟨List.Subset.refl _, List.Subset.refl _⟩
    exact ⟨fun d hd => (ih.traits d hd).mono hextends, fun d hd => (ih.types d hd).mono hextends⟩

/-! ### Refinement -/

/-- The first trait refines the second one. -/
def Refines (t : Table) (n m : Name) : Prop := m ∈ Reach.successors t.refinementGraph n

theorem refines_iff : table.Refines n m ↔ ∃ d, table.trait? n = some d ∧ m ∈ d.refines := by
  unfold Refines refinementGraph
  rw [successors_map]
  show m ∈ ((table.trait? n).map (·.refines)).getD [] ↔ _
  cases table.trait? n <;> simp

theorem refinementGraph_modifyTrait {f : TraitDecl → TraitDecl} (hname : ∀ d, (f d).name = d.name)
    (hf : ∀ d, (f d).refines = d.refines) :
    (table.modifyTrait n f).refinementGraph = table.refinementGraph := by
  unfold refinementGraph modifyTrait
  rw [List.map_map]
  refine List.map_congr_left fun d _ => ?_
  dsimp only [Function.comp_apply]
  split
  · rw [hname, hf]
  · rfl

/-- If nothing leads to a name, then edges that leave it close no cycle. -/
theorem not_transGen_of_source {α : Type} {r r' : α → α → Prop} {x : α} (h : ∀ a, ¬ TransGen r a a)
    (hr : ∀ a b, r' a b → r a b ∨ a = x) (hx : ∀ a, ¬ r' a x) (a : α) : ¬ TransGen r' a a := by
  intro ha
  have hne : ∀ {b c}, TransGen r' b c → c ≠ x := by
    rintro b c hbc rfl
    obtain ⟨d, -, hd⟩ := TransGen.tail'_iff.1 hbc
    exact hx d hd
  have hold : ∀ {b c}, TransGen r' b c → b ≠ x → TransGen r b c := by
    intro b c hbc hb
    induction hbc with
    | single hstep => exact .single ((hr _ _ hstep).resolve_right hb)
    | tail hbd hstep ih => exact ih.tail ((hr _ _ hstep).resolve_right (hne hbd))
  exact h a (hold ha (hne ha))

theorem trait?_declareTrait {name : Name} {refines : List Name} {d : TraitDecl}
    (h : Table.trait? { table with traits := table.traits ++ [⟨name, refines, []⟩] } n = some d) :
    table.trait? n = some d ∨ n = name ∧ d.refines = refines := by
  unfold trait? at h ⊢
  rw [List.find?_append] at h
  rcases Option.or_eq_some_iff.1 h with h | ⟨-, h⟩
  · exact .inl h
  · have hname := List.find?_some h
    obtain rfl := List.mem_singleton.1 (List.mem_of_find?_eq_some h)
    exact .inr ⟨(beq_iff_eq.1 hname).symm, rfl⟩

/-- **No trait is above itself.** -/
theorem Built.refinement_acyclic (h : Built table) : ∀ n, ¬ TransGen table.Refines n n := by
  induction h with
  | ofNames names =>
    intro n hn
    obtain ⟨m, hm, -⟩ := TransGen.head'_iff.1 hn
    cases hm
  | @declareTrait t t' name refines hbuilt hok ih =>
    obtain ⟨hnew, hrefines, rfl⟩ := of_declareTrait hok
    refine not_transGen_of_source ih (x := name) (fun n m hnm => ?_) fun n hn => ?_
    · obtain ⟨d, hd, hm⟩ := refines_iff.1 hnm
      rcases trait?_declareTrait hd with hd | ⟨rfl, -⟩
      · exact .inl (refines_iff.2 ⟨d, hd, hm⟩)
      · exact .inr rfl
    -- All that is refined was declared before, and the new name was not.
    · obtain ⟨d, hd, hm⟩ := refines_iff.1 hn
      have hdeclared : (t.trait? name).isSome = true := by
        rcases trait?_declareTrait hd with hd | ⟨-, hd⟩
        · exact hbuilt.sound.traits d (List.mem_of_find?_eq_some hd) name hm
        · exact hrefines name (hd ▸ hm)
      rw [hnew] at hdeclared
      cases hdeclared
  | declareType name params _ hok ih =>
    obtain ⟨-, rfl⟩ := of_declareType hok
    exact ih
  | addConformance type trait _ hok ih =>
    obtain ⟨-, -, rfl⟩ := of_addConformance hok
    exact ih
  | addSupertype type supertype _ hok ih =>
    obtain ⟨head, args, -, -, -, -, -, rfl⟩ := of_addSupertype hok
    exact ih
  | addMember type member c _ hok ih =>
    obtain ⟨-, -, -, rfl⟩ := of_addMember hok
    exact ih
  | addRequirement trait member decl type _ hok ih =>
    obtain ⟨-, -, rfl⟩ := of_addRequirement hok
    unfold Refines
    rw [refinementGraph_modifyTrait (by exact fun _ => rfl) (by exact fun _ => rfl)]
    exact ih
  | setLiteralDefault kind type _ ih => exact ih

/-- What the operations see to. -/
structure Integrity (t : Table) : Prop where
  /-- The traits that are refined, conformed to or bounding are declared, and supertypes are nominal
  with a declared head. -/
  sound : t.Sound
  refinement : ∀ n, ¬ TransGen t.Refines n n
  supertypes : t.Acyclic
  decls : t.decls.Nodup

theorem Built.integrity (h : Built table) : table.Integrity where
  sound := h.sound
  refinement := h.refinement_acyclic
  supertypes := h.acyclic
  decls := h.nodup_decls

end Table
end TypeResolution
