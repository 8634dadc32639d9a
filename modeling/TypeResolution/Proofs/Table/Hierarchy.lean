/-
# The hierarchy of declared types

In a table that has been built no type is above itself: a supertype is only let in if the type is
not among the supertypes of its head (`Table.Built.acyclic`). So every step up leads to a name from
which fewer declared names can be reached, and a way up has no more steps than there are declared
types (`Table.Acyclic.exists_rank`). Recursion that is bounded by the height of the table sees all
of every way up.

Key definitions: `Table.Parent`, `Table.Acyclic`.
Key theorems: `Table.inheritsFrom_iff`, `Table.Built.acyclic`, `Table.Acyclic.exists_rank`,
`Table.Above.exists_nominal`.
-/
import TypeResolution.Proofs.Table.Instances
import Mathlib.Data.Finset.Card

namespace TypeResolution
namespace Table

variable {table table' : Table} {n m k : Name} {a b : Ty}

/-- The second name is the head of a declared supertype of the first one. -/
def Parent (t : Table) (n m : Name) : Prop := m ∈ Reach.successors t.supertypeGraph n

/-- No name is above itself. -/
def Acyclic (t : Table) : Prop := ∀ n, ¬ Relation.TransGen t.Parent n n

/-- The name of a nominal type. -/
def head? : Ty → Option Name
  | .nominal name _ => some name
  | _ => none

/-- The successors in a graph of declarations are those of the first declaration of the name. -/
theorem successors_map {α : Type} (key : α → Name) (next : α → List Name) (xs : List α) (n : Name) :
    Reach.successors (xs.map fun x => (key x, next x)) n =
      ((xs.find? (key · == n)).map next).getD [] := by
  unfold Reach.successors
  induction xs with
  | nil => rfl
  | cons x xs ih =>
    rw [List.map_cons, List.lookup_cons, List.find?_cons]
    by_cases h : key x = n
    · rw [beq_iff_eq.2 h, beq_iff_eq.2 h.symm]
      rfl
    · rw [beq_eq_false_iff_ne.2 h, beq_eq_false_iff_ne.2 (Ne.symm h)]
      exact ih

theorem successors_supertypeGraph (t : Table) (n : Name) :
    Reach.successors t.supertypeGraph n =
      ((t.type? n).map fun d => d.supertypes.filterMap head?).getD [] :=
  successors_map _ _ _ n

theorem parent_iff : table.Parent n m ↔
    ∃ d args, table.type? n = some d ∧ .nominal m args ∈ d.supertypes := by
  unfold Parent
  rw [successors_supertypeGraph]
  cases table.type? n with
  | none => simp
  | some d =>
    simp only [Option.map_some, Option.getD_some, List.mem_filterMap, Option.some.injEq]
    constructor
    · rintro ⟨sup, hsup, hhead⟩
      cases sup with
      | nominal name args =>
        obtain rfl := Option.some.inj hhead
        exact ⟨d, args, rfl, hsup⟩
      | _ => cases hhead
    · rintro ⟨d, args, rfl, hsup⟩
      exact ⟨_, hsup, rfl⟩

theorem way_iff {graph : Reach.Graph} :
    Reach.Way graph n m ↔ Relation.ReflTransGen (fun n m => m ∈ Reach.successors graph n) n m := by
  constructor
  · intro h
    induction h with
    | refl => exact .refl
    | step hs _ ih => exact .head hs ih
  · intro h
    induction h using Relation.ReflTransGen.head_induction_on with
    | refl => exact .refl m
    | head hs _ ih => exact .step hs ih

/-- What is inherited from is above. -/
theorem inheritsFrom_iff : table.inheritsFrom n m = true ↔ Relation.TransGen table.Parent n m := by
  unfold inheritsFrom
  rw [List.contains_iff_mem, mem_reach, Relation.TransGen.head'_iff]
  exact exists_congr fun r => and_congr_right fun _ => way_iff

/-! ### Cycles -/

/-- A way along the edges of a relation or one more edge does not need this edge, or leads to it
and from it. -/
theorem transGen_of_edge {α : Type} {r r' : α → α → Prop} {x y : α}
    (h : ∀ a b, r' a b → r a b ∨ a = x ∧ b = y) {a b : α} (hab : Relation.TransGen r' a b) :
    Relation.TransGen r a b ∨ Relation.ReflTransGen r a x ∧ Relation.ReflTransGen r y b := by
  induction hab with
  | single hstep =>
    rcases h _ _ hstep with hstep | ⟨rfl, rfl⟩
    · exact .inl (.single hstep)
    · exact .inr ⟨.refl, .refl⟩
  | tail _ hstep ih =>
    rcases h _ _ hstep with hstep | ⟨rfl, rfl⟩
    · rcases ih with ih | ⟨hx, hy⟩
      · exact .inl (ih.tail hstep)
      · exact .inr ⟨hx, hy.tail hstep⟩
    · rcases ih with ih | ⟨hx, -⟩
      · exact .inr ⟨ih.to_reflTransGen, .refl⟩
      · exact .inr ⟨hx, .refl⟩

theorem Acyclic.mono (h : table.Acyclic) (hparent : ∀ n m, table'.Parent n m → table.Parent n m) :
    table'.Acyclic := fun n hn => h n (Relation.TransGen.mono hparent n n hn)

/-- One more edge closes no cycle if it leads to a name from which none leads back. -/
theorem Acyclic.edge (h : table.Acyclic) (hne : m ≠ n)
    (hback : ¬ Relation.TransGen table.Parent m n)
    (hparent : ∀ a b, table'.Parent a b → table.Parent a b ∨ a = n ∧ b = m) :
    table'.Acyclic := by
  intro k hk
  rcases transGen_of_edge hparent hk with hk | ⟨hn, hm⟩
  · exact h k hk
  · rcases (Relation.reflTransGen_iff_eq_or_transGen.1 (hm.trans hn)) with heq | hback'
    · exact hne heq.symm
    · exact hback hback'

theorem type?_modifyType {f : TypeDecl → TypeDecl} (hf : ∀ d, (f d).name = d.name) :
    (table.modifyType m f).type? n =
      (table.type? n).map fun d => if d.name = m then f d else d := by
  unfold type? modifyType
  rw [List.find?_map]
  congr 2
  funext d
  show ((if d.name = m then f d else d).name == n) = _
  split
  · rw [hf]
  · rfl

theorem name_of_type? {d : TypeDecl} (h : table.type? n = some d) : d.name = n := by
  have hname := List.find?_some h
  exact beq_iff_eq.1 hname

/-- A change that leaves the supertypes as they are adds no edge. -/
theorem Acyclic.modifyType {f : TypeDecl → TypeDecl} (h : table.Acyclic)
    (hname : ∀ d, (f d).name = d.name) (hf : ∀ d, (f d).supertypes = d.supertypes) :
    (table.modifyType k f).Acyclic := by
  refine h.mono fun n m hparent => ?_
  obtain ⟨d, args, hd, hsup⟩ := parent_iff.1 hparent
  rw [type?_modifyType hname] at hd
  obtain ⟨d', hd', rfl⟩ := Option.map_eq_some_iff.1 hd
  refine parent_iff.2 ⟨d', args, hd', ?_⟩
  split at hsup
  · rwa [hf] at hsup
  · exact hsup

/-- **In a table that has been built no type is above itself.** -/
theorem Built.acyclic (h : Built table) : table.Acyclic := by
  induction h with
  | ofNames names =>
    intro n hn
    obtain ⟨m, hm, -⟩ := Relation.TransGen.head'_iff.1 hn
    cases hm
  | declareTrait name refines _ hok ih =>
    obtain ⟨-, -, rfl⟩ := of_declareTrait hok
    exact ih
  | @declareType t _ name params _ hok ih =>
    obtain ⟨-, rfl⟩ := of_declareType hok
    refine ih.mono fun n m hparent => ?_
    obtain ⟨d, args, hd, hsup⟩ := parent_iff.1 hparent
    unfold type? at hd
    rw [List.find?_append] at hd
    rcases Option.or_eq_some_iff.1 hd with hd | ⟨-, hd⟩
    · exact parent_iff.2 ⟨d, args, hd, hsup⟩
    · rw [List.mem_singleton.1 (List.mem_of_find?_eq_some hd)] at hsup
      cases hsup
  | addConformance type trait _ hok ih =>
    obtain ⟨-, -, rfl⟩ := of_addConformance hok
    refine ih.modifyType (fun d => ?_) fun d => ?_
    · split <;> rfl
    · split <;> rfl
  | addSupertype type supertype _ hok ih =>
    obtain ⟨head, args, rfl, -, hne, hinherits, -, rfl⟩ := of_addSupertype hok
    have hback := mt inheritsFrom_iff.2 (Bool.eq_false_iff.1 hinherits)
    refine ih.edge hne hback fun n m hparent => ?_
    obtain ⟨d, args', hd, hsup⟩ := parent_iff.1 hparent
    rw [type?_modifyType (by exact fun _ => rfl)] at hd
    obtain ⟨d', hd', rfl⟩ := Option.map_eq_some_iff.1 hd
    split at hsup
    · rename_i hname
      rcases List.mem_append.1 hsup with hsup | hsup
      · exact .inl (parent_iff.2 ⟨d', args', hd', hsup⟩)
      · exact .inr ⟨(name_of_type? hd').symm.trans hname,
          (Ty.nominal.inj (List.mem_singleton.1 hsup)).1⟩
    · exact .inl (parent_iff.2 ⟨d', args', hd', hsup⟩)
  | addMember type member c _ hok ih =>
    obtain ⟨-, -, -, rfl⟩ := of_addMember hok
    exact ih.modifyType (fun _ => rfl) fun _ => rfl
  | addRequirement trait member decl type _ hok ih =>
    obtain ⟨-, -, rfl⟩ := of_addRequirement hok
    exact ih
  | setLiteralDefault kind type _ ih => exact ih

/-! ### Heights -/

open Classical in
/-- Names have heights that no way up outruns. -/
theorem Acyclic.exists_rank (h : table.Acyclic) : ∃ rank : Name → Nat,
    (∀ n m, table.Parent n m → rank m < rank n) ∧ ∀ n, rank n ≤ table.types.length := by
  -- The height of a name is the number of declared names that are the name or above it.
  let upward (n : Name) : Finset Name :=
    (table.types.map (·.name)).toFinset.filter (Relation.ReflTransGen table.Parent n)
  refine ⟨fun n => (upward n).card, fun n m hparent => Finset.card_lt_card ?_, fun n => ?_⟩
  · have hn : n ∈ upward n := by
      obtain ⟨d, args, hd, -⟩ := parent_iff.1 hparent
      refine Finset.mem_filter.2 ⟨List.mem_toFinset.2 (List.mem_map.2 ?_), .refl⟩
      exact ⟨d, mem_of_type? hd, name_of_type? hd⟩
    have hn' : n ∉ upward m := fun hmem =>
      h n (.head' hparent (Finset.mem_filter.1 hmem).2)
    refine Finset.ssubset_iff_subset_ne.2 ⟨fun k hk => ?_, fun heq => hn' (heq ▸ hn)⟩
    obtain ⟨hdeclared, hway⟩ := Finset.mem_filter.1 hk
    exact Finset.mem_filter.2 ⟨hdeclared, .head hparent hway⟩
  · calc (upward n).card
      _ ≤ (table.types.map (·.name)).toFinset.card := Finset.card_filter_le _ _
      _ ≤ (table.types.map (·.name)).length := List.toFinset_card_le _
      _ = table.types.length := List.length_map _

/-! ### Ways up -/

/-- A step up leads from a nominal type to one whose name is a parent. -/
theorem exists_parent (hnominal : table.Nominal) (h : b ∈ table.supertypes a) :
    ∃ n as m bs, a = .nominal n as ∧ b = .nominal m bs ∧ table.Parent n m := by
  cases a with
  | nominal n as =>
    rw [supertypes_nominal] at h
    cases hd : table.type? n with
    | none =>
      rw [hd] at h
      cases h
    | some d =>
      rw [hd] at h
      obtain ⟨sup, hsup, rfl⟩ := List.mem_map.1 h
      obtain ⟨m, args, rfl⟩ := hnominal d (mem_of_type? hd) sup hsup
      exact ⟨n, as, m, _, rfl, rfl, parent_iff.2 ⟨d, args, hd, hsup⟩⟩
  | _ => cases h

/-- A way up leads from a name to one above it. -/
theorem Above.exists_nominal (hnominal : table.Nominal) {as : List Ty}
    (h : table.Above (.nominal n as) b) :
    ∃ m bs, b = .nominal m bs ∧ Relation.TransGen table.Parent n m := by
  induction h with
  | single hb =>
    obtain ⟨n, as, m, bs, heq, rfl, hparent⟩ := exists_parent hnominal hb
    obtain ⟨rfl, -⟩ := Ty.nominal.inj heq
    exact ⟨m, bs, rfl, .single hparent⟩
  | tail _ hc ih =>
    obtain ⟨m, bs, rfl, hway⟩ := ih
    obtain ⟨m', bs', k, cs, heq, rfl, hparent⟩ := exists_parent hnominal hc
    obtain ⟨rfl, -⟩ := Ty.nominal.inj heq
    exact ⟨k, cs, rfl, hway.tail hparent⟩

end Table
end TypeResolution
