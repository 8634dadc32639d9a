/-
# What operations ask for and what they do

An operation on a table is let through if the table is as it asks for
(`Table.Operation.Admissible`), and then it changes the table in one place
(`Table.Operation.effect`). Both are said of names by whether they are equal, so an operation on
renamed names does the same to a renamed table.

What completes two types may be done in either order. None of it takes back what the other one asks
for, and an operation that comes first now has less to be checked against. Only for a supertype that
comes second now there is more, the supertypes of the other type; but if these closed a cycle with
it, they did so the first time as well.

Key definitions: `Table.Operation.Admissible`, `Table.Operation.effect`, `Table.Completion`,
`Table.runAll`.
Key theorems: `Table.Operation.on_eq_ok_iff`, `Table.Renames.on`, `Table.runAll_declareType_perm`,
`Table.Completion.swap`, `Table.runAll_perm`.
-/
import TypeResolution.Proofs.Table.Renaming

open Relation (TransGen)

namespace TypeResolution
namespace Table

variable {table table' t t' u : Table} {ρ : Name → Name} {n m type : Name} {op : Operation}

/-! ### Operations -/

/-- One more thing to be said of a declared type. -/
inductive Completion where
  | conformance (trait : Name)
  | supertype (sup : Ty)
  | member (name : Name) (c : Candidate)

namespace Completion

/-- The declaration with what is said added to it. -/
def edit : Completion → TypeDecl → TypeDecl
  | conformance trait, d =>
    if trait ∈ d.conformances then d else { d with conformances := d.conformances ++ [trait] }
  | supertype sup, d => { d with supertypes := d.supertypes ++ [sup] }
  | member name c, d => { d with members := d.members ++ [(name, c)] }

/-- What says it of a type. -/
def operation (type : Name) : Completion → Operation
  | conformance trait => .addConformance type trait
  | supertype sup => .addSupertype type sup
  | member name c => .addMember type name c

@[simp]
theorem name_edit (c : Completion) (d : TypeDecl) : (c.edit d).name = d.name := by
  cases c with
  | conformance trait =>
    show (ite _ _ _ : TypeDecl).name = d.name
    split <;> rfl
  | _ => rfl

end Completion

namespace Operation

/-- What the operation asks for. -/
def Admissible (t : Table) : Operation → Prop
  | declareTrait name refines =>
    (t.trait? name).isSome = false ∧ ∀ n ∈ refines, (t.trait? n).isSome = true
  | declareType name _ => (t.type? name).isSome = false
  | addConformance type trait => (t.trait? trait).isSome = true ∧ (t.type? type).isSome = true
  | addSupertype type supertype => ∃ head args, supertype = .nominal head args ∧
      (t.type? head).isSome = true ∧ head ≠ type ∧ t.inheritsFrom head type = false ∧
      (t.type? type).isSome = true
  | addMember type _ c => (t.type? type).isSome = true ∧
      (∀ g ∈ c.generics, ∀ n ∈ g.bounds, (t.trait? n).isSome = true) ∧ c.decl ∉ t.decls
  | addRequirement trait _ decl _ => (t.trait? trait).isSome = true ∧ decl ∉ t.decls
  | setLiteralDefault _ _ => True

/-- What the operation makes of a table. -/
def effect (t : Table) : Operation → Table
  | declareTrait name refines => { t with traits := t.traits ++ [⟨name, refines, []⟩] }
  | declareType name params => { t with types := t.types ++ [⟨name, params, [], [], []⟩] }
  | addConformance type trait => t.modifyType type (Completion.conformance trait).edit
  | addSupertype type supertype => t.modifyType type (Completion.supertype supertype).edit
  | addMember type member c => t.modifyType type (Completion.member member c).edit
  | addRequirement trait member decl type => t.modifyTrait trait fun d =>
      { d with requirements := d.requirements ++ [(member, .plain decl type)] }
  | setLiteralDefault kind type => t.setLiteralDefault kind type

end Operation

theorem checkTraits_eq_ok : ∀ {names : List Name}, (∀ n ∈ names, (table.trait? n).isSome = true) →
    table.checkTraits names = .ok ()
  | [], _ => rfl
  | n :: names, h => by
    obtain ⟨hn, hnames⟩ := List.forall_mem_cons.1 h
    rw [checkTraits, if_pos hn]
    exact checkTraits_eq_ok hnames

/-- A guard is passed. -/
theorem guard_eq_ok {p : Prop} [Decidable p] {e : TableError}
    {rest : PUnit → Except TableError Table} (hp : ¬ p) (h : rest () = .ok table') :
    (if p then throw e >>= rest else rest ()) = .ok table' := (if_neg hp).trans h

/-- A check is passed. -/
theorem check_eq_ok {check : Except TableError Unit} {rest : Unit → Except TableError Table}
    (hcheck : check = .ok ()) (h : rest () = .ok table') : check >>= rest = .ok table' := by
  rw [hcheck]
  exact h

/-- Nothing else is asked for. -/
theorem Operation.on_eq_ok (h : op.Admissible table) : op.on table = .ok (op.effect table) := by
  have hsome : ∀ {α : Type} {x : Option α}, x.isSome = true → ¬ x.isNone = true := by
    intro α x hx
    cases x with
    | none => cases hx
    | some _ => nofun
  cases op with
  | declareTrait name refines =>
    show table.declareTrait name refines = _
    unfold Table.declareTrait
    exact guard_eq_ok (Bool.eq_false_iff.1 h.1) (check_eq_ok (checkTraits_eq_ok h.2) rfl)
  | declareType name params =>
    show table.declareType name params = _
    unfold Table.declareType
    exact guard_eq_ok (Bool.eq_false_iff.1 h) rfl
  | addConformance type trait =>
    show table.addConformance type trait = _
    unfold Table.addConformance
    refine check_eq_ok (checkTraits_eq_ok (List.forall_mem_singleton.2 h.1)) ?_
    exact guard_eq_ok (hsome h.2) rfl
  | addSupertype type supertype =>
    obtain ⟨head, args, rfl, hhead, hne, hinherits, htype⟩ := h
    show table.addSupertype type (.nominal head args) = _
    unfold Table.addSupertype
    refine guard_eq_ok (hsome hhead) (guard_eq_ok ?_ (guard_eq_ok (hsome htype) rfl))
    exact not_or.2 ⟨hne, Bool.eq_false_iff.1 hinherits⟩
  | addMember type member c =>
    obtain ⟨htype, hbounds, hnew⟩ := h
    show table.addMember type member c = _
    unfold Table.addMember
    refine guard_eq_ok (hsome htype) (check_eq_ok (checkTraits_eq_ok ?_) (guard_eq_ok hnew rfl))
    intro n hn
    obtain ⟨g, hg, hn⟩ := List.mem_flatMap.1 hn
    exact hbounds g hg n hn
  | addRequirement trait member decl type =>
    show table.addRequirement trait member decl type = _
    unfold Table.addRequirement
    refine check_eq_ok (checkTraits_eq_ok (List.forall_mem_singleton.2 h.1)) ?_
    exact guard_eq_ok h.2 rfl
  | setLiteralDefault kind type => rfl

/-- **An operation does what it does if it finds what it asks for**, and is refused otherwise. -/
theorem Operation.on_eq_ok_iff : op.on table = .ok table' ↔
    op.Admissible table ∧ table' = op.effect table := by
  refine ⟨fun h => ?_, fun ⟨hadmissible, heq⟩ => heq ▸ on_eq_ok hadmissible⟩
  cases op with
  | declareTrait name refines =>
    obtain ⟨hnew, hrefines, rfl⟩ := of_declareTrait h
    exact ⟨⟨hnew, hrefines⟩, rfl⟩
  | declareType name params => exact of_declareType h
  | addConformance type trait =>
    obtain ⟨htrait, htype, rfl⟩ := of_addConformance h
    exact ⟨⟨htrait, htype⟩, rfl⟩
  | addSupertype type supertype =>
    obtain ⟨head, args, heq, hhead, hne, hinherits, htype, rfl⟩ := of_addSupertype h
    exact ⟨⟨head, args, heq, hhead, hne, hinherits, htype⟩, rfl⟩
  | addMember type member c =>
    obtain ⟨htype, hbounds, hnew, rfl⟩ := of_addMember h
    exact ⟨⟨htype, hbounds, hnew⟩, rfl⟩
  | addRequirement trait member decl type =>
    obtain ⟨htrait, hnew, rfl⟩ := of_addRequirement h
    exact ⟨⟨htrait, hnew⟩, rfl⟩
  | setLiteralDefault kind type => exact ⟨trivial, (Except.ok.inj h).symm⟩

/-! ### Renamed operations -/

/-- The operation on the new names. -/
def Operation.rename (ρ : Name → Name) : Operation → Operation
  | declareTrait name refines => declareTrait (ρ name) (refines.map ρ)
  | declareType name params => declareType (ρ name) (params.map ρ)
  | addConformance type trait => addConformance (ρ type) (ρ trait)
  | addSupertype type supertype => addSupertype (ρ type) (supertype.rename ρ)
  | addMember type member c => addMember (ρ type) (ρ member) (c.rename ρ)
  | addRequirement trait member decl type =>
    addRequirement (ρ trait) (ρ member) decl (type.rename ρ)
  | setLiteralDefault kind type => setLiteralDefault kind (type.rename ρ)

/-- What a renaming makes of the items that are changed at one key. -/
theorem map_modify_rename {α : Type} (key : α → Name) {f f' r : α → α}
    (hρ : Function.Injective ρ) (hkey : ∀ x, key (r x) = ρ (key x)) (hf : ∀ x, f' (r x) = r (f x))
    (xs : List α) : (xs.map r).map (fun x => if key x = ρ n then f' x else x) =
      (xs.map fun x => if key x = n then f x else x).map r := by
  rw [List.map_map, List.map_map]
  refine List.map_congr_left fun x _ => ?_
  dsimp only [Function.comp_apply]
  by_cases h : key x = n
  · rw [if_pos h, if_pos ((hkey x).trans (congrArg ρ h)), hf]
  · rw [if_neg h, if_neg fun heq => h (hρ ((hkey x).symm.trans heq))]

/-- What completes a declaration, on the new names. -/
def Completion.rename (ρ : Name → Name) : Completion → Completion
  | conformance trait => conformance (ρ trait)
  | supertype sup => .supertype (sup.rename ρ)
  | member name c => member (ρ name) (c.rename ρ)

theorem Completion.edit_rename (hρ : Function.Injective ρ) (c : Completion) (d : TypeDecl) :
    (c.rename ρ).edit (d.rename ρ) = (c.edit d).rename ρ := by
  cases c with
  | conformance trait =>
    show (if ρ trait ∈ d.conformances.map ρ then d.rename ρ else _) =
      (ite _ _ _ : TypeDecl).rename ρ
    by_cases h : trait ∈ d.conformances
    · rw [if_pos h, if_pos (List.mem_map_of_mem h)]
    · rw [if_neg h, if_neg fun hmem => h ((List.mem_map_of_injective hρ).1 hmem)]
      unfold TypeDecl.rename
      rw [List.map_append]
      rfl
  | supertype sup =>
    unfold Completion.edit Completion.rename TypeDecl.rename
    rw [List.map_append]
    rfl
  | member name c =>
    unfold Completion.edit Completion.rename TypeDecl.rename
    rw [List.map_append]
    rfl

namespace Renames

variable (h : t.Renames ρ t')
include h

theorem mem_decls {d : DeclId} : d ∈ t'.decls ↔ d ∈ t.decls := by
  have hmembers : ∀ members : List (Name × Candidate),
      (members.map (renameMember ρ)).map (·.2.decl) = members.map (·.2.decl) := fun members => by
    rw [List.map_map]
    rfl
  have htypes : ∀ e : TypeDecl, (e.rename ρ).members.map (·.2.decl) = e.members.map (·.2.decl) :=
    fun e => hmembers e.members
  have htraits : ∀ e : TraitDecl,
      (e.rename ρ).requirements.map (·.2.decl) = e.requirements.map (·.2.decl) :=
    fun e => hmembers e.requirements
  unfold decls
  rw [List.mem_append, List.mem_append, (h.types.flatMap_right _).mem_iff, h.traits,
    List.flatMap_map, List.flatMap_map]
  simp only [htypes, htraits]

theorem isSome_trait? (n : Name) : (t'.trait? (ρ n)).isSome = (t.trait? n).isSome := by
  rw [h.trait?, Option.isSome_map]

theorem isSome_type? (n : Name) : (t'.type? (ρ n)).isSome = (t.type? n).isSome := by
  rw [h.type?, Option.isSome_map]

/-- The renamed table is as the renamed operation asks for. -/
theorem admissible (hop : op.Admissible t) : (op.rename ρ).Admissible t' := by
  cases op with
  | declareTrait name refines =>
    refine ⟨(h.isSome_trait? name).trans hop.1, List.forall_mem_map.2 fun n hn => ?_⟩
    exact (h.isSome_trait? n).trans (hop.2 n hn)
  | declareType name params => exact (h.isSome_type? name).trans hop
  | addConformance type trait =>
    exact ⟨(h.isSome_trait? trait).trans hop.1, (h.isSome_type? type).trans hop.2⟩
  | addSupertype type supertype =>
    obtain ⟨head, args, rfl, hhead, hne, hinherits, htype⟩ := hop
    exact ⟨ρ head, args.map (Ty.rename ρ), Ty.rename_nominal ρ head args,
      (h.isSome_type? head).trans hhead, h.injective.ne hne,
      (h.inheritsFrom head type).trans hinherits, (h.isSome_type? type).trans htype⟩
  | addMember type member c =>
    obtain ⟨htype, hbounds, hnew⟩ := hop
    refine ⟨(h.isSome_type? type).trans htype, List.forall_mem_map.2 fun g hg => ?_,
      fun hmem => hnew (h.mem_decls.1 hmem)⟩
    exact List.forall_mem_map.2 fun n hn => (h.isSome_trait? n).trans (hbounds g hg n hn)
  | addRequirement trait member decl type =>
    exact ⟨(h.isSome_trait? trait).trans hop.1, fun hmem => hop.2 (h.mem_decls.1 hmem)⟩
  | setLiteralDefault kind type => trivial

theorem modifyType {type : Name} {c : Completion} (hbuilt : (t.modifyType type c.edit).Built) :
    (t.modifyType type c.edit).Renames ρ (t'.modifyType (ρ type) (c.rename ρ).edit) := by
  refine { h with built := hbuilt, types := ?_ }
  refine (h.types.map _).trans (.of_eq ?_)
  exact map_modify_rename TypeDecl.name h.injective (fun _ => rfl)
    (c.edit_rename h.injective) t.types

/-- **A renamed operation does the same to a renamed table.** -/
theorem on (hop : op.on t = .ok u) :
    ∃ u', (op.rename ρ).on t' = .ok u' ∧ u.Renames ρ u' := by
  have hbuilt := h.built.on hop
  obtain ⟨hadmissible, rfl⟩ := Operation.on_eq_ok_iff.1 hop
  refine ⟨_, Operation.on_eq_ok_iff.2 ⟨h.admissible hadmissible, rfl⟩, ?_⟩
  cases op with
  | declareTrait name refines =>
    refine { h with built := hbuilt, traits := ?_ }
    show t'.traits ++ _ = (t.traits ++ _).map _
    rw [h.traits, List.map_append]
    rfl
  | declareType name params =>
    refine { h with built := hbuilt, types := ?_ }
    show (t'.types ++ _).Perm ((t.types ++ _).map _)
    rw [List.map_append]
    exact h.types.append_right _
  | addConformance type trait => exact h.modifyType hbuilt
  | addSupertype type supertype => exact h.modifyType hbuilt
  | addMember type member c => exact h.modifyType hbuilt
  | addRequirement trait member decl type =>
    refine { h with built := hbuilt, traits := ?_ }
    show t'.traits.map _ = (t.traits.map _).map _
    rw [h.traits]
    refine map_modify_rename TraitDecl.name h.injective (fun _ => rfl) (fun d => ?_) t.traits
    unfold TraitDecl.rename
    rw [List.map_append]
    rfl
  | setLiteralDefault kind type =>
    refine { h with built := hbuilt, literalDefaults := ?_ }
    show _ :: t'.literalDefaults.filter _ = (_ :: t.literalDefaults.filter _).map _
    rw [h.literalDefaults, List.filter_map, List.map_cons]
    rfl

end Renames

/-! ### Operations one after the other -/

/-- The table after all operations, unless one of them is refused. -/
def runAll (ops : List Operation) (t : Table) : Except TableError Table :=
  ops.foldlM (fun t op => op.on t) t

theorem runAll_cons_eq_ok {ops : List Operation} :
    runAll (op :: ops) t = .ok u ↔ ∃ t₁, op.on t = .ok t₁ ∧ runAll ops t₁ = .ok u := by
  unfold runAll
  rw [List.foldlM_cons]
  cases op.on t with
  | error e => exact iff_of_false nofun nofun
  | ok t₁ => exact ⟨fun h => ⟨t₁, rfl, h⟩, fun ⟨_, heq, h⟩ => Except.ok.inj heq ▸ h⟩

theorem runAll_append_eq_ok {ops ops' : List Operation} :
    runAll (ops ++ ops') t = .ok u ↔ ∃ t₁, runAll ops t = .ok t₁ ∧ runAll ops' t₁ = .ok u := by
  induction ops generalizing t with
  | nil => exact ⟨fun h => ⟨t, rfl, h⟩, fun ⟨_, heq, h⟩ => Except.ok.inj heq ▸ h⟩
  | cons op ops ih =>
    rw [List.cons_append, runAll_cons_eq_ok]
    simp only [ih, runAll_cons_eq_ok]
    constructor
    · rintro ⟨t₁, hop, t₂, hops, hops'⟩
      exact ⟨t₂, ⟨t₁, hop, hops⟩, hops'⟩
    · rintro ⟨t₂, ⟨t₁, hop, hops⟩, hops'⟩
      exact ⟨t₁, hop, t₂, hops, hops'⟩

theorem runAll_singleton (op : Operation) (t : Table) : runAll [op] t = op.on t := by
  unfold runAll
  rw [List.foldlM_cons]
  exact bind_pure _

theorem Built.runAll {ops : List Operation} (h : t.Built) (hops : runAll ops t = .ok u) :
    u.Built := by
  induction ops generalizing t with
  | nil => exact Except.ok.inj hops ▸ h
  | cons op ops ih =>
    obtain ⟨t₁, hop, hops⟩ := runAll_cons_eq_ok.1 hops
    exact ih (h.on hop) hops

/-! ### The order of declarations -/

/-- The type of a name and its parameters, of which nothing more is said yet. -/
def bare (p : Name × List Name) : TypeDecl := ⟨p.1, p.2, [], [], []⟩

/-- One more type is declared. -/
theorem isSome_type?_declareType (p : Name × List Name) (n : Name) :
    ((Operation.effect t (.declareType p.1 p.2)).type? n).isSome = false ↔
      (t.type? n).isSome = false ∧ p.1 ≠ n := by
  show (List.find? (·.name == n) (t.types ++ [bare p])).isSome = false ↔ _
  rw [List.find?_append, Option.isSome_or, Bool.or_eq_false_iff, List.find?_singleton]
  refine and_congr_right fun _ => ?_
  by_cases h : p.1 = n
  · rw [if_pos (show ((bare p).name == n) = true from beq_iff_eq.2 h)]
    exact iff_of_false nofun (not_not_intro h)
  · rw [if_neg (show ¬ ((bare p).name == n) = true from mt beq_iff_eq.1 h)]
    exact iff_of_true rfl h

/-- **Types are declared** if they have different names and none of them is there already. -/
theorem runAll_declareType_eq_ok {ps : List (Name × List Name)} :
    runAll (ps.map fun p => .declareType p.1 p.2) t = .ok u ↔
      ((∀ p ∈ ps, (t.type? p.1).isSome = false) ∧ (ps.map (·.1)).Nodup) ∧
        u = { t with types := t.types ++ ps.map bare } := by
  induction ps generalizing t with
  | nil =>
    rw [List.map_nil, List.map_nil, List.map_nil, List.append_nil]
    exact ⟨fun h => ⟨⟨nofun, List.nodup_nil⟩, (Except.ok.inj h).symm⟩, fun h => h.2 ▸ rfl⟩
  | cons p ps ih =>
    have htypes : t.types ++ (p :: ps).map bare = (t.types ++ [bare p]) ++ ps.map bare := by
      rw [List.map_cons, List.append_assoc]
      rfl
    rw [List.map_cons, runAll_cons_eq_ok, htypes, List.forall_mem_cons, List.map_cons,
      List.nodup_cons]
    simp only [Operation.on_eq_ok_iff, ih]
    constructor
    · rintro ⟨_, ⟨hnew, rfl⟩, ⟨hnone, hnodup⟩, rfl⟩
      have hother := fun q (hq : q ∈ ps) => (isSome_type?_declareType p q.1).1 (hnone q hq)
      refine ⟨⟨⟨hnew, fun q hq => (hother q hq).1⟩, fun hmem => ?_, hnodup⟩, rfl⟩
      obtain ⟨q, hq, heq⟩ := List.mem_map.1 hmem
      exact (hother q hq).2 heq.symm
    · rintro ⟨⟨⟨hnew, hnone⟩, hother, hnodup⟩, rfl⟩
      refine ⟨_, ⟨hnew, rfl⟩, ⟨fun q hq => ?_, hnodup⟩, rfl⟩
      refine (isSome_type?_declareType p q.1).2 ⟨hnone q hq, fun heq => hother ?_⟩
      exact List.mem_map.2 ⟨q, hq, heq.symm⟩

/-- **Types may be declared in any order**, which is the order that they then have. -/
theorem runAll_declareType_perm {ps ps' : List (Name × List Name)} (hperm : ps.Perm ps')
    (h : runAll (ps.map fun p => .declareType p.1 p.2) t = .ok u) :
    ∃ types, types.Perm u.types ∧
      runAll (ps'.map fun p => .declareType p.1 p.2) t = .ok { u with types := types } := by
  obtain ⟨⟨hnone, hnodup⟩, rfl⟩ := runAll_declareType_eq_ok.1 h
  refine ⟨_, .append_left _ (hperm.symm.map bare), runAll_declareType_eq_ok.2 ⟨⟨?_, ?_⟩, rfl⟩⟩
  · exact fun p hp => hnone p (hperm.mem_iff.2 hp)
  · exact (hperm.map _).nodup_iff.1 hnodup

namespace Renames

/-- The order of the types is of no account on the left as well. -/
theorem of_perm {types : List TypeDecl} (h : ({ t with types := types } : Table).Renames ρ t')
    (hperm : types.Perm t.types) (hbuilt : t.Built) : t.Renames ρ t' :=
  { h with built := hbuilt, types := h.types.trans (hperm.map _) }

end Renames

/-! ### The order of completions -/

namespace Completion

variable {c c' : Completion}

theorem effect_operation (c : Completion) (type : Name) (t : Table) :
    (c.operation type).effect t = t.modifyType type c.edit := by
  cases c <;> rfl

theorem isSome_type?_modifyType (c : Completion) (type : Name) (t : Table) (n : Name) :
    ((t.modifyType type c.edit).type? n).isSome = (t.type? n).isSome := by
  rw [type?_modifyType c.name_edit, Option.isSome_map]

/-- Types only gain supertypes. -/
theorem parent_modifyType (c : Completion) (h : t.Parent n m) :
    (t.modifyType type c.edit).Parent n m := by
  obtain ⟨d, args, hd, hsup⟩ := parent_iff.1 h
  refine parent_iff.2 ⟨_, args, (type?_modifyType c.name_edit).trans (congrArg _ hd), ?_⟩
  dsimp only
  split
  · cases c with
    | conformance trait =>
      show _ ∈ (ite _ _ _ : TypeDecl).supertypes
      split <;> exact hsup
    | supertype sup => exact List.mem_append_left _ hsup
    | member name c => exact hsup
  · exact hsup

/-- The changes of two types do not meet. -/
theorem modifyType_comm (hne : n ≠ m) (c c' : Completion) (t : Table) :
    (t.modifyType n c.edit).modifyType m c'.edit =
      (t.modifyType m c'.edit).modifyType n c.edit := by
  unfold modifyType
  dsimp only
  rw [List.map_map, List.map_map]
  congr 1
  refine List.map_congr_left fun d _ => ?_
  dsimp only [Function.comp_apply]
  by_cases hn : d.name = n
  · have hm : d.name ≠ m := hn ▸ hne
    rw [if_pos hn, if_neg hm, if_pos hn, if_neg (by rwa [name_edit])]
  · rw [if_neg hn]
    by_cases hm : d.name = m
    · rw [if_pos hm, if_neg (by rwa [name_edit])]
    · rw [if_neg hm, if_neg hn]

/-- What comes second may come first. -/
theorem admissible_first (hbuilt : t.Built) (hop : (c.operation n).on t = .ok u)
    (h : (c'.operation m).Admissible u) : (c'.operation m).Admissible t := by
  have hdecls := fun d => hbuilt.mem_decls_on hop (d := d)
  obtain ⟨-, rfl⟩ := Operation.on_eq_ok_iff.1 hop
  rw [effect_operation] at h hdecls
  have htype := isSome_type?_modifyType c n t
  cases c' with
  | conformance trait => exact ⟨h.1, (htype m).symm.trans h.2⟩
  | supertype sup =>
    obtain ⟨head, args, rfl, hhead, hne, hinherits, hm⟩ := h
    refine ⟨head, args, rfl, (htype head).symm.trans hhead, hne, ?_, (htype m).symm.trans hm⟩
    refine Bool.eq_false_iff.2 fun hold => Bool.eq_false_iff.1 hinherits ?_
    exact inheritsFrom_iff.2
      (TransGen.mono (fun _ _ => parent_modifyType c) _ _ (inheritsFrom_iff.1 hold))
  | member name c₀ =>
    obtain ⟨hm, hbounds, hnew⟩ := h
    exact ⟨(htype m).symm.trans hm, hbounds, fun hmem =>
      hnew ((hdecls _).2 (List.mem_append_right _ hmem))⟩

/-- A supertype is not below its type if it is declared in the other order: a way down would close a
cycle in the table with both declarations. -/
theorem not_inheritsFrom_swapped {head : Name} (args : List Ty) (hne : n ≠ m)
    (hn : (t.type? n).isSome = true)
    (hbuilt : ((t.modifyType n (supertype (.nominal head args)).edit).modifyType m c'.edit).Built) :
    (t.modifyType m c'.edit).inheritsFrom head n = false := by
  refine Bool.eq_false_iff.2 fun hback => ?_
  obtain ⟨d, hd⟩ := Option.isSome_iff_exists.1 hn
  have hparent : (t.modifyType n (supertype (.nominal head args)).edit).Parent n head := by
    refine parent_iff.2 ⟨_, args, (type?_modifyType (name_edit _)).trans (congrArg _ hd), ?_⟩
    dsimp only
    rw [if_pos (name_of_type? hd)]
    exact List.mem_concat_self
  refine hbuilt.acyclic n (.head (parent_modifyType c' hparent) ?_)
  rw [modifyType_comm hne]
  exact TransGen.mono (fun _ _ => parent_modifyType _) _ _ (inheritsFrom_iff.1 hback)

/-- What comes first may come second. -/
theorem admissible_second (hbuilt : t.Built) (hop : (c.operation n).on t = .ok u)
    (hop' : (c'.operation m).on u = .ok u') (hfirst : (c'.operation m).on t = .ok t')
    (hne : n ≠ m) :
    (c.operation n).Admissible t' := by
  have hbuilt' := hbuilt.on hop
  have hclaimed := fun d => hbuilt.mem_decls_on hop (d := d)
  have hclaimed' := fun d => hbuilt.mem_decls_on hfirst (d := d)
  obtain ⟨hadmissible, hu⟩ := Operation.on_eq_ok_iff.1 hop
  obtain ⟨hadmissible', hu'⟩ := Operation.on_eq_ok_iff.1 hop'
  obtain ⟨-, ht'⟩ := Operation.on_eq_ok_iff.1 hfirst
  rw [effect_operation] at hu hu' ht'
  have htype := isSome_type?_modifyType c' m t
  rw [← ht'] at htype
  have htrait : t'.trait? = t.trait? := by
    rw [ht']
    rfl
  cases c with
  | conformance trait => exact ⟨htrait ▸ hadmissible.1, (htype n).trans hadmissible.2⟩
  | supertype sup =>
    obtain ⟨head, args, rfl, hhead, hne', -, hn⟩ := hadmissible
    refine ⟨head, args, rfl, (htype head).trans hhead, hne', ?_, (htype n).trans hn⟩
    rw [ht']
    refine not_inheritsFrom_swapped args hne hn ?_
    rw [← hu, ← hu']
    exact hbuilt'.on hop'
  | member name c₀ =>
    obtain ⟨hn, hbounds, hnew⟩ := hadmissible
    refine ⟨(htype n).trans hn, htrait ▸ hbounds, fun hmem => ?_⟩
    rcases List.mem_append.1 ((hclaimed' _).1 hmem) with hmem | hmem
    · -- The other one registers the same declaration, and was refused for it.
      cases c' with
      | member name' c₁ =>
        obtain heq := List.mem_singleton.1 hmem
        refine hadmissible'.2.2 ((hclaimed _).2 (List.mem_append_left _ ?_))
        exact List.mem_singleton.2 heq.symm
      | _ => cases hmem
    · exact hnew hmem

/-- **What completes two types may be done in either order.** -/
theorem swap (hbuilt : t.Built) (hne : n ≠ m) (hop : (c.operation n).on t = .ok u)
    (hop' : (c'.operation m).on u = .ok u') :
    ∃ t₁, (c'.operation m).on t = .ok t₁ ∧ (c.operation n).on t₁ = .ok u' := by
  have hfirst := Operation.on_eq_ok
    (admissible_first hbuilt hop (Operation.on_eq_ok_iff.1 hop').1)
  refine ⟨_, hfirst, ?_⟩
  have hsecond := Operation.on_eq_ok (admissible_second hbuilt hop hop' hfirst hne)
  obtain ⟨-, rfl⟩ := Operation.on_eq_ok_iff.1 hop
  obtain ⟨-, rfl⟩ := Operation.on_eq_ok_iff.1 hop'
  rw [hsecond]
  simp only [effect_operation]
  rw [modifyType_comm hne]

end Completion

/-- What completes one type, one thing after the other. -/
def completions (block : Name × List Completion) : List Operation :=
  block.2.map (·.operation block.1)

variable {c : Completion} {cs : List Completion} {block block' : Name × List Completion}
variable {blocks blocks' : List (Name × List Completion)}

/-- One thing may be said of a type after all that is said of another one. -/
theorem runAll_completions_snoc (hbuilt : t.Built) (hne : n ≠ m)
    (h : runAll (c.operation n :: cs.map (·.operation m)) t = .ok u) :
    runAll (cs.map (·.operation m) ++ [c.operation n]) t = .ok u := by
  induction cs generalizing t with
  | nil => exact h
  | cons c' cs ih =>
    obtain ⟨t₁, hc, hrest⟩ := runAll_cons_eq_ok.1 h
    obtain ⟨t₂, hc', hrest⟩ := runAll_cons_eq_ok.1 hrest
    obtain ⟨t₃, hfirst, hsecond⟩ := Completion.swap hbuilt hne hc hc'
    refine runAll_cons_eq_ok.2 ⟨t₃, hfirst, ih (hbuilt.on hfirst) ?_⟩
    exact runAll_cons_eq_ok.2 ⟨t₂, hsecond, hrest⟩

/-- Two types may be completed in either order. -/
theorem runAll_completions_swap (hbuilt : t.Built) (hne : block.1 ≠ block'.1)
    (h : runAll (completions block ++ completions block') t = .ok u) :
    runAll (completions block' ++ completions block) t = .ok u := by
  obtain ⟨n, cs⟩ := block
  induction cs generalizing t with
  | nil =>
    show runAll (completions block' ++ []) t = _
    rw [List.append_nil]
    exact h
  | cons c cs ih =>
    obtain ⟨t₁, hc, hrest⟩ := runAll_cons_eq_ok.1 h
    -- The first thing is said after the rest of its block is moved back.
    obtain ⟨t₂, hblock', hcs⟩ := runAll_append_eq_ok.1 (ih (hbuilt.on hc) hne hrest)
    have hmoved := runAll_completions_snoc hbuilt hne (runAll_cons_eq_ok.2 ⟨t₁, hc, hblock'⟩)
    obtain ⟨t₃, hfirst, hlast⟩ := runAll_append_eq_ok.1 hmoved
    obtain ⟨t₄, hc', heq⟩ := runAll_cons_eq_ok.1 hlast
    obtain rfl := Except.ok.inj heq
    exact runAll_append_eq_ok.2 ⟨t₃, hfirst, runAll_cons_eq_ok.2 ⟨t₄, hc', hcs⟩⟩

/-- **Types may be completed in any order**, if no type is completed twice. -/
theorem runAll_perm (hperm : blocks.Perm blocks') (hnodup : (blocks.map (·.1)).Nodup)
    (hbuilt : t.Built) (h : runAll (blocks.flatMap completions) t = .ok u) :
    runAll (blocks'.flatMap completions) t = .ok u := by
  induction hperm generalizing t with
  | nil => exact h
  | cons block _ ih =>
    rw [List.flatMap_cons] at h ⊢
    obtain ⟨t₁, hblock, hrest⟩ := runAll_append_eq_ok.1 h
    exact runAll_append_eq_ok.2
      ⟨t₁, hblock, ih (List.nodup_cons.1 hnodup).2 (hbuilt.runAll hblock) hrest⟩
  | swap block block' blocks =>
    have hne : block'.1 ≠ block.1 := fun heq =>
      (List.nodup_cons.1 hnodup).1 (List.mem_cons.2 (.inl heq))
    rw [List.flatMap_cons, List.flatMap_cons, ← List.append_assoc] at h ⊢
    obtain ⟨t₁, hblocks, hrest⟩ := runAll_append_eq_ok.1 h
    exact runAll_append_eq_ok.2 ⟨t₁, runAll_completions_swap hbuilt hne hblocks, hrest⟩
  | trans hperm _ ih ih' =>
    exact ih' ((hperm.map _).nodup_iff.1 hnodup) hbuilt (ih hnodup hbuilt h)

end Table
end TypeResolution
