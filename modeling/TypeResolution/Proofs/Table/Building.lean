/-
# Building tables

Each operation that builds a table looks at what it is given first. If it succeeds, its guards
let it through, and the table has changed in one place (`Table.of_addSupertype` and its like).
What all operations see to is true of every table that they build; so all declared supertypes
are nominal (`Table.Built.nominal`).

Key definitions: `Table.Built`, `Table.Nominal`.
Key theorems: `Table.of_declareTrait`, `Table.of_declareType`, `Table.of_addConformance`,
`Table.of_addSupertype`, `Table.of_addMember`, `Table.of_addRequirement`, `Table.Built.nominal`.
-/
import TypeResolution.Table.Basic

namespace TypeResolution
namespace Table

variable {table table' : Table} {name type trait member : Name}

/-! ### The operations -/

theorem of_checkTraits : ∀ {names : List Name}, table.checkTraits names = .ok () →
    ∀ n ∈ names, (table.trait? n).isSome = true
  | [], _ => fun n hn => by cases hn
  | n :: names, h => by
    unfold checkTraits at h
    split at h
    · rename_i hsome
      exact List.forall_mem_cons.2 ⟨hsome, of_checkTraits h⟩
    · cases h

/-- What a guard lets through has passed it. -/
theorem of_guard {p : Prop} [Decidable p] {e : TableError}
    {rest : PUnit → Except TableError Table}
    (h : (if p then throw e >>= rest else rest ()) = .ok table') :
    ¬ p ∧ rest () = .ok table' := by
  split at h
  · cases h
  · rename_i hp
    exact ⟨hp, h⟩

/-- What comes after a check has been checked. -/
theorem of_check {check : Except TableError Unit} {rest : Unit → Except TableError Table}
    (h : check >>= rest = .ok table') : check = .ok () ∧ rest () = .ok table' := by
  cases check with
  | error e => cases h
  | ok _ => exact ⟨rfl, h⟩

theorem of_declareTrait {refines : List Name} (h : table.declareTrait name refines = .ok table') :
    (table.trait? name).isSome = false ∧ (∀ n ∈ refines, (table.trait? n).isSome = true) ∧
      table' = { table with traits := table.traits ++ [⟨name, refines, []⟩] } := by
  unfold declareTrait at h
  obtain ⟨hnew, h⟩ := of_guard h
  obtain ⟨hchecked, h⟩ := of_check h
  exact ⟨Bool.eq_false_iff.2 hnew, of_checkTraits hchecked, (Except.ok.inj h).symm⟩

theorem of_declareType {params : List Name} (h : table.declareType name params = .ok table') :
    (table.type? name).isSome = false ∧
      table' = { table with types := table.types ++ [⟨name, params, [], [], []⟩] } := by
  unfold declareType at h
  obtain ⟨hnew, h⟩ := of_guard h
  exact ⟨Bool.eq_false_iff.2 hnew, (Except.ok.inj h).symm⟩

theorem of_addConformance (h : table.addConformance type trait = .ok table') :
    (table.trait? trait).isSome = true ∧ (table.type? type).isSome = true ∧
      table' = table.modifyType type fun d =>
        if trait ∈ d.conformances then d
        else { d with conformances := d.conformances ++ [trait] } := by
  unfold addConformance at h
  obtain ⟨hchecked, h⟩ := of_check h
  obtain ⟨htype, h⟩ := of_guard h
  rw [Bool.not_eq_true, Option.isNone_eq_false_iff] at htype
  exact ⟨of_checkTraits hchecked trait List.mem_cons_self, htype, (Except.ok.inj h).symm⟩

/-- The supertype is nominal, of a declared head, and does not close a cycle. -/
theorem of_addSupertype {supertype : Ty} (h : table.addSupertype type supertype = .ok table') :
    ∃ head args, supertype = .nominal head args ∧ (table.type? head).isSome = true ∧
      head ≠ type ∧ table.inheritsFrom head type = false ∧ (table.type? type).isSome = true ∧
      table' = table.modifyType type fun d =>
        { d with supertypes := d.supertypes ++ [supertype] } := by
  unfold addSupertype at h
  split at h
  · rename_i head args
    obtain ⟨hhead, h⟩ := of_guard h
    obtain ⟨hcycle, h⟩ := of_guard h
    obtain ⟨htype, h⟩ := of_guard h
    obtain ⟨hne, hinherits⟩ := not_or.1 hcycle
    rw [Bool.not_eq_true, Option.isNone_eq_false_iff] at hhead htype
    exact ⟨head, args, rfl, hhead, hne, Bool.eq_false_iff.2 hinherits, htype,
      (Except.ok.inj h).symm⟩
  · cases h

theorem of_addMember {c : Candidate} (h : table.addMember type member c = .ok table') :
    (table.type? type).isSome = true ∧
      (∀ g ∈ c.generics, ∀ n ∈ g.bounds, (table.trait? n).isSome = true) ∧
      c.decl ∉ table.decls ∧
      table' = table.modifyType type fun d =>
        { d with members := d.members ++ [(member, c)] } := by
  unfold addMember at h
  obtain ⟨htype, h⟩ := of_guard h
  obtain ⟨hchecked, h⟩ := of_check h
  obtain ⟨hnew, h⟩ := of_guard h
  rw [Bool.not_eq_true, Option.isNone_eq_false_iff] at htype
  exact ⟨htype, fun g hg n hn => of_checkTraits hchecked n (List.mem_flatMap.2 ⟨g, hg, hn⟩),
    hnew, (Except.ok.inj h).symm⟩

theorem of_addRequirement {decl : DeclId} {t : Ty}
    (h : table.addRequirement trait member decl t = .ok table') :
    (table.trait? trait).isSome = true ∧ decl ∉ table.decls ∧
      table' = table.modifyTrait trait fun d =>
        { d with requirements := d.requirements ++ [(member, .plain decl t)] } := by
  unfold addRequirement at h
  obtain ⟨hchecked, h⟩ := of_check h
  obtain ⟨hnew, h⟩ := of_guard h
  exact ⟨of_checkTraits hchecked trait List.mem_cons_self, hnew, (Except.ok.inj h).symm⟩

/-! ### Tables that can be built -/

/-- The table comes from the operations that check what they are given. -/
inductive Built : Table → Prop where
  | ofNames (names : NameTable) : Built (ofNames names)
  | declareTrait {t t' : Table} (name : Name) (refines : List Name) :
      Built t → t.declareTrait name refines = .ok t' → Built t'
  | declareType {t t' : Table} (name : Name) (params : List Name) :
      Built t → t.declareType name params = .ok t' → Built t'
  | addConformance {t t' : Table} (type trait : Name) :
      Built t → t.addConformance type trait = .ok t' → Built t'
  | addSupertype {t t' : Table} (type : Name) (supertype : Ty) :
      Built t → t.addSupertype type supertype = .ok t' → Built t'
  | addMember {t t' : Table} (type member : Name) (c : Candidate) :
      Built t → t.addMember type member c = .ok t' → Built t'
  | addRequirement {t t' : Table} (trait member : Name) (decl : DeclId) (type : Ty) :
      Built t → t.addRequirement trait member decl type = .ok t' → Built t'
  | setLiteralDefault {t : Table} (kind : LiteralKind) (type : Ty) :
      Built t → Built (t.setLiteralDefault kind type)

/-- Every declared supertype is a nominal type. -/
def Nominal (t : Table) : Prop :=
  ∀ d ∈ t.types, ∀ sup ∈ d.supertypes, ∃ head args, sup = .nominal head args

theorem Nominal.modifyType {n : Name} {f : TypeDecl → TypeDecl} (h : table.Nominal)
    (hf : ∀ d ∈ table.types, ∀ sup ∈ (f d).supertypes, ∃ head args, sup = .nominal head args) :
    (table.modifyType n f).Nominal := by
  intro d hd
  obtain ⟨d', hd', rfl⟩ := List.mem_map.1 hd
  split
  · exact hf d' hd'
  · exact h d' hd'

/-- A table that has been built has nominal supertypes only. -/
theorem Built.nominal (h : Built table) : table.Nominal := by
  induction h with
  | ofNames names =>
    intro d hd
    cases hd
  | declareTrait name refines _ hok ih =>
    obtain ⟨-, -, rfl⟩ := of_declareTrait hok
    exact ih
  | declareType name params _ hok ih =>
    obtain ⟨-, rfl⟩ := of_declareType hok
    intro d hd
    rcases List.mem_append.1 hd with hd | hd
    · exact ih d hd
    · rw [List.mem_singleton.1 hd]
      intro sup hsup
      cases hsup
  | addConformance type trait _ hok ih =>
    obtain ⟨-, -, rfl⟩ := of_addConformance hok
    refine ih.modifyType fun d hd => ?_
    split
    · exact ih d hd
    · exact ih d hd
  | addSupertype type supertype _ hok ih =>
    obtain ⟨head, args, rfl, -, -, -, -, rfl⟩ := of_addSupertype hok
    refine ih.modifyType fun d hd sup hsup => ?_
    rcases List.mem_append.1 hsup with hsup | hsup
    · exact ih d hd sup hsup
    · exact ⟨head, args, List.mem_singleton.1 hsup⟩
  | addMember type member c _ hok ih =>
    obtain ⟨-, -, -, rfl⟩ := of_addMember hok
    exact ih.modifyType fun d hd => ih d hd
  | addRequirement trait member decl type _ hok ih =>
    obtain ⟨-, -, rfl⟩ := of_addRequirement hok
    exact ih
  | setLiteralDefault kind type _ ih => exact ih

end Table
end TypeResolution
