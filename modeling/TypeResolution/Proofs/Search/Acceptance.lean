/-
# Solutions are accepted

The check looks at a solution without knowing how it was found, and the rules that it goes by are
written down once more. It accepts all solutions of systems in which nothing is indefinite
(`solve_satisfies`): those without the error type, whose candidates have no variables in their
signatures, and whose existentials do not let in a literal that conforms to only a part of their
traits. Otherwise a solution may not be accepted (`solve_satisfies_error`).

Key theorems: `System.Way.reads`, `solve_satisfies`.
-/
import TypeResolution.Proofs.Satisfaction
import TypeResolution.Proofs.Search.Solutions

namespace TypeResolution

variable {table : Table} {options : SolverOptions} {system : System} {solution : Solution}
variable {s₀ f : Store}

namespace System
namespace Way

variable (h : Way table options system solution s₀ f)
variable (htable : table.LeavesIn table.Definite)
variable (hseeds : ∀ seed ∈ system.seeds, seed.2.LeavesIn table.Definite)
variable (hconstraints : ∀ c ∈ system.constraints, c.LeavesIn table.Definite)
include h htable hseeds hconstraints

/-- Nothing in the types that variables stand for is indefinite. -/
theorem definite (v : TyVar) : (f.apply (.var v)).LeavesIn table.Definite := by
  have hvar : ∀ v, table.Definite (.var v) := fun v => ⟨nofun, nofun, nofun⟩
  have hbinds := h.leavesIn hvar htable hseeds hconstraints
  exact hbinds.leavesIn_apply hvar (Ty.leavesIn_singleton rfl (hvar v))

/-- The last store makes a reading of the solution. -/
theorem exists_reads (hground : table.Ground) (hnominal : table.Nominal) :
    ∃ R : Reading, f.SolvedBy R.types ∧ solution.Reads table system.vars R := by
  have hdefinite := h.definite htable hseeds hconstraints
  refine ⟨⟨solution.interpretation f, Ty.ErrorFree, fun v => ?_, fun p hp => ?_⟩, ?_, ?_⟩
  · exact Table.errorFree_of_definite (Table.definite_orParam (hdefinite v))
  · cases List.mem_singleton.1 hp
  · exact (h.wellFormed hground hnominal).solved
  · exact ⟨fun t ht => h.apply_eq ht, fun v _ => hdefinite v, fun _ => rfl, rfl, fun _ h => h⟩

/-- No generic parameter has got to a variable. -/
theorem leaks_eq_nil : solution.leaks = [] := by
  unfold Solution.leaks
  rw [List.map_eq_nil_iff, List.filter_eq_nil_iff]
  intro p hp
  have hdefinite := h.definite htable hseeds hconstraints
  have hmem : p.2 ∈ solution.types := by
    obtain ⟨q, hq, rfl⟩ := List.mem_map.1 (List.mem_filter.1 hp).1
    exact List.fst_mem_of_mem_zipIdx hq
  rw [h.types] at hmem
  obtain ⟨v, -, hv⟩ := List.mem_map.1 hmem
  rw [← hv]
  simp [Ty.hasParams, Table.params_of_definite (hdefinite v)]

end Way
end System

/-- **Solutions are accepted.** In a solution of a system in which nothing is indefinite the check
finds nothing that is violated. -/
theorem solve_satisfies (hbuilt : table.Built) (hground : table.Ground)
    (htable : table.LeavesIn table.Definite)
    (hsites : (system.constraints.flatMap Constraint.sites).Nodup)
    (hseeds : ∀ seed ∈ system.seeds, seed.2.LeavesIn table.Definite)
    (hconstraints : ∀ c ∈ system.constraints, c.LeavesIn table.Definite ∧ c.Declared)
    (h : solve table options system = .ok solution) : system.violated table solution = [] := by
  obtain ⟨s₀, f, hway⟩ := System.leaf_of_solve h
  have hnominal := hbuilt.nominal
  have hleaves := fun c hc => (hconstraints c hc).1
  obtain ⟨R, hσ, hreads⟩ := hway.exists_reads htable hseeds hleaves hground hnominal
  refine List.append_eq_nil_iff.2 ⟨List.filter_eq_nil_iff.2 fun c hc => ?_,
    hway.leaks_eq_nil htable hseeds hleaves⟩
  have hholds := hway.holdsIn hground hnominal hsites hσ
    (fun site => (hreads.references site).symm) hreads.predicates.symm c hc
  have hvars : ∀ t ∈ c.types, ∀ v ∈ t.vars, v ∈ system.vars := fun t ht v hv =>
    Search.mem_vars_below.2
      (System.has_ofSize.1 (System.covers_constraints hway.valid c hc t ht v hv))
  rw [Solution.satisfies_of_holdsIn hbuilt htable hreads hholds (hleaves c hc)
    (hconstraints c hc).2 hvars]
  exact Bool.false_ne_true

/-- A type with one parameter and a member of it, and one without parameters. -/
def Table.ofArrays : Table :=
  { Table.ofNames .empty with
    types := [⟨⟨1⟩, [⟨2⟩], [], [], [(⟨3⟩, .plain ⟨7⟩ (.param ⟨2⟩))]⟩, ⟨⟨4⟩, [], [], [], []⟩] }

theorem Table.built_ofArrays : Table.ofArrays.Built :=
  .declareType ⟨4⟩ [] (.addMember ⟨1⟩ ⟨3⟩ (.plain ⟨7⟩ (.param ⟨2⟩))
    (.declareType ⟨1⟩ [⟨2⟩] (.ofNames .empty) rfl) rfl) rfl

/-- The member of an array is accepted at the type of its elements. -/
theorem solve_satisfies_element :
    let array : Ty := .nominal ⟨1⟩ [.nominal ⟨4⟩ []]
    let member : Constraint := .relation (.valueMember array ⟨3⟩ (.var ⟨0⟩) ⟨3⟩) none
    let system : System := ⟨1, [member], []⟩
    let solution : Solution := ⟨[.nominal ⟨4⟩ []], [(⟨3⟩, ⟨7⟩)], [], 0, []⟩
    Table.ofArrays.Built ∧ Table.ofArrays.Ground ∧
      Table.ofArrays.LeavesIn Table.ofArrays.Definite ∧
      (system.constraints.flatMap Constraint.sites).Nodup ∧
      (∀ c ∈ system.constraints, c.LeavesIn Table.ofArrays.Definite ∧ c.Declared) ∧
      solve Table.ofArrays {} system = .ok solution ∧
      system.violated Table.ofArrays solution = [] := by
  intro array member system solution
  have hground : Table.ofArrays.Ground := by
    constructor <;> decide
  have hdefinite : Table.ofArrays.LeavesIn Table.ofArrays.Definite := by
    have hmember : ∀ m ∈ [((⟨3⟩ : Name), Candidate.plain ⟨7⟩ (.param ⟨2⟩))],
        m.2.type.LeavesIn (Ty.OrParam Table.ofArrays.Definite) :=
      List.forall_mem_singleton.2 (Ty.leavesIn_singleton rfl (.inr ⟨_, rfl⟩))
    exact ⟨List.forall_mem_cons.2 ⟨nofun, List.forall_mem_singleton.2 nofun⟩,
      List.forall_mem_cons.2 ⟨hmember, List.forall_mem_singleton.2 nofun⟩, nofun, nofun⟩
  have hsites : (system.constraints.flatMap Constraint.sites).Nodup := by decide
  have hseeds : ∀ seed ∈ system.seeds, seed.2.LeavesIn Table.ofArrays.Definite :=
    List.forall_mem_nil _
  have hconstraints : ∀ c ∈ system.constraints,
      c.LeavesIn Table.ofArrays.Definite ∧ c.Declared := by
    refine List.forall_mem_singleton.2 ⟨.relation ⟨nofun, ?_⟩, .relation _ _⟩
    exact Ty.leavesIn_singleton rfl ⟨nofun, nofun, nofun⟩
  have hsolve : solve Table.ofArrays {} system = .ok solution := by cbv
  exact ⟨Table.built_ofArrays, hground, hdefinite, hsites, hconstraints, hsolve,
    solve_satisfies Table.built_ofArrays hground hdefinite hsites hseeds hconstraints hsolve⟩

/-- The element type of an array may be the error type, which a member of it then has in place of
the parameter. The solver lets it be any type, and the check does not. -/
theorem solve_satisfies_error :
    let array : Ty := .nominal ⟨1⟩ [.error]
    let member : Constraint := .relation (.valueMember array ⟨3⟩ (.var ⟨0⟩) ⟨3⟩) none
    let system : System :=
      ⟨1, [.relation (.equality (.var ⟨0⟩) (.nominal ⟨4⟩ [])) none, member], []⟩
    let solution : Solution := ⟨[.nominal ⟨4⟩ []], [(⟨3⟩, ⟨7⟩)], [], 0, []⟩
    Table.ofArrays.Built ∧ (system.constraints.flatMap Constraint.sites).Nodup ∧
      solve Table.ofArrays {} system = .ok solution ∧
      system.violated Table.ofArrays solution = [member] := by
  intro array member system solution
  refine ⟨Table.built_ofArrays, by decide, by cbv, ?_⟩
  cbv

/-- Nor is a candidate accepted that has a variable of the system in its signature. -/
example :
    let overload : Constraint := .overload ⟨.var ⟨1⟩, ⟨5⟩, ⟨3⟩, [.plain ⟨7⟩ (.var ⟨0⟩)]⟩ none
    let system : System := ⟨2, [.relation (.equality (.var ⟨0⟩) .unit) none, overload], []⟩
    let solution : Solution := ⟨[.unit, .unit], [(⟨3⟩, ⟨7⟩)], [], 0, []⟩
    solve Table.ofArrays {} system = .ok solution ∧
      system.violated Table.ofArrays solution = [overload] := by
  intro overload system solution
  constructor <;> cbv

end TypeResolution
