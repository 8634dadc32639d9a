/-
# The type of a literal does not escape

A literal has a type of its own, which is only there to be compared: it may stand where a subtype
is expected, and says there that what is expected can be written as a literal of its kind. If it
were unified with a variable instead, the variable would have the type of literals.

A literal meets all other rules of the search on its way. It may be put aside until the other side
is known, come down to a conversion or, where a type satisfies traits, to a conformance, and be
weakened when nothing else is left to do, to a conversion rather than to an equality; then its kind
may take a default type. None of them unifies it with anything, in whatever store it is met. So if
literals stand on the left of a subtyping only, then no variable is bound to a type with one
inside, however far the search has come, and no solution has one (`search_literalFree`).

The table is asked to declare no such type. Nothing else is supposed about it.

Key definitions: `Ty.NonLiteral`.
Key theorem: `search_literalFree`.
-/
import TypeResolution.Proofs.Search.Closure

namespace TypeResolution

open Search Store

/-- A leaf that is not the type of a literal. -/
def Ty.NonLiteral (l : Ty) : Prop := ∀ kind, l ≠ .literal kind

variable {table : Table} {options : SolverOptions} {system : System}

/-- **The type of a literal never escapes.** Where the declared types and the types that literals
take by default have no literals inside, and where literals stand in a system only as what is to
fit, in a subtyping or in the binding of a returned value, or as what is to conform, no variable is
bound to a type with a literal inside in any state that the search reaches. So a solution gives no
such type to a variable. -/
theorem search_literalFree (htable : table.LeavesIn Ty.NonLiteral)
    (hseeds : ∀ seed ∈ system.seeds, seed.2.LeavesIn Ty.NonLiteral)
    (hconstraints : ∀ c ∈ system.constraints, c.LeavesIn Ty.NonLiteral) :
    (∀ s₀, system.validate = [] →
      System.plant (.ofSize system.varCount) system.seeds = .done s₀ →
      ∀ s past, Reached ⟨table, options, system.varCount⟩ (system.start s₀) s past →
        s.store.BindsOnly (Ty.LeavesIn Ty.NonLiteral)) ∧
    ∀ solution, solve table options system = .ok solution →
      ∀ t ∈ solution.types, t.LeavesIn Ty.NonLiteral :=
  have hvar : ∀ v, Ty.NonLiteral (.var v) := fun _ => nofun
  ⟨fun _ _ hplant _ _ h =>
      System.bindsOnly_reached hvar htable hseeds hconstraints hplant h,
    fun _ h => System.leavesIn_of_solve hvar htable hseeds hconstraints h⟩

/-- A literal for which a variable is expected is put aside. When another subtyping that was put
aside has been weakened, the variable is known, and the literal is compared with its type. -/
theorem search_literalFree_weakened :
    let type : Ty := .existential ⟨[], .nil⟩
    let literal : Relation := .subtyping (.literal .integer) (.var ⟨0⟩)
    let system : System :=
      ⟨1, [.relation (.subtyping (.var ⟨0⟩) type) none, .relation literal none], []⟩
    let table := Table.ofNames .empty
    table.LeavesIn Ty.NonLiteral ∧ (∀ seed ∈ system.seeds, seed.2.LeavesIn Ty.NonLiteral) ∧
      (∀ c ∈ system.constraints, c.LeavesIn Ty.NonLiteral) ∧
      (∃ s w past, Reached ⟨table, {}, 1⟩ (system.start (.ofSize 1)) s past ∧
        s.path = .open w ∧ w.queue.map (·.relation) = [literal] ∧
        s.store.slot? ⟨0⟩ = some (.bound type) ∧
        s.store.BindsOnly (Ty.LeavesIn Ty.NonLiteral)) ∧
      ∃ solution, solve table {} system = .ok solution ∧ solution.types = [type] ∧
        ∀ t ∈ solution.types, t.LeavesIn Ty.NonLiteral := by
  intro type literal system table
  have htable : table.LeavesIn Ty.NonLiteral := ⟨nofun, nofun, nofun, nofun⟩
  have hseeds : ∀ seed ∈ system.seeds, seed.2.LeavesIn Ty.NonLiteral := nofun
  have hvar : (Ty.var ⟨0⟩).LeavesIn Ty.NonLiteral := Ty.leavesIn_singleton rfl fun _ => nofun
  have htype : type.LeavesIn Ty.NonLiteral := Ty.leavesIn_singleton rfl fun _ => nofun
  have hconstraints : ∀ c ∈ system.constraints, c.LeavesIn Ty.NonLiteral :=
    List.forall_mem_cons.2 ⟨.relation ⟨.inr hvar, htype⟩,
      List.forall_mem_singleton.2 (.relation ⟨.inl ⟨_, rfl⟩, hvar⟩)⟩
  obtain ⟨hreached, hsolved⟩ := @search_literalFree table {} system htable hseeds hconstraints
  refine ⟨htable, hseeds, hconstraints, ?_, ?_⟩
  · obtain ⟨s, t, u, w, hs, ht, hu, hpath, hqueue, hbound⟩ : ∃ s t u w,
        Goes ⟨table, {}, 1⟩ (system.start (.ofSize 1)) s ∧ Goes ⟨table, {}, 1⟩ s t ∧
        Goes ⟨table, {}, 1⟩ t u ∧ u.path = .open w ∧ w.queue.map (·.relation) = [literal] ∧
        u.store.slot? ⟨0⟩ = some (.bound type) :=
      ⟨_, _, _, _, ⟨by cbv, by cbv⟩, ⟨by cbv, by cbv⟩, ⟨by cbv, by cbv⟩, by cbv, by cbv, by cbv⟩
    have hu := Reached.step (.step (.step .start hs) ht) hu
    exact ⟨u, w, _, hu, hpath, hqueue, hbound, hreached _ (by decide) rfl _ _ hu⟩
  · obtain ⟨solution, hsolve, htypes⟩ : ∃ solution,
        solve table {} system = .ok solution ∧ solution.types = [type] := ⟨_, by cbv, by cbv⟩
    exact ⟨solution, hsolve, htypes, hsolved solution hsolve⟩

end TypeResolution
