/-
# Where solutions come from

A solution is what was found at a leaf of the search (`System.leaf_of_solve`). On the way to it the
store was only moved from the one in which the seeds were planted, and nothing is unknown at its
end. So a solution gives a type without variables to each variable of its system
(`System.Way.ground`), and this type has leaves of the system and of declared types only
(`System.Way.leavesIn`). The constraints hold under the types of the last store, and under all
readings that solve it (`System.Way.holdsIn`).

Key definitions: `System.Way`.
Key theorems: `System.leaf_of_solve`, `System.Way.moves`, `System.Way.ground`,
`System.Way.holdsIn`, `System.Way.leavesIn`.
-/
import TypeResolution.Proofs.Search.Confinement

namespace TypeResolution

open Search Store

variable {table : Table} {options : SolverOptions} {system : System} {solution : Solution}
variable {s₀ f : Store} {Q : Ty → Prop}

theorem Search.Leaf.turn_complete {ctx : Context} {s t : Store} {w v : Work} {path : List Nat}
    (h : Leaf ctx s w path t v) : v.turn ctx t = .complete := by
  induction h with
  | complete hturn => exact hturn
  | simplify _ _ _ ih => exact ih
  | choose _ _ _ ih => exact ih

namespace System

/-- The solution was found at the store `f`, to which the search came from the store `s₀` in which
the seeds had been planted. -/
structure Way (table : Table) (options : SolverOptions) (system : System) (solution : Solution)
    (s₀ f : Store) : Prop where
  valid : system.validate = []
  planted : plant (.ofSize system.varCount) system.seeds = .done s₀
  leaf : ∃ P w,
    Leaf ⟨table, options, system.varCount⟩ s₀ (Work.pushAll {} system.constraints) P f w ∧
    solution = (w.toFound ⟨table, options, system.varCount⟩ f).toSolution

/-- **Every solution** was found at a leaf. -/
theorem leaf_of_solve (h : solve table options system = .ok solution) :
    ∃ s₀ f, Way table options system solution s₀ f := by
  obtain ⟨hvalid, s₀, hplant⟩ := planted_of_solve h
  obtain ⟨P, g, hfirst, hsolution⟩ := first_of_solve hvalid hplant h
  obtain ⟨f, w, hleaf, rfl⟩ := hfirst.1.1.1
  exact ⟨s₀, f, hvalid, hplant, P, w, hleaf, hsolution⟩

namespace Way

variable (h : Way table options system solution s₀ f)
include h

theorem types : solution.types = system.vars.map fun v => f.apply (.var v) := by
  obtain ⟨P, w, -, rfl⟩ := h.leaf
  rfl

/-- A solution is put into a type by putting in what the variables stand for. -/
theorem apply_eq {t : Ty} (ht : ∀ v ∈ t.vars, v ∈ system.vars) :
    solution.apply t = t.mapVars fun v => f.apply (.var v) := by
  refine Ty.mapVars_congr fun v hv => ?_
  rw [h.types]
  simp [vars, mem_vars_below.1 (ht v hv)]

theorem ground : ∀ v ∈ system.vars, (f.apply (.var v)).vars = [] := by
  obtain ⟨P, w, hleaf, -⟩ := h.leaf
  exact (of_complete hleaf.turn_complete).2

/-- The store in which the seeds were planted is one that a search can start with. -/
theorem covered : Moves (.ofSize system.varCount) s₀ ∧
    Covered s₀ (Work.pushAll {} system.constraints) := by
  have hstart := wellFormed_ofSize system.varCount
  have hmoves := moves_plant system.seeds hstart (plantable_seeds h.valid) h.planted
  exact ⟨hmoves, covered_pushAll (hmoves.wellFormed hstart) fun c hc t ht =>
    hmoves.covers (covers_constraints h.valid c hc t ht)⟩

/-- **The leaves of a solution** are those of the system and of declared types. -/
theorem leavesIn (hvar : ∀ v, Q (.var v)) (htable : table.LeavesIn Q)
    (hseeds : ∀ seed ∈ system.seeds, seed.2.LeavesIn Q)
    (hconstraints : ∀ c ∈ system.constraints, c.LeavesIn Q) : f.BindsOnly (Ty.LeavesIn Q) := by
  obtain ⟨P, w, hleaf, -⟩ := h.leaf
  have hplanted := bindsOnly_plant (Ty.hereditary_leavesIn hvar) system.seeds
    (bindsOnly_ofSize system.varCount _) hseeds
  rw [h.planted] at hplanted
  refine (hleaf.confined hvar htable ⟨hplanted, fun c hc => ?_⟩).binds
  exact hconstraints c ((Work.pending_start system.constraints).mem_iff.1 hc)

variable (hground : table.Ground) (hnominal : table.Nominal)
include hground hnominal

theorem moves : Moves s₀ f := by
  obtain ⟨P, w, hleaf, -⟩ := h.leaf
  exact hleaf.moves hground hnominal h.covered.2

theorem wellFormed : f.WellFormed :=
  (h.moves hground hnominal).wellFormed h.covered.2.wellFormed

/-- **The constraints hold** under every reading that solves the last store and has the references
and the predicates of the solution. -/
theorem holdsIn (hsites : (system.constraints.flatMap Constraint.sites).Nodup) {R : Reading}
    (hσ : f.SolvedBy R.types) (href : ∀ site, R.reference? site = solution.reference? site)
    (hpredicates : R.predicates = solution.predicates) :
    ∀ c ∈ system.constraints, c.HoldsIn table R := by
  have hcovered := h.covered
  obtain ⟨P, w, hleaf, hsolution⟩ := h.leaf
  have hready := ready_pushAll hcovered.2.wellFormed
    (fun c hc t ht => hcovered.1.covers (covers_constraints h.valid c hc t ht)) hsites
  refine fun c hc => (hleaf.ends hground hnominal hready).holdsIn R hσ (fun site c hlookup => ?_)
    (fun p hp => ?_) c ((Work.pending_start system.constraints).mem_iff.2 hc)
  · rw [href, hsolution, reference?_toSolution]
    exact congrArg (Option.map Choice.decl) hlookup
  · rw [hpredicates, hsolution]
    exact hp

end Way
end System
end TypeResolution
