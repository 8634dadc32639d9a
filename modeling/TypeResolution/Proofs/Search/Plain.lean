/-
# Systems without choices

A system is plain if it has no seeds and consists of equalities, conformances, conversions and
size predicates, over types without the error type. The search for its solution follows one
straight path. Its equalities have unifiers, and it is solved by a most general one that leaves
no variable open and grants the conformances and the conversions (`solve_plain`). A most general
unifier leaves nothing open exactly if it is the only unifier (`System.mostGeneral_ground_iff`).

What unifiers there are depends neither on the order of the constraints nor on the direction of
an equality, and so neither does the solution.

Key definitions: `System.Plain`, `System.Unifier`, `System.MostGeneral`, `System.Grants`,
`System.Rearranged`.
Key theorems: `System.mostGeneral_ground_iff`, `System.exists_mostGeneral`,
`System.solve_plain_iff`, `solve_plain`.
-/
import TypeResolution.Proofs.Lists
import TypeResolution.Proofs.Search.Pending
import TypeResolution.Proofs.Search.Straight
import TypeResolution.Proofs.Validation

namespace TypeResolution

namespace System

/-- The system has no seeds, and its constraints are plain relations. -/
structure Plain (system : System) : Prop where
  seeds : system.seeds = []
  constraints : ∀ c ∈ system.constraints, ∃ r l, c = .relation r l ∧ r.Plain

/-- The assignment makes the sides of each equality equal. -/
def Unifier (system : System) (σ : TyVar → Ty) : Prop :=
  ∀ a b l, .relation (.equality a b) l ∈ system.constraints → a.mapVars σ = b.mapVars σ

/-- Every unifier is an instance of this one. -/
structure MostGeneral (system : System) (σ : TyVar → Ty) : Prop where
  unifier : system.Unifier σ
  general : ∀ τ, system.Unifier τ → ∃ ρ, ∀ v ∈ system.vars, τ v = (σ v).mapVars ρ

/-- Every conformance and every conversion holds under the assignment. -/
def Grants (system : System) (table : Table) (σ : TyVar → Ty) : Prop :=
  ∀ r l, .relation r l ∈ system.constraints → r.Granted table (Ty.mapVars σ)

variable {system : System} {table : Table} {options : SolverOptions} {σ τ : TyVar → Ty}

theorem Unifier.mapVars (h : system.Unifier σ) (ρ : TyVar → Ty) :
    system.Unifier fun v => (σ v).mapVars ρ := by
  intro a b l hab
  rw [← Ty.mapVars_mapVars, ← Ty.mapVars_mapVars, h a b l hab]

/-- A most general unifier that leaves nothing open is the only unifier. -/
theorem mostGeneral_ground_iff : (system.MostGeneral σ ∧ ∀ v ∈ system.vars, (σ v).vars = []) ↔
    system.Unifier σ ∧ ∀ τ, system.Unifier τ → ∀ v ∈ system.vars, τ v = σ v := by
  constructor
  · rintro ⟨hσ, hground⟩
    refine ⟨hσ.unifier, fun τ hτ v hv => ?_⟩
    obtain ⟨ρ, hρ⟩ := hσ.general τ hτ
    rw [hρ v hv, Ty.mapVars_eq_self (hground v hv)]
  · rintro ⟨hσ, hunique⟩
    have hground : ∀ v ∈ system.vars, (σ v).vars = [] := by
      intro v hv
      rw [← hunique _ (hσ.mapVars fun _ => .unit) v hv]
      refine List.eq_nil_iff_forall_not_mem.2 fun w hw => ?_
      obtain ⟨_, -, hw⟩ := Ty.mem_vars_mapVars.1 hw
      cases hw
    refine ⟨⟨hσ, fun τ hτ => ⟨.var, fun v hv => ?_⟩⟩, hground⟩
    rw [hunique τ hτ v hv, Ty.mapVars_eq_self (hground v hv)]

/-- The sides of the equalities. -/
def equalities (system : System) : List (Ty × Ty) :=
  system.constraints.filterMap fun
    | .relation (.equality a b) _ => some (a, b)
    | _ => none

theorem mem_equalities {p : Ty × Ty} : p ∈ system.equalities ↔
    ∃ l, .relation (.equality p.1 p.2) l ∈ system.constraints := by
  rw [equalities, List.mem_filterMap]
  constructor
  · rintro ⟨c, hc, hp⟩
    split at hp
    · rename_i l
      obtain rfl := Option.some.inj hp
      exact ⟨l, hc⟩
    · cases hp
  · rintro ⟨l, hl⟩
    exact ⟨_, hl, rfl⟩

theorem unifier_iff : system.Unifier σ ↔ Store.EqualPairs σ system.equalities := by
  constructor
  · intro h p hp
    obtain ⟨l, hl⟩ := mem_equalities.1 hp
    exact h p.1 p.2 l hl
  · intro h a b l hl
    exact h (a, b) (mem_equalities.2 ⟨l, hl⟩)

theorem Plain.relation (h : system.Plain) {r : Relation} {l : Option Locator}
    (hr : .relation r l ∈ system.constraints) : r.Plain := by
  obtain ⟨r', l', heq, hr'⟩ := h.constraints _ hr
  rw [(Constraint.relation.inj heq).1]
  exact hr'

/-- Equalities that have unifiers have a most general one, which is made of them. -/
theorem exists_mostGeneral_leavesIn {Q : Ty → Prop} (hvalid : system.validate = [])
    (hvar : ∀ v, Q (.var v)) (herror : ¬ Q .error)
    (hQ : ∀ p ∈ system.equalities, p.1.LeavesIn Q ∧ p.2.LeavesIn Q) (hσ : system.Unifier σ) :
    ∃ τ, system.MostGeneral τ ∧ ∀ v, (τ v).LeavesIn Q := by
  have hcovers : (Store.ofSize system.varCount).CoversPairs system.equalities := fun p hp => by
    obtain ⟨l, hl⟩ := mem_equalities.1 hp
    have htypes := covers_constraints hvalid _ hl
    exact ⟨htypes p.1 List.mem_cons_self, htypes p.2 (List.mem_cons_of_mem _ List.mem_cons_self)⟩
  obtain ⟨t, hmoves, hbinds, ht⟩ := Store.exists_solvedBy_iff (Ty.hereditary_leavesIn hvar)
    (fun _ h => h.errorFree herror) _ (Store.wellFormed_ofSize _) hcovers
    (Store.bindsOnly_ofSize _ _) hQ (Store.solvedBy_ofSize _ σ) (unifier_iff.1 hσ)
  have hwf := hmoves.wellFormed (Store.wellFormed_ofSize _)
  have hsolved : ∀ τ, t.SolvedBy τ ↔ system.Unifier τ := fun τ => by
    rw [ht, unifier_iff]
    exact and_iff_right (Store.solvedBy_ofSize _ τ)
  refine ⟨_, ⟨(hsolved _).1 hwf.solved, fun τ hτ => ⟨τ, fun v hv => ?_⟩⟩,
    fun v => hbinds.leavesIn_apply hvar (Ty.leavesIn_singleton rfl (hvar v))⟩
  have hhas : t.Has v := hmoves.has (has_ofSize.2 (Search.mem_vars_below.1 hv))
  exact (((hsolved τ).2 hτ).apply hwf (Store.covers_var.2 hhas)).symm

/-- **Equalities that have unifiers have a most general one.** -/
theorem exists_mostGeneral (hvalid : system.validate = []) (hplain : system.Plain)
    (hσ : system.Unifier σ) : ∃ τ, system.MostGeneral τ := by
  have hfree : ∀ {t : Ty}, t.ErrorFree → t.LeavesIn (· ≠ .error) := fun h l hl hl' => h (hl' ▸ hl)
  have hleaves : ∀ p ∈ system.equalities,
      p.1.LeavesIn (· ≠ .error) ∧ p.2.LeavesIn (· ≠ .error) := by
    intro p hp
    obtain ⟨l, hl⟩ := mem_equalities.1 hp
    have hpair := hplain.relation hl
    exact ⟨hfree hpair.1, hfree hpair.2⟩
  obtain ⟨τ, hτ, -⟩ := exists_mostGeneral_leavesIn hvalid (fun _ h => nomatch h) (fun h => h rfl)
    hleaves hσ
  exact ⟨τ, hτ⟩

/-! ### Solving plain systems -/

open Search

variable {s₀ : Store}

/-- Once its seeds have been planted, a system of plain relations is followed along one path. -/
theorem straight_planted (system : System) (table : Table) (options : SolverOptions)
    (hs : s₀.WellFormed) (hsize : s₀.size = system.varCount) (hbinds : s₀.BindsOnly Ty.ErrorFree)
    (hconstraints : ∀ c ∈ system.constraints, ∃ r l, c = .relation r l ∧ r.Plain)
    (hcovers : ∀ c ∈ system.constraints, ∀ t ∈ c.types, s₀.Covers t) :
    Straight ⟨table, options, system.varCount⟩ s₀ (Work.pushAll {} system.constraints) ∧
      ((Work.pushAll {} system.constraints).queue.map Goal.constraint).Perm system.constraints ∧
      (Work.pushAll {} system.constraints).deferred = [] := by
  obtain ⟨hbranches, hdeferred, hordered⟩ := pushAll_relations (w := {})
    (fun c hc => (hconstraints c hc).imp fun r => Exists.imp fun l => And.left) .nil
  have hperm := Work.pending_start system.constraints
  unfold Work.pending at hperm
  rw [hbranches, hdeferred] at hperm
  simp only [List.map_nil, List.append_nil] at hperm
  have hmem : ∀ g ∈ (Work.pushAll {} system.constraints).queue,
      .relation g.relation g.locator ∈ system.constraints := fun g hg =>
    hperm.mem_iff.1 (List.mem_map.2 ⟨g, hg, rfl⟩)
  have hplain : ∀ g ∈ (Work.pushAll {} system.constraints).queue, g.relation.Plain := by
    intro g hg
    obtain ⟨r, l, heq, hr⟩ := hconstraints _ (hmem g hg)
    rw [(Constraint.relation.inj heq).1]
    exact hr
  refine ⟨⟨hs, hsize, hbinds, hbranches, hplain, fun g hg => hcovers _ (hmem g hg), hordered, ?_,
    .inl hdeferred⟩, hperm, hdeferred⟩
  rw [hdeferred]
  exact nofun

theorem straight_start (table : Table) (options : SolverOptions) (hvalid : system.validate = [])
    (hplain : system.Plain) :
    Straight ⟨table, options, system.varCount⟩ (.ofSize system.varCount)
        (Work.pushAll {} system.constraints) ∧
      ((Work.pushAll {} system.constraints).queue.map Goal.constraint).Perm system.constraints ∧
      (Work.pushAll {} system.constraints).deferred = [] :=
  straight_planted system table options (Store.wellFormed_ofSize _) (Store.size_ofSize _)
    (Store.bindsOnly_ofSize _ _) hplain.constraints (covers_constraints hvalid)

/-- A system that makes sense is searched from the store in which its seeds were planted. -/
theorem solve_planted (hvalid : system.validate = [])
    (hplant : plant (.ofSize system.varCount) system.seeds = .done s₀) :
    solve table options system =
      (State.start s₀ (Work.pushAll {} system.constraints)).run
        ⟨table, options, system.varCount⟩ options.maxSteps :=
  solve_start hvalid hplant

theorem plant_nil (hplain : system.Plain) :
    plant (.ofSize system.varCount) system.seeds = .done (.ofSize system.varCount) := by
  rw [hplain.seeds]
  rfl

/-- What a system has of relations is what the queue has of them. -/
theorem forall_queue_iff {queue : List Goal} {P : Relation → Prop}
    (hperm : (queue.map Goal.constraint).Perm system.constraints) :
    (∀ g ∈ queue, P g.relation) ↔ ∀ r l, .relation r l ∈ system.constraints → P r := by
  constructor
  · intro h r l hr
    obtain ⟨g, hg, heq⟩ := List.mem_map.1 (hperm.mem_iff.2 hr)
    rw [← (Constraint.relation.inj heq).1]
    exact h g hg
  · exact fun h g hg => h g.relation g.locator (hperm.mem_iff.1 (List.mem_map.2 ⟨g, hg, rfl⟩))

theorem unifier_iff_equates :
    system.Unifier σ ↔ ∀ r l, .relation r l ∈ system.constraints → r.Equates σ := by
  constructor
  · intro h r l hr
    cases r with
    | equality a b => exact h a b l hr
    | _ => trivial
  · exact fun h a b l hab => h _ l hab

/-- A plain system has a solution if there are enough steps for its constraints and it has a
most general unifier that leaves nothing open and grants what it asks for. The solution gives the
types of this unifier and chooses nothing. -/
theorem solve_plain_iff (table : Table) (hvalid : system.validate = []) (hplain : system.Plain)
    (hoff : options.literalDefaulting = false) :
    ((∃ solution, solve table options system = .ok solution) ↔
      system.constraints.length ≤ options.maxSteps ∧
        ∃ σ, system.MostGeneral σ ∧ (∀ v ∈ system.vars, (σ v).vars = []) ∧
          system.Grants table σ) ∧
    ∀ solution, solve table options system = .ok solution →
      (∀ σ, system.Unifier σ → solution.types = system.vars.map σ) ∧
        solution.references = [] ∧ solution.penalty = 0 := by
  obtain ⟨hstart, hperm, hdeferred⟩ :=
    straight_start table options hvalid hplain
  obtain ⟨hiff, htypes⟩ := Straight.run_iff hoff _ options.maxSteps hstart rfl
  rw [← solve_planted hvalid (plant_nil hplain)] at hiff htypes
  have hsolves : ∀ σ, Solves (.ofSize system.varCount)
      (Work.pushAll {} system.constraints).queue σ ↔ system.Unifier σ := fun σ => by
    rw [unifier_iff_equates, ← forall_queue_iff hperm]
    exact ⟨Solves.equates, fun h => ⟨Store.solvedBy_ofSize _ σ, h⟩⟩
  refine ⟨?_, fun solution h => ?_⟩
  case refine_2 =>
    obtain ⟨htypes, hreferences, hpenalty⟩ := htypes solution h
    rw [Work.choices_pushAll] at hreferences
    rw [Work.penalty_pushAll] at hpenalty
    exact ⟨fun σ hσ => htypes σ ((hsolves σ).2 hσ), hreferences, hpenalty⟩
  rw [hiff, ← hperm.length_eq, List.length_map]
  refine and_congr_right fun _ => ?_
  rw [Decided, and_iff_right hdeferred]
  refine exists_congr fun σ => ?_
  rw [← and_assoc, mostGeneral_ground_iff, Grants, ← forall_queue_iff hperm]
  constructor
  · exact fun h => ⟨⟨(hsolves σ).1 h.solves, fun τ hτ => h.unique τ ((hsolves τ).2 hτ)⟩, h.granted⟩
  · exact fun h => ⟨(hsolves σ).2 h.1.1, fun τ hτ => h.1.2 τ ((hsolves τ).1 hτ), h.2⟩

theorem bindings_of_types {solution : Solution} (h : solution.types = system.vars.map σ)
    (hground : ∀ v ∈ system.vars, (σ v).vars = []) :
    solution.bindings = system.vars.map fun v => (v, σ v) := by
  have hall : (solution.types.zipIdx.map fun p => ((⟨p.2⟩ : TyVar), p.1)) =
      system.vars.map fun v => (v, σ v) := by
    rw [h]
    refine List.ext_getElem (by simp) fun i hi hi' => ?_
    simp [vars]
  show (solution.types.zipIdx.map fun p => ((⟨p.2⟩ : TyVar), p.1)).filter _ = _
  rw [hall, List.filter_eq_self]
  intro p hp
  obtain ⟨v, hv, rfl⟩ := List.mem_map.1 hp
  simp [Ty.isVar_of_vars_eq_nil (hground v hv)]

/-! ### Rearranging -/

end System

/-- The constraint, or the equality the other way around. -/
inductive Constraint.Turned : Constraint → Constraint → Prop where
  | same (c : Constraint) : Turned c c
  | equality (a b : Ty) (l : Option Locator) :
      Turned (.relation (.equality a b) l) (.relation (.equality b a) l)

namespace System

variable {system system' : System} {table : Table} {options : SolverOptions} {σ : TyVar → Ty}

/-- The same variables and constraints, but for the order of the constraints and the direction
of equalities. -/
structure Rearranged (system system' : System) : Prop where
  varCount : system'.varCount = system.varCount
  seeds : system'.seeds = system.seeds
  constraints : ∃ cs, List.Forall₂ Constraint.Turned system.constraints cs ∧
    cs.Perm system'.constraints

namespace Rearranged

variable (h : system.Rearranged system')
include h

theorem length_eq : system'.constraints.length = system.constraints.length := by
  obtain ⟨cs, hturned, hperm⟩ := h.constraints
  rw [← hperm.length_eq, hturned.length_eq]

theorem vars_eq : system'.vars = system.vars := by rw [vars, h.varCount, vars]

/-- Each constraint is there, in one direction or the other. -/
theorem mem : (∀ c ∈ system.constraints, ∃ c' ∈ system'.constraints, Constraint.Turned c c') ∧
    ∀ c' ∈ system'.constraints, ∃ c ∈ system.constraints, Constraint.Turned c c' := by
  obtain ⟨cs, hturned, hperm⟩ := h.constraints
  obtain ⟨hleft, hright⟩ := exists_of_forall₂ hturned
  refine ⟨fun c hc => ?_, fun c' hc' => hright c' (hperm.mem_iff.2 hc')⟩
  obtain ⟨c', hc', hR⟩ := hleft c hc
  exact ⟨c', hperm.mem_iff.1 hc', hR⟩

/-- What does not depend on the direction of equalities holds of both systems or of none. -/
theorem forall_iff {P : Relation → Prop} (hP : ∀ a b, P (.equality a b) ↔ P (.equality b a)) :
    (∀ r l, .relation r l ∈ system.constraints → P r) ↔
      ∀ r l, .relation r l ∈ system'.constraints → P r := by
  constructor
  · intro hall r l hr
    obtain ⟨c, hc, hturned⟩ := h.mem.2 _ hr
    cases hturned with
    | same => exact hall r l hc
    | equality a b => exact (hP a b).1 (hall _ l hc)
  · intro hall r l hr
    obtain ⟨c, hc, hturned⟩ := h.mem.1 _ hr
    cases hturned with
    | same => exact hall r l hc
    | equality a b => exact (hP a b).2 (hall _ l hc)

theorem unifier_iff : system.Unifier σ ↔ system'.Unifier σ := by
  rw [unifier_iff_equates, unifier_iff_equates]
  exact h.forall_iff fun a b => eq_comm

theorem mostGeneral_iff : system.MostGeneral σ ↔ system'.MostGeneral σ := by
  constructor
  · refine fun hσ => ⟨h.unifier_iff.1 hσ.unifier, fun τ hτ => ?_⟩
    rw [h.vars_eq]
    exact hσ.general τ (h.unifier_iff.2 hτ)
  · refine fun hσ => ⟨h.unifier_iff.2 hσ.unifier, fun τ hτ => ?_⟩
    rw [← h.vars_eq]
    exact hσ.general τ (h.unifier_iff.1 hτ)

theorem plain (hplain : system.Plain) : system'.Plain := by
  refine ⟨h.seeds.trans hplain.seeds, fun c' hc' => ?_⟩
  obtain ⟨c, hc, hturned⟩ := h.mem.2 c' hc'
  obtain ⟨r, l, rfl, hr⟩ := hplain.constraints c hc
  cases hturned with
  | same => exact ⟨r, l, rfl, hr⟩
  | equality a b => exact ⟨_, l, rfl, hr.2, hr.1⟩

theorem valid (hplain : system.Plain) (hvalid : system.validate = []) : system'.validate = [] := by
  have hall := (List.append_eq_nil_iff.1 hvalid).1
  rw [allErrors_eq_flatMap, List.flatMap_eq_nil_iff] at hall
  unfold validate
  rw [h.seeds, hplain.seeds, h.varCount, allErrors_eq_flatMap]
  refine List.append_eq_nil_iff.2 ⟨List.flatMap_eq_nil_iff.2 fun c' hc' => ?_, rfl⟩
  obtain ⟨c, hc, hturned⟩ := h.mem.2 c' hc'
  have hnil := hall c hc
  cases hturned with
  | same => exact hnil
  | equality a b =>
    unfold constraintErrors at hnil ⊢
    rw [List.map_eq_nil_iff, List.filterMap_eq_nil_iff] at hnil ⊢
    exact Search.forall_mem_pair (hnil b (List.mem_cons_of_mem _ List.mem_cons_self))
      (hnil a List.mem_cons_self)

end Rearranged
end System

open TypeResolution.System in
/-- **Systems without choices are solved exactly.** Under the stated conditions there is a
solution if and only if there are enough steps for the constraints, and the equalities have a
most general unifier that leaves no variable open and grants the conformances and the
conversions; and the solution is this unifier. Neither the order of the constraints nor the
direction of equalities matters. -/
theorem solve_plain {table : Table} {options : SolverOptions} {system : System}
    (hvalid : system.validate = []) (hplain : system.Plain)
    (hoff : options.literalDefaulting = false) :
    ((∃ σ, system.Unifier σ) → ∃ σ, system.MostGeneral σ) ∧
    ((∃ solution, solve table options system = .ok solution) ↔
      system.constraints.length ≤ options.maxSteps ∧
        ∃ σ, system.MostGeneral σ ∧ (∀ v ∈ system.vars, (σ v).vars = []) ∧
          system.Grants table σ) ∧
    (∀ solution, solve table options system = .ok solution →
      ∀ σ, system.MostGeneral σ → solution.bindings = system.vars.map fun v => (v, σ v)) ∧
    ∀ system', system.Rearranged system' →
      ((∃ solution, solve table options system' = .ok solution) ↔
        ∃ solution, solve table options system = .ok solution) ∧
      ∀ solution solution', solve table options system = .ok solution →
        solve table options system' = .ok solution' → solution'.bindings = solution.bindings := by
  obtain ⟨hiff, htypes⟩ := solve_plain_iff table hvalid hplain hoff
  have hbindings : ∀ solution, solve table options system = .ok solution →
      ∀ σ, system.MostGeneral σ → solution.bindings = system.vars.map fun v => (v, σ v) := by
    intro solution hsolve σ hσ
    refine bindings_of_types ((htypes solution hsolve).1 σ hσ.unifier) ?_
    -- The unifier that leaves nothing open is the only one.
    obtain ⟨-, τ, hτ, hground, -⟩ := hiff.1 ⟨solution, hsolve⟩
    have hunique := (mostGeneral_ground_iff.1 ⟨hτ, hground⟩).2 σ hσ.unifier
    intro v hv
    rw [hunique v hv]
    exact hground v hv
  refine ⟨fun ⟨σ, hσ⟩ => exists_mostGeneral hvalid hplain hσ, hiff, hbindings, ?_⟩
  intro system' h
  have hplain' := h.plain hplain
  have hvalid' := h.valid hplain hvalid
  obtain ⟨hiff', htypes'⟩ := solve_plain_iff table hvalid' hplain' hoff
  refine ⟨?_, fun solution solution' hsolve hsolve' => ?_⟩
  · rw [hiff, hiff', h.length_eq, h.vars_eq]
    refine and_congr_right fun _ => exists_congr fun σ => ?_
    rw [h.mostGeneral_iff, Grants, Grants, h.forall_iff fun a b => Iff.rfl]
  · obtain ⟨-, σ, hσ, hground, -⟩ := hiff.1 ⟨solution, hsolve⟩
    rw [hbindings solution hsolve σ hσ]
    have hunifier := h.unifier_iff.1 hσ.unifier
    rw [← h.vars_eq] at hground ⊢
    exact bindings_of_types ((htypes' solution' hsolve').1 σ hunifier) hground

/-- The equality that tells the type of a literal may come last, and the other way around. -/
theorem solve_plain_literal :
    let tuple : Constraint := .relation (.equality (.var ⟨1⟩) (.tuple [.var ⟨0⟩])) none
    let conversion : Constraint := .relation (.conversion (.var ⟨0⟩) .integer) none
    let system : System :=
      ⟨2, [.relation (.equality (.var ⟨0⟩) (.literal .integer)) none, tuple, conversion], []⟩
    let turned : System :=
      ⟨2, [conversion, tuple, .relation (.equality (.literal .integer) (.var ⟨0⟩)) none], []⟩
    let table := Table.ofNames .empty
    let options : SolverOptions := { literalDefaulting := false }
    system.validate = [] ∧ system.Plain ∧ options.literalDefaulting = false ∧
      solve table options system =
        .ok ⟨[.literal .integer, .tuple [.literal .integer]], [], [], 0, []⟩ ∧
      ∃ solution, solve table options turned = .ok solution ∧
        solution.bindings = [(⟨0⟩, .literal .integer), (⟨1⟩, .tuple [.literal .integer])] := by
  intro tuple conversion system turned table options
  have hvalid : system.validate = [] := rfl
  have hplain : system.Plain := by
    refine ⟨rfl, List.forall_mem_cons.2 ⟨⟨_, _, rfl, by decide, by decide⟩,
      List.forall_mem_cons.2 ⟨⟨_, _, rfl, by decide, by decide⟩,
        List.forall_mem_cons.2 ⟨⟨_, _, rfl, ?_⟩, nofun⟩⟩⟩⟩
    exact (by decide : (Ty.var ⟨0⟩).ErrorFree)
  have hsolve : solve table options system =
      .ok ⟨[.literal .integer, .tuple [.literal .integer]], [], [], 0, []⟩ := by cbv
  have hturned : system.Rearranged turned :=
    ⟨rfl, rfl, _, .cons (.equality _ _ none) (.cons (.same _) (.cons (.same _) .nil)),
      (List.reverse_perm _).symm⟩
  obtain ⟨hiff, hsame⟩ := (@solve_plain table options system hvalid hplain rfl).2.2.2 turned hturned
  obtain ⟨solution, hsolution⟩ := hiff.2 ⟨_, hsolve⟩
  exact ⟨hvalid, hplain, rfl, hsolve, solution, hsolution, hsame _ _ hsolve hsolution⟩

end TypeResolution
