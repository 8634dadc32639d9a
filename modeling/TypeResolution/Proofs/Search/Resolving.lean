/-
# Solving a system again

A solution that is put back into its system replaces all variables, and binds each of them to its
type before the search starts. The types have no variables, so that nothing is left to find out
about them: whatever solution the search then comes to, it gives the same types
(`solve_rewritten`). On systems without choices it comes to the solution again.

With choices it need not. An alternative that left a variable open, and was given up for that, does
not do so any more when the variable is bound, and may then be taken before the one that was chosen
(`solve_rewritten_disjunction`).

Key theorems: `System.plant_ground`, `System.rewritten_plain`, `solve_rewritten`.
-/
import TypeResolution.Proofs.Search.Plain
import TypeResolution.Proofs.Search.Solutions

namespace TypeResolution

open Search Store

/-! ### Planting types without variables -/

namespace Store

variable {s : Store} {v : TyVar} {t : Ty}

/-- An unbound root is bound to a type without variables as it is. -/
theorem bind_ground {k : Nat} (hs : s.WellFormed) (hv : s.slot? v = some (.root k))
    (ht : t.vars = []) : s.bind v t = .done (s.write v (.bound t)) := by
  have hn := Ty.isVar_of_vars_eq_nil ht
  have hcovers : s.Covers t := fun w hw => by
    rw [ht] at hw
    cases hw
  have hoccurs : s.occurs v t = false := by
    rw [hs.occurs_eq hcovers, ht]
    rfl
  have hshallow : s.shallow t = (t, s) := by
    cases t with
    | var w => cases hn
    | _ => rfl
  unfold bind
  rw [find_of_root hs hv]
  dsimp only
  rw [hv]
  dsimp only
  rw [hshallow]
  dsimp only
  rw [bindRoot_eq hn, hoccurs]
  rfl

end Store

namespace System

variable {table : Table} {options : SolverOptions} {system : System} {solution : Solution}
variable {σ : TyVar → Ty}

/-- Seeds without variables are planted as they are. -/
theorem plant_ground : ∀ (seeds : List (TyVar × Ty)) {s : Store}, s.WellFormed →
    (seeds.map (·.1)).Nodup → (∀ seed ∈ seeds, ∃ k, s.slot? seed.1 = some (.root k)) →
    (∀ seed ∈ seeds, seed.2.vars = []) →
    ∃ s', plant s seeds = .done s' ∧ Moves s s' ∧ s'.size = s.size ∧
      ∀ seed ∈ seeds, s'.slot? seed.1 = some (.bound seed.2)
  | [], s, _, _, _, _ => ⟨s, rfl, .refl, rfl, nofun⟩
  | (v, t) :: seeds, s, hs, hnodup, hroots, hground => by
    obtain ⟨hv, hnodup⟩ := List.nodup_cons.1 hnodup
    obtain ⟨⟨k, hk⟩, hroots⟩ := List.forall_mem_cons.1 hroots
    obtain ⟨ht, hground⟩ := List.forall_mem_cons.1 hground
    have hbind := bind_ground hs hk ht
    have hmoves : Moves s (s.write v (.bound t)) := by
      have hmoves := moves_bind (t := t) hs (has_of_slot? hk) fun w hw => by
        rw [ht] at hw
        cases hw
      rwa [hbind] at hmoves
    obtain ⟨s', hplant, hmoves', hsize, hbound⟩ := plant_ground seeds (hmoves.wellFormed hs) hnodup
      (fun seed hseed => by
        obtain ⟨k, hk⟩ := hroots seed hseed
        refine ⟨k, (slot?_write_of_ne (fun heq => hv ?_) _).trans hk⟩
        exact List.mem_map.2 ⟨seed, hseed, heq⟩) hground
    refine ⟨s', ?_, hmoves.trans hmoves', hsize.trans (size_write _ _ _), ?_⟩
    · unfold plant
      rw [hbind]
      exact hplant
    · exact List.forall_mem_cons.2
        ⟨hmoves'.bound (slot?_write_self (has_of_slot? hk) _), hbound⟩

/-- The seeds of a rewritten system are the types of the solution. -/
theorem seeds_rewritten (htypes : solution.types = system.vars.map σ)
    (hground : ∀ v ∈ system.vars, (σ v).vars = []) :
    (system.rewritten solution).seeds = system.vars.map fun v => (v, σ v) := by
  have hbinding : ∀ v ∈ system.vars, (solution.binding? v).map (v, ·) = some (v, σ v) := by
    intro v hv
    have hindex := mem_vars_below.1 hv
    have hget : solution.types[v.index]? = some (σ v) := by
      rw [htypes]
      simp [vars, hindex]
    simp [Solution.binding?, hget, Ty.isVar_of_vars_eq_nil (hground v hv)]
  unfold rewritten
  dsimp only
  rw [← List.filterMap_eq_map]
  exact List.filterMap_congr hbinding

/-- They are planted without a conflict, and bind every variable. -/
theorem plant_rewritten (htypes : solution.types = system.vars.map σ)
    (hground : ∀ v ∈ system.vars, (σ v).vars = []) :
    ∃ s', plant (.ofSize system.varCount) (system.rewritten solution).seeds = .done s' ∧
      s'.WellFormed ∧ s'.size = system.varCount ∧
      ∀ v ∈ system.vars, s'.slot? v = some (.bound (σ v)) := by
  rw [seeds_rewritten htypes hground]
  have hkeys : (system.vars.map fun v => (v, σ v)).map (·.1) = system.vars := by
    rw [List.map_map]
    exact List.map_id _
  have hnodup : system.vars.Nodup := by
    refine List.Nodup.map (fun i j hij => ?_) List.nodup_range
    exact congrArg TyVar.index hij
  obtain ⟨s', hplant, hmoves, hsize, hbound⟩ := plant_ground _
    (wellFormed_ofSize system.varCount) (hkeys ▸ hnodup)
    (fun seed hseed => by
      obtain ⟨v, hv, rfl⟩ := List.mem_map.1 hseed
      exact ⟨0, by rw [slot?_ofSize, if_pos (mem_vars_below.1 hv)]⟩)
    (fun seed hseed => by
      obtain ⟨v, hv, rfl⟩ := List.mem_map.1 hseed
      exact hground v hv)
  exact ⟨s', hplant, hmoves.wellFormed (wellFormed_ofSize _), hsize.trans (size_ofSize _),
    fun v hv => hbound _ (List.mem_map.2 ⟨v, hv, rfl⟩)⟩

/-- A solution of the rewritten system gives the types that it was rewritten with. -/
theorem types_of_rewritten {solution' : Solution} (hground : table.Ground)
    (hnominal : table.Nominal) (h : solve table options system = .ok solution)
    (h' : solve table options (system.rewritten solution) = .ok solution') :
    solution'.types = solution.types := by
  obtain ⟨s₀, f, hway⟩ := leaf_of_solve h
  obtain ⟨s₀', f', hway'⟩ := leaf_of_solve h'
  obtain ⟨s', hplant, -, -, hbound⟩ := plant_rewritten hway.types hway.ground
  obtain rfl : s' = s₀' := congrArg Unified.store (hplant.symm.trans hway'.planted)
  have hmoves := hway'.moves hground hnominal
  have hwf := hway'.wellFormed hground hnominal
  rw [hway'.types, hway.types]
  refine List.map_congr_left fun v hv => ?_
  have hslot := hmoves.bound (hbound v hv)
  have hnil := hway.ground v hv
  have hroot : f'.root v = v := hwf.root_eq (.root hslot fun _ => by simp)
  rw [hwf.apply_var_of_bound (has_of_slot? hslot) (by rw [hroot]; exact hslot),
    hwf.apply_eq_mapVars fun w hw => by rw [hnil] at hw; cases hw]
  exact Ty.mapVars_eq_self hnil

/-! ### Plain systems -/

/-- A leaf of an operand without the error type. -/
def Proper (l : Ty) : Prop := l ≠ .error ∧ l ≠ .unresolved ∧ ∀ n, l ≠ .param n

theorem leavesIn_proper {count : Nat} {t : Ty} (h : operandProblem count false t = none)
    (hfree : t.ErrorFree) : t.LeavesIn Proper := by
  obtain ⟨hplaceholder, hparams, -⟩ := operandProblem_eq_none_iff.1 h
  refine fun l hl => ⟨fun heq => hfree (heq ▸ hl), fun heq => hplaceholder (heq ▸ hl), ?_⟩
  rintro n rfl
  rw [← Ty.mem_params_iff, hparams rfl] at hl
  cases hl

/-- Nothing is wrong with a type without variables and with such leaves. -/
theorem operandProblem_of_proper {count : Nat} {t : Ty} (h : t.LeavesIn Proper)
    (hground : t.vars = []) : operandProblem count false t = none := by
  refine operandProblem_eq_none_iff.2 ⟨fun hl => (h _ hl).2.1 rfl, fun _ => ?_, fun v hv => ?_⟩
  · refine List.eq_nil_iff_forall_not_mem.2 fun n hn => ?_
    exact (h _ (Ty.mem_params_iff.1 hn)).2.2 n rfl
  · rw [hground] at hv
    cases hv

section Plain

variable (hvalid : system.validate = []) (hplain : system.Plain)
include hvalid hplain

theorem Plain.operands {r : Relation} {l : Option Locator}
    (hr : .relation r l ∈ system.constraints) :
    ∀ t ∈ r.types, t.LeavesIn Proper ∧ ∀ v ∈ t.vars, v ∈ system.vars := by
  intro t ht
  have herrors := (List.append_eq_nil_iff.1 hvalid).1
  rw [allErrors_eq_flatMap, List.flatMap_eq_nil_iff] at herrors
  have hnone := herrors _ hr
  unfold constraintErrors at hnone
  rw [List.map_eq_nil_iff, List.filterMap_eq_nil_iff] at hnone
  have hproblem := hnone t ht
  have hfree : t.ErrorFree := (hplain.relation hr).errorFree t ht
  exact ⟨leavesIn_proper hproblem hfree, fun v hv =>
    mem_vars_below.2 ((operandProblem_eq_none_iff.1 hproblem).2.2 v hv)⟩

/-- The only unifier of a plain system is made of its equalities. -/
theorem Plain.leavesIn (hσ : system.MostGeneral σ) (hground : ∀ v ∈ system.vars, (σ v).vars = []) :
    ∀ v ∈ system.vars, (σ v).LeavesIn Proper := by
  obtain ⟨τ, hτ, hleaves⟩ := exists_mostGeneral_leavesIn (Q := Proper) hvalid
    (fun v => ⟨nofun, nofun, nofun⟩) (fun h => h.1 rfl) (fun p hp => by
      obtain ⟨l, hl⟩ := mem_equalities.1 hp
      have hpair := hplain.operands hvalid hl
      exact ⟨(hpair p.1 List.mem_cons_self).1,
        (hpair p.2 (List.mem_cons_of_mem _ List.mem_cons_self)).1⟩) hσ.unifier
  intro v hv
  rw [← (mostGeneral_ground_iff.1 ⟨hσ, hground⟩).2 τ hτ.unifier v hv]
  exact hleaves v

omit hvalid in
/-- A constraint of the rewritten system is one of the system, with other types. -/
theorem Plain.mem_rewritten {c : Constraint} (hc : c ∈ (system.rewritten solution).constraints) :
    ∃ r l, .relation r l ∈ system.constraints ∧
      c = .relation (r.mapTypes solution.apply) l := by
  obtain ⟨c, hmem, rfl⟩ := List.mem_map.1 hc
  obtain ⟨r, l, rfl, -⟩ := hplain.constraints c hmem
  exact ⟨r, l, hmem, rfl⟩

section Unifier

variable (hσ : system.MostGeneral σ) (hground : ∀ v ∈ system.vars, (σ v).vars = [])
variable (htypes : solution.types = system.vars.map σ)
include hσ hground htypes

/-- The types of the rewritten system are those of the system under the unifier, which leaves
nothing open in them. -/
theorem Plain.apply_rewritten {r : Relation} {l : Option Locator}
    (hr : .relation r l ∈ system.constraints) : ∀ t ∈ r.types,
      solution.apply t = t.mapVars σ ∧ (t.mapVars σ).vars = [] ∧
        (t.mapVars σ).LeavesIn Proper := by
  have hproper := hplain.leavesIn hvalid hσ hground
  intro t ht
  obtain ⟨hleaves, hvars⟩ := hplain.operands hvalid hr t ht
  refine ⟨Ty.mapVars_congr fun v hv => ?_, ?_, hleaves.mapVars fun v hv => hproper v (hvars v hv)⟩
  · rw [htypes]
    simp [vars, mem_vars_below.1 (hvars v hv)]
  · refine List.eq_nil_iff_forall_not_mem.2 fun w hw => ?_
    obtain ⟨v, hv, hw⟩ := Ty.mem_vars_mapVars.1 hw
    rw [hground v (hvars v hv)] at hw
    cases hw

/-- The rewritten system makes sense. -/
theorem Plain.validate_rewritten : (system.rewritten solution).validate = [] := by
  unfold validate
  rw [seeds_rewritten htypes hground, List.append_eq_nil_iff, allErrors_eq_flatMap,
    List.flatMap_eq_nil_iff, List.map_eq_nil_iff, List.filterMap_eq_nil_iff]
  refine ⟨fun c hc => ?_, fun seed hseed => ?_⟩
  · obtain ⟨r, l, hr, rfl⟩ := hplain.mem_rewritten hc
    unfold constraintErrors
    rw [List.map_eq_nil_iff, List.filterMap_eq_nil_iff, Relation.types_mapTypes]
    intro t' ht'
    obtain ⟨t, ht, rfl⟩ := List.mem_map.1 ht'
    obtain ⟨happly, hnil, hleaves⟩ := hplain.apply_rewritten hvalid hσ hground htypes hr t ht
    rw [happly]
    exact operandProblem_of_proper hleaves hnil
  · obtain ⟨v, hv, rfl⟩ := List.mem_map.1 hseed
    exact (if_neg (Nat.not_le.2 (mem_vars_below.1 hv))).trans
      (operandProblem_of_proper (hplain.leavesIn hvalid hσ hground v hv) (hground v hv))

/-- Its constraints are plain. -/
theorem Plain.plain_rewritten : ∀ c ∈ (system.rewritten solution).constraints,
    ∃ r l, c = .relation r l ∧ r.Plain := by
  intro c hc
  obtain ⟨r, l, hr, rfl⟩ := hplain.mem_rewritten hc
  refine ⟨_, l, rfl, (hplain.relation hr).mapTypes fun t ht => ?_⟩
  obtain ⟨happly, -, hleaves⟩ := hplain.apply_rewritten hvalid hσ hground htypes hr t ht
  rw [happly]
  exact hleaves.errorFree fun h => h.1 rfl

/-- What is granted, and what is equal, is so in the rewritten system. -/
theorem Plain.holds_rewritten (hgrants : system.Grants table σ) {r' : Relation}
    {l' : Option Locator} (hr' : .relation r' l' ∈ (system.rewritten solution).constraints) :
    r'.Equates σ ∧ r'.Granted table (Ty.mapVars σ) := by
  obtain ⟨r, l, hr, heq⟩ := hplain.mem_rewritten hr'
  obtain ⟨rfl, -⟩ := Constraint.relation.inj heq
  have hmeaning : ∀ t ∈ r.types, (solution.apply t).mapVars σ = t.mapVars σ := by
    intro t ht
    obtain ⟨happly, hnil, -⟩ := hplain.apply_rewritten hvalid hσ hground htypes hr t ht
    rw [happly, Ty.mapVars_eq_self hnil]
  refine ⟨?_, (hgrants r l hr).mapTypes hmeaning⟩
  cases r with
  | equality a b =>
    show (solution.apply a).mapVars σ = (solution.apply b).mapVars σ
    rw [hmeaning a List.mem_cons_self, hmeaning b (List.mem_cons_of_mem _ List.mem_cons_self)]
    exact hσ.unifier a b l hr
  | _ => trivial

end Unifier

/-- **A plain system** has the same solution again when it has been put in. -/
theorem rewritten_plain (hoff : options.literalDefaulting = false)
    (h : solve table options system = .ok solution) :
    ∃ solution', solve table options (system.rewritten solution) = .ok solution' ∧
      solution'.references = solution.references ∧ solution'.penalty = solution.penalty := by
  obtain ⟨hiff, hresult⟩ := solve_plain_iff table hvalid hplain hoff
  obtain ⟨hlength, σ, hσ, hground, hgrants⟩ := hiff.1 ⟨solution, h⟩
  obtain ⟨htypes, hreferences, hpenalty⟩ := hresult solution h
  replace htypes := htypes σ hσ.unifier
  have hvalid' := hplain.validate_rewritten hvalid hσ hground htypes
  obtain ⟨s₀, hplant, hs, hsize, hbound⟩ := plant_rewritten htypes hground
  -- All variables are bound to what they stand for.
  have hslot : ∀ v slot, s₀.slot? v = some slot → v ∈ system.vars ∧ slot = .bound (σ v) := by
    intro v slot hv
    have hlt : v.index < s₀.size := has_of_slot? hv
    have hmem : v ∈ system.vars := mem_vars_below.2 (hsize ▸ hlt)
    exact ⟨hmem, Option.some.inj (hv.symm.trans (hbound v hmem))⟩
  have hsolved : s₀.SolvedBy σ := by
    constructor
    · intro v w hv
      cases (hslot v _ hv).2
    · intro v t hv
      obtain ⟨hmem, heq⟩ := hslot v _ hv
      rw [Slot.bound.inj heq, Ty.mapVars_eq_self (hground v hmem)]
  have hbinds : s₀.BindsOnly Ty.ErrorFree := fun v t hv => by
    obtain ⟨hmem, heq⟩ := hslot v _ hv
    rw [Slot.bound.inj heq]
    exact (hplain.leavesIn hvalid hσ hground v hmem).errorFree fun h => h.1 rfl
  obtain ⟨hstraight, hperm, hdeferred⟩ := straight_planted (system.rewritten solution) table options
    hs hsize hbinds (hplain.plain_rewritten hvalid hσ hground htypes) fun c hc t ht w hw => by
      show w.index < s₀.size
      rw [hsize]
      exact has_ofSize.1 (covers_constraints hvalid' c hc t ht w hw)
  obtain ⟨hiff', hresult'⟩ := Straight.run_iff hoff _ options.maxSteps hstraight rfl
  rw [← solve_planted hvalid' hplant] at hiff' hresult'
  have hholds : ∀ r l, .relation r l ∈ (system.rewritten solution).constraints →
      r.Equates σ ∧ r.Granted table (Ty.mapVars σ) := fun r l hr =>
    hplain.holds_rewritten hvalid hσ hground htypes hgrants hr
  have hqueue := (forall_queue_iff
    (P := fun r => r.Equates σ ∧ r.Granted table (Ty.mapVars σ)) hperm).2 hholds
  have hdecided : ∃ solution', solve table options (system.rewritten solution) = .ok solution' := by
    refine hiff'.2 ⟨?_, hdeferred, σ, ⟨hsolved, fun g hg => (hqueue g hg).1⟩, fun τ hτ v hv => ?_,
      fun g hg => (hqueue g hg).2⟩
    · rw [← List.length_map Goal.constraint, hperm.length_eq]
      exact (List.length_map _).trans_le hlength
    · rw [hτ.store.bound v _ (hbound v hv), Ty.mapVars_eq_self (hground v hv)]
  obtain ⟨solution', h'⟩ := hdecided
  obtain ⟨-, hreferences', hpenalty'⟩ := hresult' solution' h'
  rw [Work.choices_pushAll] at hreferences'
  rw [Work.penalty_pushAll] at hpenalty'
  exact ⟨solution', h', hreferences'.trans hreferences.symm, hpenalty'.trans hpenalty.symm⟩

end Plain

end System

/-- **Solving again changes no type.** Whatever solution the system has in which a solution has been
put, it gives the same types. If the system is plain and no literals are defaulted, it has a
solution, with the same references and the same penalty. -/
theorem solve_rewritten {table : Table} {options : SolverOptions} {system : System}
    {solution : Solution} (hbuilt : table.Built) (hground : table.Ground)
    (h : solve table options system = .ok solution) :
    (∀ solution', solve table options (system.rewritten solution) = .ok solution' →
      solution'.bindings = solution.bindings) ∧
    (system.Plain → options.literalDefaulting = false →
      ∃ solution', solve table options (system.rewritten solution) = .ok solution' ∧
        solution'.bindings = solution.bindings ∧
        (∀ site, solution'.reference? site = solution.reference? site) ∧
        solution'.penalty = solution.penalty) := by
  have hbindings : ∀ solution', solve table options (system.rewritten solution) = .ok solution' →
      solution'.bindings = solution.bindings := fun solution' h' => by
    unfold Solution.bindings
    rw [System.types_of_rewritten hground hbuilt.nominal h h']
  refine ⟨hbindings, fun hplain hoff => ?_⟩
  obtain ⟨hvalid, -⟩ := planted_of_solve h
  obtain ⟨solution', h', hreferences, hpenalty⟩ := System.rewritten_plain hvalid hplain hoff h
  refine ⟨solution', h', hbindings solution' h', fun site => ?_, hpenalty⟩
  unfold Solution.reference?
  rw [hreferences]

/-- The type of a literal in a tuple is found again. -/
theorem solve_rewritten_tuple :
    let system : System :=
      { varCount := 2
        constraints := [.relation (.equality (.var ⟨1⟩) (.tuple [.var ⟨0⟩])) none,
          .relation (.equality (.var ⟨0⟩) (.literal .integer)) none]
        seeds := [] }
    let table := Table.ofNames .empty
    let options : SolverOptions := { literalDefaulting := false }
    let solution : Solution := ⟨[.literal .integer, .tuple [.literal .integer]], [], [], 0, []⟩
    table.Built ∧ table.Ground ∧ system.Plain ∧ solve table options system = .ok solution ∧
      ∃ solution', solve table options (system.rewritten solution) = .ok solution' ∧
        solution'.bindings = [(⟨0⟩, .literal .integer), (⟨1⟩, .tuple [.literal .integer])] := by
  intro system table options solution
  have hbuilt : table.Built := .ofNames .empty
  have hground : table.Ground := by
    constructor <;> intro _ h <;> cases h
  have hplain : system.Plain :=
    ⟨rfl, List.forall_mem_cons.2 ⟨⟨_, _, rfl, by decide, by decide⟩,
      List.forall_mem_cons.2 ⟨⟨_, _, rfl, by decide, by decide⟩, nofun⟩⟩⟩
  have hsolve : solve table options system = .ok solution := by cbv
  obtain ⟨solution', h', hbindings, -⟩ := (solve_rewritten hbuilt hground hsolve).2 hplain rfl
  exact ⟨hbuilt, hground, hplain, hsolve, solution', h', hbindings⟩

/-- An alternative without constraints leaves the variable open, and the other one is chosen. Once
the variable is bound the first one is complete, and comes first. -/
theorem solve_rewritten_disjunction :
    let system : System :=
      { varCount := 1
        constraints := [.disjunction
          [⟨[], 0⟩, ⟨[.relation (.equality (.var ⟨0⟩) .unit) none], 1⟩] none]
        seeds := [] }
    let table := Table.ofNames .empty
    let solution : Solution := ⟨[.unit], [], [], 1, []⟩
    solve table {} system = .ok solution ∧
      solve table {} (system.rewritten solution) = .ok { solution with penalty := 0 } := by
  intro system table solution
  constructor <;> cbv

end TypeResolution
