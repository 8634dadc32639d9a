/-
# Systems that make sense

If nothing is wrong with a system, then its types have variables of the system only: those of
its constraints, of the constraints inside them, and of its seeds (`System.covers_constraints`,
`System.plantable_seeds`). The store that the search starts with has all of these.

The seeds are planted one after the other. What is left in the end is well formed, and each
variable then agrees with the type that was planted for it (`System.agree_of_plant`). If something
is wrong or the seeds are in conflict, this is told and there is no search.

Key definitions: `System.Plantable`.
Key theorems: `System.covers_constraints`, `System.plantable_seeds`, `System.agree_of_plant`,
`System.validate_extended`, `System.solve_start`.
-/
import TypeResolution.Solve
import TypeResolution.Proofs.Store.Assignments
import TypeResolution.Proofs.Store.History

namespace TypeResolution
namespace System

open Store

variable {count : Nat} {allowParams : Bool} {t : Ty} {s s' : Store} {v : TyVar} {σ : TyVar → Ty}
variable {system : System} {seeds : List (TyVar × Ty)}

/-! ### Operands -/

theorem allErrors_eq_flatMap : ∀ cs : List Constraint,
    allErrors count cs = cs.flatMap (constraintErrors count)
  | [] => rfl
  | _ :: cs => by simp [allErrors, allErrors_eq_flatMap cs]

theorem mintermErrors_eq_flatMap : ∀ ms : List (Minterm Constraint),
    mintermErrors count ms = ms.flatMap fun m => m.constraints.flatMap (constraintErrors count)
  | [] => rfl
  | ⟨_, _⟩ :: ms => by simp [mintermErrors, allErrors_eq_flatMap, mintermErrors_eq_flatMap ms]

theorem has_ofSize : (Store.ofSize count).Has v ↔ v.index < count := by
  simp [Has, Store.ofSize, size]

/-- Nothing is wrong with an operand if it has no placeholder, no generic parameter out of place
and variables of the system only. -/
theorem operandProblem_eq_none_iff : operandProblem count allowParams t = none ↔
    .unresolved ∉ t.leaves ∧ (allowParams = false → t.params = []) ∧
      ∀ v ∈ t.vars, v.index < count := by
  have hplaceholder : t.hasPlaceholder = true ↔ .unresolved ∈ t.leaves := List.contains_iff_mem
  have hparams : (!allowParams && t.hasParams) = true ↔
      ¬ (allowParams = false → t.params = []) := by
    cases allowParams <;> simp [Ty.hasParams]
  unfold operandProblem
  split
  · rename_i h
    exact ⟨nofun, fun hnot => absurd (hplaceholder.1 h) hnot.1⟩
  · rename_i hnone
    rw [and_iff_right (hplaceholder.not.1 hnone)]
    split
    · rename_i h
      exact ⟨nofun, fun hnot => absurd hnot.1 (hparams.1 h)⟩
    · rename_i hno
      rw [and_iff_right (not_not.1 (hparams.not.1 hno)), Option.map_eq_none_iff,
        List.find?_eq_none]
      refine forall₂_congr fun v _ => ?_
      rw [decide_eq_true_iff, Nat.not_le]

/-- An operand that makes sense has variables of the system only. -/
theorem covers_of_operandProblem (h : operandProblem count allowParams t = none) :
    (Store.ofSize count).Covers t :=
  fun v hv => has_ofSize.2 ((operandProblem_eq_none_iff.1 h).2.2 v hv)

/-- So do all the types of a constraint that makes sense. -/
theorem covers_of_constraintErrors {c : Constraint} (h : constraintErrors count c = []) :
    ∀ t ∈ c.types, (Store.ofSize count).Covers t := by
  induction c with
  | relation r l =>
    intro t ht
    unfold constraintErrors at h
    exact covers_of_operandProblem (List.filterMap_eq_nil_iff.1 (List.map_eq_nil_iff.1 h) t ht)
  | overload o l =>
    intro t ht
    unfold constraintErrors overloadProblems at h
    obtain ⟨htype, hcandidates⟩ := List.append_eq_nil_iff.1 (List.map_eq_nil_iff.1 h)
    rw [Constraint.types] at ht
    rcases List.mem_cons.1 ht with rfl | ht
    · exact covers_of_operandProblem (Option.toList_eq_nil_iff.1 htype)
    · obtain ⟨c, hc, rfl⟩ := List.mem_map.1 ht
      have hnone := List.filterMap_eq_nil_iff.1 hcandidates c hc
      exact covers_of_operandProblem (Option.map_eq_none_iff.1 hnone)
  | disjunction ms l ih =>
    intro t ht
    unfold constraintErrors at h
    have hms := (List.append_eq_nil_iff.1 h).2
    rw [mintermErrors_eq_flatMap, List.flatMap_eq_nil_iff] at hms
    rw [Constraint.types, Constraint.typesOfMinterms_eq_flatMap] at ht
    obtain ⟨m, hm, ht⟩ := List.mem_flatMap.1 ht
    obtain ⟨c, hc, ht⟩ := List.mem_flatMap.1 ht
    exact ih m hm c hc (List.flatMap_eq_nil_iff.1 (hms m hm) c hc) t ht

theorem covers_constraints (h : system.validate = []) :
    ∀ c ∈ system.constraints, ∀ t ∈ c.types, (Store.ofSize system.varCount).Covers t := by
  intro c hc
  have hall := (List.append_eq_nil_iff.1 h).1
  rw [allErrors_eq_flatMap] at hall
  exact covers_of_constraintErrors (List.flatMap_eq_nil_iff.1 hall c hc)

/-! ### More variables -/

section More

variable {more : Nat} (hle : count ≤ more)
include hle

theorem operandProblem_mono (h : operandProblem count allowParams t = none) :
    operandProblem more allowParams t = none := by
  obtain ⟨hplaceholder, hparams, hvars⟩ := operandProblem_eq_none_iff.1 h
  exact operandProblem_eq_none_iff.2
    ⟨hplaceholder, hparams, fun v hv => Nat.lt_of_lt_of_le (hvars v hv) hle⟩

theorem constraintErrors_mono {c : Constraint} (h : constraintErrors count c = []) :
    constraintErrors more c = [] := by
  induction c with
  | relation r l =>
    unfold constraintErrors at h ⊢
    rw [List.map_eq_nil_iff, List.filterMap_eq_nil_iff] at h ⊢
    exact fun t ht => operandProblem_mono hle (h t ht)
  | overload o l =>
    unfold constraintErrors overloadProblems at h ⊢
    rw [List.map_eq_nil_iff, List.append_eq_nil_iff, Option.toList_eq_nil_iff,
      List.filterMap_eq_nil_iff] at h ⊢
    refine ⟨operandProblem_mono hle h.1, fun c hc => Option.map_eq_none_iff.2 ?_⟩
    exact operandProblem_mono hle (Option.map_eq_none_iff.1 (h.2 c hc))
  | disjunction ms l ih =>
    unfold constraintErrors at h ⊢
    rw [List.append_eq_nil_iff, mintermErrors_eq_flatMap, List.flatMap_eq_nil_iff] at h ⊢
    refine ⟨h.1, fun m hm => List.flatMap_eq_nil_iff.2 fun c hc => ?_⟩
    exact ih m hm c hc (List.flatMap_eq_nil_iff.1 (h.2 m hm) c hc)

theorem seedProblem_mono {seed : TyVar × Ty} (h : seedProblem count seed = none) :
    seedProblem more seed = none := by
  unfold seedProblem at h ⊢
  split at h
  · cases h
  · rename_i hlt
    rw [if_neg (by omega)]
    exact operandProblem_mono hle h

end More

/-- **A system that makes sense** does so with more variables and a constraint that makes sense. -/
theorem validate_extended (h : system.validate = []) {more : Nat} (hle : system.varCount ≤ more)
    {c : Constraint} (hc : constraintErrors more c = []) :
    System.validate ⟨more, system.constraints ++ [c], system.seeds⟩ = [] := by
  unfold validate at h ⊢
  rw [List.append_eq_nil_iff, List.map_eq_nil_iff, List.filterMap_eq_nil_iff] at h ⊢
  refine ⟨?_, fun seed hseed => seedProblem_mono hle (h.2 seed hseed)⟩
  have hall := h.1
  rw [allErrors_eq_flatMap, List.flatMap_eq_nil_iff] at hall ⊢
  refine List.forall_mem_append.2 ⟨fun c hc => constraintErrors_mono hle (hall c hc), ?_⟩
  exact List.forall_mem_singleton.2 hc

/-! ### Seeds -/

/-- The store has the variables of the seeds. -/
def Plantable (s : Store) (seeds : List (TyVar × Ty)) : Prop :=
  ∀ seed ∈ seeds, s.Has seed.1 ∧ s.Covers seed.2

theorem plantable_seeds (h : system.validate = []) :
    Plantable (.ofSize system.varCount) system.seeds := by
  intro seed hseed
  have hall := List.map_eq_nil_iff.1 (List.append_eq_nil_iff.1 h).2
  have hnone := List.filterMap_eq_nil_iff.1 hall seed hseed
  unfold seedProblem at hnone
  split at hnone
  · cases hnone
  · rename_i hlt
    exact ⟨has_ofSize.2 (Nat.lt_of_not_le hlt), covers_of_operandProblem hnone⟩

/-- The first seed is bound, and the others are planted after it. -/
theorem plant_cons (hs : s.WellFormed) (hseeds : Plantable s ((v, t) :: seeds))
    (h : plant s ((v, t) :: seeds) = .done s') :
    ∃ s₁, s.bind v t = .done s₁ ∧ Moves s s₁ ∧ Plantable s₁ seeds ∧
      plant s₁ seeds = .done s' := by
  have hfirst := hseeds _ List.mem_cons_self
  have hmoves := moves_bind hs hfirst.1 hfirst.2
  unfold plant at h
  rcases hbind : s.bind v t with ⟨s₁, conflict⟩
  rw [hbind] at h hmoves
  cases conflict with
  | none =>
    refine ⟨s₁, rfl, hmoves, fun seed hseed => ?_, h⟩
    have hseed := hseeds seed (List.mem_cons_of_mem _ hseed)
    exact ⟨hmoves.has hseed.1, hmoves.covers hseed.2⟩
  | some c => cases congrArg Unified.conflict h

/-- Planting seeds moves the store. -/
theorem moves_plant : ∀ (seeds : List (TyVar × Ty)) {s : Store}, s.WellFormed →
    Plantable s seeds → plant s seeds = .done s' → Moves s s'
  | [], s, _, _, h => by
    obtain rfl : s = s' := congrArg Unified.store h
    exact .refl
  | (v, t) :: seeds, s, hs, hseeds, h => by
    obtain ⟨s₁, -, hmoves, hseeds₁, hplant⟩ := plant_cons hs hseeds h
    exact hmoves.trans (moves_plant seeds (hmoves.wellFormed hs) hseeds₁ hplant)

/-- What binding each seed keeps is kept by planting them, also where it comes to a conflict. -/
theorem plant_preserves {I : Store → Prop} : ∀ (seeds : List (TyVar × Ty)) {s : Store},
    (∀ seed ∈ seeds, ∀ s, I s → I (s.bind seed.1 seed.2).store) → I s → I (plant s seeds).store
  | [], _, _, hs => hs
  | (v, t) :: seeds, s, hall, hs => by
    obtain ⟨hfirst, hrest⟩ := List.forall_mem_cons.1 hall
    have hbound := hfirst s hs
    unfold plant
    split
    · rename_i s₁ heq
      rw [heq] at hbound
      exact plant_preserves seeds hrest hbound
    · exact hbound

/-- Planting seeds binds to parts of them. -/
theorem bindsOnly_plant {P : Ty → Prop} (hP : Ty.Hereditary P) (seeds : List (TyVar × Ty))
    {s : Store} (hs : s.BindsOnly P) (hall : ∀ seed ∈ seeds, P seed.2) :
    (plant s seeds).store.BindsOnly P :=
  plant_preserves (I := (BindsOnly · P)) seeds
    (fun seed hseed _ hs => bindsOnly_bind hP hs (hall seed hseed)) hs

/-- Each variable agrees with the type that has been planted for it. -/
theorem agree_of_plant : ∀ (seeds : List (TyVar × Ty)) {s : Store}, s.WellFormed →
    Plantable s seeds → plant s seeds = .done s' → s'.SolvedBy σ →
    ∀ seed ∈ seeds, agree (σ seed.1) (seed.2.mapVars σ) = true
  | [], _, _, _, _, _ => fun _ hseed => by cases hseed
  | (v, t) :: seeds, s, hs, hseeds, h, hσ => by
    obtain ⟨s₁, hbind, hmoves, hseeds₁, hplant⟩ := plant_cons hs hseeds h
    obtain ⟨hv, ht⟩ := hseeds _ List.mem_cons_self
    have hs₁ := hmoves.wellFormed hs
    intro seed hseed
    rcases List.mem_cons.1 hseed with rfl | hseed
    · exact agree_of_bind hs hv ht hbind ((moves_plant seeds hs₁ hseeds₁ hplant).solved hσ)
    · exact agree_of_plant seeds hs₁ hseeds₁ hplant hσ seed hseed

/-- A system that makes sense is searched from the store in which its seeds were planted. -/
theorem solve_start {table : Table} {options : SolverOptions} (hvalid : system.validate = [])
    (hplant : plant (.ofSize system.varCount) system.seeds = .done s) :
    solve table options system =
      (system.start s).run ⟨table, options, system.varCount⟩ options.maxSteps := by
  unfold solve
  dsimp only
  rw [hvalid, hplant]
  rfl

theorem malformed_of_mem_constraintErrors {c : Constraint} {e : TypeError}
    (h : e ∈ constraintErrors count c) : ∃ description l, e = .malformed description l := by
  induction c with
  | relation r l =>
    unfold constraintErrors at h
    obtain ⟨problem, -, rfl⟩ := List.mem_map.1 h
    exact ⟨problem, l, rfl⟩
  | overload o l =>
    unfold constraintErrors at h
    obtain ⟨problem, -, rfl⟩ := List.mem_map.1 h
    exact ⟨problem, l, rfl⟩
  | disjunction ms l ih =>
    unfold constraintErrors at h
    rw [mintermErrors_eq_flatMap] at h
    rcases List.mem_append.1 h with h | h
    · split at h
      · exact ⟨_, l, List.mem_singleton.1 h⟩
      · cases h
    · obtain ⟨m, hm, h⟩ := List.mem_flatMap.1 h
      obtain ⟨c, hc, h⟩ := List.mem_flatMap.1 h
      exact ih m hm c hc h

/-- What is wrong with a system is told as a description. -/
theorem malformed_of_mem_validate {e : TypeError} (h : e ∈ system.validate) :
    ∃ description l, e = .malformed description l := by
  unfold validate at h
  rw [allErrors_eq_flatMap] at h
  rcases List.mem_append.1 h with h | h
  · obtain ⟨c, -, h⟩ := List.mem_flatMap.1 h
    exact malformed_of_mem_constraintErrors h
  · obtain ⟨problem, -, rfl⟩ := List.mem_map.1 h
    exact ⟨problem, none, rfl⟩

/-- Of a system that makes no sense everything that is wrong is told. -/
theorem exists_solve_of_invalid (table : Table) (options : SolverOptions)
    (h : system.validate ≠ []) :
    ∃ certain, solve table options system = .error ⟨system.validate, certain⟩ := by
  unfold solve
  split
  · rename_i hvalid
    exact absurd hvalid h
  · exact ⟨_, rfl⟩

/-- If the seeds are in conflict, this is told. -/
theorem exists_solve_of_conflict (table : Table) (options : SolverOptions) {conflict : UnifyError}
    (hvalid : system.validate = [])
    (hplant : plant (.ofSize system.varCount) system.seeds = ⟨s, some conflict⟩) :
    ∃ certain, solve table options system =
      .error ⟨[conflict.toTypeError .equal none], certain⟩ := by
  unfold solve
  dsimp only
  rw [hvalid, hplant]
  exact ⟨_, rfl⟩

end System
end TypeResolution
