/-
# Paths of the exhaustive search

A path of the exhaustive search is followed from a store and a work to any later place on it
(`Search.Walk`), with the positions of the alternatives that it enters and the number of the
constraints that it discharges. The work of a path counts the same number. A path ends in vain where
it is blocked (`Search.FailsAt`), and then it fails with one error only.

Key definitions: `Search.Blocked`, `Search.Walk`, `Search.FailsAt`.
Key theorems: `Search.Walk.progress`, `Search.failsAt_blocked`, `Search.failsAt_simplify`,
`Search.failsAt_choose`.
-/
import TypeResolution.Proofs.Search.Leaves

namespace TypeResolution
namespace Search

variable {ctx : Context} {s s' t : Store} {w w' v rest : Work} {goal : Goal} {f : Failure}
variable {point : BranchPoint} {a : Alternative} {e e' : TypeError} {P : List Nat} {i n : Nat}

/-! ### Ends in vain -/

/-- The path cannot go on: the goal that comes next is violated, the reference that comes next has
no candidates, or something is left unknown. -/
def Blocked (ctx : Context) (s : Store) (w : Work) (e : TypeError) : Prop :=
  match w.turn ctx s with
  | .simplify goal _ => (simplify ctx.table s goal.relation goal.locator).1 = .violated e
  | .fail e' => e' = e
  | _ => False

theorem blocked_fail (hturn : w.turn ctx s = .fail e) : Blocked ctx s w e' ↔ e = e' := by
  unfold Blocked
  rw [hturn]

theorem blocked_simplify (hturn : w.turn ctx s = .simplify goal rest) :
    Blocked ctx s w e ↔ (simplify ctx.table s goal.relation goal.locator).1 = .violated e := by
  unfold Blocked
  rw [hturn]

theorem not_blocked_choose (hturn : w.turn ctx s = .choose point rest) : ¬ Blocked ctx s w e := by
  unfold Blocked
  rw [hturn]
  exact id

theorem not_blocked_complete (hturn : w.turn ctx s = .complete) : ¬ Blocked ctx s w e := by
  unfold Blocked
  rw [hturn]
  exact id

/-- A path does not go on where it is blocked. -/
theorem Blocked.not_open (h : Blocked ctx s w e) (hturn : w.turn ctx s = .simplify goal rest) :
    Path.simplify ctx goal rest s ≠ (.open w', s') := by
  replace h := (blocked_simplify hturn).1 h
  intro hsimp
  obtain ⟨-, -, ⟨_, _, hcase, -⟩ | ⟨_, hcase, -⟩⟩ := pathSimplify_cases hsimp
  · rw [hcase] at h
    cases h
  · rw [hcase] at h
    cases h

/-- A path that fails with its next goal is blocked at it. -/
theorem blocked_of_failed (hturn : w.turn ctx s = .simplify goal rest)
    (hsimp : Path.simplify ctx goal rest s = (.failed f, s')) :
    Blocked ctx s w f.error ∧ f.progress = w.progress := by
  rw [blocked_simplify hturn]
  unfold Path.simplify at hsimp
  rcases hcase : simplify ctx.table s goal.relation goal.locator with ⟨result, after⟩
  rw [hcase] at hsimp
  cases result with
  | discharged children entry => cases (Prod.mk.inj hsimp).1
  | undecided watch => cases (Prod.mk.inj hsimp).1
  | violated e =>
    obtain rfl := Path.failed.inj (Prod.mk.inj hsimp).1
    exact ⟨rfl, Work.progress_of_simplify hturn⟩

theorem Blocked.unique (h : Blocked ctx s w e) (h' : Blocked ctx s w e') : e = e' := by
  cases hturn : w.turn ctx s with
  | simplify goal rest =>
    rw [blocked_simplify hturn] at h h'
    exact Simplified.violated.inj (h.symm.trans h')
  | choose point rest => exact absurd h (not_blocked_choose hturn)
  | fail e'' =>
    rw [blocked_fail hturn] at h h'
    exact h.symm.trans h'
  | complete => exact absurd h (not_blocked_complete hturn)

theorem Blocked.twin {i j : Nat} (h : Blocked ctx s w e) (ht : Twin i j s t) :
    Blocked ctx t w e := by
  unfold Blocked at h ⊢
  rw [← turn_congr ctx w ht.1]
  split at h
  · rename_i goal rest hturn
    rw [← (alike_simplify (steady_twin i j).toParallel ctx.table ht goal.relation goal.locator).1]
    exact h
  · exact h
  · exact h

/-! ### Walks -/

/-- The number of constraints that a step on a goal discharges. -/
def Simplified.count : Simplified → Nat
  | .discharged _ _ => 1
  | _ => 0

/-- The exhaustive search comes from a store and a work to others, by entering at each choice the
alternative at the next position of the list, and discharges so many constraints on the way. -/
inductive Walk (ctx : Context) : Store → Work → List Nat → Nat → Store → Work → Prop where
  | here {s : Store} {w : Work} : Walk ctx s w [] 0 s w
  | simplify {s s' t : Store} {w w' v rest : Work} {goal : Goal} {P : List Nat} {n : Nat} :
      w.turn ctx s = .simplify goal rest → Path.simplify ctx goal rest s = (.open w', s') →
      Walk ctx s' w' P n t v →
      Walk ctx s w P ((simplify ctx.table s goal.relation goal.locator).1.count + n) t v
  | choose {s t : Store} {w v rest : Work} {point : BranchPoint} {a : Alternative} {i : Nat}
      {P : List Nat} {n : Nat} :
      w.turn ctx s = .choose point rest → point.offer.alternatives[i]? = some a →
      Walk ctx (a.enter point.locator rest s).2 (a.enter point.locator rest s).1 P n t v →
      Walk ctx s w (i :: P) n t v

/-- A step on a goal counts as one if it discharges the goal. -/
theorem progress_pathSimplify (hturn : w.turn ctx s = .simplify goal rest)
    (hsimp : Path.simplify ctx goal rest s = (.open w', s')) :
    w'.progress = w.progress + (simplify ctx.table s goal.relation goal.locator).1.count := by
  rw [← Work.progress_of_simplify hturn]
  obtain ⟨w, hw', hcases⟩ := pathSimplify_cases hsimp
  have hwake : w'.progress = w.progress := by rcases hw' with rfl | rfl <;> rfl
  rw [hwake]
  rcases hcases with ⟨children, entry, hcase, rfl⟩ | ⟨watch, hcase, rfl⟩
  · rw [hcase, Work.progress_discharge]
    rfl
  · rw [hcase]
    rfl

theorem progress_enter_of_choose (hturn : w.turn ctx s = .choose point rest) (a : Alternative) :
    (a.enter point.locator rest s).1.progress = w.progress := by
  obtain ⟨-, -, hrest⟩ := Work.turn_choose hturn
  rw [a.progress_enter, hrest]

/-- The work of a path counts what is discharged. -/
theorem Walk.progress (h : Walk ctx s w P n t v) : v.progress = w.progress + n := by
  induction h with
  | here => rfl
  | simplify hturn hsimp _ ih => rw [ih, progress_pathSimplify hturn hsimp, Nat.add_assoc]
  | choose hturn _ _ ih => rw [ih, progress_enter_of_choose hturn]

/-- A path of the exhaustive search fails with the error, at the place with the given positions,
after so many constraints have been discharged. -/
def FailsAt (ctx : Context) (s : Store) (w : Work) (P : List Nat) (e : TypeError) (n : Nat) :
    Prop := ∃ t v, Walk ctx s w P n t v ∧ Blocked ctx t v e

/-- Where the path is blocked nothing else fails. -/
theorem failsAt_blocked (h : Blocked ctx s w e) :
    FailsAt ctx s w P e' n ↔ P = [] ∧ e' = e ∧ n = 0 := by
  constructor
  · rintro ⟨t, v, hwalk, hblocked⟩
    cases hwalk with
    | here => exact ⟨rfl, hblocked.unique h, rfl⟩
    | simplify hturn hsimp => exact absurd hsimp (h.not_open hturn)
    | choose hturn => exact absurd h (not_blocked_choose hturn)
  · rintro ⟨rfl, rfl, rfl⟩
    exact ⟨s, w, .here, h⟩

theorem failsAt_simplify (hturn : w.turn ctx s = .simplify goal rest)
    (hsimp : Path.simplify ctx goal rest s = (.open w', s')) :
    FailsAt ctx s w P e n ↔
      ∃ k, n = (simplify ctx.table s goal.relation goal.locator).1.count + k ∧
        FailsAt ctx s' w' P e k := by
  constructor
  · rintro ⟨t, v, hwalk, hblocked⟩
    cases hwalk with
    | here => exact absurd hsimp (hblocked.not_open hturn)
    | simplify hturn' hsimp' hwalk =>
      obtain ⟨rfl, rfl⟩ := Turn.simplify.inj (hturn.symm.trans hturn')
      obtain ⟨hpath, rfl⟩ := Prod.mk.inj (hsimp.symm.trans hsimp')
      obtain rfl := Path.open.inj hpath
      exact ⟨_, rfl, t, v, hwalk, hblocked⟩
    | choose hturn' => cases hturn.symm.trans hturn'
  · rintro ⟨k, rfl, t, v, hwalk, hblocked⟩
    exact ⟨t, v, .simplify hturn hsimp hwalk, hblocked⟩

/-- What fails below a choice fails below one of its alternatives. -/
theorem failsAt_choose (hturn : w.turn ctx s = .choose point rest) :
    FailsAt ctx s w P e n ↔ ∃ i a P', P = i :: P' ∧ point.offer.alternatives[i]? = some a ∧
      FailsAt ctx (a.enter point.locator rest s).2 (a.enter point.locator rest s).1 P' e n := by
  constructor
  · rintro ⟨t, v, hwalk, hblocked⟩
    cases hwalk with
    | here => exact absurd hblocked (not_blocked_choose hturn)
    | simplify hturn' => cases hturn.symm.trans hturn'
    | choose hturn' ha hwalk =>
      obtain ⟨rfl, rfl⟩ := Turn.choose.inj (hturn.symm.trans hturn')
      exact ⟨_, _, _, rfl, ha, t, v, hwalk, hblocked⟩
  · rintro ⟨i, a, P', rfl, ha, t, v, hwalk, hblocked⟩
    exact ⟨t, v, .choose hturn ha hwalk, hblocked⟩

end Search
end TypeResolution
