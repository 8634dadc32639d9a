/-
# The limit of steps

The limit on the steps of a search cuts the search off and does nothing else. No step looks at it
(`Search.step_limited`), and only the answer of a search that has been cut off tells it. So a search
that comes to another answer comes to the same one under any higher limit (`Search.run?_limited`):
the two go through the same states, and at the step at which the one has run out of steps it ends.

A search always ends, since its loops do (`Search.Regular.runs`). Of what they do only the counted
iterations are limited, and there are no more of these than the limit says.

Key definitions: `Search.Context.limited`, `System.EndsAfter`.
Key theorems: `Search.step_limited`, `Search.run?_limited`, `solve_cutoff`.
-/
import TypeResolution.Proofs.Search.Iterations

namespace TypeResolution
namespace Search

variable {ctx : Context} {s : State} {past : List Store} {w : Work}

/-- The same search with another limit of steps. -/
def Context.limited (ctx : Context) (limit : Nat) : Context :=
  { ctx with options := { ctx.options with maxSteps := limit } }

/-! ### Steps do not look at the limit -/

theorem resume_limited (ctx : Context) (limit : Nat) (found : List Found)
    (certain : Option (List Ty)) (store : Store) (pruned : Bool) (failure : Option Failure)
    (branches : List Branch) :
    resume (ctx.limited limit) found certain store pruned failure branches =
      resume ctx found certain store pruned failure branches := by
  induction branches generalizing store pruned failure with
  | nil => rfl
  | cons b branches ih =>
    simp only [resume, ih]
    rfl

theorem turn_limited (ctx : Context) (limit : Nat) (w : Work) (store : Store) :
    w.turn (ctx.limited limit) store = w.turn ctx store := rfl

theorem owns_limited (ctx : Context) (limit : Nat) (s : State) :
    s.owns (ctx.limited limit) = s.owns ctx := rfl

/-- **A step does not look at the limit.** -/
theorem step_limited (ctx : Context) (limit : Nat) (s : State) :
    s.step (ctx.limited limit) = s.step ctx := by
  unfold State.step
  cases s.path with
  | failed failure => exact resume_limited ctx limit _ _ _ _ _ _
  | «open» w =>
    dsimp only
    rw [turn_limited]
    cases w.turn ctx s.store with
    | simplify goal rest => rfl
    | choose point rest => exact resume_limited ctx limit _ _ _ _ _ _
    | fail e => exact resume_limited ctx limit _ _ _ _ _ _
    | complete => exact resume_limited ctx limit _ _ _ _ _ _

/-! ### Searches that are not cut off -/

/-- The search has been cut off. -/
def CutOff (limit : Nat) (answer : Option (Except Unsolved Solution)) : Prop :=
  ∃ certain, answer = some (.error ⟨[.stopped (.stepLimit limit) none], certain⟩)

/-- **A search that is not cut off** comes to the same answer when it may take more steps. -/
theorem run?_limited (limit : Nat) : ∀ {left more : Nat} {s : State} {past : List Store},
    Regular ctx s past → ¬ CutOff ctx.options.maxSteps (s.run? ctx left) → left ≤ more →
    s.run? (ctx.limited limit) more = s.run? ctx left
  | 0, more, s, past, h, hcut, _ => by
    cases hstep : s.step ctx with
    | next s' =>
      refine absurd ⟨s.certain.getD (ctx.bindings s.store), ?_⟩ hcut
      unfold State.run? State.run
      rw [hstep]
      rfl
    | done answer =>
      -- The end of a search is free, so it is reached also when no step is left.
      obtain ⟨m, hm⟩ := h.arrives
      have howns := hm.done answer hstep
      cases more with
      | zero => simp only [State.run?, State.run, step_limited, hstep]
      | succ more =>
        simp only [State.run?, State.run, owns_limited, step_limited, howns, hstep, if_true]
  | left + 1, 0, s, past, _, _, hmore => by omega
  | left + 1, more + 1, s, past, h, hcut, hmore => by
    unfold State.run? at hcut ⊢
    rw [owns_limited, step_limited]
    by_cases howns : s.owns ctx = true
    · rw [if_pos howns] at hcut ⊢
      rw [if_pos howns]
      cases hstep : s.step ctx with
      | done answer => rfl
      | next s' =>
        rw [hstep] at hcut
        obtain ⟨past', h'⟩ := h.step ⟨howns, hstep⟩
        exact run?_limited limit h' hcut (by omega)
    · rw [if_neg howns, if_neg howns]

end Search

open Search Store

variable {table : Table} {options : SolverOptions} {system : System} {s₀ : Store}

namespace System

/-- The system makes sense, and its seeds leave the store from which it is searched. -/
def Searched (system : System) (s₀ : Store) : Prop :=
  system.validate = [] ∧ plant (.ofSize system.varCount) system.seeds = .done s₀

/-- The program ends after this number of steps, with an answer unless a variable is looked up that
the store does not have. -/
inductive EndsAfter (table : Table) (options : SolverOptions) (system : System) :
    Nat → Option (Except Unsolved Solution) → Prop where
  | unsearched : (∀ s₀, ¬ system.Searched s₀) →
      EndsAfter table options system 0 (some (solve table options system))
  | searched {s₀ : Store} {taken : Nat} {answer : Option (Except Unsolved Solution)} :
      system.Searched s₀ →
      Runs ⟨table, options, system.varCount⟩ options.maxSteps 0 (system.start s₀).moment taken
        answer →
      EndsAfter table options system taken answer

theorem Searched.unique {s₁ : Store} (h : system.Searched s₀) (h₁ : system.Searched s₁) :
    s₀ = s₁ :=
  congrArg Unified.store (h.2.symm.trans h₁.2)

theorem Searched.solve? (h : system.Searched s₀) (table : Table) (options : SolverOptions) :
    solve? table options system =
      State.run? ⟨table, options, system.varCount⟩ options.maxSteps (system.start s₀) := by
  unfold TypeResolution.solve?
  rw [h.1, h.2]
  rfl

/-- What is not searched is answered without looking at the options. -/
theorem solve_unsearched (h : ∀ s₀, ¬ system.Searched s₀) (table : Table)
    (options options' : SolverOptions) :
    solve? table options system = some (solve table options system) ∧
      solve table options system = solve table options' system := by
  unfold solve? solve
  cases hvalid : system.validate with
  | cons e errors => exact ⟨rfl, rfl⟩
  | nil =>
    rcases hseeds : plant (.ofSize system.varCount) system.seeds with ⟨store, conflict⟩
    cases conflict with
    | none => exact absurd ⟨hvalid, hseeds⟩ (h store)
    | some conflict =>
      refine ⟨rfl, ?_⟩
      dsimp only
      rw [hseeds]
      rfl

end System

/-- **The limit of steps is a cut-off.** With any declarations, options and system the program ends,
in one way, and takes no more steps than the limit. If the search is not cut off, then no higher
limit changes what it comes to. -/
theorem solve_cutoff (table : Table) (options : SolverOptions) (system : System) :
    (∃ taken ≤ options.maxSteps, ∀ n answer, system.EndsAfter table options n answer ↔
      n = taken ∧ answer = solve? table options system) ∧
    (¬ CutOff options.maxSteps (solve? table options system) → ∀ more, options.maxSteps ≤ more →
      solve? table { options with maxSteps := more } system = solve? table options system) := by
  by_cases hsearched : ∃ s₀, system.Searched s₀
  · obtain ⟨s₀, hs₀⟩ := hsearched
    have hregular : Regular ⟨table, options, system.varCount⟩ (system.start s₀) [] :=
      regular_start options hs₀.1 hs₀.2
    rw [hs₀.solve?]
    refine ⟨?_, fun hcut more hmore => ?_⟩
    · obtain ⟨taken, htaken, hruns⟩ :=
        hregular.runs options.maxSteps options.maxSteps (Nat.zero_add _)
      refine ⟨taken, htaken, fun n answer => ⟨fun h => ?_, ?_⟩⟩
      · cases h with
        | unsearched hnot => exact absurd hs₀ (hnot s₀)
        | searched hs₁ hruns' =>
          obtain rfl := hs₀.unique hs₁
          exact hruns'.unique hruns
      · rintro ⟨rfl, rfl⟩
        exact .searched hs₀ hruns
    · rw [hs₀.solve?]
      exact run?_limited more hregular hcut hmore
  · have hnot := not_exists.1 hsearched
    obtain ⟨hanswer, -⟩ := System.solve_unsearched hnot table options options
    refine ⟨⟨0, Nat.zero_le _, fun n answer => ⟨fun h => ?_, ?_⟩⟩, fun _ more _ => ?_⟩
    · cases h with
      | unsearched _ => exact ⟨rfl, hanswer.symm⟩
      | searched hs₀ _ => exact absurd hs₀ (hnot _)
    · rintro ⟨rfl, rfl⟩
      rw [hanswer]
      exact .unsearched hnot
    · obtain ⟨hanswer', hsame⟩ :=
        System.solve_unsearched hnot table { options with maxSteps := more } options
      rw [hanswer', hanswer, hsame]

/-- One equality takes one step: without any the search is cut off, and with one it is solved, as it
is with any number of them. -/
theorem solve_cutoff_equality :
    let system : System := ⟨1, [.relation (.equality (.var ⟨0⟩) (.tuple [])) none], []⟩
    let table := Table.ofNames .empty
    let options (limit : Nat) : SolverOptions := ⟨limit, none, false⟩
    CutOff 0 (solve? table (options 0) system) ∧
      ∀ more, 1 ≤ more →
        solve? table (options more) system = some (.ok ⟨[.tuple []], [], [], 0, []⟩) := by
  intro system table options
  have hsolved : solve? table (options 1) system = some (.ok ⟨[.tuple []], [], [], 0, []⟩) := by
    cbv
  refine ⟨⟨[.var ⟨0⟩], by cbv⟩, fun more hmore => ?_⟩
  obtain ⟨-, hcutoff⟩ := solve_cutoff table (options 1) system
  have hsame := hcutoff (by rw [hsolved]; rintro ⟨certain, hcut⟩; cases hcut) more hmore
  exact hsame.trans hsolved

end TypeResolution
