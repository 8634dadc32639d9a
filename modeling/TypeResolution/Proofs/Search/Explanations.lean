/-
# Failures are explained

A system without an answer has at least one error, and each error says something. What is wrong
with the system itself is told as it is. Otherwise the search ends with an ambiguity, with a limit
that it has met, or with the failure of a path: a relation that is violated, a reference without
viable candidates, or variables that are unknown. Of the latter there is at least one, also where
such an error is given inside another one as the reason why a candidate was rejected, since every
goal that was put aside watches a variable (`Search.Watching`).

The search has answers in reserve that are never given. There is always a winner among solutions,
and where none was found there is a failure, or an alternative was left out because of the bound
(`Search.Accounts`): no choice without alternatives is come to, and a branch all of whose
alternatives were entered has a failure for each of them, unless a solution was found or the bound
was met inside. No choice is met where a relation is simplified, so the search never calls a
constraint malformed.

Key definitions: `Search.Explains`, `Search.Explained`, `Search.Watching`, `Search.Explanation`.
Key theorems: `Search.upheld_watching`, `explanation_of_mem_errors`, `solve_explained`.
-/
import TypeResolution.Proofs.Search.Descent
import TypeResolution.Proofs.Search.Endings
import TypeResolution.Proofs.Search.Rejections
import TypeResolution.Proofs.Search.Waiting

namespace TypeResolution

namespace TypeError.Contains

/-- Nothing occurs in an error but the error itself, unless it is about rejected candidates. -/
theorem eq {e e' : TypeError} (h : e.Contains e')
    (hnot : ∀ name rejected l, e ≠ .noViableCandidate name rejected l) : e' = e := by
  cases h with
  | self => rfl
  | reason => exact absurd rfl (hnot _ _ _)

theorem trans {e e' e'' : TypeError} (h : e.Contains e') (h' : e'.Contains e'') :
    e.Contains e'' := by
  induction h with
  | self => exact h'
  | reason hr _ ih => exact .reason hr (ih h')

end TypeError.Contains

/-- What holds of an error about rejected candidates, and in the reasons for all rejections, holds
of every error that occurs in it. -/
theorem TypeError.forall_contains {P : TypeError → Prop} {name : Name}
    {rejected : List (Rejection TypeError)} {l : Option Locator}
    (hself : P (.noViableCandidate name rejected l))
    (h : ∀ r ∈ rejected, ∀ e, r.reason.Contains e → P e) :
    ∀ e, (TypeError.noViableCandidate name rejected l).Contains e → P e := by
  intro e hin
  cases hin with
  | self => exact hself
  | reason hr hin => exact h _ hr e hin

namespace Search

variable {ctx : Context} {table : Table} {s s' : Store} {w w' rest : Work} {goal : Goal}
variable {r : Relation} {l : Option Locator} {e : TypeError}

/-! ### What a path can fail with -/

/-- An error says why a path failed: no limit of the search was met, nothing is malformed, and where
variables are unknown they are named. -/
def Explains : TypeError → Prop
  | .stopped (.incomplete vars) _ => vars ≠ []
  | .ambiguous .. | .stopped (.stepLimit _) _ | .stopped (.penaltyLimit _) _
  | .malformed .. => False
  | _ => True

/-- So does every error inside it. -/
def Explained (e : TypeError) : Prop := ∀ e', e.Contains e' → Explains e'

theorem Explained.not_isAmbiguity (h : Explained e) : ¬ IsAmbiguity e := by
  intro hambiguous
  cases e with
  | ambiguous => exact h _ (.self _)
  | _ => exact hambiguous

theorem OfRelation.explained (h : OfRelation e) : Explained e := by
  intro e' hin
  have hnot : ∀ name rejected l, e ≠ .noViableCandidate name rejected l := by
    rintro name rejected l rfl
    exact h
  rw [hin.eq hnot]
  cases e with
  | ambiguous => exact h
  | stopped => exact h.elim
  | malformed => exact h
  | _ => trivial

/-! ### Watched variables -/

/-- Every goal that was put aside watches a variable. -/
def Watching (w : Work) : Prop := ∀ d ∈ w.deferred, d.watch ≠ []

theorem watching_start (cs : List Constraint) : Watching (Work.pushAll {} cs) := by
  rw [Watching, Work.deferred_pushAll]
  nofun

theorem Watching.simplify (h : Watching w) (hturn : w.turn ctx s = .simplify goal rest)
    (hsimp : Path.simplify ctx goal rest s = (.open w', s')) : Watching w' := by
  intro d hd
  obtain ⟨hd | ⟨watch, rfl, hdefer⟩, -⟩ := mem_deferred_of_pathSimplify hsimp hd
  · exact h d (mem_deferred_of_turn hturn hd)
  · have habides := abides_simplify ctx.table s goal.relation goal.locator
    rw [hdefer] at habides
    exact habides

/-- What is left unknown has a name: a variable of the system, or one that is watched. -/
theorem Watching.explained_of_incomplete (h : Watching w)
    (hincomplete : incomplete ctx s w.deferred = some e) : Explained e := by
  unfold incomplete at hincomplete
  dsimp only at hincomplete
  split at hincomplete
  · cases hincomplete
  · rename_i hsome
    obtain rfl := Option.some.inj hincomplete
    intro e' hin
    rw [hin.eq nofun]
    show (if _ then _ else _) ≠ []
    split
    · rename_i hknown
      rw [hknown, Bool.and_true, List.isEmpty_iff] at hsome
      obtain ⟨d, hd⟩ := List.exists_mem_of_ne_nil _ hsome
      obtain ⟨v, hv⟩ := List.exists_mem_of_ne_nil _ (h d hd)
      have hroot : s.root v ∈ (w.deferred.flatMap (·.watch)).map s.root :=
        List.mem_map_of_mem (List.mem_flatMap.2 ⟨d, hd, hv⟩)
      exact List.ne_nil_of_mem (List.mem_eraseDups.2 hroot)
    · rename_i hunknown
      exact mt List.isEmpty_iff.2 hunknown

/-- **Paths fail with errors that explain it.** -/
theorem upheld_watching (ctx : Context) : Upheld ctx (fun _ => True) Watching Explained where
  simplify _ h hturn hsimp := h.simplify hturn hsimp
  violated {s w rest goal e} _ _ _ hviolated := by
    have hblamed := blamed_simplify ctx.table s goal.relation goal.locator
    rw [hviolated] at hblamed
    exact OfRelation.explained hblamed
  fail {s w e} h hturn := by
    have hnext := w.next_turn ctx s
    rw [hturn] at hnext
    cases hnext with
    | unviable => exact TypeError.forall_contains trivial nofun
    | incomplete hincomplete => exact h.explained_of_incomplete hincomplete
  enter {s w rest point a} h hturn _ d hd := by
    rw [a.deferred_enter, deferred_of_choose hturn] at hd
    exact h d hd
  reject _ _ _ hrejected := TypeError.forall_contains trivial hrejected

end Search

open Search

variable {table : Table} {options : SolverOptions} {system : System} {unsolved : Unsolved}
variable {s₀ : Store} {bound : Nat} {certain : List Ty}

/-- The bound is told only where a path comes to an alternative above it. -/
theorem barred_of_solve (hvalid : system.validate = [])
    (hseeds : System.plant (.ofSize system.varCount) system.seeds = .done s₀)
    (hsolve : solve table options system =
      .error ⟨[.stopped (.penaltyLimit bound) none], certain⟩) :
    Meets ⟨table, options, system.varCount⟩ .barred s₀ (Work.pushAll {} system.constraints) := by
  have hsteps : ¬ ∃ certain, solve table options system =
      .error ⟨[.stopped (.stepLimit options.maxSteps) none], certain⟩ := by
    rintro ⟨certain', hstop⟩
    cases hsolve.symm.trans hstop
  have hsettles := (solve_settles hvalid hseeds).resolve_right hsteps
  have hnone : ∀ P f, ¬ Admitted ⟨table, options, system.varCount⟩
      (system.leaves table options s₀) P f := by
    rw [hsolve] at hsettles
    cases hsettles with
    | ambiguous _ _ _ hambiguity => exact hambiguity.elim
    | unsolved hnone => exact hnone
  have hreports := (solve_reports hvalid hseeds hnone).resolve_right hsteps
  rw [hsolve] at hreports
  cases hreports with
  | dead _ he => exact he.elim
  | barred _ hbarred => exact hbarred

/-- What an error of a system tells. -/
inductive Search.Explanation (table : Table) (options : SolverOptions) (system : System) :
    TypeError → Prop where
  | malformed {e : TypeError} : e ∈ system.validate → Explanation table options system e
  | failure {e : TypeError} : Explained e → Explanation table options system e
  | ambiguity {e : TypeError} : IsAmbiguity e → Explanation table options system e
  | steps {steps : Nat} : Explanation table options system (.stopped (.stepLimit steps) none)
  | bound {bound : Nat} {s₀ : Store} : options.maxPenalty = some bound →
      System.plant (.ofSize system.varCount) system.seeds = .done s₀ →
      Meets ⟨table, options, system.varCount⟩ .barred s₀ (Work.pushAll {} system.constraints) →
      Explanation table options system (.stopped (.penaltyLimit bound) none)

/-- **Every error** of a system without an answer tells something, and there is one. -/
theorem explanation_of_mem_errors (h : solve table options system = .error unsolved) :
    unsolved.errors ≠ [] ∧ ∀ e ∈ unsolved.errors, Explanation table options system e := by
  have hone : ∀ {e : TypeError}, Explanation table options system e →
      [e] ≠ [] ∧ ∀ e' ∈ [e], Explanation table options system e' := fun he =>
    ⟨List.cons_ne_nil _ _, List.forall_mem_singleton.2 he⟩
  have hanswered := solve_answered (upheld_watching ⟨table, options, system.varCount⟩)
    (watching_start system.constraints)
  generalize hresult : solve table options system = result at hanswered
  obtain rfl := h.symm.trans hresult
  cases hanswered with
  | malformed hinvalid => exact ⟨hinvalid, fun e he => .malformed he⟩
  | @conflict conflict =>
    exact hone (.failure (ofRelation_toTypeError conflict .equal none).explained)
  | steps => exact hone .steps
  | searched hvalid hplant hreturns =>
    cases hreturns with
    | ambiguous => exact hone (.ambiguity (isAmbiguity_ambiguity _ _))
    | failed he => exact hone (.failure he)
    | bounded hbound => exact hone (.bound hbound hplant (barred_of_solve hvalid hplant h))

/-- So does every error inside one. -/
theorem Search.Explanation.of_contains {e e' : TypeError}
    (h : Explanation table options system e) (hin : e.Contains e') :
    Explanation table options system e' := by
  by_cases hexplained : Explained e
  · exact .failure fun e'' hin' => hexplained e'' (hin.trans hin')
  · have heq : e' = e := by
      refine hin.eq ?_
      rintro name rejected l rfl
      cases h with
      | malformed he =>
        obtain ⟨_, _, heq⟩ := System.malformed_of_mem_validate he
        cases heq
      | failure he => exact hexplained he
      | ambiguity he => exact he
    exact heq ▸ h

/-- **Failures are always explained.** A system without an answer has an error. Wherever an error
says that variables are unknown, there is one; where it says that penalties are bounded, they are,
and a path within the bound comes to an alternative above it; and where it says that a constraint
is malformed, this is said of the system before it is searched.

The answers that are in reserve are not given. Among solutions there is a winner, and where there
is none a path has failed or the bound was met; a choice that is come to has an alternative, and
what is simplified is not a choice. -/
theorem solve_explained :
    let ctx : Context := ⟨table, options, system.varCount⟩
    (∀ unsolved, solve table options system = .error unsolved → unsolved.errors ≠ [] ∧
      ∀ e ∈ unsolved.errors, ∀ e', e.Contains e' →
        (∀ vars l, e' = .stopped (.incomplete vars) l → vars ≠ []) ∧
        (∀ bound l, e' = .stopped (.penaltyLimit bound) l → options.maxPenalty = some bound ∧
          ∃ s₀, System.plant (.ofSize system.varCount) system.seeds = .done s₀ ∧
            Meets ctx .barred s₀ (Work.pushAll {} system.constraints)) ∧
        ∀ description l, e' = .malformed description l → e' ∈ system.validate) ∧
    ∀ s₀, system.validate = [] →
      System.plant (.ofSize system.varCount) system.seeds = .done s₀ →
      ∀ s, Visits ctx (system.start s₀) s →
        (∀ result, s.step ctx = .done result → ∃ store found pruned certain failure,
          result = answer ctx store found pruned certain failure ∧
          (found ≠ [] → distinct (ofLowestRank found.reverse) ≠ []) ∧
          (found = [] → failure ≠ none ∨ pruned = true ∧ options.maxPenalty ≠ none)) ∧
        ∀ w, s.path = .open w →
          (∀ point rest, w.turn ctx s.store = .choose point rest →
            point.offer.alternatives ≠ []) ∧
          ∀ goal rest, w.turn ctx s.store = .simplify goal rest →
            goal.constraint.isBranchPoint = false := by
  intro ctx
  refine ⟨fun unsolved h => ?_, fun s₀ hvalid hplant s hvisits => ?_⟩
  · obtain ⟨hne, hall⟩ := explanation_of_mem_errors h
    refine ⟨hne, fun e he e' hin => ⟨?_, ?_, ?_⟩⟩
    · rintro vars l rfl
      cases (hall e he).of_contains hin with
      | malformed he =>
        obtain ⟨_, _, heq⟩ := System.malformed_of_mem_validate he
        cases heq
      | failure he => exact he _ (.self _)
      | ambiguity he => exact he.elim
    · rintro bound l rfl
      cases (hall e he).of_contains hin with
      | malformed he =>
        obtain ⟨_, _, heq⟩ := System.malformed_of_mem_validate he
        cases heq
      | failure he => exact (he _ (.self _)).elim
      | ambiguity he => exact he.elim
      | bound hbound hplant hmeets => exact ⟨hbound, _, hplant, hmeets⟩
    · rintro description l rfl
      cases (hall e he).of_contains hin with
      | malformed he => exact he
      | failure he => exact (he _ (.self _)).elim
      | ambiguity he => exact he.elim
  · have hI := upheld_watching ctx
    have hs := (upholds_start options hvalid (watching_start _)).visits hI hvisits
      fun _ _ => trivial
    refine ⟨fun result hdone => ?_, fun w hw => ⟨fun point rest hturn => ?_, fun _ _ _ => rfl⟩⟩
    · have hleads := hs.step hI trivial
      rw [hdone] at hleads
      obtain ⟨store, pruned, failure, haccounts, heq⟩ := hleads
      refine ⟨store, _, pruned, _, failure, heq, winners_ne_nil, fun hfound => ?_⟩
      rcases haccounts.reason hfound with hpruned | hfailure | ⟨b, hb, -⟩
      · exact .inr ⟨hpruned, haccounts.bounded hpruned⟩
      · exact .inl hfailure
      · cases hb
    · exact (hs.path w hw).1.alternatives_ne_nil hturn

/-- Both candidates are rejected because the second variable is unknown, and both alternatives of a
disjunction are above the bound. -/
theorem solve_explained_rejected :
    let unit : Ty := .tuple []
    let overload : Overload :=
      ⟨.var ⟨0⟩, ⟨5⟩, ⟨7⟩, [.plain ⟨1⟩ unit, .plain ⟨2⟩ (.tuple [unit])]⟩
    let system : System := ⟨2, [.overload overload none], []⟩
    let table := Table.ofNames .empty
    let unknown : TypeError := .stopped (.incomplete [⟨1⟩]) none
    let told : TypeError := .noViableCandidate ⟨5⟩
      [⟨⟨1⟩, unit, unknown⟩, ⟨⟨2⟩, .tuple [unit], unknown⟩] none
    let penalized : System := ⟨0, [.disjunction [⟨[], 1⟩, ⟨[], 2⟩] none], []⟩
    let start := Work.pushAll {} system.constraints
    solve table {} system = .error ⟨[told], [.var ⟨0⟩, .var ⟨1⟩]⟩ ∧ told.Contains unknown ∧
      ([⟨1⟩] : List TyVar) ≠ [] ∧
      (∃ point rest, start.turn ⟨table, {}, 2⟩ (.ofSize 2) = .choose point rest ∧
        point.offer.alternatives ≠ []) ∧
      solve table { maxPenalty := some 0 } penalized =
        .error ⟨[.stopped (.penaltyLimit 0) none], []⟩ ∧
      Meets ⟨table, { maxPenalty := some 0 }, 0⟩ .barred (.ofSize 0)
        (Work.pushAll {} penalized.constraints) := by
  intro unit overload system table unknown told penalized start
  have hsolve : solve table {} system = .error ⟨[told], [.var ⟨0⟩, .var ⟨1⟩]⟩ := by cbv
  have hin : told.Contains unknown := .reason List.mem_cons_self (.self _)
  obtain ⟨herrors, hstates⟩ := @solve_explained table {} system
  obtain ⟨hunknown, -, -⟩ := (herrors _ hsolve).2 told List.mem_cons_self unknown hin
  obtain ⟨-, hopen⟩ := hstates (.ofSize 2) (by decide) rfl _ .refl
  obtain ⟨point, rest, hturn⟩ : ∃ point rest,
      start.turn ⟨table, {}, 2⟩ (.ofSize 2) = .choose point rest := ⟨_, _, by cbv⟩
  have hbounded : solve table { maxPenalty := some 0 } penalized =
      .error ⟨[.stopped (.penaltyLimit 0) none], []⟩ := by cbv
  obtain ⟨hpenalized, -⟩ := @solve_explained table { maxPenalty := some 0 } penalized
  obtain ⟨-, hlimit, -⟩ := (hpenalized _ hbounded).2 _ List.mem_cons_self _ (.self _)
  obtain ⟨-, s₀, hplant, hmeets⟩ := hlimit 0 none rfl
  obtain rfl : Store.ofSize 0 = s₀ := congrArg Unified.store hplant
  exact ⟨hsolve, hin, hunknown _ _ rfl,
    ⟨point, rest, hturn, (hopen start rfl).1 point rest hturn⟩, hbounded, hmeets⟩

end TypeResolution
