/-
# What a path has recorded

The penalty, the settled references and the predicates of a path change in three places only: an
alternative that is entered adds its penalty, and a settled reference or a size predicate is
recorded. Everything else that is done to the work of a path moves goals and branches around.
Penalties never shrink, so that no end of a path is penalised less than the path was before.

Key definitions: `Search.Work.Next`, `Search.Advance.Leads`, `Search.Closes`, `Search.Resumes`.
Key theorems: `Search.Work.next_turn`, `Search.pathSimplify_cases`,
`Search.penalty_pathSimplify`, `Search.State.run_induct`, `Search.Alternative.penalty_enter`,
`Search.resumes_cons`.
-/
import TypeResolution.Search.State

namespace TypeResolution
namespace Search

/-! ### Adding penalties -/

theorem addPenalty_le (a b : Nat) : addPenalty a b ≤ maxPenalty := Nat.min_le_right _ _

theorem le_addPenalty {a : Nat} (b : Nat) (h : a ≤ maxPenalty) : a ≤ addPenalty a b := by
  unfold addPenalty
  omega

theorem addPenalty_mono (a : Nat) {b c : Nat} (h : b ≤ c) : addPenalty a b ≤ addPenalty a c := by
  unfold addPenalty
  omega

theorem exceeds_mono {a b : Nat} {bound : Option Nat} (hab : a ≤ b)
    (h : exceeds a bound = true) : exceeds b bound = true := by
  cases bound with
  | none => cases h
  | some bound =>
    simp only [exceeds, decide_eq_true_eq] at h ⊢
    omega

/-! ### Keys -/

/-- A key that is set is there once. -/
theorem map_fst_setKey {κ α : Type} [DecidableEq κ] (key : κ) (value : α) :
    ∀ items : List (κ × α), (setKey key value items).map (·.1) =
      if key ∈ items.map (·.1) then items.map (·.1) else items.map (·.1) ++ [key]
  | [] => rfl
  | (k, a) :: rest => by
    unfold setKey
    by_cases hk : k = key
    · simp [hk]
    · have hk' : ¬ key = k := fun h => hk h.symm
      rw [if_neg hk, List.map_cons, map_fst_setKey key value rest]
      simp only [List.map_cons, List.mem_cons, hk', false_or]
      split <;> rfl

/-- What is there after a key was set was there before, or it is the key with its value. -/
theorem mem_of_mem_setKey {κ α : Type} [DecidableEq κ] {key : κ} {value : α} {p : κ × α} :
    ∀ {items : List (κ × α)}, p ∈ setKey key value items → p = (key, value) ∨ p ∈ items
  | [], h => .inl (List.mem_singleton.1 h)
  | (k, a) :: rest, h => by
    unfold setKey at h
    split at h
    · rename_i hk
      subst hk
      exact (List.mem_cons.1 h).imp_right (List.mem_cons_of_mem _)
    · rcases List.mem_cons.1 h with rfl | h
      · exact .inr List.mem_cons_self
      · exact (mem_of_mem_setKey h).imp_right (List.mem_cons_of_mem _)

theorem nodup_setKey {κ α : Type} [DecidableEq κ] (key : κ) (value : α) {items : List (κ × α)}
    (h : (items.map (·.1)).Nodup) : ((setKey key value items).map (·.1)).Nodup := by
  rw [map_fst_setKey]
  split
  · exact h
  · rename_i hkey
    exact List.nodup_append.2 ⟨h, List.pairwise_singleton _ key, fun a ha b hb hab =>
      hkey (by rw [← List.mem_singleton.1 hb, ← hab]; exact ha)⟩

namespace Work

variable {ctx : Context} {s s' : Store} {w w' rest : Work} {goal : Goal}

/-! ### The penalty -/

@[simp] theorem penalty_push (w : Work) (c : Constraint) : (w.push c).penalty = w.penalty := by
  cases c <;> rfl

@[simp] theorem penalty_pushAll : ∀ (cs : List Constraint) (w : Work),
    (w.pushAll cs).penalty = w.penalty
  | [], _ => rfl
  | c :: cs, w => (penalty_pushAll cs (w.push c)).trans (penalty_push w c)

/-- Nothing has been penalised before the first choice. -/
theorem exceeds_pushAll (cs : List Constraint) (bound : Option Nat) :
    exceeds (pushAll {} cs).penalty bound = false := by
  rw [penalty_pushAll]
  cases bound with
  | none => rfl
  | some bound => exact decide_eq_false (Nat.not_lt_zero bound)

@[simp] theorem penalty_record (w : Work) (e : Entry) : (w.record e).penalty = w.penalty := by
  cases e <;> rfl

@[simp] theorem penalty_discharge (w : Work) (cs : List Constraint) (e : Option Entry) :
    (w.discharge cs e).penalty = w.penalty := by
  cases e <;> simp [discharge]

@[simp] theorem penalty_wake (w : Work) (s : Store) : (w.wake s).penalty = w.penalty := rfl

@[simp] theorem penalty_defer (w : Work) (goal : Goal) (watch : List TyVar) :
    (w.defer goal watch).penalty = w.penalty := rfl

/-! ### The settled references -/

@[simp] theorem choices_push (w : Work) (c : Constraint) : (w.push c).choices = w.choices := by
  cases c <;> rfl

@[simp] theorem choices_pushAll : ∀ (cs : List Constraint) (w : Work),
    (w.pushAll cs).choices = w.choices
  | [], _ => rfl
  | c :: cs, w => (choices_pushAll cs (w.push c)).trans (choices_push w c)

@[simp] theorem choices_wake (w : Work) (s : Store) : (w.wake s).choices = w.choices := rfl

@[simp] theorem choices_defer (w : Work) (goal : Goal) (watch : List TyVar) :
    (w.defer goal watch).choices = w.choices := rfl

/-! ### The predicates -/

@[simp] theorem predicates_push (w : Work) (c : Constraint) :
    (w.push c).predicates = w.predicates := by
  cases c <;> rfl

@[simp] theorem predicates_pushAll : ∀ (cs : List Constraint) (w : Work),
    (w.pushAll cs).predicates = w.predicates
  | [], _ => rfl
  | c :: cs, w => (predicates_pushAll cs (w.push c)).trans (predicates_push w c)

@[simp] theorem predicates_wake (w : Work) (s : Store) :
    (w.wake s).predicates = w.predicates := rfl

@[simp] theorem predicates_defer (w : Work) (goal : Goal) (watch : List TyVar) :
    (w.defer goal watch).predicates = w.predicates := rfl

/-! ### The number of constraints that were discharged -/

@[simp] theorem progress_push (w : Work) (c : Constraint) : (w.push c).progress = w.progress := by
  cases c <;> rfl

@[simp] theorem progress_pushAll : ∀ (cs : List Constraint) (w : Work),
    (w.pushAll cs).progress = w.progress
  | [], _ => rfl
  | c :: cs, w => (progress_pushAll cs (w.push c)).trans (progress_push w c)

@[simp] theorem progress_record (w : Work) (e : Entry) : (w.record e).progress = w.progress := by
  cases e <;> rfl

@[simp] theorem progress_discharge (w : Work) (cs : List Constraint) (e : Option Entry) :
    (w.discharge cs e).progress = w.progress + 1 := by
  cases e <;> simp [discharge]

@[simp] theorem progress_wake (w : Work) (s : Store) : (w.wake s).progress = w.progress := rfl

@[simp] theorem progress_defer (w : Work) (goal : Goal) (watch : List TyVar) :
    (w.defer goal watch).progress = w.progress := rfl

/-! ### Turns -/

/-- The works have recorded the same. -/
structure SameRecord (w w' : Work) : Prop where
  penalty : w'.penalty = w.penalty
  choices : w'.choices = w.choices
  predicates : w'.predicates = w.predicates

/-- What comes next is the first goal, or the first choice when no goal is left. Then the first
subtyping that was put aside is weakened, or else the first literal takes its default type, or
else the path has come to an end. -/
inductive Next (ctx : Context) (s : Store) (w : Work) : Turn → Prop where
  | goal {goal : Goal} {queue : List Goal} : w.queue = goal :: queue →
      Next ctx s w (.simplify goal { w with queue })
  | choice {point : BranchPoint} {branches : List BranchPoint} : w.queue = [] →
      w.branches = point :: branches → Next ctx s w (.choose point { w with branches })
  | unviable {point : BranchPoint} {name : Name} : Next ctx s w
      (.fail (.noViableCandidate name [] point.locator))
  | weakened {r : Relation} {l : Option Locator} {deferred : List Deferred} : w.queue = [] →
      w.branches = [] → weaken s w.deferred = some (r, l, deferred) →
      Next ctx s w (.simplify ⟨w.nextOrdinal, r, l⟩
        { w with deferred, nextOrdinal := w.nextOrdinal + 1 })
  | literal {v : TyVar} {type : Ty} {l : Option Locator} {warnings : List Diagnostic} :
      w.queue = [] → w.branches = [] →
      defaultLiteral ctx.table s w.deferred = some (v, type, l) →
      Next ctx s w (.simplify ⟨w.nextOrdinal, .equality (.var v) type, l⟩
        { w with warnings, nextOrdinal := w.nextOrdinal + 1 })
  | incomplete {e : TypeError} : incomplete ctx s w.deferred = some e → Next ctx s w (.fail e)
  | complete : w.queue = [] → w.branches = [] → Search.incomplete ctx s w.deferred = none →
      Next ctx s w .complete

theorem next_assume (w : Work) (ctx : Context) (s : Store) (hqueue : w.queue = [])
    (hbranches : w.branches = []) : Next ctx s w (w.assume ctx s) := by
  unfold assume
  cases hweaken : weaken s w.deferred with
  | some p =>
    obtain ⟨r, l, deferred⟩ := p
    exact .weakened hqueue hbranches hweaken
  | none =>
    dsimp only
    generalize hliteral : (if ctx.options.literalDefaulting then
      defaultLiteral ctx.table s w.deferred else none) = literal
    cases literal with
    | some p =>
      obtain ⟨v, type, l⟩ := p
      split at hliteral
      · exact .literal hqueue hbranches hliteral
      · cases hliteral
    | none =>
      cases hincomplete : Search.incomplete ctx s w.deferred with
      | some e => exact .incomplete hincomplete
      | none => exact .complete hqueue hbranches hincomplete

/-- Whatever comes next on a path is one of these things. -/
theorem next_turn (w : Work) (ctx : Context) (s : Store) : Next ctx s w (w.turn ctx s) := by
  unfold turn
  split
  · rename_i hqueue
    exact .goal hqueue
  · rename_i hqueue hbranches
    split
    · exact .unviable
    · exact .choice hqueue hbranches
  · rename_i hqueue hbranches
    exact next_assume w ctx s hqueue hbranches

/-- Taking up a goal records nothing. -/
theorem sameRecord_simplify (h : w.turn ctx s = .simplify goal rest) : SameRecord w rest := by
  have hnext := w.next_turn ctx s
  rw [h] at hnext
  cases hnext with
  | goal => exact ⟨rfl, rfl, rfl⟩
  | weakened => exact ⟨rfl, rfl, rfl⟩
  | literal => exact ⟨rfl, rfl, rfl⟩

/-- Taking up a goal discharges nothing. -/
theorem progress_of_simplify (h : w.turn ctx s = .simplify goal rest) :
    rest.progress = w.progress := by
  have hnext := w.next_turn ctx s
  rw [h] at hnext
  cases hnext with
  | goal => rfl
  | weakened => rfl
  | literal => rfl

/-- Choices come when the queue is empty, in the order of the branches. -/
theorem turn_choose {point : BranchPoint} (h : w.turn ctx s = .choose point rest) :
    w.queue = [] ∧ w.branches = point :: rest.branches ∧
      rest = { w with branches := rest.branches } := by
  have hnext := w.next_turn ctx s
  rw [h] at hnext
  cases hnext with
  | choice hqueue hbranches => exact ⟨hqueue, hbranches, rfl⟩

theorem sameRecord_choose {point : BranchPoint} (h : w.turn ctx s = .choose point rest) :
    SameRecord w rest := by
  obtain ⟨-, -, hrest⟩ := turn_choose h
  rw [hrest]
  exact ⟨rfl, rfl, rfl⟩

end Work

/-! ### Steps -/

/-- What simplifying a goal leaves of the rest. -/
theorem pathSimplify_cases {ctx : Context} {goal : Goal} {rest w' : Work} {s s' : Store}
    (h : Path.simplify ctx goal rest s = (.open w', s')) :
    ∃ w, (w' = w ∨ w' = w.wake s') ∧
      ((∃ children entry, Search.simplify ctx.table s goal.relation goal.locator =
          (.discharged children entry, s') ∧ w = rest.discharge children entry) ∨
        ∃ watch, Search.simplify ctx.table s goal.relation goal.locator = (.undecided watch, s') ∧
          w = rest.defer goal watch) := by
  unfold Path.simplify at h
  rcases hsimp : Search.simplify ctx.table s goal.relation goal.locator with ⟨result, after⟩
  rw [hsimp] at h
  have hwake : ∀ w : Work, (if after.version = s.version then w else w.wake after) = w ∨
      (if after.version = s.version then w else w.wake after) = w.wake after := by
    intro w
    split
    · exact .inl rfl
    · exact .inr rfl
  cases result with
  | discharged children entry =>
    obtain ⟨hw, rfl⟩ := Prod.mk.inj h
    obtain rfl := Path.open.inj hw
    exact ⟨_, hwake _, .inl ⟨children, entry, rfl, rfl⟩⟩
  | undecided watch =>
    obtain ⟨hw, rfl⟩ := Prod.mk.inj h
    obtain rfl := Path.open.inj hw
    exact ⟨_, hwake _, .inr ⟨watch, rfl, rfl⟩⟩
  | violated e =>
    obtain ⟨hw, -⟩ := Prod.mk.inj h
    cases hw

theorem store_pathSimplify (ctx : Context) (goal : Goal) (rest : Work) (s : Store) :
    (Path.simplify ctx goal rest s).2 =
      (simplify ctx.table s goal.relation goal.locator).2 := by
  unfold Path.simplify
  rcases simplify ctx.table s goal.relation goal.locator with ⟨_ | _ | _, after⟩ <;> rfl

theorem penalty_pathSimplify {ctx : Context} {goal : Goal} {rest w' : Work} {s s' : Store}
    (h : Path.simplify ctx goal rest s = (.open w', s')) : w'.penalty = rest.penalty := by
  obtain ⟨w, hw, hcases⟩ := pathSimplify_cases h
  have hpenalty : w.penalty = rest.penalty := by
    rcases hcases with ⟨children, entry, -, rfl⟩ | ⟨watch, -, rfl⟩
    · exact Work.penalty_discharge rest children entry
    · rfl
  rcases hw with rfl | rfl
  · exact hpenalty
  · exact hpenalty

/-- The search goes on to a state of the kind, or ends with an answer of the other kind. -/
def Advance.Leads (I : State → Prop) (Q : Except Unsolved Solution → Prop) : Advance → Prop
  | .next s => I s
  | .done answer => Q answer

/-- **A run** ends as its steps do, if each leads on to a state of the kind, unless the steps run
out. -/
theorem State.run_induct {ctx : Context} {I : State → Prop} {Q : Except Unsolved Solution → Prop}
    (hstep : ∀ s, I s → (s.step ctx).Leads I Q) : ∀ (steps : Nat) {s : State}, I s →
    Q (s.run ctx steps) ∨ ∃ certain, s.run ctx steps =
      .error ⟨[.stopped (.stepLimit ctx.options.maxSteps) none], certain⟩
  | 0, s, h => by
    have hleads := hstep s h
    unfold run
    cases hcase : s.step ctx with
    | done answer =>
      rw [hcase] at hleads
      exact .inl hleads
    | next s' => exact .inr ⟨_, rfl⟩
  | steps + 1, s, h => by
    have hleads := hstep s h
    unfold run
    cases hcase : s.step ctx with
    | done answer =>
      rw [hcase] at hleads
      exact .inl hleads
    | next s' =>
      rw [hcase] at hleads
      exact run_induct hstep steps hleads

/-- A branch is closed when no alternative is left, or when the next one is penalised too much.
Only if it is above the bound does this count as having met the bound. -/
inductive Closes (ctx : Context) (found : List Found) (pruned : Bool) (b : Branch) :
    Bool → Prop where
  | exhausted : b.untried = [] → Closes ctx found pruned b pruned
  | above {a : Alternative} {untried : List Alternative} : b.untried = a :: untried →
      exceeds (addPenalty b.base.penalty a.penalty) ctx.options.maxPenalty = true →
      Closes ctx found pruned b true
  | worse {a : Alternative} {untried : List Alternative} : b.untried = a :: untried →
      exceeds (addPenalty b.base.penalty a.penalty) (bestPenalty found) = true →
      Closes ctx found pruned b pruned

/-- After the end of a path the innermost branch is closed, or its next alternative is entered. -/
inductive Resumes (ctx : Context) (found : List Found) (certain : Option (List Ty)) (store : Store)
    (pruned : Bool) (b : Branch) (branches : List Branch) : Advance → Prop where
  | close {pruned' : Bool} : Closes ctx found pruned b pruned' →
      Resumes ctx found certain store pruned b branches
        (resume ctx found certain (store.restore b.snapshot).commit pruned'
          (if b.solved then none else b.failure?) branches)
  | enter {a : Alternative} {untried : List Alternative} : b.untried = a :: untried →
      exceeds (addPenalty b.base.penalty a.penalty) ctx.options.maxPenalty = false →
      exceeds (addPenalty b.base.penalty a.penalty) (bestPenalty found) = false →
      Resumes ctx found certain store pruned b branches
        (.next ⟨(a.enter b.point.locator b.base (store.restore b.snapshot)).2,
          .open (a.enter b.point.locator b.base (store.restore b.snapshot)).1,
          { b with untried, entered := (a, none) :: b.entered } :: branches, found, pruned,
          certain⟩)

/-- Whatever is done after the end of a path is one of these things. -/
theorem resumes_cons (ctx : Context) (found : List Found) (certain : Option (List Ty))
    (store : Store) (pruned : Bool) (failure : Option Failure) (b : Branch)
    (branches : List Branch) :
    Resumes ctx found certain store pruned (b.note failure) branches
      (resume ctx found certain store pruned failure (b :: branches)) := by
  rw [resume]
  dsimp only
  cases huntried : (b.note failure).untried with
  | nil => exact .close (.exhausted huntried)
  | cons a untried =>
    dsimp only
    split
    · rename_i hbound
      exact .close (.above huntried hbound)
    · rename_i hbound
      split
      · rename_i hbest
        exact .close (.worse huntried hbest)
      · rename_i hbest
        exact .enter huntried (Bool.eq_false_iff.2 hbound) (Bool.eq_false_iff.2 hbest)

/-- Entering an alternative adds its penalty. -/
theorem Alternative.penalty_enter (a : Alternative) (l : Option Locator) (w : Work) (s : Store) :
    (a.enter l w s).1.penalty = addPenalty w.penalty a.penalty := by
  cases a with
  | candidate o c => simp [enter]
  | minterm i m => simp [enter]

/-- Entering an alternative discharges nothing. -/
theorem Alternative.progress_enter (a : Alternative) (l : Option Locator) (w : Work) (s : Store) :
    (a.enter l w s).1.progress = w.progress := by
  cases a with
  | candidate o c => simp [enter]
  | minterm i m => simp [enter]

/-- No reference is settled twice. -/
def Work.NodupChoices (w : Work) : Prop := (w.choices.map (·.1)).Nodup

theorem Work.NodupChoices.record {w : Work} (h : w.NodupChoices) (e : Entry) :
    (w.record e).NodupChoices := by
  cases e with
  | choice site choice generic => exact nodup_setKey site choice h
  | _ => exact h

theorem Work.NodupChoices.pushAll {w : Work} (h : w.NodupChoices) (cs : List Constraint) :
    (w.pushAll cs).NodupChoices := by
  unfold NodupChoices
  rw [choices_pushAll]
  exact h

theorem Work.NodupChoices.discharge {w : Work} (h : w.NodupChoices) (cs : List Constraint)
    (e : Option Entry) : (w.discharge cs e).NodupChoices := by
  unfold Work.discharge
  cases e with
  | none => exact NodupChoices.pushAll (w := { w with progress := w.progress + 1 }) h cs
  | some e =>
    exact (NodupChoices.record (w := { w with progress := w.progress + 1 }) h e).pushAll cs

theorem nodupChoices_pathSimplify {ctx : Context} {goal : Goal} {rest w' : Work} {s s' : Store}
    (h : Path.simplify ctx goal rest s = (.open w', s')) (hn : rest.NodupChoices) :
    w'.NodupChoices := by
  obtain ⟨w, hw, hcases⟩ := pathSimplify_cases h
  have hnodup : w.NodupChoices := by
    rcases hcases with ⟨children, entry, -, rfl⟩ | ⟨watch, -, rfl⟩
    · exact hn.discharge children entry
    · exact hn
  rcases hw with rfl | rfl
  · exact hnodup
  · exact hnodup

theorem Alternative.nodupChoices_enter (a : Alternative) (l : Option Locator) {w : Work}
    (s : Store) (h : w.NodupChoices) : (a.enter l w s).1.NodupChoices := by
  have hw : Work.NodupChoices { w with penalty := addPenalty w.penalty a.penalty } := h
  cases a with
  | candidate o c => exact (hw.record _).pushAll _
  | minterm i m => exact hw.pushAll _

end Search
end TypeResolution
