/-
# How searches end

A search ends when no branch is open any more. It has then found solutions, or it knows of a
failure, or it has left an alternative out because of the bound: a branch is met with an alternative
that can be entered, and each alternative that is entered comes to a solution, or to a failure that
the branch notes, unless the ones inside it were left out. So there is always something to be told
(`Search.Upholds.step`).

What is told depends on what holds of the paths. If something holds of the work of a path however
the path goes on, and says of each error with which a path fails what is to be said of errors, then
it holds on all paths of the states that a search visits, and the answer is made of the end of a
path, or of such an error (`Search.Returns`). None of this needs the store, or the places of the
search in its tree.

Key definitions: `Search.Visits`, `Search.State.kept`, `Search.State.captured`, `Search.Upheld`,
`Search.Upholds`, `Search.Accounts`, `Search.Returns`, `Answered`.
Key theorems: `Search.resume_accounts`, `Search.Upholds.step`, `Search.Upholds.visits`,
`Search.Answers.returns`, `Search.State.run_visits`, `solve_answered`.
-/
import TypeResolution.Proofs.Search.Bound
import TypeResolution.Proofs.Search.Forks

open Relation (ReflTransGen)

namespace TypeResolution
namespace Search

variable {ctx : Context} {stores : Store → Prop} {I : Work → Prop} {E : TypeError → Prop}
variable {s s' start : State} {w w' rest : Work} {b : Branch} {branches : List Branch}
variable {found : List Found} {pruned : Bool} {failure : Option Failure}
variable {certain : Option (List Ty)} {store : Store} {result : Except Unsolved Solution}

/-! ### Visited states -/

/-- The search comes from one state to another. -/
def Visits (ctx : Context) : State → State → Prop :=
  ReflTransGen fun s s' => s.step ctx = .next s'

/-- A run ends with the step of a state that it visits, unless the steps run out. -/
theorem State.run_visits (ctx : Context) (steps : Nat) (s : State) :
    (∃ s', Visits ctx s s' ∧ s'.step ctx = .done (s.run ctx steps)) ∨
      ∃ certain, s.run ctx steps =
        .error ⟨[.stopped (.stepLimit ctx.options.maxSteps) none], certain⟩ := by
  refine State.run_induct (I := Visits ctx s)
    (Q := fun result => ∃ s', Visits ctx s s' ∧ s'.step ctx = .done result) (fun s' h => ?_) steps
    .refl
  cases hstep : s'.step ctx with
  | next t => exact h.tail hstep
  | done result => exact ⟨s', h, hstep⟩

/-! ### Solutions kept -/

/-- The solutions that are kept when the next step has been taken. -/
def State.kept (ctx : Context) (s : State) : List Found :=
  match s.path with
  | .failed _ => s.found
  | .open w =>
    match w.turn ctx s.store with
    | .complete => keep s.found (w.toFound ctx s.store)
    | _ => s.found

/-- The types that are held to be certain when the next step has been taken: those that were so
before, or at the first choice those that are known. -/
def State.captured (ctx : Context) (s : State) : Option (List Ty) :=
  match s.path with
  | .failed _ => s.certain
  | .open w =>
    match w.turn ctx s.store with
    | .choose .. => s.certain <|> some (ctx.bindings s.store)
    | _ => s.certain

theorem ofLowestRank_ne_nil (h : found ≠ []) : ofLowestRank found ≠ [] := by
  obtain ⟨best, hmem, -, heq⟩ := exists_ofLowestRank_eq_filter found h
  rw [heq]
  exact List.ne_nil_of_mem (List.mem_filter.2 ⟨hmem, best.rankLe_refl⟩)

theorem distinct_ne_nil (h : found ≠ []) : distinct found ≠ [] := by
  cases found with
  | nil => exact absurd rfl h
  | cons f found =>
    exact List.ne_nil_of_mem ((prefix_foldl_dropAgreeing found [f]).subset List.mem_cons_self)

/-- If there are solutions, the best of them are told apart. -/
theorem winners_ne_nil (h : found ≠ []) : distinct (ofLowestRank found.reverse) ≠ [] :=
  distinct_ne_nil (ofLowestRank_ne_nil (mt List.reverse_eq_nil_iff.1 h))

theorem mem_of_mem_winners {f : Found} (h : f ∈ distinct (ofLowestRank found.reverse)) :
    f ∈ found := by
  have hlowest := mem_of_mem_distinct h
  have hne : found.reverse ≠ [] := by
    intro hnil
    rw [hnil] at hlowest
    cases hlowest
  obtain ⟨best, -, -, heq⟩ := exists_ofLowestRank_eq_filter found.reverse hne
  rw [heq] at hlowest
  exact List.mem_reverse.1 (List.mem_filter.1 hlowest).1

theorem mem_keep {f g : Found} (h : g ∈ keep found f) : g = f ∨ g ∈ found := by
  unfold keep at h
  split at h
  · exact .inl (List.mem_singleton.1 h)
  · split at h
    · exact .inr h
    · split at h
      · exact .inl (List.mem_singleton.1 h)
      · exact List.mem_cons.1 h

theorem keep_ne_nil (found : List Found) (f : Found) : keep found f ≠ [] := by
  unfold keep
  split
  · exact List.cons_ne_nil _ _
  · rename_i best hbest
    split
    · rintro rfl
      cases hbest
    · split <;> exact List.cons_ne_nil _ _

/-! ### What paths uphold -/

/-- What holds of the work of a path holds however the path goes on in stores of the kind, and each
error with which the path fails is of the other kind; so is the error that a reference fails with if
its candidates fail with such errors. -/
structure Upheld (ctx : Context) (stores : Store → Prop) (I : Work → Prop) (E : TypeError → Prop) :
    Prop where
  simplify : ∀ {s s' : Store} {w w' rest : Work} {goal : Goal}, stores s → I w →
    w.turn ctx s = .simplify goal rest → Path.simplify ctx goal rest s = (.open w', s') → I w'
  violated : ∀ {s : Store} {w rest : Work} {goal : Goal} {e : TypeError}, stores s → I w →
    w.turn ctx s = .simplify goal rest →
    (Search.simplify ctx.table s goal.relation goal.locator).1 = .violated e → E e
  fail : ∀ {s : Store} {w : Work} {e : TypeError}, I w → w.turn ctx s = .fail e → E e
  enter : ∀ {s : Store} {w rest : Work} {point : BranchPoint} {a : Alternative}, I w →
    w.turn ctx s = .choose point rest → a ∈ point.offer.alternatives →
    I (a.enter point.locator rest s).1
  reject : ∀ {s : Store} {w rest : Work} {point : BranchPoint} {o : Overload}
    {rejected : List (Rejection TypeError)}, I w → w.turn ctx s = .choose point rest →
    point.offer = .overload o → (∀ r ∈ rejected, E r.reason) →
    E (.noViableCandidate o.name rejected point.locator)

/-- The branch was met on a path that upholds the invariant, and the alternatives that failed did so
with errors of the kind. -/
structure Branch.Upholds (ctx : Context) (I : Work → Prop) (E : TypeError → Prop) (b : Branch) :
    Prop where
  met : ∃ w, (∀ s, w.turn ctx s = .choose b.point b.base) ∧ w.Forks True ∧ I w
  untried : b.untried <:+ b.point.offer.alternatives
  failures : ∀ p ∈ b.entered, ∀ f, p.2 = some f → E f.error

/-- A path that upholds the invariant has come to the good end. -/
def Completes (ctx : Context) (I : Work → Prop) (f : Found) : Prop :=
  ∃ t w, w.turn ctx t = .complete ∧ I w ∧ f = w.toFound ctx t

/-- What the search keeps beside the path: the open branches, what was found, and whether the bound
was met. -/
structure Sustains (ctx : Context) (I : Work → Prop) (E : TypeError → Prop) (found : List Found)
    (pruned : Bool) (branches : List Branch) : Prop where
  upholds : ∀ b ∈ branches, b.Upholds ctx I E
  solved : ∀ b ∈ branches, b.solved = true → found ≠ []
  completes : ∀ f ∈ found, Completes ctx I f
  bounded : pruned = true → ctx.options.maxPenalty ≠ none

/-- What the search knows when a path has ended, with how the path failed, if it did. If it is not
enough for an answer, then an alternative of the innermost branch can be entered. -/
structure Accounts (ctx : Context) (I : Work → Prop) (E : TypeError → Prop) (found : List Found)
    (pruned : Bool) (failure : Option Failure) (branches : List Branch) : Prop
    extends Sustains ctx I E found pruned branches where
  pursued : ∀ b ∈ branches.tail, b.Pursued
  last : failure ≠ none → ∀ b, branches.head? = some b → b.Pursued
  told : ∀ f, failure = some f → E f.error
  reason : found = [] → pruned = true ∨ failure ≠ none ∨
    ∃ b, branches.head? = some b ∧ b.untried ≠ []

/-- The path of the state upholds the invariant, and so did the paths on which the open branches
were met. -/
structure Upholds (ctx : Context) (I : Work → Prop) (E : TypeError → Prop) (s : State) : Prop
    extends Sustains ctx I E s.found s.pruned s.branches where
  path : ∀ w, s.path = .open w → w.Forks True ∧ I w
  failed : ∀ f, s.path = .failed f → E f.error
  pursued : ∀ b ∈ s.branches, b.Pursued

/-- An answer that is made of what the search knows when no branch is open. -/
def Answers (ctx : Context) (I : Work → Prop) (E : TypeError → Prop) (found : List Found)
    (certain : Option (List Ty)) (result : Except Unsolved Solution) : Prop :=
  ∃ store pruned failure, Accounts ctx I E found pruned failure [] ∧
    result = answer ctx store found pruned certain failure

/-! ### Branches -/

/-- A path that fails at a goal does so with the error of the goal. -/
theorem violated_of_pathSimplify {s s' : Store} {goal : Goal} {f : Failure}
    (h : Path.simplify ctx goal rest s = (.failed f, s')) :
    (simplify ctx.table s goal.relation goal.locator).1 = .violated f.error := by
  unfold Path.simplify at h
  rcases hsimp : simplify ctx.table s goal.relation goal.locator with ⟨result, after⟩
  rw [hsimp] at h
  cases result with
  | discharged => cases (Prod.mk.inj h).1
  | undecided => cases (Prod.mk.inj h).1
  | violated e =>
    obtain rfl := Path.failed.inj (Prod.mk.inj h).1
    rfl

/-- Whether a choice comes next does not depend on the store. -/
theorem Work.turn_of_choose {s : Store} {point : BranchPoint}
    (h : w.turn ctx s = .choose point rest) (t : Store) : w.turn ctx t = .choose point rest := by
  obtain ⟨hqueue, hbranches, -⟩ := turn_choose h
  unfold turn at h ⊢
  rw [hqueue, hbranches] at h ⊢
  exact h

namespace Branch.Upholds

theorem note (h : b.Upholds ctx I E) (hf : ∀ f, failure = some f → E f.error) :
    (b.note failure).Upholds ctx I E := by
  unfold Branch.note
  split
  · rename_i f a rest hentered
    refine ⟨h.met, h.untried, List.forall_mem_cons.2 ⟨?_, fun p hp => ?_⟩⟩
    · rintro _ ⟨⟩
      exact hf f rfl
    · exact h.failures p (hentered ▸ List.mem_cons_of_mem _ hp)
  · exact h

theorem solve (h : b.Upholds ctx I E) (solved : Bool) :
    Branch.Upholds ctx I E { b with solved } := ⟨h.met, h.untried, h.failures⟩

theorem mem_failures (h : b.Upholds ctx I E) : ∀ p ∈ b.failures, E p.2.error := by
  intro p hp
  obtain ⟨⟨a, f⟩, hmem, heq⟩ := List.mem_filterMap.1 hp
  obtain ⟨f', hf', rfl⟩ := Option.map_eq_some_iff.1 heq
  exact h.failures _ (List.mem_reverse.1 hmem) f' hf'

/-- **A branch fails** with an error of the kind if its alternatives do. -/
theorem failure? (hI : Upheld ctx stores I E) (h : b.Upholds ctx I E) {f : Failure}
    (hf : b.failure? = some f) : E f.error := by
  cases hoffer : b.point.offer with
  | disjunction ms =>
    obtain ⟨p, hp, rfl⟩ := mem_failures_of_failure? hoffer hf
    exact h.mem_failures p hp
  | overload o =>
    obtain ⟨w, hturn, -, hw⟩ := h.met
    have hmem := h.mem_failures
    unfold Branch.failure? at hf
    rw [hoffer] at hf
    split at hf
    · cases hf
    · rename_i a first others hfailures
      rw [hfailures] at hmem
      rw [← Option.some.inj hf]
      refine hI.reject hw (hturn (.ofSize 0)) hoffer fun r hr => ?_
      obtain ⟨⟨x, g⟩, hx, hr⟩ := List.mem_filterMap.1 hr
      cases x with
      | candidate o c =>
        rw [← Option.some.inj hr]
        exact hmem _ hx
      | minterm => cases hr

end Branch.Upholds

section Resume

variable (hI : Upheld ctx stores I E)
include hI

omit hI in
/-- When a branch is closed there are solutions, or the bound was met, or the branch has failed. -/
theorem Accounts.reason_of_closes {pruned' : Bool}
    (h : Accounts ctx I E found pruned failure (b :: branches))
    (hcloses : Closes ctx found pruned (b.note failure) pruned') (hfound : found = []) :
    pruned' = true ∨ (b.note failure).failure? ≠ none := by
  cases hcloses with
  | above => exact .inl rfl
  | worse _ hbest =>
    rw [hfound] at hbest
    cases hbest
  | exhausted huntried =>
    rcases h.reason hfound with hpruned | hfailure | ⟨b', hb', hne⟩
    · exact .inl hpruned
    · have hnoted := (failures_note fun hne => h.last hne b rfl).2 (.inl hfailure)
      exact .inr (mt failure?_eq_none_iff.1 hnoted)
    · obtain rfl := Option.some.inj hb'
      obtain ⟨entered, heq, -⟩ := b.note_eq failure
      rw [heq] at huntried
      exact absurd huntried hne

omit hI in
/-- The bound was met before, or it is met when the branch is closed. -/
theorem Accounts.bounded_of_closes {pruned' : Bool}
    (h : Accounts ctx I E found pruned failure (b :: branches))
    (hcloses : Closes ctx found pruned (b.note failure) pruned') :
    pruned' = true → ctx.options.maxPenalty ≠ none := by
  cases hcloses with
  | exhausted => exact h.bounded
  | worse => exact h.bounded
  | above _ hbound =>
    intro _ hnone
    rw [hnone] at hbound
    cases hbound

/-- The account is still kept when the innermost branch is closed. -/
theorem Accounts.close (pruned' : Bool)
    (h : Accounts ctx I E found pruned failure (b :: branches))
    (hcloses : Closes ctx found pruned (b.note failure) pruned') :
    Accounts ctx I E found pruned'
      (if (b.note failure).solved then none else (b.note failure).failure?) branches := by
  have hnoted := (h.upholds b List.mem_cons_self).note h.told
  have hsolved : (b.note failure).solved = true → found ≠ [] := by
    obtain ⟨entered, heq, -⟩ := b.note_eq failure
    rw [heq]
    exact h.solved b List.mem_cons_self
  have hrest : ∀ b' ∈ branches, b' ∈ b :: branches := fun _ => List.mem_cons_of_mem b
  refine ⟨⟨fun b' hb' => h.upholds b' (hrest b' hb'), fun b' hb' => h.solved b' (hrest b' hb'),
    h.completes, h.bounded_of_closes hcloses⟩,
    fun b' hb' => h.pursued b' (List.mem_of_mem_tail hb'),
    fun _ b' hb' => h.pursued b' (List.mem_of_mem_head? hb'), fun f hf => ?_, fun hfound => ?_⟩
  · split at hf
    · cases hf
    · exact hnoted.failure? hI hf
  · rw [if_neg fun hs => hsolved hs hfound]
    exact (h.reason_of_closes hcloses hfound).imp_right .inl

/-- **Going on from the end of a path** keeps account of what is known. -/
theorem resume_accounts (h : Accounts ctx I E found pruned failure branches) :
    (resume ctx found certain store pruned failure branches).Leads (Upholds ctx I E)
      (Answers ctx I E found certain) := by
  induction branches generalizing store pruned failure with
  | nil => exact ⟨store, pruned, failure, h, rfl⟩
  | cons b branches ih =>
    have hnoted := (h.upholds b List.mem_cons_self).note h.told
    have hclose := fun pruned' => Accounts.close hI pruned' h
    have hresumes := resumes_cons ctx found certain store pruned failure b branches
    have hsolved : (b.note failure).solved = b.solved := by
      obtain ⟨entered, heq, -⟩ := b.note_eq failure
      rw [heq]
    generalize b.note failure = c at hnoted hclose hresumes hsolved
    generalize resume ctx found certain store pruned failure (b :: branches) = advance at hresumes ⊢
    cases hresumes with
    | close hcloses => exact ih (hclose _ hcloses)
    | @enter a untried huntried =>
      obtain ⟨w, hturn, hforks, hw⟩ := hnoted.met
      have ha : a ∈ c.point.offer.alternatives :=
        hnoted.untried.mem (huntried ▸ List.mem_cons_self)
      have hentered : Branch.Upholds ctx I E
          { c with untried, entered := (a, none) :: c.entered } := by
        refine ⟨hnoted.met, (List.suffix_cons a untried).trans (huntried ▸ hnoted.untried),
          List.forall_mem_cons.2 ⟨nofun, hnoted.failures⟩⟩
      refine ⟨⟨List.forall_mem_cons.2 ⟨hentered, fun b' hb' => ?_⟩,
        List.forall_mem_cons.2 ⟨fun hs => ?_, fun b' hb' => ?_⟩, h.completes, h.bounded⟩, ?_, nofun,
        List.forall_mem_cons.2 ⟨⟨a, rfl⟩, h.pursued⟩⟩
      · exact h.upholds b' (List.mem_cons_of_mem _ hb')
      · exact h.solved b List.mem_cons_self (hsolved ▸ hs)
      · exact h.solved b' (List.mem_cons_of_mem _ hb')
      · rintro _ ⟨⟩
        exact ⟨hforks.enter (hturn _) ha, hI.enter hw (hturn _) ha⟩

/-- **A step** keeps to what the paths uphold, and ends the search with what is known. -/
theorem Upholds.step (h : Upholds ctx I E s) (hstore : stores s.store) :
    (s.step ctx).Leads (Upholds ctx I E) (Answers ctx I E (s.kept ctx) (s.captured ctx)) := by
  have hpursued : ∀ b ∈ s.branches.tail, b.Pursued := fun b hb =>
    h.pursued b (List.mem_of_mem_tail hb)
  have hlast : ∀ b, s.branches.head? = some b → b.Pursued := fun b hb =>
    h.pursued b (List.mem_of_mem_head? hb)
  have hfail : ∀ f : Failure, E f.error → (s.fail ctx f).Leads (Upholds ctx I E)
      (Answers ctx I E s.found s.certain) := fun f hf =>
    resume_accounts hI ⟨h.toSustains, hpursued, fun _ => hlast, fun _ heq =>
      Option.some.inj heq ▸ hf, fun _ => .inr (.inl (Option.some_ne_none f))⟩
  unfold State.step State.kept State.captured
  cases hpath : s.path with
  | failed f => exact hfail f (h.failed f hpath)
  | «open» w =>
    obtain ⟨hforks, hw⟩ := h.path w hpath
    dsimp only
    cases hturn : w.turn ctx s.store with
    | fail e => exact hfail ⟨e, w.progress⟩ (hI.fail hw hturn)
    | simplify goal rest =>
      refine ⟨⟨h.upholds, h.solved, h.completes, h.bounded⟩, fun w' hw' => ?_, fun f hf => ?_,
        h.pursued⟩
      · have hsimp : Path.simplify ctx goal rest s.store =
            (.open w', (s.simplify ctx goal rest).store) := Prod.ext hw' rfl
        exact ⟨hforks.simplify hturn hsimp, hI.simplify hstore hw hturn hsimp⟩
      · have hsimp : Path.simplify ctx goal rest s.store =
            (.failed f, (s.simplify ctx goal rest).store) := Prod.ext hf rfl
        exact hI.violated hstore hw hturn (violated_of_pathSimplify hsimp)
    | choose point rest =>
      have hpoint : Branch.Upholds ctx I E (.start s.store.snapshot.1 point rest) :=
        ⟨⟨w, Work.turn_of_choose hturn, hforks, hw⟩, List.suffix_rfl, nofun⟩
      exact resume_accounts hI ⟨⟨List.forall_mem_cons.2 ⟨hpoint, h.upholds⟩,
        List.forall_mem_cons.2 ⟨nofun, h.solved⟩, h.completes, h.bounded⟩, h.pursued,
        fun hne => absurd rfl hne, nofun,
        fun _ => .inr (.inr ⟨_, rfl, hforks.alternatives_ne_nil hturn⟩)⟩
    | complete =>
      have hcompletes : ∀ f ∈ keep s.found (w.toFound ctx s.store), Completes ctx I f := by
        intro f hf
        rcases mem_keep hf with rfl | hf
        · exact ⟨s.store, w, hturn, hw, rfl⟩
        · exact h.completes f hf
      have hne := keep_ne_nil s.found (w.toFound ctx s.store)
      refine resume_accounts hI ⟨⟨fun b hb => ?_, fun _ _ _ => hne, hcompletes, h.bounded⟩,
        fun b hb => ?_, fun hne => absurd rfl hne, nofun, fun hnil => absurd hnil hne⟩
      · split at hb
        · exact h.upholds b hb
        · obtain ⟨c, hc, rfl⟩ := List.mem_map.1 hb
          exact (h.upholds c hc).solve true
      · split at hb
        · exact hpursued b hb
        · rw [← List.map_tail] at hb
          obtain ⟨c, hc, rfl⟩ := List.mem_map.1 hb
          exact hpursued c hc

/-- **In every state that is visited** the paths uphold what they did at the start. -/
theorem Upholds.visits (hstart : Upholds ctx I E start) (h : Visits ctx start s)
    (hstores : ∀ t, Visits ctx start t → stores t.store) : Upholds ctx I E s := by
  induction h with
  | refl => exact hstart
  | tail h hstep ih =>
    have hleads := ih.step hI (hstores _ h)
    rw [hstep] at hleads
    exact hleads

end Resume

/-! ### Answers -/

/-- What an answer can be: what a path has found at its good end, several such ends that differ, an
error of the kind, or the bound. -/
inductive Returns (ctx : Context) (I : Work → Prop) (E : TypeError → Prop) :
    Except Unsolved Solution → Prop where
  | solved {f : Found} : Completes ctx I f → Returns ctx I E (.ok f.toSolution)
  | ambiguous {first : Found} {others : List Found} {certain : List Ty} : others ≠ [] →
      (∀ f ∈ first :: others, Completes ctx I f) →
      Returns ctx I E (.error ⟨[ambiguity first (first :: others)], certain⟩)
  | failed {e : TypeError} {certain : List Ty} : E e → Returns ctx I E (.error ⟨[e], certain⟩)
  | bounded {bound : Nat} {certain : List Ty} : ctx.options.maxPenalty = some bound →
      Returns ctx I E (.error ⟨[.stopped (.penaltyLimit bound) none], certain⟩)

/-- **There is always something to be told**: solutions, a failure, or the bound. -/
theorem Answers.returns (h : Answers ctx I E found certain result) : Returns ctx I E result := by
  obtain ⟨store, pruned, failure, haccounts, rfl⟩ := h
  have hcompletes : ∀ f ∈ distinct (ofLowestRank found.reverse), Completes ctx I f := fun f hf =>
    haccounts.completes f (mem_of_mem_winners hf)
  unfold answer
  dsimp only
  split
  · rename_i hnone
    have hfound : found = [] := of_not_not fun hne => winners_ne_nil hne hnone
    split
    · exact .failed (haccounts.told _ rfl)
    · -- No path is known to have failed, so the bound was met.
      have hpruned : pruned = true := by
        rcases haccounts.reason hfound with hpruned | hfailure | ⟨b, hb, -⟩
        · exact hpruned
        · exact absurd rfl hfailure
        · cases hb
      obtain ⟨bound, hbound⟩ := Option.ne_none_iff_exists'.1 (haccounts.bounded hpruned)
      rw [if_pos hpruned, hbound]
      exact .bounded hbound
  · rename_i f hone
    rw [hone] at hcompletes
    exact .solved (hcompletes f List.mem_cons_self)
  · rename_i first others hne hmany
    rw [hmany] at hcompletes
    exact .ambiguous hne hcompletes

end Search

open Search

variable {table : Table} {options : SolverOptions} {system : System} {s₀ : Store}
variable {stores : Store → Prop} {I : Work → Prop} {E : TypeError → Prop}

/-- At the start of the search of a valid system there is one path, with all constraints. -/
theorem upholds_start (options : SolverOptions) (hvalid : system.validate = [])
    (hstart : I (Work.pushAll {} system.constraints)) :
    Upholds ⟨table, options, system.varCount⟩ I E (system.start s₀) where
  upholds := nofun
  solved := nofun
  completes := nofun
  bounded := nofun
  path w hw := by
    obtain rfl := Path.open.inj hw
    exact ⟨.start (System.forks_constraints hvalid (.inl trivial)), hstart⟩
  failed := nofun
  pursued := nofun

/-- **How a search ends** is determined by what its paths uphold, unless its steps run out. -/
theorem solve_returns (hI : Upheld ⟨table, options, system.varCount⟩ stores I E)
    (hvalid : system.validate = [])
    (hseeds : System.plant (.ofSize system.varCount) system.seeds = .done s₀)
    (hstart : I (Work.pushAll {} system.constraints))
    (hstores : ∀ s, Visits ⟨table, options, system.varCount⟩ (system.start s₀) s →
      stores s.store) :
    Returns ⟨table, options, system.varCount⟩ I E (solve table options system) ∨
      ∃ certain, solve table options system =
        .error ⟨[.stopped (.stepLimit options.maxSteps) none], certain⟩ := by
  rw [System.solve_start hvalid hseeds]
  rcases State.run_visits _ options.maxSteps (system.start s₀) with ⟨s, hvisits, hdone⟩ | hstop
  · have hs := (upholds_start options hvalid hstart).visits hI hvisits hstores
    have hleads := hs.step hI (hstores s hvisits)
    rw [hdone] at hleads
    exact .inl (Answers.returns hleads)
  · exact .inr hstop

/-- What a system can be answered with: what is wrong with it, the conflict of its seeds, what its
search returns, or that the steps have run out. -/
inductive Answered (table : Table) (options : SolverOptions) (system : System) (I : Work → Prop)
    (E : TypeError → Prop) : Except Unsolved Solution → Prop where
  | malformed {certain : List Ty} : system.validate ≠ [] →
      Answered table options system I E (.error ⟨system.validate, certain⟩)
  | conflict {conflict : UnifyError} {certain : List Ty} :
      Answered table options system I E (.error ⟨[conflict.toTypeError .equal none], certain⟩)
  | searched {s₀ : Store} {result : Except Unsolved Solution} : system.validate = [] →
      System.plant (.ofSize system.varCount) system.seeds = .done s₀ →
      Returns ⟨table, options, system.varCount⟩ I E result →
      Answered table options system I E result
  | steps {certain : List Ty} : Answered table options system I E
      (.error ⟨[.stopped (.stepLimit options.maxSteps) none], certain⟩)

/-- **Every system** is answered with one of these things. -/
theorem solve_answered
    (hI : Upheld ⟨table, options, system.varCount⟩ (fun _ => True) I E)
    (hstart : I (Work.pushAll {} system.constraints)) :
    Answered table options system I E (solve table options system) := by
  by_cases hvalid : system.validate = []
  · rcases hplant : System.plant (.ofSize system.varCount) system.seeds with ⟨s₀, _ | conflict⟩
    · rcases solve_returns hI hvalid hplant hstart fun _ _ => trivial with
        hreturns | ⟨certain, hstop⟩
      · exact .searched hvalid hplant hreturns
      · rw [hstop]
        exact .steps
    · obtain ⟨certain, hsolve⟩ := System.exists_solve_of_conflict table options hvalid hplant
      rw [hsolve]
      exact .conflict
  · obtain ⟨certain, hsolve⟩ := System.exists_solve_of_invalid table options hvalid
    rw [hsolve]
    exact .malformed hvalid

end TypeResolution
