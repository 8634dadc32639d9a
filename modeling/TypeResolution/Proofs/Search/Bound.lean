/-
# The penalty bound

A search with a bound enters no alternative that brings the penalty above the bound. A path within
the bound has a good end, fails, or comes to a choice with an alternative above the bound
(`Search.Meets`). As long as no solution is found, nothing but the bound makes the search leave an
alternative out. What it knows of the ends, from the failures that it has noted and from the
alternatives that it has left out, together with the ends that are still to come, therefore stays
the same from step to step (`Search.Surveys`), and is what the answer reports when no branch is
open any more (`solve_reports`).

The answer prefers the failure of a path to the bound. A solution that is penalised more than the
bound is therefore reported as beyond the bound exactly if no path within the bound fails
(`solve_beyond`). One alternative within the bound that is in vain is enough for the search to
report what is wrong with this alternative, as if there were no solution (`solve_beyond_mismatch`).

Key definitions: `Search.End`, `Search.Meets`, `Search.Foresees`, `Search.Surveys`,
`Search.Reports`.
Key theorems: `Search.resume_surveys`, `Search.Surveys.step`, `Search.Surveys.run`,
`solve_reports`, `solve_beyond`.
-/
import TypeResolution.Proofs.Search.Soundness

namespace TypeResolution
namespace Search

open Store

variable {ctx : Context} {s s' t : Store} {w w' v rest : Work} {goal : Goal}
variable {point : BranchPoint} {a : Alternative} {kind : End}

/-! ### Ends within the bound -/

/-- How a path within the bound can end. -/
inductive End where
  /-- Every variable is known, and no goal is left. -/
  | good
  /-- The path fails. -/
  | dead
  /-- The path comes to a choice with an alternative above the bound. -/
  | barred

/-- The alternative brings the penalty above the bound. -/
def Above (ctx : Context) (w : Work) (a : Alternative) : Prop :=
  exceeds (addPenalty w.penalty a.penalty) ctx.options.maxPenalty = true

/-- A path ends here. -/
def Stops (ctx : Context) (kind : End) (s : Store) (w : Work) : Prop :=
  match w.turn ctx s with
  | .complete => kind = .good
  | .fail _ => kind = .dead
  | .simplify goal rest =>
    kind = .dead ∧ ∃ failure, (Path.simplify ctx goal rest s).1 = .failed failure
  | .choose point rest => kind = .barred ∧ ∃ a ∈ point.offer.alternatives, Above ctx rest a

/-- A path comes to an end by entering alternatives within the bound. -/
inductive Meets (ctx : Context) (kind : End) : Store → Work → Prop where
  | here {s : Store} {w : Work} : Stops ctx kind s w → Meets ctx kind s w
  | simplify {s s' : Store} {w w' rest : Work} {goal : Goal} :
      w.turn ctx s = .simplify goal rest → Path.simplify ctx goal rest s = (.open w', s') →
      Meets ctx kind s' w' → Meets ctx kind s w
  | choose {s : Store} {w rest : Work} {point : BranchPoint} {a : Alternative} :
      w.turn ctx s = .choose point rest → a ∈ point.offer.alternatives → ¬ Above ctx rest a →
      Meets ctx kind (a.enter point.locator rest s).2 (a.enter point.locator rest s).1 →
      Meets ctx kind s w

theorem stops_simplify (hturn : w.turn ctx s = .simplify goal rest) :
    Stops ctx kind s w ↔
      kind = .dead ∧ ∃ failure, (Path.simplify ctx goal rest s).1 = .failed failure := by
  unfold Stops
  rw [hturn]

theorem stops_choose (hturn : w.turn ctx s = .choose point rest) :
    Stops ctx kind s w ↔
      kind = .barred ∧ ∃ a ∈ point.offer.alternatives, Above ctx rest a := by
  unfold Stops
  rw [hturn]

theorem stops_fail {e : TypeError} (hturn : w.turn ctx s = .fail e) :
    Stops ctx kind s w ↔ kind = .dead := by
  unfold Stops
  rw [hturn]

theorem stops_complete (hturn : w.turn ctx s = .complete) :
    Stops ctx kind s w ↔ kind = .good := by
  unfold Stops
  rw [hturn]

/-- A path that cannot go on meets the end that is here. -/
theorem meets_iff_stops (hsimplify : ∀ goal rest, w.turn ctx s ≠ .simplify goal rest)
    (hchoose : ∀ point rest, w.turn ctx s ≠ .choose point rest) :
    Meets ctx kind s w ↔ Stops ctx kind s w := by
  refine ⟨fun h => ?_, .here⟩
  cases h with
  | here hstops => exact hstops
  | simplify hturn => exact absurd hturn (hsimplify _ _)
  | choose hturn => exact absurd hturn (hchoose _ _)

theorem meets_fail {e : TypeError} (hturn : w.turn ctx s = .fail e) :
    Meets ctx kind s w ↔ kind = .dead := by
  rw [meets_iff_stops (by simp [hturn]) (by simp [hturn]), stops_fail hturn]

theorem meets_simplify (hturn : w.turn ctx s = .simplify goal rest)
    (hsimp : Path.simplify ctx goal rest s = (.open w', s')) :
    Meets ctx kind s w ↔ Meets ctx kind s' w' := by
  refine ⟨fun h => ?_, .simplify hturn hsimp⟩
  cases h with
  | here hstops =>
    obtain ⟨-, failure, hfailed⟩ := (stops_simplify hturn).1 hstops
    rw [hsimp] at hfailed
    cases hfailed
  | simplify hturn' hsimp' h =>
    obtain ⟨rfl, rfl⟩ := Turn.simplify.inj (hturn.symm.trans hturn')
    obtain ⟨hpath, rfl⟩ := Prod.mk.inj (hsimp.symm.trans hsimp')
    obtain rfl := Path.open.inj hpath
    exact h
  | choose hturn' => cases hturn.symm.trans hturn'

theorem meets_failed {failure : Failure} (hturn : w.turn ctx s = .simplify goal rest)
    (hsimp : Path.simplify ctx goal rest s = (.failed failure, s')) :
    Meets ctx kind s w ↔ kind = .dead := by
  constructor
  · intro h
    cases h with
    | here hstops => exact ((stops_simplify hturn).1 hstops).1
    | simplify hturn' hsimp' =>
      obtain ⟨rfl, rfl⟩ := Turn.simplify.inj (hturn.symm.trans hturn')
      cases hsimp.symm.trans hsimp'
    | choose hturn' => cases hturn.symm.trans hturn'
  · intro hdead
    exact .here ((stops_simplify hturn).2 ⟨hdead, failure, congrArg Prod.fst hsimp⟩)

/-- At a choice a path meets what it meets from one of the alternatives within the bound, or an
alternative above it. -/
theorem meets_choose (hturn : w.turn ctx s = .choose point rest) :
    Meets ctx kind s w ↔
      (kind = .barred ∧ ∃ a ∈ point.offer.alternatives, Above ctx rest a) ∨
      ∃ a ∈ point.offer.alternatives, ¬ Above ctx rest a ∧
        Meets ctx kind (a.enter point.locator rest s).2 (a.enter point.locator rest s).1 := by
  constructor
  · intro h
    cases h with
    | here hstops => exact .inl ((stops_choose hturn).1 hstops)
    | simplify hturn' => cases hturn.symm.trans hturn'
    | choose hturn' ha hbound h =>
      obtain ⟨rfl, rfl⟩ := Turn.choose.inj (hturn.symm.trans hturn')
      exact .inr ⟨_, ha, hbound, h⟩
  · rintro (hstops | ⟨a, ha, hbound, h⟩)
    · exact .here ((stops_choose hturn).2 hstops)
    · exact .choose hturn ha hbound h

/-- Which ends a path comes to depends on the slots of the store only. -/
theorem Meets.twin (h : Meets ctx kind s w) {i j : Nat} (ht : Twin i j s t) :
    Meets ctx kind t w := by
  induction h generalizing t with
  | @here s w hstops =>
    refine .here ?_
    unfold Stops at hstops ⊢
    rw [← turn_congr ctx w ht.1]
    split at hstops
    · exact hstops
    · exact hstops
    · rename_i goal rest hturn
      rw [← ((steady_twin i j).alike_pathSimplify ctx ht goal rest).1]
      exact hstops
    · exact hstops
  | @simplify s s' w w' rest goal hturn hsimp _ ih =>
    rw [turn_congr ctx _ ht.1] at hturn
    obtain ⟨hpath, hstore⟩ := (steady_twin i j).alike_pathSimplify ctx ht goal rest
    rw [hsimp] at hpath hstore
    have hsimp' : Path.simplify ctx goal rest t = (.open w', (Path.simplify ctx goal rest t).2) :=
      Prod.ext hpath.symm rfl
    exact .simplify hturn hsimp' (ih hstore)
  | @choose s w rest point a hturn ha hbound _ ih =>
    rw [turn_congr ctx _ ht.1] at hturn
    obtain ⟨hwork, hstore⟩ := alike_enter (steady_twin i j).toParallel ht a point.locator rest
    have h := ih hstore
    rw [hwork] at h
    exact .choose hturn ha hbound h

theorem meets_enter_congr (h : s.slots = t.slots) (a : Alternative) (l : Option Locator)
    (w : Work) : Meets ctx kind (a.enter l w s).2 (a.enter l w s).1 ↔
      Meets ctx kind (a.enter l w t).2 (a.enter l w t).1 := by
  have hone : ∀ {s t : Store}, s.slots = t.slots →
      Meets ctx kind (a.enter l w s).2 (a.enter l w s).1 →
      Meets ctx kind (a.enter l w t).2 (a.enter l w t).1 := by
    intro s t h hmeets
    obtain ⟨hwork, hstore⟩ := alike_enter (steady_twin t.version s.version).toParallel
      ⟨h, Nat.add_comm _ _⟩ a l w
    rw [hwork] at hmeets
    exact hmeets.twin hstore
  exact ⟨hone h, hone h.symm⟩

/-! ### Leaves and the bound -/

/-- A good end within the bound is a leaf within the bound. -/
theorem Meets.exists_leaf (h : Meets ctx .good s w)
    (hw : exceeds w.penalty ctx.options.maxPenalty = false) :
    ∃ path t v, Leaf ctx s w path t v ∧ exceeds v.penalty ctx.options.maxPenalty = false := by
  induction h with
  | @here s w hstops =>
    unfold Stops at hstops
    split at hstops
    · rename_i hturn
      exact ⟨[], s, w, .complete hturn, hw⟩
    · cases hstops
    · cases hstops.1
    · cases hstops.1
  | simplify hturn hsimp _ ih =>
    rw [← (Work.sameRecord_simplify hturn).penalty, ← penalty_pathSimplify hsimp] at hw
    obtain ⟨path, t, v, hleaf, hv⟩ := ih hw
    exact ⟨path, t, v, .simplify hturn hsimp hleaf, hv⟩
  | @choose s w rest point a hturn ha hbound _ ih =>
    obtain ⟨i, hi⟩ := List.mem_iff_getElem?.1 ha
    rw [a.penalty_enter] at ih
    obtain ⟨path, t, v, hleaf, hv⟩ := ih (Bool.eq_false_iff.2 hbound)
    exact ⟨i :: path, t, v, .choose hturn hi hleaf, hv⟩

/-- From an alternative that is still to be entered a path comes to an end within the bound. -/
def Awaits (ctx : Context) (kind : End) (b : Branch) (g : Store) : Prop :=
  ∃ a ∈ b.untried, ¬ Above ctx b.base a ∧
    Meets ctx kind (a.enter b.point.locator b.base g).2 (a.enter b.point.locator b.base g).1

/-- A branch that was met in a store tells of ends of a path: it has noted a failure, it has an
alternative above the bound, or the end is still to come. -/
def Tells (ctx : Context) (kind : End) (b : Branch) (g : Store) : Prop :=
  (match kind with
    | .good => False
    | .dead => b.failures ≠ []
    | .barred => ∃ a ∈ b.untried, Above ctx b.base a) ∨ Awaits ctx kind b g

/-- The ends that are known from the latest failure and from whether the bound was met. -/
def Known (failure : Option Failure) (pruned : Bool) : End → Prop
  | .good => False
  | .dead => failure ≠ none
  | .barred => pruned = true

/-- The ends that are known at the path that is followed, or that the path comes to. -/
def State.Faces (ctx : Context) (s : State) (kind : End) : Prop :=
  match s.path with
  | .failed failure => Known (some failure) s.pruned kind
  | .open w => Known none s.pruned kind ∨ Meets ctx kind s.store w

/-- The ends that are known, and those of which the open branches tell. -/
def Foresees (ctx : Context) (known : End → Prop) (branches : List Branch) (past : List Store)
    (kind : End) : Prop :=
  known kind ∨ ∃ p ∈ branches.zip past, Tells ctx kind p.1 p.2

/-- The branch was met in the store, and nothing has been found from it. -/
structure Followed (b : Branch) (g : Store) : Prop where
  snapshot : b.snapshot = mark g
  untried : b.untried <:+ b.point.offer.alternatives
  solved : b.solved = false
  plain : b.Plain

/-- An alternative of the branch has been entered, and has not failed up to now. -/
def Branch.Pursued (b : Branch) : Prop := ∃ a, b.entered.head? = some (a, none)

/-- The search has found nothing, and knows of the given ends. -/
structure Surveys (ctx : Context) (ends : End → Prop) (s : State) (past : List Store) : Prop where
  found : s.found = []
  back : s.store.LeadsBack past
  branches : List.Forall₂ Followed s.branches past
  pursued : ∀ b ∈ s.branches, b.Pursued
  plain : ∀ f, s.path = .failed f → EndsPath f.error
  foresees : ∀ kind, Foresees ctx (s.Faces ctx) s.branches past kind ↔ ends kind

/-- The answer is the failure of paths if one of them fails; otherwise it is the bound if a path
comes to an alternative above it. -/
inductive Reports (ctx : Context) (ends : End → Prop) : Except Unsolved Solution → Prop where
  | dead {e : TypeError} {certain : List Ty} : ends .dead → EndsPath e →
      Reports ctx ends (.error ⟨[e], certain⟩)
  | barred {certain : List Ty} : ¬ ends .dead → ends .barred →
      Reports ctx ends
        (.error ⟨[.stopped (.penaltyLimit (ctx.options.maxPenalty.getD 0)) none], certain⟩)
  | neither {certain : List Ty} : ¬ ends .dead → ¬ ends .barred →
      Reports ctx ends (.error ⟨[.stopped (.incomplete []) none], certain⟩)

/-- The search goes on and knows of the same ends, or it reports them. -/
def Advance.Surveys (ctx : Context) (ends : End → Prop) : Advance → Prop
  | .next s => ∃ past, Search.Surveys ctx ends s past
  | .done answer => Reports ctx ends answer

section Step

variable {b : Branch} {branches : List Branch} {g store : Store} {past : List Store}
variable {ends known : End → Prop} {pruned : Bool} {certain : Option (List Ty)}
variable {failure : Option Failure} {untried : List Alternative}

@[simp] theorem foresees_nil : Foresees ctx known [] past kind ↔ known kind := by
  simp [Foresees]

theorem foresees_cons : Foresees ctx known (b :: branches) (g :: past) kind ↔
    Tells ctx kind b g ∨ Foresees ctx known branches past kind := by
  simp [Foresees, or_left_comm]

/-- Alternatives are in the order of their penalties. -/
theorem Followed.above_of_head (h : Followed b g) (huntried : b.untried = a :: untried)
    (hbound : Above ctx b.base a) : ∀ a' ∈ b.untried, Above ctx b.base a' := by
  intro a' ha'
  obtain ⟨k, hk⟩ : ∃ k, b.point.offer.alternatives.drop k = a :: untried :=
    ⟨_, huntried ▸ (List.suffix_iff_eq_drop.1 h.untried).symm⟩
  obtain ⟨i, hi⟩ := List.mem_iff_getElem?.1 ha'
  rw [huntried, ← hk, List.getElem?_drop] at hi
  exact exceeds_mono (addPenalty_mono _ (Offer.penalty_le_of_drop hk (Nat.le_add_right k i) hi))
    hbound

/-- When nothing has been found, a branch is closed only if the alternatives that are left, if
there are any, are above the bound. -/
theorem Followed.above_of_closes {pruned' : Bool} (h : Followed b g)
    (hcloses : Closes ctx [] pruned b pruned') :
    (∀ a ∈ b.untried, Above ctx b.base a) ∧
      (pruned' = true ↔ pruned = true ∨ b.untried ≠ []) := by
  cases hcloses with
  | exhausted huntried => simp [huntried]
  | above huntried hbound => exact ⟨h.above_of_head huntried hbound, by simp [huntried]⟩
  | worse _ hbest => cases hbest

theorem Followed.note (h : Followed b g) (hf : ∀ e, failure = some e → EndsPath e.error) :
    Followed (b.note failure) g := by
  have hplain := h.plain.note hf
  obtain ⟨entered, heq, -⟩ := b.note_eq failure
  rw [heq] at hplain ⊢
  exact ⟨h.snapshot, h.untried, h.solved, hplain⟩

/-- The failure of the alternative that was entered last is told by the branch. -/
theorem tells_note (hlast : failure ≠ none → b.Pursued) :
    Tells ctx kind (b.note failure) g ∨ Known none pruned kind ↔
      Tells ctx kind b g ∨ Known failure pruned kind := by
  have hnote := failures_note hlast
  obtain ⟨entered, heq, -⟩ := b.note_eq failure
  rw [heq] at hnote ⊢
  have hawaits : Awaits ctx kind { b with entered } g ↔ Awaits ctx kind b g := Iff.rfl
  cases kind with
  | good => exact Iff.rfl
  | barred => exact Iff.rfl
  | dead =>
    simp only [Tells, hnote, hawaits, Known]
    tauto

/-- A branch whose alternatives are all above the bound has told what it can when it is closed. -/
theorem tells_closed {pruned' : Bool} (hall : ∀ a ∈ b.untried, Above ctx b.base a)
    (hpruned : pruned' = true ↔ pruned = true ∨ b.untried ≠ []) :
    Tells ctx kind b g ∨ Known none pruned kind ↔ Known b.failure? pruned' kind := by
  have hnone : ¬ Awaits ctx kind b g := by
    rintro ⟨a, ha, hbound, -⟩
    exact hbound (hall a ha)
  cases kind with
  | good => simp [Tells, Known, hnone]
  | dead => simp [Tells, Known, hnone, failure?_eq_none_iff]
  | barred =>
    have habove : (∃ a ∈ b.untried, Above ctx b.base a) ↔ b.untried ≠ [] := by
      refine ⟨fun ⟨a, ha, _⟩ => List.ne_nil_of_mem ha, fun hne => ?_⟩
      obtain ⟨a, ha⟩ := List.exists_mem_of_ne_nil _ hne
      exact ⟨a, ha, hall a ha⟩
    simp only [Tells, Known, hnone, habove, hpruned, or_false]
    exact or_comm

/-- What a branch tells is met from the alternative that is entered next, or is still told. -/
theorem tells_entered (huntried : b.untried = a :: untried) (hbound : ¬ Above ctx b.base a)
    (hslots : store.slots = g.slots) :
    Tells ctx kind b g ↔
      Meets ctx kind (a.enter b.point.locator b.base store).2
          (a.enter b.point.locator b.base store).1 ∨
        Tells ctx kind { b with untried, entered := (a, none) :: b.entered } g := by
  have hawaits : Awaits ctx kind b g ↔
      Meets ctx kind (a.enter b.point.locator b.base store).2
          (a.enter b.point.locator b.base store).1 ∨
        Awaits ctx kind { b with untried, entered := (a, none) :: b.entered } g := by
    rw [meets_enter_congr hslots]
    simp only [Awaits, huntried, List.exists_mem_cons_iff, hbound, not_false_eq_true, true_and]
  have hfailures : Branch.failures { b with untried, entered := (a, none) :: b.entered } =
      b.failures := by
    simp [Branch.failures]
  unfold Tells
  rw [hawaits, hfailures, huntried]
  simp only [List.exists_mem_cons_iff, hbound, false_or]
  exact or_left_comm

/-- The next alternative of a branch is entered within the bound. -/
theorem Followed.enter (h : Followed b g) (hbranches : List.Forall₂ Followed branches past)
    (hpursued : ∀ b ∈ branches, b.Pursued) (hback : store.LeadsBack (g :: past))
    (hslots : store.slots = g.slots) (huntried : b.untried = a :: untried)
    (hbound : ¬ Above ctx b.base a)
    (hforesees : ∀ kind, Tells ctx kind b g ∨
      Foresees ctx (Known none pruned) branches past kind ↔ ends kind) :
    Surveys ctx ends ⟨(a.enter b.point.locator b.base store).2,
      .open (a.enter b.point.locator b.base store).1,
      { b with untried, entered := (a, none) :: b.entered } :: branches, [], pruned, certain⟩
      (g :: past) := by
  have hfollowed : Followed { b with untried, entered := (a, none) :: b.entered } g := by
    refine ⟨h.snapshot, ?_, h.solved, fun p hp e he => ?_⟩
    · exact (List.suffix_cons a untried).trans (huntried ▸ h.untried)
    · rcases List.mem_cons.1 hp with rfl | hp
      · cases he
      · exact h.plain p hp e he
  refine ⟨rfl, LeadsBack.enter hback a _ _, .cons hfollowed hbranches,
    List.forall_mem_cons.2 ⟨⟨a, rfl⟩, hpursued⟩, (fun f hf => by cases hf), fun kind => ?_⟩
  rw [← hforesees, tells_entered huntried hbound hslots, foresees_cons]
  unfold Foresees State.Faces
  simp only [or_assoc, or_left_comm]

/-- **Going on from the end of a path** changes nothing of what the search knows of the ends. -/
theorem resume_surveys (hbranches : List.Forall₂ Followed branches past)
    (hback : store.LeadsBack past)
    (hlast : failure ≠ none → ∀ b, branches.head? = some b → b.Pursued)
    (hpursued : ∀ b ∈ branches.tail, b.Pursued)
    (hfailure : ∀ e, failure = some e → EndsPath e.error)
    (h : ∀ kind, Foresees ctx (Known failure pruned) branches past kind ↔ ends kind) :
    (resume ctx [] certain store pruned failure branches).Surveys ctx ends := by
  induction hbranches generalizing store pruned failure with
  | nil =>
    have hdead := foresees_nil.symm.trans (h .dead)
    have hbarred := foresees_nil.symm.trans (h .barred)
    cases failure with
    | some e => exact .dead (hdead.1 (Option.some_ne_none e)) (hfailure e rfl)
    | none =>
      have halive : ¬ ends .dead := fun hends => hdead.2 hends rfl
      cases pruned with
      | true => exact .barred halive (hbarred.1 rfl)
      | false => exact .neither halive fun hends => by cases hbarred.2 hends
  | @cons b g branches past hmet hrest ih =>
    have hnoted := hmet.note hfailure
    have hforesees : ∀ kind, Tells ctx kind (b.note failure) g ∨
        Foresees ctx (Known none pruned) branches past kind ↔ ends kind := by
      intro kind
      rw [← h, foresees_cons]
      unfold Foresees
      rw [← or_assoc, ← or_assoc, tells_note fun hne => hlast hne b rfl]
    have hresumes := resumes_cons ctx [] certain store pruned failure b branches
    generalize b.note failure = c at hnoted hforesees hresumes
    generalize resume ctx [] certain store pruned failure (b :: branches) = advance at hresumes ⊢
    have hrestored := hback.restore
    have hslots := hback.sameMoment_restore.1
    rw [← hnoted.snapshot] at hrestored hslots
    cases hresumes with
    | close hcloses =>
      obtain ⟨hall, hpruned⟩ := hnoted.above_of_closes hcloses
      rw [hnoted.solved]
      refine ih hrestored.commit (fun _ b' hb' => ?_) (fun b' hb' => ?_)
        (fun e he => hnoted.plain.failure? he) fun kind => ?_
      · exact hpursued b' (List.mem_of_mem_head? hb')
      · exact hpursued b' (List.mem_of_mem_tail hb')
      · rw [← hforesees]
        unfold Foresees
        rw [← or_assoc, tells_closed hall hpruned]
        exact Iff.rfl
    | enter huntried hbound =>
      exact ⟨g :: past, hnoted.enter hrest hpursued hrestored hslots huntried
        (Bool.eq_false_iff.1 hbound) hforesees⟩

variable {s : State}

/-- **A step** changes nothing of what the search knows of the ends. -/
theorem Surveys.step (hgood : ¬ ends .good) (h : Surveys ctx ends s past) :
    (s.step ctx).Surveys ctx ends := by
  have hforesees := h.foresees
  have hlast : ∀ b, s.branches.head? = some b → b.Pursued := fun b hb =>
    h.pursued b (List.mem_of_mem_head? hb)
  have htail : ∀ b ∈ s.branches.tail, b.Pursued := fun b hb =>
    h.pursued b (List.mem_of_mem_tail hb)
  unfold Foresees State.Faces at hforesees
  unfold State.step
  cases hpath : s.path with
  | failed f =>
    rw [hpath] at hforesees
    dsimp only [State.fail]
    rw [h.found]
    refine resume_surveys h.branches h.back (fun _ => hlast) htail ?_ hforesees
    rintro _ ⟨⟩
    exact h.plain f hpath
  | «open» w =>
    rw [hpath] at hforesees
    dsimp only at hforesees ⊢
    cases hturn : w.turn ctx s.store with
    | complete =>
      exact absurd ((hforesees .good).1 (.inl (.inr (.here ((stops_complete hturn).2 rfl))))) hgood
    | fail e =>
      dsimp only [State.fail]
      rw [h.found]
      refine resume_surveys h.branches h.back (fun _ => hlast) htail ?_ fun kind => ?_
      · rintro _ ⟨⟩
        exact endsPath_of_turn hturn
      · rw [← hforesees, meets_fail hturn]
        unfold Foresees
        cases kind <;> simp [Known]
    | simplify goal rest =>
      refine ⟨past, h.found, LeadsBack.pathSimplify h.back ctx goal rest, h.branches, h.pursued,
        fun f hf => endsPath_of_pathSimplify (Prod.ext hf rfl), fun kind => ?_⟩
      rw [← hforesees]
      unfold Foresees State.Faces State.simplify
      rcases hsimp : Path.simplify ctx goal rest s.store with ⟨w' | f, s'⟩
      · rw [meets_simplify hturn hsimp]
      · rw [meets_failed hturn hsimp]
        cases kind <;> simp [Known]
    | choose point rest =>
      dsimp only [State.choose]
      rw [h.found]
      have hslots : s.store.slots = s.store.snapshot.2.slots := rfl
      have hfollowed : Followed (.start s.store.snapshot.1 point rest) s.store.snapshot.2 :=
        ⟨rfl, List.suffix_rfl, rfl, fun p hp => by cases hp⟩
      refine resume_surveys (.cons hfollowed h.branches) h.back.snapshot
        (fun hne => absurd rfl hne) h.pursued nofun fun kind => ?_
      -- What the path meets at the choice is what the new branch has to tell.
      have htells : Tells ctx kind (.start s.store.snapshot.1 point rest) s.store.snapshot.2 ↔
          Meets ctx kind s.store w := by
        rw [meets_choose hturn]
        simp only [meets_enter_congr hslots]
        cases kind <;> simp [Tells, Awaits, Branch.start, Branch.failures]
      rw [← hforesees, foresees_cons, htells]
      unfold Foresees
      simp only [or_assoc, or_left_comm]

/-- **A run** reports the ends, unless its steps run out. -/
theorem Surveys.run (hgood : ¬ ends .good) (h : Surveys ctx ends s past) (steps : Nat) :
    Reports ctx ends (s.run ctx steps) ∨
      ∃ certain, s.run ctx steps =
        .error ⟨[.stopped (.stepLimit ctx.options.maxSteps) none], certain⟩ := by
  exact State.run_induct (I := fun s => ∃ past, Surveys ctx ends s past)
    (fun s ⟨past, h⟩ => h.step hgood) steps ⟨past, h⟩

end Step
end Search

open Search

variable {table : Table} {options : SolverOptions} {system : System} {s₀ : Store}
variable {solution : Solution} {unsolved : Unsolved} {m : Nat}

/-- **A search that finds nothing within the bound reports how paths end**, unless its steps run
out: it fails with a path if one fails, and with the bound if none fails and one comes to an
alternative above it. -/
theorem solve_reports (hvalid : system.validate = [])
    (hseeds : System.plant (.ofSize system.varCount) system.seeds = .done s₀)
    (hnone : ∀ P f, ¬ Admitted ⟨table, options, system.varCount⟩
      (system.leaves table options s₀) P f) :
    Reports ⟨table, options, system.varCount⟩
        (Meets ⟨table, options, system.varCount⟩ · s₀ (Work.pushAll {} system.constraints))
        (solve table options system) ∨
      ∃ certain, solve table options system =
        .error ⟨[.stopped (.stepLimit options.maxSteps) none], certain⟩ := by
  have hgood : ¬ Meets ⟨table, options, system.varCount⟩ .good s₀
      (Work.pushAll {} system.constraints) := by
    intro hmeets
    obtain ⟨P, t, v, hleaf, hv⟩ := hmeets.exists_leaf
      (Work.exceeds_pushAll system.constraints options.maxPenalty)
    exact hnone P _ ⟨⟨t, v, hleaf, rfl⟩, hv⟩
  have hstart : Surveys ⟨table, options, system.varCount⟩
      (Meets ⟨table, options, system.varCount⟩ · s₀ (Work.pushAll {} system.constraints))
      (system.start s₀) [] := by
    refine ⟨rfl, leadsBack_planted hseeds, .nil, nofun, nofun, fun kind => foresees_nil.trans ?_⟩
    unfold State.Faces System.start
    cases kind <;> simp [Known]
  rw [System.solve_start hvalid hseeds]
  exact hstart.run hgood options.maxSteps

/-- The alternative within the bound is in vain, and this is reported, although the other one
leads to a solution beyond the bound. -/
theorem solve_beyond_mismatch :
    let system : System := ⟨0, [.disjunction [
      ⟨[.relation (.equality (.tuple []) (.tuple [.tuple []])) none], 0⟩, ⟨[], 1⟩] none], []⟩
    let table := Table.ofNames .empty
    solve table { maxPenalty := none } system = .ok ⟨[], [], [], 1, []⟩ ∧
      solve table { maxPenalty := some 0 } system =
        .error ⟨[.mismatch .equal (.tuple []) (.tuple [.tuple []]) none], []⟩ := by
  intro system table
  exact ⟨by cbv, by cbv⟩

end TypeResolution
