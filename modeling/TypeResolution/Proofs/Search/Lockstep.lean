/-
# Searches in lockstep

Two searches for systems that say the same, with the same options, go on in lockstep: at each step
both are on paths that are alike, in stores with the same slots, and have the same branches open
(`Search.Lockstep`). Each branch was met in a store whose slots are those of the other search at
that moment (`Search.Paired`). The snapshots lead back to these, so that the stores are the same
again when another alternative is entered, however differently the two have been written to in the
meantime.

A step of one search looks up what the store does not have exactly if that of the other one does,
and so both come to an answer or neither does, and the answers are alike
(`System.Like.answers_of_valid`). It is assumed that alternatives are listed in the same order.

Key definitions: `Search.Paired`, `Search.Stacked`, `Search.Lockstep`, `Search.Advance.Like`.
Key theorems: `Search.Paired.enter`, `Search.Stacked.resume`, `Search.Lockstep.step`,
`Search.Lockstep.run?`, `System.Like.answers_of_valid`.
-/
import TypeResolution.Proofs.Search.LikeAnswers
import TypeResolution.Proofs.Search.Waiting

namespace TypeResolution
namespace Search

open Store

/-- The branches are alike, and were met in stores with the same slots. -/
structure Paired (L : Latitude) (b b' : Branch) (g g' : Store) : Prop where
  like : b.Like L b'
  left : b.snapshot = mark g
  right : b'.snapshot = mark g'
  slots : g.slots = g'.slots
  wellFormed : g.WellFormed

/-- The open branches are so, one by one. -/
inductive Stacked (L : Latitude) : List Branch → List Branch → List Store → List Store → Prop where
  | nil : Stacked L [] [] [] []
  | cons {b b' : Branch} {branches branches' : List Branch} {g g' : Store}
      {past past' : List Store} : Paired L b b' g g' → Stacked L branches branches' past past' →
      Stacked L (b :: branches) (b' :: branches') (g :: past) (g' :: past')

/-- The searches are at the same place. -/
structure Lockstep (L : Latitude) (s s' : State) (past past' : List Store) : Prop where
  slots : s.store.slots = s'.store.slots
  wellFormed : s.store.WellFormed
  left : s.store.LeadsBack past
  right : s'.store.LeadsBack past'
  path : s.path.Like L s'.path
  branches : Stacked L s.branches s'.branches past past'
  found : List.Forall₂ (Found.Like L) s.found s'.found
  pruned : s.pruned = s'.pruned
  certain : s.certain = s'.certain

/-- Both searches go on, or both end, and then with answers that are alike. -/
inductive Advance.Like (L : Latitude) : Advance → Advance → Prop where
  | next {s s' : State} {past past' : List Store} : Lockstep L s s' past past' →
      Like L (.next s) (.next s')
  | done {answer answer' : Except Unsolved Solution} : AnswerLike L answer answer' →
      Like L (.done answer) (.done answer')

variable {L : Latitude} {ctx : Context} {s s' : State} {store store' : Store}
variable {branches branches' : List Branch} {past past' : List Store}

/-! ### Going on from the end of a path -/

theorem snapshot_note (b : Branch) (failure : Option Failure) :
    (b.note failure).snapshot = b.snapshot := by
  obtain ⟨entered, heq, -⟩ := b.note_eq failure
  rw [heq]

theorem Stacked.map_solved (h : Stacked L branches branches' past past') :
    Stacked L (branches.map fun b => { b with solved := true })
      (branches'.map fun b => { b with solved := true }) past past' := by
  induction h with
  | nil => exact .nil
  | cons hmet _ ih => exact .cons { hmet with like := { hmet.like with solved := rfl } } ih

namespace Paired

variable {b b' : Branch} {g g' : Store}

theorem note (h : Paired L b b' g g') {failure failure' : Option Failure}
    (hf : Option.Rel (Failure.Like L) failure failure') :
    Paired L (b.note failure) (b'.note failure') g g' where
  like := h.like.note hf
  left := (snapshot_note b failure).trans h.left
  right := (snapshot_note b' failure').trans h.right
  slots := h.slots
  wellFormed := h.wellFormed

section Restored

variable (h : Paired L b b' g g') (hback : store.LeadsBack (g :: past))
  (hback' : store'.LeadsBack (g' :: past'))
include h hback hback'

/-- The snapshots lead back to stores with the same slots. -/
theorem restore : (store.restore b.snapshot).LeadsBack (g :: past) ∧
    (store'.restore b'.snapshot).LeadsBack (g' :: past') ∧
    (store.restore b.snapshot).slots = (store'.restore b'.snapshot).slots ∧
    (store.restore b.snapshot).WellFormed := by
  have hsame := hback.sameMoment_restore.1
  have hsame' := hback'.sameMoment_restore.1
  rw [h.left, h.right]
  exact ⟨hback.restore, hback'.restore, hsame.trans (h.slots.trans hsame'.symm),
    h.wellFormed.of_slots_eq hsame.symm⟩

/-- The searches are at the same place when they enter alternatives that stand for each other. -/
theorem enter (hrest : Stacked L branches branches' past past') {x x' : Alternative}
    {untried untried' : List Alternative} (hx : x.Like L x')
    (huntried : List.Forall₂ (Alternative.Like L) untried untried') {found found' : List Found}
    (hfound : List.Forall₂ (Found.Like L) found found') (pruned : Bool)
    (certain : Option (List Ty)) :
    let entered := x.enter b.point.locator b.base (store.restore b.snapshot)
    let entered' := x'.enter b'.point.locator b'.base (store'.restore b'.snapshot)
    Lockstep L
      ⟨entered.2, .open entered.1,
        { b with untried, entered := (x, none) :: b.entered } :: branches,
        found, pruned, certain⟩
      ⟨entered'.2, .open entered'.1,
        { b' with untried := untried', entered := (x', none) :: b'.entered } :: branches',
        found', pruned, certain⟩ (g :: past) (g' :: past') := by
  intro entered entered'
  obtain ⟨hleft, hright, hslots, hwell⟩ := h.restore hback hback'
  obtain ⟨hwork, hentered⟩ := hx.enter h.like.point.locator h.like.base hslots
  have hmoves := moves_enter (s := store.restore b.snapshot) x b.point.locator b.base
  have hbranch : Branch.Like L { b with untried, entered := (x, none) :: b.entered }
      { b' with untried := untried', entered := (x', none) :: b'.entered } :=
    { h.like with untried := huntried, entered := .cons ⟨hx, .none⟩ h.like.entered }
  exact ⟨hentered, hmoves.wellFormed hwell, LeadsBack.enter hleft x _ _,
    LeadsBack.enter hright x' _ _, .works hwork, .cons { h with like := hbranch } hrest, hfound,
    rfl, rfl⟩

end Restored
end Paired

/-- **Going on from the end of a path** leads both searches to the same place. -/
theorem Stacked.resume (h : Stacked L branches branches' past past') (ctx : Context)
    {found found' : List Found} (hfound : List.Forall₂ (Found.Like L) found found')
    (certain : Option (List Ty)) (pruned : Bool) {failure failure' : Option Failure}
    (hslots : store.slots = store'.slots) (hback : store.LeadsBack past)
    (hback' : store'.LeadsBack past') (hf : Option.Rel (Failure.Like L) failure failure') :
    (resume ctx found certain store pruned failure branches).Like L
      (resume ctx found' certain store' pruned failure' branches') := by
  induction h generalizing store store' pruned failure failure' with
  | nil => exact .done (like_answer ctx pruned certain hslots hfound hf)
  | @cons b b' branches branches' g g' past past' hmet hrest ih =>
    have hnoted := hmet.note hf
    rw [Search.resume, Search.resume]
    dsimp only
    generalize b.note failure = c at hnoted ⊢
    generalize b'.note failure' = c' at hnoted ⊢
    obtain ⟨hleft, hright, hsame, -⟩ := hnoted.restore hback hback'
    have hcommit : (store.restore c.snapshot).commit.slots =
        (store'.restore c'.snapshot).commit.slots := hsame
    have hclose := fun pruned => ih pruned hcommit hleft.commit hright.commit hnoted.like.closing
    have huntried := hnoted.like.untried
    rcases hu : c.untried with _ | ⟨x, untried⟩ <;>
      rcases hu' : c'.untried with _ | ⟨x', untried'⟩ <;>
      rw [hu, hu'] at huntried <;> cases huntried
    · exact hclose pruned
    · rename_i hx huntried
      dsimp only
      rw [hnoted.like.base.penalty, hx.penalty, like_bestPenalty hfound]
      split
      · exact hclose true
      · split
        · exact hclose pruned
        · exact .next (hnoted.enter hback hback' hrest hx huntried hfound pruned certain)

/-! ### Steps -/

namespace Lockstep

variable {w w' rest rest' : Work} {goal goal' : Goal}

/-- Both searches look up nothing but what the store has, or neither of them. -/
theorem owns (h : Lockstep L s s' past past') (ctx : Context) : s.owns ctx = s'.owns ctx := by
  have hsize : s.store.size = s'.store.size := congrArg Array.size h.slots
  have hpath := h.path
  unfold State.owns
  rw [hsize]
  generalize s.path = path at hpath ⊢
  generalize s'.path = path' at hpath ⊢
  cases hpath with
  | fails => rfl
  | @works w w' hw =>
    have hdeferred : w.deferred.all (·.owned s.store) = w'.deferred.all (·.owned s'.store) := by
      refine all_eq_of_forall₂ hw.deferred fun hd => ?_
      unfold Deferred.owned
      have howns : s.store.owns = s'.store.owns := by
        funext v
        unfold Store.owns
        rw [hsize]
      rw [hd.watch, howns, ownsTop_congr h.slots, hd.goal.relation.decisive_perm.all_eq]
    have hturn := hw.turn ctx h.slots
    dsimp only
    rw [hdeferred]
    generalize w.turn ctx s.store = turn at hturn ⊢
    generalize w'.turn ctx s'.store = turn' at hturn ⊢
    cases hturn with
    | simplify hgoal _ =>
      dsimp only
      rw [like_simplifyOwns ctx.table h.wellFormed h.slots hgoal.relation]
    | _ => rfl

/-- The searches are at the same place after a goal has been simplified. -/
theorem simplify (h : Lockstep L s s' past past') (hgoal : goal.Like L goal')
    (hrest : rest.Like L rest') (howns : simplifyOwns ctx.table s.store goal.relation = true) :
    Lockstep L (s.simplify ctx goal rest) (s'.simplify ctx goal' rest') past past' := by
  obtain ⟨hpath, hslots⟩ := hrest.pathSimplify ctx hgoal h.slots fun _ => ⟨h.wellFormed, howns⟩
  refine { h with slots := hslots, wellFormed := ?_, left := ?_, right := ?_, path := hpath }
  · show (Path.simplify ctx goal rest s.store).2.WellFormed
    rw [store_pathSimplify]
    exact (moves_simplify h.wellFormed howns).wellFormed h.wellFormed
  · exact LeadsBack.pathSimplify h.left ctx goal rest
  · exact LeadsBack.pathSimplify h.right ctx goal' rest'

theorem fail {f f' : Failure} (h : Lockstep L s s' past past') (hf : f.Like L f') :
    (s.fail ctx f).Like L (s'.fail ctx f') := by
  unfold State.fail
  rw [← h.certain, ← h.pruned]
  exact h.branches.resume ctx h.found s.certain s.pruned h.slots h.left h.right (.some hf)

theorem complete (h : Lockstep L s s' past past') (hw : w.Like L w') :
    (s.complete ctx w).Like L (s'.complete ctx w') := by
  have hf := hw.toFound ctx h.slots
  unfold State.complete
  dsimp only
  rw [← h.certain, ← h.pruned, hf.penalty, like_bestPenalty h.found]
  have hkept := like_keep h.found hf
  refine Stacked.resume ?_ ctx hkept s.certain s.pruned h.slots h.left h.right .none
  split
  · exact h.branches
  · exact h.branches.map_solved

/-- Both searches open a branch, and enter its first alternative. -/
theorem choose {point point' : BranchPoint} (h : Lockstep L s s' past past') (hL : ¬ L.reorders)
    (hpoint : point.Like L point') (hrest : rest.Like L rest') :
    (s.choose ctx point rest).Like L (s'.choose ctx point' rest') := by
  have hbranch : (Branch.start s.store.snapshot.1 point rest).Like L
      (.start s'.store.snapshot.1 point' rest') :=
    ⟨hrest, hpoint, hpoint.offer.alternatives hL, .nil, rfl⟩
  have hslots : s.store.snapshot.2.slots = s'.store.snapshot.2.slots := h.slots
  have hstacked : Stacked L (.start s.store.snapshot.1 point rest :: s.branches)
      (.start s'.store.snapshot.1 point' rest' :: s'.branches) (s.store.snapshot.2 :: past)
      (s'.store.snapshot.2 :: past') :=
    .cons ⟨hbranch, rfl, rfl, hslots, h.wellFormed.of_slots_eq rfl⟩ h.branches
  unfold State.choose
  dsimp only
  rw [← h.certain, ← h.pruned, ← bindings_congr ctx h.slots]
  exact hstacked.resume ctx h.found _ s.pruned hslots h.left.snapshot h.right.snapshot .none

/-- **A step** leads both searches to the same place, or to answers that are alike. -/
theorem step (h : Lockstep L s s' past past') (hL : ¬ L.reorders)
    (howns : ∀ w goal rest, s.path = .open w → w.turn ctx s.store = .simplify goal rest →
      simplifyOwns ctx.table s.store goal.relation = true) :
    (s.step ctx).Like L (s'.step ctx) := by
  have hpath := h.path
  unfold State.step
  rcases hs : s.path with w | f <;> rcases hs' : s'.path with w' | f' <;> rw [hs, hs'] at hpath <;>
    cases hpath
  · rename_i hw
    have hturn := hw.turn ctx h.slots
    dsimp only
    generalize heq : w.turn ctx s.store = turn at hturn ⊢
    generalize heq' : w'.turn ctx s'.store = turn' at hturn ⊢
    cases hturn with
    | simplify hgoal hrest => exact .next (h.simplify hgoal hrest (howns w _ _ hs heq))
    | choose hpoint hrest => exact h.choose hL hpoint hrest
    | fail he =>
      exact h.fail ⟨endsPath_of_turn heq, endsPath_of_turn heq', he, fun _ => hw.progress⟩
    | complete => exact h.complete hw
  · rename_i hf
    exact h.fail hf

theorem outOfSteps (h : Lockstep L s s' past past') :
    AnswerLike L (s.outOfSteps ctx) (s'.outOfSteps ctx) := by
  unfold State.outOfSteps
  rw [h.certain, bindings_congr ctx h.slots]
  exact .unsolved (.cons (.same _) .nil)

/-- If one search simplifies a goal, the other one does. -/
theorem simplifies (h : Lockstep L s s' past past') (hpath : s.path = .open w)
    (hturn : w.turn ctx s.store = .simplify goal rest) :
    ∃ w' goal' rest', s'.path = .open w' ∧ w'.turn ctx s'.store = .simplify goal' rest' := by
  have hlike := h.path
  rw [hpath] at hlike
  generalize hpath' : s'.path = path' at hlike ⊢
  cases hlike with
  | works hw =>
    have hnext := hw.turn ctx h.slots
    rw [hturn] at hnext
    generalize hturn' : Work.turn _ ctx s'.store = turn' at hnext
    cases hnext with
    | simplify => exact ⟨_, _, _, rfl, hturn'⟩

/-- When no step is left no goal is simplified any more. -/
theorem run_zero (h : Lockstep L s s' past past') (hL : ¬ L.reorders) :
    AnswerLike L (s.run ctx 0) (s'.run ctx 0) := by
  have hlast : (s.step ctx).Like L (s'.step ctx) →
      AnswerLike L (s.run ctx 0) (s'.run ctx 0) := by
    intro hstep
    unfold State.run
    generalize s.step ctx = advance at hstep ⊢
    generalize s'.step ctx = advance' at hstep ⊢
    cases hstep with
    | done hanswer => exact hanswer
    | next => exact h.outOfSteps
  by_cases hgoal : ∃ w goal rest, s.path = .open w ∧ w.turn ctx s.store = .simplify goal rest
  · obtain ⟨w, goal, rest, hpath, hturn⟩ := hgoal
    obtain ⟨w', goal', rest', hpath', hturn'⟩ := h.simplifies hpath hturn
    unfold State.run State.step
    rw [hpath, hpath']
    dsimp only
    rw [hturn, hturn']
    exact h.outOfSteps
  · exact hlast (h.step hL fun w goal rest hpath hturn =>
      absurd ⟨w, goal, rest, hpath, hturn⟩ hgoal)

/-- **Two runs in lockstep** come to answers that are alike, or both to none. -/
theorem run? (hL : ¬ L.reorders) : ∀ (steps : Nat) {s s' : State} {past past' : List Store},
    Lockstep L s s' past past' →
    Option.Rel (AnswerLike L) (s.run? ctx steps) (s'.run? ctx steps)
  | 0, _, _, _, _, h => .some (h.run_zero hL)
  | steps + 1, s, s', past, past', h => by
    unfold State.run?
    rw [← h.owns ctx]
    by_cases howns : s.owns ctx = true
    · rw [if_pos howns, if_pos howns]
      have hstep := h.step hL fun w goal rest hpath hturn => simplifyOwns_of_owns howns hpath hturn
      generalize s.step ctx = advance at hstep ⊢
      generalize s'.step ctx = advance' at hstep ⊢
      cases hstep with
      | done hanswer => exact .some hanswer
      | next hnext => exact run? hL steps hnext
    · rw [if_neg howns, if_neg howns]
      exact .none

end Lockstep
end Search

open Search Store

variable {L : Latitude} {system system' : System} {s₀ : Store}

/-- The searches for systems that say the same start at the same place. -/
theorem System.Like.start (h : system.Like L system') (hvalid : system.validate = [])
    (hseeds : System.plant (.ofSize system.varCount) system.seeds = .done s₀) :
    Lockstep L (system.start s₀) (system'.start s₀) [] [] := by
  have hempty := wellFormed_ofSize system.varCount
  have hmoves := System.moves_plant system.seeds hempty (System.plantable_seeds hvalid) hseeds
  have hback := leadsBack_planted hseeds
  have hwork := Work.Like.empty.pushAll h.constraints
  exact ⟨rfl, hmoves.wellFormed hempty, hback, hback, .works hwork, .nil, .nil, rfl, rfl⟩

/-- **Systems that say the same have answers that are alike**, or both have none. -/
theorem System.Like.answers_of_valid (table : Table) (options : SolverOptions)
    (h : system.Like L system') (hL : ¬ L.reorders) (hvalid : system.validate = []) :
    Option.Rel (AnswerLike L) (solve? table options system) (solve? table options system') := by
  have hvalid' := h.validate_iff.1 hvalid
  unfold solve? solve
  rw [hvalid, hvalid', ← h.varCount, ← h.seeds]
  rcases hplant : System.plant (.ofSize system.varCount) system.seeds with ⟨s₀, _ | conflict⟩
  · exact (h.start hvalid hplant).run? hL options.maxSteps
  · dsimp only
    rw [hplant]
    exact .some (.unsolved (.cons (.same _) .nil))

end TypeResolution
