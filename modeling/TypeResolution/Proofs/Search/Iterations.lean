/-
# The loops of the search

The search is two loops that take turns. One follows a path, a goal at a time, and the other looks
for an alternative to go on with when the path has ended. Most iterations of them are free: to open
a branch, to assume what can be assumed, to give up the alternatives of a branch that are penalised
too much, and to close a branch. Only those that simplify a goal or enter an alternative are
counted, and before one of these it is seen to that the limit has not been reached
(`Search.Moment.iterate`, `Search.Runs`).

A step of `Search.State.step` is a number of free iterations and then one that is counted, or that
ends the search (`Search.Regular.arrives`). So the loops end, with no more iterations counted than
the limit allows, and come to what `Search.State.run?` says (`Search.Regular.runs`). An iteration
that would look up a variable that the store does not have ends the program without an answer.

Key definitions: `Search.Moment.iterate`, `Search.Runs`, `Search.Glides`, `Search.Regular`.
Key theorems: `Search.Runs.unique`, `Search.glides_resume`, `Search.carries_turn`,
`Search.Regular.step`, `Search.Regular.arrives`, `Search.Regular.runs`.
-/
import TypeResolution.Proofs.Search.Scope

open Relation (ReflTransGen)

namespace TypeResolution
namespace Search

open Store

/-! ### Iterations -/

/-- Which of the loops goes on. -/
inductive Place where
  /-- A path is followed. -/
  | on (work : Work)
  /-- A path has ended. If it failed, its failure is laid to the innermost open branch. -/
  | off (failure : Option Failure)

/-- The place at which a path is. -/
def Path.place : Path → Place
  | .open work => .on work
  | .failed failure => .off (some failure)

/-- A search between two iterations of its loops. -/
structure Moment where
  place : Place
  store : Store
  branches : List Branch
  found : List Found
  pruned : Bool
  certain : Option (List Ty)

/-- The moment before a step. -/
def State.moment (s : State) : Moment :=
  ⟨s.path.place, s.store, s.branches, s.found, s.pruned, s.certain⟩

/-- What an iteration comes to. -/
inductive Iteration where
  | free (m : Moment)
  | counted (m : Moment)
  | ended (answer : Except Unsolved Solution)

namespace Moment

variable (ctx : Context) (m : Moment)

/-- Records the path, which has come to a good end, as a solution. -/
def record (work : Work) : Moment :=
  let f := work.toFound ctx m.store
  let branches := if exceeds f.penalty (bestPenalty m.found) then m.branches
    else m.branches.map fun b => { b with solved := true }
  { m with place := .off none, branches, found := keep m.found f }

/-- Puts a choice on the stack of open branches. -/
def openBranch (point : BranchPoint) (rest : Work) : Moment :=
  let certain := m.certain <|> some (ctx.bindings m.store)
  let (snapshot, store) := m.store.snapshot
  { m with place := .off none, store, branches := .start snapshot point rest :: m.branches, certain }

/-- Puts a relation that is assumed into the queue, if one can be, or else ends the path. -/
def assume (work : Work) : Moment :=
  match weaken m.store work.deferred with
  | some (r, l, deferred) => { m with place := .on ({ work with deferred }.push (.relation r l)) }
  | none =>
    let literal := if ctx.options.literalDefaulting then
      defaultLiteral ctx.table m.store work.deferred else none
    match literal with
    | some (v, type, l) =>
      let warning := Diagnostic.ofMessage l .literalDefaulted [type.render ctx.table.names]
      let work := { work with warnings := warning :: work.warnings }
      { m with place := .on (work.push (.relation (.equality (.var v) type) l)) }
    | none =>
      match incomplete ctx m.store work.deferred with
      | some e => { m with place := .off (some ⟨e, work.progress⟩) }
      | none => m.record ctx work

/-- One iteration on a path. -/
def follow (work : Work) : Iteration :=
  match work.queue, work.branches with
  | goal :: queue, _ =>
    let (path, store) := Path.simplify ctx goal { work with queue } m.store
    .counted { m with place := path.place, store }
  | [], point :: branches =>
    match point.offer with
    | .overload ⟨_, name, _, []⟩ =>
      .free { m with
        place := .off (some ⟨.noViableCandidate name [] point.locator, work.progress⟩) }
    | _ => .free (m.openBranch ctx point { work with branches })
  | [], [] => .free (m.assume ctx work)

/-- One iteration after the end of a path. -/
def backtrack (failure : Option Failure) : Iteration :=
  match m.branches with
  | [] => .ended (answer ctx m.store m.found m.pruned m.certain failure)
  | branch :: branches =>
    let branch := branch.note failure
    match branch.untried with
    | [] =>
      .free { m with
        place := .off (if branch.solved then none else branch.failure?)
        store := (m.store.restore branch.snapshot).commit
        branches }
    | alternative :: untried =>
      let penalty := addPenalty branch.base.penalty alternative.penalty
      let exhausted := { m with
        place := .off none, branches := { branch with untried := [] } :: branches }
      if exceeds penalty ctx.options.maxPenalty then .free { exhausted with pruned := true }
      else if exceeds penalty (bestPenalty m.found) then .free exhausted
      else
        let (work, store) :=
          alternative.enter branch.point.locator branch.base (m.store.restore branch.snapshot)
        let entered := (alternative, none) :: branch.entered
        .counted { m with
          place := .on work, store, branches := { branch with untried, entered } :: branches }

/-- One iteration of the loops. -/
def iterate : Iteration :=
  match m.place with
  | .on work => m.follow ctx work
  | .off failure => m.backtrack ctx failure

/-- Whether the store has every variable that the next iteration looks up. -/
def owns : Bool :=
  ctx.varCount ≤ m.store.size &&
    match m.place with
    | .off _ => true
    | .on work =>
      work.deferred.all (·.owned m.store) &&
        match work.queue with
        | goal :: _ => simplifyOwns ctx.table m.store goal.relation
        | [] => true

/-- The answer when the limit has been reached. -/
def outOfSteps : Except Unsolved Solution :=
  .error ⟨[.stopped (.stepLimit ctx.options.maxSteps) none], m.certain.getD (ctx.bindings m.store)⟩

end Moment

/-- From a moment at which `taken` iterations have been counted the loops come to an end with
`total` iterations counted, and with an answer, unless a variable is looked up that the store does
not have. -/
inductive Runs (ctx : Context) (limit : Nat) :
    (taken : Nat) → Moment → (total : Nat) → Option (Except Unsolved Solution) → Prop where
  | ended {taken : Nat} {m : Moment} {answer : Except Unsolved Solution} : m.owns ctx = true →
      m.iterate ctx = .ended answer → Runs ctx limit taken m taken (some answer)
  | free {taken total : Nat} {m m' : Moment} {answer : Option (Except Unsolved Solution)} :
      m.owns ctx = true → m.iterate ctx = .free m' → Runs ctx limit taken m' total answer →
      Runs ctx limit taken m total answer
  | counted {taken total : Nat} {m m' : Moment} {answer : Option (Except Unsolved Solution)} :
      taken < limit → m.owns ctx = true → m.iterate ctx = .counted m' →
      Runs ctx limit (taken + 1) m' total answer → Runs ctx limit taken m total answer
  | stopped {m m' : Moment} : m.iterate ctx = .counted m' →
      Runs ctx limit limit m limit (some (m.outOfSteps ctx))
  | lost {taken : Nat} {m : Moment} : m.owns ctx = false →
      (∀ m', m.iterate ctx = .counted m' → taken < limit) → Runs ctx limit taken m taken none

variable {ctx : Context} {limit taken total total' : Nat} {m m' : Moment} {w w' rest : Work}
variable {answer answer' : Option (Except Unsolved Solution)} {goal : Goal} {point : BranchPoint}
variable {store : Store} {b : Branch} {branches : List Branch} {past : List Store} {s s' : State}
variable {found : List Found} {pruned pruned' : Bool} {certain : Option (List Ty)}
variable {failure : Option Failure}

/-- **The loops come to one end**: neither the number of counted iterations nor the answer is left
open. -/
theorem Runs.unique (h : Runs ctx limit taken m total answer)
    (h' : Runs ctx limit taken m total' answer') : total = total' ∧ answer = answer' := by
  induction h with
  | ended howns hended => cases h' <;> simp_all
  | free howns hfree _ ih =>
    cases h' with
    | free _ hfree' hruns =>
      obtain rfl := Iteration.free.inj (hfree.symm.trans hfree')
      exact ih hruns
    | _ => simp_all
  | counted hlt howns hcounted _ ih =>
    cases h' with
    | counted _ _ hcounted' hruns =>
      obtain rfl := Iteration.counted.inj (hcounted.symm.trans hcounted')
      exact ih hruns
    | stopped _ => omega
    | _ => simp_all
  | stopped hcounted =>
    cases h' with
    | counted hlt _ _ _ => omega
    | lost _ hlt => exact absurd (hlt _ hcounted) (Nat.lt_irrefl _)
    | _ => simp_all
  | lost hlost hlt =>
    cases h' with
    | stopped hcounted => exact absurd (hlt _ hcounted) (Nat.lt_irrefl _)
    | _ => simp_all

/-! ### Paths with the variables of the system -/

/-- Every goal that was put aside on the path waits, and the store has the variables of the system. -/
structure Ample (ctx : Context) (s : Store) (w : Work) : Prop where
  watchful : Watchful s w
  vars : ctx.varCount ≤ s.size

theorem preserved_ample (ctx : Context) : Preserved ctx (Ample ctx) where
  congr hslots h :=
    ⟨(preserved_watchful ctx).congr hslots h.watchful, h.vars.trans (congrArg Array.size hslots).le⟩
  simplify {s s' _ _ rest goal} h hturn howns hsimp := by
    have hmoves := moves_simplify (l := goal.locator) h.watchful.wellFormed howns
    rw [← store_pathSimplify ctx goal rest, hsimp] at hmoves
    exact ⟨h.watchful.simplify hturn howns hsimp, h.vars.trans (size_le_of_moves hmoves)⟩
  enter h hturn _ :=
    ⟨h.watchful.enter hturn _, h.vars.trans (size_le_of_moves (moves_enter _ _ _))⟩

/-- The goals that are put aside wait for variables of the store. -/
theorem Watchful.owned {d : Deferred} (h : Watchful store w) (hd : d ∈ w.deferred) :
    d.owned store = true := by
  have hwaits := h.waits d hd
  refine Bool.and_eq_true_iff.2 ⟨hwaits.owns, List.all_eq_true.2 fun v hv => owns_iff.2 ?_⟩
  obtain ⟨k, hk⟩ := hwaits.unbound h.wellFormed hv
  exact has_of_slot? hk

/-! ### Free iterations -/

/-- An iteration that is not counted. -/
def Slips (ctx : Context) (m m' : Moment) : Prop :=
  m.owns ctx = true ∧ m.iterate ctx = .free m'

/-- Iterations that are not counted lead from one moment to the other. -/
def Glides (ctx : Context) : Moment → Moment → Prop := ReflTransGen (Slips ctx)

/-- Where the loops end does not depend on what is free. -/
theorem Runs.of_glides (h : Glides ctx m m') (hruns : Runs ctx limit taken m' total answer) :
    Runs ctx limit taken m total answer := by
  induction h using ReflTransGen.head_induction_on with
  | refl => exact hruns
  | head hslip _ ih => exact .free hslip.1 hslip.2 ih

/-- The iteration that does what is left of a step. -/
def Advance.iteration : Advance → Iteration
  | .next s => .counted s.moment
  | .done answer => .ended answer

theorem owns_off (hvars : ctx.varCount ≤ store.size) :
    Moment.owns ctx ⟨.off failure, store, branches, found, pruned, certain⟩ = true := by
  simp [Moment.owns, hvars]

/-- A branch without alternatives is closed. -/
theorem slips_close (hvars : ctx.varCount ≤ store.size)
    (huntried : (b.note failure).untried = []) :
    Slips ctx ⟨.off failure, store, b :: branches, found, pruned, certain⟩
      ⟨.off (if (b.note failure).solved then none else (b.note failure).failure?),
        (store.restore (b.note failure).snapshot).commit, branches, found, pruned, certain⟩ := by
  refine ⟨owns_off hvars, ?_⟩
  simp only [Moment.iterate, Moment.backtrack, huntried]

/-- **Going on from the end of a path** takes free iterations up to the one that enters an
alternative, or that ends the search. A branch is closed by one of them, or by two if it is given up
for the penalty of its next alternative. -/
theorem glides_resume (hbranches : List.Forall₂ (Met ctx (Ample ctx)) branches past)
    (hback : store.LeadsBack past) (hvars : ctx.varCount ≤ store.size) :
    ∃ m, Glides ctx ⟨.off failure, store, branches, found, pruned, certain⟩ m ∧
      m.owns ctx = true ∧ m.certain = certain ∧
      m.iterate ctx = (resume ctx found certain store pruned failure branches).iteration := by
  induction hbranches generalizing store pruned failure with
  | nil => exact ⟨_, .refl, owns_off hvars, rfl, rfl⟩
  | @cons b g branches past hmet _ ih =>
    have hnoted := hmet.note failure
    have hrestored := hback.restore.commit
    have hsize : ctx.varCount ≤ (store.restore (mark g)).commit.size := by
      obtain ⟨w, -, hw⟩ := hmet.work
      have hcommit : (store.restore (mark g)).commit.size = g.size :=
        congrArg Array.size hback.sameMoment_restore.1
      exact hcommit ▸ hw.vars
    rw [← hnoted.snapshot] at hrestored hsize
    -- A branch that is given up has no alternative left, and is closed by the next iteration.
    have hgiven : ∀ pruned', Glides ctx
        ⟨.off none, store, { b.note failure with untried := [] } :: branches, found, pruned',
          certain⟩
        ⟨.off (if (b.note failure).solved then none else (b.note failure).failure?),
          (store.restore (b.note failure).snapshot).commit, branches, found, pruned', certain⟩ :=
      fun pruned' => .single (slips_close hvars rfl)
    rw [resume]
    dsimp only
    cases huntried : (b.note failure).untried with
    | nil =>
      obtain ⟨m, hglides, hm⟩ := ih hrestored hsize
      exact ⟨m, hglides.head (slips_close hvars huntried), hm⟩
    | cons alternative untried =>
      dsimp only
      split
      · rename_i hbound
        obtain ⟨m, hglides, hm⟩ := ih hrestored hsize
        refine ⟨m, ((hgiven true).trans hglides).head ⟨owns_off hvars, ?_⟩, hm⟩
        simp only [Moment.iterate, Moment.backtrack, huntried, hbound, if_true]
      · rename_i hbound
        split
        · rename_i hbest
          obtain ⟨m, hglides, hm⟩ := ih hrestored hsize
          refine ⟨m, ((hgiven pruned).trans hglides).head ⟨owns_off hvars, ?_⟩, hm⟩
          simp only [Moment.iterate, Moment.backtrack, huntried, hbound, hbest, if_true]
          rfl
        · rename_i hbest
          refine ⟨_, .refl, owns_off hvars, rfl, ?_⟩
          simp only [Moment.iterate, Moment.backtrack, huntried, hbound, hbest]
          rfl

/-- What an iteration on a path does about what comes next on it. A goal of the queue is simplified
and this is counted, everything else is free. -/
inductive Carries (ctx : Context) (m : Moment) (w : Work) : Turn → Iteration → Prop where
  | goal {goal : Goal} {rest : Work} : w.queue.head? = some goal →
      Carries ctx m w (.simplify goal rest) (.counted { m with
        place := (Path.simplify ctx goal rest m.store).1.place
        store := (Path.simplify ctx goal rest m.store).2 })
  | assumed {goal : Goal} {w' : Work} : w.queue = [] → w'.queue = [goal] →
      w'.deferred ⊆ w.deferred →
      Carries ctx m w (.simplify goal { w' with queue := [] }) (.free { m with place := .on w' })
  | choice {point : BranchPoint} {rest : Work} : w.queue = [] →
      Carries ctx m w (.choose point rest) (.free (m.openBranch ctx point rest))
  | failure {e : TypeError} : w.queue = [] →
      Carries ctx m w (.fail e) (.free { m with place := .off (some ⟨e, w.progress⟩) })
  | finished : w.queue = [] → Carries ctx m w .complete (.free (m.record ctx w))

theorem carries_takeUp (r : Relation) (l : Option Locator) (hqueue : w.queue = [])
    (hqueue' : w'.queue = []) (hdeferred : w'.deferred ⊆ w.deferred) :
    Carries ctx m w (w'.takeUp r l) (.free { m with place := .on (w'.push (.relation r l)) }) := by
  have hpushed : (w'.push (.relation r l)).queue = [⟨w'.nextOrdinal, r, l⟩] := by
    simp [Work.push, hqueue', insertBefore]
  have hturn : w'.takeUp r l =
      .simplify ⟨w'.nextOrdinal, r, l⟩ { w'.push (.relation r l) with queue := [] } := by
    simp [Work.takeUp, Work.push, hqueue']
  rw [hturn]
  exact .assumed hqueue hpushed hdeferred

theorem carries_assume (ctx : Context) (m : Moment) (hqueue : w.queue = []) :
    Carries ctx m w (w.assume ctx m.store) (.free (m.assume ctx w)) := by
  unfold Work.assume Moment.assume
  cases hweaken : weaken m.store w.deferred with
  | some p =>
    obtain ⟨r, l, deferred⟩ := p
    obtain ⟨d, -, -, -, hperm, -⟩ := weaken_cases hweaken
    exact carries_takeUp r l hqueue hqueue fun d' hd' =>
      hperm.mem_iff.2 (List.mem_cons_of_mem d hd')
  | none =>
    dsimp only
    generalize (if ctx.options.literalDefaulting then
      defaultLiteral ctx.table m.store w.deferred else none) = literal
    cases literal with
    | some p =>
      obtain ⟨v, type, l⟩ := p
      exact carries_takeUp (.equality (.var v) type) l hqueue hqueue (List.Subset.refl _)
    | none =>
      dsimp only
      cases incomplete ctx m.store w.deferred with
      | some e => exact .failure hqueue
      | none => exact .finished hqueue

/-- **An iteration on a path** carries out what comes next on it. -/
theorem carries_turn (ctx : Context) (m : Moment) (w : Work) :
    Carries ctx m w (w.turn ctx m.store) (m.follow ctx w) := by
  unfold Work.turn Moment.follow
  cases hqueue : w.queue with
  | cons goal queue => exact .goal (congrArg List.head? hqueue)
  | nil =>
    cases hbranches : w.branches with
    | nil => exact carries_assume ctx m hqueue
    | cons point branches =>
      dsimp only
      rcases point.offer with ⟨type, name, site, _ | ⟨candidate, candidates⟩⟩ | minterms
      · exact .failure hqueue
      · exact .choice hqueue
      · exact .choice hqueue

/-! ### Steps -/

/-- Wherever the search is, the goals that are put aside wait, and the store has the variables of the
system. While branches are open it is kept what was known when the first of them was met. -/
structure Regular (ctx : Context) (s : State) (past : List Store) : Prop where
  stands : Stands ctx (Ample ctx) s past
  vars : ctx.varCount ≤ s.store.size
  certain : s.branches ≠ [] → s.certain.isSome = true

/-- An alternative is entered while branches are open, and nothing is lost of what is kept. -/
theorem resume_keeps (h : resume ctx found certain store pruned failure branches = .next s') :
    branches ≠ [] ∧ s'.certain = certain ∧ s'.found = found := by
  induction branches generalizing store pruned failure with
  | nil => cases h
  | cons b branches ih =>
    have hresumes := resumes_cons ctx found certain store pruned failure b branches
    rw [h] at hresumes
    refine ⟨List.cons_ne_nil b branches, ?_⟩
    generalize hnext : Advance.next s' = advance at hresumes
    cases hresumes with
    | close => exact (ih hnext.symm).2
    | enter =>
      rw [Advance.next.inj hnext]
      exact ⟨rfl, rfl⟩

theorem certain_step (h : s.branches ≠ [] → s.certain.isSome = true) (hstep : s.step ctx = .next s')
    (hbranches : s'.branches ≠ []) : s'.certain.isSome = true := by
  have hopen : ∀ {branches found failure}, (branches ≠ [] → s.branches ≠ []) →
      resume ctx found s.certain s.store s.pruned failure branches = .next s' →
      s'.certain.isSome = true := by
    intro branches found failure hkept hresume
    obtain ⟨hne, hcertain, -⟩ := resume_keeps hresume
    rw [hcertain]
    exact h (hkept hne)
  unfold State.step at hstep
  cases hpath : s.path with
  | failed failure =>
    rw [hpath] at hstep
    exact hopen id hstep
  | «open» w =>
    rw [hpath] at hstep
    dsimp only at hstep
    cases hturn : w.turn ctx s.store with
    | simplify goal rest =>
      rw [hturn] at hstep
      obtain rfl := Advance.next.inj hstep
      exact h hbranches
    | choose point rest =>
      rw [hturn] at hstep
      rw [(resume_keeps hstep).2.1]
      cases s.certain <;> rfl
    | fail e =>
      rw [hturn] at hstep
      exact hopen id hstep
    | complete =>
      rw [hturn] at hstep
      refine hopen (fun hne hnil => hne ?_) hstep
      simp [hnil]

namespace Regular

/-- A step leads to a state of the same kind. -/
theorem step (h : Regular ctx s past) (hgoes : Goes ctx s s') : ∃ past', Regular ctx s' past' := by
  obtain ⟨past', honward, -, hstands⟩ := h.stands.step (preserved_ample ctx) hgoes
  refine ⟨past', hstands, ?_, certain_step h.certain hgoes.2⟩
  cases honward with
  | @simplify w rest goal hpath hturn heq =>
    have hmoves := moves_simplify (l := goal.locator) (h.stands.path w hpath).watchful.wellFormed
      (simplifyOwns_of_owns hgoes.1 hpath hturn)
    rw [← store_pathSimplify ctx goal rest] at hmoves
    rw [heq]
    exact h.vars.trans (size_le_of_moves hmoves)
  | enter _ _ _ henters => exact (hstands.path _ henters.path).vars

/-- The store has what the goals that were put aside are about. -/
theorem all_owned (h : Regular ctx s past) (hpath : s.path = .open w)
    (hdeferred : w'.deferred ⊆ w.deferred) : w'.deferred.all (·.owned s.store) = true :=
  List.all_eq_true.2 fun _ hd => (h.stands.path w hpath).watchful.owned (hdeferred hd)

/-- Of what a step on a path looks up, the store has everything but perhaps what the goal that comes
next is about. -/
theorem owns_of_simplify (h : Regular ctx s past) (hpath : s.path = .open w)
    (hturn : w.turn ctx s.store = .simplify goal rest) :
    s.owns ctx = simplifyOwns ctx.table s.store goal.relation := by
  have howned := h.all_owned hpath (List.Subset.refl _)
  simp only [State.owns, hpath, howned, decide_eq_true h.vars, hturn, Bool.true_and]

theorem owns_of_turn (h : Regular ctx s past) (hpath : s.path = .open w)
    (hturn : ∀ goal rest, w.turn ctx s.store ≠ .simplify goal rest) : s.owns ctx = true := by
  have howned := h.all_owned hpath (List.Subset.refl _)
  simp only [State.owns, hpath, howned, decide_eq_true h.vars, Bool.true_and]

/-- The same of an iteration on the path. -/
theorem owns_on (h : Regular ctx s past) (hpath : s.path = .open w)
    (hdeferred : w'.deferred ⊆ w.deferred) :
    Moment.owns ctx { s.moment with place := .on w' } =
      w'.queue.head?.all fun goal => simplifyOwns ctx.table s.store goal.relation := by
  have howned := h.all_owned hpath hdeferred
  have hvars := decide_eq_true h.vars
  unfold Moment.owns State.moment
  dsimp only
  rw [hvars, howned]
  cases w'.queue <;> rfl

end Regular

/-- The search is at the iteration that does what is left of a step. If there are no variables to be
looked up for the one, there are none for the other. -/
structure Arrives (ctx : Context) (s : State) (m : Moment) : Prop where
  glides : Glides ctx s.moment m
  owns : m.owns ctx = s.owns ctx
  iterate : m.iterate ctx = (s.step ctx).iteration
  outOfSteps : ∀ s', s.step ctx = .next s' → m.outOfSteps ctx = s.outOfSteps ctx
  done : ∀ answer, s.step ctx = .done answer → s.owns ctx = true

/-- A step that does not simplify a goal goes on from the end of a path. -/
theorem arrives_resume (hglides : Glides ctx s.moment
      ⟨.off failure, store, branches, found, s.pruned, certain⟩)
    (howns : s.owns ctx = true) (hbranches : List.Forall₂ (Met ctx (Ample ctx)) branches past)
    (hback : store.LeadsBack past) (hvars : ctx.varCount ≤ store.size)
    (hcertain : branches ≠ [] → certain = some (s.certain.getD (ctx.bindings s.store)))
    (hstep : s.step ctx = resume ctx found certain store s.pruned failure branches) :
    ∃ m, Arrives ctx s m := by
  obtain ⟨m, hglides', howns', hm, hiterate⟩ := glides_resume hbranches hback hvars
  refine ⟨m, hglides.trans hglides', howns'.trans howns.symm, hstep ▸ hiterate, ?_,
    fun _ _ => howns⟩
  intro s' hnext
  rw [hstep] at hnext
  unfold Moment.outOfSteps State.outOfSteps
  rw [hm, hcertain (resume_keeps hnext).1]
  rfl

namespace Regular

theorem certain_eq (h : Regular ctx s past) (hbranches : s.branches ≠ []) :
    s.certain = some (s.certain.getD (ctx.bindings s.store)) := by
  obtain ⟨types, htypes⟩ := Option.isSome_iff_exists.1 (h.certain hbranches)
  rw [htypes]
  rfl

/-- **A step** is a number of free iterations, and one that is counted or ends the search. -/
theorem arrives (h : Regular ctx s past) : ∃ m, Arrives ctx s m := by
  have hcertain := h.certain_eq
  have hmet := h.stands.branches
  cases hpath : s.path with
  | failed failure =>
    have hglides : Glides ctx s.moment
        ⟨.off (some failure), s.store, s.branches, s.found, s.pruned, s.certain⟩ := by
      unfold State.moment
      rw [hpath]
      exact .refl
    have howns : s.owns ctx = true := by
      simp [State.owns, hpath, h.vars]
    refine arrives_resume hglides howns hmet h.stands.back h.vars hcertain ?_
    simp only [State.step, hpath, State.fail]
  | «open» w =>
    have hmoment : s.moment = { s.moment with place := .on w } := by
      unfold State.moment
      rw [hpath]
      rfl
    have hiterate : s.moment.iterate ctx = s.moment.follow ctx w := by
      unfold Moment.iterate
      rw [hmoment]
    have hcarries : Carries ctx s.moment w (w.turn ctx s.store) (s.moment.follow ctx w) :=
      carries_turn ctx s.moment w
    have howns_on : s.moment.owns ctx =
        w.queue.head?.all fun goal => simplifyOwns ctx.table s.store goal.relation :=
      hmoment ▸ h.owns_on hpath (List.Subset.refl _)
    have hslips : ∀ {m}, w.queue = [] → s.moment.follow ctx w = .free m → Slips ctx s.moment m := by
      intro m hqueue hfree
      refine ⟨?_, hiterate.trans hfree⟩
      rw [howns_on, hqueue]
      rfl
    generalize hturn : w.turn ctx s.store = turn at hcarries
    generalize hfollow : s.moment.follow ctx w = iteration at hcarries hiterate
    cases hcarries with
    | @goal goal rest hqueue =>
      have hstep : s.step ctx = .next (s.simplify ctx goal rest) := by
        simp only [State.step, hpath, hturn]
      refine ⟨s.moment, .refl, ?_, ?_, fun _ _ => rfl, by simp [hstep]⟩
      · rw [h.owns_of_simplify hpath hturn, howns_on, hqueue]
        rfl
      · rw [hiterate, hstep]
        rfl
    | @assumed goal w' hqueue hqueue' hdeferred =>
      have hstep : s.step ctx = .next (s.simplify ctx goal { w' with queue := [] }) := by
        simp only [State.step, hpath, hturn]
      refine ⟨_, .single (hslips hqueue hfollow), ?_, ?_, fun _ _ => rfl, by simp [hstep]⟩
      · rw [h.owns_of_simplify hpath hturn, h.owns_on hpath hdeferred, hqueue']
        rfl
      · rw [hstep]
        unfold Moment.iterate Moment.follow
        simp only [hqueue']
        rfl
    | @choice point rest hqueue =>
      have hstep : s.step ctx = s.choose ctx point rest := by
        simp only [State.step, hpath, hturn]
      have hopened := (preserved_ample ctx).met_start (h.stands.path w hpath) hturn
      have howns := h.owns_of_turn hpath (by simp [hturn])
      refine arrives_resume (.single (hslips hqueue hfollow)) howns (.cons hopened hmet)
        h.stands.back.snapshot h.vars (fun _ => ?_) hstep
      show (s.certain <|> some (ctx.bindings s.store)) = _
      cases s.certain <;> rfl
    | @failure e hqueue =>
      have hstep : s.step ctx = s.fail ctx ⟨e, w.progress⟩ := by
        simp only [State.step, hpath, hturn]
      have howns := h.owns_of_turn hpath (by simp [hturn])
      exact arrives_resume (.single (hslips hqueue hfollow)) howns hmet h.stands.back h.vars hcertain
        hstep
    | finished hqueue =>
      have hstep : s.step ctx = s.complete ctx w := by
        simp only [State.step, hpath, hturn]
      have howns := h.owns_of_turn hpath (by simp [hturn])
      refine arrives_resume (.single (hslips hqueue hfollow)) howns ?_ h.stands.back h.vars
        (fun hne => hcertain fun hnil => hne ?_) hstep
      · split
        · exact hmet
        · exact Met.map_solved hmet
      · simp [State.moment, hnil]

/-- **The loops end**, with no more iterations counted than there were left, and come to what the
search comes to. -/
theorem runs (limit : Nat) : ∀ (left : Nat) {taken : Nat} {s : State} {past : List Store},
    Regular ctx s past → taken + left = limit →
    ∃ total ≤ limit, Runs ctx limit taken s.moment total (s.run? ctx left)
  | 0, taken, s, past, h, hleft => by
    obtain ⟨m, hm⟩ := h.arrives
    refine ⟨taken, by omega, .of_glides hm.glides ?_⟩
    have hiterate := hm.iterate
    unfold State.run? State.run
    cases hstep : s.step ctx with
    | done answer =>
      rw [hstep] at hiterate
      exact .ended (hm.owns.trans (hm.done answer hstep)) hiterate
    | next s' =>
      rw [hstep] at hiterate
      obtain rfl : taken = limit := by omega
      dsimp only
      rw [← hm.outOfSteps s' hstep]
      exact .stopped hiterate
  | left + 1, taken, s, past, h, hleft => by
    obtain ⟨m, hm⟩ := h.arrives
    have hiterate := hm.iterate
    unfold State.run?
    by_cases howns : s.owns ctx = true
    · rw [if_pos howns]
      cases hstep : s.step ctx with
      | done answer =>
        rw [hstep] at hiterate
        exact ⟨taken, by omega, .of_glides hm.glides (.ended (hm.owns.trans howns) hiterate)⟩
      | next s' =>
        rw [hstep] at hiterate
        obtain ⟨past', h'⟩ := h.step ⟨howns, hstep⟩
        have hleft' : taken + 1 + left = limit := by omega
        obtain ⟨total, htotal, hruns⟩ := runs limit left h' hleft'
        exact ⟨total, htotal, .of_glides hm.glides
          (.counted (by omega) (hm.owns.trans howns) hiterate hruns)⟩
    · rw [if_neg howns]
      refine ⟨taken, by omega, .of_glides hm.glides (.lost ?_ fun _ _ => by omega)⟩
      rw [hm.owns]
      exact Bool.eq_false_iff.2 howns

end Regular

end Search

open Search Store

variable {table : Table} {system : System} {s₀ : Store}

/-- The search of a system is regular from the start. -/
theorem regular_start (options : SolverOptions) (hvalid : system.validate = [])
    (hseeds : System.plant (.ofSize system.varCount) system.seeds = .done s₀) :
    Regular ⟨table, options, system.varCount⟩ (system.start s₀) [] := by
  have hmoves := System.moves_plant system.seeds (wellFormed_ofSize _)
    (System.plantable_seeds hvalid) hseeds
  have hvars : system.varCount ≤ s₀.size := by
    have hsize := size_le_of_moves hmoves
    rwa [size_ofSize] at hsize
  exact ⟨stands_start _ hseeds ⟨watchful_start hvalid hseeds, hvars⟩, hvars, fun h => absurd rfl h⟩

end TypeResolution
