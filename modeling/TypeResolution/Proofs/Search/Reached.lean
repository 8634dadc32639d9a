/-
# The states that a search reaches

A state is reached from another one by steps that look up nothing but what the store has
(`Search.Reached`). With a state goes what the program has forgotten: the stores in which the open
branches were met. The snapshots of the branches lead back to these.

A step either simplifies a goal, or enters an alternative of one of the open branches, after those
inside of this branch have been closed (`Search.Onward`). Before it enters the alternative it
restores the snapshot, so that the alternative is entered from the slots that there were when the
branch was met. What simplifying a goal and entering an alternative preserve on the path therefore
holds on the path of every state that is reached, and of the work and the store that each of its
branches was met with (`Search.Reached.stands`).

Key definitions: `Search.Goes`, `Search.Reached`, `Search.Enters`, `Search.Onward`,
`Search.Preserved`, `Search.Stands`.
Key theorems: `Search.resume_next`, `Search.Stands.step`, `Search.Reached.stands`.
-/
import Mathlib.Data.List.DropRight
import TypeResolution.Proofs.Search.Exhaustive
import TypeResolution.Proofs.Search.Lookup

open Relation (ReflTransGen)

namespace TypeResolution
namespace Search

open Store

variable {ctx : Context} {start s s' : State} {past past' outer : List Store}
variable {store g restored : Store} {w rest : Work} {goal : Goal} {point : BranchPoint}
variable {b : Branch} {branches : List Branch} {a : Alternative}

/-! ### Reached states -/

/-- A step that looks up nothing but what the store has goes on to the next state. -/
def Goes (ctx : Context) (s s' : State) : Prop := s.owns ctx = true ∧ s.step ctx = .next s'

/-- The stores in which the open branches were met, with the one in which the next step meets a
further branch. -/
def State.met (ctx : Context) (s : State) (past : List Store) : List Store :=
  match s.path with
  | .failed _ => past
  | .open work =>
    match work.turn ctx s.store with
    | .choose .. => s.store.snapshot.2 :: past
    | _ => past

/-- The search reaches a state, at which the open branches are those that were met in the given
stores, the innermost first. -/
inductive Reached (ctx : Context) (start : State) : State → List Store → Prop where
  | start : Reached ctx start start []
  | step {s s' : State} {past : List Store} : Reached ctx start s past → Goes ctx s s' →
      Reached ctx start s' ((s.met ctx past).rtake s'.branches.length)

/-! ### Steps -/

/-- The alternative of the innermost branch has just been entered, from a store with the slots of
the one in which the branch was met. -/
structure Enters (b : Branch) (a : Alternative) (g restored : Store) (s : State) : Prop where
  branch : s.branches.head? = some b
  entered : b.entered.head? = some (a, none)
  offered : a ∈ b.point.offer.alternatives
  slots : restored.slots = g.slots
  path : s.path = .open (a.enter b.point.locator b.base restored).1
  store : s.store = (a.enter b.point.locator b.base restored).2

/-- The state after a step, and the stores in which its branches were met. -/
inductive Onward (ctx : Context) (s : State) (past : List Store) (s' : State) :
    List Store → Prop where
  | simplify {w rest : Work} {goal : Goal} : s.path = .open w →
      w.turn ctx s.store = .simplify goal rest → s' = s.simplify ctx goal rest →
      Onward ctx s past s' past
  | enter {b : Branch} {a : Alternative} {g restored : Store} {outer : List Store} :
      g :: outer <:+ s.met ctx past → Edits s.store restored →
      s.store.version < restored.version → Enters b a g restored s' →
      Onward ctx s past s' (g :: outer)

/-- What holds on a path holds however the path goes on, and depends on the slots only. -/
structure Preserved (ctx : Context) (I : Store → Work → Prop) : Prop where
  congr : ∀ {s t : Store} {w : Work}, s.slots = t.slots → I s w → I t w
  simplify : ∀ {s s' : Store} {w w' rest : Work} {goal : Goal}, I s w →
    w.turn ctx s = .simplify goal rest → simplifyOwns ctx.table s goal.relation = true →
    Path.simplify ctx goal rest s = (.open w', s') → I s' w'
  enter : ∀ {s : Store} {w rest : Work} {point : BranchPoint} {a : Alternative}, I s w →
    w.turn ctx s = .choose point rest → a ∈ point.offer.alternatives →
    I (a.enter point.locator rest s).2 (a.enter point.locator rest s).1

/-- The branch was met in the store, on a path on which the invariant held. -/
structure Met (ctx : Context) (I : Store → Work → Prop) (b : Branch) (g : Store) : Prop where
  snapshot : b.snapshot = mark g
  untried : b.untried <:+ b.point.offer.alternatives
  work : ∃ w, w.turn ctx g = .choose b.point b.base ∧ I g w

/-- The invariant holds on the path, and held where the open branches were met. Their snapshots
lead back to there, and are numbered from the outermost one. -/
structure Stands (ctx : Context) (I : Store → Work → Prop) (s : State) (past : List Store) :
    Prop where
  back : s.store.LeadsBack past
  depth : ∀ g outer, g :: outer <:+ past → g.openSnapshots = outer.length + 1
  path : ∀ w, s.path = .open w → I s.store w
  branches : List.Forall₂ (Met ctx I) s.branches past

variable {I : Store → Work → Prop}

theorem met_innermost (h : List.Forall₂ (Met ctx I) branches past)
    (hb : branches.head? = some b) (hg : past.head? = some g) : Met ctx I b g := by
  cases h with
  | nil => cases hb
  | cons hmet _ =>
    obtain rfl := Option.some.inj hb
    obtain rfl := Option.some.inj hg
    exact hmet

theorem Met.note (h : Met ctx I b g) (failure : Option Failure) :
    Met ctx I (b.note failure) g := by
  obtain ⟨entered, heq, -⟩ := b.note_eq failure
  rw [heq]
  exact ⟨h.snapshot, h.untried, h.work⟩

theorem Met.map_solved (h : List.Forall₂ (Met ctx I) branches past) :
    List.Forall₂ (Met ctx I) (branches.map fun b => { b with solved := true }) past := by
  induction h with
  | nil => exact .nil
  | cons hmet _ ih => exact .cons ⟨hmet.snapshot, hmet.untried, hmet.work⟩ ih

/-- **Going on from the end of a path** enters an alternative of an open branch, from the slots
with which the branch was met. -/
theorem resume_next {found : List Found} {certain : Option (List Ty)} {pruned : Bool}
    {failure : Option Failure} (hbranches : List.Forall₂ (Met ctx I) branches past)
    (hback : store.LeadsBack past)
    (h : resume ctx found certain store pruned failure branches = .next s') :
    ∃ b a g outer restored, g :: outer <:+ past ∧ Edits store restored ∧
      store.version < restored.version ∧ restored.LeadsBack (g :: outer) ∧
      Enters b a g restored s' ∧ List.Forall₂ (Met ctx I) s'.branches (g :: outer) := by
  induction hbranches generalizing store pruned failure with
  | nil => cases h
  | @cons b g branches past hmet hrest ih =>
    have hnoted := hmet.note failure
    have hresumes := resumes_cons ctx found certain store pruned failure b branches
    rw [h] at hresumes
    generalize b.note failure = c at hnoted hresumes
    have hrestored := hback.restore
    have hslots := hback.sameMoment_restore.1
    have hversion : store.version < (store.restore c.snapshot).version := by
      rw [version_restore]
      exact Nat.lt_succ_self _
    rw [← hnoted.snapshot] at hrestored hslots
    generalize hnext : Advance.next s' = advance at hresumes
    cases hresumes with
    | close =>
      obtain ⟨b, a, g', outer, restored, hsuffix, hedits, hlt, hback', henters, hopen⟩ :=
        ih hrestored.commit hnext.symm
      have hedits' : Edits store restored :=
        ReflTransGen.head (.restore c.snapshot) (.head .commit hedits)
      exact ⟨b, a, g', outer, restored, hsuffix.trans (List.suffix_cons g past), hedits',
        hversion.trans hlt, hback', henters, hopen⟩
    | @enter a untried huntried =>
      obtain rfl := Advance.next.inj hnext
      have hoffered : a :: untried <:+ c.point.offer.alternatives := huntried ▸ hnoted.untried
      have hsuffix := (List.suffix_cons a untried).trans hoffered
      exact ⟨_, a, g, past, _, List.suffix_rfl, .single (.restore c.snapshot), hversion,
        hrestored, ⟨rfl, rfl, hoffered.mem List.mem_cons_self, hslots, rfl, rfl⟩,
        .cons ⟨hnoted.snapshot, hsuffix, hnoted.work⟩ hrest⟩

/-! ### The invariant of reached states -/

theorem met_of_failed {failure : Failure} (h : s.path = .failed failure) (past : List Store) :
    s.met ctx past = past := by
  unfold State.met
  rw [h]

theorem met_of_turn {turn : Turn} (h : s.path = .open w) (hturn : w.turn ctx s.store = turn)
    (hother : ∀ point rest, turn ≠ .choose point rest) (past : List Store) :
    s.met ctx past = past := by
  unfold State.met
  rw [h]
  dsimp only
  split
  · rename_i point rest hchoose
    exact absurd (hturn.symm.trans hchoose) (hother point rest)
  · rfl

theorem met_of_choose (h : s.path = .open w) (hturn : w.turn ctx s.store = .choose point rest)
    (past : List Store) : s.met ctx past = s.store.snapshot.2 :: past := by
  unfold State.met
  rw [h]
  dsimp only
  rw [hturn]

/-- A step that looks up nothing but what the store has does so for the goal that it simplifies. -/
theorem simplifyOwns_of_owns (howns : s.owns ctx = true) (hpath : s.path = .open w)
    (hturn : w.turn ctx s.store = .simplify goal rest) :
    simplifyOwns ctx.table s.store goal.relation = true := by
  unfold State.owns at howns
  rw [hpath] at howns
  dsimp only at howns
  rw [hturn] at howns
  exact (Bool.and_eq_true_iff.1 (Bool.and_eq_true_iff.1 howns).2).2

section Step

variable (hI : Preserved ctx I)
include hI

theorem Preserved.of_enters (hdepth : ∀ g outer, g :: outer <:+ past →
    g.openSnapshots = outer.length + 1) (hsuffix : g :: outer <:+ past)
    (hback : restored.LeadsBack (g :: outer)) (henters : Enters b a g restored s')
    (hbranches : List.Forall₂ (Met ctx I) s'.branches (g :: outer)) :
    Stands ctx I s' (g :: outer) := by
  refine ⟨?_, fun g' outer' hsuffix' => hdepth g' outer' (hsuffix'.trans hsuffix), ?_, hbranches⟩
  · rw [henters.store]
    exact LeadsBack.enter hback a b.point.locator b.base
  · intro w hpath
    obtain rfl := Path.open.inj (henters.path.symm.trans hpath)
    rw [henters.store]
    obtain ⟨w, hturn, hw⟩ := (met_innermost hbranches henters.branch rfl).work
    have hturn' := (turn_congr ctx w henters.slots).trans hturn
    exact hI.enter (hI.congr henters.slots.symm hw) hturn' henters.offered

/-- The branch that a path opens is met in the store with the snapshot. -/
theorem Preserved.met_start (hw : I s.store w) (hturn : w.turn ctx s.store = .choose point rest) :
    Met ctx I (.start s.store.snapshot.1 point rest) s.store.snapshot.2 :=
  have hslots : s.store.slots = s.store.snapshot.2.slots := rfl
  ⟨rfl, List.suffix_rfl, w, (turn_congr ctx w hslots).symm.trans hturn, hI.congr hslots hw⟩

/-- Going on from the end of a path keeps the invariant. -/
theorem Preserved.resume {found : List Found} {certain : Option (List Ty)} {pruned : Bool}
    {failure : Option Failure} (hedits : Edits s.store store)
    (hversion : store.version = s.store.version) (hback : store.LeadsBack past')
    (hdepth : ∀ g outer, g :: outer <:+ past' → g.openSnapshots = outer.length + 1)
    (hmet : s.met ctx past = past') (hbranches : List.Forall₂ (Met ctx I) branches past')
    (h : resume ctx found certain store pruned failure branches = .next s') :
    ∃ past'', Onward ctx s past s' past'' ∧ past'' <:+ s.met ctx past ∧
      Stands ctx I s' past'' := by
  obtain ⟨b, a, g, outer, restored, hsuffix, hrestored, hlt, hback', henters, hopen⟩ :=
    resume_next hbranches hback h
  have hsuffix' : g :: outer <:+ s.met ctx past := hmet ▸ hsuffix
  exact ⟨g :: outer, .enter hsuffix' (hedits.trans hrestored) (hversion ▸ hlt) henters, hsuffix',
    hI.of_enters hdepth hsuffix hback' henters hopen⟩

/-- **A step** simplifies a goal or enters an alternative, and keeps what is preserved on a
path. -/
theorem Stands.step (h : Stands ctx I s past) (hgoes : Goes ctx s s') :
    ∃ past', Onward ctx s past s' past' ∧ past' <:+ s.met ctx past ∧ Stands ctx I s' past' := by
  obtain ⟨howns, hstep⟩ := hgoes
  unfold State.step at hstep
  cases hpath : s.path with
  | failed failure =>
    rw [hpath] at hstep
    exact hI.resume .refl rfl h.back h.depth (met_of_failed hpath past) h.branches hstep
  | «open» w =>
    rw [hpath] at hstep
    dsimp only at hstep
    cases hturn : w.turn ctx s.store with
    | fail e =>
      rw [hturn] at hstep
      exact hI.resume .refl rfl h.back h.depth (met_of_turn hpath hturn nofun past) h.branches
        hstep
    | complete =>
      rw [hturn] at hstep
      refine hI.resume .refl rfl h.back h.depth (met_of_turn hpath hturn nofun past) ?_ hstep
      split
      · exact h.branches
      · exact Met.map_solved h.branches
    | choose point rest =>
      rw [hturn] at hstep
      have hdepth : ∀ g outer, g :: outer <:+ s.store.snapshot.2 :: past →
          g.openSnapshots = outer.length + 1 := by
        intro g outer hsuffix
        rcases List.suffix_cons_iff.1 hsuffix with heq | hsuffix
        · obtain ⟨rfl, rfl⟩ := List.cons.inj heq
          exact congrArg (· + 1) h.back.depth
        · exact h.depth g outer hsuffix
      have hmet := hI.met_start (h.path w hpath) hturn
      exact hI.resume (.single .snapshot) rfl h.back.snapshot hdepth
        (met_of_choose hpath hturn past) (.cons hmet h.branches) hstep
    | simplify goal rest =>
      rw [hturn] at hstep
      obtain rfl := Advance.next.inj hstep
      refine ⟨past, .simplify hpath hturn rfl, ?_,
        LeadsBack.pathSimplify h.back ctx goal rest, h.depth, fun w' hw' => ?_, h.branches⟩
      · rw [met_of_turn hpath hturn nofun past]
      have hgoal := simplifyOwns_of_owns howns hpath hturn
      have hsimp : Path.simplify ctx goal rest s.store =
          (.open w', (s.simplify ctx goal rest).store) := Prod.ext hw' rfl
      exact hI.simplify (h.path w hpath) hturn hgoal hsimp

omit hI in
theorem Stands.rtake_met (h : Stands ctx I s' past') (hsuffix : past' <:+ s.met ctx past) :
    (s.met ctx past).rtake s'.branches.length = past' := by
  rw [h.branches.length_eq]
  exact (List.suffix_iff_eq_drop.1 hsuffix).symm

/-- A step leads from a reached state to a reached state. -/
theorem Reached.next (h : Reached ctx start s past) (hstands : Stands ctx I s past)
    (hgoes : Goes ctx s s') :
    ∃ past', Reached ctx start s' past' ∧ Onward ctx s past s' past' ∧ Stands ctx I s' past' := by
  obtain ⟨past', honward, hsuffix, hstands'⟩ := hstands.step hI hgoes
  exact ⟨past', hstands'.rtake_met hsuffix ▸ h.step hgoes, honward, hstands'⟩

/-- **The invariant holds in every state that the search reaches.** -/
theorem Reached.stands (hstart : Stands ctx I start []) (h : Reached ctx start s past) :
    Stands ctx I s past := by
  induction h with
  | start => exact hstart
  | @step s s' past _ hgoes ih =>
    obtain ⟨past', -, hsuffix, hstands⟩ := ih.step hI hgoes
    rw [hstands.rtake_met hsuffix]
    exact hstands

end Step

theorem Onward.edits (h : Onward ctx s past s' past') : Edits s.store s'.store := by
  cases h with
  | simplify _ _ hs' =>
    rw [hs']
    exact edits_pathSimplify ctx _ _
  | enter _ hedits _ henters =>
    rw [henters.store]
    exact hedits.trans (edits_enter _ _ _)

/-- Between two states that the search reaches the store has been edited. -/
theorem Reached.edits (hI : Preserved ctx I) (hstart : Stands ctx I start [])
    (h : Reached ctx start s past) (hgoes : ReflTransGen (Goes ctx) s s') :
    Edits s.store s'.store ∧ ∃ past', Reached ctx start s' past' := by
  induction hgoes with
  | refl => exact ⟨.refl, past, h⟩
  | tail _ hstep ih =>
    obtain ⟨hedits, past', hreached⟩ := ih
    obtain ⟨past'', hreached', honward, -⟩ :=
      hreached.next hI (hreached.stands hI hstart) hstep
    exact ⟨hedits.trans honward.edits, past'', hreached'⟩

end Search

open Search Store

variable {system : System} {s₀ : Store} {I : Store → Work → Prop}

/-- The search starts on a path without choices, in the store with the seeds. -/
theorem stands_start (ctx : Context)
    (hseeds : System.plant (.ofSize system.varCount) system.seeds = .done s₀)
    (hI : I s₀ (Work.pushAll {} system.constraints)) :
    Stands ctx I (system.start s₀) [] := by
  refine ⟨leadsBack_planted hseeds, fun g outer hsuffix => ?_, fun w hw => ?_, .nil⟩
  · cases List.eq_nil_of_suffix_nil hsuffix
  · obtain rfl := Path.open.inj hw
    exact hI

end TypeResolution
