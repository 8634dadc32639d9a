/-
# How the exhaustive search fails

Where no path comes to a good end, the exhaustive search fails in one way (`Search.Fails`): with the
error that a path is blocked at, and at a choice with what the branch makes of the failures of all
its alternatives. The search that goes from path to path by restoring snapshots fails in the same
way if there is no bound on penalties (`solve_exhausts`).

Each open branch is looked at as it was met (`Search.Explored`): the alternatives that have been
entered come first in the order of the offer, and all but the latest have failed. When the latest
one fails, its failure is noted at the branch, and when no alternative is left, the branch has
failed as the path to it does. So however the path goes on from the innermost branch, how it fails
is how the alternative of the branch fails (`Search.Nest`).

Key definitions: `Search.Fails`, `Search.Hopeless`, `Search.Explored`,
`Search.Nest`, `Search.Exhausts`.
Key theorems: `Search.Explored.fails`, `Search.resume_exhausts`, `Search.Exhausts.step`,
`solve_exhausts`.
-/
import TypeResolution.Proofs.Search.Exhaustive
import TypeResolution.Proofs.Search.Forks
import TypeResolution.Proofs.Search.Walks

namespace TypeResolution
namespace Search

open Store

variable {ctx : Context} {s s' t : Store} {w w' rest : Work} {goal : Goal} {f : Failure}
variable {point : BranchPoint} {a : Alternative} {e : TypeError}

/-! ### Failures -/

/-- The exhaustive search from a store and a work comes to no good end, and fails: with what a path
is blocked at, or at a choice with what a branch makes of the failures of its alternatives. -/
inductive Fails (ctx : Context) : Store → Work → Failure → Prop where
  | blocked {s : Store} {w : Work} {e : TypeError} : Blocked ctx s w e →
      Fails ctx s w ⟨e, w.progress⟩
  | simplify {s s' : Store} {w w' rest : Work} {goal : Goal} {f : Failure} :
      w.turn ctx s = .simplify goal rest → Path.simplify ctx goal rest s = (.open w', s') →
      Fails ctx s' w' f → Fails ctx s w f
  | choose {s : Store} {w : Work} {b : Branch} {f : Failure} :
      w.turn ctx s = .choose b.point b.base →
      b.failures.map (·.1) = b.point.offer.alternatives →
      (∀ p ∈ b.failures, Fails ctx (p.1.enter b.point.locator b.base s).2
        (p.1.enter b.point.locator b.base s).1 p.2) →
      b.failure? = some f → Fails ctx s w f

theorem fails_of_failed (hturn : w.turn ctx s = .simplify goal rest)
    (hsimp : Path.simplify ctx goal rest s = (.failed f, s')) : Fails ctx s w f := by
  obtain ⟨hblocked, hprogress⟩ := blocked_of_failed hturn hsimp
  have hfails := Fails.blocked hblocked
  rw [← hprogress] at hfails
  exact hfails

theorem fails_of_fail (hturn : w.turn ctx s = .fail e) : Fails ctx s w ⟨e, w.progress⟩ :=
  .blocked ((blocked_fail hturn).2 rfl)

/-- How the search fails depends on the slots of the store only. -/
theorem Fails.twin (h : Fails ctx s w f) {i j : Nat} (ht : Twin i j s t) : Fails ctx t w f := by
  induction h generalizing t with
  | blocked hblocked => exact .blocked (hblocked.twin ht)
  | @simplify s s' w w' rest goal f hturn hsimp _ ih =>
    rw [turn_congr ctx _ ht.1] at hturn
    obtain ⟨hpath, hstore⟩ := (steady_twin i j).alike_pathSimplify ctx ht goal rest
    rw [hsimp] at hpath hstore
    have hsimp' : Path.simplify ctx goal rest t = (.open w', (Path.simplify ctx goal rest t).2) :=
      Prod.ext hpath.symm rfl
    exact .simplify hturn hsimp' (ih hstore)
  | @choose s w b f hturn hall _ hfailure ih =>
    rw [turn_congr ctx _ ht.1] at hturn
    refine .choose hturn hall (fun p hp => ?_) hfailure
    obtain ⟨hwork, hstore⟩ := alike_enter (steady_twin i j).toParallel ht p.1 b.point.locator b.base
    have hfails := ih p hp hstore
    rw [hwork] at hfails
    exact hfails

theorem fails_enter_congr (h : s.slots = t.slots) {l : Option Locator}
    (hfails : Fails ctx (a.enter l w s).2 (a.enter l w s).1 f) :
    Fails ctx (a.enter l w t).2 (a.enter l w t).1 f := by
  obtain ⟨hwork, hstore⟩ := alike_enter (steady_twin t.version s.version).toParallel
    ⟨h, Nat.add_comm _ _⟩ a l w
  rw [hwork] at hfails
  exact hfails.twin hstore

/-! ### Paths to no good end -/

/-- No path comes to a good end from here, and each choice that is still to be made has an
alternative. -/
structure Hopeless (ctx : Context) (s : Store) (w : Work) : Prop where
  forks : w.Forks True
  leafless : ∀ P f, ¬ Yields ctx s w P f

theorem Hopeless.congr (h : Hopeless ctx s w) (hslots : s.slots = t.slots) : Hopeless ctx t w :=
  ⟨h.forks, fun P f hf => h.leafless P f ((yields_congr hslots).2 hf)⟩

theorem Hopeless.simplify (h : Hopeless ctx s w) (hturn : w.turn ctx s = .simplify goal rest)
    (hsimp : Path.simplify ctx goal rest s = (.open w', s')) : Hopeless ctx s' w' :=
  ⟨h.forks.simplify hturn hsimp, fun P f hf => h.leafless P f ((yields_simplify hturn hsimp).2 hf)⟩

theorem Hopeless.enter (h : Hopeless ctx s w) (hturn : w.turn ctx s = .choose point rest)
    (ha : a ∈ point.offer.alternatives) :
    Hopeless ctx (a.enter point.locator rest s).2 (a.enter point.locator rest s).1 := by
  obtain ⟨i, hi⟩ := List.getElem?_of_mem ha
  exact ⟨h.forks.enter hturn ha, fun P f hf =>
    h.leafless (i :: P) f ((yields_choose hturn).2 ⟨i, a, P, rfl, hi, hf⟩)⟩

theorem Hopeless.turn_ne_complete (h : Hopeless ctx s w) : w.turn ctx s ≠ .complete := fun hturn =>
  h.leafless [] _ ((yields_complete hturn).2 ⟨rfl, rfl⟩)

/-! ### Open branches -/

/-- The branch was met in the store on a hopeless path. The alternatives that have been entered are
the first ones, and each has failed as the exhaustive search does. -/
structure Explored (ctx : Context) (b : Branch) (g : Store) (w : Work) : Prop where
  snapshot : b.snapshot = mark g
  unsolved : b.solved = false
  turn : w.turn ctx g = .choose b.point b.base
  hopeless : Hopeless ctx g w
  order : b.entered.reverse.map (·.1) ++ b.untried = b.point.offer.alternatives
  failed : ∀ p ∈ b.entered, ∃ f, p.2 = some f ∧
    Fails ctx (p.1.enter b.point.locator b.base g).2 (p.1.enter b.point.locator b.base g).1 f

/-- Each open branch was met in its store on the path of the branch around it, and one more of its
alternatives has been entered. The path that is followed from the innermost branch is to fail in
the given way; so is that from the branch around it if this branch fails, and the outermost one is
met on the path of the whole search. -/
inductive Nest (ctx : Context) (outermost : Failure → Prop) :
    List Branch → List Store → (Failure → Prop) → Prop where
  | nil : Nest ctx outermost [] [] outermost
  | cons {b : Branch} {branches : List Branch} {g : Store} {past : List Store} {w : Work}
      {a : Alternative} {untried : List Alternative} {around : Failure → Prop} :
      Nest ctx outermost branches past around → Explored ctx b g w → b.untried = a :: untried →
      (∀ f, Fails ctx g w f → around f) →
      Nest ctx outermost ({ b with untried, entered := (a, none) :: b.entered } :: branches)
        (g :: past)
        (Fails ctx (a.enter b.point.locator b.base g).2 (a.enter b.point.locator b.base g).1)

/-- The path has failed in the given way, or is hopeless and is to fail in this way. -/
def Heads (ctx : Context) (failing : Failure → Prop) : Path → Store → Prop
  | .failed f, _ => failing f
  | .open w, s => Hopeless ctx s w ∧ ∀ f, Fails ctx s w f → failing f

/-- The search has found nothing, and is to fail in the given way. -/
structure Exhausts (ctx : Context) (outermost : Failure → Prop) (s : State) (past : List Store) :
    Prop where
  found : s.found = []
  back : s.store.LeadsBack past
  heads : ∃ failing, Nest ctx outermost s.branches past failing ∧ Heads ctx failing s.path s.store

/-- The search goes on and is to fail in the given way, or has failed so. -/
def Advance.Exhausts (ctx : Context) (outermost : Failure → Prop) : Advance → Prop :=
  Advance.Leads (fun s => ∃ past, Search.Exhausts ctx outermost s past)
    fun answer => ∃ f certain, outermost f ∧ answer = .error ⟨[f.error], certain⟩

section Step

variable {b : Branch} {branches : List Branch} {g store : Store} {past : List Store}
variable {outermost around : Failure → Prop} {pruned : Bool} {certain : Option (List Ty)}
variable {untried : List Alternative}

/-- The failures of a branch all of whose alternatives have failed are in the order in which these
were entered. -/
theorem map_fst_failures (h : ∀ p ∈ b.entered, ∃ f, p.2 = some f) :
    b.failures.map (·.1) = b.entered.reverse.map (·.1) := by
  unfold Branch.failures
  replace h : ∀ p ∈ b.entered.reverse, ∃ f, p.2 = some f := fun p hp => h p (List.mem_reverse.1 hp)
  generalize b.entered.reverse = entered at h ⊢
  induction entered with
  | nil => rfl
  | cons p entered ih =>
    obtain ⟨a, failure⟩ := p
    obtain ⟨⟨f, hf⟩, hrest⟩ := List.forall_mem_cons.1 h
    replace hf : failure = some f := hf
    rw [List.map_cons, ← ih hrest, hf]
    rfl

theorem mem_failures {p : Alternative × Failure} :
    p ∈ b.failures ↔ (p.1, some p.2) ∈ b.entered := by
  unfold Branch.failures
  rw [List.mem_filterMap]
  constructor
  · rintro ⟨⟨a, failure⟩, hmem, heq⟩
    obtain ⟨f, rfl, rfl⟩ := Option.map_eq_some_iff.1 heq
    exact List.mem_reverse.1 hmem
  · intro h
    exact ⟨_, List.mem_reverse.2 h, rfl⟩

/-- A branch without further alternatives fails as the path that it was met on. -/
theorem Explored.fails (h : Explored ctx b g w) (huntried : b.untried = []) :
    ∃ f, b.failure? = some f ∧ Fails ctx g w f := by
  have horder : b.failures.map (·.1) = b.point.offer.alternatives := by
    rw [map_fst_failures fun p hp => (h.failed p hp).imp fun _ hf => hf.1, ← h.order, huntried,
      List.append_nil]
  have hne : b.failures ≠ [] := by
    intro hnil
    rw [hnil] at horder
    exact h.hopeless.forks.alternatives_ne_nil h.turn horder.symm
  obtain ⟨f, hf⟩ := Option.ne_none_iff_exists'.1 (failure?_eq_none_iff.not.2 hne)
  refine ⟨f, hf, .choose h.turn horder (fun p hp => ?_) hf⟩
  obtain ⟨f', heq, hfails⟩ := h.failed _ (mem_failures.1 hp)
  obtain rfl := Option.some.inj heq
  exact hfails

/-- The failure of the alternative that was entered last is noted. -/
theorem Explored.note (h : Explored ctx b g w) (huntried : b.untried = a :: untried)
    (hf : Fails ctx (a.enter b.point.locator b.base g).2
      (a.enter b.point.locator b.base g).1 f) :
    Explored ctx { b with untried, entered := (a, some f) :: b.entered } g w := by
  refine ⟨h.snapshot, h.unsolved, h.turn, h.hopeless, ?_,
    List.forall_mem_cons.2 ⟨⟨f, rfl, hf⟩, h.failed⟩⟩
  rw [← h.order, huntried, List.reverse_cons, List.map_append, List.append_assoc]
  rfl

/-- The next alternative of a branch is entered. -/
theorem Explored.enter (h : Explored ctx b g w) (hnest : Nest ctx outermost branches past around)
    (haround : ∀ f, Fails ctx g w f → around f) (hback : store.LeadsBack (g :: past))
    (hslots : store.slots = g.slots) (huntried : b.untried = a :: untried) :
    Exhausts ctx outermost ⟨(a.enter b.point.locator b.base store).2,
      .open (a.enter b.point.locator b.base store).1,
      { b with untried, entered := (a, none) :: b.entered } :: branches, [], pruned, certain⟩
      (g :: past) := by
  have ha : a ∈ b.point.offer.alternatives := by
    rw [← h.order, huntried]
    exact List.mem_append_right _ List.mem_cons_self
  have hturn : w.turn ctx store = .choose b.point b.base :=
    (turn_congr ctx w hslots).trans h.turn
  exact ⟨rfl, LeadsBack.enter hback a _ _, _, .cons hnest h huntried haround,
    (h.hopeless.congr hslots.symm).enter hturn ha, fun f => fails_enter_congr hslots⟩

variable (hbound : ctx.options.maxPenalty = none)
include hbound

/-- Without a bound, and before a solution is found, a branch is closed only when no alternative is
left. -/
theorem untried_of_closes {pruned' : Bool} (h : Closes ctx [] pruned b pruned') :
    b.untried = [] := by
  cases h with
  | exhausted huntried => exact huntried
  | above _ habove =>
    rw [hbound] at habove
    cases habove
  | worse _ hworse => cases hworse

/-- Going on from a branch all of whose entered alternatives have failed. -/
theorem Explored.resume {advance : Advance} (h : Explored ctx b g w)
    (hnest : Nest ctx outermost branches past around) (haround : ∀ f, Fails ctx g w f → around f)
    (hback : store.LeadsBack (g :: past))
    (hresumes : Resumes ctx [] certain store pruned b branches advance)
    (houter : ∀ {store pruned f}, store.LeadsBack past → around f →
      (Search.resume ctx [] certain store pruned (some f) branches).Exhausts ctx outermost) :
    advance.Exhausts ctx outermost := by
  have hrestored := hback.restore
  have hslots := hback.sameMoment_restore.1
  rw [← h.snapshot] at hrestored hslots
  cases hresumes with
  | close hcloses =>
    obtain ⟨f, hfailure, hfails⟩ := h.fails (untried_of_closes hbound hcloses)
    rw [h.unsolved, hfailure]
    exact houter hrestored.commit (haround f hfails)
  | enter huntried => exact ⟨_, h.enter hnest haround hrestored hslots huntried⟩

/-- **Going on from a failed path**: the search fails as it is to fail, or enters the next
alternative of an open branch. -/
theorem resume_exhausts {failing : Failure → Prop}
    (hnest : Nest ctx outermost branches past failing) (hback : store.LeadsBack past)
    (hf : failing f) :
    (resume ctx [] certain store pruned (some f) branches).Exhausts ctx outermost := by
  induction hnest generalizing store pruned f with
  | nil => exact ⟨f, _, hf, rfl⟩
  | @cons b branches g past w a untried around hnest hexplored huntried haround ih =>
    have hresumes := resumes_cons ctx [] certain store pruned (some f)
      { b with untried, entered := (a, none) :: b.entered } branches
    exact (hexplored.note huntried hf).resume hbound hnest haround hback hresumes ih

variable {s : State}

/-- **A step** changes nothing of how the search is to fail. -/
theorem Exhausts.step (h : Exhausts ctx outermost s past) :
    (s.step ctx).Exhausts ctx outermost := by
  obtain ⟨failing, hnest, hheads⟩ := h.heads
  unfold State.step
  cases hpath : s.path with
  | failed f =>
    rw [hpath] at hheads
    dsimp only [State.fail]
    rw [h.found]
    exact resume_exhausts hbound hnest h.back hheads
  | «open» w =>
    rw [hpath] at hheads
    obtain ⟨hhopeless, hfailing⟩ := hheads
    dsimp only
    cases hturn : w.turn ctx s.store with
    | complete => exact absurd hturn hhopeless.turn_ne_complete
    | fail e =>
      dsimp only [State.fail]
      rw [h.found]
      exact resume_exhausts hbound hnest h.back (hfailing _ (fails_of_fail hturn))
    | simplify goal rest =>
      refine ⟨past, h.found, LeadsBack.pathSimplify h.back ctx goal rest, failing, hnest, ?_⟩
      unfold State.simplify
      rcases hsimp : Path.simplify ctx goal rest s.store with ⟨w' | f, s'⟩
      · exact ⟨hhopeless.simplify hturn hsimp, fun f hf => hfailing f (.simplify hturn hsimp hf)⟩
      · exact hfailing f (fails_of_failed hturn hsimp)
    | choose point rest =>
      dsimp only [State.choose]
      rw [h.found]
      have hslots : s.store.slots = s.store.snapshot.2.slots := rfl
      have hexplored : Explored ctx (.start s.store.snapshot.1 point rest)
          s.store.snapshot.2 w :=
        ⟨rfl, rfl, (turn_congr ctx w hslots).symm.trans hturn, hhopeless.congr hslots, rfl,
          fun p hp => by cases hp⟩
      refine hexplored.resume hbound hnest (fun f hf => hfailing f ?_) h.back.snapshot
        (resumes_cons ctx [] _ _ s.pruned none _ _) fun hback hf =>
          resume_exhausts hbound hnest hback hf
      exact hf.twin (i := s.store.version) (j := s.store.snapshot.2.version)
        ⟨hslots.symm, Nat.add_comm _ _⟩

/-- **A run** fails as it is to fail, unless its steps run out. -/
theorem Exhausts.run (h : Exhausts ctx outermost s past) (steps : Nat) :
    (∃ f certain, outermost f ∧ s.run ctx steps = .error ⟨[f.error], certain⟩) ∨
      ∃ certain, s.run ctx steps =
        .error ⟨[.stopped (.stepLimit ctx.options.maxSteps) none], certain⟩ :=
  State.run_induct (I := fun s => ∃ past, Exhausts ctx outermost s past)
    (fun _ ⟨_, h⟩ => h.step hbound) steps ⟨past, h⟩

end Step
end Search

open Search

variable {table : Table} {options : SolverOptions} {system : System} {s₀ : Store}

/-- **A system without a solution fails as the exhaustive search does**, if there is no bound on
penalties and the steps do not run out. -/
theorem solve_exhausts (hvalid : system.validate = [])
    (hseeds : System.plant (.ofSize system.varCount) system.seeds = .done s₀)
    (hbound : options.maxPenalty = none) (hnone : ∀ P f, ¬ system.leaves table options s₀ P f) :
    (∃ f certain, Fails ⟨table, options, system.varCount⟩ s₀ (Work.pushAll {} system.constraints) f ∧
        solve table options system = .error ⟨[f.error], certain⟩) ∨
      ∃ certain, solve table options system =
        .error ⟨[.stopped (.stepLimit options.maxSteps) none], certain⟩ := by
  have hforks := Work.Forks.start (System.forks_constraints hvalid (.inl trivial))
  have hstart : Exhausts ⟨table, options, system.varCount⟩
      (Fails ⟨table, options, system.varCount⟩ s₀ (Work.pushAll {} system.constraints))
      (system.start s₀) [] :=
    ⟨rfl, leadsBack_planted hseeds, _, .nil, ⟨hforks, hnone⟩, fun _ => id⟩
  rw [System.solve_start hvalid hseeds]
  exact hstart.run hbound options.maxSteps

end TypeResolution
