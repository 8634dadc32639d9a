/-
# Searches without choices and without variables

On a path of closed goals nothing waits and nothing is chosen. Its first goal is settled at once:
the path fails, and then the goals could not pass together, or it goes on with goals that take fewer
steps and pass with the ones before them (`Search.Settling.step`). By induction on the steps that
are left, goals that can pass are solved unless the steps run out
(`Search.Settling.run_of_passable`), and goals that are solved can pass, where the error type is
nowhere (`Search.Settling.passable_of_run`). For a subtyping alone this says that it is solved
exactly if its types fit.

Key definitions: `Search.Settling`, `Search.Passable`, `Search.effort`, `Search.State.alone`.
Key theorems: `Search.Settling.step`, `Search.Settling.run_of_passable`,
`Search.Settling.passable_of_run`, `Search.run_alone_of_fits`, `Search.fits_of_run_alone`.
-/
import TypeResolution.Proofs.Search.Cutoff
import TypeResolution.Proofs.Search.Ground

namespace TypeResolution
namespace Search

variable {ctx : Context} {table : Table} {s : Store} {w : Work} {goal : Goal} {queue : List Goal}
variable {r : Relation} {rs : List Relation} {children : List Constraint}

/-! ### Paths of closed goals -/

/-- A path whose goals are closed, without choices and without goals that were put aside. -/
structure Settling (s : Store) (w : Work) : Prop where
  wellFormed : s.WellFormed
  branches : w.branches = []
  deferred : w.deferred = []
  closed : ∀ g ∈ w.queue, g.relation.Closed s

/-- There are types for the variables with which all goals pass. -/
def Passable (table : Table) (s : Store) (queue : List Goal) : Prop :=
  ∃ σ, s.SolvedBy σ ∧ ∀ g ∈ queue, g.relation.Passes table σ

/-- The number of steps that the goals take at most, with all that they come down to. -/
def effort (queue : List Goal) : Nat := (queue.map fun g => g.relation.cost).sum

theorem effort_cons (goal : Goal) (queue : List Goal) :
    effort (goal :: queue) = goal.relation.cost + effort queue := by
  rw [effort, List.map_cons, List.sum_cons, effort]

/-- Relations come into the queue. -/
theorem pushAll_relates (h : Relates children rs) : ∀ w : Work,
    (w.pushAll children).branches = w.branches ∧ (w.pushAll children).deferred = w.deferred ∧
      ((w.pushAll children).queue.map Goal.relation).Perm (rs ++ w.queue.map Goal.relation) := by
  induction h with
  | nil => exact fun w => ⟨rfl, rfl, .refl _⟩
  | @cons c r children rs hc _ ih =>
    intro w
    obtain ⟨l, rfl⟩ := hc
    obtain ⟨hbranches, hdeferred, hqueue⟩ := ih (w.push (.relation r l))
    have hfirst := (perm_insertBefore Goal.before ⟨w.nextOrdinal, r, l⟩ w.queue).map Goal.relation
    exact ⟨hbranches, hdeferred, hqueue.trans ((hfirst.append_left rs).trans List.perm_middle)⟩

theorem discharge_relates (h : Relates children rs) (entry : Option Entry) (w : Work) :
    (w.discharge children entry).branches = w.branches ∧
      (w.discharge children entry).deferred = w.deferred ∧
      ((w.discharge children entry).queue.map Goal.relation).Perm
        (rs ++ w.queue.map Goal.relation) := by
  cases entry with
  | none => exact pushAll_relates h _
  | some e => cases e <;> exact pushAll_relates h _

/-- What holds of all goals then holds of the new relations and of the old goals. -/
theorem forall_discharge (h : Relates children rs) (entry : Option Entry) (w : Work)
    (P : Relation → Prop) : (∀ g ∈ (w.discharge children entry).queue, P g.relation) ↔
      (∀ r ∈ rs, P r) ∧ ∀ g ∈ w.queue, P g.relation := by
  obtain ⟨-, -, hperm⟩ := discharge_relates h entry w
  calc _ ↔ ∀ r ∈ (w.discharge children entry).queue.map Goal.relation, P r :=
        List.forall_mem_map.symm
    _ ↔ ∀ r ∈ rs ++ w.queue.map Goal.relation, P r :=
        forall_congr' fun r => imp_congr_left hperm.mem_iff
    _ ↔ _ := List.forall_mem_append.trans (and_congr_right' List.forall_mem_map)

theorem effort_discharge (h : Relates children rs) {entry : Option Entry} {w : Work} :
    effort (w.discharge children entry).queue = (rs.map Relation.cost).sum + effort w.queue := by
  have heffort : ∀ queue, effort queue = ((queue.map Goal.relation).map Relation.cost).sum := by
    intro queue
    rw [effort, List.map_map]
    rfl
  obtain ⟨-, -, hperm⟩ := discharge_relates h entry w
  rw [heffort, heffort, (hperm.map Relation.cost).sum_eq, List.map_append, List.sum_append]

/-- Nothing is woken where no goal was put aside. -/
theorem pathSimplify_discharged {entry : Option Entry} {s' : Store} (h : Relates children rs)
    (rest : Work) (hdeferred : rest.deferred = []) (hs' : s'.WellFormed)
    (hsimp : simplify ctx.table s goal.relation goal.locator =
      (.discharged children entry, s')) :
    Path.simplify ctx goal rest s = (.open (rest.discharge children entry), s') := by
  have hnone : (rest.discharge children entry).deferred = [] :=
    (discharge_relates h entry rest).2.1.trans hdeferred
  unfold Path.simplify
  rw [hsimp]
  dsimp only
  rw [goOn_eq (by rw [hnone]; exact nofun) hs']

/-- What follows on the first goal of a path of closed goals: the path fails, and the goals could
not pass, or it goes on with less to do, and with goals that can pass as the old ones can. -/
inductive Settling.Step (ctx : Context) (s : Store) (w : Work) (goal : Goal)
    (queue : List Goal) : Prop where
  | goesOn {w' : Work} {s' : Store} :
      Path.simplify ctx goal { w with queue } s = (.open w', s') → Settling s' w' →
      effort w'.queue < effort w.queue →
      (Passable ctx.table s w.queue → Passable ctx.table s' w'.queue) →
      (ctx.table.LeavesIn (· ≠ .error) → Confined (· ≠ .error) s w →
        Passable ctx.table s' w'.queue → Passable ctx.table s w.queue) → Step ctx s w goal queue
  | fails {f : Failure} {s' : Store} :
      Path.simplify ctx goal { w with queue } s = (.failed f, s') →
      ¬ Passable ctx.table s w.queue → Step ctx s w goal queue

theorem errorFree_of_leavesIn (h : r.LeavesIn (· ≠ .error)) : ∀ t ∈ r.types, t.ErrorFree := by
  have hfree : ∀ {t : Ty}, t.LeavesIn (· ≠ .error) → t.ErrorFree :=
    fun ht => ht.errorFree fun h => h rfl
  have hliteral : ∀ {t : Ty}, t.LiteralOrIn (· ≠ .error) → t.ErrorFree := by
    rintro t (⟨kind, rfl⟩ | ht)
    · exact fun hmem => nomatch List.mem_singleton.1 hmem
    · exact hfree ht
  cases r with
  | equality a b => exact forall_mem_pair (hfree h.1) (hfree h.2)
  | subtyping a b => exact forall_mem_pair (hliteral h.1) (hfree h.2)
  | returnBinding a b => exact forall_mem_pair (hliteral h.1) (hfree h.2)
  | conformance type traits => exact List.forall_mem_singleton.2 (hliteral h)
  | conversion type kind => exact List.forall_mem_singleton.2 (hfree h)
  | valueMember base member type site => exact forall_mem_pair (hfree h.1) (hfree h.2)
  | size predicate => exact nofun

theorem Settling.step (hnominal : ctx.table.Nominal) (hacyclic : ctx.table.Acyclic)
    (h : Settling s w) (hqueue : w.queue = goal :: queue)
    (hdecided : ctx.table.Ground ∨ Passable ctx.table s w.queue) :
    Settling.Step ctx s w goal queue := by
  have hs := h.wellFormed
  have hclosed := h.closed
  rw [hqueue] at hclosed
  obtain ⟨hgoal, hrest⟩ := List.forall_mem_cons.1 hclosed
  have hconcludes : Concludes ctx.table s goal.relation
      (simplify ctx.table s goal.relation goal.locator) := by
    refine concludes_simplify hnominal hacyclic hs hgoal (hdecided.imp_right ?_)
    rintro ⟨σ, -, hpasses⟩
    exact ⟨σ, hpasses goal (hqueue ▸ List.mem_cons_self)⟩
  rcases hsimp : simplify ctx.table s goal.relation goal.locator with ⟨result, s'⟩
  rw [hsimp] at hconcludes
  cases hconcludes with
  | violated hnot =>
    refine .fails (pathSimplify_violated hsimp) ?_
    rintro ⟨σ, hσ, hpasses⟩
    exact hnot σ hσ (hpasses goal (hqueue ▸ List.mem_cons_self))
  | @discharged children entry _ rs hrelates hreplaces =>
    have hs' := hreplaces.moves.wellFormed hs
    obtain ⟨hbranches, hdeferred, -⟩ := discharge_relates hrelates entry { w with queue }
    have hall := fun P => forall_discharge hrelates entry { w with queue } P
    have hopen := pathSimplify_discharged hrelates { w with queue } h.deferred hs' hsimp
    refine .goesOn hopen ⟨hs', hbranches.trans h.branches, hdeferred.trans h.deferred, ?_⟩ ?_ ?_ ?_
    · exact (hall _).2 ⟨hreplaces.closed, fun g hg => (hrest g hg).moves hreplaces.moves⟩
    · rw [effort_discharge hrelates, hqueue, effort_cons]
      exact Nat.add_lt_add_right hreplaces.cost _
    · rw [hqueue]
      rintro ⟨σ, hσ, hpasses⟩
      obtain ⟨hfirst, hothers⟩ := List.forall_mem_cons.1 hpasses
      obtain ⟨τ, hτ, hkeeps, hnew⟩ := hreplaces.passes σ hσ hfirst
      exact ⟨τ, hτ, (hall _).2 ⟨hnew, fun g hg => (hothers g hg).congr (hrest g hg) hkeeps⟩⟩
    · intro htable hconfined
      rintro ⟨τ, hτ, hpasses⟩
      obtain ⟨hnew, hothers⟩ := (hall _).1 hpasses
      have hleaves := (hconfined.turn (fun _ => nofun) htable (turn_of_queue hqueue)).1
      rw [hqueue]
      refine ⟨τ, hreplaces.moves.solved hτ, List.forall_mem_cons.2 ⟨?_, hothers⟩⟩
      exact hreplaces.passed htable
        (fun v t ht => (hconfined.binds v t ht).errorFree fun h => h rfl)
        (errorFree_of_leavesIn hleaves) τ hτ hnew

/-! ### Runs without variables -/

/-- A path on which nothing is left to do is complete if the system has no variables. -/
theorem Settling.turn_nil (h : Settling s w) (hvars : ctx.varCount = 0) (hqueue : w.queue = []) :
    w.turn ctx s = .complete := by
  have hnone : incomplete ctx s w.deferred = none := by
    refine incomplete_eq_none_iff.2 ⟨h.deferred, fun v hv => ?_⟩
    rw [Context.vars, hvars] at hv
    cases hv
  unfold Work.turn
  rw [hqueue, h.branches]
  dsimp only
  unfold Work.assume
  rw [hnone, h.deferred]
  dsimp only [weaken, defaultLiteral]
  rw [ite_self]

section Runs

variable (hnominal : ctx.table.Nominal) (hacyclic : ctx.table.Acyclic)
include hnominal hacyclic

/-- **Goals that can pass are solved**, unless there are too few steps for them. -/
theorem Settling.run_of_passable (hvars : ctx.varCount = 0) : ∀ (n : Nat) {s : Store} {w : Work},
    Settling s w → Passable ctx.table s w.queue →
    (∃ solution, (State.start s w).run ctx n = .ok solution) ∨
      n < effort w.queue ∧ CutOff ctx.options.maxSteps (some ((State.start s w).run ctx n)) := by
  intro n
  induction n with
  | zero =>
    intro s w h hpasses
    cases hqueue : w.queue with
    | nil => exact .inl ⟨_, run_of_complete (h.turn_nil hvars hqueue) 0⟩
    | cons goal queue =>
      refine .inr ⟨Nat.add_pos_left goal.relation.cost_pos _, ?_⟩
      unfold State.run
      rw [step_of_simplify (turn_of_queue hqueue) rfl]
      exact ⟨_, rfl⟩
  | succ n ih =>
    intro s w h hpasses
    cases hqueue : w.queue with
    | nil => exact .inl ⟨_, run_of_complete (h.turn_nil hvars hqueue) _⟩
    | cons goal queue =>
      cases h.step hnominal hacyclic hqueue (.inr hpasses) with
      | fails _ hnot => exact absurd hpasses hnot
      | goesOn hopen h' heffort hgoesOn _ =>
        rw [hqueue] at heffort
        unfold State.run
        rw [step_of_simplify (turn_of_queue hqueue) hopen]
        refine (ih h' (hgoesOn hpasses)).imp_right fun hstop => ⟨?_, hstop.2⟩
        have hn := hstop.1
        omega

/-- **What is solved can pass**, where the error type is nowhere. -/
theorem Settling.passable_of_run (hground : ctx.table.Ground)
    (htable : ctx.table.LeavesIn (· ≠ .error)) : ∀ (n : Nat) {s : Store} {w : Work}
    {solution : Solution}, Settling s w → Confined (· ≠ .error) s w →
    (State.start s w).run ctx n = .ok solution → Passable ctx.table s w.queue := by
  have hvar : ∀ v, Ty.var v ≠ .error := fun v h => by cases h
  intro n
  induction n with
  | zero =>
    intro s w solution h hconfined hrun
    cases hqueue : w.queue with
    | nil => exact ⟨_, h.wellFormed.solved, fun _ hg => by cases hg⟩
    | cons goal queue =>
      unfold State.run at hrun
      rw [step_of_simplify (turn_of_queue hqueue) rfl] at hrun
      cases hrun
  | succ n ih =>
    intro s w solution h hconfined hrun
    cases hqueue : w.queue with
    | nil => exact ⟨_, h.wellFormed.solved, fun _ hg => by cases hg⟩
    | cons goal queue =>
      have hturn : w.turn ctx s = .simplify goal { w with queue } := turn_of_queue hqueue
      rw [← hqueue]
      cases h.step hnominal hacyclic hqueue (.inl hground) with
      | fails hfail _ => exact absurd hrun (run_of_failed hturn hfail _ solution)
      | goesOn hopen h' _ _ hback =>
        unfold State.run at hrun
        rw [step_of_simplify hturn hopen] at hrun
        exact hback htable hconfined
          (ih h' (hconfined.simplify hvar htable hturn hopen) hrun)

end Runs

/-! ### A single goal -/

/-- The search for a relation alone, without variables. -/
def State.alone (r : Relation) (l : Option Locator) : State :=
  .start (.ofSize 0) (Work.pushAll {} [.relation r l])

variable {a b : Ty} {fit : Fit} {l : Option Locator}

theorem settling_alone (h : r.Closed (.ofSize 0)) :
    Settling (.ofSize 0) (Work.pushAll {} [.relation r l]) :=
  ⟨Store.wellFormed_ofSize 0, rfl, rfl, List.forall_mem_singleton.2 h⟩

theorem passable_alone (fit : Fit) (l : Option Locator) : Passable table (.ofSize 0)
    (Work.pushAll {} [.relation (fitting fit a b) l]).queue ↔ table.Fits a b := by
  refine ⟨?_, fun h => ⟨fun _ => .error, Store.solvedBy_ofSize 0 _, ?_⟩⟩
  · rintro ⟨σ, -, hpasses⟩
    exact passes_fitting.1 (hpasses ⟨0, fitting fit a b, l⟩ List.mem_cons_self)
  · exact List.forall_mem_singleton.2 (passes_fitting.2 h)

section Alone

variable (ctx) (hnominal : ctx.table.Nominal) (hacyclic : ctx.table.Acyclic)
variable (ha : a.vars = []) (hb : b.vars = [])
include hnominal hacyclic ha hb

/-- A subtyping between types that fit is solved, unless there are too few steps. -/
theorem run_alone_of_fits (hvars : ctx.varCount = 0) (h : ctx.table.Fits a b)
    (fit : Fit) (l : Option Locator) (n : Nat) :
    (∃ solution, (State.alone (fitting fit a b) l).run ctx n = .ok solution) ∨
      n < a.size + b.size ∧
        CutOff ctx.options.maxSteps (some ((State.alone (fitting fit a b) l).run ctx n)) := by
  have hstart : Settling (.ofSize 0) (Work.pushAll {} [.relation (fitting fit a b) l]) :=
    settling_alone (closed_fitting ha hb)
  have hrun := hstart.run_of_passable hnominal hacyclic hvars n ((passable_alone fit l).2 h)
  have heffort : effort (Work.pushAll {} [.relation (fitting fit a b) l]).queue =
      a.size + b.size := cost_fitting
  rwa [heffort] at hrun

/-- Types between which a subtyping is solved fit. -/
theorem fits_of_run_alone (hground : ctx.table.Ground) (htable : ctx.table.LeavesIn (· ≠ .error))
    (hfa : a.ErrorFree) (hfb : b.ErrorFree) {n : Nat} {solution : Solution}
    (h : (State.alone (fitting fit a b) l).run ctx n = .ok solution) : ctx.table.Fits a b := by
  have hleaves : (fitting fit a b).LeavesIn (· ≠ .error) :=
    leavesIn_fitting (.inr fun _ hl heq => hfa (heq ▸ hl)) fun _ hl heq => hfb (heq ▸ hl)
  have hconfined : Confined (· ≠ .error) (.ofSize 0)
      (Work.pushAll {} [.relation (fitting fit a b) l]) := by
    refine ⟨Store.bindsOnly_ofSize 0 _, fun c hc => ?_⟩
    rw [(Work.pending_start _).mem_iff, List.mem_singleton] at hc
    exact hc ▸ .relation hleaves
  exact (passable_alone fit l).1 ((settling_alone (closed_fitting ha hb)).passable_of_run hnominal
    hacyclic hground htable n hconfined h)

end Alone

end Search
end TypeResolution
