/-
# Paths without choices

A path on which no choice comes up is followed goal by goal, each taking one step. Here its goals
are plain: equalities, conformances, conversions and size predicates, over types without the
error type. The equalities come first. Each of them leaves a store that is solved by the unifiers
of it and of what is left (`Search.Straight.step_equality`). After the last one the store is only
looked up in, so that a goal that is put aside then stays there, and the path fails
(`Search.Straight.step_late`).

What is left to do has one unifier exactly if no variable stays open at the end, and this can be
said before any goal has been seen to. So a path is decided by the goals that are left on it
(`Search.Decided`), and no step makes a difference to that.

Key definitions: `Relation.Plain`, `Relation.Granted`, `Search.Late`, `Search.Straight`,
`Search.Solves`, `Search.Decided`.
Key theorems: `Search.simplify_late`, `Search.Straight.step_equality`,
`Search.Straight.step_late`, `Search.Straight.run_iff`.
-/
import TypeResolution.Proofs.Search.Turns
import TypeResolution.Proofs.Store.Unifier
import TypeResolution.Search.State

namespace TypeResolution

/-! ### Plain relations -/

namespace Relation

/-- An equality, a conformance, a conversion or a size predicate, without the error type. -/
def Plain : Relation → Prop
  | .equality a b => a.ErrorFree ∧ b.ErrorFree
  | .conformance type _ | .conversion type _ => type.ErrorFree
  | .size _ => True
  | .subtyping .. | .returnBinding .. | .valueMember .. => False

theorem Plain.errorFree {r : Relation} (h : r.Plain) : ∀ t ∈ r.types, t.ErrorFree := by
  cases r with
  | equality a b => exact List.forall_mem_cons.2 ⟨h.1, List.forall_mem_singleton.2 h.2⟩
  | conformance type traits => exact List.forall_mem_singleton.2 h
  | conversion type kind => exact List.forall_mem_singleton.2 h
  | size predicate => exact nofun
  | _ => exact h.elim

/-- Replacing the types of a plain relation leaves one if they have no error type. -/
theorem Plain.mapTypes {r : Relation} (h : r.Plain) {f : Ty → Ty}
    (hf : ∀ t ∈ r.types, (f t).ErrorFree) : (r.mapTypes f).Plain := by
  cases r with
  | equality a b =>
    exact ⟨hf a List.mem_cons_self, hf b (List.mem_cons_of_mem _ List.mem_cons_self)⟩
  | conformance type traits => exact hf type List.mem_cons_self
  | conversion type kind => exact hf type List.mem_cons_self
  | size predicate => trivial
  | _ => exact h.elim

/-- The assignment makes the sides of an equality equal. -/
def Equates (σ : TyVar → Ty) : Relation → Prop
  | .equality a b => a.mapVars σ = b.mapVars σ
  | _ => True

/-- A conformance or a conversion holds for the meaning of its type. -/
def Granted (table : Table) (meaning : Ty → Ty) : Relation → Prop
  | .conformance type traits => ∀ trait ∈ traits.names, table.conforms (meaning type) trait = true
  | .conversion type kind => table.isExpressible (meaning type) kind = true
  | _ => True

variable {table : Table} {f g : Ty → Ty} {r : Relation}

theorem Granted.congr (h : ∀ t ∈ r.types, f t = g t) (hf : r.Granted table f) :
    r.Granted table g := by
  cases r with
  | conformance type traits =>
    intro trait htrait
    rw [← h type List.mem_cons_self]
    exact hf trait htrait
  | conversion type kind =>
    show table.isExpressible (g type) kind = true
    rw [← h type List.mem_cons_self]
    exact hf
  | _ => trivial

/-- What types are replaced with may mean the same. -/
theorem Granted.mapTypes (hf : r.Granted table f) (h : ∀ t ∈ r.types, f (g t) = f t) :
    (r.mapTypes g).Granted table f := by
  have hcomp := hf.congr (g := f ∘ g) fun t ht => (h t ht).symm
  cases r with
  | _ => exact hcomp

end Relation

namespace Search

open Store

variable {ctx : Context} {table : Table} {s s' : Store} {w w' : Work} {goal : Goal}
variable {queue : List Goal} {r : Relation} {l : Option Locator} {σ : TyVar → Ty}

/-! ### Steps of a search without branches -/

/-- The search at the start of a path outside of all branches. -/
def State.start (s : Store) (w : Work) : State := ⟨s, .open w, [], [], false, none⟩

theorem run_failed (ctx : Context) (s : Store) (f : Failure) (n : Nat) :
    ∀ solution, State.run ctx n ⟨s, .failed f, [], [], false, none⟩ ≠ .ok solution := by
  intro solution h
  cases n <;> cases h

/-- A goal that is violated fails the path. -/
theorem pathSimplify_violated {rest : Work} {e : TypeError}
    (h : simplify ctx.table s goal.relation goal.locator = (.violated e, s')) :
    Path.simplify ctx goal rest s = (.failed ⟨e, rest.progress⟩, s') := by
  unfold Path.simplify
  rw [h]

/-- A turn that simplifies a goal is one step. -/
theorem step_of_simplify {rest : Work} {path : Path} (hturn : w.turn ctx s = .simplify goal rest)
    (hsimp : Path.simplify ctx goal rest s = (path, s')) :
    (State.start s w).step ctx = .next ⟨s', path, [], [], false, none⟩ := by
  unfold State.step State.start
  dsimp only
  rw [hturn]
  dsimp only
  unfold State.simplify
  dsimp only
  rw [hsimp]

/-- A path whose next goal fails comes to no solution. -/
theorem run_of_failed {rest : Work} {f : Failure} (hturn : w.turn ctx s = .simplify goal rest)
    (hsimp : Path.simplify ctx goal rest s = (.failed f, s')) (n : Nat) :
    ∀ solution, (State.start s w).run ctx n ≠ .ok solution := by
  intro solution h
  have hstep := step_of_simplify hturn hsimp
  cases n with
  | zero =>
    unfold State.run at h
    rw [hstep] at h
    cases h
  | succ n =>
    unfold State.run at h
    rw [hstep] at h
    exact run_failed ctx s' f n solution h

/-- A goal takes one step. -/
theorem run_of_simplify {rest : Work} (hturn : w.turn ctx s = .simplify goal rest)
    (hsimp : Path.simplify ctx goal rest s = (.open w', s')) (n : Nat) (solution : Solution) :
    (State.start s w).run ctx n = .ok solution ↔
      ∃ m, n = m + 1 ∧ (State.start s' w').run ctx m = .ok solution := by
  have hstep := step_of_simplify hturn hsimp
  cases n with
  | zero =>
    unfold State.run
    rw [hstep]
    refine ⟨fun h => ?_, ?_⟩
    · cases h
    · rintro ⟨m, hm, -⟩
      cases hm
  | succ n =>
    conv => lhs; unfold State.run
    rw [hstep]
    refine ⟨fun h => ⟨n, rfl, h⟩, ?_⟩
    rintro ⟨m, hm, h⟩
    rw [Nat.succ.inj hm]
    exact h

/-- A path that ends is no solution, or the only one. -/
theorem run_of_fail {e : TypeError} (hturn : w.turn ctx s = .fail e) (n : Nat) :
    ∀ solution, (State.start s w).run ctx n ≠ .ok solution := by
  have hstep : (State.start s w).step ctx =
      .done (answer ctx s [] false none (some ⟨e, w.progress⟩)) := by
    unfold State.step State.start
    dsimp only
    rw [hturn]
    rfl
  intro solution h
  cases n <;> (unfold State.run at h; rw [hstep] at h; cases h)

theorem run_of_complete (hturn : w.turn ctx s = .complete) (n : Nat) :
    (State.start s w).run ctx n = .ok (w.toFound ctx s).toSolution := by
  have hstep : (State.start s w).step ctx = .done (.ok (w.toFound ctx s).toSolution) := by
    unfold State.step State.start
    dsimp only
    rw [hturn]
    simp [State.complete, resume, answer, keep, bestPenalty, ofLowestRank, distinct,
      dropAgreeing, Found.rankLe_refl]
  cases n <;> (unfold State.run; rw [hstep])

/-! ### Goals after the equalities -/

/-- Looking a type up does not change its meaning, and finds a variable only where it is unbound. -/
theorem shallow_spec {type : Ty} (hs : s.WellFormed) (hbinds : s.BindsOnly Ty.ErrorFree)
    (ht : s.Covers type) (hfree : type.ErrorFree) :
    ∃ known s', s.shallow type = (known, s') ∧ Tidies s s' ∧ s'.size = s.size ∧
      known ≠ .error ∧ s'.apply known = s.apply type ∧
      ∀ v, known = .var v → ∃ k, s'.slot? v = some (.root k) := by
  have htidy := tidies_shallow hs ht
  refine ⟨(s.shallow type).1, (s.shallow type).2, rfl, htidy, size_shallow type,
    fun heq => ?_, ?_, fun v hv => ?_⟩
  · have hknown := hbinds.shallow Ty.hereditary_errorFree hfree
    rw [heq] at hknown
    exact hknown List.mem_cons_self
  · exact (htidy.apply_eq hs (covers_shallow hs ht)).trans (apply_shallow hs ht)
  · obtain ⟨k, hk⟩ := root_of_shallow hs ht hv
    exact ⟨k, htidy.root_iff.1 hk⟩

/-- What becomes of a goal that is no equality: it is discharged if the meaning of the type grants
it, violated if it does not, and put aside if the type is unbound. -/
inductive Late (table : Table) (s s' : Store) (r : Relation) : Simplified → Prop where
  | granted {entry : Option Entry} : (∀ site c k, entry ≠ some (.choice site c k)) →
      r.Granted table s.apply → Late table s s' r (.discharged [] entry)
  | violated {e : TypeError} : ¬ r.Granted table s.apply → Late table s s' r (.violated e)
  | undecided {v : TyVar} {k : Nat} : s'.slot? v = some (.root k) →
      Late table s s' r (.undecided [v])

theorem late_conformance {type : Ty} (table : Table) (traits : TraitSet) (l : Option Locator)
    (hs : s.WellFormed) (hbinds : s.BindsOnly Ty.ErrorFree) (ht : s.Covers type)
    (hfree : type.ErrorFree) :
    ∃ result s', simplifyConformance table s type traits l = (result, s') ∧ Tidies s s' ∧
      s'.size = s.size ∧ Late table s s' (.conformance type traits) result := by
  obtain ⟨known, s', hshallow, htidy, hsize, hne, happly, hroot⟩ := shallow_spec hs hbinds ht hfree
  unfold simplifyConformance
  rw [hshallow]
  dsimp only
  split
  · obtain ⟨k, hk⟩ := hroot _ rfl
    exact ⟨_, s', rfl, htidy, hsize, .undecided hk⟩
  · exact absurd rfl hne
  · rw [happly]
    split
    · rename_i trait hfind
      refine ⟨_, s', rfl, htidy, hsize, .violated fun hgranted => ?_⟩
      have hnot := List.find?_some hfind
      rw [hgranted trait (List.mem_of_find?_eq_some hfind)] at hnot
      cases hnot
    · rename_i hfind
      refine ⟨_, s', rfl, htidy, hsize, .granted nofun fun trait htrait => ?_⟩
      have hconforms := List.find?_eq_none.1 hfind trait htrait
      rwa [Bool.not_eq_true, Bool.not_eq_false'] at hconforms

theorem late_conversion {type : Ty} (table : Table) (kind : LiteralKind) (l : Option Locator)
    (hs : s.WellFormed) (hbinds : s.BindsOnly Ty.ErrorFree) (ht : s.Covers type)
    (hfree : type.ErrorFree) :
    ∃ result s', simplifyConversion table s type kind l = (result, s') ∧ Tidies s s' ∧
      s'.size = s.size ∧ Late table s s' (.conversion type kind) result := by
  obtain ⟨known, s', hshallow, htidy, hsize, hne, happly, hroot⟩ := shallow_spec hs hbinds ht hfree
  unfold simplifyConversion
  rw [hshallow]
  dsimp only
  split
  · obtain ⟨k, hk⟩ := hroot _ rfl
    exact ⟨_, s', rfl, htidy, hsize, .undecided hk⟩
  · exact absurd rfl hne
  · split
    · rename_i hliteral
      refine ⟨_, s', rfl, htidy, hsize, .granted nofun ?_⟩
      show table.isExpressible (s.apply type) kind = true
      rw [← happly, hliteral]
      exact table.isExpressible_literal kind
    · rw [happly]
      split
      · rename_i hexpressible
        exact ⟨_, s', rfl, htidy, hsize, .granted nofun hexpressible⟩
      · rename_i hexpressible
        exact ⟨_, s', rfl, htidy, hsize, .violated hexpressible⟩

/-- A goal that is no equality looks its type up. -/
theorem simplify_late (table : Table) (l : Option Locator) (hs : s.WellFormed)
    (hbinds : s.BindsOnly Ty.ErrorFree) (hr : ∀ t ∈ r.types, s.Covers t) (hplain : r.Plain)
    (hlate : r.precedence ≠ .equality) :
    ∃ result s', simplify table s r l = (result, s') ∧ Tidies s s' ∧ s'.size = s.size ∧
      Late table s s' r result := by
  cases r with
  | equality a b => exact absurd rfl hlate
  | size predicate => exact ⟨_, s, rfl, .refl s, rfl, .granted nofun trivial⟩
  | conformance type traits =>
    exact late_conformance table traits l hs hbinds (hr type List.mem_cons_self) hplain
  | conversion type kind =>
    exact late_conversion table kind l hs hbinds (hr type List.mem_cons_self) hplain
  | subtyping a b => exact hplain.elim
  | returnBinding a b => exact hplain.elim
  | valueMember base member type site => exact hplain.elim

/-! ### Straight paths -/

/-- A goal that was put aside and waits for an unbound class. -/
structure Stuck (s : Store) (d : Deferred) : Prop where
  plain : d.goal.relation.Plain
  watch : ∃ v k, d.watch = [v] ∧ s.slot? v = some (.root k)

/-- A path of plain goals, the equalities first. No goal is put aside before the last of them. -/
structure Straight (ctx : Context) (s : Store) (w : Work) : Prop where
  wellFormed : s.WellFormed
  size : s.size = ctx.varCount
  errorFree : s.BindsOnly Ty.ErrorFree
  branches : w.branches = []
  plain : ∀ g ∈ w.queue, g.relation.Plain
  covers : ∀ g ∈ w.queue, ∀ t ∈ g.relation.types, s.Covers t
  ordered : w.queue.Pairwise fun a b => a.relation.precedence.rank ≤ b.relation.precedence.rank
  stuck : ∀ d ∈ w.deferred, Stuck s d
  late : w.deferred = [] ∨ ∀ g ∈ w.queue, g.relation.precedence ≠ .equality

/-- The assignment solves the store and the equalities that are left. -/
structure Solves (s : Store) (queue : List Goal) (σ : TyVar → Ty) : Prop where
  store : s.SolvedBy σ
  equates : ∀ g ∈ queue, g.relation.Equates σ

/-- One assignment solves what is left, and it grants all goals. -/
structure Decides (ctx : Context) (s : Store) (queue : List Goal) (σ : TyVar → Ty) : Prop where
  solves : Solves s queue σ
  unique : ∀ τ, Solves s queue τ → ∀ v ∈ ctx.vars, τ v = σ v
  granted : ∀ g ∈ queue, g.relation.Granted ctx.table (Ty.mapVars σ)

/-- No goal was put aside, and what is left has a solution. -/
def Decided (ctx : Context) (s : Store) (w : Work) : Prop :=
  w.deferred = [] ∧ ∃ σ, Decides ctx s w.queue σ

theorem Straight.mem_vars (h : Straight ctx s w) {v : TyVar} : v ∈ ctx.vars ↔ s.Has v := by
  rw [Context.vars, mem_vars_below, Has, h.size]

theorem solves_cons : Solves s (goal :: queue) σ ↔
    (goal.relation.Equates σ ∧ Solves s queue σ) :=
  ⟨fun h => ⟨h.equates goal List.mem_cons_self, h.store, fun g hg =>
      h.equates g (List.mem_cons_of_mem _ hg)⟩,
    fun h => ⟨h.2.store, List.forall_mem_cons.2 ⟨h.1, h.2.equates⟩⟩⟩

theorem equates_of_late (h : r.precedence ≠ .equality) : r.Equates σ := by
  cases r with
  | equality a b => exact absurd rfl h
  | _ => trivial

/-- Nothing that is stuck becomes ready. -/
theorem wake_eq (h : ∀ d ∈ w.deferred, Stuck s d) (hs : s.WellFormed) : w.wake s = w := by
  have hready : ∀ d ∈ w.deferred, d.isReady s = false := by
    intro d hd
    obtain ⟨v, k, hwatch, hv⟩ := (h d hd).watch
    have hroot : s.root v = v := hs.root_eq (.root hv fun _ => by simp)
    simp [Deferred.isReady, hwatch, probe, hroot, content, hv]
  have hnone : w.deferred.filter (·.isReady s) = [] :=
    List.filter_eq_nil_iff.2 fun d hd => by simp [hready d hd]
  have hall : w.deferred.filter (not ∘ (·.isReady s)) = w.deferred :=
    List.filter_eq_self.2 fun d hd => by simp [hready d hd]
  unfold Work.wake
  rw [List.partition_eq_filter_filter]
  rw [hnone, hall]
  rfl

/-- Whether the store was written to or not makes no difference then. -/
theorem goOn_eq {c : Prop} [Decidable c] (h : ∀ d ∈ w.deferred, Stuck s d) (hs : s.WellFormed) :
    (if c then w else w.wake s) = w := by
  rw [wake_eq h hs, ite_self]

theorem Stuck.tidies {d : Deferred} (h : Stuck s d) (htidy : Tidies s s') : Stuck s' d := by
  obtain ⟨v, k, hwatch, hv⟩ := h.watch
  exact ⟨h.plain, v, k, hwatch, htidy.root_iff.1 hv⟩

/-- What is left of a straight path is one, in a store that was moved to. -/
theorem Straight.rest (h : Straight ctx s w) (hqueue : w.queue = goal :: queue)
    (hmoves : Moves s s') (hsize : s'.size = s.size) (hbinds : s'.BindsOnly Ty.ErrorFree)
    (hbranches : w'.branches = w.branches) (hqueue' : w'.queue = queue)
    (hstuck : ∀ d ∈ w'.deferred, Stuck s' d)
    (hlate : w'.deferred = [] ∨ ∀ g ∈ queue, g.relation.precedence ≠ .equality) :
    Straight ctx s' w' := by
  obtain ⟨hs, hcount, -, hnone, hplain, hcovers, hordered, -, -⟩ := h
  rw [hqueue] at hplain hcovers hordered
  rw [← hqueue'] at hplain hcovers hordered hlate
  exact ⟨hmoves.wellFormed hs, hsize.trans hcount, hbinds, hbranches.trans hnone,
    (List.forall_mem_cons.1 hplain).2,
    fun g hg t ht => hmoves.covers ((List.forall_mem_cons.1 hcovers).2 g hg t ht),
    (List.pairwise_cons.1 hordered).2, hstuck, hlate⟩

/-- Discharging a goal that leaves nothing and chooses nothing. -/
theorem discharge_nil {entry : Option Entry} (hentry : ∀ site c k, entry ≠ some (.choice site c k)) :
    (w.discharge [] entry).branches = w.branches ∧ (w.discharge [] entry).queue = w.queue ∧
      (w.discharge [] entry).deferred = w.deferred ∧ (w.discharge [] entry).choices = w.choices := by
  cases entry with
  | none => exact ⟨rfl, rfl, rfl, rfl⟩
  | some e =>
    cases e with
    | choice site c k => exact absurd rfl (hentry site c k)
    | _ => exact ⟨rfl, rfl, rfl, rfl⟩

theorem turn_of_queue (hqueue : w.queue = goal :: queue) :
    w.turn ctx s = .simplify goal { w with queue } := by
  unfold Work.turn
  rw [hqueue]

theorem decides_cons (hsolves : ∀ σ, Solves s (goal :: queue) σ ↔ Solves s' queue σ) :
    Decides ctx s (goal :: queue) σ ↔
      Decides ctx s' queue σ ∧ goal.relation.Granted ctx.table (Ty.mapVars σ) := by
  constructor
  · intro h
    obtain ⟨hgoal, hgranted⟩ := List.forall_mem_cons.1 h.granted
    exact ⟨⟨(hsolves σ).1 h.solves, fun τ hτ => h.unique τ ((hsolves τ).2 hτ), hgranted⟩, hgoal⟩
  · rintro ⟨h, hgoal⟩
    exact ⟨(hsolves σ).2 h.solves, fun τ hτ => h.unique τ ((hsolves τ).1 hτ),
      List.forall_mem_cons.2 ⟨hgoal, h.granted⟩⟩

/-- What a goal comes to on a straight path: the path goes on, and the rest decides it, or it
fails, and was not decided. -/
inductive Straight.Step (ctx : Context) (s : Store) (w : Work) (goal : Goal)
    (queue : List Goal) : Prop where
  | goesOn {w' : Work} {s' : Store} :
      Path.simplify ctx goal { w with queue } s = (.open w', s') → Straight ctx s' w' →
      w'.queue = queue → w'.choices = w.choices → w'.penalty = w.penalty →
      (∀ σ, Solves s (goal :: queue) σ ↔ Solves s' queue σ) →
      (Decided ctx s w ↔ Decided ctx s' w') → Step ctx s w goal queue
  | fails {f : Failure} {s' : Store} :
      Path.simplify ctx goal { w with queue } s = (.failed f, s') → ¬ Decided ctx s w →
      Step ctx s w goal queue

namespace Straight

variable (h : Straight ctx s w) (hqueue : w.queue = goal :: queue)
include h hqueue

theorem goal_plain : goal.relation.Plain := h.plain goal (hqueue ▸ List.mem_cons_self)

theorem goal_covers : ∀ t ∈ goal.relation.types, s.Covers t :=
  h.covers goal (hqueue ▸ List.mem_cons_self)

/-- Nothing has been put aside before an equality. -/
theorem deferred_of_equality (hgoal : goal.relation.precedence = .equality) : w.deferred = [] :=
  h.late.resolve_right fun hne => hne goal (hqueue ▸ List.mem_cons_self) hgoal

/-- **An equality** is discharged if it has a unifier. -/
theorem step_equality {a b : Ty} (hgoal : goal.relation = .equality a b) :
    Step ctx s w goal queue := by
  have hs := h.wellFormed
  have hplain := h.goal_plain hqueue
  have hcovers := h.goal_covers hqueue
  have hdeferred := h.deferred_of_equality hqueue (by rw [hgoal]; rfl)
  rw [hgoal] at hplain hcovers
  have ha := hcovers a List.mem_cons_self
  have hb := hcovers b (List.mem_cons_of_mem _ List.mem_cons_self)
  have hmoves := moves_unify hs ha hb
  have hiff := fun σ => unifier_iff σ hs ha hb h.errorFree hplain.1 hplain.2
  have hsize := (unifies_unify hs ha hb).size_eq
  have hbinds := bindsOnly_unify Ty.hereditary_errorFree h.errorFree hplain.1 hplain.2
  have hsolves : ∀ σ, Solves s (goal :: queue) σ ↔ s.Unifier a b σ ∧
      ∀ g ∈ queue, g.relation.Equates σ := by
    intro σ
    rw [solves_cons, hgoal]
    exact ⟨fun h => ⟨⟨h.2.store, h.1⟩, h.2.equates⟩, fun h => ⟨h.1.equal, h.1.solves, h.2⟩⟩
  rcases hunify : s.unify a b with ⟨s', _ | e⟩
  · rw [hunify] at hmoves hiff hsize hbinds
    have hstuck : ∀ d ∈ w.deferred, Stuck s' d := by
      rw [hdeferred]
      exact List.forall_mem_nil _
    have hsolves' : ∀ σ, Solves s (goal :: queue) σ ↔ Solves s' queue σ := by
      intro σ
      rw [hsolves, hiff]
      exact ⟨fun h => ⟨h.1.2, h.2⟩, fun h => ⟨⟨rfl, h.store⟩, h.equates⟩⟩
    have hopen : Path.simplify ctx goal { w with queue } s =
        (.open { w with queue, progress := w.progress + 1 }, s') := by
      unfold Path.simplify simplify
      rw [hgoal]
      dsimp only
      rw [hunify]
      dsimp only [Simplified.settled]
      rw [goOn_eq (w := Work.discharge { w with queue } [] none) hstuck (hmoves.wellFormed hs)]
      rfl
    refine .goesOn hopen (h.rest hqueue hmoves hsize hbinds rfl rfl hstuck (.inl hdeferred)) rfl
      rfl rfl hsolves' ?_
    unfold Decided
    rw [hqueue]
    refine and_congr_right fun _ => exists_congr fun σ => ?_
    rw [decides_cons hsolves', hgoal]
    exact and_iff_left trivial
  · rw [hunify] at hiff
    have hfail : Path.simplify ctx goal { w with queue } s =
        (.failed ⟨e.toTypeError .equal goal.locator, w.progress⟩, s') := by
      unfold Path.simplify simplify
      rw [hgoal]
      dsimp only
      rw [hunify]
    refine .fails hfail ?_
    rintro ⟨-, σ, hσ⟩
    rw [hqueue] at hσ
    cases ((hiff σ).1 ((hsolves σ).1 hσ.solves).1).1

section Late

variable (hgoal : goal.relation.precedence ≠ .equality)
include hgoal

/-- No equality comes after a goal that is none. -/
theorem late_of_goal : ∀ g ∈ goal :: queue, g.relation.precedence ≠ .equality := by
  have hordered := h.ordered
  rw [hqueue] at hordered
  refine List.forall_mem_cons.2 ⟨hgoal, fun g hg heq => ?_⟩
  have hle := (List.pairwise_cons.1 hordered).1 g hg
  rw [heq] at hle
  revert hgoal hle
  generalize goal.relation.precedence = p
  cases p <;> simp [Precedence.rank]

/-- Only the store is left to solve then. -/
theorem solves_iff : Solves s (goal :: queue) σ ↔ s.SolvedBy σ :=
  ⟨Solves.store, fun hσ => ⟨hσ, fun g hg =>
    equates_of_late (h.late_of_goal hqueue hgoal g hg)⟩⟩

section Tidied

variable (htidy : Tidies s s') (hsize : s'.size = s.size)
include htidy hsize

/-- Looking up in the store makes no difference to that. -/
theorem solves_tidied (σ : TyVar → Ty) : Solves s (goal :: queue) σ ↔ Solves s' queue σ := by
  rw [h.solves_iff hqueue hgoal, ← htidy.solvedBy_iff h.wellFormed hsize]
  exact ⟨fun hσ => ⟨hσ, fun g hg =>
    equates_of_late (h.late_of_goal hqueue hgoal g (List.mem_cons_of_mem _ hg))⟩, Solves.store⟩

/-- What decides the goals tells the meaning of the types of the first one. -/
theorem apply_eq (hσ : Decides ctx s (goal :: queue) σ ∨ Decides ctx s' queue σ) :
    ∀ t ∈ goal.relation.types, s.apply t = t.mapVars σ := by
  refine fun t ht => apply_eq_of_unique h.wellFormed (fun τ hτ v hv => ?_)
    (h.goal_covers hqueue t ht)
  have hv := h.mem_vars.2 hv
  have hτ := (h.solves_iff hqueue hgoal).2 hτ
  rcases hσ with hσ | hσ
  · exact hσ.unique τ hτ v hv
  · exact hσ.unique τ ((h.solves_tidied hqueue hgoal htidy hsize τ).1 hτ) v hv

theorem rest_tidied (hbranches : w'.branches = w.branches) (hqueue' : w'.queue = queue)
    (hstuck : ∀ d ∈ w'.deferred, Stuck s' d) : Straight ctx s' w' :=
  h.rest hqueue htidy.moves hsize (htidy.bindsOnly h.errorFree) hbranches hqueue' hstuck
    (.inr fun g hg => h.late_of_goal hqueue hgoal g (List.mem_cons_of_mem _ hg))

theorem step_granted {entry : Option Entry} (hentry : ∀ site c k, entry ≠ some (.choice site c k))
    (hsimp : simplify ctx.table s goal.relation goal.locator = (.discharged [] entry, s'))
    (hgranted : goal.relation.Granted ctx.table s.apply) : Step ctx s w goal queue := by
  obtain ⟨hbranches, hqueue', hdeferred, hchoices⟩ :=
    discharge_nil (w := { w with queue }) hentry
  have hstuck : ∀ d ∈ (Work.discharge { w with queue } [] entry).deferred, Stuck s' d := by
    rw [hdeferred]
    exact fun d hd => (h.stuck d hd).tidies htidy
  have hopen : Path.simplify ctx goal { w with queue } s =
      (.open (Work.discharge { w with queue } [] entry), s') := by
    unfold Path.simplify
    rw [hsimp]
    dsimp only
    rw [goOn_eq hstuck (htidy.moves.wellFormed h.wellFormed)]
  have hsolves := h.solves_tidied hqueue hgoal htidy hsize
  refine .goesOn hopen (h.rest_tidied hqueue hgoal htidy hsize hbranches hqueue' hstuck) hqueue'
    hchoices (Work.penalty_discharge _ _ _) hsolves ?_
  unfold Decided
  rw [hdeferred, hqueue', hqueue]
  refine and_congr_right fun _ => exists_congr fun σ => ?_
  rw [decides_cons hsolves]
  exact and_iff_left_of_imp fun hσ =>
    hgranted.congr (h.apply_eq hqueue hgoal htidy hsize (.inr hσ))

theorem step_violated {e : TypeError}
    (hsimp : simplify ctx.table s goal.relation goal.locator = (.violated e, s'))
    (hgranted : ¬ goal.relation.Granted ctx.table s.apply) : Step ctx s w goal queue := by
  refine .fails (pathSimplify_violated hsimp) ?_
  rintro ⟨-, σ, hσ⟩
  rw [hqueue] at hσ
  have hmeaning := h.apply_eq hqueue hgoal htidy hsize (.inl hσ)
  exact hgranted ((hσ.granted goal List.mem_cons_self).congr fun t ht => (hmeaning t ht).symm)

theorem step_undecided {v : TyVar} {k : Nat}
    (hsimp : simplify ctx.table s goal.relation goal.locator = (.undecided [v], s'))
    (hv : s'.slot? v = some (.root k)) : Step ctx s w goal queue := by
  have hstuck : ∀ d ∈ (Work.defer { w with queue } goal [v]).deferred, Stuck s' d := by
    intro d hd
    rcases mem_insertBefore.1 hd with rfl | hd
    · exact ⟨h.goal_plain hqueue, v, k, rfl, hv⟩
    · exact (h.stuck d hd).tidies htidy
  have hopen : Path.simplify ctx goal { w with queue } s =
      (.open (Work.defer { w with queue } goal [v]), s') := by
    unfold Path.simplify
    rw [hsimp]
    dsimp only
    rw [goOn_eq hstuck (htidy.moves.wellFormed h.wellFormed)]
  have hsolves := h.solves_tidied hqueue hgoal htidy hsize
  refine .goesOn hopen (h.rest_tidied hqueue hgoal htidy hsize rfl rfl hstuck) rfl rfl rfl hsolves
    (iff_of_false ?_ ?_)
  · -- An unbound variable may stand for a larger type than any that is given.
    rintro ⟨-, σ, hσ⟩
    rw [hqueue] at hσ
    have hv := htidy.root_iff.2 hv
    obtain ⟨τ, hτ, hτv⟩ := exists_solvedBy_eq h.wellFormed hv (.tuple [σ v])
    have heq := hσ.unique τ ((h.solves_iff hqueue hgoal).2 hτ) v (h.mem_vars.2 (has_of_slot? hv))
    rw [hτv] at heq
    have hdepth := Ty.depth_lt_of_mem_children (t := .tuple [σ v]) List.mem_cons_self
    rw [heq] at hdepth
    exact absurd hdepth (Nat.lt_irrefl _)
  · rintro ⟨hnil, -⟩
    exact List.ne_nil_of_mem (mem_insertBefore.2 (.inl rfl)) hnil

end Tidied

/-- **Any other goal** is discharged, or put aside, or violated. -/
theorem step_late : Step ctx s w goal queue := by
  obtain ⟨result, s', hsimp, htidy, hsize, hlate⟩ := simplify_late ctx.table goal.locator
    h.wellFormed h.errorFree (h.goal_covers hqueue) (h.goal_plain hqueue) hgoal
  cases hlate with
  | granted hentry hgranted =>
    exact h.step_granted hqueue hgoal htidy hsize hentry hsimp hgranted
  | violated hgranted => exact h.step_violated hqueue hgoal htidy hsize hsimp hgranted
  | undecided hv => exact h.step_undecided hqueue hgoal htidy hsize hsimp hv

end Late

theorem step : Step ctx s w goal queue := by
  by_cases hgoal : goal.relation.precedence = .equality
  · obtain ⟨a, b, hab⟩ : ∃ a b, goal.relation = .equality a b := by
      revert hgoal
      cases goal.relation with
      | equality a b => exact fun _ => ⟨a, b, rfl⟩
      | _ => exact nofun
    exact h.step_equality hqueue hab
  · exact h.step_late hqueue hgoal

end Straight

/-! ### The end of a straight path -/

theorem weaken_plain {ds : List Deferred} (h : ∀ d ∈ ds, d.goal.relation.Plain) :
    weaken s ds = none := by
  induction ds with
  | nil => rfl
  | cons d ds ih =>
    obtain ⟨hd, hds⟩ := List.forall_mem_cons.1 h
    unfold weaken
    rw [ih hds]
    split
    · rename_i hr
      rw [hr] at hd
      exact hd.elim
    · rename_i hr
      rw [hr] at hd
      exact hd.elim
    · rfl

/-- Nothing is assumed at the end of a straight path. -/
theorem Straight.turn_nil (h : Straight ctx s w) (hoff : ctx.options.literalDefaulting = false)
    (hqueue : w.queue = []) : w.turn ctx s =
      match incomplete ctx s w.deferred with
      | some e => .fail e
      | none => .complete := by
  unfold Work.turn
  rw [hqueue, h.branches]
  dsimp only
  unfold Work.assume
  rw [weaken_plain fun d hd => (h.stuck d hd).plain, hoff]
  rfl

theorem Straight.decided_nil (h : Straight ctx s w) (hqueue : w.queue = []) :
    Decided ctx s w ↔ incomplete ctx s w.deferred = none := by
  have hground := ground_iff h.wellFormed
  simp only [← h.mem_vars] at hground
  rw [incomplete_eq_none_iff, hground, Decided, hqueue]
  refine and_congr_right fun _ => exists_congr fun σ => ⟨fun hσ => ?_, fun ⟨hσ, hunique⟩ => ?_⟩
  · exact ⟨hσ.solves.store, fun τ hτ => hσ.unique τ ⟨hτ, nofun⟩⟩
  · exact ⟨⟨hσ, nofun⟩, fun τ hτ => hunique τ hτ.store, nofun⟩

/-- **A straight path leads to a solution** exactly if there are enough steps for its goals and
they are decided. The solution is what solves them, and has chosen nothing on this path. -/
theorem Straight.run_iff (hoff : ctx.options.literalDefaulting = false) :
    ∀ (queue : List Goal) (n : Nat) {s : Store} {w : Work}, Straight ctx s w → w.queue = queue →
      ((∃ solution, (State.start s w).run ctx n = .ok solution) ↔
        queue.length ≤ n ∧ Decided ctx s w) ∧
      ∀ solution, (State.start s w).run ctx n = .ok solution →
        (∀ σ, Solves s queue σ → solution.types = ctx.vars.map σ) ∧
          solution.references = w.choices.map (fun (site, c) => (site, c.decl)) ∧
          solution.penalty = w.penalty
  | [], n, s, w, h, hqueue => by
    have hturn := h.turn_nil hoff hqueue
    rw [h.decided_nil hqueue]
    cases hincomplete : incomplete ctx s w.deferred with
    | some e =>
      rw [hincomplete] at hturn
      have hfail := run_of_fail hturn n
      exact ⟨⟨fun ⟨solution, hrun⟩ => absurd hrun (hfail solution), fun h => nomatch h.2⟩,
        fun solution hrun => absurd hrun (hfail solution)⟩
    | none =>
      rw [hincomplete] at hturn
      have hrun := run_of_complete hturn n
      rw [hrun]
      refine ⟨⟨fun _ => ⟨Nat.zero_le _, rfl⟩, fun _ => ⟨_, rfl⟩⟩, ?_⟩
      rintro _ ⟨⟩
      refine ⟨fun σ hσ => List.map_congr_left fun v hv => ?_, rfl, rfl⟩
      have hground := (incomplete_eq_none_iff.1 hincomplete).2 v hv
      have happly := hσ.store.apply h.wellFormed (covers_var.2 (h.mem_vars.1 hv))
      rw [Ty.mapVars_eq_self hground] at happly
      exact happly
  | goal :: queue, n, s, w, h, hqueue => by
    have hturn : w.turn ctx s = .simplify goal { w with queue } := turn_of_queue hqueue
    cases h.step hqueue with
    | fails hsimp hnot =>
      have hfail := run_of_failed hturn hsimp n
      exact ⟨⟨fun ⟨solution, hrun⟩ => absurd hrun (hfail solution), fun h => absurd h.2 hnot⟩,
        fun solution hrun => absurd hrun (hfail solution)⟩
    | @goesOn w' s' hsimp h' hqueue' hchoices hpenalty hsolves hdecided =>
      have ih := fun m => Straight.run_iff hoff queue m h' hqueue'
      simp only [run_of_simplify hturn hsimp n]
      refine ⟨⟨?_, ?_⟩, ?_⟩
      · rintro ⟨solution, m, rfl, hrun⟩
        obtain ⟨hlength, hdecided'⟩ := (ih m).1.1 ⟨solution, hrun⟩
        exact ⟨Nat.succ_le_succ hlength, hdecided.2 hdecided'⟩
      · rintro ⟨hlength, hdecided'⟩
        obtain ⟨m, rfl⟩ : ∃ m, n = m + 1 := ⟨n - 1, by rw [List.length_cons] at hlength; omega⟩
        obtain ⟨solution, hrun⟩ :=
          (ih m).1.2 ⟨Nat.le_of_succ_le_succ hlength, hdecided.1 hdecided'⟩
        exact ⟨solution, m, rfl, hrun⟩
      · rintro solution ⟨m, rfl, hrun⟩
        obtain ⟨htypes, hreferences, hpenalty'⟩ := (ih m).2 solution hrun
        rw [hchoices] at hreferences
        exact ⟨fun σ hσ => htypes σ ((hsolves σ).1 hσ), hreferences, hpenalty'.trans hpenalty⟩

/-! ### The start of the search -/

theorem pairwise_insertBefore {items : List Goal}
    (h : items.Pairwise fun a b => a.relation.precedence.rank ≤ b.relation.precedence.rank) :
    (insertBefore Goal.before goal items).Pairwise fun a b =>
      a.relation.precedence.rank ≤ b.relation.precedence.rank := by
  induction items with
  | nil => exact List.pairwise_singleton _ _
  | cons a items ih =>
    obtain ⟨ha, hitems⟩ := List.pairwise_cons.1 h
    unfold insertBefore
    split
    · rename_i hlt
      have hle : goal.relation.precedence.rank ≤ a.relation.precedence.rank := by
        simp only [Goal.before, Bool.or_eq_true, Bool.and_eq_true, decide_eq_true_eq,
          beq_iff_eq] at hlt
        omega
      refine List.pairwise_cons.2 ⟨fun b hb => ?_, h⟩
      rcases List.mem_cons.1 hb with rfl | hb
      · exact hle
      · exact Nat.le_trans hle (ha b hb)
    · rename_i hlt
      refine List.pairwise_cons.2 ⟨fun b hb => ?_, ih hitems⟩
      rcases mem_insertBefore.1 hb with rfl | hb
      · simp only [Goal.before, Bool.or_eq_true, Bool.and_eq_true, decide_eq_true_eq,
          beq_iff_eq] at hlt
        omega
      · exact ha b hb

/-- Relations come into the queue, in the order of their precedences. -/
theorem pushAll_relations : ∀ {cs : List Constraint} {w : Work},
    (∀ c ∈ cs, ∃ r l, c = .relation r l) →
    (w.queue.Pairwise fun a b => a.relation.precedence.rank ≤ b.relation.precedence.rank) →
    (w.pushAll cs).branches = w.branches ∧ (w.pushAll cs).deferred = w.deferred ∧
      (w.pushAll cs).queue.Pairwise fun a b =>
        a.relation.precedence.rank ≤ b.relation.precedence.rank
  | [], w, _, h => ⟨rfl, rfl, h⟩
  | c :: cs, w, hcs, h => by
    obtain ⟨⟨r, l, rfl⟩, hrest⟩ := List.forall_mem_cons.1 hcs
    exact pushAll_relations (w := w.push (.relation r l)) hrest (pairwise_insertBefore h)

end Search
end TypeResolution
