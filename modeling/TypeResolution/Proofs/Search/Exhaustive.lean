/-
# The search finds what the exhaustive search finds

The search that goes from one path to the next by restoring snapshots, and leaves out what is
penalised too much, is compared with the exhaustive search from the same start. Between two
steps it is at some place in the tree of choices (`Search.Tracks`): the branches that are open
lie on the way to this place, each with the moment to which its snapshot leads back, and what is
kept are exactly the best of the leaves before the place. A step goes on to a later place, and
all that it passes over on the way is a leaf that is kept as it deserves, is penalised more than
a leaf that is known, or is above the bound.

When no branch is open any more, every leaf has been passed, and the answer is made of the best of
them (`Search.AnswersBest`), which settles it.

Key definitions: `Search.Admitted`, `Search.Stack`, `Search.Tracks`, `Search.AnswersBest`.
Key theorems: `Search.resume_spec`, `Search.Tracks.step`, `Search.Tracks.run`,
`solve_answersBest`, `solve_exhaustive`.
-/
import Mathlib.Data.List.Permutation
import TypeResolution.Proofs.Search.Failures
import TypeResolution.Proofs.Store.Edits
import TypeResolution.Proofs.Validation

namespace TypeResolution
namespace Search

open Store

/-! ### The way back from a search step -/

theorem steady_leadsBack (past : List Store) : Steady (fun s t => s = t ∧ s.LeadsBack past) :=
  steady_of_closed (fun _ h => h.write) fun _ h => h.fresh

section Steps

variable {s : Store} {past : List Store}

theorem LeadsBack.pathSimplify (h : s.LeadsBack past) (ctx : Context) (goal : Goal) (rest : Work) :
    (Path.simplify ctx goal rest s).2.LeadsBack past :=
  ((steady_leadsBack past).alike_pathSimplify ctx ⟨rfl, h⟩ goal rest).2.2

theorem LeadsBack.enter (h : s.LeadsBack past) (a : Alternative) (l : Option Locator) (w : Work) :
    (a.enter l w s).2.LeadsBack past :=
  (alike_enter (steady_leadsBack past).toParallel ⟨rfl, h⟩ a l w).2.2

theorem LeadsBack.bind (h : s.LeadsBack past) (v : TyVar) (t : Ty) :
    (s.bind v t).store.LeadsBack past :=
  ((steady_leadsBack past).toParallel.bind ⟨rfl, h⟩ v t).2.2

theorem LeadsBack.plant : ∀ (seeds : List (TyVar × Ty)) {s : Store}, s.LeadsBack past →
    (System.plant s seeds).store.LeadsBack past
  | [], _, h => h
  | (v, t) :: seeds, s, h => by
    have hbind := LeadsBack.bind h v t
    unfold System.plant
    rcases heq : s.bind v t with ⟨s', _ | e⟩
    · rw [heq] at hbind
      exact LeadsBack.plant seeds hbind
    · rw [heq] at hbind
      exact hbind

end Steps

/-! ### The order of places -/

theorem earlier_append_iff {i k : Nat} {p : List Nat} : ∀ {q : List Nat},
    Earlier (q ++ i :: p) (q ++ [k]) ↔ i < k
  | [] => by
    show i < k ∨ (i = k ∧ Earlier p []) ↔ i < k
    simp
  | j :: q => by
    show j < j ∨ (j = j ∧ Earlier (q ++ i :: p) (q ++ [k])) ↔ i < k
    rw [earlier_append_iff (q := q)]
    simp

/-- What is before an alternative of a choice is before the choice or below it. -/
theorem Earlier.of_snoc {p q : List Nat} : ∀ {k : Nat}, Earlier p (q ++ [k]) →
    Earlier p q ∨ q <+: p
  | 0, h => .inl (earlier_snoc_zero.1 h)
  | k + 1, h => by
    rcases earlier_snoc_succ.1 h with h | h
    · exact h.of_snoc
    · exact .inr ((List.prefix_append q [k]).trans h)

theorem Earlier.snoc {p q : List Nat} (h : Earlier p q) : ∀ k : Nat, Earlier p (q ++ [k])
  | 0 => earlier_snoc_zero.2 h
  | k + 1 => earlier_snoc_succ.2 (.inl (h.snoc k))

/-- Alternatives that come later are penalised at least as much. -/
theorem Offer.penalty_le_of_drop {o : Offer} {k i : Nat} {a a' : Alternative}
    {rest : List Alternative} (hdrop : o.alternatives.drop k = a :: rest) (hi : k ≤ i)
    (ha' : o.alternatives[i]? = some a') : a.penalty ≤ a'.penalty := by
  have hpairwise := o.pairwise_alternatives.sublist (List.drop_sublist k o.alternatives)
  rw [hdrop] at hpairwise
  have hmem : a' ∈ a :: rest := by
    rw [← hdrop]
    refine List.mem_of_getElem? (i := i - k) ?_
    rw [List.getElem?_drop, Nat.add_sub_cancel' hi]
    exact ha'
  rcases List.mem_cons.1 hmem with rfl | hmem
  · exact Nat.le_refl _
  · have hle := (List.pairwise_cons.1 hpairwise).1 a' hmem
    simp only [Alternative.le, Bool.or_eq_true, Bool.and_eq_true, decide_eq_true_eq,
      beq_iff_eq] at hle
    omega

/-! ### The place of the search -/

/-- The leaves whose penalty is not above the bound. -/
def Admitted (ctx : Context) (T : Leaves) : Leaves := fun P f =>
  T P f ∧ exceeds f.penalty ctx.options.maxPenalty = false

/-- Those of them that are at certain places. -/
def Seen (ctx : Context) (T : Leaves) (places : List Nat → Prop) : Leaves := fun P f =>
  Admitted ctx T P f ∧ places P

/-- The branch is open at the place: its snapshot was taken when it was met, the alternatives
are entered in their order, and the leaves below the place are those of the alternatives. -/
structure Node (ctx : Context) (T : Leaves) (b : Branch) (P : List Nat) (g : Store) : Prop where
  snapshot : b.snapshot = mark g
  untried : b.untried = b.point.offer.alternatives.drop b.entered.length
  penalty : b.base.penalty ≤ maxPenalty
  leaves : ∀ Q f, T (P ++ Q) f ↔ ∃ i a Q', Q = i :: Q' ∧
    b.point.offer.alternatives[i]? = some a ∧
    Yields ctx (a.enter b.point.locator b.base g).2 (a.enter b.point.locator b.base g).1 Q' f
  plain : b.Plain

/-- The open branches lie on the way to the place, each with the moment at which it was met. -/
inductive Stack (ctx : Context) (T : Leaves) : List Branch → List Nat → List Store → Prop where
  | nil : Stack ctx T [] [] []
  | cons {b : Branch} {branches : List Branch} {P : List Nat} {g : Store} {past : List Store}
      {k : Nat} : Stack ctx T branches P past → Node ctx T b P g → b.entered.length = k + 1 →
      Stack ctx T (b :: branches) (P ++ [k]) (g :: past)

/-- The leaves below the place are those of the path. -/
def Follows (ctx : Context) (T : Leaves) (P : List Nat) : Path → Store → Prop
  | .open work, s => (∀ Q f, T (P ++ Q) f ↔ Yields ctx s work Q f) ∧ work.penalty ≤ maxPenalty ∧
      exceeds work.penalty ctx.options.maxPenalty = false
  | .failed e, _ => (∀ Q f, ¬ T (P ++ Q) f) ∧ EndsPath e.error

/-- The search is at a place of the tree, and keeps the best of the leaves before it. -/
structure Tracks (ctx : Context) (T : Leaves) (s : State) (P : List Nat) (past : List Store) :
    Prop where
  stack : Stack ctx T s.branches P past
  back : s.store.LeadsBack past
  kept : Keeps (Seen ctx T (Earlier · P)) s.found
  path : Follows ctx T P s.path s.store

/-- The answer is made of the best of the leaves. -/
def AnswersBest (ctx : Context) (L : Leaves) (result : Except Unsolved Solution) : Prop :=
  ∃ store found pruned certain failure, Keeps L found ∧
    (∀ e, failure = some e → EndsPath e.error) ∧
    result = answer ctx store found pruned certain failure

/-- What concludes a search settles the leaves. -/
theorem AnswersBest.settles {ctx : Context} {L : Leaves} {result : Except Unsolved Solution}
    (h : AnswersBest ctx L result) (hL : ∀ P f, L P f → f.NodupChoices) : Settles L result := by
  obtain ⟨store, found, pruned, certain, failure, hkeeps, hfailure, rfl⟩ := h
  exact hkeeps.settles hL ctx store pruned certain fun e he => (hfailure e he).not_isAmbiguity

/-- The search is at a place of the tree, or concludes with the best of all leaves. -/
def Advance.Sound (ctx : Context) (T : Leaves) : Advance → Prop
  | .next s => ∃ P past, Tracks ctx T s P past
  | .done answer => AnswersBest ctx (Admitted ctx T) answer

section Step

variable {ctx : Context} {T : Leaves} {b : Branch} {branches : List Branch} {P : List Nat}
variable {g store : Store} {past : List Store} {found : List Found} {pruned : Bool}
variable {certain : Option (List Ty)} {failure : Option Failure}

/-- An alternative leads to the same leaves from stores with the same slots. -/
theorem yields_enter_congr {s t : Store} (h : s.slots = t.slots) (a : Alternative)
    (l : Option Locator) (w : Work) (Q : List Nat) (f : Found) :
    Yields ctx (a.enter l w s).2 (a.enter l w s).1 Q f ↔
      Yields ctx (a.enter l w t).2 (a.enter l w t).1 Q f := by
  obtain ⟨hwork, hstore⟩ := alike_enter (steady_twin t.version s.version).toParallel
    ⟨h, Nat.add_comm _ _⟩ a l w
  rw [hwork]
  exact yields_congr hstore.1

theorem Branch.note_eq (b : Branch) (failure : Option Failure) :
    ∃ entered, b.note failure = { b with entered } ∧ entered.length = b.entered.length := by
  unfold Branch.note
  split
  · rename_i f a rest hentered
    exact ⟨_, rfl, by rw [hentered]; rfl⟩
  · exact ⟨_, rfl, rfl⟩

theorem Node.note (h : Node ctx T b P g) (hf : ∀ e, failure = some e → EndsPath e.error) :
    Node ctx T (b.note failure) P g ∧ (b.note failure).entered.length = b.entered.length := by
  have hplain := h.plain.note hf
  obtain ⟨entered, heq, hlength⟩ := b.note_eq failure
  rw [heq] at hplain ⊢
  exact ⟨⟨h.snapshot, hlength ▸ h.untried, h.penalty, h.leaves, hplain⟩, hlength⟩

theorem Node.solved (h : Node ctx T b P g) (solved : Bool) :
    Node ctx T { b with solved } P g :=
  ⟨h.snapshot, h.untried, h.penalty, h.leaves, h.plain⟩

/-- A branch can be closed when the leaves of the alternatives that have not been entered are
above the bound or penalised more than one that is known. -/
theorem Node.close (h : Node ctx T b P g)
    (hkept : Keeps (Seen ctx T (Earlier · (P ++ [b.entered.length]))) found)
    (hrest : ∀ i a, b.entered.length ≤ i → b.point.offer.alternatives[i]? = some a →
      exceeds (addPenalty b.base.penalty a.penalty) ctx.options.maxPenalty = true ∨
        exceeds (addPenalty b.base.penalty a.penalty) (bestPenalty found) = true) :
    Keeps (Seen ctx T fun Q => Earlier Q P ∨ P <+: Q) found := by
  refine hkept.extend (fun Q f hf => ⟨hf.1, hf.2.of_snoc⟩) fun Q f hf => ?_
  obtain ⟨hadmitted, hearlier | ⟨Q, rfl⟩⟩ := hf
  · exact .inl ⟨hadmitted, hearlier.snoc _⟩
  obtain ⟨i, a, Q, rfl, ha, hyields⟩ := (h.leaves Q f).1 hadmitted.1
  by_cases hi : i < b.entered.length
  · exact .inl ⟨hadmitted, earlier_append_iff.2 hi⟩
  have hpenalty : addPenalty b.base.penalty a.penalty ≤ f.penalty := by
    rw [← a.penalty_enter b.point.locator b.base g]
    refine hyields.penalty_le ?_
    rw [a.penalty_enter]
    exact addPenalty_le _ _
  rcases hrest i a (Nat.le_of_not_lt hi) ha with hbound | hbest
  · have := exceeds_mono hpenalty hbound
    rw [hadmitted.2] at this
    cases this
  · exact .inr (hkept.exists_of_exceeds (exceeds_mono hpenalty hbest))

/-- When a branch is closed, what is left of its alternatives is above the bound or penalised more
than what is known. -/
theorem Node.exceeds_of_closes (h : Node ctx T b P g) {pruned' : Bool}
    (hcloses : Closes ctx found pruned b pruned') : ∀ i a, b.entered.length ≤ i →
    b.point.offer.alternatives[i]? = some a →
      exceeds (addPenalty b.base.penalty a.penalty) ctx.options.maxPenalty = true ∨
        exceeds (addPenalty b.base.penalty a.penalty) (bestPenalty found) = true := by
  intro i a' hi ha'
  have hmono : ∀ {a : Alternative} {untried : List Alternative} {bound : Option Nat},
      b.untried = a :: untried → exceeds (addPenalty b.base.penalty a.penalty) bound = true →
      exceeds (addPenalty b.base.penalty a'.penalty) bound = true := fun huntried hbound =>
    exceeds_mono (addPenalty_mono _
      (Offer.penalty_le_of_drop (h.untried.symm.trans huntried) hi ha')) hbound
  cases hcloses with
  | exhausted huntried =>
    have hle := List.drop_eq_nil_iff.1 (h.untried.symm.trans huntried)
    have hlt := (List.getElem?_eq_some_iff.1 ha').1
    omega
  | above huntried hbound => exact .inl (hmono huntried hbound)
  | worse huntried hbest => exact .inr (hmono huntried hbest)

/-- The next alternative of a branch leads on to its place. -/
theorem Node.enter (h : Node ctx T b P g) (hstack : Stack ctx T branches P past)
    (hback : store.LeadsBack (g :: past)) (hslots : g.slots = store.slots)
    (hkept : Keeps (Seen ctx T (Earlier · (P ++ [b.entered.length]))) found)
    {a : Alternative} {rest : List Alternative} (huntried : b.untried = a :: rest)
    (hbound : exceeds (addPenalty b.base.penalty a.penalty) ctx.options.maxPenalty = false) :
    Tracks ctx T ⟨(a.enter b.point.locator b.base store).2,
      .open (a.enter b.point.locator b.base store).1,
      { b with untried := rest, entered := (a, none) :: b.entered } :: branches, found, pruned,
      certain⟩ (P ++ [b.entered.length]) (g :: past) := by
  have hdrop := h.untried.symm.trans huntried
  have ha : b.point.offer.alternatives[b.entered.length]? = some a := by
    rw [← List.head?_drop, hdrop]
    rfl
  have hrest : rest = b.point.offer.alternatives.drop (b.entered.length + 1) := by
    rw [← List.tail_drop, hdrop]
    rfl
  have hplain : Branch.Plain { b with untried := rest, entered := (a, none) :: b.entered } := by
    intro p hp e he
    rcases List.mem_cons.1 hp with rfl | hp
    · cases he
    · exact h.plain p hp e he
  refine ⟨.cons hstack ⟨h.snapshot, hrest, h.penalty, h.leaves, hplain⟩ rfl,
    LeadsBack.enter hback a _ _, hkept, fun Q f => ?_, ?_, ?_⟩
  · rw [List.append_assoc, h.leaves, ← yields_enter_congr hslots]
    constructor
    · rintro ⟨i, a', Q', hQ, ha', hyields⟩
      obtain ⟨rfl, rfl⟩ := List.cons.inj hQ
      obtain rfl := Option.some.inj (ha.symm.trans ha')
      exact hyields
    · intro hyields
      exact ⟨_, a, Q, rfl, ha, hyields⟩
  · rw [a.penalty_enter]
    exact addPenalty_le _ _
  · rw [a.penalty_enter]
    exact hbound

/-- Going on from a branch whose alternatives up to now have been passed. -/
theorem resume_node (hnode : Node ctx T b P g) (hstack : Stack ctx T branches P past)
    (hback : store.LeadsBack (g :: past))
    (hkept : Keeps (Seen ctx T (Earlier · (P ++ [b.entered.length]))) found)
    (hfailure : ∀ e, failure = some e → EndsPath e.error)
    (hresume : ∀ {store pruned failure}, store.LeadsBack past →
      Keeps (Seen ctx T fun Q => Earlier Q P ∨ P <+: Q) found →
      (∀ e, failure = some e → EndsPath e.error) →
      (resume ctx found certain store pruned failure branches).Sound ctx T) :
    (resume ctx found certain store pruned failure (b :: branches)).Sound ctx T := by
  obtain ⟨hnoted, hlength⟩ := hnode.note hfailure
  have hresumes := resumes_cons ctx found certain store pruned failure b branches
  rw [← hlength] at hkept
  generalize b.note failure = c at hnoted hlength hkept hresumes
  generalize resume ctx found certain store pruned failure (b :: branches) = advance at hresumes ⊢
  have hrestored := hback.restore
  have hslots := hback.sameMoment_restore.1.symm
  rw [← hnoted.snapshot] at hrestored hslots
  cases hresumes with
  | close hcloses =>
    refine hresume hrestored.commit (hnoted.close hkept (hnoted.exceeds_of_closes hcloses))
      fun e he => ?_
    split at he
    · cases he
    · exact hnoted.plain.failure? he
  | enter huntried hbound =>
    exact ⟨_, _, hnoted.enter hstack hrestored hslots hkept huntried hbound⟩

/-- **Going on from the end of a path** leads on to a later place, when all leaves up to the end
have been passed. -/
theorem resume_spec (hstack : Stack ctx T branches P past) (hback : store.LeadsBack past)
    (hkept : Keeps (Seen ctx T fun Q => Earlier Q P ∨ P <+: Q) found)
    (hfailure : ∀ e, failure = some e → EndsPath e.error) :
    (resume ctx found certain store pruned failure branches).Sound ctx T := by
  induction hstack generalizing store pruned failure with
  | nil =>
    refine ⟨store, found, pruned, certain, failure, hkept.congr fun P f => ?_, hfailure, rfl⟩
    exact ⟨And.left, fun h => ⟨h, .inr List.nil_prefix⟩⟩
  | @cons b branches P g past k hstack hnode hlength ih =>
    refine resume_node hnode hstack hback (hkept.congr fun Q f => ?_) hfailure ih
    rw [Seen, Seen, hlength, earlier_snoc_succ]

theorem Stack.map_solved (h : Stack ctx T branches P past) :
    Stack ctx T (branches.map fun b => { b with solved := true }) P past := by
  induction h with
  | nil => exact .nil
  | cons _ hnode hlength ih => exact .cons ih (hnode.solved true) hlength

variable {s : State}

/-- The place has been passed when nothing is below it. -/
theorem Tracks.passed (h : Tracks ctx T s P past) (hnone : ∀ Q f, ¬ T (P ++ Q) f) :
    Keeps (Seen ctx T fun Q => Earlier Q P ∨ P <+: Q) s.found := by
  refine h.kept.congr fun Q f => ⟨fun hf => ⟨hf.1, .inl hf.2⟩, ?_⟩
  rintro ⟨hf, hearlier | ⟨Q, rfl⟩⟩
  · exact ⟨hf, hearlier⟩
  · exact absurd hf.1 (hnone Q f)

variable {work rest : Work}

/-- Simplifying a goal stays at the place. -/
theorem follows_simplify {goal : Goal} {s : Store} (h : Follows ctx T P (.open work) s)
    (hturn : work.turn ctx s = .simplify goal rest) :
    Follows ctx T P (Path.simplify ctx goal rest s).1 (Path.simplify ctx goal rest s).2 := by
  obtain ⟨hleaves, hpenalty, hbound⟩ := h
  have hrecord := (Work.sameRecord_simplify hturn).penalty
  rcases hsimp : Path.simplify ctx goal rest s with ⟨work' | e, s'⟩
  · have hwork : work'.penalty = work.penalty := (penalty_pathSimplify hsimp).trans hrecord
    refine ⟨fun Q f => (hleaves Q f).trans (yields_simplify hturn hsimp), ?_, ?_⟩
    · rw [hwork]
      exact hpenalty
    · rw [hwork]
      exact hbound
  · exact ⟨fun Q f hf => not_yields_of_failed hturn hsimp ((hleaves Q f).1 hf),
      endsPath_of_pathSimplify hsimp⟩

/-- A choice is a node at the place. -/
theorem node_start {point : BranchPoint} {s : Store} (h : Follows ctx T P (.open work) s)
    (hturn : work.turn ctx s = .choose point rest) :
    Node ctx T (.start (mark s.snapshot.2) point rest) P s.snapshot.2 := by
  obtain ⟨hleaves, hpenalty, -⟩ := h
  have hrecord := (Work.sameRecord_choose hturn).penalty
  refine ⟨rfl, rfl, hrecord ▸ hpenalty, fun Q f => ?_, fun p hp => by cases hp⟩
  rw [hleaves, yields_choose hturn]
  refine exists_congr fun i => exists_congr fun a => exists_congr fun Q' =>
    and_congr_right fun _ => and_congr_right fun _ => ?_
  exact yields_enter_congr (s := s) (t := s.snapshot.2) rfl a point.locator rest Q' f

/-- What a path has found at its end is the leaf at the place. -/
theorem Tracks.add (h : Tracks ctx T s P past) (hfollows : Follows ctx T P (.open work) s.store)
    (hturn : work.turn ctx s.store = .complete) :
    Keeps (Seen ctx T fun Q => Earlier Q P ∨ P <+: Q)
      (keep s.found (work.toFound ctx s.store)) := by
  obtain ⟨hleaves, -, hbound⟩ := hfollows
  have hfound : ∀ Q f, T (P ++ Q) f ↔ Q = [] ∧ f = work.toFound ctx s.store := fun Q f =>
    (hleaves Q f).trans (yields_complete hturn)
  refine h.kept.add (P := P) (fun Q f => ⟨?_, ?_⟩) fun Q f hf => hf.2
  · rintro ⟨hf, hearlier | ⟨Q, rfl⟩⟩
    · exact .inl ⟨hf, hearlier⟩
    · obtain ⟨rfl, rfl⟩ := (hfound Q f).1 hf.1
      exact .inr ⟨List.append_nil P, rfl⟩
  · rintro (⟨hf, hearlier⟩ | ⟨rfl, rfl⟩)
    · exact ⟨hf, .inl hearlier⟩
    · have hleaf := (hfound [] _).2 ⟨rfl, rfl⟩
      rw [List.append_nil] at hleaf
      exact ⟨⟨hleaf, hbound⟩, .inr (List.prefix_refl Q)⟩

/-- **A step goes on to a place of the tree**, or concludes the search. -/
theorem Tracks.step (h : Tracks ctx T s P past) : (s.step ctx).Sound ctx T := by
  have hpath := h.path
  unfold State.step
  cases hcase : s.path with
  | failed e =>
    rw [hcase] at hpath
    refine resume_spec h.stack h.back (h.passed hpath.1) ?_
    rintro _ ⟨⟩
    exact hpath.2
  | «open» work =>
    rw [hcase] at hpath
    dsimp only
    cases hturn : work.turn ctx s.store with
    | fail e =>
      have hnone : ∀ Q f, ¬ T (P ++ Q) f := fun Q f hf =>
        not_yields_of_fail hturn ((hpath.1 Q f).1 hf)
      refine resume_spec h.stack h.back (h.passed hnone) ?_
      rintro _ ⟨⟩
      exact endsPath_of_turn hturn
    | simplify goal rest =>
      have hback := LeadsBack.pathSimplify h.back ctx goal rest
      exact ⟨P, past, h.stack, hback, h.kept, follows_simplify hpath hturn⟩
    | choose point rest =>
      exact resume_node (node_start hpath hturn) h.stack h.back.snapshot
        (h.kept.congr fun Q f => and_congr_right fun _ => earlier_snoc_zero.symm) (by simp)
        fun hback hkept hfailure => resume_spec h.stack hback hkept hfailure
    | complete =>
      have hstack : Stack ctx T (if exceeds work.penalty (bestPenalty s.found) then s.branches
          else s.branches.map fun b => { b with solved := true }) P past := by
        split
        · exact h.stack
        · exact h.stack.map_solved
      exact resume_spec hstack h.back (h.add hpath hturn) (by simp)

/-- **A run concludes with the best of all leaves**, unless its steps run out. -/
theorem Tracks.run (h : Tracks ctx T s P past) (steps : Nat) :
    AnswersBest ctx (Admitted ctx T) (s.run ctx steps) ∨
      ∃ certain, s.run ctx steps =
        .error ⟨[.stopped (.stepLimit ctx.options.maxSteps) none], certain⟩ := by
  exact State.run_induct (I := fun s => ∃ P past, Tracks ctx T s P past)
    (fun s ⟨P, past, h⟩ => h.step) steps ⟨P, past, h⟩

end Step
end Search

open Search

variable {table : Table} {options : SolverOptions} {system : System} {s₀ : Store}

/-- What is wrong with a system is no ambiguity, and no limit of the search. -/
theorem endsPath_of_mem_validate {e : TypeError} (h : e ∈ system.validate) : EndsPath e := by
  obtain ⟨description, l, rfl⟩ := System.malformed_of_mem_validate h
  trivial

/-- The leaves of the exhaustive search for a system whose seeds have been planted. -/
def System.leaves (table : Table) (options : SolverOptions) (system : System) (s₀ : Store) :
    Leaves :=
  Yields ⟨table, options, system.varCount⟩ s₀ (Work.pushAll {} system.constraints)

theorem nodupChoices_leaves {P : List Nat} {f : Found}
    (h : system.leaves table options s₀ P f) : f.NodupChoices := by
  obtain ⟨t, v, hleaf, rfl⟩ := h
  exact hleaf.nodupChoices (Work.NodupChoices.pushAll (w := {}) List.nodup_nil system.constraints)

/-- No snapshot is open in the store in which the seeds have been planted. -/
theorem leadsBack_planted
    (hseeds : System.plant (.ofSize system.varCount) system.seeds = .done s₀) :
    s₀.LeadsBack [] := by
  have hstart : (Store.ofSize system.varCount).LeadsBack [] :=
    ⟨rfl, List.pairwise_singleton _ _⟩
  have hplant := LeadsBack.plant system.seeds hstart
  rw [hseeds] at hplant
  exact hplant

/-- The search concludes with the best leaves of the exhaustive search, unless its steps run
out. -/
theorem solve_answersBest (hvalid : system.validate = [])
    (hseeds : System.plant (.ofSize system.varCount) system.seeds = .done s₀) :
    AnswersBest ⟨table, options, system.varCount⟩
        (Admitted ⟨table, options, system.varCount⟩ (system.leaves table options s₀))
        (solve table options system) ∨
      ∃ certain, solve table options system =
        .error ⟨[.stopped (.stepLimit options.maxSteps) none], certain⟩ := by
  have hstart : Tracks ⟨table, options, system.varCount⟩ (system.leaves table options s₀)
      (system.start s₀) [] [] := by
    refine ⟨.nil, leadsBack_planted hseeds, ⟨[], .nil, rfl, fun P f => ⟨by simp, ?_⟩⟩,
      fun Q f => Iff.rfl, ?_, Work.exceeds_pushAll system.constraints options.maxPenalty⟩
    · rintro ⟨⟨-, hearlier⟩, -⟩
      exact absurd hearlier (not_earlier_nil P)
    · rw [Work.penalty_pushAll]
      exact Nat.zero_le _
  rw [System.solve_start hvalid hseeds]
  exact hstart.run options.maxSteps

/-- The search settles the leaves of the exhaustive search, unless its steps run out. -/
theorem solve_settles (hvalid : system.validate = [])
    (hseeds : System.plant (.ofSize system.varCount) system.seeds = .done s₀) :
    Settles (Admitted ⟨table, options, system.varCount⟩ (system.leaves table options s₀))
        (solve table options system) ∨
      ∃ certain, solve table options system =
        .error ⟨[.stopped (.stepLimit options.maxSteps) none], certain⟩ :=
  (solve_answersBest hvalid hseeds).imp_left fun h => h.settles fun _ _ hf =>
    nodupChoices_leaves hf.1

end TypeResolution
