/-
# Which classes are joined

`bind` and `unify` join classes on their way. Here they are written once more, so that they also
give the joins that they ask for (`Joining`): each call of `link`, with the store in which it is
called and its two variables. What they come to otherwise is what they came to before
(`Store.result_unifyJoining`, `Store.result_bindJoining`).

In a session that operations lead to, only unbound roots are joined, and in a store whose ranks
bound the sizes of its classes. The joins keep this bound, and so do all other operations: what is
restored are slots that were there before, for which it held (`Session.holds_of_reachable`).

Key definitions: `Join`, `Joining`, `Store.unifyJoining`, `Store.bindJoining`,
`Session.nextJoining`, `Join.Proper`.
Key theorems: `Store.proper_unify`, `Store.proper_bind`, `Session.holds_of_reachable`,
`Session.ranks_bound_classes`.
-/
import TypeResolution.Proofs.Store.Ranks
import TypeResolution.Proofs.Store.Refinement

namespace TypeResolution

/-- Two variables whose classes are to be joined, and the store at this moment. -/
structure Join where
  store : Store
  left : TyVar
  right : TyVar

/-- What something comes to, and the joins that it asks for on its way, the first one first. -/
structure Joining (α : Type) where
  result : α
  joins : List Join

def Joining.map {α β : Type} (f : α → β) (out : Joining α) : Joining β := ⟨f out.result, out.joins⟩

namespace Store

/-! ### Operations with their joins -/

/-- `bindRoot`, with its joins. -/
def bindRootJoining (s : Store) (v : TyVar) (t : Ty) : Joining Unified :=
  match t with
  | .var w => ⟨.done (s.link v w), [⟨s, v, w⟩]⟩
  | t =>
    if s.occurs v t then ⟨.failed s (.occurs v (s.apply t)), []⟩
    else ⟨.done (s.write v (.bound t)), []⟩

/-- `unifyAll`, with its joins. -/
def unifyAllJoining (step : Store → Ty → Ty → Joining (Option Unified)) :
    Store → List Ty → List Ty → Joining (Option Unified)
  | s, a :: as, b :: bs =>
    match step s a b with
    | ⟨some ⟨s, none⟩, joins⟩ =>
      let rest := unifyAllJoining step s as bs
      ⟨rest.result, joins ++ rest.joins⟩
    | stopped => stopped
  | s, _, _ => ⟨some (.done s), []⟩

/-- `unifyWithin`, with its joins. -/
def unifyWithinJoining : Nat → Store → Ty → Ty → Joining (Option Unified)
  | 0, _, _, _ => ⟨none, []⟩
  | fuel + 1, s, a, b =>
    let (a, s) := s.shallow a
    let (b, s) := s.shallow b
    match Comparison.of a b with
    | .agree => ⟨some (.done s), []⟩
    | .bind v t => (s.bindRootJoining v t).map some
    | .structural =>
      if a.shape = b.shape ∧ a.children.length = b.children.length then
        unifyAllJoining (unifyWithinJoining fuel) s a.children b.children
      else ⟨some (s.mismatch a b), []⟩

/-- `unify`, with its joins. -/
def unifyJoining (s : Store) (a b : Ty) : Joining Unified :=
  (unifyWithinJoining (s.unifyDepth a b) s a b).map fun out => out.getD (s.mismatch a b)

/-- `bind`, with its joins. -/
def bindJoining (s : Store) (v : TyVar) (t : Ty) : Joining Unified :=
  let (root, s) := s.find v
  match s.slot? root with
  | some (.bound existing) => s.unifyJoining existing t
  | _ =>
    let (t, s) := s.shallow t
    s.bindRootJoining root t

variable {s s' : Store} {a b a' b' : Ty}

/-! ### The joins change nothing -/

theorem result_bindRootJoining (s : Store) (v : TyVar) (t : Ty) :
    (s.bindRootJoining v t).result = s.bindRoot v t := by
  cases t with
  | var w => rfl
  | _ =>
    unfold bindRootJoining bindRoot
    dsimp only
    split <;> rfl

theorem result_unifyAllJoining {joining : Store → Ty → Ty → Joining (Option Unified)}
    {step : Store → Ty → Ty → Option Unified} (h : ∀ s a b, (joining s a b).result = step s a b) :
    ∀ (as bs : List Ty) (s : Store),
      (unifyAllJoining joining s as bs).result = unifyAll step s as bs
  | [], bs, s => by cases bs <;> rfl
  | a :: as, [], s => rfl
  | a :: as, b :: bs, s => by
    unfold unifyAllJoining unifyAll
    rw [← h s a b]
    rcases joining s a b with ⟨_ | ⟨s₁, _ | e⟩, joins⟩
    · rfl
    · exact result_unifyAllJoining h as bs s₁
    · rfl

theorem unifyWithinJoining_succ (fuel : Nat) (htops : s.tops a b = ((a', b'), s')) :
    unifyWithinJoining (fuel + 1) s a b =
      match Comparison.of a' b' with
      | .agree => ⟨some (.done s'), []⟩
      | .bind v t => (s'.bindRootJoining v t).map some
      | .structural =>
        if a'.shape = b'.shape ∧ a'.children.length = b'.children.length then
          unifyAllJoining (unifyWithinJoining fuel) s' a'.children b'.children
        else ⟨some (s'.mismatch a' b'), []⟩ := by
  obtain ⟨h, rfl⟩ := Prod.mk.inj htops
  obtain ⟨rfl, rfl⟩ := Prod.mk.inj h
  rfl

theorem result_unifyWithinJoining : ∀ (fuel : Nat) (s : Store) (a b : Ty),
    (unifyWithinJoining fuel s a b).result = unifyWithin fuel s a b
  | 0, _, _, _ => rfl
  | fuel + 1, s, a, b => by
    rcases htops : s.tops a b with ⟨⟨a', b'⟩, s'⟩
    rw [unifyWithinJoining_succ fuel htops, unifyWithin_succ fuel htops]
    cases Comparison.of a' b' with
    | agree => rfl
    | bind v t => exact congrArg some (result_bindRootJoining s' v t)
    | structural =>
      dsimp only
      split
      · exact result_unifyAllJoining (result_unifyWithinJoining fuel) _ _ s'
      · rfl

/-- Unifying with the joins comes to what unifying comes to. -/
theorem result_unifyJoining (s : Store) (a b : Ty) : (s.unifyJoining a b).result = s.unify a b :=
  congrArg (fun out => out.getD (s.mismatch a b)) (result_unifyWithinJoining _ s a b)

theorem result_bindJoining (s : Store) (v : TyVar) (t : Ty) :
    (s.bindJoining v t).result = s.bind v t := by
  unfold bindJoining bind
  dsimp only
  cases (s.find v).2.slot? (s.find v).1 with
  | none => exact result_bindRootJoining _ _ _
  | some c =>
    cases c with
    | bound existing => exact result_unifyJoining _ existing t
    | _ => exact result_bindRootJoining _ _ _

end Store

/-! ### Joins of unbound roots -/

/-- Two unbound roots are joined, in a store of this size whose ranks bound its classes. -/
structure Join.Proper (q : Join) (size : Nat) : Prop where
  ranked : q.store.Ranked
  size_eq : q.store.size = size
  left : ∃ k, q.store.slot? q.left = some (.root k)
  right : ∃ k, q.store.slot? q.right = some (.root k)

namespace Store

variable {s s' : Store} {v : TyVar} {a b a' b' t : Ty} {u : Unified}
  {out : Joining (Option Unified)}

theorem proper_bindRoot {k : Nat} (h : s.Ranked) (hv : s.slot? v = some (.root k))
    (hroot : ∀ w, t = .var w → ∃ j, s.slot? w = some (.root j)) :
    ∀ q ∈ (s.bindRootJoining v t).joins, q.Proper s.size := by
  cases t with
  | var w => exact List.forall_mem_singleton.2 ⟨h, rfl, ⟨k, hv⟩, hroot w rfl⟩
  | _ =>
    unfold bindRootJoining
    dsimp only
    split <;> exact List.forall_mem_nil _

/-- On its way, an attempt at unification asks for proper joins only. If it comes to an end, then
the store has moved, and its ranks bound its classes. -/
structure Proceeds (s : Store) (out : Joining (Option Unified)) : Prop where
  joins : ∀ q ∈ out.joins, q.Proper s.size
  ends : ∀ u, out.result = some u → Moves s u.store ∧ u.store.Ranked ∧ u.store.size = s.size

namespace Proceeds

/-- The attempt ends where it starts. -/
theorem stay (h : s.Ranked) (hu : u.store = s) : Proceeds s ⟨some u, []⟩ := by
  refine ⟨List.forall_mem_nil _, fun u' hu' => ?_⟩
  rw [← Option.some.inj hu', hu]
  exact ⟨.refl, h, rfl⟩

/-- What has been done before was a move that adds no variable. -/
theorem after (hm : Moves s s') (hsize : s'.size = s.size) (h : Proceeds s' out) :
    Proceeds s out := by
  refine ⟨hsize ▸ h.joins, fun u hu => ?_⟩
  obtain ⟨hmoves, hranked, hsize'⟩ := h.ends u hu
  exact ⟨hm.trans hmoves, hranked, hsize'.trans hsize⟩

theorem bindRoot {k : Nat} (h : s.Ranked) (hs : s.WellFormed) (hv : s.slot? v = some (.root k))
    (ht : s.Covers t) (hroot : ∀ w, t = .var w → ∃ j, s.slot? w = some (.root j)) :
    Proceeds s ((s.bindRootJoining v t).map some) := by
  refine ⟨proper_bindRoot h hv hroot, fun u hu => ?_⟩
  have hu : (s.bindRootJoining v t).result = u := Option.some.inj hu
  rw [← hu, result_bindRootJoining]
  exact ⟨moves_bindRoot hs hv ht hroot, h.bindRoot hs hv ht hroot, size_bindRoot⟩

theorem unifyAll {joining : Store → Ty → Ty → Joining (Option Unified)}
    (hstep : ∀ {s : Store} {a b : Ty}, s.Ranked → s.WellFormed → s.Covers a → s.Covers b →
      Proceeds s (joining s a b)) :
    ∀ (as bs : List Ty) {s : Store}, s.Ranked → s.WellFormed → (∀ a ∈ as, s.Covers a) →
      (∀ b ∈ bs, s.Covers b) → Proceeds s (unifyAllJoining joining s as bs)
  | [], bs, s, h, _, _, _ => by cases bs <;> exact stay h rfl
  | a :: as, [], s, h, _, _, _ => stay h rfl
  | a :: as, b :: bs, s, h, hs, has, hbs => by
    have hfirst := hstep h hs (has a List.mem_cons_self) (hbs b List.mem_cons_self)
    unfold unifyAllJoining
    split
    · rename_i s₁ joins heq
      rw [heq] at hfirst
      obtain ⟨hmoves, h₁, hsize⟩ := hfirst.ends _ rfl
      have hmoves : Moves s s₁ := hmoves
      have hrest := after hmoves hsize (unifyAll hstep as bs h₁ (hmoves.wellFormed hs)
        (fun x hx => hmoves.covers (has x (List.mem_cons_of_mem _ hx)))
        fun x hx => hmoves.covers (hbs x (List.mem_cons_of_mem _ hx)))
      exact ⟨List.forall_mem_append.2 ⟨hfirst.joins, hrest.joins⟩, hrest.ends⟩
    · exact hfirst

/-- **Within any number of steps**, unification asks for proper joins only. -/
theorem unifyWithin : ∀ (fuel : Nat) {s : Store} {a b : Ty}, s.Ranked → s.WellFormed →
    s.Covers a → s.Covers b → Proceeds s (unifyWithinJoining fuel s a b)
  | 0, s, _, _, _, _, _, _ => ⟨List.forall_mem_nil _, nofun⟩
  | fuel + 1, s, a, b, h, hs, ha, hb => by
    rcases htops : s.tops a b with ⟨⟨a', b'⟩, s'⟩
    obtain ⟨htidy, hca, hcb, -, -⟩ := tops_spec hs ha hb htops
    have hs' := htidy.moves.wellFormed hs
    have h' := h.tidies hs htidy
    have hsize : s'.size = s.size := by
      rw [← size_tops (s := s) (a := a) (b := b), htops]
    rw [unifyWithinJoining_succ fuel htops]
    refine after htidy.moves hsize ?_
    cases hcmp : Comparison.of a' b' with
    | agree => exact stay h' rfl
    | bind v t =>
      obtain ⟨⟨k, hk⟩, ht, hroot, -⟩ := root_of_bind hs ha hb htops hcmp
      exact bindRoot h' hs' hk ht hroot
    | structural =>
      dsimp only
      split
      · exact unifyAll (unifyWithin fuel) _ _ h' hs' (fun c hc => hca.of_mem_children hc)
          fun c hc => hcb.of_mem_children hc
      · exact stay h' rfl

end Proceeds

/-- Unification asks for proper joins only, and keeps the bound on ranks, whether it succeeds or
not. -/
theorem proper_unify (h : s.Ranked) (hs : s.WellFormed) (ha : s.Covers a) (hb : s.Covers b) :
    (∀ q ∈ (s.unifyJoining a b).joins, q.Proper s.size) ∧ (s.unify a b).store.Ranked := by
  have hrun := Proceeds.unifyWithin (s.unifyDepth a b) h hs ha hb
  refine ⟨hrun.joins, ?_⟩
  unfold unify
  cases hunify : Store.unifyWithin (s.unifyDepth a b) s a b with
  | none => exact h
  | some u => exact (hrun.ends u ((result_unifyWithinJoining _ s a b).trans hunify)).2.1

/-- Binding a variable asks for proper joins only, and keeps the bound on ranks, whether it succeeds
or not. -/
theorem proper_bind (h : s.Ranked) (hs : s.WellFormed) (hv : s.Has v) (ht : s.Covers t) :
    (∀ q ∈ (s.bindJoining v t).joins, q.Proper s.size) ∧ (s.bind v t).store.Ranked := by
  have htidy := tidies_find hs hv
  have hs₁ := htidy.moves.wellFormed hs
  have h₁ := h.tidies hs htidy
  have hc := htidy.moves.covers ht
  have hsize : (s.find v).2.size = s.size := size_find s v
  unfold bindJoining bind
  rw [← hsize]
  dsimp only [fst_find]
  rcases (hs.leads_root hv).slot_root with ⟨k, hk⟩ | ⟨u, hu⟩
  · have hk₁ := htidy.root_iff.1 hk
    have htidy' := tidies_shallow hs₁ hc
    have hroot : ∀ w, ((s.find v).2.shallow t).1 = .var w →
        ∃ j, ((s.find v).2.shallow t).2.slot? w = some (.root j) := fun w hw =>
      root_after_shallow hs₁ hc hw
    have h₂ := h₁.tidies hs₁ htidy'
    have hk₂ := htidy'.root_iff.1 hk₁
    simp only [hk₁]
    refine ⟨?_, h₂.bindRoot (htidy'.moves.wellFormed hs₁) hk₂
      (htidy'.moves.covers (covers_shallow hs₁ hc)) hroot⟩
    rw [← size_shallow t]
    exact proper_bindRoot h₂ hk₂ hroot
  · have hu₁ := htidy.bound_iff.1 hu
    simp only [hu₁]
    exact proper_unify h₁ hs₁ (hs₁.covered _ u hu₁) hc

end Store

/-! ### Sessions -/

namespace Session

open Store

variable {x : Session} {op : Op}

/-- The session after an operation, with the joins that the operation asks for. -/
def nextJoining (x : Session) : Op → Joining Session
  | .bind v t => (x.store.bindJoining v t).map fun out => ⟨out.store, x.taken⟩
  | .unify a b => (x.store.unifyJoining a b).map fun out => ⟨out.store, x.taken⟩
  | op => ⟨x.next op, []⟩

theorem result_nextJoining (x : Session) (op : Op) : (x.nextJoining op).result = x.next op := by
  cases op with
  | bind v t => exact congrArg (fun out => Session.mk out.store x.taken) (result_bindJoining _ v t)
  | unify a b => exact congrArg (fun out => Session.mk out.store x.taken) (result_unifyJoining _ a b)
  | _ => rfl

/-- **What operations keep that take nothing back** holds in every session that operations lead to,
if it depends on slots only: the slots that are restored are those of a moment before. -/
theorem holds_of_reachable {I : Store → Prop} (hstart : ∀ count, I (.ofSize count))
    (hslots : ∀ {s s' : Store}, s.slots = s'.slots → I s → I s')
    (hnext : ∀ {x : Session} {op : Op}, I x.store → x.store.WellFormed → x.Allows op →
      op.keeps = true → I (x.next op).store) (hx : x.Reachable) : I x.store := by
  obtain ⟨count, hrun⟩ := hx
  -- It holds at every moment that the session can go back to, too.
  suffices h : ∃ past, x.History past ∧ ∀ g ∈ x.store :: past, I g by
    obtain ⟨past, -, hall⟩ := h
    exact hall _ List.mem_cons_self
  induction hrun with
  | refl => exact ⟨[], .start count, List.forall_mem_singleton.2 (hstart count)⟩
  | @step y op _ hop _ ih =>
    obtain ⟨past, hy, hall⟩ := ih
    have hstore : I (y.next op).store := by
      cases hkeeps : op.keeps with
      | true => exact hnext (hall _ List.mem_cons_self) hy.store_wellFormed hop hkeeps
      | false =>
        cases op with
        | restore =>
          cases past with
          | nil => exact absurd hy.taken hop
          | cons g past =>
            rw [hy.restore.1]
            exact hslots hy.back.sameMoment_restore.1.symm (hall g (by simp))
        | _ => cases hkeeps
    obtain ⟨past', hnext', hpast⟩ := hy.next hop
    refine ⟨past', hnext', List.forall_mem_cons.2 ⟨hstore, fun g hg => ?_⟩⟩
    rcases hpast with rfl | rfl | ⟨g', rfl⟩
    · exact hall g (List.mem_cons_of_mem _ hg)
    · rcases List.mem_cons.1 hg with rfl | hg
      · exact hstore
      · exact hall g (List.mem_cons_of_mem _ hg)
    · exact hall g (List.mem_cons_of_mem _ (List.mem_cons_of_mem _ hg))

section Step

variable (h : x.store.Ranked) (hs : x.store.WellFormed) (hop : x.Allows op)
include h hs hop

/-- The joins that an operation asks for are proper. -/
theorem proper_next : ∀ q ∈ (x.nextJoining op).joins, q.Proper x.store.size := by
  cases op with
  | bind v t => exact (proper_bind h hs hop.1 hop.2).1
  | unify a b => exact (proper_unify h hs hop.1 hop.2).1
  | _ => exact List.forall_mem_nil _

/-- Operations that take nothing back keep the bound on ranks. -/
theorem ranked_next (hkeeps : op.keeps = true) : (x.next op).store.Ranked := by
  cases op with
  | fresh => exact h.fresh hs
  | find v => exact h.tidies hs (tidies_find hs hop)
  | resolve v => exact h.tidies hs (tidies_find hs hop)
  | shallow t => exact h.tidies hs (tidies_shallow hs hop)
  | bind v t => exact (proper_bind h hs hop.1 hop.2).2
  | unify a b => exact (proper_unify h hs hop.1 hop.2).2
  | snapshot => exact h.congr (slots_snapshot x.store).symm
  | restore => cases hkeeps
  | commit => exact h.congr (slots_next_commit x).symm

end Step

theorem ranked_of_reachable (hx : x.Reachable) : x.store.Ranked :=
  holds_of_reachable Ranked.ofSize (fun hslots h => h.congr hslots)
    (fun h hs hop hkeeps => ranked_next h hs hop hkeeps) hx

/-- **Ranks bound the sizes of classes.** In every session that operations lead to, restored and
committed snapshots included:

* the class of an unbound root of rank `k` has at least `2 ^ k` variables, and no rank exceeds the
  logarithm of the number of variables;
* whatever operation comes next, each pair of variables that it asks to be joined are two unbound
  roots. Where their ranks are equal, so that one of them goes up, the new rank does not exceed the
  logarithm either, and with fewer variables than 64 bits can count it fits into 32 bits. -/
theorem ranks_bound_classes (hx : x.Reachable) :
    (∀ r k, x.store.slot? r = some (.root k) →
      2 ^ k ≤ (x.store.members r).card ∧ k ≤ Nat.log2 x.store.size) ∧
    ∀ op, x.Allows op →
      (x.nextJoining op).result = x.next op ∧
      ∀ q ∈ (x.nextJoining op).joins, ∃ j k,
        q.store.slot? q.left = some (.root j) ∧ q.store.slot? q.right = some (.root k) ∧
        (q.left ≠ q.right → j = k → j + 1 ≤ Nat.log2 x.store.size) ∧
        (x.store.size < 2 ^ 64 → j + 1 < 2 ^ 32) := by
  have hranked := ranked_of_reachable hx
  obtain ⟨past, hpast⟩ := History.of_reachable hx
  refine ⟨fun r k hr => ⟨hranked r k hr, hranked.le_log2 hr⟩, fun op hop =>
    ⟨result_nextJoining x op, fun q hq => ?_⟩⟩
  obtain ⟨hq, hsize, ⟨j, hj⟩, ⟨k, hk⟩⟩ := proper_next hranked hpast.store_wellFormed hop q hq
  rw [← hsize]
  refine ⟨j, k, hj, hk, ?_, fun hcount => ?_⟩
  · rintro hne rfl
    exact hq.succ_le_log2 hj hk hne
  · have hlog : j ≤ Nat.log2 q.store.size := hq.le_log2 hj
    have hfew : Nat.log2 q.store.size < 64 := (Nat.log2_lt (size_ne_zero hj)).2 hcount
    omega

/-- Two classes of rank 1 are joined after a snapshot was taken, and have rank 2 together; restoring
the snapshot gives them rank 1 again. -/
theorem ranks_bound_classes_restored :
    let x := ((Session.start 4).next (.unify (.tuple [.var ⟨0⟩, .var ⟨2⟩])
      (.tuple [.var ⟨1⟩, .var ⟨3⟩]))).next .snapshot
    let y := x.next (.bind ⟨3⟩ (.var ⟨1⟩))
    let z := y.next .restore
    (y.store.slot? ⟨0⟩ = some (.root 2) ∧ 2 ^ 2 ≤ (y.store.members ⟨0⟩).card ∧
      2 ≤ Nat.log2 y.store.size) ∧
    (z.store.slot? ⟨0⟩ = some (.root 1) ∧ 2 ^ 1 ≤ (z.store.members ⟨0⟩).card) ∧
    (x.nextJoining (.bind ⟨3⟩ (.var ⟨1⟩))).joins.map (fun q => (q.left, q.right)) =
      [(⟨2⟩, ⟨0⟩)] ∧
    ∀ q ∈ (x.nextJoining (.bind ⟨3⟩ (.var ⟨1⟩))).joins, ∃ j k,
      q.store.slot? q.left = some (.root j) ∧ q.store.slot? q.right = some (.root k) ∧
      j + 1 < 2 ^ 32 := by
  intro x y z
  have hx : x.Reachable :=
    ⟨4, .step (.step (.refl _) (by decide) (by decide)) (by decide) (by decide)⟩
  obtain ⟨count, hrun⟩ := hx
  have hy : Run [] (.start count) y := .step hrun (by decide) (by decide)
  have hz : Run [] (.start count) z := .step hy (by decide) (by decide)
  have hraised : y.store.slot? ⟨0⟩ = some (.root 2) := by decide
  have hrestored : z.store.slot? ⟨0⟩ = some (.root 1) := by decide
  refine ⟨⟨hraised, (ranks_bound_classes ⟨_, hy⟩).1 _ _ hraised⟩,
    ⟨hrestored, ((ranks_bound_classes ⟨_, hz⟩).1 _ _ hrestored).1⟩, by decide, fun q hq => ?_⟩
  obtain ⟨j, k, hj, hk, -, hfits⟩ := ((ranks_bound_classes ⟨_, hrun⟩).2 _ (by decide)).2 q hq
  exact ⟨j, k, hj, hk, hfits (by decide)⟩

end Session
end TypeResolution
