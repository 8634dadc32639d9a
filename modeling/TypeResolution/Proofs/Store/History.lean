/-
# Going back to snapshots

The log of a store leads back to the moments at which the open snapshots were taken
(`Store.Rewinds`): taking back the newest changes one by one gives the slots and the log of that
moment. A move that is logged adds one change to take back, restoring a snapshot takes back the
changes of the moment itself, and committing the innermost of several snapshots keeps the log,
so that the way to the outer ones leads through the changes that were kept.

A session is a store with the snapshots that are open, the innermost first. In every session
that operations lead to, the store and the moments of the open snapshots lead back one to the
next, and all of them are well-formed (`Session.History`).

Key definitions: `Store.Rewinds`, `Store.LeadsBack`, `Op`, `Session`, `Session.Run`,
`Session.Reachable`, `Session.History`.
Key theorems: `Session.History.next`, `Session.restore_exact`, `Session.store_sound`.
-/
import TypeResolution.Proofs.Store.Parallel
import TypeResolution.Proofs.Store.Unification

namespace TypeResolution

open Relation

namespace Store

variable {s s' t g : Store} {v : TyVar} {c : Slot}

theorem wellFormed_ofSize (count : Nat) : (ofSize count).WellFormed := by
  have hslot : ∀ {v c}, (ofSize count).slot? v = some c → c = .root 0 := by
    intro v c h
    rw [slot?_ofSize] at h
    split at h
    · exact (Option.some.inj h).symm
    · cases h
  have hbound : ∀ v t, (ofSize count).slot? v ≠ some (.bound t) := fun v t h => by
    cases hslot h
  constructor
  · intro v hv
    obtain ⟨c, hc⟩ := has_iff.1 hv
    exact ⟨v, .root hc fun w => by rw [hslot hc]; simp⟩
  · exact fun v t h => absurd h (hbound v t)
  · exact fun v t h => absurd h (hbound v t)
  · intro c hc
    obtain ⟨d, ⟨t, ht, -⟩, -⟩ := TransGen.head'_iff.1 hc
    exact hbound c t ht

/-! ### Rewinding -/

/-- The store has the slots and the log of another one. -/
def SameMoment (s t : Store) : Prop := s.slots = t.slots ∧ s.log = t.log

theorem SameMoment.undo (h : SameMoment s t) : SameMoment s.undo t.undo := by
  obtain ⟨hslots, hlog⟩ := h
  unfold Store.undo
  rw [hlog]
  split
  · exact ⟨hslots, by assumption⟩
  · exact ⟨by simp [hslots], rfl⟩
  · exact ⟨by simp [hslots], rfl⟩

theorem SameMoment.rollback : ∀ (k : Nat) {s t : Store}, SameMoment s t →
    SameMoment (s.rollback k) (t.rollback k)
  | 0, _, _, h => h
  | k + 1, _, _, h => SameMoment.rollback k h.undo

theorem rollback_add : ∀ (j k : Nat) (s : Store), s.rollback (j + k) = (s.rollback j).rollback k
  | 0, k, s => by rw [Nat.zero_add]; rfl
  | j + 1, k, s => by
    rw [Nat.succ_add]
    exact rollback_add j k s.undo

theorem openSnapshots_undo (s : Store) : s.undo.openSnapshots = s.openSnapshots := by
  unfold undo
  split <;> rfl

theorem openSnapshots_rollback : ∀ (k : Nat) (s : Store),
    (s.rollback k).openSnapshots = s.openSnapshots
  | 0, _ => rfl
  | k + 1, s => (openSnapshots_rollback k s.undo).trans (openSnapshots_undo s)

/-- Taking back changes of the store leads back to the slots and the log of an earlier one. -/
def Rewinds (s g : Store) : Prop :=
  ∃ k, s.log.length = g.log.length + k ∧ SameMoment (s.rollback k) g

theorem SameMoment.eq (h : SameMoment s g) (ho : s.openSnapshots = g.openSnapshots) :
    s = { g with version := s.version } := by
  obtain ⟨hslots, hlog⟩ := h
  cases s
  cases g
  simp_all

namespace Rewinds

theorem of_sameMoment (h : SameMoment s g) : Rewinds s g := ⟨0, congrArg List.length h.2, h⟩

theorem refl (s : Store) : Rewinds s s := of_sameMoment ⟨rfl, rfl⟩

theorem trans (h : Rewinds s t) (h' : Rewinds t g) : Rewinds s g := by
  obtain ⟨j, hj, hst⟩ := h
  obtain ⟨k, hk, htg⟩ := h'
  refine ⟨j + k, by omega, ?_⟩
  rw [rollback_add]
  obtain ⟨h1, h2⟩ := hst.rollback k
  exact ⟨h1.trans htg.1, h2.trans htg.2⟩

theorem write (ho : 0 < s.openSnapshots) (v : TyVar) (c : Slot) : Rewinds (s.write v c) s := by
  by_cases hv : v.index < s.size
  · refine ⟨1, ?_, ?_⟩
    · obtain ⟨old, hold⟩ := has_iff.1 hv
      simp [Store.write, hold, ho]
    · show SameMoment (s.write v c).undo s
      rw [undo_write s v c hv ho]
      exact ⟨rfl, rfl⟩
  · have hnone : s.slot? v = none := by
      rw [slot?, Array.getElem?_eq_none]
      exact Nat.le_of_not_lt hv
    simp only [Store.write, hnone]
    exact refl s

theorem fresh (ho : 0 < s.openSnapshots) : Rewinds s.fresh.2 s := by
  refine ⟨1, by simp [Store.fresh, ho], ?_⟩
  show SameMoment s.fresh.2.undo s
  rw [undo_fresh s ho]
  exact ⟨rfl, rfl⟩

/-- Restoring a snapshot leads back to the moment at which it was taken. -/
theorem sameMoment_restore (h : Rewinds s g) (depth : Nat) :
    SameMoment (s.restore ⟨g.log.length, depth⟩) g := by
  obtain ⟨k, hk, hsame⟩ := h
  have hcount : s.log.length - g.log.length = k := by omega
  unfold restore
  rw [hcount]
  exact hsame

end Rewinds

@[simp] theorem openSnapshots_write : (s.write v c).openSnapshots = s.openSnapshots := by
  unfold write
  split <;> rfl

@[simp] theorem openSnapshots_fresh : s.fresh.2.openSnapshots = s.openSnapshots := rfl

theorem version_undo (s : Store) : s.undo.version = s.version := by
  unfold undo
  split <;> rfl

theorem version_rollback : ∀ (k : Nat) (s : Store), (s.rollback k).version = s.version
  | 0, _ => rfl
  | k + 1, s => (version_rollback k s.undo).trans (version_undo s)

theorem version_restore (s : Store) (snapshot : Snapshot) :
    (s.restore snapshot).version = s.version + 1 := by
  show (s.rollback _).version + 1 = _
  rw [version_rollback]

theorem openSnapshots_restore (s : Store) (snapshot : Snapshot) :
    (s.restore snapshot).openSnapshots = s.openSnapshots := openSnapshots_rollback _ s

/-- The store is later than the given moments, the latest of them first, and one snapshot is
open for each of them. -/
structure LeadsBack (s : Store) (past : List Store) : Prop where
  depth : s.openSnapshots = past.length
  rewinds : (s :: past).Pairwise Rewinds

/-- The snapshot that was taken when the store was as given. -/
def mark (g : Store) : Snapshot := ⟨g.log.length, g.openSnapshots⟩

namespace LeadsBack

variable {past : List Store}

theorem to_mem (h : s.LeadsBack past) (hg : g ∈ past) : Rewinds s g :=
  (List.pairwise_cons.1 h.rewinds).1 g hg

/-- A change that can be taken back is one more thing to take back. -/
theorem change (h : s.LeadsBack past) (ho : s'.openSnapshots = s.openSnapshots)
    (hr : 0 < s.openSnapshots → Rewinds s' s) : s'.LeadsBack past := by
  refine ⟨ho.trans h.depth, List.pairwise_cons.2 ⟨fun g hg => ?_, h.rewinds.tail⟩⟩
  have hopen : 0 < s.openSnapshots := by
    rw [h.depth]
    exact List.length_pos_of_mem hg
  exact (hr hopen).trans (h.to_mem hg)

theorem write (h : s.LeadsBack past) (v : TyVar) (c : Slot) : (s.write v c).LeadsBack past :=
  h.change openSnapshots_write fun ho => .write ho v c

theorem fresh (h : s.LeadsBack past) : s.fresh.2.LeadsBack past :=
  h.change openSnapshots_fresh .fresh

theorem snapshot (h : s.LeadsBack past) : s.snapshot.2.LeadsBack (s.snapshot.2 :: past) := by
  have hsame : SameMoment s.snapshot.2 s := ⟨rfl, rfl⟩
  have hback : ∀ g ∈ past, Rewinds s.snapshot.2 g := fun g hg =>
    (Rewinds.of_sameMoment hsame).trans (h.to_mem hg)
  refine ⟨congrArg (· + 1) h.depth, List.pairwise_cons.2 ⟨fun g hg => ?_,
    List.pairwise_cons.2 ⟨hback, h.rewinds.tail⟩⟩⟩
  rcases List.mem_cons.1 hg with rfl | hg
  · exact .refl _
  · exact hback g hg

theorem sameMoment_restore (h : s.LeadsBack (g :: past)) :
    SameMoment (s.restore (mark g)) g :=
  (h.to_mem List.mem_cons_self).sameMoment_restore _

/-- Restoring the latest snapshot leaves the way back as it is. -/
theorem restore (h : s.LeadsBack (g :: past)) : (s.restore (mark g)).LeadsBack (g :: past) := by
  refine ⟨(openSnapshots_restore _ _).trans h.depth,
    List.pairwise_cons.2 ⟨fun g' hg => ?_, h.rewinds.tail⟩⟩
  refine (Rewinds.of_sameMoment h.sameMoment_restore).trans ?_
  rcases List.mem_cons.1 hg with rfl | hg
  · exact .refl _
  · exact (List.pairwise_cons.1 h.rewinds.tail).1 g' hg

/-- Committing the latest of several snapshots keeps the way back to the others. -/
theorem commit (h : s.LeadsBack (g :: past)) : s.commit.LeadsBack past := by
  have hdepth : s.openSnapshots = past.length + 1 := h.depth
  refine ⟨?_, List.pairwise_cons.2 ⟨fun g' hg => ?_, h.rewinds.tail.tail⟩⟩
  · show s.openSnapshots - 1 = past.length
    rw [hdepth]
    rfl
  · have hsame : SameMoment s.commit s := by
      refine ⟨rfl, if_neg ?_⟩
      have := List.length_pos_of_mem hg
      omega
    exact (Rewinds.of_sameMoment hsame).trans (h.to_mem (List.mem_cons_of_mem _ hg))

theorem move (h : s.LeadsBack past) (hm : Move s s') : s'.LeadsBack past := by
  cases hm with
  | fresh => exact h.fresh
  | _ => exact h.write _ _

theorem moves (h : s.LeadsBack past) (hm : Moves s s') : s'.LeadsBack past := by
  induction hm with
  | refl => exact h
  | tail _ hstep ih => exact ih.move hstep

end LeadsBack
end Store

/-! ### Sessions -/

/-- An operation on a store. -/
inductive Op where
  | fresh
  | find (v : TyVar)
  | resolve (v : TyVar)
  | shallow (t : Ty)
  | bind (v : TyVar) (t : Ty)
  | unify (a b : Ty)
  | snapshot
  /-- The innermost snapshot is restored, and stays open. -/
  | restore
  /-- The innermost snapshot is committed. -/
  | commit

/-- A store with its open snapshots, the innermost first. -/
structure Session where
  store : Store
  taken : List Snapshot

namespace Session

open Store

/-- A session of unbound variables. -/
def start (count : Nat) : Session := ⟨.ofSize count, []⟩

/-- Operations are given variables of the store, and restore and commit snapshots that are
open. -/
def Allows (x : Session) : Op → Prop
  | .fresh | .snapshot => True
  | .find v | .resolve v => x.store.Has v
  | .shallow t => x.store.Covers t
  | .bind v t => x.store.Has v ∧ x.store.Covers t
  | .unify a b => x.store.Covers a ∧ x.store.Covers b
  | .restore | .commit => x.taken ≠ []

instance (x : Session) : (op : Op) → Decidable (x.Allows op)
  | .fresh | .snapshot => isTrue trivial
  | .find _ | .resolve _ => inferInstanceAs (Decidable (x.store.Has _))
  | .shallow _ => inferInstanceAs (Decidable (x.store.Covers _))
  | .bind _ _ => inferInstanceAs (Decidable (x.store.Has _ ∧ x.store.Covers _))
  | .unify _ _ => inferInstanceAs (Decidable (x.store.Covers _ ∧ x.store.Covers _))
  | .restore | .commit => inferInstanceAs (Decidable (x.taken ≠ []))

/-- The session after an operation, which may have failed on its way. -/
def next (x : Session) : Op → Session
  | .fresh => ⟨x.store.fresh.2, x.taken⟩
  | .find v => ⟨(x.store.find v).2, x.taken⟩
  | .resolve v => ⟨(x.store.resolve v).2, x.taken⟩
  | .shallow t => ⟨(x.store.shallow t).2, x.taken⟩
  | .bind v t => ⟨(x.store.bind v t).store, x.taken⟩
  | .unify a b => ⟨(x.store.unify a b).store, x.taken⟩
  | .snapshot => ⟨x.store.snapshot.2, x.store.snapshot.1 :: x.taken⟩
  | .restore =>
    match x.taken with
    | [] => x
    | snapshot :: _ => ⟨x.store.restore snapshot, x.taken⟩
  | .commit =>
    match x.taken with
    | [] => x
    | _ :: outer => ⟨x.store.commit, outer⟩

/-- Operations lead from one session to another one, and the snapshots of `base` stay open. -/
inductive Run (base : List Snapshot) : Session → Session → Prop where
  | refl (x : Session) : Run base x x
  | step {x y : Session} {op : Op} : Run base x y → y.Allows op →
      base <:+ (y.next op).taken → Run base x (y.next op)

/-- Operations lead to the session. -/
def Reachable (x : Session) : Prop := ∃ count, Run [] (start count) x

/-- The moments at which the open snapshots were taken, the latest first. -/
structure History (x : Session) (past : List Store) : Prop where
  taken : x.taken = past.map mark
  back : x.store.LeadsBack past
  wellFormed : ∀ g ∈ x.store :: past, g.WellFormed

variable {x y : Session} {past : List Store} {op : Op} {s : Store}

namespace History

theorem store_wellFormed (h : x.History past) : x.store.WellFormed :=
  h.wellFormed _ List.mem_cons_self

theorem start (count : Nat) : (start count).History [] := by
  refine ⟨rfl, ⟨rfl, List.pairwise_singleton _ _⟩, fun g hg => ?_⟩
  rw [List.mem_singleton.1 hg]
  exact wellFormed_ofSize count

theorem moves (h : x.History past) (hm : Moves x.store s) : History ⟨s, x.taken⟩ past :=
  ⟨h.taken, h.back.moves hm, List.forall_mem_cons.2
    ⟨hm.wellFormed h.store_wellFormed, (List.forall_mem_cons.1 h.wellFormed).2⟩⟩

theorem snapshot (h : x.History past) :
    (x.next .snapshot).History (x.store.snapshot.2 :: past) := by
  have hwf := h.store_wellFormed.of_slots_eq (t := x.store.snapshot.2) rfl
  refine ⟨?_, h.back.snapshot, List.forall_mem_cons.2 ⟨hwf, List.forall_mem_cons.2
    ⟨hwf, (List.forall_mem_cons.1 h.wellFormed).2⟩⟩⟩
  show x.store.snapshot.1 :: x.taken = mark x.store.snapshot.2 :: past.map mark
  rw [← h.taken]
  rfl

theorem restore {g : Store} (h : x.History (g :: past)) :
    x.next .restore = ⟨x.store.restore (mark g), x.taken⟩ ∧
      (x.next .restore).History (g :: past) := by
  have htaken : x.taken = mark g :: past.map mark := h.taken
  have hnext : x.next .restore = ⟨x.store.restore (mark g), x.taken⟩ := by
    simp only [next, htaken]
  refine ⟨hnext, ?_⟩
  rw [hnext]
  have hpast := (List.forall_mem_cons.1 h.wellFormed).2
  exact ⟨h.taken, h.back.restore, List.forall_mem_cons.2
    ⟨(hpast g List.mem_cons_self).of_slots_eq h.back.sameMoment_restore.1.symm, hpast⟩⟩

theorem commit {g : Store} (h : x.History (g :: past)) :
    x.next .commit = ⟨x.store.commit, past.map mark⟩ ∧ (x.next .commit).History past := by
  have htaken : x.taken = mark g :: past.map mark := h.taken
  have hnext : x.next .commit = ⟨x.store.commit, past.map mark⟩ := by
    simp only [next, htaken]
  refine ⟨hnext, ?_⟩
  rw [hnext]
  have hpast := (List.forall_mem_cons.1 h.wellFormed).2
  exact ⟨rfl, h.back.commit, List.forall_mem_cons.2
    ⟨h.store_wellFormed.of_slots_eq rfl, (List.forall_mem_cons.1 hpast).2⟩⟩

/-- Each operation leaves the way back as it is, adds the moment that it leads to, or drops the
latest one. -/
theorem next (h : x.History past) (hop : x.Allows op) : ∃ past', (x.next op).History past' ∧
    (past' = past ∨ past' = (x.next op).store :: past ∨ ∃ g, past = g :: past') := by
  have hs := h.store_wellFormed
  cases op with
  | fresh => exact ⟨past, h.moves (.single .fresh), .inl rfl⟩
  | find v => exact ⟨past, h.moves (tidies_find hs hop).moves, .inl rfl⟩
  | resolve v =>
    refine ⟨past, h.moves ?_, .inl rfl⟩
    rw [resolve_eq hs hop]
    exact (tidies_find hs hop).moves
  | shallow t => exact ⟨past, h.moves (tidies_shallow hs hop).moves, .inl rfl⟩
  | bind v t => exact ⟨past, h.moves (moves_bind hs hop.1 hop.2), .inl rfl⟩
  | unify a b => exact ⟨past, h.moves (moves_unify hs hop.1 hop.2), .inl rfl⟩
  | snapshot => exact ⟨_, h.snapshot, .inr (.inl rfl)⟩
  | restore =>
    cases past with
    | nil => exact absurd h.taken hop
    | cons g past => exact ⟨_, h.restore.2, .inl rfl⟩
  | commit =>
    cases past with
    | nil => exact absurd h.taken hop
    | cons g past => exact ⟨past, h.commit.2, .inr (.inr ⟨g, rfl⟩)⟩

/-- **A run keeps the moments of the snapshots that stay open.** -/
theorem run {kept : List Store} (hrun : Run (kept.map mark) x y) (h : x.History past)
    (hkept : kept <:+ past) : ∃ past', y.History past' ∧ kept <:+ past' := by
  induction hrun with
  | refl => exact ⟨past, h, hkept⟩
  | @step y op _ hop hbase ih =>
    obtain ⟨past', hy, hkept'⟩ := ih
    obtain ⟨past'', hnext, rfl | rfl | ⟨g, rfl⟩⟩ := hy.next hop
    · exact ⟨_, hnext, hkept'⟩
    · exact ⟨_, hnext, hkept'.trans (List.suffix_cons _ _)⟩
    · refine ⟨past'', hnext, ?_⟩
      rcases List.suffix_cons_iff.1 hkept' with heq | hkept'
      · -- The snapshot that would be closed is one that stays open.
        rw [hnext.taken, heq] at hbase
        have := hbase.length_le
        simp only [List.length_map, List.length_cons] at this
        omega
      · exact hkept'

/-- A reachable session has a way back. -/
theorem of_reachable (hx : x.Reachable) : ∃ past, x.History past := by
  obtain ⟨count, hrun⟩ := hx
  have hrun : Run (([] : List Store).map mark) (Session.start count) x := hrun
  obtain ⟨past, h, -⟩ := run hrun (.start count) (List.suffix_refl _)
  exact ⟨past, h⟩

end History

/-! ### Exactness -/

/-- **Restoring is exact.** However a run goes on from a snapshot, as long as the snapshot stays
open: restoring it gives the slots, the log and the open snapshots that there were when it was
taken, and the run can go on from there. Committing a snapshot inside changes no slot, and all
that was kept is taken back when the outer snapshot is restored. -/
theorem restore_exact {start : Session} (hx : x.Reachable) (hstart : start = x.next .snapshot)
    (hy : Run start.taken start y) :
    (y.taken = start.taken →
      y.next .restore =
        ⟨{ start.store with version := y.store.version + 1 }, start.taken⟩ ∧
      Run start.taken start (y.next .restore)) ∧
    (y.taken ≠ start.taken →
      (y.next .commit).store.slots = y.store.slots ∧
      Run start.taken start (y.next .commit) ∧
      SameMoment ((y.next .commit).store.restore x.store.snapshot.1) start.store) ∧
    y.store.commit.slots = y.store.slots := by
  obtain ⟨past, hpast⟩ := History.of_reachable hx
  have hstarted : start.History (x.store.snapshot.2 :: past) := hstart ▸ hpast.snapshot
  have hstore : start.store = x.store.snapshot.2 := by rw [hstart]; rfl
  have hback : ∀ z, Run start.taken start z → ∃ past', z.History past' ∧
      (x.store.snapshot.2 :: past) <:+ past' := by
    intro z hz
    rw [hstarted.taken] at hz
    exact hstarted.run hz (List.suffix_refl _)
  obtain ⟨past', hy', hkept⟩ := hback y hy
  refine ⟨fun hlevel => ?_, fun hinner => ?_, rfl⟩
  · -- No snapshot is open inside, so that the latest moment is the one looked for.
    have heq : past' = x.store.snapshot.2 :: past := by
      refine (hkept.eq_of_length ?_).symm
      have := congrArg List.length hlevel
      rw [hy'.taken, hstarted.taken, List.length_map, List.length_map] at this
      exact this.symm
    rw [heq] at hy'
    have hopen : (y.store.restore (mark x.store.snapshot.2)).openSnapshots =
        x.store.snapshot.2.openSnapshots := by
      rw [openSnapshots_restore, hy'.back.depth, ← hstarted.back.depth, hstore]
    have hrestored : y.next .restore =
        ⟨{ start.store with version := y.store.version + 1 }, start.taken⟩ := by
      rw [hy'.restore.1, hlevel, hstore, ← version_restore y.store (mark x.store.snapshot.2)]
      exact congrArg (Session.mk · start.taken) (hy'.back.sameMoment_restore.eq hopen)
    refine ⟨hrestored, .step hy ?_ ?_⟩
    · show y.taken ≠ []
      rw [hy'.taken]
      simp
    · rw [hrestored]
  · obtain ⟨inside, hinside⟩ := hkept
    cases inside with
    | nil => exact absurd (hy'.taken.trans (hinside ▸ hstarted.taken.symm)) hinner
    | cons g inside =>
      rw [← hinside] at hy'
      have hy' : y.History (g :: (inside ++ x.store.snapshot.2 :: past)) := hy'
      obtain ⟨hnext, hcommit⟩ := hy'.commit
      refine ⟨by rw [hnext, slots_commit], .step hy ?_ ?_, ?_⟩
      · show y.taken ≠ []
        rw [hy'.taken]
        simp
      · rw [hcommit.taken, hstarted.taken]
        exact (List.suffix_append _ _).map mark
      · rw [hstore]
        have hmem : x.store.snapshot.2 ∈ inside ++ x.store.snapshot.2 :: past := by simp
        exact (hcommit.back.to_mem hmem).sameMoment_restore _

/-- A snapshot inside is committed after two classes were joined, and the outer one is restored. -/
theorem restore_exact_joined :
    let start := (Session.start 2).next .snapshot
    let inner := (start.next .snapshot).next (.unify (.var ⟨0⟩) (.var ⟨1⟩))
    (inner.next .commit).store.slots = inner.store.slots ∧
      inner.store.slots ≠ start.store.slots ∧
      ((inner.next .commit).next .restore).store.slots = start.store.slots := by
  intro start inner
  have hx : (Session.start 2).Reachable := ⟨2, .refl _⟩
  have hinner : Run start.taken start inner :=
    .step (.step (.refl _) (by decide) (by decide)) (by decide) (by decide)
  obtain ⟨hslots, hrun, -⟩ := (restore_exact hx rfl hinner).2.1 (by decide)
  refine ⟨hslots, by decide, ?_⟩
  rw [((restore_exact hx rfl hrun).1 (by decide)).1]

/-! ### Well-formedness and termination -/

/-- **Every store that operations lead to is well-formed**, and on types whose variables it has
each operation comes to an end: links are followed to their end, `apply` and `occurs` go down
into bindings finitely often, and unification has a finite run. Meanings mention unbound roots
only, and are their own meanings. -/
theorem store_sound (hx : x.Reachable) :
    x.store.WellFormed ∧
    (∀ v w, x.store.slot? v = some (.link w) → x.store.Has w) ∧
    (∀ v, x.store.Has v → x.store.Leads v (x.store.root v) ∧
      ∀ fuel, x.store.size ≤ fuel →
        compressWithin (x.store.root v) fuel x.store v = (x.store.find v).2) ∧
    (∀ t, x.store.Covers t →
      Acc x.store.Enters t ∧
      (x.store.apply t = t.mapVars fun v =>
        match x.store.probe v with
        | .var root => .var root
        | bound => x.store.apply bound) ∧
      (∀ v, x.store.occurs v t = t.vars.any fun w =>
        match x.store.probe w with
        | .var root => root == x.store.root v
        | bound => x.store.occurs v bound) ∧
      x.store.apply (x.store.apply t) = x.store.apply t ∧
      ∀ w ∈ (x.store.apply t).vars, ∃ rank, x.store.slot? w = some (.root rank)) ∧
    ∀ a b, x.store.Covers a → x.store.Covers b → Unifies x.store [(a, b)] (x.store.unify a b) := by
  obtain ⟨past, hpast⟩ := History.of_reachable hx
  have hs := hpast.store_wellFormed
  refine ⟨hs, fun v w h => hs.has_next h, fun v hv => ⟨hs.leads_root hv, fun fuel hf => ?_⟩,
    fun t ht => ⟨hs.acc_enters ht, hs.apply_eq ht, fun v => hs.occurs_eq ht, hs.apply_apply ht,
      fun w hw => hs.unbound_of_mem_vars_apply ht hw⟩, fun a b ha hb => unifies_unify hs ha hb⟩
  exact compressWithin_eq hs hv hf

/-- A variable is bound to a type in which another one occurs, and cannot be unified with it
then. -/
theorem store_sound_infinite :
    let x := ((Session.start 2).next (.bind ⟨0⟩ (.tuple [.var ⟨1⟩]))).next
      (.unify (.var ⟨1⟩) (.var ⟨0⟩))
    x.store.apply (.var ⟨0⟩) = .tuple [.var ⟨1⟩] ∧ x.store.WellFormed := by
  intro x
  have hx : x.Reachable :=
    ⟨2, .step (.step (.refl _) (by decide) (by decide)) (by decide) (by decide)⟩
  exact ⟨by decide, (store_sound hx).1⟩

end Session
end TypeResolution
