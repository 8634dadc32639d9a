/-
# Unification is symmetric

Looking a variable up shortens the way to its root: every link that is passed leads to the root
afterwards (`Store.Shortened`). When two variables are looked up, the links that are passed by the
second one may have been shortened already. Those that come after one that has been shortened are
passed by the first variable as well, and so the same links are shortened in either order
(`Store.shortened_tops`).

Two classes are joined by rank, and at equal ranks by index, so that it does not matter which one
is named first (`Store.link_comm`). Therefore unification leaves the same slots if its two types
are exchanged, whether it succeeds or not, and meets the same conflict with the sides exchanged
(`Store.unify_flip`). It also looks up the same variables, and has written something or not.

Key definitions: `UnifyError.flip`, `Store.Passes`, `Store.Shortened`, `Store.Together`.
Key theorems: `Store.shortened_tops`, `Store.link_comm`, `Store.unifyWithin_flip`,
`Store.unify_flip`.
-/
import TypeResolution.Proofs.Store.Lookup

namespace TypeResolution

/-- The conflict as it is met when the two types are exchanged. -/
def UnifyError.flip : UnifyError → UnifyError
  | .mismatch left right => .mismatch right left
  | .occurs v t => .occurs v t

namespace Store

open Relation (ReflTransGen TransGen)

variable {s s' s'' t t' s₀ t₀ : Store} {v w x r : TyVar} {a b type : Ty} {P Q : TyVar → Prop}

/-! ### Shortened ways -/

/-- The variable `x` is linked, and is passed on the way from `v` to its root. -/
inductive Passes (s : Store) : TyVar → TyVar → Prop where
  | here {v w : TyVar} : s.slot? v = some (.link w) → Passes s v v
  | later {v w x : TyVar} : s.slot? v = some (.link w) → Passes s w x → Passes s v x

namespace Passes

theorem trans (h : Passes s v w) (h' : Passes s w x) : Passes s v x := by
  induction h with
  | here => exact h'
  | later hslot _ ih => exact .later hslot (ih h')

theorem exists_link (h : Passes s v x) : ∃ w, s.slot? v = some (.link w) := by
  cases h with
  | here hslot => exact ⟨_, hslot⟩
  | later hslot _ => exact ⟨_, hslot⟩

theorem reflTransGen (h : Passes s v x) :
    ReflTransGen (fun v w => s.slot? v = some (.link w)) v x := by
  induction h with
  | here => exact .refl
  | later hslot _ ih => exact .head hslot ih

/-- A linked variable is passed, and then what is passed from the next one. -/
theorem link_iff (hv : s.slot? v = some (.link w)) : x = v ∨ Passes s w x ↔ Passes s v x := by
  refine ⟨?_, fun hx => ?_⟩
  · rintro (rfl | hx)
    · exact .here hv
    · exact .later hv hx
  · cases hx with
    | here => exact .inl rfl
    | later hv' hx =>
      rw [hv] at hv'
      obtain rfl := Slot.link.inj (Option.some.inj hv')
      exact .inr hx

/-- A variable is not passed again after it has been passed. -/
theorem not_of_link (hv : s.slot? v = some (.link w)) (hl : s.Leads w r) : ¬ Passes s w v :=
  fun h => (Leads.link hv hl).not_transGen (TransGen.head' hv h.reflTransGen)

/-- Nothing is passed on the way from a root. -/
theorem not_of_root {y : TyVar} (hl : s.Leads y r) : ¬ Passes s r x := by
  intro h
  obtain ⟨w, hw⟩ := h.exists_link
  rcases hl.slot_root with ⟨k, hk⟩ | ⟨t, ht⟩
  · rw [hw] at hk
    cases hk
  · rw [hw] at ht
    cases ht

/-- What comes after a link does not depend on it. -/
theorem write_iff {c : Slot} (hv : ∃ u, s.slot? v = some (.link u)) (hw : ¬ Passes s w v) :
    Passes (s.write v c) w x ↔ Passes s w x := by
  obtain ⟨u, hu⟩ := hv
  have hne : ∀ {y}, ¬ Passes s y v → y ≠ v := by
    rintro y hy rfl
    exact hy (.here hu)
  constructor
  · intro h
    induction h with
    | here hslot =>
      rw [slot?_write_of_ne (hne hw)] at hslot
      exact .here hslot
    | later hslot _ ih =>
      rw [slot?_write_of_ne (hne hw)] at hslot
      exact .later hslot (ih fun h => hw (.later hslot h))
  · intro h
    induction h with
    | here hslot => exact .here (by rwa [slot?_write_of_ne (hne hw)])
    | later hslot _ ih =>
      exact .later (by rwa [slot?_write_of_ne (hne hw)]) (ih fun h => hw (.later hslot h))

end Passes

/-- Some links have been made to lead to their roots, and nothing else has been written. -/
structure Shortened (s : Store) (P : TyVar → Prop) (s' : Store) : Prop extends Tidies s s' where
  size : s'.size = s.size
  passed : ∀ x, P x → ∃ r, s.Leads x r ∧ s'.slot? x = some (.link r)
  others : ∀ x, ¬ P x → s'.slot? x = s.slot? x
  version_le : s.version ≤ s'.version
  written : s'.version = s.version ↔ s'.slots = s.slots

theorem slots_eq_of_slot? (h : ∀ v, s.slot? v = t.slot? v) : s.slots = t.slots :=
  Array.ext_getElem? fun i => h ⟨i⟩

namespace Shortened

theorem refl (s : Store) : Shortened s (fun _ => False) s :=
  ⟨.refl s, rfl, fun _ h => h.elim, fun _ _ => rfl, Nat.le_refl _, ⟨fun _ => rfl, fun _ => rfl⟩⟩

theorem congr (h : Shortened s P s') (hPQ : ∀ x, P x ↔ Q x) : Shortened s Q s' :=
  (funext fun x => propext (hPQ x) : P = Q) ▸ h

/-- The slots are told by which links have been shortened. -/
theorem slots_eq (h : Shortened s P s') (h' : Shortened t P t') (hslots : s.slots = t.slots) :
    s'.slots = t'.slots := by
  refine slots_eq_of_slot? fun x => ?_
  by_cases hx : P x
  · obtain ⟨r, hl, hslot⟩ := h.passed x hx
    obtain ⟨r', hl', hslot'⟩ := h'.passed x hx
    rw [hslot, hslot', hl'.unique (leads_of_slots_eq hslots hl)]
  · rw [h.others x hx, h'.others x hx, slot?_congr hslots]

theorem leads_back (h : Shortened s P s') (hs : s.WellFormed) (hl : s'.Leads x r) :
    s.Leads x r := by
  have hx : s.Has x := by
    have := hl.has
    unfold Has at this ⊢
    rwa [h.size] at this
  have hroot := hs.leads_root hx
  rwa [(h.leads _ _ hroot).unique hl] at hroot

theorem trans (h : Shortened s P s') (h' : Shortened s' Q s'') (hs : s.WellFormed) :
    Shortened s (fun x => P x ∨ Q x) s'' := by
  have hpassed : ∀ x, P x ∨ Q x → ∃ r, s.Leads x r ∧ s''.slot? x = some (.link r) := by
    intro x hx
    by_cases hQ : Q x
    · obtain ⟨r, hl, hslot⟩ := h'.passed x hQ
      exact ⟨r, h.leads_back hs hl, hslot⟩
    · obtain ⟨r, hl, hslot⟩ := h.passed x (hx.resolve_right hQ)
      exact ⟨r, hl, (h'.others x hQ).trans hslot⟩
  refine ⟨h.toTidies.trans h'.toTidies, h'.size.trans h.size, hpassed, fun x hx => ?_,
    h.version_le.trans h'.version_le, fun hversion => ?_, fun hslots => ?_⟩
  · exact (h'.others x fun hQ => hx (.inr hQ)).trans (h.others x fun hP => hx (.inl hP))
  · have hle := h.version_le
    have hle' := h'.version_le
    exact (h'.written.1 (by omega)).trans (h.written.1 (by omega))
  · -- A link that has been shortened stays so, and would be seen at the end.
    have hfirst : s'.slots = s.slots := by
      refine slots_eq_of_slot? fun x => ?_
      by_cases hP : P x
      · obtain ⟨r, hl, hslot⟩ := h.passed x hP
        obtain ⟨r', hl', hslot'⟩ := hpassed x (.inl hP)
        rw [hslot, hl.unique hl', ← hslot', slot?_congr hslots]
      · exact h.others x hP
    exact (h'.written.2 (hslots.trans hfirst.symm)).trans (h.written.2 hfirst)

end Shortened

/-- One link is made to lead to its root. -/
theorem shortened_write (hv : s.slot? v = some (.link w)) (hl : s.Leads w r) (hne : w ≠ r) :
    Shortened s (· = v) (s.write v (.link r)) := by
  have hhas := has_of_slot? hv
  have hversion : (s.write v (.link r)).version = s.version + 1 := by
    unfold write
    rw [hv]
  refine ⟨.shorten hv hl, size_write s v _, ?_, fun x hx => slot?_write_of_ne hx _,
    by omega, fun h => by omega, fun hslots => ?_⟩
  · rintro x rfl
    exact ⟨r, .link hv hl, slot?_write_self hhas _⟩
  · have hslot := congrFun (slot?_congr hslots) v
    rw [slot?_write_self hhas, hv] at hslot
    exact absurd (Slot.link.inj (Option.some.inj hslot)).symm hne

/-- The last link on the way leads to the root already. -/
theorem Shortened.last (h : Shortened s (Passes s r) s') (hv : s.slot? v = some (.link r))
    (hl : s.Leads r r) : Shortened s (Passes s v) s' := by
  have hagain : ¬ Passes s r v := Passes.not_of_link hv hl
  refine ⟨h.toTidies, h.size, fun x hx => ?_, fun x hx => ?_, h.version_le, h.written⟩
  · rcases (Passes.link_iff hv).2 hx with rfl | hx
    · exact ⟨r, .link hv hl, (h.others x hagain).trans hv⟩
    · exact h.passed x hx
  · exact h.others x fun hr => hx (.later hv hr)

theorem shortened_compressWithin {h : TyVar → Nat} : ∀ (fuel : Nat) {s : Store} {v : TyVar},
    s.WellFormed → (∀ v w, s.slot? v = some (.link w) → h w < h v) → s.Leads v r → h v ≤ fuel →
    Shortened s (Passes s v) (compressWithin r fuel s v)
  | 0, s, v, _, hh, hl, hf => by
    cases hl with
    | root hc hn =>
      exact (Shortened.refl s).congr fun x => ⟨False.elim, Passes.not_of_root (.root hc hn)⟩
    | link hslot _ =>
      have := hh _ _ hslot
      omega
  | fuel + 1, s, v, hs, hh, hl, hf => by
    unfold compressWithin
    by_cases hvr : v = r
    · subst hvr
      rw [if_pos rfl]
      exact (Shortened.refl s).congr fun x => ⟨False.elim, Passes.not_of_root hl⟩
    · rw [if_neg hvr]
      cases hl with
      | root => exact absurd rfl hvr
      | @link _ next _ hslot hnext =>
        have hlt := hh _ _ hslot
        rw [hslot]
        by_cases heq : next = r
        · obtain rfl := heq.symm
          simp only [if_true]
          exact (shortened_compressWithin fuel hs hh hnext (by omega)).last hslot hnext
        · simp only [heq, if_false]
          have hfirst := shortened_write hslot hnext heq
          have hrest := shortened_compressWithin fuel (hfirst.moves.wellFormed hs)
            (height_shorten hh hslot hnext) (hfirst.leads _ _ hnext) (by omega)
          have hlater : ∀ x, Passes (s.write v (.link r)) next x ↔ Passes s next x := fun x =>
            Passes.write_iff ⟨next, hslot⟩ (Passes.not_of_link hslot hnext)
          exact (hfirst.trans (hrest.congr hlater) hs).congr fun x => Passes.link_iff hslot

/-- Looking a variable up shortens the links that are passed on the way. -/
theorem shortened_find (hs : s.WellFormed) (hv : s.Has v) :
    Shortened s (Passes s v) (s.find v).2 := by
  obtain ⟨h, hh, hsize⟩ := hs.exists_linkHeight
  exact shortened_compressWithin s.size hs hh (hs.leads_root hv) (hsize v hv).le

/-- The links that are passed when a type is looked up, if it is a variable. -/
def PassesTop (s : Store) (type : Ty) (x : TyVar) : Prop := ∃ v, type = .var v ∧ Passes s v x

theorem shortened_shallow (hs : s.WellFormed) (ht : s.ownsTop type = true) :
    Shortened s (s.PassesTop type) (s.shallow type).2 := by
  cases type with
  | var v =>
    refine (shortened_find hs (owns_iff.1 ht)).congr fun x => ⟨fun h => ⟨v, rfl, h⟩, ?_⟩
    rintro ⟨w, hw, h⟩
    obtain rfl := Ty.var.inj hw
    exact h
  | _ =>
    refine (Shortened.refl s).congr fun x => ⟨False.elim, ?_⟩
    rintro ⟨w, hw, -⟩
    cases hw

/-- When a second way is taken, no other links are passed than those that are passed on one of
the ways before they are shortened. -/
theorem Shortened.passes_iff (h : Shortened s (s.PassesTop type) s') :
    s.PassesTop type x ∨ Passes s' v x ↔ s.PassesTop type x ∨ Passes s v x := by
  constructor
  · rintro (hx | hx)
    · exact .inl hx
    · induction hx with
      | @here v w hslot =>
        by_cases hv : s.PassesTop type v
        · exact .inl hv
        · rw [h.others v hv] at hslot
          exact .inr (.here hslot)
      | @later v w x hslot hx ih =>
        by_cases hv : s.PassesTop type v
        · -- A link that has been shortened leads to a root.
          obtain ⟨r, hl, hslot'⟩ := h.passed v hv
          rw [hslot] at hslot'
          obtain rfl := Slot.link.inj (Option.some.inj hslot')
          exact absurd hx (Passes.not_of_root (h.leads _ _ hl))
        · rw [h.others v hv] at hslot
          exact ih.imp_right (.later hslot)
  · rintro (hx | hx)
    · exact .inl hx
    · induction hx with
      | @here v w hslot =>
        by_cases hv : s.PassesTop type v
        · exact .inl hv
        · exact .inr (.here ((h.others v hv).trans hslot))
      | @later v w x hslot hx ih =>
        rcases ih with hx' | hx'
        · exact .inl hx'
        · by_cases hv : s.PassesTop type v
          · obtain ⟨u, hu, hpasses⟩ := hv
            exact .inl ⟨u, hu, hpasses.trans (.later hslot hx)⟩
          · exact .inr (.later ((h.others v hv).trans hslot) hx')

/-- **Looking two types up** shortens the links that are passed by one of them. -/
theorem shortened_tops (hs : s.WellFormed) (ha : s.ownsTop a = true) (hb : s.ownsTop b = true) :
    Shortened s (fun x => s.PassesTop a x ∨ s.PassesTop b x) (s.tops a b).2 := by
  have hfirst := shortened_shallow hs ha
  have hsecond := shortened_shallow (hfirst.moves.wellFormed hs) (ownsTop_moves hfirst.moves hb)
  refine (hfirst.trans hsecond hs).congr fun x => ?_
  cases b with
  | var w =>
    have hiff := hfirst.passes_iff (v := w) (x := x)
    simpa [PassesTop] using hiff
  | _ => simp [PassesTop]

/-! ### Stores that are written to together -/

/-- Stores of the same slots, both of which have been written to since two earlier ones, or
neither. -/
structure Together (s₀ t₀ s t : Store) : Prop where
  slots : s.slots = t.slots
  left : s₀.version ≤ s.version
  right : t₀.version ≤ t.version
  written : s.version = s₀.version ↔ t.version = t₀.version

theorem Together.refl (h : s.slots = t.slots) : Together s t s t :=
  ⟨h, Nat.le_refl _, Nat.le_refl _, ⟨fun _ => rfl, fun _ => rfl⟩⟩

theorem parallel_together (s₀ t₀ : Store) : Parallel (Together s₀ t₀) where
  slots h := h.slots
  write := by
    intro s t h v c
    have hslot := congrFun (slot?_congr h.slots) v
    have hleft := h.left
    have hright := h.right
    unfold write
    rw [hslot]
    split
    · exact h
    · exact ⟨by simp only [h.slots], by dsimp only; omega, by dsimp only; omega,
        ⟨fun _ => by dsimp only at *; omega, fun _ => by dsimp only at *; omega⟩⟩
  fresh := by
    intro s t h
    exact ⟨by simp only [fresh, h.slots], h.left, h.right, h.written⟩

/-- Looking two types up in either order leads to the same slots, with or without writing. -/
theorem Together.tops (h : Together s₀ t₀ s t) (hs : s.WellFormed) (ha : s.ownsTop a = true)
    (hb : s.ownsTop b = true) :
    ∃ s' t', s.tops a b = ((s.top a, s.top b), s') ∧ t.tops b a = ((s.top b, s.top a), t') ∧
      Tidies s s' ∧ Together s₀ t₀ s' t' := by
  have ht := hs.of_slots_eq h.slots
  rw [ownsTop_congr h.slots] at ha hb
  have hflipped := shortened_tops ht hb ha
  obtain ⟨t', htops', -⟩ := tops_eq_top ht hb ha
  rw [← ownsTop_congr h.slots] at ha hb
  have hshort := shortened_tops hs ha hb
  obtain ⟨s', htops, htidy⟩ := tops_eq_top hs ha hb
  rw [htops] at hshort
  rw [htops', ← top_congr h.slots] at hflipped
  rw [← top_congr h.slots] at htops'
  have hpasses : ∀ x, t.PassesTop b x ∨ t.PassesTop a x ↔ s.PassesTop a x ∨ s.PassesTop b x := by
    have hone : ∀ {s t : Store} {v x}, s.slots = t.slots → Passes s v x → Passes t v x := by
      intro s t v x hslots hx
      induction hx with
      | here hslot => exact .here ((congrFun (slot?_congr hslots) _).symm.trans hslot)
      | later hslot _ ih => exact .later ((congrFun (slot?_congr hslots) _).symm.trans hslot) ih
    have hiff : ∀ {v x}, Passes t v x ↔ Passes s v x := ⟨hone h.slots.symm, hone h.slots⟩
    intro x
    simp only [PassesTop, hiff]
    exact or_comm
  have hslots := hshort.slots_eq (hflipped.congr hpasses) h.slots
  refine ⟨s', t', htops, htops', htidy, hslots, h.left.trans hshort.version_le,
    h.right.trans hflipped.version_le, ?_⟩
  have hunwritten : s'.slots = s.slots ↔ t'.slots = t.slots := by rw [hslots, h.slots]
  have hleft := hshort.written.trans (hunwritten.trans hflipped.written.symm)
  have h₁ := h.left
  have h₂ := h.right
  have h₃ := hshort.version_le
  have h₄ := hflipped.version_le
  have h₅ := h.written
  dsimp only at hleft h₃ h₄
  omega

/-! ### Exchanging two types -/

/-- It does not matter which of two roots is named first when they are joined. -/
theorem link_comm {j k : Nat} (hs : s.WellFormed) (hv : s.slot? v = some (.root j))
    (hw : s.slot? w = some (.root k)) : s.link v w = s.link w v := by
  unfold link
  simp only [find_of_root hs hv, find_of_root hs hw, rank_eq hv, rank_eq hw]
  by_cases hvw : v = w
  · simp [hvw]
  have hindex : v.index ≠ w.index := fun h => hvw (congrArg TyVar.mk h)
  rw [if_neg hvw, if_neg (Ne.symm hvw)]
  rcases Nat.lt_trichotomy j k with hlt | heq | hlt
  · rw [if_neg (by omega), if_pos hlt, if_pos hlt]
  · subst heq
    simp only [lt_irrefl, if_false]
    rcases Nat.lt_or_gt_of_ne hindex with hlt | hlt
    · simp [hlt, Nat.lt_asymm hlt]
    · simp [hlt, Nat.lt_asymm hlt]
  · rw [if_pos hlt, if_neg (by omega), if_pos hlt]

/-- The result with the types exchanged: the same slots, and the same conflict with its sides
exchanged. -/
structure Flipped (s₀ t₀ : Store) (p q : Unified) : Prop where
  conflict : q.conflict = p.conflict.map UnifyError.flip
  store : Together s₀ t₀ p.store q.store

theorem Flipped.mismatch (h : Together s₀ t₀ s t) (a b : Ty) :
    Flipped s₀ t₀ (s.mismatch a b) (t.mismatch b a) := by
  refine ⟨?_, h⟩
  unfold Store.mismatch
  rw [apply_congr h.slots]
  rfl

/-- A conflict that is met when a variable is bound has no sides. -/
theorem flip_of_bindRoot {e : UnifyError} (h : (s.bindRoot v type).conflict = some e) :
    e.flip = e := by
  cases hn : type.isVar with
  | true =>
    obtain ⟨w, rfl⟩ := Ty.eq_var_of_isVar hn
    cases h
  | false =>
    rw [bindRoot_eq hn] at h
    split at h
    · obtain rfl := Option.some.inj h
      rfl
    · cases h

theorem Flipped.bindRoot (h : Together s₀ t₀ s t) (v : TyVar) (type : Ty) :
    Flipped s₀ t₀ (s.bindRoot v type) (t.bindRoot v type) := by
  obtain ⟨hconflict, hstore⟩ := (parallel_together s₀ t₀).bindRoot h v type
  refine ⟨?_, hstore⟩
  rw [← hconflict]
  cases hc : (s.bindRoot v type).conflict with
  | none => rfl
  | some e => rw [Option.map_some, flip_of_bindRoot hc]

/-- What is left to do about two types is the same when they are exchanged, except that of two
variables the other one is bound. -/
inductive ExchangedComparison (a b : Ty) : Comparison → Comparison → Prop where
  | agree : ExchangedComparison a b .agree .agree
  | bind {v : TyVar} {type : Ty} : ExchangedComparison a b (.bind v type) (.bind v type)
  | vars {v w : TyVar} : a = .var v → b = .var w →
      ExchangedComparison a b (.bind v (.var w)) (.bind w (.var v))
  | structural : ExchangedComparison a b .structural .structural

theorem exchangedComparison (a b : Ty) :
    ExchangedComparison a b (Comparison.of a b) (Comparison.of b a) := by
  unfold Comparison.of
  by_cases hab : a = b
  · rw [if_pos hab, if_pos hab.symm]
    exact .agree
  rw [if_neg hab, if_neg (Ne.symm hab)]
  cases a <;> cases b <;> first
    | exact .agree
    | exact .vars rfl rfl
    | exact .bind
    | exact .structural

section Exchange

variable {owned : Store → Ty → Ty → Bool} {step : Store → Ty → Ty → Option Unified}

theorem unifyAll_flip
    (hmoves : ∀ {s : Store} {a b : Ty} {u : Unified}, s.WellFormed → owned s a b = true →
      step s a b = some u → Moves s u.store)
    (hstep : ∀ {s t : Store} (a b : Ty), s.WellFormed → Together s₀ t₀ s t →
      owned s a b = true → owned t b a = true ∧
        Option.Rel (Flipped s₀ t₀) (step s a b) (step t b a)) :
    ∀ (as bs : List Ty) {s t : Store}, s.WellFormed → Together s₀ t₀ s t →
      unifyOwnsAll owned step s as bs = true → unifyOwnsAll owned step t bs as = true ∧
        Option.Rel (Flipped s₀ t₀) (unifyAll step s as bs) (unifyAll step t bs as)
  | [], bs, s, t, _, h, _ => by
    cases bs <;> exact ⟨rfl, .some ⟨rfl, h⟩⟩
  | _ :: _, [], s, t, _, h, _ => ⟨rfl, .some ⟨rfl, h⟩⟩
  | a :: as, b :: bs, s, t, hs, h, howned => by
    unfold unifyOwnsAll at howned ⊢
    obtain ⟨hfirst, hrest⟩ := Bool.and_eq_true_iff.1 howned
    obtain ⟨hfirst', hrel⟩ := hstep a b hs h hfirst
    rw [hfirst', Bool.true_and]
    unfold unifyAll
    rcases hstep₁ : step s a b with _ | ⟨s', _ | e⟩ <;>
      rcases hstep₂ : step t b a with _ | ⟨t', _ | e'⟩ <;>
      rw [hstep₁, hstep₂] at hrel <;> cases hrel
    · exact ⟨rfl, .none⟩
    · rename_i hflipped
      rw [hstep₁] at hrest
      have hs' := (hmoves hs hfirst hstep₁).wellFormed hs
      exact unifyAll_flip hmoves hstep as bs hs' hflipped.store hrest
    · rename_i hflipped
      cases hflipped.conflict
    · rename_i hflipped
      cases hflipped.conflict
    · rename_i hflipped
      exact ⟨rfl, .some hflipped⟩

end Exchange

/-- **Unification within a bound is symmetric.** -/
theorem unifyWithin_flip : ∀ (fuel : Nat) {s t : Store} (a b : Ty), s.WellFormed →
    Together s₀ t₀ s t → unifyOwnsWithin fuel s a b = true →
    unifyOwnsWithin fuel t b a = true ∧
      Option.Rel (Flipped s₀ t₀) (unifyWithin fuel s a b) (unifyWithin fuel t b a)
  | 0, _, _, _, _, _, _, _ => ⟨rfl, .none⟩
  | fuel + 1, s, t, a, b, hs, h, howned => by
    have hboth := howned
    unfold unifyOwnsWithin at hboth
    obtain ⟨ha, hb⟩ := Bool.and_eq_true_iff.1 (Bool.and_eq_true_iff.1 hboth).1
    obtain ⟨s', t', htops, htops', htidy, h'⟩ := h.tops hs ha hb
    have hs' := htidy.moves.wellFormed hs
    have hsize := ownsAll_congr h'.slots
    rw [unifyOwnsWithin_succ htops] at howned
    have hafter := (Bool.and_eq_true_iff.1 howned).2
    rw [unifyOwnsWithin_succ htops', unifyWithin_succ fuel htops, unifyWithin_succ fuel htops',
      ← ownsTop_congr h.slots, ha, hb, Bool.and_self, Bool.true_and]
    have hcmp := exchangedComparison (s.top a) (s.top b)
    generalize Comparison.of (s.top a) (s.top b) = c at hafter hcmp ⊢
    generalize Comparison.of (s.top b) (s.top a) = d at hcmp ⊢
    cases hcmp with
    | agree => exact ⟨rfl, .some ⟨rfl, h'⟩⟩
    | @bind v type => exact ⟨hsize ▸ hafter, .some (.bindRoot h' v type)⟩
    | @vars v w hva hwb =>
      obtain ⟨j, hj⟩ := root_of_top hs ha hva
      obtain ⟨k, hk⟩ := root_of_top hs hb hwb
      have hj := htidy.root_iff.1 hj
      refine ⟨?_, .some ⟨rfl, ?_⟩⟩
      · rw [← hsize]
        exact ownsAll_iff.2 (covers_var.2 (has_of_slot? hj))
      · show Together s₀ t₀ (s'.link v w) (t'.link w v)
        rw [link_comm hs' hj (htidy.root_iff.1 hk)]
        exact (parallel_together s₀ t₀).link h' w v
    | structural =>
      dsimp only at hafter ⊢
      by_cases hshape : (s.top a).shape = (s.top b).shape ∧
          (s.top a).children.length = (s.top b).children.length
      · rw [if_pos hshape] at hafter
        have hshape' := And.intro hshape.1.symm hshape.2.symm
        rw [if_pos hshape', if_pos hshape, if_pos hshape']
        exact unifyAll_flip (fun hs => moves_of_unifyOwnsWithin fuel hs)
          (fun a b hs h => unifyWithin_flip fuel a b hs h) _ _ hs' h' hafter
      · rw [if_neg hshape] at hafter
        have hshape' : ¬ ((s.top b).shape = (s.top a).shape ∧
            (s.top b).children.length = (s.top a).children.length) :=
          fun h => hshape ⟨h.1.symm, h.2.symm⟩
        rw [if_neg hshape', if_neg hshape, if_neg hshape', ← hsize, Bool.and_comm]
        exact ⟨hafter, .some (Flipped.mismatch h' _ _)⟩

theorem unifyDepth_comm (s : Store) (a b : Ty) : s.unifyDepth a b = s.unifyDepth b a := by
  unfold unifyDepth
  rw [max_comm]

/-- **Unification is symmetric**: with the types exchanged it looks up nothing either that the
store does not have, leaves the same slots, and meets the same conflict with the sides
exchanged. -/
theorem unify_flip (hs : s.WellFormed) (hslots : s.slots = t.slots)
    (howned : s.unifyOwns a b = true) :
    t.unifyOwns b a = true ∧ Flipped s t (s.unify a b) (t.unify b a) := by
  have h := Together.refl hslots
  have hdepth : t.unifyDepth b a = s.unifyDepth a b := by
    rw [unifyDepth_comm, unifyDepth_congr hslots]
  unfold unifyOwns at howned ⊢
  unfold unify
  rw [hdepth]
  obtain ⟨howned', hrel⟩ := unifyWithin_flip (s.unifyDepth a b) a b hs h howned
  refine ⟨howned', ?_⟩
  rcases hs' : unifyWithin (s.unifyDepth a b) s a b with _ | p <;>
    rcases ht' : unifyWithin (s.unifyDepth a b) t b a with _ | q <;>
    rw [hs', ht'] at hrel <;> cases hrel
  · exact .mismatch h a b
  · rename_i hflipped
    exact hflipped

/-- Whether the store has what is looked up does not depend on which of the types comes first. -/
theorem unifyOwns_flip (hs : s.WellFormed) (hslots : s.slots = t.slots) :
    s.unifyOwns a b = t.unifyOwns b a :=
  Bool.eq_iff_iff.2 ⟨fun h => (unify_flip hs hslots h).1,
    fun h => (unify_flip (hs.of_slots_eq hslots) hslots.symm h).1⟩

end Store
end TypeResolution
