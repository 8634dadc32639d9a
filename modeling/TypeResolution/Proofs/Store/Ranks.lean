/-
# Ranks bound the sizes of classes

An unbound root of rank `k` has at least `2 ^ k` variables in its class (`Store.Ranked`), so that
no rank exceeds the logarithm of the number of variables. Shortening links and binding leave the
classes as they are, and a fresh variable is alone in its class and has rank 0. A rank goes up only
where two classes of this rank become one.

`link` raises the rank before it joins the classes, and in between the bound does not hold. But the
two writes are to different slots: in the other order, the classes are joined at the old rank, and
by then the class is large enough for the new one.

A binding takes the rank of its root away, so that nothing is said of bound classes. Only unbound
ones are joined.

Key definitions: `Store.members`, `Store.Ranked`.
Key theorems: `Store.Ranked.le_log2`, `Store.Ranked.succ_le_log2`, `Store.card_members_join`,
`Store.Ranked.link`, `Store.Ranked.bindRoot`.
-/
import Mathlib.Algebra.Order.Ring.Nat
import TypeResolution.Proofs.Store.History

namespace TypeResolution
namespace Store

variable {s s' : Store} {v w r : TyVar} {t : Ty} {j k : Nat}

/-- The variables of the class of a root, by their indices. -/
def members (s : Store) (r : TyVar) : Finset Nat :=
  (Finset.range s.size).filter fun i => s.root ⟨i⟩ = r

/-- An unbound root of rank `k` has at least `2 ^ k` variables in its class. -/
def Ranked (s : Store) : Prop := ∀ r k, s.slot? r = some (.root k) → 2 ^ k ≤ (s.members r).card

/-! ### Classes as sets -/

theorem mem_members (hs : s.WellFormed) {i : Nat} : i ∈ s.members r ↔ s.Leads ⟨i⟩ r := by
  unfold members
  rw [Finset.mem_filter, Finset.mem_range]
  constructor
  · rintro ⟨hi, rfl⟩
    exact hs.leads_root hi
  · intro hl
    exact ⟨hl.has, hs.root_eq hl⟩

theorem members_subset {r' : TyVar} (hs : s.WellFormed) (hs' : s'.WellFormed)
    (h : ∀ v, s.Leads v r → s'.Leads v r') : s.members r ⊆ s'.members r' := fun i hi =>
  (mem_members hs').2 (h ⟨i⟩ ((mem_members hs).1 hi))

theorem disjoint_members (h : v ≠ w) : Disjoint (s.members v) (s.members w) :=
  Finset.disjoint_filter.2 fun _ _ hv hw => h (hv.symm.trans hw)

theorem card_members_le (s : Store) (r : TyVar) : (s.members r).card ≤ s.size :=
  (Finset.card_filter_le _ _).trans_eq (Finset.card_range s.size)

/-- Two classes have no more variables together than there are. -/
theorem card_members_add_le (h : v ≠ w) :
    (s.members v).card + (s.members w).card ≤ s.size := by
  rw [← Finset.card_union_of_disjoint (disjoint_members h)]
  have hsub : s.members v ∪ s.members w ⊆ Finset.range s.size :=
    Finset.union_subset (Finset.filter_subset _ _) (Finset.filter_subset _ _)
  simpa using Finset.card_le_card hsub

/-- A class that is joined to another one brings its variables along. -/
theorem card_members_join (hs : s.WellFormed) (hv : s.slot? v = some (.root j))
    (hw : s.slot? w = some (.root k)) (hvw : v ≠ w) :
    (s.members v).card + (s.members w).card ≤ ((s.write v (.link w)).members w).card := by
  have hs' := wellFormed_join hs hv hw hvw
  have hjoined : ∀ x y, s.Leads x y → y = v ∨ y = w → (s.write v (.link w)).Leads x w := by
    rintro x y hx (rfl | rfl)
    · simpa using leads_join hv hw hvw hx
    · simpa [hvw.symm] using leads_join hv hw hvw hx
  rw [← Finset.card_union_of_disjoint (disjoint_members hvw)]
  exact Finset.card_le_card (Finset.union_subset
    (members_subset hs hs' fun x hx => hjoined x v hx (.inl rfl))
    (members_subset hs hs' fun x hx => hjoined x w hx (.inr rfl)))

/-! ### Bounds on ranks -/

theorem size_ne_zero {c : Slot} (h : s.slot? v = some c) : s.size ≠ 0 :=
  Nat.ne_of_gt (Nat.zero_lt_of_lt (has_of_slot? h))

/-- Where something else than a root is written, the unbound roots are other variables, and were
roots before. -/
theorem root_of_write {c : Slot} (hc : ∀ k, c ≠ .root k)
    (hr : (s.write v c).slot? r = some (.root k)) : r ≠ v ∧ s.slot? r = some (.root k) := by
  have hrv : r ≠ v := by
    rintro rfl
    have hhas : s.Has r := has_write.1 (has_of_slot? hr)
    rw [slot?_write_self hhas] at hr
    exact hc k (Option.some.inj hr)
  rw [slot?_write_of_ne hrv] at hr
  exact ⟨hrv, hr⟩

namespace Ranked

theorem le_log2 (h : s.Ranked) (hr : s.slot? r = some (.root k)) : k ≤ Nat.log2 s.size :=
  (Nat.le_log2 (size_ne_zero hr)).2 ((h r k hr).trans (card_members_le s r))

/-- Where there are two classes of one rank, the next rank is no larger than the bound either. -/
theorem succ_le_log2 (h : s.Ranked) (hv : s.slot? v = some (.root k))
    (hw : s.slot? w = some (.root k)) (hvw : v ≠ w) : k + 1 ≤ Nat.log2 s.size := by
  refine (Nat.le_log2 (size_ne_zero hv)).2 ?_
  calc 2 ^ (k + 1) = 2 ^ k + 2 ^ k := Nat.two_pow_succ k
    _ ≤ (s.members v).card + (s.members w).card := Nat.add_le_add (h v k hv) (h w k hw)
    _ ≤ s.size := card_members_add_le hvw

/-! ### What keeps the bound -/

/-- It is enough that each unbound root has rank 0, or had a class that was large enough and is
kept. -/
theorem of_classes (hs : s.WellFormed) (hs' : s'.WellFormed)
    (h : ∀ r k, s'.slot? r = some (.root k) →
      k = 0 ∨ 2 ^ k ≤ (s.members r).card ∧ ∀ v, s.Leads v r → s'.Leads v r) : s'.Ranked := by
  intro r k hr
  rcases h r k hr with rfl | ⟨hcard, hleads⟩
  · have hself : r.index ∈ s'.members r := (mem_members hs').2 (.root hr nofun)
    exact Finset.card_pos.2 ⟨_, hself⟩
  · exact hcard.trans (Finset.card_le_card (members_subset hs hs' hleads))

theorem congr (hslots : s.slots = s'.slots) (h : s.Ranked) : s'.Ranked := by
  have hmembers : s.members = s'.members := by
    funext r
    unfold members size
    rw [hslots, root_congr hslots]
  intro r k hr
  rw [← hmembers]
  exact h r k (by rw [slot?_congr hslots, hr])

theorem ofSize (count : Nat) : (ofSize count).Ranked :=
  of_classes (wellFormed_ofSize count) (wellFormed_ofSize count) fun _ _ hr =>
    .inl (Slot.root.inj (slot_ofSize hr))

theorem tidies (h : s.Ranked) (hs : s.WellFormed) (htidy : Tidies s s') : s'.Ranked :=
  of_classes hs (htidy.moves.wellFormed hs) fun r k hr =>
    .inr ⟨h r k (htidy.root_iff.2 hr), fun v hv => htidy.leads v r hv⟩

theorem fresh (h : s.Ranked) (hs : s.WellFormed) : s.fresh.2.Ranked := by
  refine of_classes hs (wellFormed_fresh hs) fun r k hr => ?_
  rw [slot?_fresh] at hr
  split at hr
  · exact .inl (Slot.root.inj (Option.some.inj hr)).symm
  · exact .inr ⟨h r k hr, fun v hv => leads_fresh hv⟩

theorem bind (h : s.Ranked) (hs : s.WellFormed) (hs' : (s.write v (.bound t)).WellFormed)
    (hv : s.slot? v = some (.root k)) : (s.write v (.bound t)).Ranked := by
  refine of_classes hs hs' fun r k hr => .inr ?_
  obtain ⟨-, hold⟩ := root_of_write (by simp) hr
  exact ⟨h r k hold, fun x hx => leads_write_root (by simp [hv]) nofun hx⟩

theorem join (h : s.Ranked) (hs : s.WellFormed) (hv : s.slot? v = some (.root j))
    (hw : s.slot? w = some (.root k)) (hvw : v ≠ w) : (s.write v (.link w)).Ranked := by
  refine of_classes hs (wellFormed_join hs hv hw hvw) fun r k hr => .inr ?_
  obtain ⟨hrv, hold⟩ := root_of_write (by simp) hr
  exact ⟨h r k hold, fun x hx => by simpa [hrv] using leads_join hv hw hvw hx⟩

/-- The rank of a class may be raised to one for which the class is large enough. -/
theorem raise (h : s.Ranked) (hs : s.WellFormed) (hv : s.slot? v = some (.root j))
    (hk : 2 ^ k ≤ (s.members v).card) : (s.write v (.root k)).Ranked := by
  refine of_classes hs (wellFormed_raise hs hv k) fun r i hr => .inr ⟨?_, fun x hx =>
    leads_write_root (by simp [hv]) nofun hx⟩
  by_cases hrv : r = v
  · rw [hrv, slot?_write_self (has_of_slot? hv)] at hr
    rwa [hrv, ← Slot.root.inj (Option.some.inj hr)]
  · rw [slot?_write_of_ne hrv] at hr
    exact h r i hr

end Ranked

/-! ### Joining and binding -/

theorem slots_write (s : Store) (v : TyVar) (c : Slot) :
    (s.write v c).slots = s.slots.setIfInBounds v.index c := by
  unfold write
  split
  · rename_i h
    exact (Array.setIfInBounds_eq_of_size_le (Array.getElem?_eq_none_iff.1 h)).symm
  · rfl

/-- Writes to different slots can be exchanged. -/
theorem slots_write_comm (h : v ≠ w) (c d : Slot) :
    ((s.write v c).write w d).slots = ((s.write w d).write v c).slots := by
  have hindex : v.index ≠ w.index := fun heq => h (by cases v; cases w; simp_all)
  simp only [slots_write]
  exact Array.setIfInBounds_comm _ _ hindex

namespace Ranked

/-- Raising the rank of a class and then joining another class of the old rank to it. -/
theorem raise_join (h : s.Ranked) (hs : s.WellFormed) (hv : s.slot? v = some (.root k))
    (hw : s.slot? w = some (.root k)) (hwv : w ≠ v) :
    ((s.write v (.root (k + 1))).write w (.link v)).Ranked := by
  have hjoined := h.join hs hw hv hwv
  have hkept : (s.write w (.link v)).slot? v = some (.root k) := by
    rw [slot?_write_of_ne hwv.symm, hv]
  have hlarge : 2 ^ (k + 1) ≤ ((s.write w (.link v)).members v).card :=
    calc 2 ^ (k + 1) = 2 ^ k + 2 ^ k := Nat.two_pow_succ k
      _ ≤ (s.members w).card + (s.members v).card := Nat.add_le_add (h w k hw) (h v k hv)
      _ ≤ ((s.write w (.link v)).members v).card := card_members_join hs hw hv hwv
  -- Raised after the join, the rank is one for which the class is large enough already.
  exact congr (slots_write_comm hwv _ _)
    (hjoined.raise (wellFormed_join hs hw hv hwv) hkept hlarge)

/-- **Joining two unbound classes** keeps the bound. -/
theorem link (h : s.Ranked) (hs : s.WellFormed) (hv : s.slot? v = some (.root j))
    (hw : s.slot? w = some (.root k)) : (s.link v w).Ranked :=
  link_cases_of_root hs hv hw (fun _ => h) (fun hsides hp hq => h.join hs hq hp hsides.ne)
    fun hsides hp hq => h.raise_join hs hp hq hsides.ne

/-- **Binding an unbound class** to a type keeps the bound, whether it succeeds or not. -/
theorem bindRoot (h : s.Ranked) (hs : s.WellFormed) (hv : s.slot? v = some (.root k))
    (ht : s.Covers t) (hroot : ∀ w, t = .var w → ∃ j, s.slot? w = some (.root j)) :
    (s.bindRoot v t).store.Ranked := by
  have hs' := (moves_bindRoot hs hv ht hroot).wellFormed hs
  cases hn : t.isVar with
  | true =>
    obtain ⟨w, rfl⟩ := Ty.eq_var_of_isVar hn
    obtain ⟨j, hw⟩ := hroot w rfl
    exact h.link hs hv hw
  | false =>
    rw [bindRoot_eq hn] at hs' ⊢
    split
    · exact h
    · rename_i hocc
      rw [if_neg hocc] at hs'
      exact h.bind hs hs' hv

end Ranked

end Store
end TypeResolution
