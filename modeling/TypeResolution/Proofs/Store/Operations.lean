/-
# What the operations of a store come to

Looking variables up shortens links and changes nothing else (`Store.Tidies`): every variable
leads where it led, and every root holds what it held. Joining and binding are moves, because
they are done to unbound classes only, and a class is bound to a type only after it has been
looked for in the type.

Key definitions: `Store.Tidies`, `Store.Sides`.
Key theorems: `Store.tidies_find`, `Store.tidies_shallow`, `Store.link_cases`,
`Store.link_cases_of_root`, `Store.moves_link`, `Store.moves_bindRoot`.
-/
import TypeResolution.Proofs.Store.Moves

namespace TypeResolution

open Relation

theorem Unified.eq_done {u : Unified} (h : u.conflict = none) : u = .done u.store := by
  rw [Unified.done, ← h]

namespace Store

variable {s s' s'' : Store} {v w r x y : TyVar} {t : Ty} {c : Slot}

/-! ### Shortening links -/

/-- The stores differ by the length of ways along links only. -/
structure Tidies (s s' : Store) : Prop where
  moves : Moves s s'
  leads : ∀ x y, s.Leads x y → s'.Leads x y
  /-- What is no link is kept. -/
  slot : ∀ x c, (∀ w, c ≠ .link w) → (s.slot? x = some c ↔ s'.slot? x = some c)

namespace Tidies

theorem refl (s : Store) : Tidies s s := ⟨.refl, fun _ _ h => h, fun _ _ _ => Iff.rfl⟩

theorem trans (h : Tidies s s') (h' : Tidies s' s'') : Tidies s s'' :=
  ⟨h.moves.trans h'.moves, fun x y hx => h'.leads x y (h.leads x y hx), fun x c hc =>
    (h.slot x c hc).trans (h'.slot x c hc)⟩

theorem shorten (hv : s.slot? v = some (.link w)) (hl : s.Leads w r) :
    Tidies s (s.write v (.link r)) := by
  refine ⟨.single (.shorten hv hl), fun x y hx => leads_shorten hv hl hx, fun x c hc => ?_⟩
  by_cases hxv : x = v
  · subst hxv
    rw [slot?_write_self (has_of_slot? hv), hv]
    constructor
    · intro h
      exact absurd (Option.some.inj h).symm (hc w)
    · intro h
      exact absurd (Option.some.inj h).symm (hc r)
  · rw [slot?_write_of_ne hxv]

theorem root_iff {k : Nat} (h : Tidies s s') :
    s.slot? x = some (.root k) ↔ s'.slot? x = some (.root k) :=
  h.slot x _ fun w => by simp

theorem bound_iff (h : Tidies s s') : s.slot? x = some (.bound t) ↔ s'.slot? x = some (.bound t) :=
  h.slot x _ fun w => by simp

theorem root_eq (h : Tidies s s') (hs : s.WellFormed) (hv : s.Has v) : s'.root v = s.root v :=
  (h.moves.wellFormed hs).root_eq (h.leads v _ (hs.leads_root hv))

theorem content_eq (h : Tidies s s') (hr : s.Leads r r) : s'.content r = s.content r := by
  unfold content
  rcases hr.slot_root with ⟨k, hk⟩ | ⟨t, ht⟩
  · rw [hk, h.root_iff.1 hk]
  · rw [ht, h.bound_iff.1 ht]

theorem probe_eq (h : Tidies s s') (hs : s.WellFormed) (hv : s.Has v) : s'.probe v = s.probe v := by
  unfold probe
  rw [h.root_eq hs hv, h.content_eq (hs.leads_root hv).self]

end Tidies

theorem tidies_compressWithin : ∀ (fuel : Nat) {s : Store} {v : TyVar}, s.WellFormed →
    s.Leads v r → Tidies s (compressWithin r fuel s v)
  | 0, s, _, _, _ => .refl s
  | fuel + 1, s, v, hs, hv => by
    unfold compressWithin
    by_cases hvr : v = r
    · rw [if_pos hvr]
      exact .refl s
    · rw [if_neg hvr]
      cases hv with
      | root => exact absurd rfl hvr
      | @link _ next _ hslot hnext =>
        rw [hslot]
        by_cases heq : next = r
        · simp only [heq, if_true]
          exact tidies_compressWithin fuel hs hnext.self
        · simp only [heq, if_false]
          have htidy := Tidies.shorten hslot hnext
          exact htidy.trans (tidies_compressWithin fuel (htidy.moves.wellFormed hs)
            (htidy.leads _ _ hnext))

theorem tidies_find (hs : s.WellFormed) (hv : s.Has v) : Tidies s (s.find v).2 :=
  tidies_compressWithin s.size hs (hs.leads_root hv)

/-- Links still lead downwards when one of them is shortened. -/
theorem height_shorten {h : TyVar → Nat} (hh : ∀ v w, s.slot? v = some (.link w) → h w < h v)
    (hv : s.slot? v = some (.link w)) (hl : s.Leads w r) :
    ∀ x y, (s.write v (.link r)).slot? x = some (.link y) → h y < h x := by
  intro x y hxy
  by_cases hxv : x = v
  · rw [hxv, slot?_write_self (has_of_slot? hv)] at hxy
    have := hl.height_le hh
    have := hh v w hv
    rw [← Slot.link.inj (Option.some.inj hxy), hxv]
    omega
  · rw [slot?_write_of_ne hxv] at hxy
    exact hh x y hxy

/-- Once the bound is not below the height of the variable, it does not matter. -/
theorem compressWithin_eq_of_height {h : TyVar → Nat} : ∀ (f g : Nat) {s : Store} {v : TyVar},
    (∀ v w, s.slot? v = some (.link w) → h w < h v) → s.Leads v r → h v ≤ f → h v ≤ g →
    compressWithin r f s v = compressWithin r g s v
  | 0, 0, _, _, _, _, _, _ => rfl
  | 0, g + 1, s, v, hh, hl, hf, _ => by
    have hvr : v = r := by
      cases hl with
      | root => rfl
      | link hslot _ =>
        have := hh _ _ hslot
        omega
    simp [compressWithin, hvr]
  | f + 1, 0, s, v, hh, hl, _, hg => by
    have hvr : v = r := by
      cases hl with
      | root => rfl
      | link hslot _ =>
        have := hh _ _ hslot
        omega
    simp [compressWithin, hvr]
  | f + 1, g + 1, s, v, hh, hl, hf, hg => by
    unfold compressWithin
    by_cases hvr : v = r
    · rw [if_pos hvr, if_pos hvr]
    · rw [if_neg hvr, if_neg hvr]
      cases hl with
      | root => exact absurd rfl hvr
      | @link _ next _ hslot hnext =>
        have hlt := hh _ _ hslot
        rw [hslot]
        by_cases heq : next = r
        · simp only [heq, if_true]
          exact compressWithin_eq_of_height f g hh hnext.self (by rw [heq] at hlt; omega)
            (by rw [heq] at hlt; omega)
        · simp only [heq, if_false]
          exact compressWithin_eq_of_height f g (height_shorten hh hslot hnext)
            (leads_shorten hslot hnext hnext) (by omega) (by omega)

/-- More steps than there are variables change nothing. -/
theorem compressWithin_eq (hs : s.WellFormed) (hv : s.Has v) {fuel : Nat} (hf : s.size ≤ fuel) :
    compressWithin (s.root v) fuel s v = (s.find v).2 := by
  obtain ⟨h, hh, hsize⟩ := hs.exists_linkHeight
  have := hsize v hv
  exact compressWithin_eq_of_height fuel s.size hh (hs.leads_root hv) (by omega) (by omega)

theorem find_of_root {k : Nat} (hs : s.WellFormed) (hv : s.slot? v = some (.root k)) :
    s.find v = (v, s) := by
  have hroot : s.root v = v := hs.root_eq (.root hv fun _ => by simp)
  unfold find
  rw [hroot]
  cases s.size with
  | zero => rfl
  | succ fuel =>
    dsimp only [compressWithin]
    rw [if_pos rfl]

/-- Looking a variable up tells what its class is bound to, or its root. -/
theorem resolve_eq (hs : s.WellFormed) (hv : s.Has v) :
    s.resolve v = (s.probe v, (s.find v).2) := by
  show ((s.find v).2.content (s.root v), (s.find v).2) = _
  rw [(tidies_find hs hv).content_eq (hs.leads_root hv).self]
  rfl

theorem tidies_shallow (hs : s.WellFormed) (ht : s.Covers t) : Tidies s (s.shallow t).2 := by
  cases t with
  | var v =>
    show Tidies s (s.resolve v).2
    rw [resolve_eq hs (covers_var.1 ht)]
    exact tidies_find hs (covers_var.1 ht)
  | _ => exact .refl s

theorem shallow_var (hs : s.WellFormed) (hv : s.Has v) : (s.shallow (.var v)).1 = s.probe v := by
  show (s.resolve v).1 = _
  rw [resolve_eq hs hv]

theorem covers_shallow (hs : s.WellFormed) (ht : s.Covers t) : s.Covers (s.shallow t).1 := by
  cases t with
  | var v =>
    rw [shallow_var hs (covers_var.1 ht)]
    exact hs.covers_probe (covers_var.1 ht)
  | _ => exact ht

/-- A variable that looking up leads to is an unbound root. -/
theorem root_of_shallow (hs : s.WellFormed) (ht : s.Covers t) (h : (s.shallow t).1 = .var v) :
    ∃ k, s.slot? v = some (.root k) := by
  cases t with
  | var w =>
    have hw := covers_var.1 ht
    rw [shallow_var hs hw] at h
    rcases hs.probe_cases hw with ⟨k, hk, hp⟩ | ⟨u, hu, hp⟩
    · rw [hp] at h
      obtain rfl := Ty.var.inj h
      exact ⟨k, hk⟩
    · rw [hp] at h
      have hn := hs.proper _ u hu
      rw [h] at hn
      cases hn
  | _ => cases h

/-- Such a variable is an unbound root of the store after looking up as well. -/
theorem root_after_shallow (hs : s.WellFormed) (ht : s.Covers t) (h : (s.shallow t).1 = .var v) :
    ∃ k, (s.shallow t).2.slot? v = some (.root k) := by
  obtain ⟨k, hk⟩ := root_of_shallow hs ht h
  exact ⟨k, (tidies_shallow hs ht).root_iff.1 hk⟩

/-! ### Joining and binding -/

theorem rank_eq {k : Nat} (h : s.slot? v = some (.root k)) : s.rank v = k := by simp [rank, h]

theorem bindRoot_var (s : Store) (v w : TyVar) : s.bindRoot v (.var w) = .done (s.link v w) := rfl

/-- A type that is no variable is bound if the class does not occur in it. -/
theorem bindRoot_eq (h : t.isVar = false) : s.bindRoot v t =
    if s.occurs v t then .failed s (.occurs v (s.apply t)) else .done (s.write v (.bound t)) := by
  cases t with
  | var w => cases h
  | _ => rfl

/-- The roots of two classes that are joined, in one order or the other. -/
structure Sides (v w p q : TyVar) : Prop where
  ne : q ≠ p
  eq : p = v ∧ q = w ∨ p = w ∧ q = v

theorem Sides.both {P : TyVar → Prop} {p q : TyVar} (h : Sides v w p q) (hv : P v) (hw : P w) :
    P p ∧ P q := by
  rcases h.eq with ⟨rfl, rfl⟩ | ⟨rfl, rfl⟩
  · exact ⟨hv, hw⟩
  · exact ⟨hw, hv⟩

theorem Sides.eq_iff {α : Type} {p q : TyVar} (h : Sides v w p q) (f : TyVar → α) :
    f q = f p ↔ f v = f w := by
  rcases h.eq with ⟨rfl, rfl⟩ | ⟨rfl, rfl⟩
  · exact eq_comm
  · exact Iff.rfl

/-- **What joining comes to** once the roots are found: nothing, if there is one root only; a link
from the root of lower rank to the other one; or, at equal ranks, a link to a root whose rank is
raised first. -/
theorem link_cases {P : Store → Prop} {a b : TyVar} {s₁ s₂ : Store} (hv : s.find v = (a, s₁))
    (hw : s₁.find w = (b, s₂)) (same : a = b → P s₂)
    (lower : ∀ {p q}, Sides a b p q → s₂.rank q < s₂.rank p → P (s₂.write q (.link p)))
    (equal : ∀ {p q}, Sides a b p q → s₂.rank q = s₂.rank p →
      P ((s₂.write p (.root (s₂.rank p + 1))).write q (.link p))) : P (s.link v w) := by
  unfold link
  simp only [hv, hw]
  by_cases hab : a = b
  · rw [if_pos hab]
    exact same hab
  rw [if_neg hab]
  by_cases hlt : s₂.rank b < s₂.rank a
  · rw [if_pos hlt]
    exact lower ⟨Ne.symm hab, .inl ⟨rfl, rfl⟩⟩ hlt
  rw [if_neg hlt]
  by_cases hlt' : s₂.rank a < s₂.rank b
  · rw [if_pos hlt']
    exact lower ⟨hab, .inr ⟨rfl, rfl⟩⟩ hlt'
  rw [if_neg hlt']
  have heq : s₂.rank a = s₂.rank b := by omega
  by_cases hindex : a.index < b.index
  · simp only [hindex, if_true]
    exact equal ⟨Ne.symm hab, .inl ⟨rfl, rfl⟩⟩ heq.symm
  · simp only [hindex, if_false]
    rw [heq]
    exact equal ⟨hab, .inr ⟨rfl, rfl⟩⟩ heq

/-- What joining two unbound roots comes to. -/
theorem link_cases_of_root {P : Store → Prop} {j k : Nat} (hs : s.WellFormed)
    (hv : s.slot? v = some (.root j)) (hw : s.slot? w = some (.root k)) (same : v = w → P s)
    (lower : ∀ {p q i l}, Sides v w p q → s.slot? p = some (.root i) →
      s.slot? q = some (.root l) → P (s.write q (.link p)))
    (equal : ∀ {p q i}, Sides v w p q → s.slot? p = some (.root i) → s.slot? q = some (.root i) →
      P ((s.write p (.root (i + 1))).write q (.link p))) : P (s.link v w) := by
  have hroots : ∀ {p q}, Sides v w p q →
      (∃ i, s.slot? p = some (.root i)) ∧ ∃ l, s.slot? q = some (.root l) := fun h =>
    h.both (P := fun x => ∃ i, s.slot? x = some (.root i)) ⟨j, hv⟩ ⟨k, hw⟩
  refine link_cases (find_of_root hs hv) (find_of_root hs hw) same (fun h _ => ?_)
    fun h heq => ?_
  · obtain ⟨⟨i, hp⟩, l, hq⟩ := hroots h
    exact lower h hp hq
  · obtain ⟨⟨i, hp⟩, l, hq⟩ := hroots h
    rw [rank_eq hp, rank_eq hq] at heq
    rw [rank_eq hp]
    exact equal h hp (heq ▸ hq)

theorem moves_link {j k : Nat} (hs : s.WellFormed) (hv : s.slot? v = some (.root j))
    (hw : s.slot? w = some (.root k)) : Moves s (s.link v w) := by
  refine link_cases_of_root hs hv hw (fun _ => .refl)
    (fun h hp hq => .single (.join hq hp h.ne)) fun {p q i} h hp hq => ?_
  have hq' := (slot?_write_of_ne h.ne (.root (i + 1))).trans hq
  have hp' := slot?_write_self (has_of_slot? hp) (.root (i + 1))
  exact (ReflTransGen.single (.raise (i + 1) hp)).tail (.join hq' hp' h.ne)

/-- An unbound class is bound to a type by moves. -/
theorem moves_bindRoot {k : Nat} (hs : s.WellFormed) (hv : s.slot? v = some (.root k))
    (ht : s.Covers t) (hroot : ∀ w, t = .var w → ∃ j, s.slot? w = some (.root j)) :
    Moves s (s.bindRoot v t).store := by
  cases hn : t.isVar with
  | true =>
    obtain ⟨w, rfl⟩ := Ty.eq_var_of_isVar hn
    obtain ⟨j, hw⟩ := hroot w rfl
    exact moves_link hs hv hw
  | false =>
    rw [bindRoot_eq hn]
    by_cases hocc : s.occurs v t = true
    · rw [if_pos hocc]
      exact .refl
    · rw [if_neg hocc]
      refine .single (.bind hv hn ht fun w hw r hl hreach => hocc ?_)
      have hrv : s.root v = v := hs.root_eq (.root hv fun w => by simp)
      rw [hs.occurs_iff ht (hrv.symm ▸ hv), hrv]
      exact ⟨w, hw, (hs.root_eq hl).symm ▸ hreach⟩

end Store
end TypeResolution
