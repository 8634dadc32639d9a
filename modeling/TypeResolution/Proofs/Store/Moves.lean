/-
# Moves of a store

Every operation changes a store by moves of five kinds: a link is led straight to the root, the
rank of a root is raised, two unbound classes are joined, an unbound class is bound to a type in
which it is not met, or a variable is added. Each move keeps a store well-formed. A move that
adds no edge between classes cannot close a cycle; joining redirects edges to an unbound class,
which mentions nothing, and binding adds edges from one class only, which none of their ends
reaches.

A move overwrites no binding, and what a class mentions stays mentioned, possibly as a class
that the mentioned one was joined to (`Move.reach`). So a solution of a later store solves the
earlier ones, and no class gets out of reach.

Key definitions: `Store.Move`, `Store.Moves`.
Key theorems: `Store.Move.wellFormed`, `Store.Moves.wellFormed`, `Store.Moves.reach`.
-/
import TypeResolution.Proofs.Store.Classes

namespace TypeResolution

open Relation

/-! ### Cycles -/

section Acyclic

variable {α : Type} {R R' : α → α → Prop}

/-- New edges to nodes that have no edges close no cycle. -/
theorem acyclic_of_inner_edges (hR : ∀ c, ¬ TransGen R c c)
    (h : ∀ c d e, R' c d → R' d e → R c d) : ∀ c, ¬ TransGen R' c c := by
  have hinner : ∀ c d, TransGen R' c d → (∃ e, R' d e) → TransGen R c d := by
    intro c d hcd
    induction hcd with
    | single hcd =>
      rintro ⟨e, he⟩
      exact .single (h _ _ e hcd he)
    | tail _ hbd ih =>
      rintro ⟨e, he⟩
      exact (ih ⟨_, hbd⟩).tail (h _ _ e hbd he)
  intro c hc
  obtain ⟨d, hcd, -⟩ := TransGen.head'_iff.1 hc
  exact hR c (hinner c c hc ⟨d, hcd⟩)

/-- New edges from one node close no cycle if the old ones do not lead back to it. -/
theorem acyclic_of_edges_from {v : α} (hR : ∀ c, ¬ TransGen R c c)
    (hold : ∀ c d, c ≠ v → R' c d → R c d) (hnew : ∀ d, R' v d → ¬ ReflTransGen R d v) :
    ∀ c, ¬ TransGen R' c c := by
  -- A way to `v` takes old edges only, up to the first time that it comes to `v`.
  have hback : ∀ c, ReflTransGen R' c v → ReflTransGen R c v := by
    intro c hc
    induction hc using ReflTransGen.head_induction_on with
    | refl => exact .refl
    | @head a b hab _ ih =>
      by_cases ha : a = v
      · rw [ha]
      · exact .head (hold a b ha hab) ih
  have hsplit : ∀ c d, TransGen R' c d →
      TransGen R c d ∨ ∃ e, ReflTransGen R' c v ∧ R' v e ∧ ReflTransGen R' e d := by
    intro c d hcd
    induction hcd with
    | @single d hcd =>
      by_cases hc : c = v
      · exact .inr ⟨d, by rw [hc], hc ▸ hcd, .refl⟩
      · exact .inl (.single (hold c d hc hcd))
    | @tail b d hcb hbd ih =>
      rcases ih with ih | ⟨e, hcv, hve, heb⟩
      · by_cases hb : b = v
        · exact .inr ⟨d, hb ▸ hcb.to_reflTransGen, hb ▸ hbd, .refl⟩
        · exact .inl (ih.tail (hold b d hb hbd))
      · exact .inr ⟨e, hcv, hve, heb.tail hbd⟩
  intro c hc
  rcases hsplit c c hc with hc | ⟨e, hcv, hve, hec⟩
  · exact hR c hc
  · exact hnew e hve (hback e (hec.trans hcv))

end Acyclic

namespace Store

variable {s s' : Store} {v w r x y : TyVar} {t : Ty} {c : Slot}

/-! ### Writes -/

theorem slot?_write_self (hv : s.Has v) (c : Slot) : (s.write v c).slot? v = some c := by
  rw [slot?_write, if_pos ⟨rfl, hv⟩]

theorem slot?_write_of_ne (h : w ≠ v) (c : Slot) : (s.write v c).slot? w = s.slot? w := by
  rw [slot?_write, if_neg fun hw => h hw.1]

@[simp] theorem has_write : (s.write v c).Has w ↔ s.Has w := by simp [Has]

@[simp] theorem covers_write : (s.write v c).Covers t ↔ s.Covers t := by simp [Covers]

theorem Has.fresh (h : s.Has v) : s.fresh.2.Has v := by
  simp only [Has, size_fresh] at h ⊢
  omega

theorem slot?_fresh_of_has (h : s.Has v) : s.fresh.2.slot? v = s.slot? v := by
  rw [slot?_fresh, if_neg]
  rintro rfl
  exact Nat.lt_irrefl _ h

/-! ### Moves -/

/-- One change of a store. -/
inductive Move (s : Store) : Store → Prop where
  /-- A link is led to the root. -/
  | shorten {v w r : TyVar} : s.slot? v = some (.link w) → s.Leads w r →
      Move s (s.write v (.link r))
  | raise {v : TyVar} {k : Nat} (k' : Nat) : s.slot? v = some (.root k) →
      Move s (s.write v (.root k'))
  /-- An unbound class is joined to another one. -/
  | join {v w : TyVar} {j k : Nat} : s.slot? v = some (.root j) → s.slot? w = some (.root k) →
      v ≠ w → Move s (s.write v (.link w))
  /-- An unbound class is bound to a type in whose meaning it is not met. -/
  | bind {v : TyVar} {k : Nat} {t : Ty} : s.slot? v = some (.root k) → t.isVar = false →
      s.Covers t → (∀ w ∈ t.vars, ∀ r, s.Leads w r → ¬ ReflTransGen s.Mentions r v) →
      Move s (s.write v (.bound t))
  | fresh : Move s s.fresh.2

/-- A sequence of changes. -/
abbrev Moves : Store → Store → Prop := ReflTransGen Move

/-! ### What moves do to classes -/

theorem leads_shorten (hv : s.slot? v = some (.link w)) (hl : s.Leads w r) (hx : s.Leads x y) :
    (s.write v (.link r)).Leads x y := by
  have hr : r ≠ v := by
    rintro rfl
    rcases hl.slot_root with ⟨k, hk⟩ | ⟨t, ht⟩
    · rw [hv] at hk
      cases hk
    · rw [hv] at ht
      cases ht
  have hrr : (s.write v (.link r)).Leads r r := by
    cases hl.self with
    | root hc hn => exact .root ((slot?_write_of_ne hr _).trans hc) hn
    | link hc _ =>
      rcases hl.slot_root with ⟨k, hk⟩ | ⟨t, ht⟩
      · rw [hc] at hk
        cases hk
      · rw [hc] at ht
        cases ht
  induction hx with
  | @root x c hc hn =>
    have hxv : x ≠ v := by
      rintro rfl
      rw [hv] at hc
      exact hn w (Option.some.inj hc).symm
    exact .root ((slot?_write_of_ne hxv _).trans hc) hn
  | @link x x' y hc hx ih =>
    by_cases hxv : x = v
    · subst hxv
      rw [hv] at hc
      obtain rfl := Slot.link.inj (Option.some.inj hc)
      rw [hx.unique hl]
      exact .link (slot?_write_self (has_of_slot? hv) _) hrr
    · exact .link ((slot?_write_of_ne hxv _).trans hc) ih

/-- Overwriting a root by a root leaves every class as it is. -/
theorem leads_write_root (hv : ∀ w, s.slot? v ≠ some (.link w)) (hc : ∀ w, c ≠ .link w)
    (hx : s.Leads x y) : (s.write v c).Leads x y := by
  induction hx with
  | @root x c' hc' hn =>
    by_cases hxv : x = v
    · subst hxv
      exact .root (slot?_write_self (has_of_slot? hc') c) hc
    · exact .root ((slot?_write_of_ne hxv _).trans hc') hn
  | @link x x' y hc' _ ih =>
    have hxv : x ≠ v := by
      rintro rfl
      exact hv x' hc'
    exact .link ((slot?_write_of_ne hxv _).trans hc') ih

theorem leads_join {j k : Nat} (hv : s.slot? v = some (.root j)) (hw : s.slot? w = some (.root k))
    (hvw : v ≠ w) (hx : s.Leads x y) :
    (s.write v (.link w)).Leads x (if y = v then w else y) := by
  have hww : (s.write v (.link w)).Leads w w :=
    .root ((slot?_write_of_ne hvw.symm _).trans hw) fun w => by simp
  induction hx with
  | @root x c' hc' hn =>
    by_cases hxv : x = v
    · subst hxv
      rw [if_pos rfl]
      exact .link (slot?_write_self (has_of_slot? hc') _) hww
    · rw [if_neg hxv]
      exact .root ((slot?_write_of_ne hxv _).trans hc') hn
  | @link x x' y hc' hx ih =>
    have hxv : x ≠ v := by
      rintro rfl
      rw [hv] at hc'
      cases hc'
    exact .link ((slot?_write_of_ne hxv _).trans hc') ih

theorem leads_fresh (hx : s.Leads x y) : s.fresh.2.Leads x y := by
  induction hx with
  | root hc hn => exact .root ((slot?_fresh_of_has (has_of_slot? hc)).trans hc) hn
  | link hc _ ih => exact .link ((slot?_fresh_of_has (has_of_slot? hc)).trans hc) ih

/-- Each move leads the classes of a store to classes of the next one, and bound ones to
themselves. -/
theorem Move.exists_root (hm : Move s s') : ∃ f : TyVar → TyVar,
    (∀ x y, s.Leads x y → s'.Leads x (f y)) ∧ ∀ x t, s.slot? x = some (.bound t) → f x = x := by
  cases hm with
  | shorten hv hl => exact ⟨id, fun x y hx => leads_shorten hv hl hx, fun _ _ _ => rfl⟩
  | raise k' hv =>
    refine ⟨id, fun x y hx => leads_write_root ?_ ?_ hx, fun _ _ _ => rfl⟩ <;> simp [hv]
  | @join v w j k hv hw hvw =>
    refine ⟨fun y => if y = v then w else y, fun x y hx => leads_join hv hw hvw hx, ?_⟩
    intro x t hx
    have hxv : x ≠ v := by
      rintro rfl
      rw [hv] at hx
      cases hx
    exact if_neg hxv
  | bind hv _ _ _ =>
    refine ⟨id, fun x y hx => leads_write_root ?_ ?_ hx, fun _ _ _ => rfl⟩ <;> simp [hv]
  | fresh => exact ⟨id, fun x y hx => leads_fresh hx, fun _ _ _ => rfl⟩

/-- A move overwrites no binding. -/
theorem Move.bound (hm : Move s s') (hx : s.slot? x = some (.bound t)) :
    s'.slot? x = some (.bound t) := by
  have hne : ∀ v c, s.slot? v = some c → (∀ t, c ≠ .bound t) → x ≠ v := by
    rintro v c hv hc rfl
    rw [hv] at hx
    exact hc t (Option.some.inj hx)
  cases hm with
  | shorten hv _ => rw [slot?_write_of_ne (hne _ _ hv (by simp)), hx]
  | raise k' hv => rw [slot?_write_of_ne (hne _ _ hv (by simp)), hx]
  | join hv _ _ => rw [slot?_write_of_ne (hne _ _ hv (by simp)), hx]
  | bind hv _ _ _ => rw [slot?_write_of_ne (hne _ _ hv (by simp)), hx]
  | fresh => rw [slot?_fresh_of_has (has_of_slot? hx), hx]

theorem Move.has (hm : Move s s') (hx : s.Has x) : s'.Has x := by
  cases hm with
  | fresh => exact hx.fresh
  | _ => exact has_write.2 hx

/-- What a class mentions it goes on to mention, perhaps in a class joined to it. -/
theorem Move.reach (hm : Move s s') (hx : s.Leads x y) :
    ∃ y', s'.Leads x y' ∧ ∀ c, TransGen s.Mentions c y → TransGen s'.Mentions c y' := by
  obtain ⟨f, hleads, hbound⟩ := hm.exists_root
  have hmentions : ∀ c d, s.Mentions c d → s'.Mentions c (f d) := by
    rintro c d ⟨t, ht, v, hv, hl⟩
    exact ⟨t, hm.bound ht, v, hv, hleads v d hl⟩
  refine ⟨f y, hleads x y hx, fun c hc => ?_⟩
  induction hc using TransGen.head_induction_on with
  | @single a hay => exact .single (hmentions a y hay)
  | @head a b hab hby ih =>
    -- The class in between has a binding, so that it is where it was.
    obtain ⟨d, hbd, -⟩ := TransGen.head'_iff.1 hby
    obtain ⟨t, ht⟩ := hbd.slot
    have hb := hmentions a b hab
    rw [hbound b t ht] at hb
    exact .head hb ih

/-! ### Moves keep stores well-formed -/

/-- A variable of a well-formed store leads on from the root that it led to before. -/
theorem WellFormed.leads_back {f : TyVar → TyVar} (hs : s.WellFormed)
    (hf : ∀ x y, s.Leads x y → s'.Leads x (f y)) (hx : s.Has x) (hl : s'.Leads x r) :
    s.Leads x (s.root x) ∧ r = f (s.root x) :=
  ⟨hs.leads_root hx, hl.unique (hf x _ (hs.leads_root hx))⟩

/-- A store that keeps the classes and has no new binding is well-formed, if no cycle is closed. -/
theorem WellFormed.of_leads {f : TyVar → TyVar} (hs : s.WellFormed)
    (hf : ∀ x y, s.Leads x y → s'.Leads x (f y))
    (hhas : ∀ x, s.Has x → s'.Has x) (hnew : ∀ x, s'.Has x → s.Has x ∨ s'.Leads x x)
    (hold : ∀ x t, s'.slot? x = some (.bound t) → s.slot? x = some (.bound t))
    (hac : (∀ c d, s'.Mentions c d → ∃ e, s.Mentions c e ∧ d = f e) →
      ∀ c, ¬ TransGen s'.Mentions c c) : s'.WellFormed where
  rooted x hx := by
    rcases hnew x hx with hx | hx
    · exact ⟨_, hf x _ (hs.leads_root hx)⟩
    · exact ⟨x, hx⟩
  proper x t ht := hs.proper x t (hold x t ht)
  covered x t ht v hv := hhas v (hs.covered x t (hold x t ht) v hv)
  acyclic := by
    refine hac ?_
    rintro c d ⟨t, ht, v, hv, hl⟩
    have hv' := hs.covered c t (hold c t ht) v hv
    obtain ⟨hroot, rfl⟩ := hs.leads_back hf hv' hl
    exact ⟨_, ⟨t, hold c t ht, v, hv, hroot⟩, rfl⟩

theorem bound_of_write (hc : ∀ t, c ≠ .bound t) (hx : (s.write v c).slot? x = some (.bound t)) :
    s.slot? x = some (.bound t) := by
  rw [slot?_write] at hx
  split at hx
  · exact absurd (Option.some.inj hx) (hc t)
  · exact hx

/-- No cycle is closed where every class mentions what it did before. -/
theorem acyclic_of_same (hs : s.WellFormed)
    (h : ∀ c d, s'.Mentions c d → ∃ e, s.Mentions c e ∧ d = id e) :
    ∀ c, ¬ TransGen s'.Mentions c c := by
  have hsub : ∀ c d, s'.Mentions c d → s.Mentions c d := by
    intro c d hcd
    obtain ⟨e, he, rfl⟩ := h c d hcd
    exact he
  exact fun c hc => hs.acyclic c (TransGen.mono hsub c c hc)

theorem wellFormed_shorten (hs : s.WellFormed) (hv : s.slot? v = some (.link w))
    (hl : s.Leads w r) : (s.write v (.link r)).WellFormed :=
  hs.of_leads (f := id) (fun _ _ hx => leads_shorten hv hl hx) (fun _ hx => has_write.2 hx)
    (fun _ hx => .inl (has_write.1 hx)) (fun _ _ hx => bound_of_write (by simp) hx)
    (acyclic_of_same hs)

theorem wellFormed_raise {k : Nat} (hs : s.WellFormed) (hv : s.slot? v = some (.root k))
    (k' : Nat) : (s.write v (.root k')).WellFormed :=
  hs.of_leads (f := id) (fun _ _ hx => leads_write_root (by simp [hv]) (by simp) hx)
    (fun _ hx => has_write.2 hx) (fun _ hx => .inl (has_write.1 hx))
    (fun _ _ hx => bound_of_write (by simp) hx) (acyclic_of_same hs)

theorem wellFormed_join {j k : Nat} (hs : s.WellFormed) (hv : s.slot? v = some (.root j))
    (hw : s.slot? w = some (.root k)) (hvw : v ≠ w) : (s.write v (.link w)).WellFormed := by
  refine hs.of_leads (fun _ _ hx => leads_join hv hw hvw hx) (fun _ hx => has_write.2 hx)
    (fun _ hx => .inl (has_write.1 hx)) (fun _ _ hx => bound_of_write (by simp) hx) fun hback => ?_
  refine acyclic_of_inner_edges hs.acyclic fun c d e hcd hde => ?_
  obtain ⟨d', hcd', hd⟩ := hback c d hcd
  by_cases hd' : d' = v
  · -- The class joined to is unbound, so that no edge leaves it.
    rw [if_pos hd'] at hd
    obtain ⟨t, ht⟩ := hde.slot
    rw [hd, slot?_write_of_ne hvw.symm, hw] at ht
    cases ht
  · rw [if_neg hd'] at hd
    exact hd ▸ hcd'

theorem wellFormed_bind {k : Nat} (hs : s.WellFormed) (hv : s.slot? v = some (.root k))
    (hn : t.isVar = false) (ht : s.Covers t)
    (hnot : ∀ w ∈ t.vars, ∀ r, s.Leads w r → ¬ ReflTransGen s.Mentions r v) :
    (s.write v (.bound t)).WellFormed := by
  have hf : ∀ x y, s.Leads x y → (s.write v (.bound t)).Leads x y := fun x y hx =>
    leads_write_root (by simp [hv]) (by simp) hx
  have hslot : ∀ x u, (s.write v (.bound t)).slot? x = some (.bound u) →
      x = v ∧ u = t ∨ x ≠ v ∧ s.slot? x = some (.bound u) := by
    intro x u hx
    by_cases hxv : x = v
    · subst hxv
      rw [slot?_write_self (has_of_slot? hv)] at hx
      exact .inl ⟨rfl, (Slot.bound.inj (Option.some.inj hx)).symm⟩
    · rw [slot?_write_of_ne hxv] at hx
      exact .inr ⟨hxv, hx⟩
  have hback : ∀ x y, s.Has x → (s.write v (.bound t)).Leads x y → s.Leads x y := by
    intro x y hx hl
    obtain ⟨hroot, heq⟩ := hs.leads_back (f := id) hf hx hl
    rw [heq]
    exact hroot
  constructor
  · intro x hx
    exact ⟨_, hf x _ (hs.leads_root (has_write.1 hx))⟩
  · intro x u hx
    rcases hslot x u hx with ⟨-, rfl⟩ | ⟨-, hx⟩
    · exact hn
    · exact hs.proper x u hx
  · intro x u hx
    rcases hslot x u hx with ⟨-, rfl⟩ | ⟨-, hx⟩
    · exact covers_write.2 ht
    · exact covers_write.2 (hs.covered x u hx)
  · refine acyclic_of_edges_from (v := v) hs.acyclic ?_ ?_
    · rintro c d hc ⟨u, hu, x, hx, hl⟩
      rcases hslot c u hu with ⟨rfl, -⟩ | ⟨-, hu⟩
      · exact absurd rfl hc
      · exact ⟨u, hu, x, hx, hback x d (hs.covered c u hu x hx) hl⟩
    · rintro d ⟨u, hu, x, hx, hl⟩
      rcases hslot v u hu with ⟨-, rfl⟩ | ⟨hvv, -⟩
      · exact hnot x hx d (hback x d (ht x hx) hl)
      · exact absurd rfl hvv

theorem wellFormed_fresh (hs : s.WellFormed) : s.fresh.2.WellFormed := by
  refine hs.of_leads (f := id) (fun _ _ hx => leads_fresh hx) (fun _ hx => hx.fresh) ?_ ?_
    (acyclic_of_same hs)
  · intro x hx
    by_cases hnew : x = s.fresh.1
    · refine .inr (.root (c := .root 0) ?_ (by simp))
      rw [slot?_fresh, if_pos hnew]
    · obtain ⟨c, hc⟩ := has_iff.1 hx
      rw [slot?_fresh, if_neg hnew] at hc
      exact .inl (has_of_slot? hc)
  · intro x t hx
    rw [slot?_fresh] at hx
    split at hx
    · cases hx
    · exact hx

/-- **Every move keeps a store well-formed.** -/
theorem Move.wellFormed (hm : Move s s') (hs : s.WellFormed) : s'.WellFormed := by
  cases hm with
  | shorten hv hl => exact wellFormed_shorten hs hv hl
  | raise k' hv => exact wellFormed_raise hs hv k'
  | join hv hw hvw => exact wellFormed_join hs hv hw hvw
  | bind hv hn ht hnot => exact wellFormed_bind hs hv hn ht hnot
  | fresh => exact wellFormed_fresh hs

namespace Moves

theorem wellFormed (hm : Moves s s') (hs : s.WellFormed) : s'.WellFormed := by
  induction hm with
  | refl => exact hs
  | tail _ hstep ih => exact hstep.wellFormed ih

theorem has (hm : Moves s s') (hx : s.Has x) : s'.Has x := by
  induction hm with
  | refl => exact hx
  | tail _ hstep ih => exact hstep.has ih

theorem covers (hm : Moves s s') (ht : s.Covers t) : s'.Covers t := fun v hv => hm.has (ht v hv)

theorem bound (hm : Moves s s') (hx : s.slot? x = some (.bound t)) :
    s'.slot? x = some (.bound t) := by
  induction hm with
  | refl => exact hx
  | tail _ hstep ih => exact hstep.bound ih

theorem reach (hm : Moves s s') (hx : s.Leads x y) :
    ∃ y', s'.Leads x y' ∧ ∀ c, TransGen s.Mentions c y → TransGen s'.Mentions c y' := by
  induction hm with
  | refl => exact ⟨y, hx, fun _ hc => hc⟩
  | tail _ hstep ih =>
    obtain ⟨y', hl, hreach⟩ := ih
    obtain ⟨y'', hl', hreach'⟩ := hstep.reach hl
    exact ⟨y'', hl', fun c hc => hreach' c (hreach c hc)⟩

end Moves

end Store
end TypeResolution
