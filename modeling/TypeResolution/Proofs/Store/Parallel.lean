/-
# Stores with the same slots

What an operation answers depends on the slots of the store only, and it changes the store by
writing slots and adding variables. So a relation between stores of the same slots that writing
and adding keep (`Store.Parallel`) is kept by every operation, with the same answers
(`Store.Alike`). The log, the open snapshots and the version of a store can be different, as
they are after a snapshot was restored.

No assumption is made about the stores: variables that a store does not have are read as unbound
and are not written.

Key definitions: `Store.Parallel`, `Store.Alike`.
Key theorems: `Store.Parallel.shallow`, `Store.Parallel.unify`, `Store.Parallel.bind`.
-/
import TypeResolution.Proofs.Store.Operations

namespace TypeResolution

open Relation (TransGen)

namespace Store

variable {s t : Store} {v w : TyVar} {a b : Ty} {α : Type}

/-! ### What depends on the slots -/

theorem rootWithin_congr (h : s.slots = t.slots) : s.rootWithin = t.rootWithin := by
  funext fuel
  induction fuel with
  | zero => rfl
  | succ fuel ih =>
    funext v
    unfold rootWithin
    rw [slot?_congr h, ih]

theorem root_congr (h : s.slots = t.slots) : s.root = t.root := by
  funext v
  rw [root, root, rootWithin_congr h, size, size, h]

theorem content_congr (h : s.slots = t.slots) : s.content = t.content := by
  funext v
  rw [content, content, slot?_congr h]

theorem probe_congr (h : s.slots = t.slots) : s.probe = t.probe := by
  funext v
  rw [probe, probe, root_congr h, content_congr h]

theorem isBound_congr (h : s.slots = t.slots) : s.isBound = t.isBound := by
  funext v
  rw [isBound, isBound, root_congr h, slot?_congr h]

theorem applyWithin_congr (h : s.slots = t.slots) : s.applyWithin = t.applyWithin := by
  funext fuel
  induction fuel with
  | zero => rfl
  | succ fuel ih =>
    funext a
    unfold applyWithin
    rw [probe_congr h, ih]

theorem apply_congr (h : s.slots = t.slots) : s.apply = t.apply := by
  funext a
  rw [apply, apply, applyWithin_congr h, size, size, h]

theorem occursWithin_congr (h : s.slots = t.slots) (r : TyVar) :
    s.occursWithin r = t.occursWithin r := by
  funext fuel
  induction fuel with
  | zero => rfl
  | succ fuel ih =>
    funext a
    unfold occursWithin
    rw [probe_congr h, ih]

theorem occurs_congr (h : s.slots = t.slots) : s.occurs = t.occurs := by
  funext v a
  rw [occurs, occurs, root_congr h, occursWithin_congr h, size, size, h]

theorem rank_congr (h : s.slots = t.slots) : s.rank = t.rank := by
  funext v
  rw [rank, rank, slot?_congr h]

theorem unifyDepth_congr (h : s.slots = t.slots) : s.unifyDepth = t.unifyDepth := by
  funext a b
  rw [unifyDepth, unifyDepth, size, size, h]

theorem leads_of_slots_eq {x y : TyVar} (h : s.slots = t.slots) (hl : s.Leads x y) :
    t.Leads x y := by
  have hslot := slot?_congr h
  induction hl with
  | root hc hn => exact .root (hslot ▸ hc) hn
  | link hc _ ih => exact .link (hslot ▸ hc) ih

theorem WellFormed.of_slots_eq (hs : s.WellFormed) (h : s.slots = t.slots) : t.WellFormed := by
  have hslot := slot?_congr h
  have hhas : ∀ v, t.Has v ↔ s.Has v := by simp [Has, size, h]
  have hmentions : ∀ c d, t.Mentions c d → s.Mentions c d := by
    rintro c d ⟨u, hu, v, hv, hl⟩
    exact ⟨u, by rw [hslot]; exact hu, v, hv, leads_of_slots_eq h.symm hl⟩
  constructor
  · intro v hv
    obtain ⟨r, hr⟩ := hs.rooted v ((hhas v).1 hv)
    exact ⟨r, leads_of_slots_eq h hr⟩
  · intro v u hu
    rw [← hslot] at hu
    exact hs.proper v u hu
  · intro v u hu w hw
    rw [← hslot] at hu
    exact (hhas w).2 (hs.covered v u hu w hw)
  · exact fun c hc => hs.acyclic c (TransGen.mono hmentions c c hc)

/-! ### Operations side by side -/

/-- A relation between stores of the same slots that changes keep. -/
structure Parallel (R : Store → Store → Prop) : Prop where
  slots : ∀ {s t}, R s t → s.slots = t.slots
  write : ∀ {s t}, R s t → ∀ v c, R (s.write v c) (t.write v c)
  fresh : ∀ {s t}, R s t → R s.fresh.2 t.fresh.2

/-- The same answer with related stores. -/
def Alike (R : Store → Store → Prop) (p q : α × Store) : Prop := p.1 = q.1 ∧ R p.2 q.2

/-- The same conflict, or none, with related stores. -/
def AlikeUnified (R : Store → Store → Prop) (p q : Unified) : Prop :=
  p.conflict = q.conflict ∧ R p.store q.store

theorem AlikeUnified.done {R : Store → Store → Prop} (h : R s t) :
    AlikeUnified R (.done s) (.done t) := ⟨rfl, h⟩

theorem AlikeUnified.failed {R : Store → Store → Prop} (h : R s t) (e : UnifyError) :
    AlikeUnified R (.failed s e) (.failed t e) := ⟨rfl, h⟩

/-- Related results that are there or not together. -/
def AlikeSome (R : Store → Store → Prop) : Option Unified → Option Unified → Prop
  | some p, some q => AlikeUnified R p q
  | none, none => True
  | _, _ => False

namespace Parallel

variable {R : Store → Store → Prop} (hR : Parallel R)

include hR

theorem compressWithin (r : TyVar) : ∀ (fuel : Nat) {s t : Store} (v : TyVar), R s t →
    R (compressWithin r fuel s v) (compressWithin r fuel t v)
  | 0, _, _, _, h => h
  | fuel + 1, s, t, v, h => by
    unfold Store.compressWithin
    by_cases hv : v = r
    · rw [if_pos hv, if_pos hv]
      exact h
    · rw [if_neg hv, if_neg hv, slot?_congr (hR.slots h)]
      split
      · rename_i next _
        by_cases hn : next = r
        · rw [if_pos hn, if_pos hn]
          exact compressWithin r fuel next h
        · rw [if_neg hn, if_neg hn]
          exact compressWithin r fuel next (hR.write h v _)
      · exact h

theorem find (h : R s t) (v : TyVar) : Alike R (s.find v) (t.find v) := by
  have hslots := hR.slots h
  refine ⟨congrFun (root_congr hslots) v, ?_⟩
  show R (Store.compressWithin (s.root v) s.size s v) (Store.compressWithin (t.root v) t.size t v)
  rw [root_congr hslots, size, size, hslots]
  exact hR.compressWithin _ _ v h

theorem resolve (h : R s t) (v : TyVar) : Alike R (s.resolve v) (t.resolve v) := by
  obtain ⟨hroot, hstore⟩ := hR.find h v
  refine ⟨?_, hstore⟩
  show (s.find v).2.content (s.find v).1 = (t.find v).2.content (t.find v).1
  rw [hroot, content_congr (hR.slots hstore)]

theorem shallow (h : R s t) (a : Ty) : Alike R (s.shallow a) (t.shallow a) := by
  cases a with
  | var v => exact hR.resolve h v
  | _ => exact ⟨rfl, h⟩

theorem link (h : R s t) (v w : TyVar) : R (s.link v w) (t.link v w) := by
  obtain ⟨hv, h₁⟩ := hR.find h v
  obtain ⟨hw, h₂⟩ := hR.find h₁ w
  unfold Store.link
  dsimp only
  rw [hv, hw, rank_congr (hR.slots h₂)]
  split
  · exact h₂
  · split
    · exact hR.write h₂ _ _
    · split
      · exact hR.write h₂ _ _
      · exact hR.write (hR.write h₂ _ _) _ _

theorem bindRoot (h : R s t) (v : TyVar) (a : Ty) :
    AlikeUnified R (s.bindRoot v a) (t.bindRoot v a) := by
  cases hn : a.isVar with
  | true =>
    obtain ⟨w, rfl⟩ := Ty.eq_var_of_isVar hn
    rw [bindRoot_var, bindRoot_var]
    exact .done (hR.link h v w)
  | false =>
    have hslots := hR.slots h
    rw [bindRoot_eq hn, bindRoot_eq hn, occurs_congr hslots, apply_congr hslots]
    split
    · exact .failed h _
    · exact .done (hR.write h v _)

theorem mismatch (h : R s t) (a b : Ty) : AlikeUnified R (s.mismatch a b) (t.mismatch a b) := by
  unfold Store.mismatch
  rw [apply_congr (hR.slots h)]
  exact .failed h _

omit hR in
theorem unifyAll {step : Store → Ty → Ty → Option Unified}
    (hstep : ∀ {s t : Store} (a b : Ty), R s t → AlikeSome R (step s a b) (step t a b)) :
    ∀ (as bs : List Ty) {s t : Store}, R s t →
      AlikeSome R (unifyAll step s as bs) (unifyAll step t as bs)
  | [], bs, _, _, h => by cases bs <;> exact AlikeUnified.done h
  | _ :: _, [], _, _, h => AlikeUnified.done h
  | a :: as, b :: bs, s, t, h => by
    unfold Store.unifyAll
    have hab := hstep a b h
    rcases hs : step s a b with _ | ⟨s', c⟩ <;> rcases ht : step t a b with _ | ⟨t', d⟩ <;>
      rw [hs, ht] at hab
    · exact hab
    · exact hab.elim
    · exact hab.elim
    · obtain ⟨hc, h'⟩ := hab
      obtain rfl : c = d := hc
      cases c with
      | none => exact unifyAll hstep as bs h'
      | some e => exact ⟨rfl, h'⟩

theorem unifyWithin : ∀ (fuel : Nat) {s t : Store} (a b : Ty), R s t →
    AlikeSome R (unifyWithin fuel s a b) (unifyWithin fuel t a b)
  | 0, _, _, _, _, _ => trivial
  | fuel + 1, s, t, a, b, h => by
    obtain ⟨ha, h₁⟩ := hR.shallow h a
    obtain ⟨hb, h₂⟩ := hR.shallow h₁ b
    unfold Store.unifyWithin
    dsimp only
    rw [ha, hb]
    split
    · exact AlikeUnified.done h₂
    · exact hR.bindRoot h₂ _ _
    · split
      · exact unifyAll (fun a b h => unifyWithin fuel a b h) _ _ h₂
      · exact hR.mismatch h₂ _ _

/-- Unification makes the same changes and meets the same conflict. -/
theorem unify (h : R s t) (a b : Ty) : AlikeUnified R (s.unify a b) (t.unify a b) := by
  have hwithin := hR.unifyWithin (s.unifyDepth a b) a b h
  unfold Store.unify
  rw [← unifyDepth_congr (hR.slots h)]
  cases hs : Store.unifyWithin (s.unifyDepth a b) s a b with
  | none =>
    cases ht : Store.unifyWithin (s.unifyDepth a b) t a b with
    | none => exact hR.mismatch h a b
    | some q =>
      rw [hs, ht] at hwithin
      exact hwithin.elim
  | some p =>
    cases ht : Store.unifyWithin (s.unifyDepth a b) t a b with
    | none =>
      rw [hs, ht] at hwithin
      exact hwithin.elim
    | some q =>
      rw [hs, ht] at hwithin
      exact hwithin

theorem bind (h : R s t) (v : TyVar) (a : Ty) : AlikeUnified R (s.bind v a) (t.bind v a) := by
  obtain ⟨hroot, h₁⟩ := hR.find h v
  obtain ⟨ha, h₂⟩ := hR.shallow h₁ a
  unfold Store.bind
  dsimp only
  rw [hroot, ha, slot?_congr (hR.slots h₁)]
  split
  · exact hR.unify h₁ _ a
  · exact hR.bindRoot h₂ _ _

end Parallel
end Store
end TypeResolution
