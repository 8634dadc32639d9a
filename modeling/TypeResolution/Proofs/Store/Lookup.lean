/-
# Lookups and moves

A well-formed store from which only variables are looked up that it has is moved by unification
to a well-formed one (`Store.moves_of_unifyOwns`), whatever other variables the types have. If
the store has all variables of two types, nothing else is looked up (`Store.unifyOwns_of_covers`):
the types that are met on the way down are parts of the two, or of types in slots. Of two types the
tops are looked up first, and it is the tops (`Store.top`) that moves may change.

Key definitions: `Store.top`.
Key theorems: `Store.tops_eq_top`, `Store.Moves.top_eq`, `Store.moves_of_unifyOwns`,
`Store.unifyOwns_of_covers`.
-/
import TypeResolution.Proofs.Store.Parallel
import TypeResolution.Proofs.Store.Unification
import TypeResolution.Store.Lookup

namespace TypeResolution
namespace Store

variable {s s' : Store} {v x y z : TyVar} {a b a' b' t : Ty}

@[simp] theorem owns_iff : s.owns v = true ↔ s.Has v := decide_eq_true_iff

@[simp] theorem ownsAll_iff : s.ownsAll t = true ↔ s.Covers t := by
  simp [ownsAll, Covers]

theorem Covers.ownsTop (h : s.Covers t) : s.ownsTop t = true := by
  cases t with
  | var v => exact owns_iff.2 (covers_var.1 h)
  | _ => rfl

theorem ownsTop_moves (hm : Moves s s') (h : s.ownsTop t = true) : s'.ownsTop t = true := by
  cases t with
  | var v => exact owns_iff.2 (hm.has (owns_iff.1 h))
  | _ => rfl

/-! ### Tops -/

theorem tidies_shallow_of_ownsTop (hs : s.WellFormed) (ht : s.ownsTop t = true) :
    Tidies s (s.shallow t).2 := by
  cases t with
  | var v => exact tidies_shallow hs (covers_var.2 (owns_iff.1 ht))
  | _ => exact .refl s

theorem root_of_shallow_of_ownsTop (hs : s.WellFormed) (ht : s.ownsTop t = true)
    (h : (s.shallow t).1 = .var v) : ∃ k, s.slot? v = some (.root k) := by
  cases t with
  | var w => exact root_of_shallow hs (covers_var.2 (owns_iff.1 ht)) h
  | _ => cases h

/-- Looking up the tops of two types tidies the store, and leads to unbound roots only. -/
theorem tidies_tops_of_ownsTop (hs : s.WellFormed) (ha : s.ownsTop a = true)
    (hb : s.ownsTop b = true) (htops : s.tops a b = ((a', b'), s')) : Tidies s s' ∧
      (∀ v, a' = .var v → ∃ k, s'.slot? v = some (.root k)) ∧
      ∀ v, b' = .var v → ∃ k, s'.slot? v = some (.root k) := by
  obtain ⟨hpair, rfl⟩ := Prod.mk.inj htops
  obtain ⟨rfl, rfl⟩ := Prod.mk.inj hpair
  have hfirst := tidies_shallow_of_ownsTop hs ha
  have hs₁ := hfirst.moves.wellFormed hs
  have hb₁ := ownsTop_moves hfirst.moves hb
  have hsecond := tidies_shallow_of_ownsTop hs₁ hb₁
  refine ⟨hfirst.trans hsecond, fun v hv => ?_, fun v hv => ?_⟩
  · obtain ⟨k, hk⟩ := root_of_shallow_of_ownsTop hs ha hv
    exact ⟨k, (hfirst.trans hsecond).root_iff.1 hk⟩
  · obtain ⟨k, hk⟩ := root_of_shallow_of_ownsTop hs₁ hb₁ hv
    exact ⟨k, hsecond.root_iff.1 hk⟩

/-- What is known of a type at its top: what its class is bound to, or the class, if it is a
variable. -/
def top (s : Store) : Ty → Ty
  | .var v => s.probe v
  | t => t

theorem top_congr (h : s.slots = s'.slots) : s.top = s'.top := by
  funext t
  cases t with
  | var v => exact congrFun (probe_congr h) v
  | _ => rfl

theorem ownsTop_congr (h : s.slots = s'.slots) : s.ownsTop = s'.ownsTop := by
  funext t
  cases t with
  | var v =>
    unfold ownsTop owns size
    rw [h]
  | _ => rfl

theorem ownsAll_congr (h : s.slots = s'.slots) : s.ownsAll = s'.ownsAll := by
  funext t
  unfold ownsAll owns size
  rw [h]

theorem shallow_eq_top (hs : s.WellFormed) (ht : s.ownsTop t = true) :
    (s.shallow t).1 = s.top t := by
  cases t with
  | var v => exact shallow_var hs (owns_iff.1 ht)
  | _ => rfl

theorem root_of_top (hs : s.WellFormed) (ht : s.ownsTop t = true) (h : s.top t = .var v) :
    ∃ k, s.slot? v = some (.root k) :=
  root_of_shallow_of_ownsTop hs ht ((shallow_eq_top hs ht).trans h)

theorem Tidies.top_eq (h : Tidies s s') (hs : s.WellFormed) (ht : s.ownsTop t = true) :
    s'.top t = s.top t := by
  cases t with
  | var v => exact h.probe_eq hs (owns_iff.1 ht)
  | _ => rfl

theorem tops_eq_top (hs : s.WellFormed) (ha : s.ownsTop a = true) (hb : s.ownsTop b = true) :
    ∃ s₁, s.tops a b = ((s.top a, s.top b), s₁) ∧ Tidies s s₁ := by
  have hfirst := tidies_shallow_of_ownsTop hs ha
  have hs₁ := hfirst.moves.wellFormed hs
  have hb₁ := ownsTop_moves hfirst.moves hb
  refine ⟨_, Prod.ext (Prod.ext (shallow_eq_top hs ha) ?_) rfl,
    hfirst.trans (tidies_shallow_of_ownsTop hs₁ hb₁)⟩
  exact (shallow_eq_top hs₁ hb₁).trans (hfirst.top_eq hs hb)

/-! ### Tops after moves -/

/-- What leads to one root before moves leads to one root after them. -/
theorem Moves.together (hm : Moves s s') (hx : s.Leads x z) (hy : s.Leads y z) :
    ∃ r, s'.Leads x r ∧ s'.Leads y r := by
  induction hm with
  | refl => exact ⟨z, hx, hy⟩
  | tail _ hmove ih =>
    obtain ⟨r, hxr, hyr⟩ := ih
    obtain ⟨f, hf, -⟩ := hmove.exists_root
    exact ⟨f r, hf x r hxr, hf y r hyr⟩

theorem Moves.probe_root (hm : Moves s s') (hs : s.WellFormed) (hx : s.Has x) :
    s'.probe x = s'.probe (s.root x) := by
  have hs' := hm.wellFormed hs
  obtain ⟨r, hxr, hrr⟩ := hm.together (hs.leads_root hx) (hs.leads_root hx).self
  unfold probe
  rw [hs'.root_eq hxr, hs'.root_eq hrr]

/-- A top stays what it is, unless it is a variable that is bound or joined to another one. -/
theorem Moves.top_eq (hm : Moves s s') (hs : s.WellFormed) (ht : s.ownsTop t = true)
    (h : ∀ v, s.top t = .var v → s'.probe v = .var v) : s'.top t = s.top t := by
  cases t with
  | var x =>
    have hx := owns_iff.1 ht
    show s'.probe x = s.probe x
    rw [hm.probe_root hs hx]
    rcases hs.probe_cases hx with ⟨k, -, hprobe⟩ | ⟨u, hslot, hprobe⟩
    · rw [hprobe]
      exact h _ hprobe
    · have hbound := hm.bound hslot
      have hself : s'.root (s.root x) = s.root x :=
        (hm.wellFormed hs).root_eq (.root hbound nofun)
      rw [hprobe]
      unfold probe content
      rw [hself, hbound]
  | _ => rfl

theorem probe_of_root {k : Nat} (h : s.slot? v = some (.root k)) (hs : s.WellFormed) :
    s.probe v = .var v := by
  unfold probe content
  rw [hs.root_eq (.root h nofun), h]

/-! ### Unification -/

/-- Binding one of the tops of two types moves the store. -/
theorem moves_bind_of_ownsTop (hs : s.WellFormed) (ha : s.ownsTop a = true)
    (hb : s.ownsTop b = true) (htops : s.tops a b = ((a', b'), s'))
    (hcmp : Comparison.of a' b' = .bind v t) (ht : s'.Covers t) :
    Moves s (s'.bindRoot v t).store := by
  obtain ⟨htidy, hroota, hrootb⟩ := tidies_tops_of_ownsTop hs ha hb htops
  have hs' := htidy.moves.wellFormed hs
  refine htidy.moves.trans ?_
  rcases eq_or_eq_of_comparison hcmp with ⟨rfl, rfl⟩ | ⟨rfl, rfl⟩
  · obtain ⟨k, hk⟩ := hroota v rfl
    exact moves_bindRoot hs' hk ht hrootb
  · obtain ⟨k, hk⟩ := hrootb v rfl
    exact moves_bindRoot hs' hk ht hroota

theorem unifyOwnsWithin_succ {fuel : Nat} (htops : s.tops a b = ((a', b'), s')) :
    unifyOwnsWithin (fuel + 1) s a b = (s.ownsTop a && s.ownsTop b &&
      match Comparison.of a' b' with
      | .agree => true
      | .bind _ t => s'.ownsAll t
      | .structural =>
        if a'.shape = b'.shape ∧ a'.children.length = b'.children.length then
          unifyOwnsAll (unifyOwnsWithin fuel) (unifyWithin fuel) s' a'.children b'.children
        else s'.ownsAll a' && s'.ownsAll b') := by
  obtain ⟨hpair, rfl⟩ := Prod.mk.inj htops
  obtain ⟨rfl, rfl⟩ := Prod.mk.inj hpair
  rfl

theorem moves_of_unifyOwnsAll {owned : Store → Ty → Ty → Bool}
    {step : Store → Ty → Ty → Option Unified}
    (hstep : ∀ {s : Store} {a b : Ty} {u : Unified}, s.WellFormed → owned s a b = true →
      step s a b = some u → Moves s u.store) :
    ∀ (as bs : List Ty) {s : Store} {u : Unified}, s.WellFormed →
      unifyOwnsAll owned step s as bs = true → unifyAll step s as bs = some u → Moves s u.store
  | [], bs, s, u, _, _, h => by
    obtain rfl : Unified.done s = u := by cases bs <;> exact Option.some.inj h
    exact .refl
  | a :: as, [], s, u, _, _, h => by
    obtain rfl : Unified.done s = u := Option.some.inj h
    exact .refl
  | a :: as, b :: bs, s, u, hs, howned, h => by
    unfold unifyOwnsAll at howned
    obtain ⟨hfirst, hrest⟩ := Bool.and_eq_true_iff.1 howned
    unfold unifyAll at h
    split at h
    · rename_i s₁ heq
      rw [heq] at hrest
      have hmoves : Moves s s₁ := hstep hs hfirst heq
      exact hmoves.trans (moves_of_unifyOwnsAll hstep as bs (hmoves.wellFormed hs) hrest h)
    · exact hstep hs hfirst h

theorem moves_of_unifyOwnsWithin : ∀ (fuel : Nat) {s : Store} {a b : Ty} {u : Unified},
    s.WellFormed → unifyOwnsWithin fuel s a b = true → unifyWithin fuel s a b = some u →
    Moves s u.store
  | 0, _, _, _, _, _, _, h => by cases h
  | fuel + 1, s, a, b, u, hs, howned, h => by
    rcases htops : s.tops a b with ⟨⟨a', b'⟩, s'⟩
    rw [unifyOwnsWithin_succ htops] at howned
    rw [unifyWithin_succ fuel htops] at h
    obtain ⟨hboth, hafter⟩ := Bool.and_eq_true_iff.1 howned
    obtain ⟨ha, hb⟩ := Bool.and_eq_true_iff.1 hboth
    have htidy := (tidies_tops_of_ownsTop hs ha hb htops).1
    cases hcmp : Comparison.of a' b' with
    | agree =>
      rw [hcmp] at h
      obtain rfl := Option.some.inj h
      exact htidy.moves
    | bind v t =>
      rw [hcmp] at h hafter
      obtain rfl := Option.some.inj h
      exact moves_bind_of_ownsTop hs ha hb htops hcmp (ownsAll_iff.1 hafter)
    | structural =>
      rw [hcmp] at h hafter
      dsimp only at h hafter
      split at h
      · rename_i hshape
        rw [if_pos hshape] at hafter
        exact htidy.moves.trans (moves_of_unifyOwnsAll (moves_of_unifyOwnsWithin fuel) _ _
          (htidy.moves.wellFormed hs) hafter h)
      · obtain rfl := Option.some.inj h
        exact htidy.moves

/-- **Unification moves the store** if the store has what is looked up. -/
theorem moves_of_unifyOwns (hs : s.WellFormed) (h : s.unifyOwns a b = true) :
    Moves s (s.unify a b).store := by
  unfold unify
  cases hunify : unifyWithin (s.unifyDepth a b) s a b with
  | none => exact .refl
  | some u => exact moves_of_unifyOwnsWithin _ hs h hunify

theorem unifyOwnsAll_of_covers {fuel : Nat}
    (hfuel : ∀ {s : Store} {a b : Ty}, s.WellFormed → s.Covers a → s.Covers b →
      unifyOwnsWithin fuel s a b = true) :
    ∀ (as bs : List Ty) {s : Store}, s.WellFormed → (∀ a ∈ as, s.Covers a) →
      (∀ b ∈ bs, s.Covers b) →
      unifyOwnsAll (unifyOwnsWithin fuel) (unifyWithin fuel) s as bs = true
  | [], bs, _, _, _, _ => by cases bs <;> rfl
  | a :: as, [], _, _, _, _ => rfl
  | a :: as, b :: bs, s, hs, has, hbs => by
    have hfirst := hfuel hs (has a List.mem_cons_self) (hbs b List.mem_cons_self)
    unfold unifyOwnsAll
    refine Bool.and_eq_true_iff.2 ⟨hfirst, ?_⟩
    split
    · rename_i s₁ heq
      have hmoves : Moves s s₁ := moves_of_unifyOwnsWithin fuel hs hfirst heq
      exact unifyOwnsAll_of_covers hfuel as bs (hmoves.wellFormed hs)
        (fun x hx => hmoves.covers (has x (List.mem_cons_of_mem _ hx)))
        fun x hx => hmoves.covers (hbs x (List.mem_cons_of_mem _ hx))
    · rfl

theorem unifyOwnsWithin_of_covers : ∀ (fuel : Nat) {s : Store} {a b : Ty}, s.WellFormed →
    s.Covers a → s.Covers b → unifyOwnsWithin fuel s a b = true
  | 0, _, _, _, _, _, _ => rfl
  | fuel + 1, s, a, b, hs, ha, hb => by
    rcases htops : s.tops a b with ⟨⟨a', b'⟩, s'⟩
    obtain ⟨htidy, hca, hcb, -, -⟩ := tops_spec hs ha hb htops
    rw [unifyOwnsWithin_succ htops, ha.ownsTop, hb.ownsTop, Bool.and_self, Bool.true_and]
    cases hcmp : Comparison.of a' b' with
    | agree => rfl
    | bind v t => exact ownsAll_iff.2 (root_of_bind hs ha hb htops hcmp).2.1
    | structural =>
      dsimp only
      split
      · exact unifyOwnsAll_of_covers (unifyOwnsWithin_of_covers fuel) _ _
          (htidy.moves.wellFormed hs) (fun c hc => hca.of_mem_children hc)
          fun c hc => hcb.of_mem_children hc
      · exact Bool.and_eq_true_iff.2 ⟨ownsAll_iff.2 hca, ownsAll_iff.2 hcb⟩

/-- **Nothing is looked up that the store does not have** when it has all variables of the
types. -/
theorem unifyOwns_of_covers (hs : s.WellFormed) (ha : s.Covers a) (hb : s.Covers b) :
    s.unifyOwns a b = true := unifyOwnsWithin_of_covers _ hs ha hb

end Store
end TypeResolution
