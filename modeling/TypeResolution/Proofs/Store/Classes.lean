/-
# Classes of variables

A variable leads along links to the root of its class (`Store.Leads`), and a bound class
mentions the classes of the variables in its binding (`Store.Mentions`). In a well-formed
store every variable leads to a root, no binding is a variable or has one that the store does
not have, and no class mentions itself, directly or through others.

Both relations are then acyclic on finitely many variables, so each has a height below the
number of variables (`exists_height`). This is why the bounds that `root`, `apply` and `occurs`
take for their recursion are never reached: `root` is the root to which a variable leads, and
`apply` and `occurs` satisfy the equations of the unbounded recursion.

Key definitions: `Store.Has`, `Store.Covers`, `Store.Leads`, `Store.Mentions`,
`Store.WellFormed`, `Store.Enters`.
Key theorems: `Store.WellFormed.root_eq`, `Store.WellFormed.acc_enters`,
`Store.WellFormed.apply_eq`, `Store.WellFormed.occurs_eq`, `Store.WellFormed.occurs_iff`,
`Store.WellFormed.unbound_of_mem_vars_apply`, `Store.WellFormed.apply_apply`.
-/
import Mathlib.Data.Finset.Card
import Mathlib.Logic.Relation
import TypeResolution.Proofs.Ty.Substitution
import TypeResolution.Store.Unify

namespace TypeResolution

open Relation

/-! ### Acyclic relations on finitely many variables -/

open Classical in
/-- An acyclic relation on the variables below `n` has a height below `n`: the number of
variables that can be reached. -/
theorem exists_height {R : TyVar → TyVar → Prop} {n : Nat} (hlt : ∀ c d, R c d → d.index < n)
    (hac : ∀ c, ¬ TransGen R c c) :
    ∃ h : TyVar → Nat, (∀ c d, R c d → h d < h c) ∧ ∀ c, c.index < n → h c < n := by
  let reached (c : TyVar) : Finset Nat := (Finset.range n).filter fun i => TransGen R c ⟨i⟩
  refine ⟨fun c => (reached c).card, fun c d hcd => ?_, fun c hc => ?_⟩
  · refine Finset.card_lt_card ⟨fun i hi => ?_, fun hsub => ?_⟩
    · have hi' := Finset.mem_filter.1 hi
      exact Finset.mem_filter.2 ⟨hi'.1, .head hcd hi'.2⟩
    · have hd : d.index ∈ reached c :=
        Finset.mem_filter.2 ⟨Finset.mem_range.2 (hlt c d hcd), .single hcd⟩
      exact hac d (Finset.mem_filter.1 (hsub hd)).2
  · have hsub : reached c ⊂ Finset.range n := by
      refine ⟨Finset.filter_subset _ _, fun hsub => ?_⟩
      exact hac c (Finset.mem_filter.1 (hsub (Finset.mem_range.2 hc))).2
    simpa using Finset.card_lt_card hsub

namespace Store

/-! ### Links and mentions -/

/-- The store has the variable. -/
def Has (s : Store) (v : TyVar) : Prop := v.index < s.size

/-- The store has every variable of the type. -/
def Covers (s : Store) (t : Ty) : Prop := ∀ v ∈ t.vars, s.Has v

instance (s : Store) (v : TyVar) : Decidable (s.Has v) :=
  inferInstanceAs (Decidable (v.index < s.size))

instance (s : Store) (t : Ty) : Decidable (s.Covers t) :=
  inferInstanceAs (Decidable (∀ v ∈ t.vars, s.Has v))

/-- Links lead from a variable to the root of its class. -/
inductive Leads (s : Store) : TyVar → TyVar → Prop where
  | root {v : TyVar} {c : Slot} : s.slot? v = some c → (∀ w, c ≠ .link w) → Leads s v v
  | link {v w r : TyVar} : s.slot? v = some (.link w) → Leads s w r → Leads s v r

/-- The binding of the class of root `c` has a variable of the class of root `d`. -/
def Mentions (s : Store) (c d : TyVar) : Prop :=
  ∃ t, s.slot? c = some (.bound t) ∧ ∃ v ∈ t.vars, s.Leads v d

/-- What holds in every store that operations lead to. -/
structure WellFormed (s : Store) : Prop where
  /-- Every way along links ends in a slot that is no link. -/
  rooted : ∀ v, s.Has v → ∃ r, s.Leads v r
  /-- No class is bound to a bare variable. -/
  proper : ∀ v t, s.slot? v = some (.bound t) → t.isVar = false
  /-- Bindings have variables of the store only. -/
  covered : ∀ v t, s.slot? v = some (.bound t) → s.Covers t
  /-- No class is met within its own binding. -/
  acyclic : ∀ c, ¬ TransGen s.Mentions c c

variable {s : Store} {v w r : TyVar} {t u : Ty}

theorem has_iff : s.Has v ↔ ∃ c, s.slot? v = some c := by
  simp only [Has, size, slot?]
  constructor
  · intro h
    exact ⟨s.slots[v.index], Array.getElem?_eq_getElem h⟩
  · rintro ⟨c, h⟩
    exact (Array.getElem?_eq_some_iff.1 h).1

theorem slot?_congr {s t : Store} (h : s.slots = t.slots) : s.slot? = t.slot? := by
  funext v
  simp only [slot?, h]

theorem has_of_slot? {c : Slot} (h : s.slot? v = some c) : s.Has v := has_iff.2 ⟨c, h⟩

theorem Covers.of_mem_children {c : Ty} (h : s.Covers t) (hc : c ∈ t.children) : s.Covers c :=
  fun v hv => h v (Ty.mem_vars_of_mem_children hc hv)

theorem covers_var : s.Covers (.var v) ↔ s.Has v := by simp [Covers]

namespace Leads

theorem has (h : s.Leads v r) : s.Has v := by
  cases h with
  | root hc _ => exact has_of_slot? hc
  | link hc _ => exact has_of_slot? hc

/-- The variable at the end is a root. -/
theorem slot_root (h : s.Leads v r) :
    (∃ k, s.slot? r = some (.root k)) ∨ ∃ t, s.slot? r = some (.bound t) := by
  induction h with
  | @root v c hc hn =>
    cases c with
    | root k => exact .inl ⟨k, hc⟩
    | link w => exact absurd rfl (hn w)
    | bound t => exact .inr ⟨t, hc⟩
  | link _ _ ih => exact ih

theorem self (h : s.Leads v r) : s.Leads r r := by
  rcases h.slot_root with ⟨k, hk⟩ | ⟨t, ht⟩
  · exact .root hk fun w => by simp
  · exact .root ht fun w => by simp

theorem has_root (h : s.Leads v r) : s.Has r := h.self.has

/-- A variable leads to one root. -/
theorem unique {r' : TyVar} (h : s.Leads v r) (h' : s.Leads v r') : r = r' := by
  induction h with
  | root hc hn =>
    cases h' with
    | root _ _ => rfl
    | link hc' _ =>
      rw [hc] at hc'
      exact absurd (Option.some.inj hc') (hn _)
  | link hc _ ih =>
    cases h' with
    | root hc' hn =>
      rw [hc] at hc'
      exact absurd (Option.some.inj hc').symm (hn _)
    | link hc' h' =>
      rw [hc] at hc'
      obtain rfl := Slot.link.inj (Option.some.inj hc')
      exact ih h'

theorem height_le {h : TyVar → Nat} (hh : ∀ v w, s.slot? v = some (.link w) → h w < h v)
    (hl : s.Leads v r) : h r ≤ h v := by
  induction hl with
  | root => exact Nat.le_refl _
  | link hslot _ ih =>
    have := hh _ _ hslot
    omega

/-- A variable from which a root is reached is on no cycle of links. -/
theorem not_transGen (h : s.Leads v r) :
    ¬ TransGen (fun v w => s.slot? v = some (.link w)) v v := by
  induction h with
  | root hc hn =>
    intro hcycle
    obtain ⟨w, hw, -⟩ := TransGen.head'_iff.1 hcycle
    rw [hc] at hw
    exact hn w (Option.some.inj hw)
  | @link v w r hc _ ih =>
    intro hcycle
    obtain ⟨w', hw', hback⟩ := TransGen.head'_iff.1 hcycle
    rw [hc] at hw'
    obtain rfl := Slot.link.inj (Option.some.inj hw')
    exact ih (TransGen.tail' hback hc)

end Leads

/-- Only bound classes mention others. -/
theorem Mentions.slot {c d : TyVar} (h : s.Mentions c d) : ∃ t, s.slot? c = some (.bound t) :=
  let ⟨t, ht, _⟩ := h
  ⟨t, ht⟩

theorem Mentions.has {c d : TyVar} (h : s.Mentions c d) : s.Has d :=
  let ⟨_, _, _, _, hl⟩ := h
  hl.has_root

/-- An unbound class mentions no other. -/
theorem not_mentions_of_root {k : Nat} {d : TyVar} (hk : s.slot? v = some (.root k)) :
    ¬ s.Mentions v d := by
  rintro ⟨t, ht, -⟩
  rw [hk] at ht
  cases ht

/-- From an unbound class nothing is reached but itself. -/
theorem eq_of_reflTransGen_root {k : Nat} {d : TyVar} (hk : s.slot? v = some (.root k))
    (h : ReflTransGen s.Mentions v d) : d = v := by
  rcases ReflTransGen.cases_head h with rfl | ⟨c, hc, -⟩
  · rfl
  · exact absurd hc (not_mentions_of_root hk)

/-! ### Roots -/

/-- With enough steps the way along links is followed to its end. -/
theorem rootWithin_eq_of_height {h : TyVar → Nat}
    (hh : ∀ v w, s.slot? v = some (.link w) → h w < h v) (hl : s.Leads v r) :
    ∀ fuel, h v ≤ fuel → s.rootWithin fuel v = r := by
  induction hl with
  | @root v c hc hn =>
    intro fuel _
    cases fuel with
    | zero => rfl
    | succ fuel =>
      unfold rootWithin
      rw [hc]
      cases c with
      | link w => exact absurd rfl (hn w)
      | _ => rfl
  | @link v w r hc _ ih =>
    intro fuel hf
    have hlt := hh v w hc
    cases fuel with
    | zero => omega
    | succ fuel =>
      unfold rootWithin
      rw [hc]
      exact ih fuel (by omega)

namespace WellFormed

/-- Links lead to variables of the store. -/
theorem has_next (hs : s.WellFormed) (hv : s.slot? v = some (.link w)) : s.Has w := by
  obtain ⟨r, hr⟩ := hs.rooted v (has_of_slot? hv)
  cases hr with
  | root hc hn =>
    rw [hv] at hc
    exact absurd (Option.some.inj hc).symm (hn w)
  | link hc hl =>
    rw [hv] at hc
    obtain rfl := Slot.link.inj (Option.some.inj hc)
    exact hl.has

theorem exists_linkHeight (hs : s.WellFormed) :
    ∃ h : TyVar → Nat, (∀ v w, s.slot? v = some (.link w) → h w < h v) ∧
      ∀ v, s.Has v → h v < s.size := by
  refine TypeResolution.exists_height (R := fun v w => s.slot? v = some (.link w))
    (fun _ _ h => hs.has_next h) fun v hcycle => ?_
  obtain ⟨w, hw, -⟩ := TransGen.head'_iff.1 hcycle
  obtain ⟨r, hr⟩ := hs.rooted v (has_of_slot? hw)
  exact hr.not_transGen hcycle

/-- More steps than there are variables change nothing. -/
theorem rootWithin_eq (hs : s.WellFormed) (hl : s.Leads v r) {fuel : Nat} (hf : s.size ≤ fuel) :
    s.rootWithin fuel v = r := by
  obtain ⟨h, hh, hsize⟩ := hs.exists_linkHeight
  have := hsize v hl.has
  exact rootWithin_eq_of_height hh hl fuel (by omega)

/-- `root` finds the root to which a variable leads. -/
theorem root_eq (hs : s.WellFormed) (hl : s.Leads v r) : s.root v = r :=
  hs.rootWithin_eq hl (Nat.le_refl _)

theorem leads_root (hs : s.WellFormed) (hv : s.Has v) : s.Leads v (s.root v) := by
  obtain ⟨r, hr⟩ := hs.rooted v hv
  rw [hs.root_eq hr]
  exact hr

theorem has_root (hs : s.WellFormed) (hv : s.Has v) : s.Has (s.root v) :=
  (hs.leads_root hv).has_root

/-- The class of a variable is unbound or bound, and `probe` tells which. -/
theorem probe_cases (hs : s.WellFormed) (hv : s.Has v) :
    (∃ k, s.slot? (s.root v) = some (.root k) ∧ s.probe v = .var (s.root v)) ∨
      ∃ t, s.slot? (s.root v) = some (.bound t) ∧ s.probe v = t := by
  rcases (hs.leads_root hv).slot_root with ⟨k, hk⟩ | ⟨t, ht⟩
  · exact .inl ⟨k, hk, by simp [probe, content, hk]⟩
  · exact .inr ⟨t, ht, by simp [probe, content, ht]⟩

theorem covers_probe (hs : s.WellFormed) (hv : s.Has v) : s.Covers (s.probe v) := by
  rcases hs.probe_cases hv with ⟨k, _, hp⟩ | ⟨t, ht, hp⟩
  · rw [hp, covers_var]
    exact hs.has_root hv
  · rw [hp]
    exact hs.covered _ t ht

/-- Of a class and one that its binding mentions, the roots. -/
theorem mentions_root (hs : s.WellFormed) (ht : s.slot? v = some (.bound t)) (hw : w ∈ t.vars) :
    s.Mentions v (s.root w) :=
  ⟨t, ht, w, hw, hs.leads_root (hs.covered v t ht w hw)⟩

theorem exists_height (hs : s.WellFormed) :
    ∃ h : TyVar → Nat, (∀ c d, s.Mentions c d → h d < h c) ∧ ∀ v, s.Has v → h v < s.size :=
  TypeResolution.exists_height (fun _ _ h => h.has) hs.acyclic

end WellFormed

/-! ### Meanings of types -/

/-- Going through a type, `apply` and `occurs` go on into the binding `u` of a variable of it. -/
def Enters (s : Store) (u t : Ty) : Prop := ∃ v ∈ t.vars, s.probe v = u ∧ u.isVar = false

/-- Once the bound exceeds the height of the classes in a type, it does not matter. -/
theorem applyWithin_eq_of_height (hs : s.WellFormed) {h : TyVar → Nat}
    (hh : ∀ c d, s.Mentions c d → h d < h c) :
    ∀ (f g : Nat) (t : Ty), s.Covers t → (∀ v ∈ t.vars, h (s.root v) < f) →
      (∀ v ∈ t.vars, h (s.root v) < g) → s.applyWithin f t = s.applyWithin g t := by
  intro f
  induction f with
  | zero =>
    intro g t _ hf _
    have hnil : t.vars = [] := List.eq_nil_iff_forall_not_mem.2 fun v hv =>
      absurd (hf v hv) (Nat.not_lt_zero _)
    cases g with
    | zero => rfl
    | succ g => exact (Ty.mapVars_eq_self hnil).symm
  | succ f ih =>
    intro g t ht hf hg
    cases g with
    | zero =>
      have hnil : t.vars = [] := List.eq_nil_iff_forall_not_mem.2 fun v hv =>
        absurd (hg v hv) (Nat.not_lt_zero _)
      exact Ty.mapVars_eq_self hnil
    | succ g =>
      refine Ty.mapVars_congr fun v hv => ?_
      rcases hs.probe_cases (ht v hv) with ⟨k, _, hp⟩ | ⟨u, hu, hp⟩
      · rw [hp]
      · have hlow : ∀ w ∈ u.vars, h (s.root w) < h (s.root v) := fun w hw =>
          hh _ _ (hs.mentions_root hu hw)
        have heq := ih g u (hs.covered _ u hu)
          (fun w hw => by have := hlow w hw; have := hf v hv; omega)
          (fun w hw => by have := hlow w hw; have := hg v hv; omega)
        rw [hp]
        cases u with
        | var w => rfl
        | _ => exact heq

namespace WellFormed

/-- More bindings within each other than there are variables are never met. -/
theorem applyWithin_eq (hs : s.WellFormed) (ht : s.Covers t) {fuel : Nat} (hf : s.size ≤ fuel) :
    s.applyWithin fuel t = s.apply t := by
  obtain ⟨h, hh, hsize⟩ := hs.exists_height
  have hlow : ∀ v ∈ t.vars, h (s.root v) < s.size := fun v hv => hsize _ (hs.has_root (ht v hv))
  exact applyWithin_eq_of_height hs hh fuel (s.size + 1) t ht
    (fun v hv => Nat.lt_of_lt_of_le (hlow v hv) hf) fun v hv => Nat.lt_succ_of_lt (hlow v hv)

/-- The meaning of a type has the meanings of its variables put in. -/
theorem apply_eq (hs : s.WellFormed) (ht : s.Covers t) :
    s.apply t = t.mapVars fun v =>
      match s.probe v with
      | .var root => .var root
      | bound => s.apply bound := by
  refine Ty.mapVars_congr fun v hv => ?_
  have hc := hs.applyWithin_eq (hs.covers_probe (ht v hv)) (Nat.le_refl s.size)
  cases hp : s.probe v with
  | var w => rfl
  | _ =>
    rw [hp] at hc
    exact hc

/-- The recursion of `apply` and `occurs` goes down finitely often. -/
theorem acc_enters (hs : s.WellFormed) (ht : s.Covers t) : Acc s.Enters t := by
  obtain ⟨h, hh, hsize⟩ := hs.exists_height
  suffices H : ∀ (n : Nat) (t : Ty), s.Covers t → (∀ v ∈ t.vars, h (s.root v) < n) →
      Acc s.Enters t from
    H s.size t ht fun v hv => hsize _ (hs.has_root (ht v hv))
  intro n
  induction n with
  | zero =>
    intro t _ hlow
    refine ⟨t, fun u hu => ?_⟩
    obtain ⟨v, hv, -⟩ := hu
    exact absurd (hlow v hv) (Nat.not_lt_zero _)
  | succ n ih =>
    intro t ht hlow
    refine ⟨t, fun u hu => ?_⟩
    obtain ⟨v, hv, hp, hn⟩ := hu
    rcases hs.probe_cases (ht v hv) with ⟨k, _, hp'⟩ | ⟨u', hu', hp'⟩
    · rw [← hp, hp'] at hn
      cases hn
    · obtain rfl : u' = u := hp'.symm.trans hp
      refine ih u' (hs.covered _ u' hu') fun w hw => ?_
      have := hh _ _ (hs.mentions_root hu' hw)
      have := hlow v hv
      omega

theorem apply_var_of_root {k : Nat} (hs : s.WellFormed) (hv : s.Has v)
    (hk : s.slot? (s.root v) = some (.root k)) : s.apply (.var v) = .var (s.root v) := by
  rw [hs.apply_eq (covers_var.2 hv), Ty.mapVars_var]
  rcases hs.probe_cases hv with ⟨_, _, hp⟩ | ⟨u, hu, _⟩
  · rw [hp]
  · rw [hk] at hu
    cases hu

theorem apply_var_of_bound (hs : s.WellFormed) (hv : s.Has v)
    (hu : s.slot? (s.root v) = some (.bound u)) : s.apply (.var v) = s.apply u := by
  rw [hs.apply_eq (covers_var.2 hv), Ty.mapVars_var]
  have hn := hs.proper _ u hu
  rcases hs.probe_cases hv with ⟨_, hk, _⟩ | ⟨u', hu', hp⟩
  · rw [hu] at hk
    cases hk
  · rw [hu] at hu'
    obtain rfl := Slot.bound.inj (Option.some.inj hu')
    rw [hp]
    cases u with
    | var w => cases hn
    | _ => rfl

theorem apply_eq_mapVars (hs : s.WellFormed) (ht : s.Covers t) :
    s.apply t = t.mapVars fun v => s.apply (.var v) := by
  rw [hs.apply_eq ht]
  refine Ty.mapVars_congr fun v hv => ?_
  rw [hs.apply_eq (covers_var.2 (ht v hv)), Ty.mapVars_var]

/-- What is left in the meaning of a type are roots of unbound classes. -/
theorem unbound_of_mem_vars_apply (hs : s.WellFormed) (ht : s.Covers t)
    (hw : w ∈ (s.apply t).vars) : ∃ k, s.slot? w = some (.root k) := by
  obtain ⟨h, hh, hsize⟩ := hs.exists_height
  -- Induction on the height of the classes in the type.
  suffices H : ∀ (n : Nat) (t : Ty), s.Covers t → (∀ v ∈ t.vars, h (s.root v) < n) →
      w ∈ (s.apply t).vars → ∃ k, s.slot? w = some (.root k) from
    H s.size t ht (fun v hv => hsize _ (hs.has_root (ht v hv))) hw
  intro n
  induction n with
  | zero =>
    intro t ht hlow hw
    rw [hs.apply_eq_mapVars ht, Ty.mem_vars_mapVars] at hw
    obtain ⟨v, hv, -⟩ := hw
    exact absurd (hlow v hv) (Nat.not_lt_zero _)
  | succ n ih =>
    intro t ht hlow hw
    rw [hs.apply_eq_mapVars ht, Ty.mem_vars_mapVars] at hw
    obtain ⟨v, hv, hw⟩ := hw
    rcases (hs.leads_root (ht v hv)).slot_root with ⟨k, hk⟩ | ⟨u, hu⟩
    · rw [hs.apply_var_of_root (ht v hv) hk, Ty.vars_var, List.mem_singleton] at hw
      exact ⟨k, hw ▸ hk⟩
    · rw [hs.apply_var_of_bound (ht v hv) hu] at hw
      refine ih u (hs.covered _ u hu) (fun w' hw' => ?_) hw
      have := hh _ _ (hs.mentions_root hu hw')
      have := hlow v hv
      omega

theorem apply_root {k : Nat} (hs : s.WellFormed) (hk : s.slot? v = some (.root k)) :
    s.apply (.var v) = .var v := by
  have hroot : s.root v = v := hs.root_eq (.root hk fun w => by simp)
  rw [hs.apply_var_of_root (has_of_slot? hk) (by rw [hroot]; exact hk), hroot]

/-- Meanings have no other meaning than themselves. -/
theorem apply_apply (hs : s.WellFormed) (ht : s.Covers t) : s.apply (s.apply t) = s.apply t := by
  have hroots : ∀ v ∈ (s.apply t).vars, ∃ k, s.slot? v = some (.root k) := fun v hv =>
    hs.unbound_of_mem_vars_apply ht hv
  have hcov : s.Covers (s.apply t) := fun v hv =>
    let ⟨_, hk⟩ := hroots v hv
    has_of_slot? hk
  rw [hs.apply_eq_mapVars hcov]
  refine (Ty.mapVars_congr fun v hv => ?_).trans (Ty.subst_var_param _)
  obtain ⟨k, hk⟩ := hroots v hv
  exact hs.apply_root hk

end WellFormed

/-! ### Occurrence -/

/-- Once the bound exceeds the height of the classes in a type, it does not matter. -/
theorem occursWithin_eq_of_height (hs : s.WellFormed) {h : TyVar → Nat}
    (hh : ∀ c d, s.Mentions c d → h d < h c) :
    ∀ (f g : Nat) (t : Ty), s.Covers t → (∀ v ∈ t.vars, h (s.root v) < f) →
      (∀ v ∈ t.vars, h (s.root v) < g) → s.occursWithin r f t = s.occursWithin r g t := by
  have hnil : ∀ {t : Ty} (g : Nat), (∀ v ∈ t.vars, h (s.root v) < 0) →
      s.occursWithin r g t = false := by
    intro t g hlow
    have hnil : t.vars = [] := List.eq_nil_iff_forall_not_mem.2 fun v hv =>
      absurd (hlow v hv) (Nat.not_lt_zero _)
    cases g with
    | zero => rfl
    | succ g => simp [occursWithin, hnil]
  intro f
  induction f with
  | zero =>
    intro g t _ hf _
    rw [hnil g hf, hnil 0 hf]
  | succ f ih =>
    intro g t ht hf hg
    cases g with
    | zero => rw [hnil (f + 1) hg, hnil 0 hg]
    | succ g =>
      unfold occursWithin
      rw [Bool.eq_iff_iff, List.any_eq_true, List.any_eq_true]
      refine exists_congr fun v => and_congr_right fun hv => ?_
      rcases hs.probe_cases (ht v hv) with ⟨k, _, hp⟩ | ⟨u, hu, hp⟩
      · rw [hp]
      · have hlow : ∀ w ∈ u.vars, h (s.root w) < h (s.root v) := fun w hw =>
          hh _ _ (hs.mentions_root hu hw)
        have heq := ih g u (hs.covered _ u hu)
          (fun w hw => by have := hlow w hw; have := hf v hv; omega)
          (fun w hw => by have := hlow w hw; have := hg v hv; omega)
        rw [hp]
        cases u with
        | var w => rfl
        | _ => exact Bool.eq_iff_iff.1 heq

/-- With enough steps an unbound class is found in a type if and only if a class of the type
reaches it. -/
theorem occursWithin_iff_of_height (hs : s.WellFormed) {h : TyVar → Nat} {k : Nat}
    (hh : ∀ c d, s.Mentions c d → h d < h c) (hr : s.slot? r = some (.root k)) :
    ∀ (fuel : Nat) (t : Ty), s.Covers t → (∀ v ∈ t.vars, h (s.root v) < fuel) →
      (s.occursWithin r fuel t = true ↔ ∃ v ∈ t.vars, ReflTransGen s.Mentions (s.root v) r) := by
  intro fuel
  induction fuel with
  | zero =>
    intro t _ hlow
    constructor
    · intro ho
      cases ho
    · rintro ⟨v, hv, -⟩
      exact absurd (hlow v hv) (Nat.not_lt_zero _)
  | succ fuel ih =>
    intro t ht hlow
    unfold occursWithin
    rw [List.any_eq_true]
    refine exists_congr fun v => and_congr_right fun hv => ?_
    rcases hs.probe_cases (ht v hv) with ⟨j, hj, hp⟩ | ⟨u, hu, hp⟩
    · rw [hp]
      simp only [beq_iff_eq]
      constructor
      · intro heq
        rw [heq]
      · intro hreach
        exact (eq_of_reflTransGen_root hj hreach).symm
    · have hlow' : ∀ w ∈ u.vars, h (s.root w) < fuel := by
        intro w hw
        have := hh _ _ (hs.mentions_root hu hw)
        have := hlow v hv
        omega
      have hiff := ih u (hs.covered _ u hu) hlow'
      have hn := hs.proper _ u hu
      rw [hp]
      have hstep : (∃ w ∈ u.vars, ReflTransGen s.Mentions (s.root w) r) ↔
          ReflTransGen s.Mentions (s.root v) r := by
        constructor
        · rintro ⟨w, hw, hreach⟩
          exact .head (hs.mentions_root hu hw) hreach
        · intro hreach
          rcases ReflTransGen.cases_head hreach with heq | ⟨d, hd, hreach⟩
          · rw [heq, hr] at hu
            cases hu
          · obtain ⟨u', hu', w, hw, hl⟩ := hd
            rw [hu] at hu'
            obtain rfl := Slot.bound.inj (Option.some.inj hu')
            exact ⟨w, hw, hs.root_eq hl ▸ hreach⟩
      rw [← hstep, ← hiff]
      cases u with
      | var w => cases hn
      | _ => rfl

namespace WellFormed

/-- A class occurs in a type if it is that of a variable of it or occurs in the binding of one. -/
theorem occurs_eq (hs : s.WellFormed) (ht : s.Covers t) :
    s.occurs v t = t.vars.any fun w =>
      match s.probe w with
      | .var r => r == s.root v
      | bound => s.occurs v bound := by
  obtain ⟨h, hh, hsize⟩ := hs.exists_height
  show s.occursWithin (s.root v) (s.size + 1) t = _
  unfold occursWithin
  rw [Bool.eq_iff_iff, List.any_eq_true, List.any_eq_true]
  refine exists_congr fun w => and_congr_right fun hw => ?_
  have hc := hs.covers_probe (ht w hw)
  have hlow : ∀ u ∈ (s.probe w).vars, h (s.root u) < s.size := fun u hu =>
    hsize _ (hs.has_root (hc u hu))
  have heq := occursWithin_eq_of_height (r := s.root v) hs hh s.size (s.size + 1) (s.probe w) hc
    hlow fun u hu => Nat.lt_succ_of_lt (hlow u hu)
  cases hp : s.probe w with
  | var r => rfl
  | _ =>
    rw [hp] at heq
    exact Bool.eq_iff_iff.1 heq

/-- An unbound class occurs in a type if and only if a class of the type is it or mentions it,
directly or through others. -/
theorem occurs_iff {k : Nat} (hs : s.WellFormed) (ht : s.Covers t)
    (hk : s.slot? (s.root v) = some (.root k)) :
    s.occurs v t = true ↔ ∃ w ∈ t.vars, ReflTransGen s.Mentions (s.root w) (s.root v) := by
  obtain ⟨h, hh, hsize⟩ := hs.exists_height
  refine occursWithin_iff_of_height hs hh hk (s.size + 1) t ht fun w hw => ?_
  have := hsize _ (hs.has_root (ht w hw))
  omega

end WellFormed
end Store
end TypeResolution
