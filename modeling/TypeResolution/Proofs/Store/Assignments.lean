/-
# Assignments that solve a store

An assignment of types to the variables solves a store if linked variables stand for the same
type and bound ones for what they are bound to. Moves only add to what a store asks for, so that
an assignment that solves a later store solves the earlier ones (`Store.Moves.solved`), and the
meanings in a well-formed store solve it (`Store.WellFormed.solved`).

For an assignment that solves the store, looking a variable up and replacing variables by their
meanings change nothing (`Store.SolvedBy.shallow`, `Store.SolvedBy.apply`). Types that have been
unified agree under each assignment that solves the store that is left
(`Store.agree_of_unify`).

Key definitions: `Store.SolvedBy`.
Key theorems: `Store.Moves.solved`, `Store.WellFormed.solved`, `Store.SolvedBy.apply`,
`Store.agree_of_unify`, `Store.agree_of_bind`.
-/
import TypeResolution.Proofs.Store.Unification
import TypeResolution.Proofs.Ty.Agreement

namespace TypeResolution
namespace Store

variable {σ : TyVar → Ty} {s s' : Store} {v w r : TyVar} {a b t u : Ty}

/-- The assignment gives the variables what the store makes them stand for. -/
structure SolvedBy (s : Store) (σ : TyVar → Ty) : Prop where
  link : ∀ v w, s.slot? v = some (.link w) → σ v = σ w
  bound : ∀ v t, s.slot? v = some (.bound t) → σ v = t.mapVars σ

/-! ### Earlier and later stores -/

theorem SolvedBy.leads (h : s.SolvedBy σ) (hl : s.Leads v r) : σ v = σ r := by
  induction hl with
  | root => rfl
  | link hslot _ ih => exact (h.link _ _ hslot).trans ih

/-- A store of which all links and bindings are in another one asks for no more. -/
theorem SolvedBy.of_slots (h : s'.SolvedBy σ)
    (hslot : ∀ x c, (∀ k, c ≠ .root k) → s.slot? x = some c → s'.slot? x = some c) :
    s.SolvedBy σ :=
  ⟨fun v w hv => h.link v w (hslot v _ (fun k => by simp) hv),
    fun v t hv => h.bound v t (hslot v _ (fun k => by simp) hv)⟩

theorem SolvedBy.of_write_root {k : Nat} {c : Slot} (hv : s.slot? v = some (.root k))
    (h : (s.write v c).SolvedBy σ) : s.SolvedBy σ := by
  refine h.of_slots fun x d hd hx => ?_
  have hne : x ≠ v := by
    rintro rfl
    rw [hv] at hx
    exact hd k (Option.some.inj hx).symm
  rw [slot?_write_of_ne hne]
  exact hx

/-- What solves the store after a move solves the store before it. -/
theorem Move.solved (hm : Move s s') (h : s'.SolvedBy σ) : s.SolvedBy σ := by
  cases hm with
  | @shorten v w r hv hl =>
    have hlink : σ v = σ w := by
      have hr : σ v = σ r := h.link v r (slot?_write_self (has_of_slot? hv) _)
      rw [hr]
      exact (h.leads (leads_shorten hv hl hl)).symm
    constructor
    · intro x y hx
      by_cases hxv : x = v
      · subst hxv
        rw [hv] at hx
        rw [← Slot.link.inj (Option.some.inj hx)]
        exact hlink
      · exact h.link x y (by rw [slot?_write_of_ne hxv]; exact hx)
    · intro x t hx
      have hxv : x ≠ v := by
        rintro rfl
        rw [hv] at hx
        cases hx
      exact h.bound x t (by rw [slot?_write_of_ne hxv]; exact hx)
  | raise k' hv => exact .of_write_root hv h
  | join hv _ _ => exact .of_write_root hv h
  | bind hv _ _ _ => exact .of_write_root hv h
  | fresh =>
    refine h.of_slots fun x c _ hx => ?_
    have hsize : x.index < s.slots.size := has_of_slot? hx
    have hget : s.slots[x.index]? = some c := hx
    show (s.slots.push (.root 0))[x.index]? = some c
    rw [Array.getElem?_push, if_neg (by omega)]
    exact hget

theorem Moves.solved (hm : Moves s s') (h : s'.SolvedBy σ) : s.SolvedBy σ := by
  induction hm with
  | refl => exact h
  | tail _ hstep ih => exact ih (hstep.solved h)

/-- The meanings of the variables solve a well-formed store. -/
theorem WellFormed.solved (hs : s.WellFormed) : s.SolvedBy fun v => s.apply (.var v) := by
  constructor
  · intro v w hv
    have hw : s.Has w := by
      obtain ⟨r, hr⟩ := hs.rooted v (has_of_slot? hv)
      cases hr with
      | root hc hn =>
        rw [hv] at hc
        exact absurd (Option.some.inj hc).symm (hn w)
      | link hc hl =>
        rw [hv] at hc
        rw [Slot.link.inj (Option.some.inj hc)]
        exact hl.has
    have hroot : s.root v = s.root w := hs.root_eq (.link hv (hs.leads_root hw))
    show s.apply (.var v) = s.apply (.var w)
    rw [hs.apply_eq (covers_var.2 (has_of_slot? hv)), hs.apply_eq (covers_var.2 hw)]
    simp only [Ty.mapVars_var, probe, hroot]
  · intro v t hv
    have hroot : s.root v = v := hs.root_eq (.root hv fun w => by simp)
    show s.apply (.var v) = _
    rw [hs.apply_var_of_bound (has_of_slot? hv) (by rw [hroot]; exact hv)]
    exact hs.apply_eq_mapVars (hs.covered v t hv)

/-! ### Looking up -/

theorem SolvedBy.probe (h : s.SolvedBy σ) (hs : s.WellFormed) (hv : s.Has v) :
    (s.probe v).mapVars σ = σ v := by
  have hroot := h.leads (hs.leads_root hv)
  rcases hs.probe_cases hv with ⟨k, _, hp⟩ | ⟨t, ht, hp⟩
  · rw [hp, hroot]
    rfl
  · rw [hp, hroot]
    exact (h.bound _ t ht).symm

theorem SolvedBy.shallow (h : s.SolvedBy σ) (hs : s.WellFormed) (ht : s.Covers t) :
    (s.shallow t).1.mapVars σ = t.mapVars σ := by
  cases t with
  | var v =>
    rw [shallow_var hs (covers_var.1 ht)]
    exact h.probe hs (covers_var.1 ht)
  | _ => rfl

/-- What is looked up has the same meaning. -/
theorem apply_shallow (hs : s.WellFormed) (ht : s.Covers t) :
    s.apply (s.shallow t).1 = s.apply t := by
  cases t with
  | var v =>
    have hv := covers_var.1 ht
    rw [shallow_var hs hv]
    rcases hs.probe_cases hv with ⟨k, hk, hp⟩ | ⟨u, hu, hp⟩
    · rw [hp, hs.apply_root hk, hs.apply_var_of_root hv hk]
    · rw [hp, hs.apply_var_of_bound hv hu]
  | _ => rfl

/-- Types mean the same in a store that finds the same for the old variables. -/
theorem apply_eq_of_probe_eq (hs : s.WellFormed) (hs' : s'.WellFormed)
    (hhas : ∀ v, s.Has v → s'.Has v) (hprobe : ∀ v, s.Has v → s'.probe v = s.probe v)
    (ht : s.Covers t) : s'.apply t = s.apply t := by
  have hacc := hs.acc_enters ht
  induction hacc with
  | intro t _ ih =>
    rw [hs.apply_eq ht, hs'.apply_eq fun v hv => hhas v (ht v hv)]
    refine Ty.mapVars_congr fun v hv => ?_
    rw [hprobe v (ht v hv)]
    rcases hs.probe_cases (ht v hv) with ⟨k, _, hp⟩ | ⟨u, hu, hp⟩
    · rw [hp]
    · have hn := hs.proper _ u hu
      have hu := ih u ⟨v, hv, hp, hn⟩ (hs.covered _ u hu)
      rw [hp]
      cases u with
      | var w => cases hn
      | _ => exact hu

/-- Shortening links changes no meaning. -/
theorem Tidies.apply_eq (h : Tidies s s') (hs : s.WellFormed) (ht : s.Covers t) :
    s'.apply t = s.apply t :=
  apply_eq_of_probe_eq hs (h.moves.wellFormed hs) (fun _ => h.moves.has)
    (fun _ => h.probe_eq hs) ht

/-- What becomes of an assignment that solves the store solves it too. -/
theorem SolvedBy.mapVars (h : s.SolvedBy σ) (ρ : TyVar → Ty) :
    s.SolvedBy fun v => (σ v).mapVars ρ := by
  refine ⟨fun v w hv => congrArg (Ty.mapVars ρ) (h.link v w hv), fun v t hv => ?_⟩
  rw [h.bound v t hv, Ty.mapVars_mapVars]

/-- Only the variables of the store make a difference. -/
theorem SolvedBy.congr {τ : TyVar → Ty} (h : s.SolvedBy σ) (hs : s.WellFormed)
    (hτ : ∀ v, s.Has v → τ v = σ v) : s.SolvedBy τ := by
  refine ⟨fun v w hv => ?_, fun v t hv => ?_⟩
  · rw [hτ v (has_of_slot? hv), hτ w (hs.has_next hv), h.link v w hv]
  · rw [hτ v (has_of_slot? hv), h.bound v t hv]
    exact Ty.mapVars_congr fun w hw => (hτ w (hs.covered v t hv w hw)).symm

/-- A fresh variable may stand for any type. -/
theorem SolvedBy.fresh (h : s.SolvedBy σ) : s.fresh.2.SolvedBy σ := by
  have hslot : ∀ {v c}, s.fresh.2.slot? v = some c → (∀ k, c ≠ .root k) → s.slot? v = some c := by
    intro v c hv hc
    rw [slot?_fresh] at hv
    split at hv
    · exact absurd (Option.some.inj hv).symm (hc 0)
    · exact hv
  exact ⟨fun v w hv => h.link v w (hslot hv nofun), fun v t hv => h.bound v t (hslot hv nofun)⟩

/-- Replacing variables by their meanings changes nothing. -/
theorem SolvedBy.apply (h : s.SolvedBy σ) (hs : s.WellFormed) (ht : s.Covers t) :
    (s.apply t).mapVars σ = t.mapVars σ := by
  have hacc := hs.acc_enters ht
  induction hacc with
  | intro t _ ih =>
    rw [hs.apply_eq ht, Ty.mapVars_mapVars]
    refine Ty.mapVars_congr fun v hv => ?_
    have hprobe := h.probe hs (ht v hv)
    rcases hs.probe_cases (ht v hv) with ⟨k, _, hp⟩ | ⟨u, hu, hp⟩
    · rw [hp] at hprobe ⊢
      exact hprobe
    · have hn := hs.proper _ u hu
      have hu := ih u ⟨v, hv, hp, hn⟩ (hs.covered _ u hu)
      rw [hp] at hprobe ⊢
      rw [← hprobe, ← hu]
      cases u with
      | var w => cases hn
      | _ => rfl

/-! ### Unification -/

/-- Joined variables stand for the same type. -/
theorem eq_of_link {j k : Nat} (hs : s.WellFormed) (hv : s.slot? v = some (.root j))
    (hw : s.slot? w = some (.root k)) (h : (s.link v w).SolvedBy σ) : σ v = σ w := by
  revert h
  refine link_cases_of_root (P := fun s' => s'.SolvedBy σ → σ v = σ w) hs hv hw
    (fun heq _ => congrArg σ heq) (fun {p q _ _} h _ hq hσ => ?_) fun {p q _} h _ hq hσ => ?_
  · exact (h.eq_iff σ).1 (hσ.link q p (slot?_write_self (has_of_slot? hq) _))
  · exact (h.eq_iff σ).1 (hσ.link q p (slot?_write_self (has_write.2 (has_of_slot? hq)) _))

/-- A variable that has been bound stands for its binding. -/
theorem eq_of_bindRoot {k : Nat} (hs : s.WellFormed) (hv : s.slot? v = some (.root k))
    (hroot : ∀ w, t = .var w → ∃ j, s.slot? w = some (.root j))
    (hbind : s.bindRoot v t = .done s') (h : s'.SolvedBy σ) : σ v = t.mapVars σ := by
  cases hn : t.isVar with
  | true =>
    obtain ⟨w, rfl⟩ := Ty.eq_var_of_isVar hn
    obtain ⟨j, hw⟩ := hroot w rfl
    rw [bindRoot_var] at hbind
    obtain rfl : s.link v w = s' := congrArg Unified.store hbind
    exact eq_of_link hs hv hw h
  | false =>
    rw [bindRoot_eq hn] at hbind
    split at hbind
    · cases congrArg Unified.conflict hbind
    · obtain rfl : s.write v (.bound t) = s' := congrArg Unified.store hbind
      exact h.bound v t (slot?_write_self (has_of_slot? hv) _)

theorem agree_of_comparison (σ : TyVar → Ty) (h : Comparison.of a b = .agree) :
    agree (a.mapVars σ) (b.mapVars σ) = true := by
  unfold Comparison.of at h
  split at h
  · rename_i heq
    rw [heq]
    exact agree_refl _
  · split at h
    · exact agree_error_left _
    · exact agree_error_right _
    · cases h
    · cases h
    · cases h

/-- Pairs of types that have been unified agree. -/
theorem Unifies.agree_of_mem {pairs : List (Ty × Ty)} {out : Unified} (h : Unifies s pairs out) :
    s.WellFormed → s.CoversPairs pairs → out.conflict = none → out.store.SolvedBy σ →
    ∀ p ∈ pairs, TypeResolution.agree (p.1.mapVars σ) (p.2.mapVars σ) = true := by
  induction h with
  | done =>
    intro _ _ _ _ p hp
    cases hp
  | @agree s s' a b a' b' rest out htops hcmp hrest ih =>
    intro hs hpairs hnone hσ
    obtain ⟨ha, hb⟩ := hpairs (a, b) List.mem_cons_self
    obtain ⟨htidy, -, -, rfl, rfl⟩ := tops_spec hs ha hb htops
    have hs' := htidy.moves.wellFormed hs
    have hrest' := hpairs.rest htidy.moves
    have hσs := htidy.moves.solved ((hrest.moves hs' hrest').solved hσ)
    refine List.forall_mem_cons.2 ⟨?_, ih hs' hrest' hnone hσ⟩
    have hagree := agree_of_comparison σ hcmp
    rw [hσs.shallow hs ha, hσs.shallow hs hb] at hagree
    exact hagree
  | @bind s s' s'' a b a' b' t v rest out htops hcmp hbind hrest ih =>
    intro hs hpairs hnone hσ
    obtain ⟨ha, hb⟩ := hpairs (a, b) List.mem_cons_self
    obtain ⟨⟨k, hk⟩, ht, hroot, -⟩ := root_of_bind hs ha hb htops hcmp
    obtain ⟨htidy, -, -, rfl, rfl⟩ := tops_spec hs ha hb htops
    have hs' := htidy.moves.wellFormed hs
    have hmoves : Moves s' s'' := by
      have := moves_bindRoot hs' hk ht hroot
      rw [hbind] at this
      exact this
    have hs'' := hmoves.wellFormed hs'
    have hrest' := hpairs.rest (htidy.moves.trans hmoves)
    have hσ'' := (hrest.moves hs'' hrest').solved hσ
    have hσs := htidy.moves.solved (hmoves.solved hσ'')
    have heq := eq_of_bindRoot hs' hk hroot hbind hσ''
    refine List.forall_mem_cons.2 ⟨?_, ih hs'' hrest' hnone hσ⟩
    rw [← hσs.shallow hs ha, ← hσs.shallow hs hb]
    rcases eq_or_eq_of_comparison hcmp with ⟨hva, hbt⟩ | ⟨hvb, hat⟩
    · rw [hva, hbt]
      exact agree_of_eq heq
    · rw [hvb, hat]
      exact agree_of_eq heq.symm
  | infinite =>
    intro _ _ hnone
    cases hnone
  | @children s s' a b a' b' rest out htops hcmp hshape hlength hrest ih =>
    intro hs hpairs hnone hσ
    obtain ⟨ha, hb⟩ := hpairs (a, b) List.mem_cons_self
    obtain ⟨htidy, hca, hcb, rfl, rfl⟩ := tops_spec hs ha hb htops
    have hs' := htidy.moves.wellFormed hs
    have hrest' := (hpairs.rest htidy.moves).children hca hcb
    have hσs := htidy.moves.solved ((hrest.moves hs' hrest').solved hσ)
    obtain ⟨hna, hnb⟩ := not_isVar_of_structural hcmp
    have hall := ih hs' hrest' hnone hσ
    refine List.forall_mem_cons.2 ⟨?_, fun p hp => hall p (List.mem_append_right _ hp)⟩
    rw [← hσs.shallow hs ha, ← hσs.shallow hs hb]
    refine agree_of_children ?_ ?_ ?_
    · rw [Ty.shape_mapVars hna, Ty.shape_mapVars hnb]
      exact hshape
    · rw [Ty.children_mapVars hna, Ty.children_mapVars hnb, List.length_map, List.length_map]
      exact hlength
    · rw [Ty.children_mapVars hna, Ty.children_mapVars hnb, List.zip_map]
      intro p hp
      obtain ⟨q, hq, rfl⟩ := List.mem_map.1 hp
      exact hall q (List.mem_append_left _ hq)
  | mismatch =>
    intro _ _ hnone
    cases hnone

/-- **Types that have been unified agree** under each assignment that solves the store that is
left. -/
theorem agree_of_unify (hs : s.WellFormed) (ha : s.Covers a) (hb : s.Covers b)
    (hunify : s.unify a b = .done s') (h : s'.SolvedBy σ) :
    agree (a.mapVars σ) (b.mapVars σ) = true := by
  have hrun := unifies_unify hs ha hb
  rw [hunify] at hrun
  exact hrun.agree_of_mem hs (coversPairs_singleton ha hb) rfl h (a, b) List.mem_cons_self

/-- A variable agrees with a type that it has been bound to. -/
theorem agree_of_bind (hs : s.WellFormed) (hv : s.Has v) (ht : s.Covers t)
    (hbind : s.bind v t = .done s') (h : s'.SolvedBy σ) : agree (σ v) (t.mapVars σ) = true := by
  have hmoves := moves_bind hs hv ht
  rw [hbind] at hmoves
  have hσs : s.SolvedBy σ := Moves.solved hmoves h
  rw [hσs.leads (hs.leads_root hv)]
  rcases (hs.leads_root hv).slot_root with ⟨k, hk⟩ | ⟨u, hu⟩
  · obtain ⟨s₁, s₂, htidy, htidy', rfl, heq, hk₂, hc, hroots⟩ := bind_of_root hs hv ht hk
    have hs₁ := htidy.moves.wellFormed hs
    have hs₂ := htidy'.moves.wellFormed hs₁
    rw [heq] at hbind
    have hmoves₂ := moves_bindRoot hs₂ hk₂ hc hroots
    rw [hbind] at hmoves₂
    have hσ₁ : s₁.SolvedBy σ := htidy'.moves.solved (Moves.solved hmoves₂ h)
    have hbound := eq_of_bindRoot hs₂ hk₂ hroots hbind h
    rw [hσ₁.shallow hs₁ (htidy.moves.covers ht)] at hbound
    exact agree_of_eq hbound
  · obtain ⟨s₁, htidy, heq, hcu⟩ := bind_of_bound (t := t) hs hv hu
    rw [heq] at hbind
    have hagree := agree_of_unify (htidy.moves.wellFormed hs) hcu (htidy.moves.covers ht) hbind h
    rw [← hσs.bound _ u hu] at hagree
    exact hagree

end Store
end TypeResolution
