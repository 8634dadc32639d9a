/-
# Most general unifiers

An assignment unifies two types in a store if it solves the store and makes the types equal
(`Store.Unifier`). Without the error type, which goes with every type, unification succeeds
exactly if there is such an assignment, and the assignments that solve the store that is left are
then the same as those that unify the types before.

This holds of a run over a list of pairs (`Store.Unifies.solvedBy_iff`), step by step: looking a
variable up asks for nothing new, joining and binding ask for one more equation, types that are
no variables are equal exactly if they have one shape and equal children, and a class that occurs
in a type cannot be equal to it, since under an assignment a class has more levels than those that
it mentions. A store that no conflict has led to is solved by its own meanings, which are
therefore a most general unifier.

Key definitions: `Store.Unifier`.
Key theorems: `Store.SolvedBy.depth_lt`, `Store.Unifies.solvedBy_iff`, `Store.unifier_iff`,
`Session.unify_mostGeneral`.
-/
import TypeResolution.Proofs.Store.Assignments
import TypeResolution.Proofs.Store.History

open Relation (ReflTransGen)

namespace TypeResolution
namespace Store

variable {σ : TyVar → Ty} {s s' : Store} {v w r c d : TyVar} {a b a' b' t u : Ty}

/-- The assignment solves the store and makes two types equal. -/
structure Unifier (s : Store) (a b : Ty) (σ : TyVar → Ty) : Prop where
  solves : s.SolvedBy σ
  equal : a.mapVars σ = b.mapVars σ

/-! ### What operations ask for -/

/-- Overwriting an unbound class asks for what is written. -/
theorem solvedBy_write_iff {k : Nat} {c : Slot} (hv : s.slot? v = some (.root k)) :
    (s.write v c).SolvedBy σ ↔
      s.SolvedBy σ ∧ (∀ w, c = .link w → σ v = σ w) ∧ ∀ t, c = .bound t → σ v = t.mapVars σ := by
  have hself := slot?_write_self (has_of_slot? hv) c
  constructor
  · intro h
    exact ⟨.of_write_root hv h, fun w hw => h.link v w (hw ▸ hself),
      fun t ht => h.bound v t (ht ▸ hself)⟩
  · rintro ⟨h, hlink, hbound⟩
    constructor
    · intro x y hx
      by_cases hxv : x = v
      · subst hxv
        rw [hself] at hx
        exact hlink y (Option.some.inj hx)
      · exact h.link x y (slot?_write_of_ne hxv c ▸ hx)
    · intro x t hx
      by_cases hxv : x = v
      · subst hxv
        rw [hself] at hx
        exact hbound t (Option.some.inj hx)
      · exact h.bound x t (slot?_write_of_ne hxv c ▸ hx)

/-- Looking variables up asks for nothing new. -/
theorem Tidies.solvedBy_iff (h : Tidies s s') (hs : s.WellFormed) (hsize : s'.size = s.size) :
    s'.SolvedBy σ ↔ s.SolvedBy σ := by
  have hs' := h.moves.wellFormed hs
  have hleads : ∀ {x}, s'.Has x → s.Leads x (s'.root x) := by
    intro x hx
    have hx : s.Has x := by rwa [Has, hsize] at hx
    rw [h.root_eq hs hx]
    exact hs.leads_root hx
  refine ⟨fun hσ => h.moves.solved hσ, fun hσ => ⟨fun x y hx => ?_, fun x t hx => ?_⟩⟩
  · have hy := hs'.has_next hx
    have hroot : s'.root x = s'.root y := hs'.root_eq (.link hx (hs'.leads_root hy))
    rw [hσ.leads (hleads (has_of_slot? hx)), hσ.leads (hleads hy), hroot]
  · exact hσ.bound x t (h.bound_iff.2 hx)

/-- Joining two classes asks for them to stand for the same type. -/
theorem solvedBy_link_iff {j k : Nat} (hs : s.WellFormed) (hv : s.slot? v = some (.root j))
    (hw : s.slot? w = some (.root k)) :
    (s.link v w).SolvedBy σ ↔ s.SolvedBy σ ∧ σ v = σ w := by
  refine ⟨fun h => ⟨(moves_link hs hv hw).solved h, eq_of_link hs hv hw h⟩, ?_⟩
  rintro ⟨h, heq⟩
  have hjoin : ∀ {s : Store} {x y : TyVar} {i : Nat}, s.slot? x = some (.root i) →
      s.SolvedBy σ → σ x = σ y → (s.write x (.link y)).SolvedBy σ := by
    intro s x y i hx hσ hxy
    refine (solvedBy_write_iff hx).2 ⟨hσ, fun z hz => ?_, nofun⟩
    rw [← Slot.link.inj hz]
    exact hxy
  refine link_cases_of_root (P := (SolvedBy · σ)) hs hv hw (fun _ => h)
    (fun hsides _ hq => hjoin hq h ((hsides.eq_iff σ).2 heq)) fun {p q i} hsides hp hq => ?_
  have hraised : (s.write p (.root (i + 1))).SolvedBy σ :=
    (solvedBy_write_iff hp).2 ⟨h, nofun, nofun⟩
  exact hjoin ((slot?_write_of_ne hsides.ne _).trans hq) hraised ((hsides.eq_iff σ).2 heq)

/-- Binding a class asks for it to stand for its binding. -/
theorem solvedBy_bindRoot_iff {k : Nat} (hs : s.WellFormed) (hv : s.slot? v = some (.root k))
    (hroot : ∀ w, t = .var w → ∃ j, s.slot? w = some (.root j))
    (hbind : s.bindRoot v t = .done s') : s'.SolvedBy σ ↔ s.SolvedBy σ ∧ σ v = t.mapVars σ := by
  cases hn : t.isVar with
  | true =>
    obtain ⟨w, rfl⟩ := Ty.eq_var_of_isVar hn
    obtain ⟨j, hw⟩ := hroot w rfl
    rw [bindRoot_var] at hbind
    obtain rfl : s.link v w = s' := congrArg Unified.store hbind
    exact solvedBy_link_iff hs hv hw
  | false =>
    rw [bindRoot_eq hn] at hbind
    split at hbind
    · cases congrArg Unified.conflict hbind
    · obtain rfl : s.write v (.bound t) = s' := congrArg Unified.store hbind
      rw [solvedBy_write_iff hv]
      refine and_congr_right fun _ => ⟨fun h => h.2 t rfl, fun h => ⟨nofun, ?_⟩⟩
      intro u hu
      rw [← Slot.bound.inj hu]
      exact h

/-! ### The occurs check -/

/-- Under an assignment a class has more levels than the classes that it mentions. -/
theorem SolvedBy.depth_lt (h : s.SolvedBy σ) (hs : s.WellFormed) (hm : s.Mentions c d) :
    (σ d).depth < (σ c).depth := by
  obtain ⟨t, ht, v, hv, hl⟩ := hm
  rw [h.bound c t ht, ← h.leads hl]
  exact Ty.depth_lt_mapVars (hs.proper c t ht) hv

theorem SolvedBy.depth_le (h : s.SolvedBy σ) (hs : s.WellFormed)
    (hm : ReflTransGen s.Mentions c d) : (σ d).depth ≤ (σ c).depth := by
  induction hm with
  | refl => exact Nat.le_refl _
  | tail _ hm ih =>
    have := h.depth_lt hs hm
    omega

/-- No assignment makes a class equal to a type in which it occurs. -/
theorem SolvedBy.ne_of_occurs {k : Nat} (h : s.SolvedBy σ) (hs : s.WellFormed)
    (hv : s.slot? v = some (.root k)) (ht : s.Covers t) (hn : t.isVar = false)
    (hocc : s.occurs v t = true) : σ v ≠ t.mapVars σ := by
  intro heq
  have hroot : s.root v = v := hs.root_eq (.root hv fun _ => by simp)
  obtain ⟨w, hw, hreach⟩ := (hs.occurs_iff ht (by rw [hroot]; exact hv)).1 hocc
  rw [hroot] at hreach
  have hle := h.depth_le hs hreach
  have hlt := Ty.depth_lt_mapVars (f := σ) hn hw
  rw [h.leads (hs.leads_root (ht w hw)), ← heq] at hlt
  omega

theorem SolvedBy.ne_of_bindRoot {k : Nat} {e : UnifyError} (h : s.SolvedBy σ) (hs : s.WellFormed)
    (hv : s.slot? v = some (.root k)) (ht : s.Covers t)
    (hbind : s.bindRoot v t = .failed s' e) : σ v ≠ t.mapVars σ := by
  cases hn : t.isVar with
  | true =>
    obtain ⟨w, rfl⟩ := Ty.eq_var_of_isVar hn
    rw [bindRoot_var] at hbind
    cases congrArg Unified.conflict hbind
  | false =>
    rw [bindRoot_eq hn] at hbind
    split at hbind
    · rename_i hocc
      exact h.ne_of_occurs hs hv ht hn hocc
    · cases congrArg Unified.conflict hbind

/-! ### A run of unification -/

theorem eq_of_comparison (h : Comparison.of a b = .agree) (ha : a.ErrorFree) (hb : b.ErrorFree) :
    a = b := by
  unfold Comparison.of at h
  split at h
  · assumption
  · split at h
    · exact absurd List.mem_cons_self ha
    · exact absurd List.mem_cons_self hb
    · cases h
    · cases h
    · cases h

/-- The assignment makes the types of each pair equal. -/
def EqualPairs (σ : TyVar → Ty) (pairs : List (Ty × Ty)) : Prop :=
  ∀ p ∈ pairs, p.1.mapVars σ = p.2.mapVars σ

theorem equalPairs_cons {p : Ty × Ty} {pairs : List (Ty × Ty)} :
    EqualPairs σ (p :: pairs) ↔ p.1.mapVars σ = p.2.mapVars σ ∧ EqualPairs σ pairs :=
  List.forall_mem_cons

section Tops

variable (hs : s.WellFormed) (ha : s.Covers a) (hb : s.Covers b)
variable (htops : s.tops a b = ((a', b'), s'))
include hs ha hb htops

/-- The store in which two types have been looked up is solved by the same assignments. -/
theorem solvedBy_tops_iff : s'.SolvedBy σ ↔ s.SolvedBy σ := by
  have hsize : s'.size = s.size := by rw [← size_tops (s := s) (a := a) (b := b), htops]
  exact (tops_spec hs ha hb htops).1.solvedBy_iff hs hsize

/-- What has been looked up stands for the same types. -/
theorem equal_tops_iff (hσ : s.SolvedBy σ) :
    a'.mapVars σ = b'.mapVars σ ↔ a.mapVars σ = b.mapVars σ := by
  obtain ⟨-, -, -, rfl, rfl⟩ := tops_spec hs ha hb htops
  rw [hσ.shallow hs ha, hσ.shallow hs hb]

end Tops

theorem equal_iff_of_comparison (h : Comparison.of a b = .bind v t) :
    a.mapVars σ = b.mapVars σ ↔ σ v = t.mapVars σ := by
  rcases eq_or_eq_of_comparison h with ⟨rfl, rfl⟩ | ⟨rfl, rfl⟩
  · exact Iff.rfl
  · exact eq_comm

/-- **A run succeeds in a store that an assignment solves** exactly if the assignment solves the
store before and makes the types of each pair equal. -/
theorem Unifies.solvedBy_iff {pairs : List (Ty × Ty)} {out : Unified} (h : Unifies s pairs out) :
    s.WellFormed → s.CoversPairs pairs → s.BindsOnly Ty.ErrorFree →
    (∀ p ∈ pairs, p.1.ErrorFree ∧ p.2.ErrorFree) →
    (out.conflict = none ∧ out.store.SolvedBy σ ↔ s.SolvedBy σ ∧ EqualPairs σ pairs) := by
  have hP := Ty.hereditary_errorFree
  induction h with
  | done =>
    intro _ _ _ _
    exact ⟨fun h => ⟨h.2, nofun⟩, fun h => ⟨rfl, h.1⟩⟩
  | @agree s s' a b a' b' rest out htops hcmp _ ih =>
    intro hs hpairs hbinds hfree
    obtain ⟨⟨ha, hb⟩, -⟩ := List.forall_mem_cons.1 hpairs
    obtain ⟨⟨hfa, hfb⟩, hfrest⟩ := List.forall_mem_cons.1 hfree
    obtain ⟨hbinds', hfa', hfb'⟩ := hbinds.tops hP hfa hfb htops
    have hmoves := (tops_spec hs ha hb htops).1.moves
    rw [ih (hmoves.wellFormed hs) (hpairs.rest hmoves) hbinds' hfrest,
      solvedBy_tops_iff hs ha hb htops, equalPairs_cons]
    refine and_congr_right fun hσ => (and_iff_right ?_).symm
    rw [← equal_tops_iff hs ha hb htops hσ, eq_of_comparison hcmp hfa' hfb']
  | @bind s s' s'' a b a' b' t v rest out htops hcmp hbind _ ih =>
    intro hs hpairs hbinds hfree
    obtain ⟨⟨ha, hb⟩, -⟩ := List.forall_mem_cons.1 hpairs
    obtain ⟨⟨hfa, hfb⟩, hfrest⟩ := List.forall_mem_cons.1 hfree
    have hmoves := moves_of_bind hs ha hb htops hcmp
    have hbinds' := bindsOnly_of_bind hP htops hcmp hbinds hfa hfb
    obtain ⟨⟨k, hk⟩, -, hroot, -⟩ := root_of_bind hs ha hb htops hcmp
    have hs' := (tops_spec hs ha hb htops).1.moves.wellFormed hs
    rw [hbind] at hmoves hbinds'
    have hmoves : Moves s s'' := hmoves
    rw [ih (hmoves.wellFormed hs) (hpairs.rest hmoves) hbinds' hfrest,
      solvedBy_bindRoot_iff hs' hk hroot hbind, solvedBy_tops_iff hs ha hb htops,
      equalPairs_cons, and_assoc]
    refine and_congr_right fun hσ => and_congr_left fun _ => ?_
    rw [← equal_tops_iff hs ha hb htops hσ, equal_iff_of_comparison hcmp]
  | @infinite s s' s'' a b a' b' t v rest e htops hcmp hbind =>
    intro hs hpairs _ _
    obtain ⟨⟨ha, hb⟩, -⟩ := List.forall_mem_cons.1 hpairs
    obtain ⟨⟨k, hk⟩, ht, -, -⟩ := root_of_bind hs ha hb htops hcmp
    have hs' := (tops_spec hs ha hb htops).1.moves.wellFormed hs
    refine ⟨fun h => absurd h.1 nofun, fun ⟨hσ, hequal⟩ => ?_⟩
    have hne := ((solvedBy_tops_iff hs ha hb htops).2 hσ).ne_of_bindRoot hs' hk ht hbind
    have heq := (equalPairs_cons.1 hequal).1
    rw [← equal_tops_iff hs ha hb htops hσ, equal_iff_of_comparison hcmp] at heq
    exact absurd heq hne
  | @children s s' a b a' b' rest out htops hcmp hshape hlength _ ih =>
    intro hs hpairs hbinds hfree
    obtain ⟨⟨ha, hb⟩, -⟩ := List.forall_mem_cons.1 hpairs
    obtain ⟨⟨hfa, hfb⟩, hfrest⟩ := List.forall_mem_cons.1 hfree
    obtain ⟨hbinds', hfa', hfb'⟩ := hbinds.tops hP hfa hfb htops
    obtain ⟨htidy, hca, hcb, -, -⟩ := tops_spec hs ha hb htops
    obtain ⟨hna, hnb⟩ := not_isVar_of_structural hcmp
    have hfree' := forall_children_pairs (fun c hc => hP.child hfa' hc)
      (fun c hc => hP.child hfb' hc) hfrest
    rw [ih (htidy.moves.wellFormed hs) ((hpairs.rest htidy.moves).children hca hcb) hbinds' hfree',
      solvedBy_tops_iff hs ha hb htops, equalPairs_cons]
    refine and_congr_right fun hσ => ?_
    rw [← equal_tops_iff hs ha hb htops hσ, Ty.mapVars_eq_iff hna hnb,
      and_iff_right (And.intro hshape hlength)]
    exact List.forall_mem_append
  | @mismatch s s' a b a' b' rest htops hcmp hdiffer =>
    intro hs hpairs _ _
    obtain ⟨⟨ha, hb⟩, -⟩ := List.forall_mem_cons.1 hpairs
    obtain ⟨hna, hnb⟩ := not_isVar_of_structural hcmp
    refine ⟨fun h => absurd h.1 nofun, fun ⟨hσ, hequal⟩ => ?_⟩
    have heq := (equalPairs_cons.1 hequal).1
    rw [← equal_tops_iff hs ha hb htops hσ, Ty.mapVars_eq_iff hna hnb] at heq
    exact absurd heq.1 hdiffer

/-! ### Two types -/

/-- **The assignments that unify two types** are those that solve the store in which unification
succeeds. -/
theorem unifier_iff (σ : TyVar → Ty) (hs : s.WellFormed) (ha : s.Covers a) (hb : s.Covers b)
    (hbinds : s.BindsOnly Ty.ErrorFree) (hfa : a.ErrorFree) (hfb : b.ErrorFree) :
    s.Unifier a b σ ↔ (s.unify a b).conflict = none ∧ (s.unify a b).store.SolvedBy σ := by
  have hfree : ∀ p ∈ [(a, b)], p.1.ErrorFree ∧ p.2.ErrorFree := fun p hp => by
    rw [List.mem_singleton.1 hp]
    exact ⟨hfa, hfb⟩
  rw [(unifies_unify hs ha hb).solvedBy_iff hs (coversPairs_singleton ha hb) hbinds hfree,
    equalPairs_cons]
  exact ⟨fun h => ⟨h.solves, h.equal, nofun⟩, fun h => ⟨h.1, h.2.1⟩⟩

/-- Pairs of types that have a unifier lead to a store that is solved by their unifiers, and that
binds to parts of them only. -/
theorem exists_solvedBy_iff {P : Ty → Prop} (hP : Ty.Hereditary P)
    (herror : ∀ t, P t → t.ErrorFree) : ∀ (pairs : List (Ty × Ty)) {s : Store}, s.WellFormed →
    s.CoversPairs pairs → s.BindsOnly P → (∀ p ∈ pairs, P p.1 ∧ P p.2) → s.SolvedBy σ →
    EqualPairs σ pairs → ∃ t, Moves s t ∧ t.BindsOnly P ∧
      ∀ τ, t.SolvedBy τ ↔ s.SolvedBy τ ∧ EqualPairs τ pairs
  | [], s, _, _, hbinds, _, _, _ => ⟨s, .refl, hbinds, fun τ => (and_iff_left nofun).symm⟩
  | (a, b) :: pairs, s, hs, hpairs, hbinds, hfree, hσ, hequal => by
    obtain ⟨⟨ha, hb⟩, -⟩ := List.forall_mem_cons.1 hpairs
    obtain ⟨⟨hPa, hPb⟩, hfree⟩ := List.forall_mem_cons.1 hfree
    obtain ⟨hab, hequal⟩ := equalPairs_cons.1 hequal
    have hmoves := moves_unify hs ha hb
    have hiff := fun τ => unifier_iff τ hs ha hb (fun v t ht => herror t (hbinds v t ht))
      (herror a hPa) (herror b hPb)
    obtain ⟨hnone, hσ⟩ := (hiff σ).1 ⟨hσ, hab⟩
    obtain ⟨t, ht, hbinds', hsolved⟩ := exists_solvedBy_iff hP herror pairs
      (hmoves.wellFormed hs) (hpairs.rest hmoves) (bindsOnly_unify hP hbinds hPa hPb)
      hfree hσ hequal
    refine ⟨t, hmoves.trans ht, hbinds', fun τ => ?_⟩
    rw [hsolved, equalPairs_cons, ← and_assoc]
    refine and_congr_left fun _ => ?_
    exact ⟨fun h => ⟨((hiff τ).2 ⟨hnone, h⟩).solves, ((hiff τ).2 ⟨hnone, h⟩).equal⟩,
      fun h => ((hiff τ).1 ⟨h.1, h.2⟩).2⟩

/-! ### Stores without links and bindings -/

/-- Unbound variables ask for nothing. -/
theorem solvedBy_ofSize (count : Nat) (σ : TyVar → Ty) : (ofSize count).SolvedBy σ := by
  constructor
  · intro v w h
    cases slot_ofSize h
  · intro v t h
    cases slot_ofSize h

/-! ### Stores that leave nothing open -/

/-- An unbound class can stand for any type. -/
theorem exists_solvedBy_eq {k : Nat} (hs : s.WellFormed) (hv : s.slot? v = some (.root k))
    (t : Ty) : ∃ σ, s.SolvedBy σ ∧ σ v = t := by
  refine ⟨_, hs.solved.mapVars fun _ => t, ?_⟩
  rw [hs.apply_root hv]
  rfl

/-- No meaning has variables exactly if one assignment only solves the store. -/
theorem ground_iff (hs : s.WellFormed) :
    (∀ v, s.Has v → (s.apply (.var v)).vars = []) ↔
      ∃ σ, s.SolvedBy σ ∧ ∀ τ, s.SolvedBy τ → ∀ v, s.Has v → τ v = σ v := by
  constructor
  · intro hground
    refine ⟨_, hs.solved, fun τ hτ v hv => ?_⟩
    have happly := hτ.apply hs (covers_var.2 hv)
    rw [Ty.mapVars_eq_self (hground v hv)] at happly
    exact happly.symm
  · rintro ⟨σ, -, hunique⟩ v hv
    refine List.eq_nil_iff_forall_not_mem.2 fun w hw => ?_
    obtain ⟨k, hk⟩ := hs.unbound_of_mem_vars_apply (covers_var.2 hv) hw
    obtain ⟨τ, hτ, hτw⟩ := exists_solvedBy_eq hs hk .unit
    obtain ⟨ρ, hρ, hρw⟩ := exists_solvedBy_eq hs hk .error
    have heq := (hunique τ hτ w (has_of_slot? hk)).trans (hunique ρ hρ w (has_of_slot? hk)).symm
    rw [hτw, hρw] at heq
    cases heq

/-- The only assignment that solves a store gives types their meanings. -/
theorem apply_eq_of_unique (hs : s.WellFormed)
    (hunique : ∀ τ, s.SolvedBy τ → ∀ v, s.Has v → τ v = σ v) (ht : s.Covers t) :
    s.apply t = t.mapVars σ := by
  rw [hs.apply_eq_mapVars ht]
  exact Ty.mapVars_congr fun v hv => hunique _ hs.solved v (ht v hv)

end Store

namespace Session

open Store

variable {x : Session} {a b : Ty}

/-- **Unification computes most general unifiers.** In a store that operations lead to, and
without the error type, it succeeds exactly if an assignment unifies the types; the meanings of
the types are then the same, the assignments that solve the store that is left are those that
unify the types, and each of them gives a type what it gives the meaning of the type. -/
theorem unify_mostGeneral (hx : x.Reachable) (ha : x.store.Covers a) (hb : x.store.Covers b)
    (hstore : x.store.BindsOnly Ty.ErrorFree) (hfa : a.ErrorFree) (hfb : b.ErrorFree) :
    ((x.store.unify a b).conflict = none ↔ ∃ σ, x.store.Unifier a b σ) ∧
    (∀ left, x.store.unify a b = .done left →
      left.apply a = left.apply b ∧
      (∀ σ, left.SolvedBy σ ↔ x.store.Unifier a b σ) ∧
      ∀ σ, x.store.Unifier a b σ → ∀ t, x.store.Covers t →
        t.mapVars σ = (left.apply t).mapVars σ) ∧
    ∀ left e, x.store.unify a b = .failed left e → ¬ ∃ σ, x.store.Unifier a b σ := by
  obtain ⟨past, hpast⟩ := History.of_reachable hx
  have hs := hpast.store_wellFormed
  have hiff := fun σ => unifier_iff σ hs ha hb hstore hfa hfb
  have hmoves := moves_unify hs ha hb
  have hs' := hmoves.wellFormed hs
  refine ⟨⟨fun hnone => ⟨_, (hiff _).2 ⟨hnone, hs'.solved⟩⟩, fun ⟨σ, hσ⟩ => ((hiff σ).1 hσ).1⟩,
    fun left hleft => ?_, fun left e hleft ⟨σ, hσ⟩ => ?_⟩
  rotate_left
  · have hnone := ((hiff σ).1 hσ).1
    rw [hleft] at hnone
    cases hnone
  rw [hleft] at hiff hmoves hs'
  have hmoves : Moves x.store left := hmoves
  have hs' : left.WellFormed := hs'
  have hsolved : ∀ σ, left.SolvedBy σ ↔ x.store.Unifier a b σ := fun σ =>
    ((hiff σ).trans (and_iff_right rfl)).symm
  refine ⟨?_, hsolved, fun σ hσ t ht => ?_⟩
  · rw [hs'.apply_eq_mapVars (hmoves.covers ha), hs'.apply_eq_mapVars (hmoves.covers hb)]
    exact ((hsolved _).1 hs'.solved).equal
  · exact (((hsolved σ).2 hσ).apply hs' (hmoves.covers ht)).symm

/-- Unifying a variable that is bound to a tuple leaves what the tuple asks for. -/
theorem unify_mostGeneral_tuple :
    let x := (Session.start 2).next (.bind ⟨0⟩ (.tuple [.var ⟨1⟩]))
    (x.store.unify (.var ⟨0⟩) (.tuple [.literal .integer])).conflict = none ∧
      ∀ σ, x.store.Unifier (.var ⟨0⟩) (.tuple [.literal .integer]) σ →
        σ ⟨1⟩ = .literal .integer := by
  intro x
  have hx : x.Reachable := ⟨2, .step (.refl _) (by decide) (by decide)⟩
  have hstore : x.store.BindsOnly Ty.ErrorFree := by
    have heq : x.store.slots = #[.bound (.tuple [.var ⟨1⟩]), .root 0] := by decide
    rintro ⟨i⟩ t ht
    rw [slot?, heq] at ht
    rcases i with _ | _ | i
    · exact Slot.bound.inj (Option.some.inj ht) ▸ by decide
    · cases ht
    · cases ht
  have hgeneral := unify_mostGeneral hx (a := .var ⟨0⟩) (b := .tuple [.literal .integer])
    (by decide) (by decide) hstore (by decide) (by decide)
  have hnone : (x.store.unify (.var ⟨0⟩) (.tuple [.literal .integer])).conflict = none := by decide
  have hmeaning : (x.store.unify (.var ⟨0⟩) (.tuple [.literal .integer])).store.apply (.var ⟨1⟩) =
      .literal .integer := by decide
  refine ⟨hnone, fun σ hσ => ?_⟩
  have hfactor := (hgeneral.2.1 _ (Unified.eq_done hnone)).2.2 σ hσ (.var ⟨1⟩) (by decide)
  rw [hmeaning] at hfactor
  exact hfactor

end Session
end TypeResolution
