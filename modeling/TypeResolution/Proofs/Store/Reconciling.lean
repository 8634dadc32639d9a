/-
# Types that can be unified

Unification cannot fail where an assignment that solves the store makes two types equal. The error
type need not be left out for this: a step over it asks for nothing, so the assignment still solves
the store that is left. Nor can it fail on types without variables that agree, as nothing is bound
there. Both cases hold of the parts of two types if they hold of the types, each part on its own
(`Store.Unifies.done_of_reconciled`).

Key definitions: `Reconciles`.
Key theorems: `children_of_agree`, `Store.unify_of_reconciles`.
-/
import TypeResolution.Proofs.Store.Unifier

namespace TypeResolution

variable {σ : TyVar → Ty} {a b : Ty}

/-! ### Parts of types that agree -/

theorem zip_of_agreeAll : ∀ {as bs : List Ty}, agreeAll as bs = true →
    as.length = bs.length ∧ ∀ p ∈ as.zip bs, agree p.1 p.2 = true
  | [], [], _ => ⟨rfl, nofun⟩
  | a :: as, b :: bs, h => by
    unfold agreeAll at h
    obtain ⟨hab, hrest⟩ := Bool.and_eq_true_iff.1 h
    obtain ⟨hlength, hzip⟩ := zip_of_agreeAll hrest
    exact ⟨congrArg Nat.succ hlength, List.forall_mem_cons.2 ⟨hab, hzip⟩⟩
  | [], _ :: _, h => by cases h
  | _ :: _, [], h => by cases h

theorem zip_of_agreeParams : ∀ {ps qs : List Parameter}, agreeParams ps qs = true →
    ps.map (·.1) = qs.map (·.1) ∧ ∀ p ∈ ps.zip qs, agree p.1.2 p.2.2 = true
  | [], [], _ => ⟨rfl, nofun⟩
  | (c, a) :: ps, (d, b) :: qs, h => by
    unfold agreeParams at h
    obtain ⟨hfirst, hrest⟩ := Bool.and_eq_true_iff.1 h
    obtain ⟨hcd, hab⟩ := Bool.and_eq_true_iff.1 hfirst
    obtain ⟨hconventions, hzip⟩ := zip_of_agreeParams hrest
    refine ⟨?_, List.forall_mem_cons.2 ⟨hab, hzip⟩⟩
    rw [List.map_cons, List.map_cons, beq_iff_eq.1 hcd, hconventions]
  | [], _ :: _, h => by cases h
  | _ :: _, [], h => by cases h

/-- Types that agree, neither of them the error type, have one shape and children that agree. -/
theorem children_of_agree (ha : a ≠ .error) (hb : b ≠ .error) (h : agree a b = true) :
    (a.shape = b.shape ∧ a.children.length = b.children.length) ∧
      ∀ p ∈ a.children.zip b.children, agree p.1 p.2 = true := by
  cases a with
  | error => exact absurd rfl ha
  | nominal n as =>
    cases b with
    | error => exact absurd rfl hb
    | nominal m bs =>
      simp only [agree, Bool.and_eq_true, beq_iff_eq] at h
      obtain ⟨hlength, hzip⟩ := zip_of_agreeAll h.2
      exact ⟨⟨congrArg Ty.Shape.nominal h.1, hlength⟩, hzip⟩
    | _ => simp [agree] at h
  | function ps r =>
    cases b with
    | error => exact absurd rfl hb
    | function qs u =>
      simp only [agree, Bool.and_eq_true] at h
      obtain ⟨hconventions, hzip⟩ := zip_of_agreeParams h.1
      have hcount : (ps.map (·.2)).length = (qs.map (·.2)).length := by
        simpa using congrArg List.length hconventions
      refine ⟨⟨congrArg Ty.Shape.function hconventions, ?_⟩, ?_⟩
      · simpa [Ty.children] using hcount
      · simp only [Ty.children, List.zip_append hcount, List.zip_map, List.zip_cons_cons,
          List.zip_nil_left]
        refine List.forall_mem_append.2 ⟨List.forall_mem_map.2 fun p hp => hzip p hp, ?_⟩
        exact List.forall_mem_singleton.2 h.2
    | _ => simp [agree] at h
  | tuple as =>
    cases b with
    | error => exact absurd rfl hb
    | tuple bs =>
      obtain ⟨hlength, hzip⟩ := zip_of_agreeAll h
      exact ⟨⟨rfl, hlength⟩, hzip⟩
    | _ => simp [agree] at h
  | _ =>
    cases b with
    | error => exact absurd rfl hb
    | _ =>
      cases eq_of_beq h
      all_goals exact ⟨⟨rfl, rfl⟩, fun _ hp => by cases hp⟩

/-! ### Unification -/

/-- The assignment makes the types equal, or they have no variables and agree. -/
def Reconciles (σ : TyVar → Ty) (a b : Ty) : Prop :=
  a.mapVars σ = b.mapVars σ ∨ a.vars = [] ∧ b.vars = [] ∧ agree a b = true

theorem ne_error_of_structural (h : Comparison.of a b = .structural) : a ≠ .error ∧ b ≠ .error := by
  constructor
  · rintro rfl
    unfold Comparison.of at h
    split at h <;> cases h
  · rintro rfl
    unfold Comparison.of at h
    split at h
    · cases h
    · cases a <;> cases h

/-- Looking up a type without variables gives the type, and leaves the store. -/
theorem Store.shallow_of_vars {s : Store} (h : a.vars = []) : s.shallow a = (a, s) := by
  cases a with
  | var v => cases h
  | _ => rfl

/-- A variable is bound only to what it stands for. -/
theorem eq_of_reconciles_bind {v : TyVar} {t : Ty} (h : Reconciles σ a b)
    (hcmp : Comparison.of a b = .bind v t) : σ v = t.mapVars σ := by
  rcases h with heq | ⟨hvars, hvars', -⟩
  · exact (Store.equal_iff_of_comparison hcmp).1 heq
  · rcases Store.eq_or_eq_of_comparison hcmp with ⟨rfl, rfl⟩ | ⟨rfl, rfl⟩
    · cases hvars
    · cases hvars'

/-- Types that are compared part by part have one shape, and their parts are reconciled. -/
theorem Reconciles.children (h : Reconciles σ a b) (hcmp : Comparison.of a b = .structural) :
    (a.shape = b.shape ∧ a.children.length = b.children.length) ∧
      ∀ p ∈ a.children.zip b.children, Reconciles σ p.1 p.2 := by
  obtain ⟨hna, hnb⟩ := Store.not_isVar_of_structural hcmp
  rcases h with heq | ⟨hvars, hvars', hagree⟩
  · obtain ⟨hsame, hchildren⟩ := (Ty.mapVars_eq_iff hna hnb).1 heq
    exact ⟨hsame, fun p hp => .inl (hchildren p hp)⟩
  · obtain ⟨hea, heb⟩ := ne_error_of_structural hcmp
    obtain ⟨hsame, hchildren⟩ := children_of_agree hea heb hagree
    refine ⟨hsame, fun p hp => .inr ⟨?_, ?_, hchildren p hp⟩⟩
    · exact Ty.vars_of_mem_children (List.of_mem_zip hp).1 hvars
    · exact Ty.vars_of_mem_children (List.of_mem_zip hp).2 hvars'

/-- What has been looked up is reconciled as before. -/
theorem Reconciles.tops {s s' : Store} {a' b' : Ty} (h : Reconciles σ a b) (hs : s.WellFormed)
    (ha : s.Covers a) (hb : s.Covers b) (hσ : s.SolvedBy σ) (htops : s.tops a b = ((a', b'), s')) :
    Reconciles σ a' b' := by
  refine h.imp (fun heq => (Store.equal_tops_iff hs ha hb htops hσ).2 heq) ?_
  rintro ⟨hvars, hvars', hagree⟩
  obtain ⟨-, -, -, rfl, rfl⟩ := Store.tops_spec hs ha hb htops
  rw [Store.shallow_of_vars hvars, Store.shallow_of_vars hvars']
  exact ⟨hvars, hvars', hagree⟩

namespace Store

variable {s s' : Store} {a' b' : Ty}

/-- **A run over pairs that an assignment reconciles succeeds**, and the assignment solves the store
that it leaves. -/
theorem Unifies.done_of_reconciles {pairs : List (Ty × Ty)} {out : Unified}
    (h : Unifies s pairs out) : s.WellFormed → s.CoversPairs pairs → s.SolvedBy σ →
    (∀ p ∈ pairs, Reconciles σ p.1 p.2) → out.conflict = none ∧ out.store.SolvedBy σ := by
  induction h with
  | done => exact fun _ _ hσ _ => ⟨rfl, hσ⟩
  | @agree s s' a b a' b' rest out htops hcmp _ ih =>
    intro hs hpairs hσ hall
    obtain ⟨⟨ha, hb⟩, -⟩ := List.forall_mem_cons.1 hpairs
    have hmoves := (tops_spec hs ha hb htops).1.moves
    exact ih (hmoves.wellFormed hs) (hpairs.rest hmoves) ((solvedBy_tops_iff hs ha hb htops).2 hσ)
      (List.forall_mem_cons.1 hall).2
  | @bind s s' s'' a b a' b' t v rest out htops hcmp hbind _ ih =>
    intro hs hpairs hσ hall
    obtain ⟨⟨ha, hb⟩, -⟩ := List.forall_mem_cons.1 hpairs
    obtain ⟨hfirst, hrest⟩ := List.forall_mem_cons.1 hall
    have hmoves := moves_of_bind hs ha hb htops hcmp
    obtain ⟨⟨k, hk⟩, -, hroot, -⟩ := root_of_bind hs ha hb htops hcmp
    have hs' := (tops_spec hs ha hb htops).1.moves.wellFormed hs
    rw [hbind] at hmoves
    have hmoves : Moves s s'' := hmoves
    have hequal := eq_of_reconciles_bind (hfirst.tops hs ha hb hσ htops) hcmp
    refine ih (hmoves.wellFormed hs) (hpairs.rest hmoves) ?_ hrest
    exact (solvedBy_bindRoot_iff hs' hk hroot hbind).2
      ⟨(solvedBy_tops_iff hs ha hb htops).2 hσ, hequal⟩
  | @infinite s s' s'' a b a' b' t v rest e htops hcmp hbind =>
    intro hs hpairs hσ hall
    obtain ⟨⟨ha, hb⟩, -⟩ := List.forall_mem_cons.1 hpairs
    obtain ⟨⟨k, hk⟩, ht, -, -⟩ := root_of_bind hs ha hb htops hcmp
    have hs' := (tops_spec hs ha hb htops).1.moves.wellFormed hs
    have hequal := eq_of_reconciles_bind
      ((List.forall_mem_cons.1 hall).1.tops hs ha hb hσ htops) hcmp
    exact absurd hequal
      (((solvedBy_tops_iff hs ha hb htops).2 hσ).ne_of_bindRoot hs' hk ht hbind)
  | @children s s' a b a' b' rest out htops hcmp hshape hlength _ ih =>
    intro hs hpairs hσ hall
    obtain ⟨⟨ha, hb⟩, -⟩ := List.forall_mem_cons.1 hpairs
    obtain ⟨hfirst, hrest⟩ := List.forall_mem_cons.1 hall
    obtain ⟨htidy, hca, hcb, -, -⟩ := tops_spec hs ha hb htops
    have hchildren := ((hfirst.tops hs ha hb hσ htops).children hcmp).2
    exact ih (htidy.moves.wellFormed hs) ((hpairs.rest htidy.moves).children hca hcb)
      ((solvedBy_tops_iff hs ha hb htops).2 hσ) (List.forall_mem_append.2 ⟨hchildren, hrest⟩)
  | @mismatch s s' a b a' b' rest htops hcmp hdiffer =>
    intro hs hpairs hσ hall
    obtain ⟨⟨ha, hb⟩, -⟩ := List.forall_mem_cons.1 hpairs
    have hfirst := (List.forall_mem_cons.1 hall).1.tops hs ha hb hσ htops
    exact absurd (hfirst.children hcmp).1 hdiffer

/-- Types that an assignment reconciles are unified. -/
theorem unify_of_reconciles (hs : s.WellFormed) (ha : s.Covers a) (hb : s.Covers b)
    (hσ : s.SolvedBy σ) (h : Reconciles σ a b) :
    (s.unify a b).conflict = none ∧ (s.unify a b).store.SolvedBy σ :=
  (unifies_unify hs ha hb).done_of_reconciles hs (coversPairs_singleton ha hb) hσ
    (List.forall_mem_singleton.2 h)

end Store
end TypeResolution
