/-
# Unification comes to an end

`Store.Unifies` is unification without a bound on its recursion: it works off a list of pairs of
types, and a pair of one shape is replaced by the pairs of children. A derivation is a finite
run. It keeps the store well-formed and only binds variables to parts of types that are there
already (`Unifies.bindsOnly`).

The bound that `unify` takes is never reached. On the way down on the left side, each class that
is passed mentions every class of the type that is left, so that it cannot be met again
(`Store.Beyond`); and between two classes the types get smaller. The moves that are made for the
children on the left do not change this for those on the right, since what is mentioned stays
mentioned.

Key definitions: `Store.Unifies`, `Store.BindsOnly`, `Store.Beyond`, `Store.Bounded`.
Key theorems: `Store.unifies_of_unifyWithin`, `Store.Unifies.moves`, `Store.Unifies.preserves`,
`Store.Unifies.bindsOnly`, `Store.exists_unifyWithin_eq`, `Store.unifies_unify`, `Store.moves_bind`,
`Store.bindsOnly_bind`.
-/
import Mathlib.Data.List.Perm.Subperm
import TypeResolution.Proofs.Store.Operations

namespace TypeResolution

open Relation

namespace Store

variable {s s' : Store} {v w r x : TyVar} {a b a' b' t u : Ty}

/-! ### The tops of two types -/

/-- Two types, looked up one after the other. -/
def tops (s : Store) (a b : Ty) : (Ty × Ty) × Store :=
  let (a, s) := s.shallow a
  let (b, s) := s.shallow b
  ((a, b), s)

theorem tidies_tops (hs : s.WellFormed) (ha : s.Covers a) (hb : s.Covers b) :
    Tidies s (s.tops a b).2 := by
  have htidy := tidies_shallow hs ha
  exact htidy.trans (tidies_shallow (htidy.moves.wellFormed hs) (htidy.moves.covers hb))

/-- That the left type was looked up first makes no difference to the right one. -/
theorem tops_eq (hs : s.WellFormed) (ha : s.Covers a) (hb : s.Covers b) :
    (s.tops a b).1 = ((s.shallow a).1, (s.shallow b).1) := by
  have htidy := tidies_shallow hs ha
  have hs₁ := htidy.moves.wellFormed hs
  refine Prod.ext rfl ?_
  show ((s.shallow a).2.shallow b).1 = (s.shallow b).1
  cases b with
  | var w =>
    have hw := covers_var.1 hb
    rw [shallow_var hs₁ (htidy.moves.has hw), shallow_var hs hw, htidy.probe_eq hs hw]
  | _ => rfl

/-- What holds of the tops of two types that the store covers. -/
theorem tops_spec (hs : s.WellFormed) (ha : s.Covers a) (hb : s.Covers b)
    (htops : s.tops a b = ((a', b'), s')) :
    Tidies s s' ∧ s'.Covers a' ∧ s'.Covers b' ∧ a' = (s.shallow a).1 ∧ b' = (s.shallow b).1 := by
  have htidy := tidies_tops hs ha hb
  have heq := tops_eq hs ha hb
  rw [htops] at htidy heq
  obtain ⟨rfl, rfl⟩ := Prod.mk.inj heq
  exact ⟨htidy, htidy.moves.covers (covers_shallow hs ha),
    htidy.moves.covers (covers_shallow hs hb), rfl, rfl⟩

/-- Where the tops have to be bound, the variable is an unbound root. -/
theorem root_of_bind {i : TyVar} (hs : s.WellFormed) (ha : s.Covers a) (hb : s.Covers b)
    (htops : s.tops a b = ((a', b'), s')) (hcmp : Comparison.of a' b' = .bind i t) :
    (∃ k, s'.slot? i = some (.root k)) ∧ s'.Covers t ∧
      (∀ w, t = .var w → ∃ k, s'.slot? w = some (.root k)) ∧ (t = a' ∨ t = b') := by
  obtain ⟨htidy, hca, hcb, rfl, rfl⟩ := tops_spec hs ha hb htops
  have hroot : ∀ {c : Ty} {w : TyVar}, s.Covers c → (s.shallow c).1 = .var w →
      ∃ k, s'.slot? w = some (.root k) := by
    intro c w hc hw
    obtain ⟨k, hk⟩ := root_of_shallow hs hc hw
    exact ⟨k, htidy.root_iff.1 hk⟩
  unfold Comparison.of at hcmp
  split at hcmp
  · cases hcmp
  · split at hcmp
    · cases hcmp
    · cases hcmp
    · rename_i v t' hva _
      obtain ⟨rfl, rfl⟩ := Comparison.bind.inj hcmp
      exact ⟨hroot ha hva, hcb, fun w hw => hroot hb hw, .inr rfl⟩
    · rename_i t' v hvb _ _
      obtain ⟨rfl, rfl⟩ := Comparison.bind.inj hcmp
      exact ⟨hroot hb hvb, hca, fun w hw => hroot ha hw, .inl rfl⟩
    · cases hcmp

/-- Where the tops have to be bound, binding moves the store. -/
theorem moves_of_bind {i : TyVar} (hs : s.WellFormed) (ha : s.Covers a) (hb : s.Covers b)
    (htops : s.tops a b = ((a', b'), s')) (hcmp : Comparison.of a' b' = .bind i t) :
    Moves s (s'.bindRoot i t).store := by
  have hmoves := (tops_spec hs ha hb htops).1.moves
  obtain ⟨⟨k, hk⟩, ht, hroot, -⟩ := root_of_bind hs ha hb htops hcmp
  exact hmoves.trans (moves_bindRoot (hmoves.wellFormed hs) hk ht hroot)

/-! ### Unification without a bound -/

/-- The pairs of types are unified one after the other, with this result. -/
inductive Unifies : Store → List (Ty × Ty) → Unified → Prop where
  | done (s : Store) : Unifies s [] (.done s)
  | agree {s s' : Store} {a b a' b' : Ty} {rest : List (Ty × Ty)} {r : Unified} :
      s.tops a b = ((a', b'), s') → Comparison.of a' b' = .agree →
      Unifies s' rest r → Unifies s ((a, b) :: rest) r
  /-- A variable is bound. -/
  | bind {s s' s'' : Store} {a b a' b' t : Ty} {v : TyVar} {rest : List (Ty × Ty)}
      {r : Unified} :
      s.tops a b = ((a', b'), s') → Comparison.of a' b' = .bind v t →
      s'.bindRoot v t = .done s'' → Unifies s'' rest r → Unifies s ((a, b) :: rest) r
  /-- A variable cannot be bound. -/
  | infinite {s s' s'' : Store} {a b a' b' t : Ty} {v : TyVar} {rest : List (Ty × Ty)}
      {e : UnifyError} :
      s.tops a b = ((a', b'), s') → Comparison.of a' b' = .bind v t →
      s'.bindRoot v t = .failed s'' e → Unifies s ((a, b) :: rest) (.failed s'' e)
  /-- Types of one shape are unified child by child. -/
  | children {s s' : Store} {a b a' b' : Ty} {rest : List (Ty × Ty)} {r : Unified} :
      s.tops a b = ((a', b'), s') → Comparison.of a' b' = .structural →
      a'.shape = b'.shape → a'.children.length = b'.children.length →
      Unifies s' (a'.children.zip b'.children ++ rest) r → Unifies s ((a, b) :: rest) r
  | mismatch {s s' : Store} {a b a' b' : Ty} {rest : List (Ty × Ty)} :
      s.tops a b = ((a', b'), s') → Comparison.of a' b' = .structural →
      ¬ (a'.shape = b'.shape ∧ a'.children.length = b'.children.length) →
      Unifies s ((a, b) :: rest) (s'.mismatch a' b')

/-- After the first result the rest is unified, unless there was a conflict. -/
def Follows (first : Unified) (rest : List (Ty × Ty)) (r : Unified) : Prop :=
  match first.conflict with
  | none => Unifies first.store rest r
  | some _ => r = first

theorem follows_nil (out : Unified) : Follows out [] out := by
  unfold Follows
  rcases out with ⟨s, _ | e⟩
  · exact .done s
  · rfl

theorem unifyWithin_succ (fuel : Nat) (htops : s.tops a b = ((a', b'), s')) :
    unifyWithin (fuel + 1) s a b =
      match Comparison.of a' b' with
      | .agree => some (.done s')
      | .bind v t => some (s'.bindRoot v t)
      | .structural =>
        if a'.shape = b'.shape ∧ a'.children.length = b'.children.length then
          unifyAll (unifyWithin fuel) s' a'.children b'.children
        else some (s'.mismatch a' b') := by
  obtain ⟨h, rfl⟩ := Prod.mk.inj htops
  obtain ⟨rfl, rfl⟩ := Prod.mk.inj h
  rfl

theorem unifies_of_unifyAll {step : Store → Ty → Ty → Option Unified}
    (hstep : ∀ s a b first, step s a b = some first → ∀ rest r, Follows first rest r →
      Unifies s ((a, b) :: rest) r) :
    ∀ (as bs : List Ty) (s : Store) (first : Unified), as.length = bs.length →
      unifyAll step s as bs = some first → ∀ rest r, Follows first rest r →
      Unifies s (as.zip bs ++ rest) r
  | [], bs, s, first, _, h, rest, r, hr => by
    obtain rfl : Unified.done s = first := by
      cases bs <;> exact Option.some.inj h
    exact hr
  | a :: as, [], _, _, hlen, _, _, _, _ => by simp at hlen
  | a :: as, b :: bs, s, first, hlen, h, rest, r, hr => by
    have hlen' : as.length = bs.length := by simpa using hlen
    unfold unifyAll at h
    split at h
    · rename_i s₁ heq
      exact hstep s a b ⟨s₁, none⟩ heq _ r
        (unifies_of_unifyAll hstep as bs s₁ first hlen' h rest r hr)
    · rename_i hstop
      refine hstep s a b first h _ r ?_
      unfold Follows at hr ⊢
      cases hc : first.conflict with
      | none =>
        have hfirst : first = ⟨first.store, none⟩ := hc ▸ rfl
        rw [hfirst] at h
        exact absurd h (hstop _)
      | some e =>
        rw [hc] at hr
        exact hr

/-- What unification within a bound comes to is what it comes to without one. -/
theorem unifies_of_unifyWithin : ∀ (fuel : Nat) (s : Store) (a b : Ty) (first : Unified),
    unifyWithin fuel s a b = some first → ∀ rest r, Follows first rest r →
    Unifies s ((a, b) :: rest) r
  | 0, _, _, _, _, h, _, _, _ => by cases h
  | fuel + 1, s, a, b, first, h, rest, r, hr => by
    rcases htops : s.tops a b with ⟨⟨a', b'⟩, s'⟩
    rw [unifyWithin_succ fuel htops] at h
    split at h
    · rename_i hcmp
      obtain rfl := Option.some.inj h
      exact .agree htops hcmp hr
    · rename_i v t hcmp
      obtain rfl := Option.some.inj h
      unfold Follows at hr
      split at hr
      · rename_i hc
        exact .bind htops hcmp (Unified.eq_done hc) hr
      · rename_i e hc
        rw [hr]
        have heq : s'.bindRoot v t = .failed (s'.bindRoot v t).store e := by
          rw [Unified.failed, ← hc]
        rw [heq]
        exact .infinite htops hcmp heq
    · rename_i hcmp
      split at h
      · rename_i hshape
        exact .children htops hcmp hshape.1 hshape.2
          (unifies_of_unifyAll (fun s a b => unifies_of_unifyWithin fuel s a b) _ _ s' first
            hshape.2 h rest r hr)
      · rename_i hshape
        obtain rfl := Option.some.inj h
        obtain rfl : r = s'.mismatch a' b' := hr
        exact .mismatch htops hcmp hshape

/-! ### Unification moves -/

theorem forall_children_pairs {P : Ty → Prop} {rest : List (Ty × Ty)}
    (ha : ∀ c ∈ a.children, P c) (hb : ∀ c ∈ b.children, P c)
    (hrest : ∀ p ∈ rest, P p.1 ∧ P p.2) :
    ∀ p ∈ a.children.zip b.children ++ rest, P p.1 ∧ P p.2 := by
  intro p hp
  rcases List.mem_append.1 hp with hp | hp
  · exact ⟨ha _ (List.of_mem_zip hp).1, hb _ (List.of_mem_zip hp).2⟩
  · exact hrest p hp

/-- The store has every variable of the pairs. -/
def CoversPairs (s : Store) (pairs : List (Ty × Ty)) : Prop :=
  ∀ p ∈ pairs, s.Covers p.1 ∧ s.Covers p.2

theorem CoversPairs.rest {p : Ty × Ty} {rest : List (Ty × Ty)} (h : s.CoversPairs (p :: rest))
    (hm : Moves s s') : s'.CoversPairs rest := fun q hq =>
  have hq := h q (List.mem_cons_of_mem _ hq)
  ⟨hm.covers hq.1, hm.covers hq.2⟩

theorem CoversPairs.children {rest : List (Ty × Ty)} (h : s.CoversPairs rest) (ha : s.Covers a)
    (hb : s.Covers b) : s.CoversPairs (a.children.zip b.children ++ rest) :=
  forall_children_pairs (fun _ hc => ha.of_mem_children hc) (fun _ hc => hb.of_mem_children hc) h

/-- The run moves the store. -/
theorem Unifies.moves {pairs : List (Ty × Ty)} {out : Unified} (h : Unifies s pairs out) :
    s.WellFormed → s.CoversPairs pairs → Moves s out.store := by
  induction h with
  | done => exact fun _ _ => .refl
  | @agree s s' a b a' b' rest out htops _ _ ih =>
    intro hs hpairs
    obtain ⟨ha, hb⟩ := hpairs (a, b) List.mem_cons_self
    have hmoves := (tops_spec hs ha hb htops).1.moves
    exact hmoves.trans (ih (hmoves.wellFormed hs) (hpairs.rest hmoves))
  | @bind s s' s'' a b a' b' t v rest out htops hcmp hbind _ ih =>
    intro hs hpairs
    obtain ⟨ha, hb⟩ := hpairs (a, b) List.mem_cons_self
    have hmoves := moves_of_bind hs ha hb htops hcmp
    rw [hbind] at hmoves
    have hmoves : Moves s s'' := hmoves
    exact hmoves.trans (ih (hmoves.wellFormed hs) (hpairs.rest hmoves))
  | @infinite s s' s'' a b a' b' t v rest e htops hcmp hbind =>
    intro hs hpairs
    obtain ⟨ha, hb⟩ := hpairs (a, b) List.mem_cons_self
    have hmoves := moves_of_bind hs ha hb htops hcmp
    rw [hbind] at hmoves
    exact hmoves
  | @children s s' a b a' b' rest out htops _ _ _ _ ih =>
    intro hs hpairs
    obtain ⟨ha, hb⟩ := hpairs (a, b) List.mem_cons_self
    obtain ⟨htidy, hca, hcb, -, -⟩ := tops_spec hs ha hb htops
    exact htidy.moves.trans (ih (htidy.moves.wellFormed hs)
      ((hpairs.rest htidy.moves).children hca hcb))
  | @mismatch s s' a b a' b' rest htops _ _ =>
    intro hs hpairs
    obtain ⟨ha, hb⟩ := hpairs (a, b) List.mem_cons_self
    exact (tops_spec hs ha hb htops).1.moves

/-! ### The number of variables and what they are bound to -/

@[simp] theorem size_shallow (t : Ty) : (s.shallow t).2.size = s.size := by
  cases t with
  | var v => exact size_find s v
  | _ => rfl

@[simp] theorem size_tops : (s.tops a b).2.size = s.size := by simp [tops]

@[simp] theorem size_link (v w : TyVar) : (s.link v w).size = s.size := by
  refine link_cases (P := fun s' => s'.size = s.size) rfl rfl (fun _ => ?_) (fun _ _ => ?_)
    fun _ _ => ?_
  · simp
  · simp
  · simp

@[simp] theorem size_bindRoot : (s.bindRoot v t).store.size = s.size := by
  cases hn : t.isVar with
  | true =>
    obtain ⟨w, rfl⟩ := Ty.eq_var_of_isVar hn
    exact size_link v w
  | false =>
    rw [bindRoot_eq hn]
    split <;> simp [Unified.failed, Unified.done]

theorem Unifies.size_eq {pairs : List (Ty × Ty)} {out : Unified} (h : Unifies s pairs out) :
    out.store.size = s.size := by
  have htops : ∀ {s s' : Store} {a b : Ty} {p : Ty × Ty}, s.tops a b = (p, s') →
      s'.size = s.size := by
    intro s s' a b p h
    rw [← size_tops (s := s) (a := a) (b := b), h]
  have hbind : ∀ {s s' : Store} {v : TyVar} {t : Ty} {c : Option UnifyError},
      s.bindRoot v t = ⟨s', c⟩ → s'.size = s.size := by
    intro s s' v t c h
    rw [← size_bindRoot (s := s) (v := v) (t := t), h]
  induction h with
  | done => rfl
  | agree h _ _ ih => rw [ih, htops h]
  | bind h _ h' _ ih => rw [ih, hbind h', htops h]
  | infinite h _ h' => exact (hbind h').trans (htops h)
  | children h _ _ _ _ ih => rw [ih, htops h]
  | mismatch h _ _ => exact htops h

/-- Variables are bound to types with the property only. -/
def BindsOnly (s : Store) (P : Ty → Prop) : Prop := ∀ v t, s.slot? v = some (.bound t) → P t

/-- No binding of the store has more levels. -/
def Bounded (s : Store) (levels : Nat) : Prop :=
  ∀ v t, s.slot? v = some (.bound t) → t.depth ≤ levels

theorem slot_ofSize {count : Nat} {slot : Slot} (h : (ofSize count).slot? v = some slot) :
    slot = .root 0 := by
  rw [slot?_ofSize] at h
  split at h
  · exact (Option.some.inj h).symm
  · cases h

theorem bindsOnly_ofSize (count : Nat) (P : Ty → Prop) : (ofSize count).BindsOnly P := by
  intro v t h
  cases slot_ofSize h

theorem Tidies.bindsOnly {P : Ty → Prop} (h : Tidies s s') (hs : s.BindsOnly P) :
    s'.BindsOnly P := fun v t ht => hs v t (h.bound_iff.2 ht)

theorem bound_of_compressWithin : ∀ (fuel : Nat) (s : Store) (v : TyVar),
    (compressWithin r fuel s v).slot? x = some (.bound t) → s.slot? x = some (.bound t)
  | 0, _, _, h => h
  | fuel + 1, s, v, h => by
    unfold compressWithin at h
    split at h
    · exact h
    · split at h
      · have h := bound_of_compressWithin fuel _ _ h
        split at h
        · exact h
        · exact bound_of_write (by simp) h
      · exact h

theorem bound_of_link (h : (s.link v w).slot? x = some (.bound t)) :
    s.slot? x = some (.bound t) := by
  have hfind : ∀ {s : Store} {v : TyVar}, (s.find v).2.slot? x = some (.bound t) →
      s.slot? x = some (.bound t) := fun h => bound_of_compressWithin _ _ _ h
  revert h
  refine link_cases (P := fun s' => s'.slot? x = some (.bound t) → s.slot? x = some (.bound t))
    rfl rfl (fun _ h => ?_) (fun _ _ h => ?_) fun _ _ h => ?_
  · exact hfind (hfind h)
  · exact hfind (hfind (bound_of_write (by simp) h))
  · exact hfind (hfind (bound_of_write (by simp) (bound_of_write (by simp) h)))

theorem bindsOnly_bindRoot {P : Ty → Prop} (hs : s.BindsOnly P) (ht : P t) :
    (s.bindRoot v t).store.BindsOnly P := by
  intro x u hu
  cases hn : t.isVar with
  | true =>
    obtain ⟨w, rfl⟩ := Ty.eq_var_of_isVar hn
    exact hs x u (bound_of_link hu)
  | false =>
    rw [bindRoot_eq hn] at hu
    split at hu
    · exact hs x u hu
    · have hu' : (s.write v (.bound t)).slot? x = some (.bound u) := hu
      rw [slot?_write] at hu'
      split at hu'
      · rw [← Slot.bound.inj (Option.some.inj hu')]
        exact ht
      · exact hs x u hu'

theorem BindsOnly.shallow_store {P : Ty → Prop} (h : s.BindsOnly P) (t : Ty) :
    (s.shallow t).2.BindsOnly P := by
  cases t with
  | var v => exact fun x u hu => h x u (bound_of_compressWithin _ _ _ hu)
  | _ => exact h

/-- What is looked up has the property that bindings have. -/
theorem BindsOnly.shallow {P : Ty → Prop} (hP : Ty.Hereditary P) (hb : s.BindsOnly P) (h : P t) :
    P (s.shallow t).1 := by
  cases t with
  | var v =>
    show P ((s.find v).2.content (s.find v).1)
    unfold content
    split
    · rename_i u hu
      exact hb _ u (bound_of_compressWithin _ _ _ hu)
    · exact hP.var _
  | _ => exact h

theorem BindsOnly.tops {P : Ty → Prop} (hP : Ty.Hereditary P) (hb : s.BindsOnly P) (ha : P a)
    (hb' : P b) (htops : s.tops a b = ((a', b'), s')) : s'.BindsOnly P ∧ P a' ∧ P b' := by
  obtain ⟨hpair, rfl⟩ := Prod.mk.inj htops
  obtain ⟨rfl, rfl⟩ := Prod.mk.inj hpair
  have hfirst := hb.shallow_store a
  exact ⟨hfirst.shallow_store b, hb.shallow hP ha, hfirst.shallow hP hb'⟩

/-- If what variables of a kind stand for has leaves of the kind, then so has the meaning of a
type with such leaves. -/
theorem leavesIn_apply {Q : Ty → Prop} (hprobe : ∀ v, Q (.var v) → (s.probe v).LeavesIn Q)
    {t : Ty} (ht : t.LeavesIn Q) : (s.apply t).LeavesIn Q := by
  unfold apply
  generalize s.size + 1 = fuel
  induction fuel generalizing t with
  | zero => exact ht
  | succ fuel ih =>
    refine ht.mapVars fun v hv => ?_
    have hcontent := hprobe v (ht _ (Ty.mem_vars_iff.1 hv))
    split
    · rename_i root heq
      rwa [heq] at hcontent
    · exact ih hcontent

/-- The meaning of a type has the leaves of the type and of bindings. -/
theorem BindsOnly.leavesIn_apply {Q : Ty → Prop} (h : s.BindsOnly (Ty.LeavesIn Q))
    (hvar : ∀ v, Q (.var v)) {t : Ty} (ht : t.LeavesIn Q) : (s.apply t).LeavesIn Q := by
  refine Store.leavesIn_apply (fun v _ => ?_) ht
  unfold probe content
  split
  · exact h _ _ ‹_›
  · exact Ty.leavesIn_singleton rfl (hvar _)

/-- What is bound is one of the two types, to the other. -/
theorem eq_or_eq_of_comparison (h : Comparison.of a b = .bind v t) :
    (a = .var v ∧ b = t) ∨ (b = .var v ∧ a = t) := by
  unfold Comparison.of at h
  split at h
  · cases h
  · split at h
    · cases h
    · cases h
    · obtain ⟨rfl, rfl⟩ := Comparison.bind.inj h
      exact .inl ⟨rfl, rfl⟩
    · obtain ⟨rfl, rfl⟩ := Comparison.bind.inj h
      exact .inr ⟨rfl, rfl⟩
    · cases h

/-- Where the tops have to be bound, bindings keep the property that the types have. -/
theorem bindsOnly_of_bind {P : Ty → Prop} {i : TyVar} (hP : Ty.Hereditary P)
    (htops : s.tops a b = ((a', b'), s')) (hcmp : Comparison.of a' b' = .bind i t)
    (hbinds : s.BindsOnly P) (hPa : P a) (hPb : P b) : (s'.bindRoot i t).store.BindsOnly P := by
  obtain ⟨hbinds', ha', hb'⟩ := hbinds.tops hP hPa hPb htops
  rcases eq_or_eq_of_comparison hcmp with ⟨-, rfl⟩ | ⟨-, rfl⟩
  · exact bindsOnly_bindRoot hbinds' hb'
  · exact bindsOnly_bindRoot hbinds' ha'

/-- **What each step keeps is kept by a run**: looking two types up and binding a variable keep an
invariant of stores, where the types have a property that their parts have too. -/
theorem Unifies.preserves {I : Store → Prop} {P : Ty → Prop} {pairs : List (Ty × Ty)}
    {out : Unified} (hchild : ∀ {t c : Ty}, P t → c ∈ t.children → P c)
    (htops : ∀ {s s' : Store} {a b a' b' : Ty}, I s → P a → P b → s.tops a b = ((a', b'), s') →
      I s' ∧ P a' ∧ P b')
    (hbind : ∀ {s : Store} {v : TyVar} {t : Ty}, I s → P (.var v) → P t →
      I (s.bindRoot v t).store)
    (h : Unifies s pairs out) : I s → (∀ p ∈ pairs, P p.1 ∧ P p.2) → I out.store := by
  have hbound : ∀ {s s' : Store} {a b a' b' t : Ty} {v : TyVar}, I s → P a ∧ P b →
      s.tops a b = ((a', b'), s') → Comparison.of a' b' = .bind v t →
      I (s'.bindRoot v t).store := by
    rintro s s' a b a' b' t v hs ⟨ha, hb⟩ heq hcmp
    obtain ⟨hs', ha', hb'⟩ := htops hs ha hb heq
    rcases eq_or_eq_of_comparison hcmp with ⟨rfl, rfl⟩ | ⟨rfl, rfl⟩
    · exact hbind hs' ha' hb'
    · exact hbind hs' hb' ha'
  induction h with
  | done => exact fun hs _ => hs
  | agree heq _ _ ih =>
    intro hs hpairs
    obtain ⟨⟨ha, hb⟩, hrest⟩ := List.forall_mem_cons.1 hpairs
    exact ih (htops hs ha hb heq).1 hrest
  | bind heq hcmp hdone _ ih =>
    intro hs hpairs
    obtain ⟨hpair, hrest⟩ := List.forall_mem_cons.1 hpairs
    have hs' := hbound hs hpair heq hcmp
    rw [hdone] at hs'
    exact ih hs' hrest
  | infinite heq hcmp hfailed =>
    intro hs hpairs
    have hs' := hbound hs (List.forall_mem_cons.1 hpairs).1 heq hcmp
    rw [hfailed] at hs'
    exact hs'
  | children heq _ _ _ _ ih =>
    intro hs hpairs
    obtain ⟨⟨ha, hb⟩, hrest⟩ := List.forall_mem_cons.1 hpairs
    obtain ⟨hs', ha', hb'⟩ := htops hs ha hb heq
    exact ih hs' (forall_children_pairs (P := P) (fun _ hc => hchild ha' hc)
      (fun _ hc => hchild hb' hc) hrest)
  | mismatch heq _ _ =>
    intro hs hpairs
    obtain ⟨⟨ha, hb⟩, -⟩ := List.forall_mem_cons.1 hpairs
    exact (htops hs ha hb heq).1

/-- **Variables are bound to parts only** of the types and the bindings that there are. -/
theorem Unifies.bindsOnly {P : Ty → Prop} (hP : Ty.Hereditary P) {pairs : List (Ty × Ty)}
    {out : Unified} (h : Unifies s pairs out) :
    s.BindsOnly P → (∀ p ∈ pairs, P p.1 ∧ P p.2) → out.store.BindsOnly P :=
  h.preserves hP.child (fun hs ha hb heq => hs.tops hP ha hb heq)
    fun hs _ ht => bindsOnly_bindRoot hs ht

theorem depth_shallow_le {levels : Nat} (hb : s.Bounded levels) (hd : t.depth ≤ levels) :
    (s.shallow t).1.depth ≤ levels :=
  BindsOnly.shallow (Ty.hereditary_depth_le levels) hb hd

/-! ### The bound is never reached -/

/-- The classes in the list mention every class of the type, directly or through others. -/
def Beyond (s : Store) (passed : List TyVar) (t : Ty) : Prop :=
  ∀ p ∈ passed, ∀ v ∈ t.vars, ∃ r, s.Leads v r ∧ TransGen s.Mentions p r

theorem Beyond.moves {passed : List TyVar} (h : s.Beyond passed t) (hm : Moves s s') :
    s'.Beyond passed t := by
  intro p hp v hv
  obtain ⟨r, hl, hreach⟩ := h p hp v hv
  obtain ⟨r', hl', hreach'⟩ := hm.reach hl
  exact ⟨r', hl', hreach' p hreach⟩

theorem Beyond.child {passed : List TyVar} {c : Ty} (h : s.Beyond passed t) (hc : c ∈ t.children) :
    s.Beyond passed c := fun p hp v hv => h p hp v (Ty.mem_vars_of_mem_children hc hv)

/-- Passing on to the binding of a class passes the class, which was not passed before. -/
theorem Beyond.bound {passed : List TyVar} (hs : s.WellFormed) (h : s.Beyond passed (.var v))
    (hl : s.Leads v r) (hr : s.slot? r = some (.bound t)) :
    r ∉ passed ∧ s.Beyond (r :: passed) t := by
  have hreach : ∀ p ∈ passed, TransGen s.Mentions p r := by
    intro p hp
    obtain ⟨r', hl', hp'⟩ := h p hp v (by simp)
    exact hl.unique hl' ▸ hp'
  refine ⟨fun hp => hs.acyclic r (hreach r hp), fun p hp w hw => ?_⟩
  have hm := hs.mentions_root hr hw
  refine ⟨s.root w, hs.leads_root (hs.covered r t hr w hw), ?_⟩
  rcases List.mem_cons.1 hp with rfl | hp
  · exact .single hm
  · exact (hreach p hp).tail hm

theorem length_le_size {passed : List TyVar} (hn : passed.Nodup) (hp : ∀ p ∈ passed, s.Has p) :
    passed.length ≤ s.size := by
  have hsub : passed ⊆ (List.range s.size).map TyVar.mk := fun p h =>
    List.mem_map.2 ⟨p.index, List.mem_range.2 (hp p h), rfl⟩
  simpa using (List.subperm_of_subset hn hsub).length_le

/-- What holds of the two types that the way down has come to. -/
structure Descent (s : Store) (levels : Nat) (passed : List TyVar) (a b : Ty) : Prop where
  coversLeft : s.Covers a
  coversRight : s.Covers b
  levelsLeft : a.depth ≤ levels
  levelsRight : b.depth ≤ levels
  beyond : s.Beyond passed a

theorem Descent.moves {levels : Nat} {passed : List TyVar} (h : s.Descent levels passed a b)
    (hm : Moves s s') : s'.Descent levels passed a b :=
  ⟨hm.covers h.coversLeft, hm.covers h.coversRight, h.levelsLeft, h.levelsRight,
    h.beyond.moves hm⟩

theorem not_isVar_of_structural (h : Comparison.of a b = .structural) :
    a.isVar = false ∧ b.isVar = false := by
  unfold Comparison.of at h
  split at h
  · cases h
  · split at h
    · cases h
    · cases h
    · cases h
    · cases h
    · rename_i _ ha _ hb
      exact ⟨Ty.isVar_eq_false fun v hv => ha v hv, Ty.isVar_eq_false fun v hv => hb v hv⟩

/-- A type that is looked up on the way down was there, or is the binding of a class that is
passed now. -/
theorem Descent.pass {levels : Nat} {passed : List TyVar} (hs : s.WellFormed)
    (hb : s.Bounded levels) (h : s.Descent levels passed a b)
    (hn : (s.shallow a).1.isVar = false) :
    (s.shallow a).1 = a ∨ ∃ r, s.Has r ∧ r ∉ passed ∧ s.Beyond (r :: passed) (s.shallow a).1 ∧
      (s.shallow a).1.depth ≤ levels := by
  cases a with
  | var v =>
    have hv := covers_var.1 h.coversLeft
    rw [shallow_var hs hv] at hn ⊢
    rcases hs.probe_cases hv with ⟨k, _, hp⟩ | ⟨u, hu, hp⟩
    · rw [hp] at hn
      cases hn
    · obtain ⟨hnew, hbeyond⟩ := h.beyond.bound hs (hs.leads_root hv) hu
      rw [hp]
      exact .inr ⟨s.root v, has_of_slot? hu, hnew, hbeyond, hb _ u hu⟩
  | _ => exact .inl rfl

/-- If a pair takes few enough steps, wherever the way down has come, then so does each pair of
two lists. -/
theorem exists_unifyAll_eq {fuel levels size : Nat} {passed : List TyVar}
    (hstep : ∀ s a b, s.WellFormed → s.Bounded levels → s.Descent levels passed a b →
      (∀ p ∈ passed, s.Has p) → s.size = size →
      (size - passed.length) * (levels + 1) + a.depth + 1 ≤ fuel →
      ∃ out, unifyWithin fuel s a b = some out) :
    ∀ (as bs : List Ty) (s : Store), s.WellFormed → s.Bounded levels →
      (∀ a ∈ as, ∀ b ∈ bs, s.Descent levels passed a b) → (∀ p ∈ passed, s.Has p) →
      s.size = size →
      (∀ a ∈ as, (size - passed.length) * (levels + 1) + a.depth + 1 ≤ fuel) →
      ∃ out, unifyAll (unifyWithin fuel) s as bs = some out
  | [], bs, s, _, _, _, _, _, _ => by
    refine ⟨.done s, ?_⟩
    cases bs <;> rfl
  | a :: as, [], s, _, _, _, _, _, _ => ⟨.done s, rfl⟩
  | a :: as, b :: bs, s, hs, hb, hd, hp, hsize, hf => by
    have hab := hd a List.mem_cons_self b List.mem_cons_self
    obtain ⟨out, hout⟩ := hstep s a b hs hb hab hp hsize (hf a List.mem_cons_self)
    unfold unifyAll
    rw [hout]
    rcases out with ⟨s₁, _ | e⟩
    · have hrun : Unifies s [(a, b)] (.done s₁) :=
        unifies_of_unifyWithin fuel s a b _ hout [] _ (.done s₁)
      have hpairs : s.CoversPairs [(a, b)] := by
        intro p hp
        rw [List.mem_singleton.1 hp]
        exact ⟨hab.coversLeft, hab.coversRight⟩
      have hmoves : Moves s s₁ := hrun.moves hs hpairs
      have hb₁ : s₁.Bounded levels :=
        hrun.bindsOnly (Ty.hereditary_depth_le levels) hb
          (List.forall_mem_singleton.2 ⟨hab.levelsLeft, hab.levelsRight⟩)
      have hsize₁ : s₁.size = s.size := hrun.size_eq
      exact exists_unifyAll_eq hstep as bs s₁ (hmoves.wellFormed hs) hb₁
        (fun a' ha' b' hb' =>
          (hd a' (List.mem_cons_of_mem _ ha') b' (List.mem_cons_of_mem _ hb')).moves hmoves)
        (fun p h => hmoves.has (hp p h)) (hsize₁.trans hsize)
        fun a' ha' => hf a' (List.mem_cons_of_mem _ ha')
    · exact ⟨_, rfl⟩

/-- **Unification comes to an end** within as many steps as there are levels below the classes
that have not been passed. -/
theorem exists_unifyWithin_eq {levels size : Nat} : ∀ (fuel : Nat) (passed : List TyVar) (s : Store)
    (a b : Ty), s.WellFormed → s.Bounded levels → s.Descent levels passed a b → passed.Nodup →
    (∀ p ∈ passed, s.Has p) → s.size = size →
    (size - passed.length) * (levels + 1) + a.depth + 1 ≤ fuel →
    ∃ out, unifyWithin fuel s a b = some out
  | 0, _, _, _, _, _, _, _, _, _, _, hf => by omega
  | fuel + 1, passed, s, a, b, hs, hb, hd, hn, hp, hsize, hf => by
    rcases htops : s.tops a b with ⟨⟨a', b'⟩, s'⟩
    obtain ⟨htidy, hca, hcb, ha', hb'⟩ := tops_spec hs hd.coversLeft hd.coversRight htops
    have hs' := htidy.moves.wellFormed hs
    have hsize' : s'.size = size := by
      rw [← hsize, ← size_tops (s := s) (a := a) (b := b), htops]
    rw [unifyWithin_succ fuel htops]
    cases hcmp : Comparison.of a' b' with
    | agree => exact ⟨_, rfl⟩
    | bind v t => exact ⟨_, rfl⟩
    | structural =>
      dsimp only
      by_cases hshape : a'.shape = b'.shape ∧ a'.children.length = b'.children.length
      swap
      · rw [if_neg hshape]
        exact ⟨_, rfl⟩
      rw [if_pos hshape]
      have hlevels : ∀ c ∈ b'.children, c.depth ≤ levels := by
        intro c hc
        have := depth_shallow_le hb hd.levelsRight
        have := Ty.depth_lt_of_mem_children hc
        rw [hb'] at this
        omega
      have hchildren : ∀ passed' : List TyVar, s.Beyond passed' a' → a'.depth ≤ levels →
          ∀ c ∈ a'.children, ∀ d ∈ b'.children, s'.Descent levels passed' c d := by
        intro passed' hbeyond hda c hc d hd
        have := Ty.depth_lt_of_mem_children hc
        exact ⟨hca.of_mem_children hc, hcb.of_mem_children hd, by omega, hlevels d hd,
          (hbeyond.child hc).moves htidy.moves⟩
      have hnv := (not_isVar_of_structural hcmp).1
      rw [ha'] at hnv
      rcases hd.pass hs hb hnv with heq | ⟨r, hr, hnew, hbeyond, hdepth⟩
      · -- The type was no variable, and its children have fewer levels.
        have haa : a' = a := ha'.trans heq
        have hda := hd.levelsLeft
        refine exists_unifyAll_eq (fun s a b hs hb hd hp hsize hf =>
            exists_unifyWithin_eq fuel passed s a b hs hb hd hn hp hsize hf)
          _ _ s' hs' (htidy.bindsOnly hb)
          (hchildren passed (haa ▸ hd.beyond) (by rw [haa]; omega))
          (fun p h => htidy.moves.has (hp p h)) hsize' fun c hc => ?_
        have := Ty.depth_lt_of_mem_children hc
        rw [haa] at this
        omega
      · -- A class is passed, which pays for all levels of its binding.
        rw [← ha'] at hbeyond hdepth
        have hn' : (r :: passed).Nodup := List.nodup_cons.2 ⟨hnew, hn⟩
        have hp' : ∀ p ∈ r :: passed, s.Has p := by
          intro p h
          rcases List.mem_cons.1 h with rfl | h
          · exact hr
          · exact hp p h
        have hlen : passed.length + 1 ≤ size := by
          have := length_le_size hn' hp'
          rw [hsize] at this
          simpa using this
        refine exists_unifyAll_eq (fun s a b hs hb hd hp hsize hf =>
            exists_unifyWithin_eq fuel (r :: passed) s a b hs hb hd hn' hp hsize hf)
          _ _ s' hs' (htidy.bindsOnly hb) (hchildren (r :: passed) hbeyond hdepth)
          (fun p h => htidy.moves.has (hp' p h)) hsize' fun c hc => ?_
        have hc := Ty.depth_lt_of_mem_children hc
        have hone : (size - passed.length) * (levels + 1) =
            (size - (r :: passed).length) * (levels + 1) + (levels + 1) := by
          rw [List.length_cons, ← Nat.succ_mul]
          congr 1
          omega
        omega

/-! ### Unification -/

theorem le_foldl_max {α : Type} (f : α → Nat) : ∀ (xs : List α) (n : Nat),
    n ≤ xs.foldl (fun d x => max d (f x)) n ∧
      ∀ x ∈ xs, f x ≤ xs.foldl (fun d x => max d (f x)) n
  | [], n => ⟨Nat.le_refl n, fun _ h => by cases h⟩
  | y :: ys, n => by
    obtain ⟨hn, hxs⟩ := le_foldl_max f ys (max n (f y))
    rw [List.foldl_cons]
    refine ⟨by omega, fun x hx => ?_⟩
    rcases List.mem_cons.1 hx with rfl | hx
    · omega
    · exact hxs x hx

/-- **`unify` is unification without a bound.** -/
theorem unifies_unify (hs : s.WellFormed) (ha : s.Covers a) (hb : s.Covers b) :
    Unifies s [(a, b)] (s.unify a b) := by
  obtain ⟨levels, hlevels⟩ : ∃ n, n = s.slots.foldl (fun d slot => max d (slotDepth slot))
      (max a.depth b.depth) := ⟨_, rfl⟩
  have hdepth : s.unifyDepth a b = (s.size + 1) * (levels + 1) := by
    rw [hlevels]
    rfl
  rw [← Array.foldl_toList] at hlevels
  obtain ⟨hab, hslots⟩ := le_foldl_max slotDepth s.slots.toList (max a.depth b.depth)
  rw [← hlevels] at hab hslots
  have hbounded : s.Bounded levels := fun v t ht =>
    hslots (.bound t) (Array.mem_toList_iff.2 (Array.mem_of_getElem? ht))
  obtain ⟨out, hout⟩ := exists_unifyWithin_eq (s.unifyDepth a b) [] s a b hs hbounded
    ⟨ha, hb, by omega, by omega, fun p hp => by cases hp⟩ List.nodup_nil
    (fun p hp => by cases hp) rfl (by rw [hdepth, Nat.succ_mul]; simp; omega)
  rw [unify, hout]
  exact unifies_of_unifyWithin _ s a b out hout [] out (follows_nil out)

theorem coversPairs_singleton (ha : s.Covers a) (hb : s.Covers b) : s.CoversPairs [(a, b)] := by
  intro p hp
  rw [List.mem_singleton.1 hp]
  exact ⟨ha, hb⟩

theorem moves_unify (hs : s.WellFormed) (ha : s.Covers a) (hb : s.Covers b) :
    Moves s (s.unify a b).store :=
  (unifies_unify hs ha hb).moves hs (coversPairs_singleton ha hb)

/-- Unification binds to parts of the two types and of the bindings that there are. -/
theorem bindsOnly_unify {P : Ty → Prop} (hP : Ty.Hereditary P) (hbinds : s.BindsOnly P) (ha : P a)
    (hb : P b) : (s.unify a b).store.BindsOnly P := by
  unfold unify
  cases hunify : unifyWithin (s.unifyDepth a b) s a b with
  | none => exact hbinds
  | some out =>
    have hrun := unifies_of_unifyWithin _ s a b out hunify [] out (follows_nil out)
    exact hrun.bindsOnly hP hbinds (List.forall_mem_singleton.2 ⟨ha, hb⟩)

/-- Binding a variable that is not bound binds its root to the type that is looked up. -/
theorem bind_of_root {k : Nat} (hs : s.WellFormed) (hv : s.Has v) (ht : s.Covers t)
    (hk : s.slot? (s.root v) = some (.root k)) :
    ∃ s₁ s₂, Tidies s s₁ ∧ Tidies s₁ s₂ ∧ s₂ = (s₁.shallow t).2 ∧
      s.bind v t = s₂.bindRoot (s.root v) (s₁.shallow t).1 ∧
      s₂.slot? (s.root v) = some (.root k) ∧ s₂.Covers (s₁.shallow t).1 ∧
      ∀ w, (s₁.shallow t).1 = .var w → ∃ j, s₂.slot? w = some (.root j) := by
  have htidy := tidies_find hs hv
  have hs₁ := htidy.moves.wellFormed hs
  have hc := htidy.moves.covers ht
  have htidy' := tidies_shallow hs₁ hc
  have hk₁ := htidy.root_iff.1 hk
  refine ⟨(s.find v).2, _, htidy, htidy', rfl, ?_, htidy'.root_iff.1 hk₁,
    htidy'.moves.covers (covers_shallow hs₁ hc), fun w hw => root_after_shallow hs₁ hc hw⟩
  have hroot : (s.find v).1 = s.root v := rfl
  unfold bind
  simp only [hroot]
  rw [hk₁]

/-- Binding a variable that is bound unifies its binding. -/
theorem bind_of_bound (hs : s.WellFormed) (hv : s.Has v)
    (hu : s.slot? (s.root v) = some (.bound u)) :
    ∃ s₁, Tidies s s₁ ∧ s.bind v t = s₁.unify u t ∧ s₁.Covers u := by
  have htidy := tidies_find hs hv
  have hu₁ := htidy.bound_iff.1 hu
  refine ⟨(s.find v).2, htidy, ?_, (htidy.moves.wellFormed hs).covered _ u hu₁⟩
  have hroot : (s.find v).1 = s.root v := rfl
  unfold bind
  simp only [hroot]
  rw [hu₁]

/-- Binding moves the store, whether it succeeds or not. -/
theorem moves_bind (hs : s.WellFormed) (hv : s.Has v) (ht : s.Covers t) :
    Moves s (s.bind v t).store := by
  rcases (hs.leads_root hv).slot_root with ⟨k, hk⟩ | ⟨u, hu⟩
  · obtain ⟨s₁, s₂, htidy, htidy', -, hbind, hk₂, hc, hroots⟩ := bind_of_root hs hv ht hk
    have hmoves : Moves s s₂ := htidy.moves.trans htidy'.moves
    rw [hbind]
    exact hmoves.trans (moves_bindRoot (hmoves.wellFormed hs) hk₂ hc hroots)
  · obtain ⟨s₁, htidy, hbind, hcu⟩ := bind_of_bound (t := t) hs hv hu
    rw [hbind]
    exact htidy.moves.trans (moves_unify (htidy.moves.wellFormed hs) hcu (htidy.moves.covers ht))

/-- Binding binds to parts of the type and of the bindings that there are. -/
theorem bindsOnly_bind {P : Ty → Prop} (hP : Ty.Hereditary P) (hbinds : s.BindsOnly P) (h : P t) :
    (s.bind v t).store.BindsOnly P := by
  have hfound : (s.find v).2.BindsOnly P := hbinds.shallow_store (.var v)
  unfold bind
  dsimp only
  split
  · rename_i u hu
    exact bindsOnly_unify hP hfound (hfound _ u hu) h
  · exact bindsOnly_bindRoot (hfound.shallow_store t) (hfound.shallow hP h)

end Store
end TypeResolution
