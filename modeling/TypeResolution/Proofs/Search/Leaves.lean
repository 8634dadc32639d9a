/-
# Exhaustive search

The exhaustive search has no steps to count and leaves nothing out: a path is followed until it
has ended, and at a choice every alternative is entered, from the work and the store that the
choice was met with. Its leaves are the good ends (`Search.Leaf`), each at the positions of the
alternatives that lead to it. Of two leaves the earlier one is that which takes the earlier
alternative at the first choice where they part (`Search.Earlier`).

Leaves depend on the slots of the store only (`yields_congr`), and are never penalised less than
the work that they are reached from (`Leaf.penalty_le`).

Key definitions: `Search.Leaf`, `Search.Yields`, `Search.Earlier`.
Key theorems: `Search.yields_congr`, `Search.yields_choose`, `Search.Leaf.penalty_le`,
`Search.earlier_snoc_succ`.
-/
import TypeResolution.Proofs.Search.Parallel
import TypeResolution.Proofs.Search.Record

namespace TypeResolution
namespace Search

variable {ctx : Context} {s s' t : Store} {w w' v rest : Work} {goal : Goal}
variable {point : BranchPoint} {path : List Nat} {f : Found}

/-! ### Leaves -/

/-- The exhaustive search comes from a store and a work to a good end, by entering at each choice
the alternative at the next position of the list. -/
inductive Leaf (ctx : Context) : Store → Work → List Nat → Store → Work → Prop where
  | complete {s : Store} {w : Work} : w.turn ctx s = .complete → Leaf ctx s w [] s w
  | simplify {s s' t : Store} {w w' v rest : Work} {goal : Goal} {path : List Nat} :
      w.turn ctx s = .simplify goal rest → Path.simplify ctx goal rest s = (.open w', s') →
      Leaf ctx s' w' path t v → Leaf ctx s w path t v
  | choose {s t : Store} {w v rest : Work} {point : BranchPoint} {a : Alternative} {i : Nat}
      {path : List Nat} :
      w.turn ctx s = .choose point rest → point.offer.alternatives[i]? = some a →
      Leaf ctx (a.enter point.locator rest s).2 (a.enter point.locator rest s).1 path t v →
      Leaf ctx s w (i :: path) t v

/-- What the exhaustive search finds at a leaf. -/
def Yields (ctx : Context) (s : Store) (w : Work) (path : List Nat) (f : Found) : Prop :=
  ∃ t v, Leaf ctx s w path t v ∧ f = v.toFound ctx t

theorem yields_complete (h : w.turn ctx s = .complete) :
    Yields ctx s w path f ↔ path = [] ∧ f = w.toFound ctx s := by
  constructor
  · rintro ⟨t, v, hleaf, hf⟩
    cases hleaf with
    | complete => exact ⟨rfl, hf⟩
    | simplify hturn => rw [h] at hturn; cases hturn
    | choose hturn => rw [h] at hturn; cases hturn
  · rintro ⟨rfl, hf⟩
    exact ⟨s, w, .complete h, hf⟩

theorem yields_simplify (h : w.turn ctx s = .simplify goal rest)
    (hs : Path.simplify ctx goal rest s = (.open w', s')) :
    Yields ctx s w path f ↔ Yields ctx s' w' path f := by
  constructor
  · rintro ⟨t, v, hleaf, hf⟩
    cases hleaf with
    | complete hturn => rw [h] at hturn; cases hturn
    | simplify hturn hs' hleaf =>
      rw [h] at hturn
      obtain ⟨rfl, rfl⟩ := Turn.simplify.inj hturn
      rw [hs] at hs'
      obtain ⟨hw, rfl⟩ := Prod.mk.inj hs'
      obtain rfl := Path.open.inj hw
      exact ⟨t, v, hleaf, hf⟩
    | choose hturn => rw [h] at hturn; cases hturn
  · rintro ⟨t, v, hleaf, hf⟩
    exact ⟨t, v, .simplify h hs hleaf, hf⟩

theorem not_yields_of_failed {failure : Failure} (h : w.turn ctx s = .simplify goal rest)
    (hs : Path.simplify ctx goal rest s = (.failed failure, s')) : ¬ Yields ctx s w path f := by
  rintro ⟨t, v, hleaf, -⟩
  cases hleaf with
  | complete hturn => rw [h] at hturn; cases hturn
  | simplify hturn hs' hleaf =>
    rw [h] at hturn
    obtain ⟨rfl, rfl⟩ := Turn.simplify.inj hturn
    rw [hs] at hs'
    cases hs'
  | choose hturn => rw [h] at hturn; cases hturn

theorem not_yields_of_fail {e : TypeError} (h : w.turn ctx s = .fail e) :
    ¬ Yields ctx s w path f := by
  rintro ⟨t, v, hleaf, -⟩
  cases hleaf with
  | complete hturn => rw [h] at hturn; cases hturn
  | simplify hturn => rw [h] at hturn; cases hturn
  | choose hturn => rw [h] at hturn; cases hturn

/-- A leaf is given by the way to it. -/
theorem Leaf.unique {t' : Store} {v' : Work} (h : Leaf ctx s w path t v)
    (h' : Leaf ctx s w path t' v') : t = t' ∧ v = v' := by
  induction h with
  | complete hturn =>
    cases h' with
    | complete => exact ⟨rfl, rfl⟩
    | simplify hturn' => rw [hturn] at hturn'; cases hturn'
  | simplify hturn hsimp _ ih =>
    cases h' with
    | complete hturn' => rw [hturn] at hturn'; cases hturn'
    | simplify hturn' hsimp' hleaf' =>
      rw [hturn] at hturn'
      obtain ⟨rfl, rfl⟩ := Turn.simplify.inj hturn'
      rw [hsimp] at hsimp'
      obtain ⟨hpath, rfl⟩ := Prod.mk.inj hsimp'
      obtain rfl := Path.open.inj hpath
      exact ih hleaf'
    | choose hturn' => rw [hturn] at hturn'; cases hturn'
  | choose hturn ha _ ih =>
    cases h' with
    | simplify hturn' => rw [hturn] at hturn'; cases hturn'
    | choose hturn' ha' hleaf' =>
      rw [hturn] at hturn'
      obtain ⟨rfl, rfl⟩ := Turn.choose.inj hturn'
      obtain rfl := Option.some.inj (ha.symm.trans ha')
      exact ih hleaf'

theorem Yields.unique {f' : Found} (h : Yields ctx s w path f) (h' : Yields ctx s w path f') :
    f = f' := by
  obtain ⟨t, v, hleaf, rfl⟩ := h
  obtain ⟨t', v', hleaf', rfl⟩ := h'
  obtain ⟨rfl, rfl⟩ := hleaf.unique hleaf'
  rfl

/-- The leaves below a choice are those below its alternatives. -/
theorem yields_choose (h : w.turn ctx s = .choose point rest) :
    Yields ctx s w path f ↔ ∃ i a path', path = i :: path' ∧
      point.offer.alternatives[i]? = some a ∧
      Yields ctx (a.enter point.locator rest s).2 (a.enter point.locator rest s).1 path' f := by
  constructor
  · rintro ⟨t, v, hleaf, hf⟩
    cases hleaf with
    | complete hturn => rw [h] at hturn; cases hturn
    | simplify hturn => rw [h] at hturn; cases hturn
    | choose hturn ha hleaf =>
      rw [h] at hturn
      obtain ⟨rfl, rfl⟩ := Turn.choose.inj hturn
      exact ⟨_, _, _, rfl, ha, t, v, hleaf, hf⟩
  · rintro ⟨i, a, path', rfl, ha, t, v, hleaf, hf⟩
    exact ⟨t, v, .choose h ha hleaf, hf⟩

/-! ### Leaves and bookkeeping -/

/-- Stores of the same slots that have been written to equally often since some moment. -/
def Twin (i j : Nat) (s t : Store) : Prop := s.slots = t.slots ∧ s.version + i = t.version + j

theorem steady_twin (i j : Nat) : Steady (Twin i j) where
  slots h := h.1
  write := by
    rintro s t ⟨hslots, hversion⟩ v c
    unfold Twin Store.write
    rw [Store.slot?_congr hslots]
    split
    · exact ⟨hslots, hversion⟩
    · refine ⟨by simp only [hslots], ?_⟩
      show s.version + 1 + i = t.version + 1 + j
      omega
  fresh := by
    rintro s t ⟨hslots, hversion⟩
    exact ⟨by simp only [Store.fresh, hslots], hversion⟩
  version := by
    rintro s t s' t' ⟨-, h⟩ ⟨-, h'⟩
    omega

theorem Leaf.twin (h : Leaf ctx s w path s' v) {i j : Nat} (ht : Twin i j s t) :
    ∃ t', Leaf ctx t w path t' v ∧ s'.slots = t'.slots := by
  induction h generalizing t with
  | complete hturn =>
    rw [turn_congr ctx _ ht.1] at hturn
    exact ⟨t, .complete hturn, ht.1⟩
  | @simplify s s₁ s' w w₁ v rest goal path hturn hsimp _ ih =>
    rw [turn_congr ctx _ ht.1] at hturn
    obtain ⟨hpath, hstore⟩ := (steady_twin i j).alike_pathSimplify ctx ht goal rest
    rw [hsimp] at hpath hstore
    obtain ⟨t', hleaf, hslots⟩ := ih hstore
    have hsimp' : Path.simplify ctx goal rest t = (.open w₁, (Path.simplify ctx goal rest t).2) :=
      Prod.ext hpath.symm rfl
    exact ⟨t', .simplify hturn hsimp' hleaf, hslots⟩
  | @choose s s' w v rest point a k path hturn ha _ ih =>
    rw [turn_congr ctx _ ht.1] at hturn
    obtain ⟨hwork, hstore⟩ := alike_enter (steady_twin i j).toParallel ht a point.locator rest
    obtain ⟨t', hleaf, hslots⟩ := ih hstore
    rw [hwork] at hleaf
    exact ⟨t', .choose hturn ha hleaf, hslots⟩

/-- What the search finds depends on the slots of the store only. -/
theorem yields_congr (h : s.slots = t.slots) : Yields ctx s w path f ↔ Yields ctx t w path f := by
  have hone : ∀ {s t : Store}, s.slots = t.slots → Yields ctx s w path f →
      Yields ctx t w path f := by
    rintro s t h ⟨s', v, hleaf, hf⟩
    obtain ⟨t', hleaf', hslots⟩ := hleaf.twin (i := t.version) (j := s.version)
      ⟨h, Nat.add_comm _ _⟩
    exact ⟨t', v, hleaf', hf.trans (toFound_congr ctx v hslots)⟩
  exact ⟨hone h, hone h.symm⟩

/-! ### What is recorded on the way to a leaf -/

/-- No penalty is taken back. -/
theorem Leaf.penalty_le (h : Leaf ctx s w path t v) (hw : w.penalty ≤ maxPenalty) :
    w.penalty ≤ v.penalty := by
  induction h with
  | complete => exact Nat.le_refl _
  | simplify hturn hsimp _ ih =>
    have heq := (penalty_pathSimplify hsimp).trans (Work.sameRecord_simplify hturn).penalty
    rw [heq] at ih
    exact ih hw
  | @choose s t w v rest point a i path hturn _ _ ih =>
    rw [Alternative.penalty_enter, (Work.sameRecord_choose hturn).penalty] at ih
    exact Nat.le_trans (le_addPenalty _ hw) (ih (addPenalty_le _ _))

theorem Yields.penalty_le (h : Yields ctx s w path f) (hw : w.penalty ≤ maxPenalty) :
    w.penalty ≤ f.penalty := by
  obtain ⟨t, v, hleaf, rfl⟩ := h
  exact hleaf.penalty_le hw

/-- No reference is settled twice on the way to a leaf. -/
theorem Leaf.nodupChoices (h : Leaf ctx s w path t v) (hw : w.NodupChoices) : v.NodupChoices := by
  induction h with
  | complete => exact hw
  | simplify hturn hsimp _ ih =>
    refine ih (nodupChoices_pathSimplify hsimp ?_)
    unfold Work.NodupChoices
    rw [(Work.sameRecord_simplify hturn).choices]
    exact hw
  | @choose s t w v rest point a i path hturn _ _ ih =>
    refine ih (a.nodupChoices_enter point.locator s ?_)
    unfold Work.NodupChoices
    rw [(Work.sameRecord_choose hturn).choices]
    exact hw

/-! ### The order of leaves -/

/-- A path parts from another one at an earlier alternative. -/
def Earlier : List Nat → List Nat → Prop
  | i :: p, j :: q => i < j ∨ (i = j ∧ Earlier p q)
  | _, _ => False

@[simp] theorem not_earlier_nil (p : List Nat) : ¬ Earlier p [] := by
  cases p <;> exact id

theorem Earlier.asymm : ∀ {p q : List Nat}, Earlier p q → ¬ Earlier q p
  | i :: p, j :: q, h, h' => by
    rcases h with h | ⟨rfl, h⟩
    · rcases h' with h' | ⟨rfl, -⟩
      · exact Nat.lt_asymm h h'
      · exact Nat.lt_irrefl _ h
    · rcases h' with h' | ⟨-, h'⟩
      · exact Nat.lt_irrefl _ h'
      · exact h.asymm h'

/-- Before the first alternative of a choice there is what is before the choice. -/
theorem earlier_snoc_zero {p : List Nat} : ∀ {q : List Nat},
    Earlier p (q ++ [0]) ↔ Earlier p q := by
  induction p with
  | nil =>
    intro q
    cases q <;> exact Iff.rfl
  | cons i p ih =>
    intro q
    cases q with
    | nil =>
      show i < 0 ∨ (i = 0 ∧ Earlier p []) ↔ False
      simp
    | cons j q =>
      show i < j ∨ (i = j ∧ Earlier p (q ++ [0])) ↔ i < j ∨ (i = j ∧ Earlier p q)
      rw [ih]

/-- Before the next alternative there is what is before the one or below it. -/
theorem earlier_snoc_succ {p : List Nat} {k : Nat} : ∀ {q : List Nat},
    Earlier p (q ++ [k + 1]) ↔ Earlier p (q ++ [k]) ∨ q ++ [k] <+: p := by
  induction p with
  | nil =>
    intro q
    cases q <;> simp [Earlier]
  | cons i p ih =>
    intro q
    cases q with
    | nil =>
      show i < k + 1 ∨ (i = k + 1 ∧ Earlier p []) ↔
        (i < k ∨ (i = k ∧ Earlier p [])) ∨ [k] <+: i :: p
      simp only [not_earlier_nil, and_false, or_false, List.cons_prefix_cons, List.nil_prefix,
        and_true]
      omega
    | cons j q =>
      show i < j ∨ (i = j ∧ Earlier p (q ++ [k + 1])) ↔
        (i < j ∨ (i = j ∧ Earlier p (q ++ [k]))) ∨ j :: (q ++ [k]) <+: i :: p
      rw [ih, List.cons_prefix_cons]
      constructor
      · rintro (h | ⟨rfl, h | h⟩)
        · exact .inl (.inl h)
        · exact .inl (.inr ⟨rfl, h⟩)
        · exact .inr ⟨rfl, h⟩
      · rintro ((h | ⟨rfl, h⟩) | ⟨rfl, h⟩)
        · exact .inl h
        · exact .inr ⟨rfl, .inl h⟩
        · exact .inr ⟨rfl, .inr h⟩

end Search
end TypeResolution
