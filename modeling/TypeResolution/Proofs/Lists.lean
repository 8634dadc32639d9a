/-
# Lists whose items are related in turn

What is said of two lists whose items are related one by one (`List.Forall₂`): what is in one of
them has a counterpart in the other, the lists may change places, and they stay so when both are
sorted by orders that agree.

Key theorems: `exists_of_forall₂`, `forall₂_flip_of_mem`, `forall₂_mergeSort`,
`find?_of_forall₂`.
-/
import Mathlib.Data.List.Forall2

namespace TypeResolution

variable {α β : Type} {R : α → β → Prop} {S : β → α → Prop} {xs : List α} {ys : List β}

theorem exists_of_forall₂ (h : List.Forall₂ R xs ys) :
    (∀ x ∈ xs, ∃ y ∈ ys, R x y) ∧ ∀ y ∈ ys, ∃ x ∈ xs, R x y := by
  induction h with
  | nil => exact ⟨nofun, nofun⟩
  | cons hxy _ ih =>
    refine ⟨List.forall_mem_cons.2 ⟨⟨_, List.mem_cons_self, hxy⟩, fun x hx => ?_⟩,
      List.forall_mem_cons.2 ⟨⟨_, List.mem_cons_self, hxy⟩, fun y hy => ?_⟩⟩
    · obtain ⟨y, hy, hR⟩ := ih.1 x hx
      exact ⟨y, List.mem_cons_of_mem _ hy, hR⟩
    · obtain ⟨x, hx, hR⟩ := ih.2 y hy
      exact ⟨x, List.mem_cons_of_mem _ hx, hR⟩

/-- Items that are related pairwise are so the other way round, if each of the first list says
so. -/
theorem forall₂_flip_of_mem (h : List.Forall₂ R xs ys) (hRS : ∀ x ∈ xs, ∀ y, R x y → S y x) :
    List.Forall₂ S ys xs := by
  induction h with
  | nil => exact .nil
  | cons hxy _ ih =>
    obtain ⟨hx, hxs⟩ := List.forall_mem_cons.1 hRS
    exact .cons (hx _ hxy) (ih hxs)

/-- Lists whose items are related are sorted alike by orders that agree on them. -/
theorem forall₂_mergeSort {le : α → α → Bool} {le' : β → β → Bool} (h : List.Forall₂ R xs ys)
    (hle : ∀ {a b a' b'}, R a b → R a' b' → le a a' = le' b b') :
    List.Forall₂ R (xs.mergeSort le) (ys.mergeSort le') := by
  obtain ⟨hlength, hpairs⟩ := List.forall₂_iff_zip.1 h
  -- Both lists come from the one list of pairs, which is sorted by its first components.
  have hmem : ∀ p ∈ xs.zip ys, R p.1 p.2 := fun p hp => hpairs hp
  have hfirst := List.map_mergeSort (r := fun p q : α × β => le p.1 q.1) (s := le)
    (f := Prod.fst) (l := xs.zip ys) fun _ _ _ _ => rfl
  have hsecond := List.map_mergeSort (r := fun p q : α × β => le p.1 q.1) (s := le')
    (f := Prod.snd) (l := xs.zip ys) fun p hp q hq => hle (hmem p hp) (hmem q hq)
  rw [List.map_fst_zip (Nat.le_of_eq hlength)] at hfirst
  rw [List.map_snd_zip (Nat.le_of_eq hlength.symm)] at hsecond
  rw [← hfirst, ← hsecond, List.forall₂_map_left_iff, List.forall₂_map_right_iff, List.forall₂_same]
  exact fun p hp => hmem p (List.mem_mergeSort.1 hp)

section Tests

variable {p : α → Bool} {q : β → Bool} (h : List.Forall₂ R xs ys)
  (hpq : ∀ {a b}, R a b → p a = q b)
include h hpq

theorem all_eq_of_forall₂ : xs.all p = ys.all q := by
  induction h with
  | nil => rfl
  | cons hxy _ ih => rw [List.all_cons, List.all_cons, hpq hxy, ih]

theorem any_eq_of_forall₂ : xs.any p = ys.any q := by
  induction h with
  | nil => rfl
  | cons hxy _ ih => rw [List.any_cons, List.any_cons, hpq hxy, ih]

/-- The first item that passes has the first one that passes as its counterpart. -/
theorem find?_of_forall₂ : Option.Rel R (xs.find? p) (ys.find? q) := by
  induction h with
  | nil => exact .none
  | @cons x y _ _ hxy _ ih =>
    rw [List.find?_cons, List.find?_cons, ← hpq hxy]
    cases p x with
    | true => exact .some hxy
    | false => exact ih

end Tests

section Tests

variable {p q : α → Bool} (h : ∀ x ∈ xs, p x = q x)
include h

theorem all_congr_of_mem : xs.all p = xs.all q :=
  all_eq_of_forall₂ (R := fun x y => p x = q y) (List.forall₂_same.2 h) id

theorem any_congr_of_mem : xs.any p = xs.any q :=
  any_eq_of_forall₂ (R := fun x y => p x = q y) (List.forall₂_same.2 h) id

end Tests

theorem optionRel_map {γ δ : Type} {T : γ → δ → Prop} {f : α → γ} {g : β → δ} {x : Option α}
    {y : Option β} (h : Option.Rel R x y) (hfg : ∀ {a b}, R a b → T (f a) (g b)) :
    Option.Rel T (x.map f) (y.map g) := by
  cases h with
  | none => exact .none
  | some h => exact .some (hfg h)

end TypeResolution
