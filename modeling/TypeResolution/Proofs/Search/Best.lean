/-
# The best leaves

Of the leaves that count, the search keeps those of the lowest penalty that it has come to, in
their order (`Search.Keeps`). A leaf that is penalised more than one that is known makes no
difference, and so a part of the search in which all leaves are penalised more can be left out
(`Keeps.extend`); a new leaf is kept, dropped or takes the place of the others
(`Keeps.add`).

When all leaves have been seen, those of the lowest rank are compared. The answer is the first
of them if all of them give the same types and declarations, and an ambiguity if not
(`Keeps.settles`).

Key definitions: `Search.Best`, `Search.First`, `Search.SameAssignment`, `Search.Settles`,
`Search.Keeps`.
Key theorems: `Search.Keeps.extend`, `Search.Keeps.add`, `Search.sameAssignment_iff`,
`Search.Keeps.settles`, `Search.Settles.solved_iff`, `Search.Settles.ambiguous_iff`.
-/
import TypeResolution.Proofs.Search.Leaves

namespace TypeResolution
namespace Search

/-- Leaves with the ways to them. -/
abbrev Leaves := List Nat → Found → Prop

variable {L L' : Leaves} {P Q : List Nat} {f g : Found} {found : List Found}

/-! ### Ranks and assignments -/

/-- A leaf of the lowest rank. -/
def Best (L : Leaves) (P : List Nat) (f : Found) : Prop :=
  L P f ∧ ∀ Q g, L Q g → f.rankLe g = true

/-- The earliest leaf of the lowest rank. -/
def First (L : Leaves) (P : List Nat) (f : Found) : Prop :=
  Best L P f ∧ ∀ Q g, Best L Q g → Q = P ∨ Earlier P Q

theorem First.unique (h : First L P f) (h' : First L Q g) : P = Q := by
  rcases h.2 Q g h'.1 with heq | hearlier
  · exact heq.symm
  · rcases h'.2 P f h.1 with heq | hearlier'
    · exact heq
    · exact absurd hearlier' hearlier.asymm

/-- The solutions give the variables the same types and the references the same declarations. -/
def SameAssignment (f g : Found) : Prop := f.types = g.types ∧ ∀ site, f.decl? site = g.decl? site

theorem SameAssignment.symm (h : SameAssignment f g) : SameAssignment g f :=
  ⟨h.1.symm, fun site => (h.2 site).symm⟩

theorem SameAssignment.trans {k : Found} (h : SameAssignment f g) (hg : SameAssignment g k) :
    SameAssignment f k := ⟨h.1.trans hg.1, fun site => (h.2 site).trans (hg.2 site)⟩

/-- No reference is settled twice. -/
def Found.NodupChoices (f : Found) : Prop := (f.choices.map (·.1)).Nodup

theorem Found.penalty_le (h : f.rankLe g = true) : f.penalty ≤ g.penalty := by
  simp only [rankLe, Bool.or_eq_true, Bool.and_eq_true, decide_eq_true_eq, beq_iff_eq] at h
  omega

theorem Found.rankLe_of_lt (h : f.penalty < g.penalty) : f.rankLe g = true := by
  simp [rankLe, h]

theorem lookup_isSome_iff {κ α : Type} [DecidableEq κ] (k : κ) : ∀ items : List (κ × α),
    (items.lookup k).isSome = true ↔ k ∈ items.map (·.1)
  | [] => by simp
  | (n, a) :: rest => by
    by_cases h : k = n
    · subst h
      simp
    · have hb : (k == n) = false := by simpa using h
      simp [List.lookup_cons, hb, h, lookup_isSome_iff k rest]

theorem lookup_eq_some_of_mem {κ α : Type} [DecidableEq κ] {k : κ} {a : α} :
    ∀ {items : List (κ × α)}, (items.map (·.1)).Nodup → (k, a) ∈ items → items.lookup k = some a
  | (n, b) :: rest, hn, h => by
    obtain ⟨hnot, hrest⟩ := List.nodup_cons.1 hn
    rcases List.mem_cons.1 h with heq | h
    · obtain ⟨rfl, rfl⟩ := Prod.mk.inj heq
      exact List.lookup_cons_self
    · have hne : k ≠ n := fun heq => hnot (heq ▸ List.mem_map.2 ⟨(k, a), h, rfl⟩)
      have hb : (k == n) = false := by simpa using hne
      rw [List.lookup_cons, hb]
      exact lookup_eq_some_of_mem hrest h

theorem Found.decl?_eq_none_iff {site : NodeId} :
    f.decl? site = none ↔ site ∉ f.choices.map (·.1) := by
  rw [← lookup_isSome_iff, Found.decl?]
  cases f.choices.lookup site <;> simp

/-- Whether solutions agree is told from the references of one of them, since both settle each
reference once. -/
theorem sameAssignment_iff (hf : f.NodupChoices) (hg : g.NodupChoices) :
    f.sameAssignment g = true ↔ SameAssignment f g := by
  have hdecl : ∀ {site c}, (site, c) ∈ f.choices → f.decl? site = some c.decl := by
    intro site c h
    rw [Found.decl?, lookup_eq_some_of_mem hf h]
    rfl
  simp only [Found.sameAssignment, Bool.and_eq_true, beq_iff_eq, List.all_eq_true]
  constructor
  · rintro ⟨⟨htypes, hlength⟩, hall⟩
    refine ⟨htypes, fun site => ?_⟩
    have hsub : f.choices.map (·.1) ⊆ g.choices.map (·.1) := by
      intro site hsite
      obtain ⟨⟨site, c⟩, hc, rfl⟩ := List.mem_map.1 hsite
      by_contra hnot
      have := hall _ hc
      rw [Found.decl?_eq_none_iff.2 hnot] at this
      cases this
    have hperm : (f.choices.map (·.1)).Perm (g.choices.map (·.1)) :=
      (List.subperm_of_subset hf hsub).perm_of_length_le (by simp [hlength])
    by_cases hsite : site ∈ f.choices.map (·.1)
    · obtain ⟨⟨site, c⟩, hc, rfl⟩ := List.mem_map.1 hsite
      exact (hdecl hc).trans (hall _ hc).symm
    · rw [Found.decl?_eq_none_iff.2 hsite,
        Found.decl?_eq_none_iff.2 fun h => hsite (hperm.mem_iff.2 h)]
  · rintro ⟨htypes, hsites⟩
    refine ⟨⟨htypes, ?_⟩, fun p hp => (hsites p.1).symm.trans (hdecl hp)⟩
    have hperm : (f.choices.map (·.1)).Perm (g.choices.map (·.1)) := by
      refine (List.perm_ext_iff_of_nodup hf hg).2 fun site => ?_
      rw [← not_iff_not, ← Found.decl?_eq_none_iff, ← Found.decl?_eq_none_iff, hsites site]
    simpa using hperm.length_eq

/-! ### The lowest rank -/

theorem foldl_best_spec (found : List Found) : ∀ f : Found,
    found.foldl (fun best g => if best.rankLe g then best else g) f ∈ f :: found ∧
      ∀ g ∈ f :: found,
        (found.foldl (fun best g => if best.rankLe g then best else g) f).rankLe g = true := by
  induction found with
  | nil =>
    intro f
    refine ⟨List.mem_cons_self, fun g hg => ?_⟩
    rw [List.mem_singleton.1 hg]
    exact f.rankLe_refl
  | cons g found ih =>
    intro f
    rw [List.foldl_cons]
    by_cases hfg : f.rankLe g = true
    · rw [if_pos hfg]
      obtain ⟨hmem, hle⟩ := ih f
      refine ⟨?_, fun h hh => ?_⟩
      · rcases List.mem_cons.1 hmem with heq | hmem
        · rw [heq]
          exact List.mem_cons_self
        · exact List.mem_cons_of_mem _ (List.mem_cons_of_mem _ hmem)
      · rcases List.mem_cons.1 hh with rfl | hh
        · exact hle _ List.mem_cons_self
        · rcases List.mem_cons.1 hh with rfl | hh
          · exact Found.rankLe_trans (hle f List.mem_cons_self) hfg
          · exact hle h (List.mem_cons_of_mem _ hh)
    · have hgf : g.rankLe f = true := (Found.rankLe_total f g).resolve_left hfg
      rw [if_neg hfg]
      obtain ⟨hmem, hle⟩ := ih g
      refine ⟨List.mem_cons_of_mem _ hmem, fun h hh => ?_⟩
      rcases List.mem_cons.1 hh with rfl | hh
      · exact Found.rankLe_trans (hle g List.mem_cons_self) hgf
      · exact hle h hh

/-- The solutions of the lowest rank are those at least as good as all of them. -/
theorem exists_ofLowestRank_eq_filter (found : List Found) (hne : found ≠ []) :
    ∃ best ∈ found, (∀ g ∈ found, best.rankLe g = true) ∧
      ofLowestRank found = found.filter (·.rankLe best) := by
  cases found with
  | nil => exact absurd rfl hne
  | cons f found =>
    obtain ⟨hmem, hle⟩ := foldl_best_spec found f
    exact ⟨_, hmem, hle, rfl⟩

/-! ### Solutions that agree -/

theorem prefix_foldl_dropAgreeing : ∀ (found kept : List Found),
    kept <+: found.foldl dropAgreeing kept
  | [], kept => List.prefix_refl kept
  | f :: found, kept => by
    refine List.IsPrefix.trans ?_ (prefix_foldl_dropAgreeing found (dropAgreeing kept f))
    unfold dropAgreeing
    split
    · exact List.prefix_refl kept
    · exact List.prefix_append kept [f]

/-- Of solutions that agree with the first one only that one is left. -/
theorem distinct_of_agree (h : ∀ g ∈ found, f.sameAssignment g = true) :
    distinct (f :: found) = [f] := by
  show found.foldl dropAgreeing [f] = [f]
  induction found with
  | nil => rfl
  | cons g found ih =>
    obtain ⟨hg, hrest⟩ := List.forall_mem_cons.1 h
    have hdrop : dropAgreeing [f] g = [f] := by simp [dropAgreeing, hg]
    rw [List.foldl_cons, hdrop]
    exact ih hrest

/-- If one does not agree with the first one, at least two are left. -/
theorem distinct_of_disagree (h : ∃ g ∈ found, f.sameAssignment g ≠ true) :
    ∃ g others, distinct (f :: found) = f :: g :: others := by
  show ∃ g others, found.foldl dropAgreeing [f] = f :: g :: others
  induction found with
  | nil => simp at h
  | cons g found ih =>
    rw [List.foldl_cons]
    by_cases hg : f.sameAssignment g = true
    · have hdrop : dropAgreeing [f] g = [f] := by simp [dropAgreeing, hg]
      rw [hdrop]
      refine ih ?_
      obtain ⟨g', hmem, hg'⟩ := h
      rcases List.mem_cons.1 hmem with rfl | hmem
      · exact absurd hg hg'
      · exact ⟨g', hmem, hg'⟩
    · have hdrop : dropAgreeing [f] g = [f, g] := by simp [dropAgreeing, hg]
      rw [hdrop]
      obtain ⟨others, hothers⟩ := prefix_foldl_dropAgreeing found [f, g]
      exact ⟨g, others, hothers.symm⟩

/-! ### What is kept -/

/-- Exactly the leaves of the lowest penalty are kept, the latest first. -/
def Keeps (L : Leaves) (found : List Found) : Prop :=
  ∃ kept : List (List Nat × Found), kept.Pairwise (fun p q => Earlier p.1 q.1) ∧
    found = (kept.map (·.2)).reverse ∧
    ∀ P f, (P, f) ∈ kept ↔ L P f ∧ ∀ Q g, L Q g → f.penalty ≤ g.penalty

theorem exists_least_penalty (h : L P f) :
    ∃ Q g, L Q g ∧ ∀ Q' g', L Q' g' → g.penalty ≤ g'.penalty := by
  obtain ⟨n, hn⟩ : ∃ n, f.penalty = n := ⟨_, rfl⟩
  induction n using Nat.strong_induction_on generalizing P f with
  | _ n ih =>
    by_cases hall : ∀ Q g, L Q g → f.penalty ≤ g.penalty
    · exact ⟨P, f, h, hall⟩
    · obtain ⟨Q, g, hg, hlt⟩ : ∃ Q g, L Q g ∧ g.penalty < f.penalty := by
        by_contra hno
        exact hall fun Q g hg => Nat.le_of_not_lt fun hlt => hno ⟨Q, g, hg, hlt⟩
      exact ih g.penalty (by omega) hg rfl

namespace Keeps

/-- What is kept has one penalty, which is that of the best. -/
theorem bestPenalty_cases (h : Keeps L found) :
    (bestPenalty found = none ∧ found = [] ∧ ∀ P f, ¬ L P f) ∨
      ∃ P f, bestPenalty found = some f.penalty ∧ L P f ∧ ∀ Q g, L Q g → f.penalty ≤ g.penalty := by
  obtain ⟨kept, -, rfl, hkept⟩ := h
  rcases List.eq_nil_or_concat kept with rfl | ⟨rest, ⟨P, f⟩, rfl⟩
  · refine .inl ⟨rfl, rfl, fun P f hf => ?_⟩
    obtain ⟨Q, g, hg, hle⟩ := exists_least_penalty hf
    cases (hkept Q g).2 ⟨hg, hle⟩
  · obtain ⟨hf, hle⟩ := (hkept P f).1 (by simp)
    exact .inr ⟨P, f, by simp [bestPenalty], hf, hle⟩

theorem exists_of_exceeds {penalty : Nat} (h : Keeps L found)
    (he : exceeds penalty (bestPenalty found) = true) : ∃ P f, L P f ∧ f.penalty < penalty := by
  rcases h.bestPenalty_cases with ⟨hnone, -⟩ | ⟨P, f, hsome, hf, -⟩
  · rw [hnone] at he
    cases he
  · rw [hsome] at he
    exact ⟨P, f, hf, by simpa [exceeds] using he⟩

/-- Leaves that are penalised more than one that counts make no difference. -/
theorem extend (h : Keeps L found) (hsub : ∀ P f, L P f → L' P f)
    (hworse : ∀ P f, L' P f → L P f ∨ ∃ Q g, L Q g ∧ g.penalty < f.penalty) : Keeps L' found := by
  obtain ⟨kept, hsorted, hfound, hkept⟩ := h
  refine ⟨kept, hsorted, hfound, fun P f => (hkept P f).trans ⟨?_, ?_⟩⟩
  · rintro ⟨hf, hle⟩
    refine ⟨hsub P f hf, fun Q g hg => ?_⟩
    rcases hworse Q g hg with hg | ⟨Q', g', hg', hlt⟩
    · exact hle Q g hg
    · exact Nat.le_of_lt (Nat.lt_of_le_of_lt (hle Q' g' hg') hlt)
  · rintro ⟨hf, hle⟩
    rcases hworse P f hf with hf | ⟨Q, g, hg, hlt⟩
    · exact ⟨hf, fun Q g hg => hle Q g (hsub Q g hg)⟩
    · have := hle Q g (hsub Q g hg)
      omega

theorem congr (h : Keeps L found) (hiff : ∀ P f, L P f ↔ L' P f) : Keeps L' found :=
  h.extend (fun P f hf => (hiff P f).1 hf) fun P f hf => .inl ((hiff P f).2 hf)

/-- A leaf that is penalised less than all others is kept alone. -/
theorem of_better (hadd : ∀ Q g, L' Q g ↔ L Q g ∨ (Q = P ∧ g = f))
    (hless : ∀ Q g, L Q g → f.penalty < g.penalty) : Keeps L' [f] := by
  have hnew : L' P f := (hadd P f).2 (.inr ⟨rfl, rfl⟩)
  refine ⟨[(P, f)], List.pairwise_singleton _ _, rfl, fun Q g => ?_⟩
  rw [List.mem_singleton, Prod.mk.injEq]
  constructor
  · rintro ⟨rfl, rfl⟩
    refine ⟨hnew, fun Q' g' hg' => ?_⟩
    rcases (hadd Q' g').1 hg' with hg' | ⟨-, rfl⟩
    · exact Nat.le_of_lt (hless Q' g' hg')
    · exact Nat.le_refl _
  · rintro ⟨hg, hle⟩
    rcases (hadd Q g).1 hg with hg | heq
    · have := hless Q g hg
      have := hle P f hnew
      omega
    · exact heq

/-- A leaf that is penalised as much as the best ones is kept with them. -/
theorem add_tied {Q : List Nat} {g : Found} (h : Keeps L found)
    (hadd : ∀ Q g, L' Q g ↔ L Q g ∨ (Q = P ∧ g = f)) (hearlier : ∀ Q g, L Q g → Earlier Q P)
    (hg : L Q g) (hleast : ∀ Q g', L Q g' → g.penalty ≤ g'.penalty)
    (heq : f.penalty = g.penalty) : Keeps L' (f :: found) := by
  obtain ⟨kept, hsorted, rfl, hkept⟩ := h
  refine ⟨kept ++ [(P, f)], ?_, by simp, fun Q' g' => ?_⟩
  · refine List.pairwise_append.2 ⟨hsorted, List.pairwise_singleton _ _, ?_⟩
    rintro ⟨Q', g'⟩ hmem q hq
    rw [List.mem_singleton.1 hq]
    exact hearlier Q' g' ((hkept Q' g').1 hmem).1
  · rw [List.mem_append, List.mem_singleton, Prod.mk.injEq, hkept]
    constructor
    · rintro (⟨hg', hle⟩ | ⟨rfl, rfl⟩)
      · refine ⟨(hadd Q' g').2 (.inl hg'), fun Q'' g'' hg'' => ?_⟩
        rcases (hadd Q'' g'').1 hg'' with hg'' | ⟨-, rfl⟩
        · exact hle Q'' g'' hg''
        · rw [heq]
          exact hle Q g hg
      · refine ⟨(hadd _ _).2 (.inr ⟨rfl, rfl⟩), fun Q'' g'' hg'' => ?_⟩
        rcases (hadd Q'' g'').1 hg'' with hg'' | ⟨-, rfl⟩
        · rw [heq]
          exact hleast Q'' g'' hg''
        · exact Nat.le_refl _
    · rintro ⟨hg', hle⟩
      rcases (hadd Q' g').1 hg' with hg' | heq
      · exact .inl ⟨hg', fun Q'' g'' hg'' => hle Q'' g'' ((hadd Q'' g'').2 (.inl hg''))⟩
      · exact .inr heq

/-- A leaf that comes after those seen is kept as it deserves. -/
theorem add (h : Keeps L found) (hadd : ∀ Q g, L' Q g ↔ L Q g ∨ (Q = P ∧ g = f))
    (hearlier : ∀ Q g, L Q g → Earlier Q P) : Keeps L' (keep found f) := by
  rcases h.bestPenalty_cases with ⟨hnone, -, hempty⟩ | ⟨Q, g, hsome, hg, hleast⟩
  · rw [keep, hnone]
    exact of_better hadd fun Q g hg => absurd hg (hempty Q g)
  rw [keep, hsome]
  dsimp only
  by_cases hworse : g.penalty < f.penalty
  · rw [if_pos hworse]
    refine h.extend (fun Q' g' hg' => (hadd Q' g').2 (.inl hg')) fun Q' g' hg' => ?_
    rcases (hadd Q' g').1 hg' with hg' | ⟨-, rfl⟩
    · exact .inl hg'
    · exact .inr ⟨Q, g, hg, hworse⟩
  rw [if_neg hworse]
  by_cases hbetter : f.penalty < g.penalty
  · rw [if_pos hbetter]
    exact of_better hadd fun Q' g' hg' => Nat.lt_of_lt_of_le hbetter (hleast Q' g' hg')
  · rw [if_neg hbetter]
    exact h.add_tied hadd hearlier hg hleast (by omega)

end Keeps

/-! ### The answer -/

/-- Equally good solutions differ. -/
def IsAmbiguity : TypeError → Prop
  | .ambiguous .. => True
  | _ => False

/-- The answer is what the leaves of the lowest rank come to. -/
inductive Settles (L : Leaves) : Except Unsolved Solution → Prop where
  | solved {P : List Nat} {f : Found} : First L P f →
      (∀ Q g, Best L Q g → SameAssignment f g) → Settles L (.ok f.toSolution)
  | ambiguous {P Q : List Nat} {f g : Found} {e : TypeError} {certain : List Ty} : Best L P f →
      Best L Q g → ¬ SameAssignment f g → IsAmbiguity e → Settles L (.error ⟨[e], certain⟩)
  | unsolved {e : TypeError} {certain : List Ty} : (∀ P f, ¬ L P f) → ¬ IsAmbiguity e →
      Settles L (.error ⟨[e], certain⟩)

/-- There is a solution exactly if there are best leaves and they agree. -/
theorem Settles.solved_iff {p : Except Unsolved Solution} (h : Settles L p) :
    (∃ s, p = .ok s) ↔
      (∃ P f, Best L P f) ∧ ∀ P Q f g, Best L P f → Best L Q g → SameAssignment f g := by
  cases h with
  | @solved P f hfirst hsame =>
    exact iff_of_true ⟨_, rfl⟩ ⟨⟨P, f, hfirst.1⟩, fun P' Q g h hg hh =>
      (hsame P' g hg).symm.trans (hsame Q h hh)⟩
  | @ambiguous P Q f g e certain hf hg hdiffer he =>
    exact iff_of_false (by simp) fun hagree => hdiffer (hagree.2 P Q f g hf hg)
  | @unsolved e certain hnone he =>
    exact iff_of_false (by simp) fun ⟨⟨P, f, hf⟩, _⟩ => hnone P f hf.1

/-- There is an ambiguity exactly if best leaves differ. -/
theorem Settles.ambiguous_iff {p : Except Unsolved Solution} (h : Settles L p) :
    (∃ e certain, p = .error ⟨[e], certain⟩ ∧ IsAmbiguity e) ↔
      ∃ P Q f g, Best L P f ∧ Best L Q g ∧ ¬ SameAssignment f g := by
  cases h with
  | @solved P f hfirst hsame =>
    exact iff_of_false (by simp) fun ⟨P', Q, g, h, hg, hh, hdiffer⟩ =>
      hdiffer ((hsame P' g hg).symm.trans (hsame Q h hh))
  | @ambiguous P Q f g e certain hf hg hdiffer he =>
    exact iff_of_true ⟨e, certain, rfl, he⟩ ⟨P, Q, f, g, hf, hg, hdiffer⟩
  | @unsolved e certain hnone he =>
    refine iff_of_false ?_ fun ⟨P, _, f, _, hf, _⟩ => hnone P f hf.1
    rintro ⟨_, _, heq, he'⟩
    cases heq
    exact he he'

theorem isAmbiguity_ambiguity (first : Found) (found : List Found) :
    IsAmbiguity (ambiguity first found) := by
  unfold ambiguity
  split <;> trivial

theorem Keeps.eq_nil_iff (h : Keeps L found) : found = [] ↔ ∀ P f, ¬ L P f := by
  constructor
  · rintro rfl
    rcases h.bestPenalty_cases with ⟨-, -, hempty⟩ | ⟨P, f, hsome, -⟩
    · exact hempty
    · cases hsome
  · intro hempty
    rcases h.bestPenalty_cases with ⟨-, hnil, -⟩ | ⟨P, f, -, hf, -⟩
    · exact hnil
    · exact absurd hf (hempty P f)

/-- The solutions of the lowest rank are the best leaves, in their order. -/
theorem Keeps.exists_best (h : Keeps L found) (hne : found ≠ []) :
    ∃ best : List (List Nat × Found), best.Pairwise (fun p q => Earlier p.1 q.1) ∧ best ≠ [] ∧
      ofLowestRank found.reverse = best.map (·.2) ∧ ∀ P f, (P, f) ∈ best ↔ Best L P f := by
  obtain ⟨kept, hsorted, rfl, hkept⟩ := h
  rw [List.reverse_reverse]
  have hne' : kept.map (·.2) ≠ [] := fun hnil => hne (by rw [hnil]; rfl)
  obtain ⟨best, hmem, hle, heq⟩ := exists_ofLowestRank_eq_filter _ hne'
  obtain ⟨⟨B, best⟩, hbest, rfl⟩ := List.mem_map.1 hmem
  obtain ⟨hB, hleast⟩ := (hkept B best).1 hbest
  have hall : ∀ Q g, L Q g → best.rankLe g = true := by
    intro Q g hg
    by_cases hlt : best.penalty < g.penalty
    · exact Found.rankLe_of_lt hlt
    · refine hle g (List.mem_map.2 ⟨(Q, g), (hkept Q g).2 ⟨hg, fun Q' g' hg' => ?_⟩, rfl⟩)
      have := hleast Q' g' hg'
      omega
  have hiff : ∀ P f, (P, f) ∈ kept.filter (fun p => p.2.rankLe best) ↔ Best L P f := by
    intro P f
    rw [List.mem_filter, hkept]
    constructor
    · rintro ⟨⟨hf, -⟩, hrank⟩
      exact ⟨hf, fun Q g hg => Found.rankLe_trans hrank (hall Q g hg)⟩
    · rintro ⟨hf, hrank⟩
      exact ⟨⟨hf, fun Q g hg => Found.penalty_le (hrank Q g hg)⟩, hrank B best hB⟩
  refine ⟨kept.filter fun p => p.2.rankLe best, hsorted.filter _, fun hnil => ?_, ?_, hiff⟩
  · have := (hiff B best).2 ⟨hB, hall⟩
    rw [hnil] at this
    cases this
  · rw [heq, List.filter_map]
    rfl

/-- The first of the best leaves, in their order, is the earliest one. -/
theorem first_of_sorted {best : List (List Nat × Found)}
    (hsorted : ((P, f) :: best).Pairwise fun p q => Earlier p.1 q.1)
    (hbest : ∀ Q g, (Q, g) ∈ (P, f) :: best ↔ Best L Q g) : First L P f := by
  refine ⟨(hbest P f).1 List.mem_cons_self, fun Q g hg => ?_⟩
  rcases List.mem_cons.1 ((hbest Q g).2 hg) with hmem | hmem
  · exact .inl (congrArg Prod.fst hmem)
  · exact .inr ((List.pairwise_cons.1 hsorted).1 _ hmem)

/-- **The answer is what all leaves come to**, once they have been seen. -/
theorem Keeps.settles (h : Keeps L found) (hnodup : ∀ P f, L P f → f.NodupChoices)
    (ctx : Context) (store : Store) (pruned : Bool) (certain : Option (List Ty))
    {failure : Option Failure} (hfailure : ∀ e, failure = some e → ¬ IsAmbiguity e.error) :
    Settles L (answer ctx store found pruned certain failure) := by
  by_cases hne : found = []
  · have hempty := h.eq_nil_iff.1 hne
    have hdistinct : distinct (ofLowestRank found.reverse) = [] := by
      rw [hne]
      rfl
    unfold answer
    rw [hdistinct]
    cases hf : failure with
    | some e => exact .unsolved hempty (hfailure e hf)
    | none =>
      cases pruned
      · exact .unsolved hempty id
      · exact .unsolved hempty id
  obtain ⟨best, hsorted, hnil, heq, hbest⟩ := h.exists_best hne
  cases best with
  | nil => exact absurd rfl hnil
  | cons first others =>
    obtain ⟨P, f⟩ := first
    have hP := (hbest P f).1 List.mem_cons_self
    have hsame : ∀ Q g, Best L Q g → (f.sameAssignment g = true ↔ SameAssignment f g) :=
      fun Q g hg => sameAssignment_iff (hnodup P f hP.1) (hnodup Q g hg.1)
    rw [List.map_cons] at heq
    by_cases hagree : ∀ g ∈ others.map (·.2), f.sameAssignment g = true
    · have hfirst : First L P f := first_of_sorted hsorted hbest
      have hall : ∀ Q g, Best L Q g → SameAssignment f g := by
        intro Q g hg
        rcases List.mem_cons.1 ((hbest Q g).2 hg) with hmem | hmem
        · obtain ⟨-, rfl⟩ := Prod.mk.inj hmem
          exact ⟨rfl, fun _ => rfl⟩
        · exact (hsame Q g hg).1 (hagree g (List.mem_map.2 ⟨(Q, g), hmem, rfl⟩))
      unfold answer
      rw [heq, distinct_of_agree hagree]
      exact .solved hfirst hall
    · obtain ⟨g, hg, hdiffer⟩ : ∃ g ∈ others.map (·.2), f.sameAssignment g ≠ true := by
        by_contra hno
        exact hagree fun g hg => by_contra fun hdiffer => hno ⟨g, hg, hdiffer⟩
      obtain ⟨⟨Q, g⟩, hmem, rfl⟩ := List.mem_map.1 hg
      have hQ := (hbest Q g).1 (List.mem_cons_of_mem _ hmem)
      obtain ⟨g', rest, hdistinct⟩ := distinct_of_disagree ⟨g, hg, hdiffer⟩
      unfold answer
      rw [heq, hdistinct]
      exact .ambiguous hP hQ (fun h => hdiffer ((hsame Q g hQ).2 h)) (isAmbiguity_ambiguity _ _)

end Search
end TypeResolution
