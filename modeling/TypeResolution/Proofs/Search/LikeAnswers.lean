/-
# Answers that are alike

Solutions found on paths that are alike have the same rank, and agree with the same solutions
(`Search.Found.Like`). So the same are kept, and the answer is the same solution or the same
ambiguity (`Search.like_answer`). If there is no solution, an error is told with which a path
failed. Which of several failures got furthest is decided by how far the paths came and by the
depth of the locators: with the same locators it is the same failure, with others it may be another
one (`Search.Failure.Like.furthest`).

Key definitions: `Search.Found.Like`, `Search.Branch.Like`.
Key theorems: `Search.like_keep`, `Search.Branch.Like.note`, `Search.Branch.Like.failure?`,
`Search.like_answer`.
-/
import TypeResolution.Proofs.Search.LikeSteps

namespace TypeResolution
namespace Search

open Store

/-- The solutions are the same, up to the locators at which references were settled and warnings
were given. -/
structure Found.Like (L : Latitude) (f f' : Found) : Prop where
  penalty : f.penalty = f'.penalty
  genericChoices : f.genericChoices = f'.genericChoices
  conversions : f.conversions = f'.conversions
  types : f.types = f'.types
  choices : List.Forall₂ (Choice.LikeAt L) f.choices f'.choices
  predicates : f.predicates = f'.predicates
  warnings : ¬ L.relocates → f.warnings = f'.warnings

/-- The alternatives stand for each other, and both or neither have failed, and then alike. -/
def Alternative.LikeEntered (L : Latitude) (p p' : Alternative × Option Failure) : Prop :=
  p.1.Like L p'.1 ∧ Option.Rel (Failure.Like L) p.2 p'.2

/-- The branches were met with work that is alike, at choices that are alike, and alternatives that
stand for each other have been entered. -/
structure Branch.Like (L : Latitude) (b b' : Branch) : Prop where
  base : b.base.Like L b'.base
  point : b.point.Like L b'.point
  untried : List.Forall₂ (Alternative.Like L) b.untried b'.untried
  entered : List.Forall₂ (Alternative.LikeEntered L) b.entered b'.entered
  solved : b.solved = b'.solved

variable {L : Latitude} {ctx : Context} {s t : Store} {w w' : Work} {f f' g g' : Found}
variable {found found' : List Found} {b b' : Branch} {site : NodeId}

/-! ### Solutions -/

theorem Work.Like.toFound (h : w.Like L w') (ctx : Context) (hslots : s.slots = t.slots) :
    (w.toFound ctx s).Like L (w'.toFound ctx t) := by
  rw [toFound_congr ctx w hslots]
  exact ⟨h.penalty, h.genericChoices, h.conversions, rfl, h.choices, h.predicates,
    fun hL => congrArg List.reverse (h.warnings hL)⟩

theorem like_lookup {choices choices' : List (NodeId × Choice)}
    (h : List.Forall₂ (Choice.LikeAt L) choices choices') (site : NodeId) :
    Option.Rel (Choice.Like L) (choices.lookup site) (choices'.lookup site) := by
  induction h with
  | nil => exact .none
  | @cons p p' _ _ hp _ ih =>
    obtain ⟨k, c⟩ := p
    obtain ⟨k', c'⟩ := p'
    obtain rfl : k = k' := hp.1
    rw [List.lookup_cons, List.lookup_cons]
    cases site == k with
    | true => exact .some hp.2
    | false => exact ih

theorem Choice.Like.symm {c c' : Choice} (h : c.Like L c') : c'.Like L c :=
  ⟨h.decl.symm, h.name.symm, h.signature.symm, h.locator.symm⟩

namespace Found.Like

theorem symm (h : f.Like L f') : f'.Like L f where
  penalty := h.penalty.symm
  genericChoices := h.genericChoices.symm
  conversions := h.conversions.symm
  types := h.types.symm
  choices := forall₂_flip_of_mem h.choices fun _ _ _ hp => ⟨hp.1.symm, hp.2.symm⟩
  predicates := h.predicates.symm
  warnings hL := (h.warnings hL).symm

theorem rankLe (h : f.Like L f') (hg : g.Like L g') : f.rankLe g = f'.rankLe g' := by
  unfold Found.rankLe
  rw [h.penalty, h.genericChoices, h.conversions, hg.penalty, hg.genericChoices, hg.conversions]

theorem decl? (h : f.Like L f') (site : NodeId) : f.decl? site = f'.decl? site := by
  have hlookup := like_lookup h.choices site
  unfold Found.decl?
  generalize f.choices.lookup site = c at hlookup ⊢
  generalize f'.choices.lookup site = c' at hlookup ⊢
  cases hlookup with
  | none => rfl
  | some hc => exact congrArg some hc.decl

theorem sameAssignment (h : f.Like L f') (hg : g.Like L g') :
    f.sameAssignment g = f'.sameAssignment g' := by
  unfold Found.sameAssignment
  rw [h.types, hg.types, h.choices.length_eq, hg.choices.length_eq]
  refine congrArg _ (all_eq_of_forall₂ h.choices fun hp => ?_)
  dsimp only
  rw [hg.decl?, hp.1, hp.2.decl]

theorem toSolution (h : f.Like L f') : f.toSolution.Like L f'.toSolution := by
  refine ⟨h.types, ?_, h.predicates, h.penalty, h.warnings⟩
  show f.choices.map (fun p => (p.1, p.2.decl)) = f'.choices.map fun p => (p.1, p.2.decl)
  rw [← List.forall₂_eq_eq_eq]
  exact List.rel_map (fun _ _ hp => Prod.ext hp.1 hp.2.decl) h.choices

end Found.Like

theorem like_bestPenalty (h : List.Forall₂ (Found.Like L) found found') :
    bestPenalty found = bestPenalty found' := by
  cases h with
  | nil => rfl
  | cons hf _ => exact congrArg some hf.penalty

/-- The same solutions are kept. -/
theorem like_keep (h : List.Forall₂ (Found.Like L) found found') (hf : f.Like L f') :
    List.Forall₂ (Found.Like L) (keep found f) (keep found' f') := by
  unfold keep
  rw [like_bestPenalty h, hf.penalty]
  split
  · exact .cons hf .nil
  · split
    · exact h
    · split
      · exact .cons hf .nil
      · exact .cons hf h

theorem like_ofLowestRank (h : List.Forall₂ (Found.Like L) found found') :
    List.Forall₂ (Found.Like L) (ofLowestRank found) (ofLowestRank found') := by
  cases h with
  | nil => exact .nil
  | @cons f f' found found' hf hfound =>
    have hbest : Found.Like L
        (found.foldl (fun best g => if best.rankLe g then best else g) f)
        (found'.foldl (fun best g => if best.rankLe g then best else g) f') := by
      refine List.rel_foldl (P := Found.Like L) (R := Found.Like L) ?_ hf hfound
      intro best best' hbest g g' hg
      dsimp only
      rw [hbest.rankLe hg]
      split
      · exact hbest
      · exact hg
    exact List.rel_filter (fun _ _ hg => iff_of_eq (congrArg (· = true) (hg.rankLe hbest)))
      (.cons hf hfound)

theorem like_distinct (h : List.Forall₂ (Found.Like L) found found') :
    List.Forall₂ (Found.Like L) (distinct found) (distinct found') := by
  refine List.rel_foldl (P := List.Forall₂ (Found.Like L)) (R := Found.Like L) ?_ .nil h
  intro kept kept' hkept f f' hf
  unfold dropAgreeing
  rw [any_eq_of_forall₂ hkept fun hg => hg.sameAssignment hf]
  split
  · exact hkept
  · exact List.rel_append hkept (.cons hf .nil)

theorem like_candidatesAt (h : List.Forall₂ (Found.Like L) found found') (site : NodeId) :
    candidatesAt site found = candidatesAt site found' := by
  refine List.rel_foldl (P := Eq) (R := Found.Like L) ?_ rfl h
  rintro candidates _ rfl f f' hf
  have hlookup := like_lookup hf.choices site
  dsimp only
  generalize f.choices.lookup site = c at hlookup ⊢
  generalize f'.choices.lookup site = c' at hlookup ⊢
  cases hlookup with
  | none => rfl
  | some hc =>
    dsimp only
    rw [hc.decl, hc.signature]

theorem ambiguity_eq (first : Found) (found : List Found) : ambiguity first found =
    (first.choices.find? fun p => found.any (·.decl? p.1 != some p.2.decl)).elim
      (.ambiguous none [] none) fun p => .ambiguous (some p.2.name) (candidatesAt p.1 found)
        (p.2.locator.map Locator.dropCandidate) := by
  unfold ambiguity
  generalize List.find? _ first.choices = choice
  cases choice <;> rfl

/-- The same ambiguity is told. -/
theorem like_ambiguity (hf : f.Like L f') (h : List.Forall₂ (Found.Like L) found found') :
    TypeError.Like L (ambiguity f found) (ambiguity f' found') := by
  have hfind := find?_of_forall₂ (p := fun p => found.any (·.decl? p.1 != some p.2.decl))
    (q := fun p => found'.any (·.decl? p.1 != some p.2.decl)) hf.choices fun {x y} hxy => by
      refine any_eq_of_forall₂ h fun hg => ?_
      rw [hg.decl?, hxy.1, hxy.2.decl]
  have hnamed : ∀ {x y : NodeId × Choice}, Choice.LikeAt L x y →
      TypeError.Like L (.ambiguous (some x.2.name) (candidatesAt x.1 found)
          (x.2.locator.map Locator.dropCandidate))
        (.ambiguous (some y.2.name) (candidatesAt y.1 found')
          (y.2.locator.map Locator.dropCandidate)) := by
    rintro ⟨site, c⟩ ⟨site', c'⟩ ⟨hsite, hc⟩
    obtain rfl : site = site' := hsite
    rw [hc.name, like_candidatesAt h]
    exact .ambiguous (hc.locator.map _)
  rw [ambiguity_eq, ambiguity_eq]
  generalize List.find? _ f.choices = x at hfind ⊢
  generalize List.find? _ f'.choices = y at hfind ⊢
  cases hfind with
  | none => exact .same _
  | some hxy => exact hnamed hxy

/-! ### Failures -/

theorem Failure.Like.reachesBeyond {f f' g g' : Failure} (h : f.Like L f') (hg : g.Like L g')
    (hL : ¬ L.relocates) : f.reachesBeyond g = f'.reachesBeyond g' := by
  simp only [Failure.reachesBeyond, h.progress hL, hg.progress hL, h.error.locator hL,
    hg.error.locator hL]

/-- Of failures that are alike those that got furthest are alike. -/
theorem Failure.Like.furthest {f f' : Failure} {fs fs' : List Failure} (h : f.Like L f')
    (hfs : List.Forall₂ (Failure.Like L) fs fs') :
    (f.furthest fs).Like L (f'.furthest fs') := by
  by_cases hL : L.relocates
  · -- Another one may be told, but it is one of them.
    have hleft : ∀ g ∈ f :: fs, EndsPath g.error := List.forall_mem_cons.2 ⟨h.left, fun g hg => by
      obtain ⟨g', -, hgg'⟩ := (exists_of_forall₂ hfs).1 g hg
      exact hgg'.left⟩
    have hright : ∀ g ∈ f' :: fs', EndsPath g.error :=
      List.forall_mem_cons.2 ⟨h.right, fun g hg => by
        obtain ⟨g', -, hgg'⟩ := (exists_of_forall₂ hfs).2 g hg
        exact hgg'.right⟩
    have hends := hleft _ (furthest_mem f fs)
    have hends' := hright _ (furthest_mem f' fs')
    exact ⟨hends, hends', .told hL hends hends', fun hL' => absurd hL hL'⟩
  · refine List.rel_foldl (P := Failure.Like L) (R := Failure.Like L) ?_ h hfs
    intro best best' hbest g g' hg
    dsimp only
    rw [hg.reachesBeyond hbest hL]
    split
    · exact hg
    · exact hbest

namespace Branch.Like

theorem note {failure failure' : Option Failure} (h : b.Like L b')
    (hf : Option.Rel (Failure.Like L) failure failure') :
    (b.note failure).Like L (b'.note failure') := by
  obtain ⟨snapshot, base, point, untried, entered, solved⟩ := b
  obtain ⟨snapshot', base', point', untried', entered', solved'⟩ := b'
  have hentered : List.Forall₂ (Alternative.LikeEntered L) entered entered' := h.entered
  cases hf with
  | none => exact h
  | some hf =>
    cases hentered with
    | nil => exact h
    | @cons p p' _ _ hp hrest =>
      obtain ⟨x, e⟩ := p
      obtain ⟨x', e'⟩ := p'
      obtain ⟨hx, he⟩ := hp
      cases he with
      | none => exact { h with entered := .cons ⟨hx, .some hf⟩ hrest }
      | some he => exact h

theorem failures (h : b.Like L b') :
    List.Forall₂ (fun p p' => p.1.Like L p'.1 ∧ Failure.Like L p.2 p'.2) b.failures
      b'.failures := by
  refine List.rel_filterMap ?_ (List.rel_reverse h.entered)
  rintro ⟨x, e⟩ ⟨x', e'⟩ ⟨hx, he⟩
  exact optionRel_map he fun he => ⟨hx, he⟩

/-- Branches that are alike fail alike. -/
theorem failure? (h : b.Like L b') : Option.Rel (Failure.Like L) b.failure? b'.failure? := by
  have hfailures := h.failures
  have hlocator := h.point.locator
  have hoffer := h.point.offer
  unfold Branch.failure?
  generalize b.failures = fs at hfailures ⊢
  generalize b'.failures = fs' at hfailures ⊢
  cases hfailures with
  | nil => exact .none
  | @cons p p' ps ps' hp hps =>
    obtain ⟨x, f⟩ := p
    obtain ⟨x', f'⟩ := p'
    have hfurthest : (f.furthest (ps.map (·.2))).Like L (f'.furthest (ps'.map (·.2))) :=
      hp.2.furthest (List.rel_map (fun _ _ hq => hq.2) hps)
    dsimp only
    generalize b.point.offer = o at hoffer ⊢
    generalize b'.point.offer = o' at hoffer ⊢
    cases hoffer with
    | disjunction => exact .some hfurthest
    | @overload o candidates hlists =>
      refine .some ⟨trivial, trivial, .noViable o.name ?_ hlocator, hfurthest.progress⟩
      refine List.rel_filterMap ?_ (List.Forall₂.cons hp hps)
      rintro ⟨x, f⟩ ⟨x', f'⟩ ⟨hx, hf⟩
      cases hx with
      | candidate c => exact .some (.mk hf.error)
      | minterm => exact .none

/-- They tell alike of their failure when they are left. -/
theorem closing (h : b.Like L b') : Option.Rel (Failure.Like L)
    (if b.solved then none else b.failure?) (if b'.solved then none else b'.failure?) := by
  rw [h.solved]
  split
  · exact .none
  · exact h.failure?

end Branch.Like

/-! ### The answer -/

/-- **The same is answered** when nothing is left to try. -/
theorem like_answer (ctx : Context) {failure failure' : Option Failure} (pruned : Bool)
    (certain : Option (List Ty)) (hslots : s.slots = t.slots)
    (hfound : List.Forall₂ (Found.Like L) found found')
    (hf : Option.Rel (Failure.Like L) failure failure') :
    AnswerLike L (answer ctx s found pruned certain failure)
      (answer ctx t found' pruned certain failure') := by
  have hdistinct := like_distinct (like_ofLowestRank (List.rel_reverse hfound))
  have hunsolved : ∀ {e e' : TypeError}, TypeError.Like L e e' →
      AnswerLike L (.error ⟨[e], certain.getD (ctx.bindings t)⟩)
        (.error ⟨[e'], certain.getD (ctx.bindings t)⟩) := fun he => .unsolved (.cons he .nil)
  unfold answer
  rw [bindings_congr ctx hslots]
  dsimp only
  generalize distinct (ofLowestRank found.reverse) = kept at hdistinct ⊢
  generalize distinct (ofLowestRank found'.reverse) = kept' at hdistinct ⊢
  cases hdistinct with
  | nil =>
    cases hf with
    | some hf => exact hunsolved hf.error
    | none =>
      dsimp only
      split
      · exact hunsolved (.same _)
      · exact hunsolved (.same _)
  | cons hfirst hothers =>
    have hambiguity := hunsolved (like_ambiguity hfirst (.cons hfirst hothers))
    cases hothers with
    | nil => exact .solved hfirst.toSolution
    | cons _ _ => exact hambiguity

end Search
end TypeResolution
