/-
# How paths fail

A path fails with a relation that is violated, with a reference that has no candidates, or with
something that is left unknown. A branch fails with a failure of one of its alternatives, or with
the failures of all of its candidates, and it has a failure as soon as one of its alternatives has
one (`Search.failure?_eq_none_iff`). None of these errors is an ambiguity, which only the answer of
a whole search can be, or a limit at which the search was stopped (`Search.EndsPath`).

Key definitions: `Search.EndsPath`, `Search.OfRelation`, `Search.Branch.Plain`.
Key theorems: `Search.endsPath_of_pathSimplify`, `Search.endsPath_of_turn`,
`Search.Branch.Plain.failure?`, `Search.failure?_eq_none_iff`, `Search.failures_note`.
-/
import TypeResolution.Proofs.Search.Best

namespace TypeResolution
namespace Search

/-- An error with which a path can fail: equally good solutions do not differ, and no limit of the
search was met. -/
def EndsPath : TypeError → Prop
  | .ambiguous .. | .stopped (.stepLimit _) _ | .stopped (.penaltyLimit _) _ => False
  | _ => True

theorem EndsPath.not_isAmbiguity {e : TypeError} (h : EndsPath e) : ¬ IsAmbiguity e := by
  cases e with
  | ambiguous => exact False.elim h
  | _ => exact id

/-- An error about a single relation. -/
def OfRelation : TypeError → Prop
  | .mismatch .. | .infinite .. | .nonconforming .. | .inexpressible .. | .missingMember .. => True
  | _ => False

theorem OfRelation.endsPath {e : TypeError} (h : OfRelation e) : EndsPath e := by
  cases e with
  | ambiguous => exact False.elim h
  | stopped => exact False.elim h
  | _ => trivial

theorem ofRelation_toTypeError (e : UnifyError) (fit : Fit) (l : Option Locator) :
    OfRelation (e.toTypeError fit l) := by
  cases e <;> trivial

theorem endsPath_toTypeError (e : UnifyError) (fit : Fit) (l : Option Locator) :
    EndsPath (e.toTypeError fit l) := (ofRelation_toTypeError e fit l).endsPath

/-- A relation that is found to be violated is told as what it is. -/
def Simplified.Blamed : Simplified → Prop
  | .violated e => OfRelation e
  | _ => True

theorem blamed_simplifyShapes (table : Table) (s : Store) (fit : Fit) (a b : Ty)
    (l : Option Locator) : (simplifyShapes table s fit a b l).1.Blamed := by
  unfold simplifyShapes
  dsimp only
  split
  · trivial
  · trivial
  · split
    · trivial
    · trivial
  · split
    · trivial
    · trivial
  · split
    · trivial
    · split
      · trivial
      · trivial
  · trivial

theorem blamed_simplifySubtyping (table : Table) (s : Store) (fit : Fit) (a b : Ty)
    (l : Option Locator) : (simplifySubtyping table s fit a b l).1.Blamed := by
  unfold simplifySubtyping
  dsimp only
  split
  · trivial
  · split
    · trivial
    · trivial
    · trivial
    · trivial
    · trivial
    · exact blamed_simplifyShapes table _ fit _ _ l

theorem blamed_simplify (table : Table) (s : Store) (r : Relation) (l : Option Locator) :
    (simplify table s r l).1.Blamed := by
  cases r with
  | equality a b =>
    unfold simplify
    dsimp only
    split
    · trivial
    · exact ofRelation_toTypeError _ _ _
  | subtyping a b => exact blamed_simplifySubtyping table s .subtype a b l
  | returnBinding a b => exact blamed_simplifySubtyping table s .returned a b l
  | conformance type traits =>
    show (simplifyConformance table s type traits l).1.Blamed
    unfold simplifyConformance
    dsimp only
    split
    · trivial
    · trivial
    · split
      · trivial
      · trivial
  | conversion type literal =>
    show (simplifyConversion table s type literal l).1.Blamed
    unfold simplifyConversion
    dsimp only
    split
    · trivial
    · trivial
    · split
      · trivial
      · split
        · trivial
        · trivial
  | valueMember base member type site =>
    show (simplifyMember table s base member type site l).1.Blamed
    unfold simplifyMember
    dsimp only
    split
    · trivial
    · trivial
    · split
      · trivial
      · trivial
    · split
      · trivial
      · trivial
      · trivial
  | size predicate => trivial

theorem endsPath_of_pathSimplify {ctx : Context} {goal : Goal} {rest : Work}
    {s s' : Store} {failure : Failure}
    (h : Path.simplify ctx goal rest s = (.failed failure, s')) : EndsPath failure.error := by
  have hblamed := blamed_simplify ctx.table s goal.relation goal.locator
  unfold Path.simplify at h
  rcases hsimp : simplify ctx.table s goal.relation goal.locator with ⟨result, after⟩
  rw [hsimp] at h hblamed
  cases result with
  | discharged children entry =>
    obtain ⟨hpath, -⟩ := Prod.mk.inj h
    cases hpath
  | undecided watch =>
    obtain ⟨hpath, -⟩ := Prod.mk.inj h
    cases hpath
  | violated e =>
    obtain ⟨hpath, -⟩ := Prod.mk.inj h
    obtain rfl := Path.failed.inj hpath
    exact hblamed.endsPath

theorem endsPath_of_turn {ctx : Context} {w : Work} {s : Store} {e : TypeError}
    (h : w.turn ctx s = .fail e) : EndsPath e := by
  have hnext := w.next_turn ctx s
  rw [h] at hnext
  cases hnext with
  | unviable => trivial
  | incomplete hincomplete =>
    unfold incomplete at hincomplete
    dsimp only at hincomplete
    split at hincomplete
    · cases hincomplete
    · rw [← Option.some.inj hincomplete]
      trivial

/-! ### Branches -/

theorem furthest_mem (first : Failure) : ∀ others : List Failure,
    first.furthest others ∈ first :: others := by
  intro others
  unfold Failure.furthest
  induction others generalizing first with
  | nil => exact List.mem_cons_self
  | cons f others ih =>
    rw [List.foldl_cons]
    rcases List.mem_cons.1 (ih (if f.reachesBeyond first then f else first)) with heq | hmem
    · rw [heq]
      split
      · exact List.mem_cons_of_mem _ List.mem_cons_self
      · exact List.mem_cons_self
    · exact List.mem_cons_of_mem _ (List.mem_cons_of_mem _ hmem)

/-- The failures that were noted at a branch are told as what they are. -/
def Branch.Plain (b : Branch) : Prop :=
  ∀ p ∈ b.entered, ∀ e, p.2 = some e → EndsPath e.error

theorem Branch.Plain.note {b : Branch} (h : b.Plain) {failure : Option Failure}
    (hf : ∀ e, failure = some e → EndsPath e.error) : (b.note failure).Plain := by
  unfold Branch.note
  split
  · rename_i f a rest hentered
    intro p hp e he
    rcases List.mem_cons.1 hp with rfl | hp
    · exact hf e (congrArg some (Option.some.inj he))
    · exact h p (hentered ▸ List.mem_cons_of_mem _ hp) e he
  · exact h

/-- A disjunction fails with a failure of one of its alternatives. -/
theorem mem_failures_of_failure? {b : Branch} {ms : List (Minterm Constraint)} {f : Failure}
    (hoffer : b.point.offer = .disjunction ms) (h : b.failure? = some f) :
    ∃ p ∈ b.failures, p.2 = f := by
  unfold Branch.failure? at h
  rw [hoffer] at h
  split at h
  · cases h
  · rename_i a first rest heq
    obtain rfl := Option.some.inj h
    have hmem := furthest_mem first (rest.map (·.2))
    rw [← List.map_cons (f := fun p : Alternative × Failure => p.2) (a := (a, first)), ← heq] at hmem
    exact List.mem_map.1 hmem

/-- So is the failure of the branch. -/
theorem Branch.Plain.failure? {b : Branch} (h : b.Plain) {e : Failure}
    (he : b.failure? = some e) : EndsPath e.error := by
  cases hoffer : b.point.offer with
  | disjunction ms =>
    obtain ⟨p, hp, rfl⟩ := mem_failures_of_failure? hoffer he
    obtain ⟨⟨a, f⟩, hmem, heq⟩ := List.mem_filterMap.1 hp
    obtain ⟨f', rfl, rfl⟩ := Option.map_eq_some_iff.1 heq
    exact h _ (List.mem_reverse.1 hmem) f' rfl
  | overload o =>
    unfold Branch.failure? at he
    rw [hoffer] at he
    split at he
    · cases he
    · rw [← Option.some.inj he]
      trivial

/-- A branch has a failure when one of its alternatives has one. -/
theorem failure?_eq_none_iff {b : Branch} : b.failure? = none ↔ b.failures = [] := by
  unfold Branch.failure?
  split
  · rename_i hnil
    exact ⟨fun _ => hnil, fun _ => rfl⟩
  · rename_i a f rest hcons
    rw [hcons]
    dsimp only
    split
    · exact ⟨nofun, nofun⟩
    · exact ⟨nofun, nofun⟩

/-- The failure of the alternative that was entered last is one of the failures. -/
theorem failures_note {b : Branch} {failure : Option Failure}
    (hentered : failure ≠ none → ∃ a, b.entered.head? = some (a, none)) :
    (b.note failure).failures ≠ [] ↔ failure ≠ none ∨ b.failures ≠ [] := by
  cases failure with
  | none => simp [Branch.note]
  | some f =>
    obtain ⟨a, ha⟩ := hentered nofun
    obtain ⟨rest, hrest⟩ : ∃ rest, b.entered = (a, none) :: rest := by
      cases h : b.entered with
      | nil => rw [h] at ha; cases ha
      | cons p rest =>
        rw [h] at ha
        exact ⟨rest, congrArg (· :: rest) (Option.some.inj ha)⟩
    simp [Branch.note, Branch.failures, hrest]

end Search
end TypeResolution
