/-
# Solutions found

A path that comes to a good end is kept unless a solution with a lower penalty is known. At
the end of the search the solutions of the lowest rank are compared: first the penalty counts,
then the number of generic candidates, then that of conversions. If they do not all give the
variables the same types and the references the same declarations, the system is ambiguous,
and the first reference that they disagree on is named.

Key definitions: `Found`, `Found.rankLe`, `Found.sameAssignment`, `keep`, `ofLowestRank`,
`distinct`, `ambiguity`.
Key theorems: `Found.rankLe_trans`, `Found.rankLe_total`, `mem_of_mem_distinct`.
-/
import TypeResolution.Search.Work
import TypeResolution.System
import TypeResolution.TypeError

namespace TypeResolution
namespace Search

/-- A path that came to a good end. -/
structure Found where
  penalty : Nat
  genericChoices : Nat
  conversions : Nat
  types : List Ty
  choices : List (NodeId × Choice)
  predicates : List SizePredicate
  warnings : Report

namespace Found

/-- Whether a solution is at least as good as another one. -/
def rankLe (a b : Found) : Bool :=
  a.penalty < b.penalty || (a.penalty == b.penalty &&
    (a.genericChoices < b.genericChoices || (a.genericChoices == b.genericChoices &&
      a.conversions ≤ b.conversions)))

def decl? (f : Found) (site : NodeId) : Option DeclId := (f.choices.lookup site).map (·.decl)

/-- Whether two solutions agree on the variables and the references. -/
def sameAssignment (a b : Found) : Bool :=
  a.types == b.types && a.choices.length == b.choices.length &&
    a.choices.all fun (site, c) => b.decl? site == some c.decl

def toSolution (f : Found) : Solution :=
  ⟨f.types, f.choices.map fun (site, c) => (site, c.decl), f.predicates, f.penalty, f.warnings⟩

end Found

/-- The penalty of the solutions kept, which all have the same. -/
def bestPenalty (found : List Found) : Option Nat := found.head?.map (·.penalty)

/-- The solutions kept with another one, unless it is penalised more; those penalised more
than it are given up. -/
def keep (found : List Found) (f : Found) : List Found :=
  match bestPenalty found with
  | none => [f]
  | some best =>
    if best < f.penalty then found else if f.penalty < best then [f] else f :: found

/-- The solutions of the lowest rank. -/
def ofLowestRank : List Found → List Found
  | [] => []
  | f :: found =>
    let best := found.foldl (fun best g => if best.rankLe g then best else g) f
    (f :: found).filter (·.rankLe best)

/-- Solutions with another one, unless it agrees with one of them. -/
def dropAgreeing (kept : List Found) (f : Found) : List Found :=
  if kept.any (·.sameAssignment f) then kept else kept ++ [f]

/-- Solutions without those that agree with an earlier one. -/
def distinct (found : List Found) : List Found := found.foldl dropAgreeing []

/-- The candidates that solutions settle a reference on, each declaration once. -/
def candidatesAt (site : NodeId) (found : List Found) : List (DeclId × Ty) :=
  found.foldl (fun candidates f =>
    match f.choices.lookup site with
    | some c => if candidates.any (·.1 == c.decl) then candidates
      else candidates ++ [(c.decl, c.signature)]
    | none => candidates) []

/-- Names the first reference about which the solutions differ. -/
def ambiguity (first : Found) (found : List Found) : TypeError :=
  match first.choices.find? fun (site, c) => found.any (·.decl? site != some c.decl) with
  | some (site, c) =>
    .ambiguous (some c.name) (candidatesAt site found) (c.locator.map Locator.dropCandidate)
  | none => .ambiguous none [] none

/-! ### Laws -/

theorem Found.rankLe_refl (a : Found) : a.rankLe a = true := by simp [Found.rankLe]

theorem Found.rankLe_trans {a b c : Found} (hab : a.rankLe b = true) (hbc : b.rankLe c = true) :
    a.rankLe c = true := by
  simp only [Found.rankLe, Bool.or_eq_true, Bool.and_eq_true, decide_eq_true_eq,
    beq_iff_eq] at hab hbc ⊢
  omega

/-- Of two solutions one is at least as good as the other. -/
theorem Found.rankLe_total (a b : Found) : a.rankLe b = true ∨ b.rankLe a = true := by
  simp only [Found.rankLe, Bool.or_eq_true, Bool.and_eq_true, decide_eq_true_eq, beq_iff_eq]
  omega

/-- Nothing but solutions found is left when those that agree are dropped. -/
theorem mem_of_mem_distinct {f : Found} {found : List Found} (h : f ∈ distinct found) :
    f ∈ found := by
  suffices H : ∀ kept, f ∈ found.foldl dropAgreeing kept → f ∈ kept ∨ f ∈ found by
    rcases H [] h with h | h
    · cases h
    · exact h
  clear h
  induction found with
  | nil => exact fun kept h => .inl h
  | cons g found ih =>
    intro kept h
    rw [List.foldl_cons] at h
    rcases ih _ h with h | h
    · unfold dropAgreeing at h
      split at h
      · exact .inl h
      · rcases List.mem_append.1 h with h | h
        · exact .inl h
        · exact .inr (List.mem_cons.2 (.inl (List.mem_singleton.1 h)))
    · exact .inr (List.mem_cons_of_mem _ h)

end Search
end TypeResolution
