/-
# Branches

A branch is a choice that is being made. Its alternatives are entered one after the other, the
least penalised first and then those that are not generic, each from the work and the store
that the branch was met with. A branch none of whose alternatives leads to a solution fails
with what its alternatives failed with: a reference fails with all of its candidates, and a
disjunction with the failure that got furthest.

Key definitions: `Alternative`, `Offer.alternatives`, `Failure`, `Branch`, `Branch.failure?`,
`Alternative.enter`.
Key theorems: `Offer.alternatives_perm`, `Offer.pairwise_alternatives`.
-/
import TypeResolution.Search.Opening
import TypeResolution.TypeError

namespace TypeResolution
namespace Search

/-- One way to make a choice. -/
inductive Alternative where
  | candidate (overload : Overload) (candidate : Candidate)
  | minterm (position : Nat) (minterm : Minterm Constraint)

namespace Alternative

def penalty : Alternative → Nat
  | .candidate _ c => c.penalty
  | .minterm _ m => m.penalty

def isGeneric : Alternative → Bool
  | .candidate _ c => c.isGeneric
  | .minterm .. => false

/-- Whether an alternative may be tried before another one. -/
def le (a b : Alternative) : Bool :=
  a.penalty < b.penalty || (a.penalty == b.penalty && (!a.isGeneric || b.isGeneric))

end Alternative

/-- The alternatives as they are written. -/
def Offer.listed : Offer → List Alternative
  | .overload o => o.candidates.map (Alternative.candidate o)
  | .disjunction ms => ms.mapIdx Alternative.minterm

/-- The alternatives in the order in which they are tried. -/
def Offer.alternatives (o : Offer) : List Alternative := o.listed.mergeSort Alternative.le

/-- How a path failed, and how many constraints it had discharged. -/
structure Failure where
  error : TypeError
  progress : Nat

/-- A choice that is being made. -/
structure Branch where
  /-- The store that the branch was met with. -/
  snapshot : Snapshot
  /-- The work that the branch was met with. -/
  base : Work
  point : BranchPoint
  untried : List Alternative
  /-- The alternatives entered so far, the latest first, with their failures. -/
  entered : List (Alternative × Option Failure)
  /-- Whether a solution was found from one of the alternatives. -/
  solved : Bool

namespace Branch

/-- The branch at which none of the alternatives has been tried. -/
def start (snapshot : Snapshot) (point : BranchPoint) (base : Work) : Branch :=
  ⟨snapshot, base, point, point.offer.alternatives, [], false⟩

/-- The alternative entered last has failed. -/
def note (b : Branch) (failure : Option Failure) : Branch :=
  match failure, b.entered with
  | some f, (a, none) :: rest => { b with entered := (a, some f) :: rest }
  | _, _ => b

/-- The failures of the alternatives, in the order in which they were entered. -/
def failures (b : Branch) : List (Alternative × Failure) :=
  b.entered.reverse.filterMap fun (a, f) => f.map (a, ·)

end Branch

namespace Failure

/-- How far a path got: first the constraints that it discharged count, then how deep in a
type it failed. -/
def reachesBeyond (a b : Failure) : Bool :=
  let depth (f : Failure) := (f.error.locator.map Locator.depth).getD 0
  b.progress < a.progress || (a.progress == b.progress && depth b < depth a)

/-- The failure that got furthest, the first one of several. -/
def furthest (first : Failure) (others : List Failure) : Failure :=
  others.foldl (fun best f => if f.reachesBeyond best then f else best) first

end Failure

/-- The failure of a branch whose alternatives failed, if any was entered. -/
def Branch.failure? (b : Branch) : Option Failure :=
  match b.failures with
  | [] => none
  | (a, f) :: rest =>
    let furthest := f.furthest (rest.map (·.2))
    match b.point.offer with
    | .disjunction _ => some furthest
    | .overload o =>
      let rejected := ((a, f) :: rest).filterMap fun (a, f) =>
        match a with
        | .candidate _ c => some ⟨c.decl, c.type, f.error⟩
        | .minterm .. => none
      some ⟨.noViableCandidate o.name rejected b.point.locator, furthest.progress⟩

/-- The work and the store after an alternative has been entered. The constraints of a minterm
that have no locator take that of the disjunction. -/
def Alternative.enter (a : Alternative) (l : Option Locator) (w : Work) (s : Store) :
    Work × Store :=
  let w := { w with penalty := addPenalty w.penalty a.penalty }
  match a with
  | .candidate o c =>
    let opening := openCandidate s o.type o.name c (l.map (·.extend (.candidate c.decl)))
    ((w.record (.choice o.site opening.choice c.isGeneric)).pushAll opening.constraints,
      opening.store)
  | .minterm i m =>
    let inherited := l.map (·.extend (.minterm i))
    (w.pushAll (m.constraints.map (·.orLocator inherited)), s)

/-! ### The order of alternatives -/

theorem Alternative.le_trans (a b c : Alternative) (hab : a.le b = true) (hbc : b.le c = true) :
    a.le c = true := by
  simp only [Alternative.le, Bool.or_eq_true, Bool.and_eq_true, decide_eq_true_eq, beq_iff_eq,
    Bool.not_eq_true'] at hab hbc ⊢
  grind

theorem Alternative.le_total (a b : Alternative) : (a.le b || b.le a) = true := by
  simp only [Alternative.le, Bool.or_eq_true, Bool.and_eq_true, decide_eq_true_eq, beq_iff_eq,
    Bool.not_eq_true']
  grind

/-- Every alternative is tried, as often as it is listed. -/
theorem Offer.alternatives_perm (o : Offer) : o.alternatives.Perm o.listed :=
  List.mergeSort_perm _ _

/-- No alternative is tried after one that should come later. -/
theorem Offer.pairwise_alternatives (o : Offer) :
    o.alternatives.Pairwise fun a b => a.le b = true :=
  List.pairwise_mergeSort Alternative.le_trans Alternative.le_total _

end Search
end TypeResolution
