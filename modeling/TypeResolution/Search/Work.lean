/-
# Work

What is left to do on a path of the search, and what the path has come to so far. Relations
wait in a queue, ordered by precedence and then by the order in which they came in; those that
cannot be decided yet are put aside until a variable that they watch is bound or joined to
another one; choices wait until no relation is left in the queue, and the one with the fewest
alternatives comes first.

Key definitions: `Goal`, `Deferred`, `BranchPoint`, `Choice`, `Work`, `Work.push`,
`Work.record`, `Work.wake`.
-/
import TypeResolution.Constraint
import TypeResolution.Diagnostic
import TypeResolution.Store.Basic

namespace TypeResolution
namespace Search

/-- A relation that waits to be simplified. -/
structure Goal where
  /-- The number of constraints that came in before it. -/
  ordinal : Nat
  relation : Relation
  locator : Option Locator
deriving DecidableEq

/-- A goal that cannot be decided before one of the watched variables is. -/
structure Deferred where
  goal : Goal
  watch : List TyVar
deriving DecidableEq

/-- What a branch point offers. -/
inductive Offer where
  | overload (overload : Overload)
  | disjunction (minterms : List (Minterm Constraint))

/-- A choice that waits to be made. -/
structure BranchPoint where
  ordinal : Nat
  offer : Offer
  locator : Option Locator

/-- The candidate that a reference was settled on. -/
structure Choice where
  decl : DeclId
  name : Name
  /-- The type of the candidate as it is declared. -/
  signature : Ty
  locator : Option Locator
deriving DecidableEq

/-- What a discharged constraint leaves behind besides constraints. -/
inductive Entry where
  /-- A literal got a type that is not the type of its literals. -/
  | conversion
  | predicate (predicate : SizePredicate)
  | choice (site : NodeId) (choice : Choice) ( isGeneric : Bool)

/-- The work of a path, and what the path has come to. -/
structure Work where
  queue : List Goal := []
  deferred : List Deferred := []
  branches : List BranchPoint := []
  nextOrdinal : Nat := 0
  penalty : Nat := 0
  /-- The number of references that were settled on a generic candidate. -/
  genericChoices : Nat := 0
  conversions : Nat := 0
  /-- The settled references, in the order in which they were first settled. -/
  choices : List (NodeId × Choice) := []
  predicates : List SizePredicate := []
  /-- The latest warning comes first. -/
  warnings : List Diagnostic := []
  /-- The number of constraints that were discharged. -/
  progress : Nat := 0

namespace Goal

/-- Whether one goal is simplified before another. -/
def before (a b : Goal) : Bool :=
  a.relation.precedence.rank < b.relation.precedence.rank ||
    (a.relation.precedence.rank == b.relation.precedence.rank && a.ordinal < b.ordinal)

end Goal

namespace BranchPoint

def alternativeCount (b : BranchPoint) : Nat :=
  match b.offer with
  | .overload o => o.candidates.length
  | .disjunction ms => ms.length

/-- Whether one choice is made before another. -/
def before (a b : BranchPoint) : Bool :=
  a.alternativeCount < b.alternativeCount ||
    (a.alternativeCount == b.alternativeCount && a.ordinal < b.ordinal)

end BranchPoint

/-- Puts an item in front of the first one that comes after it. -/
def insertBefore {α : Type} (before : α → α → Bool) (item : α) : List α → List α
  | [] => [item]
  | a :: rest => if before item a then item :: a :: rest else a :: insertBefore before item rest

/-- Sets the value of a key, which keeps its place if it has one. -/
def setKey {κ α : Type} [DecidableEq κ] (key : κ) (value : α) : List (κ × α) → List (κ × α)
  | [] => [(key, value)]
  | (k, a) :: rest => if k = key then (k, value) :: rest else (k, a) :: setKey key value rest

/-- The largest penalty. -/
def maxPenalty : Nat := UInt32.size - 1

/-- A sum of penalties, which does not grow above the largest one. -/
def addPenalty (a b : Nat) : Nat := min (a + b) maxPenalty

namespace Work

/-- A constraint comes in. -/
def push (w : Work) (c : Constraint) : Work :=
  let ordinal := w.nextOrdinal
  let w := { w with nextOrdinal := ordinal + 1 }
  match c with
  | .relation r l => { w with queue := insertBefore Goal.before ⟨ordinal, r, l⟩ w.queue }
  | .overload o l =>
    { w with branches := insertBefore BranchPoint.before ⟨ordinal, .overload o, l⟩ w.branches }
  | .disjunction ms l =>
    { w with branches := insertBefore BranchPoint.before ⟨ordinal, .disjunction ms, l⟩ w.branches }

/-- Constraints come in one after the other. -/
def pushAll (w : Work) (cs : List Constraint) : Work := cs.foldl push w

/-- Puts a goal aside. -/
def defer (w : Work) (goal : Goal) (watch : List TyVar) : Work :=
  { w with
    deferred := insertBefore (fun a b => a.goal.ordinal < b.goal.ordinal) ⟨goal, watch⟩
      w.deferred }

def record (w : Work) : Entry → Work
  | .conversion => { w with conversions := w.conversions + 1 }
  | .predicate p => { w with predicates := w.predicates ++ [p] }
  | .choice site choice isGeneric =>
    { w with
      choices := setKey site choice w.choices
      genericChoices := if isGeneric then w.genericChoices + 1 else w.genericChoices }

/-- A constraint is discharged, with what it leaves behind. -/
def discharge (w : Work) (children : List Constraint) (entry : Option Entry) : Work :=
  let w := { w with progress := w.progress + 1 }
  let w := match entry with
    | none => w
    | some e => w.record e
  w.pushAll children

end Work

/-- Whether a watched variable is bound or joined to another one. -/
def Deferred.isReady (d : Deferred) (s : Store) : Bool := d.watch.any fun v => s.probe v != .var v

/-- Queues the goals again that were put aside and have become ready. -/
def Work.wake (w : Work) (s : Store) : Work :=
  let (ready, rest) := w.deferred.partition (·.isReady s)
  { w with
    deferred := rest
    queue := ready.foldl (fun queue d => insertBefore Goal.before d.goal queue) w.queue }

/-! ### Laws of ordered insertion -/

theorem mem_insertBefore {α : Type} {before : α → α → Bool} {item x : α} : ∀ {items : List α},
    x ∈ insertBefore before item items ↔ x = item ∨ x ∈ items
  | [] => by simp [insertBefore]
  | a :: rest => by
    unfold insertBefore
    split
    · simp
    · simp [@mem_insertBefore α before item x rest, or_left_comm]

theorem length_insertBefore {α : Type} (before : α → α → Bool) (item : α) : ∀ items : List α,
    (insertBefore before item items).length = items.length + 1
  | [] => rfl
  | a :: rest => by
    unfold insertBefore
    split
    · rfl
    · simp [length_insertBefore before item rest]

/-- The key set last has its value, the others keep theirs. -/
theorem lookup_setKey {κ α : Type} [DecidableEq κ] (key k : κ) (value : α) (items : List (κ × α)) :
    (setKey key value items).lookup k = if k = key then some value else items.lookup k := by
  induction items with
  | nil =>
    by_cases h : k = key
    · simp [setKey, h]
    · have hb : (k == key) = false := by simpa using h
      simp [setKey, List.lookup_cons, hb, h]
  | cons item rest ih =>
    obtain ⟨n, a⟩ := item
    by_cases hn : n = key
    · subst hn
      by_cases h : k = n
      · simp [setKey, h]
      · have hb : (k == n) = false := by simpa using h
        simp [setKey, List.lookup_cons, hb, h]
    · by_cases h : k = n
      · subst h
        simp [setKey, hn]
      · have hb : (k == n) = false := by simpa using h
        simp [setKey, hn, List.lookup_cons, hb, ih]

end Search
end TypeResolution
