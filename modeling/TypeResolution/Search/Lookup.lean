/-
# Lookups of the search

A step of the search looks up variables in the store: those that a goal is about when it is
simplified, those that the goals put aside wait for, and those of the system when a path ends.
If the store does not have one of them, the program ends there without an answer.

Key definitions: `Relation.decisive`, `simplifyOwns`, `State.owns`, `State.run?`.
-/
import TypeResolution.Search.State
import TypeResolution.Store.Lookup

namespace TypeResolution

/-- The types that are looked at before anything is said about a relation. -/
def Relation.decisive : Relation → List Ty
  | .equality l r | .subtyping l r | .returnBinding l r => [l, r]
  | .conformance t _ | .conversion t _ => [t]
  | .valueMember base _ _ _ => [base]
  | .size _ => []

namespace Search

variable (t : Table)

/-- Whether the store has what is looked up when two types that are not variables are compared.
A conflict tells both types in full. -/
def simplifyShapesOwns (s : Store) (a b : Ty) : Bool :=
  let told := s.ownsAll a && s.ownsAll b
  match a, b with
  | _, .existential _ => true
  | .literal _, _ => true
  | .function ps _, .function qs _ => ps.map (·.1) = qs.map (·.1) || told
  | .tuple as, .tuple bs => as.length = bs.length || told
  | .nominal n as, .nominal m bs =>
    (n = m ∧ as.length = bs.length) || s.ownsAll a &&
      ((t.findSupertype (s.apply a) m).isSome || s.ownsAll b)
  | _, _ => told

def simplifySubtypingOwns (s : Store) (a b : Ty) : Bool :=
  let (a, s) := s.shallow a
  let (b, s) := s.shallow b
  if a = b then true
  else
    match a, b with
    | .error, _ | _, .error => true
    | .var _, _ | _, .var _ => true
    | a, b => simplifyShapesOwns t s a b

/-- Whether the store has what is looked up when a type that is not a variable is asked about. -/
def simplifyTypeOwns (s : Store) (type : Ty) : Bool :=
  let (type, s) := s.shallow type
  match type with
  | .var _ | .error => true
  | type => s.ownsAll type

def simplifyMemberOwns (s : Store) (base : Ty) (member : Name) : Bool :=
  let (base, s) := s.shallow base
  match base with
  | .var _ | .error => true
  | .tuple elements => (t.element? elements member).isSome || s.ownsAll base
  | base => s.ownsAll base

/-- Whether the store has what is looked up when a relation is simplified. -/
def simplifyOwns (s : Store) (r : Relation) : Bool :=
  r.decisive.all s.ownsTop &&
    match r with
    | .equality a b => s.unifyOwns a b
    | .subtyping a b | .returnBinding a b => simplifySubtypingOwns t s a b
    | .conformance type _ | .conversion type _ => simplifyTypeOwns s type
    | .valueMember base member _ _ => simplifyMemberOwns t s base member
    | .size _ => true

/-- Whether the store has what a goal that was put aside is about, and what it waits for. -/
def Deferred.owned (d : Deferred) (s : Store) : Bool :=
  d.goal.relation.decisive.all s.ownsTop && d.watch.all s.owns

namespace State

variable (ctx : Context)

/-- Whether the store has every variable that the next step looks up. -/
def owns (s : State) : Bool :=
  ctx.varCount ≤ s.store.size &&
    match s.path with
    | .failed _ => true
    | .open work =>
      work.deferred.all (·.owned s.store) &&
        match work.turn ctx s.store with
        | .simplify goal _ => simplifyOwns ctx.table s.store goal.relation
        | _ => true

/-- Searches for at most the given number of steps, and has no answer if a step looks up a
variable that the store does not have. Once the steps have run out no goal is simplified. -/
def run? : Nat → State → Option (Except Unsolved Solution)
  | 0, s => some (s.run ctx 0)
  | stepsLeft + 1, s =>
    if s.owns ctx then
      match s.step ctx with
      | .done answer => some answer
      | .next s => run? stepsLeft s
    else none

end State
end Search
end TypeResolution
