/-
# Simplification

One step on one relation: it is discharged, perhaps in favour of smaller constraints, or put
aside because a variable hides what it depends on, or found to be violated. The smaller
constraints have the locator of the relation, extended by the step into its types.

Subtyping compares functions parameter by parameter, in the opposite direction unless
arguments are written back, and then their results; tuples element by element; and arguments
of nominal types for equality. A nominal type of another name fits if the nearest of the
supertypes that has this name is equal to it.

Key definitions: `Simplified`, `simplify`.
-/
import TypeResolution.Search.Opening
import TypeResolution.Store.Unify
import TypeResolution.Table.Query
import TypeResolution.TypeError

namespace TypeResolution

/-- What a conflict says about types that were to fit. -/
def UnifyError.toTypeError (fit : Fit) (l : Option Locator) : UnifyError → TypeError
  | .mismatch a b => .mismatch fit a b l
  | .occurs v t => .infinite v t l

namespace Search

/-- What simplifying a relation comes to. -/
inductive Simplified where
  | discharged (children : List Constraint) (entry : Option Entry)
  /-- Nothing can be said before one of the variables is bound. -/
  | undecided (watch : List TyVar)
  | violated (error : TypeError)

namespace Simplified

/-- Nothing is left of the relation. -/
def settled : Simplified := .discharged [] none

/-- The relation comes down to constraints. -/
def expanded (children : List Constraint) : Simplified := .discharged children none

end Simplified

/-- The locator of a part. -/
def extended (l : Option Locator) (step : PathStep) : Option Locator := l.map (·.extend step)

/-- The subtyping between parts of two types that are to fit. -/
def fitting : Fit → Ty → Ty → Relation
  | .returned, a, b => .returnBinding a b
  | _, a, b => .subtyping a b

/-- What subtyping asks of a pair of parameters with one convention. -/
def parameterRelation (p q : Parameter) : Relation :=
  if p.1.isOneWay then .subtyping q.2 p.2 else .equality p.2 q.2

/-- One constraint per pair, each with its own step into the types. -/
def pairwise {α : Type} (l : Option Locator) (step : Nat → PathStep) (relate : α → α → Relation)
    (as bs : List α) : List Constraint :=
  (as.zip bs).mapIdx fun i (a, b) => .relation (relate a b) (extended l (step i))

variable (t : Table)

/-- Compares two types that are not variables and not equal. -/
def simplifyShapes (s : Store) (fit : Fit) (a b : Ty) (l : Option Locator) : Simplified × Store :=
  let mismatch : Simplified := .violated (.mismatch fit (s.apply a) (s.apply b) l)
  match a, b with
  | a, .existential traits => (.expanded [.relation (.conformance a traits) l], s)
  | .literal kind, b => (.expanded [.relation (.conversion b kind) l], s)
  | .function ps r, .function qs u =>
    if ps.map (·.1) = qs.map (·.1) then
      (.expanded (pairwise l .argument parameterRelation ps qs ++
        [.relation (fitting fit r u) (extended l .result)]), s)
    else (mismatch, s)
  | .tuple as, .tuple bs =>
    if as.length = bs.length then (.expanded (pairwise l .element (fitting fit) as bs), s)
    else (mismatch, s)
  | .nominal n as, .nominal m bs =>
    if n = m ∧ as.length = bs.length then
      (.expanded (pairwise l .generic .equality as bs), s)
    else
      match t.findSupertype (s.apply a) m with
      | none => (mismatch, s)
      | some supertype =>
        let (supertype, _, s) := openParams s [] supertype
        (.expanded [.relation (.equality supertype b) l], s)
  | _, _ => (mismatch, s)

def simplifySubtyping (s : Store) (fit : Fit) (a b : Ty) (l : Option Locator) :
    Simplified × Store :=
  let (a, s) := s.shallow a
  let (b, s) := s.shallow b
  if a = b then (.settled, s)
  else
    match a, b with
    | .error, _ | _, .error => (.settled, s)
    | .var v, .var w => (.undecided [v, w], s)
    | .var v, _ | _, .var v => (.undecided [v], s)
    | a, b => simplifyShapes t s fit a b l

def simplifyConformance (s : Store) (type : Ty) (traits : TraitSet) (l : Option Locator) :
    Simplified × Store :=
  let (type, s) := s.shallow type
  match type with
  | .var v => (.undecided [v], s)
  | .error => (.settled, s)
  | type =>
    let type := s.apply type
    match traits.names.find? fun trait => !t.conforms type trait with
    | some trait => (.violated (.nonconforming type trait l), s)
    | none => (.settled, s)

def simplifyConversion (s : Store) (type : Ty) (literal : LiteralKind) (l : Option Locator) :
    Simplified × Store :=
  let (type, s) := s.shallow type
  match type with
  | .var v => (.undecided [v], s)
  | .error => (.settled, s)
  | type =>
    let applied := s.apply type
    if type = .literal literal then (.settled, s)
    else if t.isExpressible applied literal then (.discharged [] (some .conversion), s)
    else (.violated (.inexpressible applied literal l), s)

/-- A member of the error type is of the error type, and one of a tuple is an element. Of other
types a single candidate is chosen, and several are an overload. -/
def simplifyMember (s : Store) (base : Ty) (member : Name) (type : Ty) (site : NodeId)
    (l : Option Locator) : Simplified × Store :=
  let (base, s) := s.shallow base
  let inMember := extended l (.member member)
  match base with
  | .var v => (.undecided [v], s)
  | .error => (.expanded [.relation (.equality type .error) inMember], s)
  | .tuple elements =>
    match t.element? elements member with
    | some element => (.expanded [.relation (.equality element type) inMember], s)
    | none => (.violated (.missingMember (s.apply base) member l), s)
  | base =>
    let receiver := s.apply base
    match t.members receiver member with
    | [] => (.violated (.missingMember receiver member l), s)
    | [c] =>
      let opening := openCandidate s type member c inMember
      (.discharged opening.constraints (some (.choice site opening.choice c.isGeneric)),
        opening.store)
    | candidates => (.expanded [.overload ⟨type, member, site, candidates⟩ inMember], s)

/-- One step on a relation. -/
def simplify (s : Store) (r : Relation) (l : Option Locator) : Simplified × Store :=
  match r with
  | .equality a b =>
    match s.unify a b with
    | ⟨s, none⟩ => (.settled, s)
    | ⟨s, some conflict⟩ => (.violated (conflict.toTypeError .equal l), s)
  | .subtyping a b => simplifySubtyping t s .subtype a b l
  | .returnBinding a b => simplifySubtyping t s .returned a b l
  | .conformance type traits => simplifyConformance t s type traits l
  | .conversion type literal => simplifyConversion t s type literal l
  | .valueMember base member type site => simplifyMember t s base member type site l
  | .size predicate => (.discharged [] (some (.predicate predicate)), s)

end Search
end TypeResolution
