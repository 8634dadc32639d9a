/-
# Whether a solution satisfies a system

The relations of a system are looked at once more, this time on the types that a solution
gives and without a store or a search. The error type agrees with every type. A type is a
subtype of another one if they agree, part by part for functions and tuples, if it is a
literal that the other one can be written as, if it conforms to the traits of the other one,
or if one of its supertypes is a subtype or a pattern of the other one. A reference is at its
declaration's signature with types in place of the generic parameters that satisfy their
bounds.

Key definitions: `agree`, `matchPattern`, `Table.isSubtype`, `Solution.satisfies`,
`System.violated`.
-/
import TypeResolution.System
import TypeResolution.Table.Query

namespace TypeResolution

/-! ### Agreement -/

mutual
/-- Whether two types are the same up to parts that are of the error type in one of them. -/
def agree : Ty → Ty → Bool
  | .error, _ => true
  | _, .error => true
  | .nominal n as, .nominal m bs => n == m && agreeAll as bs
  | .function ps r, .function qs u => agreeParams ps qs && agree r u
  | .tuple as, .tuple bs => agreeAll as bs
  | a, b => a == b

def agreeAll : List Ty → List Ty → Bool
  | [], [] => true
  | a :: as, b :: bs => agree a b && agreeAll as bs
  | _, _ => false

def agreeParams : List Parameter → List Parameter → Bool
  | [], [] => true
  | (c, a) :: ps, (d, b) :: qs => c == d && agree a b && agreeParams ps qs
  | _, _ => false
end

/-! ### Patterns -/

/-- What generic parameters stand for. -/
abbrev Assignment := List (Name × Ty)

mutual
/-- Completes an assignment, so that the pattern with it agrees with a type, if possible. -/
def matchPattern : Ty → Ty → Assignment → Option Assignment
  | .param name, t, known =>
    match known.lookup name with
    | some assigned => if agree assigned t then some known else none
    | none => some ((name, t) :: known)
  | _, .error, known => some known
  | .nominal n as, .nominal m bs, known => if n = m then matchAll as bs known else none
  | .function ps r, .function qs u, known => (matchParams ps qs known).bind (matchPattern r u)
  | .tuple as, .tuple bs, known => matchAll as bs known
  | pattern, t, known => if pattern = t then some known else none

def matchAll : List Ty → List Ty → Assignment → Option Assignment
  | [], [], known => some known
  | a :: as, b :: bs, known => (matchPattern a b known).bind (matchAll as bs)
  | _, _, _ => none

def matchParams : List Parameter → List Parameter → Assignment → Option Assignment
  | [], [], known => some known
  | (c, a) :: ps, (d, b) :: qs, known =>
    if c = d then (matchPattern a b known).bind (matchParams ps qs) else none
  | _, _, _ => none
end

/-! ### Subtyping -/

namespace Table

/-- Whether a way up through at most `fuel` supertypes leads from a nominal type to another. -/
def climbsTo (t : Table) : Nat → (sub sup : Ty) → Bool
  | 0, sub, sup => agree sub sup
  | fuel + 1, sub, sup =>
    agree sub sup ||
      match sub, sup with
      | .nominal n _, .nominal m _ =>
        n != m && (t.supertypes sub).any fun s =>
          (s.hasParams && (matchPattern s sup []).isSome) || t.climbsTo fuel s sup
      | _, _ => false

/-- Subtyping where no parts are compared. -/
def isSubtypeAtTop (t : Table) (sub sup : Ty) : Bool :=
  match sub, sup with
  | sub, .existential traits => traits.names.all (t.conforms sub)
  | .literal kind, sup => t.isExpressible sup kind
  | sub, sup => t.climbsTo t.height sub sup

mutual
/-- Subtyping in the given direction: of the first type in the second one if `upward`, else of
the second one in the first. -/
def isSubtypeToward (t : Table) (upward : Bool) (a b : Ty) : Bool :=
  agree a b ||
    match a, b with
    | .function ps r, .function qs u =>
      t.areSubtypeParams upward ps qs && t.isSubtypeToward upward r u
    | .tuple as, .tuple bs => t.areSubtypesToward upward as bs
    | a, b => if upward then t.isSubtypeAtTop a b else t.isSubtypeAtTop b a

def areSubtypesToward (t : Table) (upward : Bool) : List Ty → List Ty → Bool
  | [], [] => true
  | a :: as, b :: bs => t.isSubtypeToward upward a b && t.areSubtypesToward upward as bs
  | _, _ => false

def areSubtypeParams (t : Table) (upward : Bool) : List Parameter → List Parameter → Bool
  | [], [] => true
  | (c, a) :: ps, (d, b) :: qs =>
    c == d && (if c.isOneWay then t.isSubtypeToward (!upward) a b else agree a b) &&
      t.areSubtypeParams upward ps qs
  | _, _ => false
end

/-- Whether values of a type can be used as values of another one. -/
def isSubtype (t : Table) (sub sup : Ty) : Bool := t.isSubtypeToward true sub sup

end Table

/-! ### Constraints -/

/-- Whether a type is the signature of a candidate at types that satisfy the bounds. -/
def Candidate.hasInstance (c : Candidate) (t : Table) (type : Ty) : Bool :=
  match matchPattern c.type type [] with
  | none => false
  | some assignment =>
    c.generics.all fun g =>
      match assignment.lookup g.name with
      | none => true
      | some arg => g.bounds.all (t.conforms arg)

namespace Solution

/-- Whether the reference at a node is to one of the candidates, at an instance of it. -/
def refersTo (s : Solution) (t : Table) (candidates : List Candidate) (site : NodeId) (type : Ty) :
    Bool :=
  match (s.reference? site).bind fun decl => candidates.find? (·.decl == decl) with
  | none => false
  | some c => c.hasInstance t type

/-- Whether a relation holds. -/
def satisfiesRelation (s : Solution) (t : Table) : Relation → Bool
  | .equality a b => agree (s.apply a) (s.apply b)
  | .subtyping a b | .returnBinding a b => t.isSubtype (s.apply a) (s.apply b)
  | .conformance type traits => traits.names.all (t.conforms (s.apply type))
  | .conversion type literal =>
    s.apply type == .error || t.isExpressible (s.apply type) literal
  | .valueMember base member type site =>
    match s.apply base with
    | .error => true
    | .tuple elements =>
      match t.element? elements member with
      | none => false
      | some element => agree element (s.apply type)
    | base => s.refersTo t (t.members base member) site (s.apply type)
  | .size predicate => s.predicates.contains predicate

mutual
/-- Whether a constraint holds. -/
def satisfies (s : Solution) (t : Table) : Constraint → Bool
  | .relation r _ => s.satisfiesRelation t r
  | .overload o _ => s.refersTo t o.candidates o.site (s.apply o.type)
  | .disjunction ms _ => s.satisfiesAny t ms

def satisfiesAny (s : Solution) (t : Table) : List (Minterm Constraint) → Bool
  | [] => false
  | ⟨cs, _⟩ :: ms => s.satisfiesAll t cs || s.satisfiesAny t ms

def satisfiesAll (s : Solution) (t : Table) : List Constraint → Bool
  | [] => true
  | c :: cs => s.satisfies t c && s.satisfiesAll t cs
end

/-- The variables to which a generic parameter has got, as equalities that must not hold. -/
def leaks (s : Solution) : List Constraint :=
  (s.bindings.filter (·.2.hasParams)).map fun (v, t) => .relation (.equality (.var v) t) none

end Solution

/-- The constraints that a solution violates, and the types in it that no type may have. -/
def System.violated (system : System) (t : Table) (s : Solution) : List Constraint :=
  (system.constraints.filter fun c => !s.satisfies t c) ++ s.leaks

end TypeResolution
