/-
# Questions to the table

What a solver asks about declared types: their supertypes, the traits they conform to and
their members. A type conforms to the traits declared on it or on a supertype, and to what
these refine; an existential conforms to its traits and to what they refine. A member is looked up
on the type, then on the supertypes in their order, and then among the requirements of the
traits. The members of a tuple are its elements, by position.

The ways up through supertypes are shorter than the number of declared types, because no type
is above itself; this number bounds the recursion of the lookups.

Key definitions: `Table.supertypes`, `Table.conforms`, `Table.members`,
`Table.element?`, `Table.isExpressible`, `Table.findSupertype`.
-/
import TypeResolution.Numeral
import TypeResolution.Table.Basic

namespace TypeResolution

/-- The arguments of a nominal type by parameter; none if their number is wrong. Of equal
parameters the last one counts. -/
def TypeDecl.arguments (d : TypeDecl) (args : List Ty) : List (Name × Ty) :=
  if d.params.length = args.length then (d.params.zip args).reverse else []

namespace Table

/-- The direct supertypes of a type, with its arguments put in. -/
def supertypes (t : Table) : Ty → List Ty
  | .nominal name args =>
    match t.type? name with
    | none => []
    | some d => d.supertypes.map (Ty.instantiate (d.arguments args))
  | _ => []

/-- The number of steps that a way up through supertypes takes at most. -/
def height (t : Table) : Nat := t.types.length + 1

/-- Appends the names that are not in the list yet. -/
def appendNew (names more : List Name) : List Name :=
  more.foldl (fun names n => if n ∈ names then names else names ++ [n]) names

/-- The traits of a type, looked for at most `fuel` steps up. -/
def conformancesWithin (t : Table) : Nat → Ty → List Name
  | 0, _ => []
  | fuel + 1, type =>
    match type with
    | .nominal name _ =>
      match t.type? name with
      | none => []
      | some d =>
        let inherited := (t.supertypes type).flatMap (t.conformancesWithin fuel)
        reach t.refinementGraph (appendNew d.conformances inherited)
    | .existential traits => reach t.refinementGraph traits.names
    | _ => []

/-- Every trait that a type satisfies by declaration, by refinement or through a supertype. -/
def conformances (t : Table) (type : Ty) : List Name := t.conformancesWithin t.height type

/-- Whether a type satisfies a trait. The error type satisfies all, a literal type only the
trait of its literals. -/
def conforms (t : Table) (type : Ty) (trait : Name) : Bool :=
  match type with
  | .error => true
  | .literal kind => t.names.get? kind.traitName == some trait
  | _ => (t.conformances type).contains trait

/-- Whether a literal can be written where a type is expected. -/
def isExpressible (t : Table) (type : Ty) (kind : LiteralKind) : Bool :=
  type == .literal kind ||
    match t.names.get? kind.traitName with
    | some trait => t.conforms type trait
    | none => false

/-- The type that a literal takes by default. -/
def literalDefault (t : Table) (kind : LiteralKind) : Option Ty := t.literalDefaults.lookup kind

/-- The members of a name that are declared on a type itself. -/
def ownMembers (t : Table) (type : Ty) (name : Name) : List Candidate :=
  match type with
  | .nominal head args =>
    match t.type? head with
    | none => []
    | some d =>
      let declared := (d.members.filter (·.1 == name)).map (·.2)
      declared.map fun c => { c with type := c.type.instantiate (d.arguments args) }
  | _ => []

/-- The first of the lists that is not empty. -/
def firstNonempty {α : Type} : List (List α) → List α
  | [] => []
  | [] :: rest => firstNonempty rest
  | found :: _ => found

/-- The members of a name on a type, or on the first supertype that has any, looked for at
most `fuel` steps up. -/
def declaredMembersWithin (t : Table) : Nat → Ty → Name → List Candidate
  | 0, _, _ => []
  | fuel + 1, type, name =>
    match t.ownMembers type name with
    | [] =>
      firstNonempty ((t.supertypes type).map fun sup => t.declaredMembersWithin fuel sup name)
    | own => own

def declaredMembers (t : Table) (type : Ty) (name : Name) : List Candidate :=
  t.declaredMembersWithin t.height type name

/-- The requirements of a name that the traits have, each declaration once, for a receiver. -/
def requirements (t : Table) (receiver : Ty) (traits : List Name) (name : Name) :
    List Candidate :=
  let required := traits.flatMap fun trait =>
    match t.trait? trait with
    | none => []
    | some d => (d.requirements.filter (·.1 == name)).map (·.2)
  let distinct := required.foldl
    (fun found c => if found.any (·.decl == c.decl) then found else found ++ [c]) []
  distinct.map fun c => { c with type := c.type.instantiate [(t.selfName, receiver)] }

/-- The declarations that a member of a type can be. -/
def members (t : Table) (type : Ty) (name : Name) : List Candidate :=
  match t.declaredMembers type name with
  | [] =>
    match type with
    | .nominal .. | .existential _ => t.requirements type (t.conformances type) name
    | _ => []
  | declared => declared

/-! ### Elements of tuples -/

/-- The element of a tuple that a member of its type names by position. -/
def element? (t : Table) (elements : List Ty) (member : Name) : Option Ty :=
  (unsigned? (t.names.resolve member)).bind (elements[·]?)

/-! ### Supertypes of a given name -/

/-- Whether a type is nominal with the given name. -/
def hasHead (target : Name) : Ty → Bool
  | .nominal name _ => name == target
  | _ => false

/-- The supertypes of the types of a level that have not been seen, and the types seen. -/
def nextLevel (t : Table) : (seen level : List Ty) → List Ty × List Ty
  | seen, [] => (seen, [])
  | seen, type :: rest =>
    if type ∈ seen then t.nextLevel seen rest
    else
      let (seen, above) := t.nextLevel (type :: seen) rest
      (seen, t.supertypes type ++ above)

/-- Looks through a level, and then through at most `fuel` levels above it. -/
def findInLevels (t : Table) (target : Name) : Nat → (seen level : List Ty) → Option Ty
  | 0, _, level => level.find? (hasHead target)
  | fuel + 1, seen, level =>
    match level.find? (hasHead target) with
    | some found => some found
    | none =>
      let (seen, above) := t.nextLevel seen level
      if above.isEmpty then none else t.findInLevels target fuel seen above

/-- The nearest supertype of a given name, the first one of equally near ones. -/
def findSupertype (t : Table) (type : Ty) (target : Name) : Option Ty :=
  t.findInLevels target t.height [] (t.supertypes type)

end Table
end TypeResolution
