/-
# The table of declarations

A table holds the traits, the types and the declarations of a program: which traits a trait
refines and what it requires, and a type's parameters, conformances, supertypes and members.
It is built by operations that each check what they are given and change nothing if they
refuse it: names are declared once, traits before they are used, a supertype is a declared
nominal type that does not have the type itself among its supertypes, and no declaration is
registered twice.

Key definitions: `Candidate`, `Table`, `TableError`, `Table.declareTrait`,
`Table.declareType`, `Table.addConformance`, `Table.addSupertype`, `Table.addMember`,
`Table.addRequirement`.
-/
import TypeResolution.Locator
import TypeResolution.Reach
import TypeResolution.Ty.Basic

namespace TypeResolution

/-- A generic parameter of a declaration, and the traits that its argument conforms to. -/
structure GenericParam where
  name : Name
  bounds : List Name
deriving DecidableEq

/-- A declaration that a reference may resolve to. Its generic parameters occur in its
signature as parameters. -/
structure Candidate where
  decl : DeclId
  type : Ty
  generics : List GenericParam
  /-- How little the declaration is preferred. -/
  penalty : Nat
deriving DecidableEq

namespace Candidate

/-- A declaration without generic parameters that is preferred most. -/
def plain (decl : DeclId) (type : Ty) : Candidate := ⟨decl, type, [], 0⟩

def isGeneric (c : Candidate) : Bool := !c.generics.isEmpty

end Candidate

structure TraitDecl where
  name : Name
  refines : List Name
  requirements : List (Name × Candidate)
deriving DecidableEq

structure TypeDecl where
  name : Name
  params : List Name
  conformances : List Name
  supertypes : List Ty
  members : List (Name × Candidate)
deriving DecidableEq

/-- The declarations of a program. -/
structure Table where
  names : NameTable
  /-- The name that stands for the conforming type in a trait's requirements. -/
  selfName : Name
  traits : List TraitDecl
  types : List TypeDecl
  literalDefaults : List (LiteralKind × Ty)

/-- Why a declaration is refused. -/
inductive TableError where
  | duplicateTrait (name : Name)
  | duplicateType (name : Name)
  | unknownTrait (name : Name)
  | unknownType (name : Name)
  | duplicateDecl (decl : DeclId)
  /-- The supertype is no declared nominal type. -/
  | invalidSupertype (type : Name)
  /-- The type is among the supertypes of its supertype. -/
  | cyclicSupertype (type supertype : Name)
deriving DecidableEq

def TableError.message (names : NameTable) : TableError → String
  | .duplicateTrait n => s!"trait '{names.resolve n}' is declared twice"
  | .duplicateType n => s!"type '{names.resolve n}' is declared twice"
  | .unknownTrait n => s!"unknown trait '{names.resolve n}'"
  | .unknownType n => s!"unknown type '{names.resolve n}'"
  | .duplicateDecl d => s!"declaration {d.render} is registered twice"
  | .invalidSupertype n => s!"supertype of '{names.resolve n}' must be a declared nominal type"
  | .cyclicSupertype n sup =>
    s!"making '{names.resolve sup}' a supertype of '{names.resolve n}' would create a cycle"

namespace Table

/-- The table without declarations. -/
def ofNames (names : NameTable) : Table :=
  let (selfName, names) := names.intern "Self"
  ⟨names, selfName, [], [], []⟩

def trait? (t : Table) (name : Name) : Option TraitDecl := t.traits.find? (·.name == name)

def type? (t : Table) (name : Name) : Option TypeDecl := t.types.find? (·.name == name)

/-- All registered declarations: the members of types, then the requirements of traits. -/
def decls (t : Table) : List DeclId :=
  t.types.flatMap (fun d => d.members.map (·.2.decl)) ++
    t.traits.flatMap (fun d => d.requirements.map (·.2.decl))

/-- Changes the declaration of one type. -/
def modifyType (t : Table) (name : Name) (f : TypeDecl → TypeDecl) : Table :=
  { t with types := t.types.map fun d => if d.name = name then f d else d }

/-- Changes the declaration of one trait. -/
def modifyTrait (t : Table) (name : Name) (f : TraitDecl → TraitDecl) : Table :=
  { t with traits := t.traits.map fun d => if d.name = name then f d else d }

/-- The declared head of each supertype of each type. -/
def supertypeGraph (t : Table) : Reach.Graph :=
  t.types.map fun d => (d.name, d.supertypes.filterMap fun
    | .nominal name _ => some name
    | _ => none)

/-- The traits that each trait refines. -/
def refinementGraph (t : Table) : Reach.Graph := t.traits.map fun d => (d.name, d.refines)

/-- Whether `ancestor` heads a supertype of `type`, directly or through others. -/
def inheritsFrom (t : Table) (type ancestor : Name) : Bool :=
  (reach t.supertypeGraph (Reach.successors t.supertypeGraph type)).contains ancestor

/-! ### Building -/

/-- Refuses the first name that is no declared trait. -/
def checkTraits (t : Table) : List Name → Except TableError Unit
  | [] => .ok ()
  | name :: rest =>
    if (t.trait? name).isSome then t.checkTraits rest else .error (.unknownTrait name)

/-- Declares a trait that refines declared traits. -/
def declareTrait (t : Table) (name : Name) (refines : List Name) : Except TableError Table := do
  if (t.trait? name).isSome then throw (.duplicateTrait name)
  t.checkTraits refines
  return { t with traits := t.traits ++ [⟨name, refines, []⟩] }

/-- Declares a nominal type with its generic parameters. -/
def declareType (t : Table) (name : Name) (params : List Name) : Except TableError Table := do
  if (t.type? name).isSome then throw (.duplicateType name)
  return { t with types := t.types ++ [⟨name, params, [], [], []⟩] }

/-- Makes a type conform to a trait. -/
def addConformance (t : Table) (type trait : Name) : Except TableError Table := do
  t.checkTraits [trait]
  if (t.type? type).isNone then throw (.unknownType type)
  return t.modifyType type fun d =>
    if trait ∈ d.conformances then d else { d with conformances := d.conformances ++ [trait] }

/-- Gives a type a supertype, in which the type's parameters may occur. -/
def addSupertype (t : Table) (type : Name) (supertype : Ty) : Except TableError Table := do
  let .nominal head _ := supertype | throw (.invalidSupertype type)
  if (t.type? head).isNone then throw (.invalidSupertype type)
  if head = type ∨ t.inheritsFrom head type then throw (.cyclicSupertype type head)
  if (t.type? type).isNone then throw (.unknownType type)
  return t.modifyType type fun d => { d with supertypes := d.supertypes ++ [supertype] }

/-- Gives a type a member. Its signature may mention the parameters of the type. -/
def addMember (t : Table) (type member : Name) (c : Candidate) : Except TableError Table := do
  if (t.type? type).isNone then throw (.unknownType type)
  t.checkTraits (c.generics.flatMap (·.bounds))
  if c.decl ∈ t.decls then throw (.duplicateDecl c.decl)
  return t.modifyType type fun d => { d with members := d.members ++ [(member, c)] }

/-- Makes a trait require a member. In its signature the self name stands for the conforming
type. -/
def addRequirement (t : Table) (trait member : Name) (decl : DeclId) (type : Ty) :
    Except TableError Table := do
  t.checkTraits [trait]
  if decl ∈ t.decls then throw (.duplicateDecl decl)
  return t.modifyTrait trait fun d =>
    { d with requirements := d.requirements ++ [(member, .plain decl type)] }

/-- Sets the type that a literal takes by default. -/
def setLiteralDefault (t : Table) (kind : LiteralKind) (type : Ty) : Table :=
  { t with literalDefaults := (kind, type) :: t.literalDefaults.filter (·.1 != kind) }

end Table
end TypeResolution
