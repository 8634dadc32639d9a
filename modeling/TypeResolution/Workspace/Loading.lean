/-
# Loading of workspaces

Loading gives a document its meaning: names are interned, texts become types, the environment
becomes a table of declarations and each unit a system of constraints. Everything shares one
table of names, in which a name keeps the place at which loading first met it; this is the
order of the traits of an existential type.

Traits are declared in the order in which they are listed, so a trait stands after those it
refines. Types may refer to each other in any order: all of them are declared before the
first of them gets its conformances, supertypes and members.

Key definitions: `LoadError`, `Load`, `EnvironmentEntry.toTable`, `UnitEntry.toSystem`,
`Workspace.ofText`.
-/
import TypeResolution.Notation.Reader
import TypeResolution.System
import TypeResolution.Workspace.Document

namespace TypeResolution
namespace Workspace

/-- Why a text is no workspace. -/
inductive LoadError where
  /-- It is no document. -/
  | malformed
  | config (error : ConfigError)
  | table (error : TableError)
  /-- A text is no type. -/
  | badType (text : String) (error : SyntaxError)
  /-- A unit mentions a variable that it does not declare. -/
  | unknownVariable (unit : String) (var : TyVar) (declared : Nat)
  | tooManyVariables (unit : String) (declared : Nat)
  | unknownLiteral (keyword : String)

/-- The largest number of variables of a unit. -/
def maxVariables : Nat := 1 <<< 20

namespace LoadError

def message (names : NameTable) : LoadError → String
  | .malformed => "invalid workspace JSON"
  | .config e => e.message
  | .table e => e.message names
  | .badType text e => s!"invalid type `{text}`: {e.message}"
  | .unknownVariable unit v declared =>
    s!"unit '{unit}' uses type variable {v.render} but declares only {declared}"
  | .tooManyVariables unit declared =>
    s!"unit '{unit}' declares {declared} type variables; at most {maxVariables} are allowed"
  | .unknownLiteral keyword => s!"unknown literal kind '{keyword}'"

/-- The stable name of the kind of error. -/
def code : LoadError → String
  | .malformed => "tyre::driver::json"
  | .config _ => "tyre::driver::config"
  | .table _ => "tyre::driver::table"
  | .badType .. => "tyre::driver::syntax"
  | .unknownVariable .. => "tyre::driver::unknown_variable"
  | .tooManyVariables .. => "tyre::driver::too_many_variables"
  | .unknownLiteral _ => "tyre::driver::unknown_literal"

/-- What to write instead, where that can be said. -/
def help? : LoadError → Option String
  | .unknownVariable .. => some "raise the unit's \"variables\" count"
  | .unknownLiteral _ => some "literal kinds are integer, float, string and boolean"
  | _ => none

/-- The marked part of the text of a type, and the words at it. -/
def label? : LoadError → Option (Span × String)
  | .badType _ e => some (e.span, e.message)
  | _ => none

end LoadError

/-- A step of loading, which interns names and may fail. -/
abbrev Load := ExceptT LoadError (StateM NameTable)

namespace Load

def intern (text : String) : Load Name := modifyGet fun names => names.intern text

def internAll (texts : List String) : Load (List Name) :=
  modifyGet fun names => names.internAll texts

/-- The type that a text writes; `scope` holds the generic parameters. -/
def type (scope : List Name) (text : String) : Load Ty := do
  let (result, names) := Notation.readType (← get) scope text
  set names
  match result with
  | .ok t => return t
  | .error e => throw (.badType text e)

def literal (keyword : String) : Load LiteralKind :=
  match LiteralKind.ofKeyword? keyword with
  | some kind => return kind
  | none => throw (.unknownLiteral keyword)

/-- The table after a declaration, unless it is refused. -/
def declare (result : Except TableError Table) : Load Table :=
  match result with
  | .ok t => return t
  | .error e => throw (.table e)

end Load

/-! ### Environments -/

def GenericEntry.toParam (g : GenericEntry) : Load GenericParam := do
  let name ← Load.intern g.name
  return ⟨name, ← Load.internAll g.bounds⟩

/-- A declaration whose signature may mention the parameters in scope and its own. -/
def DeclEntry.toCandidate (scope : List Name) (d : DeclEntry) : Load Candidate := do
  let generics ← d.generics.mapM GenericEntry.toParam
  let type ← Load.type (scope ++ generics.map (·.name)) d.type
  return ⟨⟨d.decl⟩, type, generics, d.penalty⟩

/-- The name of a member; an entry without a name declares a member of the empty name. -/
def DeclEntry.memberName (d : DeclEntry) : Load Name := Load.intern (d.name.getD "")

def declareTrait (t : Table) (entry : TraitEntry) : Load Table := do
  let refines ← Load.internAll entry.refines
  let name ← Load.intern entry.name
  Load.declare (t.declareTrait name refines)

def declareType (t : Table) (entry : TypeEntry) : Load Table := do
  let params ← Load.internAll entry.params
  let name ← Load.intern entry.name
  Load.declare (t.declareType name params)

/-- Gives a declared type its conformances, supertypes and members. -/
def completeType (t : Table) (entry : TypeEntry) : Load Table := do
  let name ← Load.intern entry.name
  let params ← Load.internAll entry.params
  let t ← entry.conforms.foldlM (fun t trait => do
    Load.declare (t.addConformance name (← Load.intern trait))) t
  let t ← entry.supertypes.foldlM (fun t text => do
    Load.declare (t.addSupertype name (← Load.type params text))) t
  entry.members.foldlM (fun t d => do
    let member ← d.memberName
    Load.declare (t.addMember name member (← d.toCandidate params))) t

/-- Gives a declared trait its requirements, in which the self name is a parameter. -/
def completeTrait (t : Table) (entry : TraitEntry) : Load Table := do
  let name ← Load.intern entry.name
  entry.requirements.foldlM (fun t d => do
    let c ← d.toCandidate [t.selfName]
    let member ← d.memberName
    Load.declare (t.addRequirement name member c.decl c.type)) t

def addDefault (t : Table) (entry : String × String) : Load Table := do
  let kind ← Load.literal entry.1
  return t.setLiteralDefault kind (← Load.type [] entry.2)

/-- The table of the declarations of an environment. -/
def EnvironmentEntry.toTable (e : EnvironmentEntry) : Load Table := do
  let t := Table.ofNames (← get)
  set t.names
  let t ← e.traits.foldlM declareTrait t
  let t ← e.types.foldlM declareType t
  let t ← e.types.foldlM completeType t
  let t ← e.traits.foldlM completeTrait t
  let t ← e.literalDefaults.foldlM addDefault t
  return { t with names := ← get }

/-! ### Units -/

section Units

variable (unit : UnitEntry)

/-- Refuses a type with a variable that the unit does not declare. -/
def checkVars (t : Ty) : Load Unit :=
  match t.vars.find? fun v => unit.varCount ≤ v.index with
  | some v => throw (.unknownVariable unit.name v unit.varCount)
  | none => return ()

/-- The type that a text writes in a unit. -/
def operand (text : String) : Load Ty := do
  let t ← Load.type [] text
  checkVars unit t
  return t

def RelationEntry.toRelation : RelationEntry → Load Relation
  | .equality l r => return .equality (← operand unit l) (← operand unit r)
  | .subtyping l r => return .subtyping (← operand unit l) (← operand unit r)
  | .conformance t traits =>
    return .conformance (← operand unit t) (.ofList (← Load.internAll traits))
  | .conversion t literal => return .conversion (← operand unit t) (← Load.literal literal)
  | .returnBinding l r => return .returnBinding (← operand unit l) (← operand unit r)
  | .valueMember base member t site =>
    return .valueMember (← operand unit base) (← Load.intern member) (← operand unit t) ⟨site⟩
  | .size id description => return .size ⟨id, description⟩

def OverloadEntry.toOverload (o : OverloadEntry) : Load Overload := do
  let candidates ← o.candidates.mapM fun d => do
    let c ← d.toCandidate []
    checkVars unit c.type
    return c
  let type ← operand unit o.type
  return ⟨type, ← Load.intern o.name, ⟨o.site⟩, candidates⟩

/-- The locator of a node, if there is one. -/
def locatorAt (node : Option Nat) : Option Locator := node.map fun n => .ofNode ⟨n⟩

mutual
def ConstraintEntry.toConstraint : ConstraintEntry → Load Constraint
  | .relation r node => return .relation (← r.toRelation unit) (locatorAt node)
  | .overload o node => return .overload (← o.toOverload unit) (locatorAt node)
  | .disjunction ms node => return .disjunction (← toMinterms ms) (locatorAt node)

def toMinterms : List (Minterm ConstraintEntry) → Load (List (Minterm Constraint))
  | [] => return []
  | ⟨cs, penalty⟩ :: ms => do
    let m : Minterm Constraint := ⟨← toConstraints cs, penalty⟩
    return m :: (← toMinterms ms)

def toConstraints : List ConstraintEntry → Load (List Constraint)
  | [] => return []
  | c :: cs => do
    let c ← c.toConstraint
    return c :: (← toConstraints cs)
end

/-- The system of a unit. -/
def UnitEntry.toSystem : Load System := do
  if maxVariables < unit.varCount then
    throw (.tooManyVariables unit.name unit.varCount)
  return ⟨unit.varCount, ← toConstraints unit unit.constraints, []⟩

end Units
end Workspace

/-! ### Workspaces -/

/-- One group of constraints that is checked by itself, such as the body of a function. -/
structure TypingUnit where
  name : String
  system : System

/-- The units of a program, and what they share. -/
structure Workspace where
  table : Table
  options : CheckerOptions
  units : List TypingUnit

namespace Workspace

/-- The workspace of a document. -/
def Document.toWorkspace (d : Document) : Load Workspace := do
  let options := d.options.getD {}
  match options.validate with
  | .error e => throw (.config e)
  | .ok () =>
    let table ← d.environment.toTable
    let units ← d.units.mapM fun entry => do
      return (⟨entry.name, ← entry.toSystem⟩ : TypingUnit)
    return ⟨{ table with names := ← get }, options, units⟩

/-- The workspace that a text writes, or why there is none and the names met until then. -/
def ofText (text : String) : Except (LoadError × NameTable) Workspace :=
  match Document.ofText? text with
  | none => .error (.malformed, .empty)
  | some d =>
    match d.toWorkspace.run.run .empty with
    | (.ok w, _) => .ok w
    | (.error e, names) => .error (e, names)

end Workspace
end TypeResolution
