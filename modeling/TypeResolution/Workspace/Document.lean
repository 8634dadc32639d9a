/-
# Workspace documents

A workspace is written as a JSON document: the settings, the environment of traits and types,
and the units with their constraints. An entry of a document still has its names and types as
texts. Entries are closed, so a misspelt field is refused; only a constraint, whose fields
depend on its kind, may have other fields.

A constraint is an object, its kind a word or the position of the word in the list of kinds.
The kind may stand behind the fields that depend on it, so a constraint has to be sound and
not too deep as a whole, fields that nobody reads included.

Key definitions: `DeclEntry`, `EnvironmentEntry`, `ConstraintEntry`, `UnitEntry`,
`Document`, `Document.ofText?`.
-/
import TypeResolution.Constraint
import TypeResolution.Options

namespace TypeResolution
namespace Workspace

open Json

/-- A generic parameter. -/
structure GenericEntry where
  name : String
  bounds : List String
deriving DecidableEq

/-- A member, a requirement or a candidate. -/
structure DeclEntry where
  name : Option String
  decl : Nat
  type : String
  generics : List GenericEntry
  penalty : Nat
deriving DecidableEq

structure TraitEntry where
  name : String
  refines : List String
  requirements : List DeclEntry
deriving DecidableEq

structure TypeEntry where
  name : String
  params : List String
  conforms : List String
  supertypes : List String
  members : List DeclEntry
deriving DecidableEq

/-- The declarations that all units share. -/
structure EnvironmentEntry where
  traits : List TraitEntry := []
  types : List TypeEntry := []
  /-- Kinds of literals with their default types, by ascending keyword. -/
  literalDefaults : List (String × String) := []
deriving DecidableEq

inductive RelationEntry where
  | equality (left right : String)
  | subtyping (sub sup : String)
  | conformance (type : String) (traits : List String)
  | conversion (type literal : String)
  | returnBinding (value declared : String)
  | valueMember (base member type : String) (site : Nat)
  | size (id : Nat) (description : String)
deriving DecidableEq

structure OverloadEntry where
  type : String
  name : String
  site : Nat
  candidates : List DeclEntry
deriving DecidableEq

/-- A constraint, with the node that it comes from. -/
inductive ConstraintEntry where
  | relation (relation : RelationEntry) (node : Option Nat)
  | overload (overload : OverloadEntry) (node : Option Nat)
  | disjunction (minterms : List (Minterm ConstraintEntry)) (node : Option Nat)

structure UnitEntry where
  name : String
  varCount : Nat
  constraints : List ConstraintEntry

structure Document where
  options : Option CheckerOptions
  environment : EnvironmentEntry
  units : List UnitEntry

/-! ### Declarations -/

def GenericEntry.ofJson? (v : Value) : Option GenericEntry := do
  let r ← record? ⟨["name", "bounds"], true⟩ v
  return { name := ← r.require "name" Value.text?
           bounds := ← r.orElse "bounds" [] (Value.list? Value.text?) }

def DeclEntry.ofJson? (v : Value) : Option DeclEntry := do
  let r ← record? ⟨["name", "decl", "type", "generics", "penalty"], true⟩ v
  return { name := ← r.orElse "name" none (Value.nullable Value.text?)
           decl := ← r.require "decl" Value.word?
           type := ← r.require "type" Value.text?
           generics := ← r.orElse "generics" [] (Value.list? GenericEntry.ofJson?)
           penalty := ← r.orElse "penalty" 0 Value.word? }

def TraitEntry.ofJson? (v : Value) : Option TraitEntry := do
  let r ← record? ⟨["name", "refines", "requirements"], true⟩ v
  return { name := ← r.require "name" Value.text?
           refines := ← r.orElse "refines" [] (Value.list? Value.text?)
           requirements := ← r.orElse "requirements" [] (Value.list? DeclEntry.ofJson?) }

def TypeEntry.ofJson? (v : Value) : Option TypeEntry := do
  let r ← record? ⟨["name", "params", "conforms", "supertypes", "members"], true⟩ v
  return { name := ← r.require "name" Value.text?
           params := ← r.orElse "params" [] (Value.list? Value.text?)
           conforms := ← r.orElse "conforms" [] (Value.list? Value.text?)
           supertypes := ← r.orElse "supertypes" [] (Value.list? Value.text?)
           members := ← r.orElse "members" [] (Value.list? DeclEntry.ofJson?) }

/-- The texts by ascending key; of equal keys the last one counts. -/
def textsByKey? : Value → Option (List (String × String))
  | .object members => do
    let record ← keyedMembers? members
    let texts ← record.mapM fun (key, v) => v.text?.map (key, ·)
    let last := texts.reverse.eraseDupsBy fun a b => a.1 == b.1
    return last.mergeSort fun a b => a.1 ≤ b.1
  | _ => none

def EnvironmentEntry.ofJson? (v : Value) : Option EnvironmentEntry := do
  let r ← record? ⟨["traits", "types", "literalDefaults"], true⟩ v
  return { traits := ← r.orElse "traits" [] (Value.list? TraitEntry.ofJson?)
           types := ← r.orElse "types" [] (Value.list? TypeEntry.ofJson?)
           literalDefaults := ← r.orElse "literalDefaults" [] textsByKey? }

/-! ### Constraints -/

/-- The kinds of constraints. -/
inductive Kind where
  | equality
  | subtyping
  | conformance
  | conversion
  | returnBinding
  | valueMember
  | overload
  | size
  | disjunction
deriving DecidableEq

namespace Kind

/-- The kinds in their order. -/
def all : List Kind :=
  [equality, subtyping, conformance, conversion, returnBinding, valueMember, overload, size,
    disjunction]

def keyword : Kind → String
  | equality => "equality"
  | subtyping => "subtyping"
  | conformance => "conformance"
  | conversion => "conversion"
  | returnBinding => "returnBinding"
  | valueMember => "valueMember"
  | overload => "overload"
  | size => "size"
  | disjunction => "disjunction"

/-- The fields of a constraint of this kind. -/
def fields : Kind → List String
  | equality => ["left", "right"]
  | subtyping => ["sub", "sup"]
  | conformance => ["type", "traits"]
  | conversion => ["type", "literal"]
  | returnBinding => ["value", "declared"]
  | valueMember => ["base", "member", "type", "site"]
  | overload => ["type", "name", "site", "candidates"]
  | size => ["id", "description"]
  | disjunction => ["minterms"]

/-- A kind by its word or its position. -/
def ofJson? : Value → Option Kind
  | .string (some keyword) => all.find? fun k => k.keyword == keyword
  | v => (v.nat? all.length).bind (all[·]?)

end Kind

/-- The fields of a constraint that are read, and its kind. -/
def constraintRecord? : Value → Option (Kind × Record)
  | v@(.object members) => do
    let kind ← Kind.ofJson? (← members.lookup (some "kind"))
    let r ← record? ⟨"kind" :: "at" :: kind.fields, false⟩ v
    return (kind, r)
  | _ => none

/-- The constraint that a value writes in at most `fuel` levels of disjunctions. -/
def ConstraintEntry.readWithin? : Nat → Value → Option ConstraintEntry
  | 0, _ => none
  | fuel + 1, v => do
    let (kind, r) ← constraintRecord? v
    let node ← r.orElse "at" none (Value.nullable Value.word?)
    let text (field : String) : Option String := r.require field Value.text?
    match kind with
    | .equality => return .relation (.equality (← text "left") (← text "right")) node
    | .subtyping => return .relation (.subtyping (← text "sub") (← text "sup")) node
    | .conformance =>
      return .relation
        (.conformance (← text "type") (← r.require "traits" (Value.list? Value.text?))) node
    | .conversion => return .relation (.conversion (← text "type") (← text "literal")) node
    | .returnBinding => return .relation (.returnBinding (← text "value") (← text "declared")) node
    | .valueMember =>
      return .relation (.valueMember (← text "base") (← text "member") (← text "type")
        (← r.require "site" Value.word?)) node
    | .overload =>
      return .overload
        { type := ← text "type"
          name := ← text "name"
          site := ← r.require "site" Value.word?
          candidates := ← r.require "candidates" (Value.list? DeclEntry.ofJson?) } node
    | .size =>
      return .relation
        (.size (← r.require "id" Value.word?) (← r.orElse "description" "" Value.text?)) node
    | .disjunction =>
      let minterm (v : Value) : Option (Minterm ConstraintEntry) := do
        let m ← record? ⟨["constraints", "penalty"], true⟩ v
        return { constraints := ← m.require "constraints" (Value.list? (readWithin? fuel))
                 penalty := ← m.orElse "penalty" 0 Value.word? }
      return .disjunction (← r.require "minterms" (Value.list? minterm)) node

/-- The number of levels that a document may have. -/
def maxDepth : Nat := 127

/-- The number of levels around a constraint of a unit: the document, its units, the unit and
its constraints. -/
def constraintDepth : Nat := 4

def ConstraintEntry.ofJson? (v : Value) : Option ConstraintEntry :=
  if v.isSound ∧ v.depth + constraintDepth ≤ maxDepth then readWithin? v.depth v else none

/-! ### Documents -/

def UnitEntry.ofJson? (v : Value) : Option UnitEntry := do
  let r ← record? ⟨["name", "variables", "constraints"], true⟩ v
  return { name := ← r.require "name" Value.text?
           varCount := ← r.orElse "variables" 0 Value.word?
           constraints := ← r.orElse "constraints" [] (Value.list? ConstraintEntry.ofJson?) }

namespace Document

def ofJson? (v : Value) : Option Document := do
  let r ← record? ⟨["config", "environment", "units"], true⟩ v
  return { options := ← r.orElse "config" none (Value.nullable CheckerOptions.ofJson?)
           environment := ← r.orElse "environment" {} EnvironmentEntry.ofJson?
           units := ← r.orElse "units" [] (Value.list? UnitEntry.ofJson?) }

/-- The document that a text writes. -/
def ofText? (text : String) : Option Document := (Value.ofText? text).bind ofJson?

end Document
end Workspace
end TypeResolution
