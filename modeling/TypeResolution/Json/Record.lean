/-
# Reading structures from JSON

A structure is read from an object with one member per field, or from an array of its fields
in their order, from which fields may be missing at the end. A field must not be repeated.
Whether members that are no fields are passed over or refused is up to the structure.

Key definitions: `Shape`, `record?`, `Record.require`, `Record.orElse`.
-/
import TypeResolution.Json.Value

namespace TypeResolution
namespace Json

/-- The fields of a structure in their order, and whether other members are refused. -/
structure Shape where
  fields : List String
  closed : Bool

/-- The fields that a value gives to a structure. -/
abbrev Record := List (String × Value)

namespace Value

def text? : Value → Option String
  | .string text => text
  | _ => none

def bool? : Value → Option Bool
  | .bool b => some b
  | _ => none

/-- A natural number below `bound`. -/
def nat? (bound : Nat) : Value → Option Nat
  | .number (.integer n) => if 0 ≤ n ∧ n < bound then some n.toNat else none
  | _ => none

def list? {α : Type} (item : Value → Option α) : Value → Option (List α)
  | .array items => items.mapM item
  | _ => none

/-- A value, or `null` in its place. -/
def nullable {α : Type} (item : Value → Option α) : Value → Option (Option α)
  | .null => some none
  | v => (item v).map some

/-- A number of 32 bits. -/
def word? : Value → Option Nat := nat? UInt32.size

/-- A number of 64 bits. -/
def longWord? : Value → Option Nat := nat? UInt64.size

end Value

/-- The members of an object, if all keys are texts. -/
def keyedMembers? (members : List (Option String × Value)) : Option Record :=
  members.mapM fun (key, v) => key.map (·, v)

/-- The fields that `v` gives to a structure of the given shape. -/
def record? (shape : Shape) : Value → Option Record
  | .array items =>
    if items.length ≤ shape.fields.length then some (shape.fields.zip items) else none
  | .object members => do
    let record ← keyedMembers? members
    let known := record.filter fun m => shape.fields.contains m.1
    if shape.closed ∧ known.length ≠ record.length then none
    else if (known.map (·.1)).Nodup then some known
    else none
  | _ => none

namespace Record

/-- A field that must be there. -/
def require {α : Type} (r : Record) (field : String) (read : Value → Option α) : Option α :=
  (r.lookup field).bind read

/-- A field that has a default. -/
def orElse {α : Type} (r : Record) (field : String) (default : α) (read : Value → Option α) :
    Option α :=
  match r.lookup field with
  | none => some default
  | some v => read v

end Record
end Json
end TypeResolution
