/-
# JSON values

A value as the text of a strict JSON document gives it. Members keep their order and are not
merged, so that a reader can refuse a repeated field. A text whose escapes contain half a
surrogate pair is no text, and a number may be out of range, but such a value may still stand
where nobody reads it.

Key definitions: `Value`, `Value.depth`, `Value.isSound`.
-/
import TypeResolution.Json.Number

namespace TypeResolution
namespace Json

/-- A JSON value; `none` in place of a text stands for an ill-formed one. -/
inductive Value where
  | null
  | bool (b : Bool)
  | number (n : Number)
  | string (text : Option String)
  | array (items : List Value)
  | object (members : List (Option String × Value))
deriving Inhabited

namespace Value

mutual
/-- The number of arrays and objects around the innermost part. -/
def depth : Value → Nat
  | .array items => 1 + depthItems items
  | .object members => 1 + depthMembers members
  | _ => 0

def depthItems : List Value → Nat
  | [] => 0
  | v :: vs => max v.depth (depthItems vs)

def depthMembers : List (Option String × Value) → Nat
  | [] => 0
  | (_, v) :: ms => max v.depth (depthMembers ms)
end

mutual
/-- Whether every text and every number in the value can be kept. -/
def isSound : Value → Bool
  | .number .tooLarge => false
  | .string none => false
  | .array items => areSound items
  | .object members => areSoundMembers members
  | _ => true

def areSound : List Value → Bool
  | [] => true
  | v :: vs => v.isSound && areSound vs

def areSoundMembers : List (Option String × Value) → Bool
  | [] => true
  | (key, v) :: ms => key.isSome && v.isSound && areSoundMembers ms
end

end Value
end Json
end TypeResolution
