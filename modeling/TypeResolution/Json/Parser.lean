/-
# Reading JSON

Strict JSON: blanks are spaces, tabs and line ends; there are no comments and no trailing
commas; a number has no leading zero; a string has no raw control character; nothing but
blanks may follow the value.

Key definitions: `Value.ofText?`.
-/
import TypeResolution.Json.Value

namespace TypeResolution
namespace Json

/-- The part of a text that is still to be read. -/
abbrev Rest := List Char

def isBlank (c : Char) : Bool := c == ' ' || c == '\t' || c == '\n' || c == '\r'

def skipBlanks (s : Rest) : Rest := s.dropWhile isBlank

/-! ### Strings -/

def hexDigit? (c : Char) : Option Nat :=
  if c.isDigit then some (digitValue c)
  else if 'a' ≤ c ∧ c ≤ 'f' then some (c.toNat - 'a'.toNat + 10)
  else if 'A' ≤ c ∧ c ≤ 'F' then some (c.toNat - 'A'.toNat + 10)
  else none

/-- The number that four hexadecimal digits write. -/
def hexUnit? (a b c d : Char) : Option Nat := do
  let a ← hexDigit? a
  let b ← hexDigit? b
  let c ← hexDigit? c
  let d ← hexDigit? d
  return ((a * 16 + b) * 16 + c) * 16 + d

def isHighSurrogate (unit : Nat) : Bool := 0xD800 ≤ unit && unit < 0xDC00

def isLowSurrogate (unit : Nat) : Bool := 0xDC00 ≤ unit && unit < 0xE000

/-- The character of a surrogate pair. -/
def pairedChar (high low : Nat) : Char :=
  Char.ofNat (0x10000 + (high - 0xD800) * 0x400 + (low - 0xDC00))

/-- The character after a backslash that stands for itself or for a control character. -/
def escaped? : Char → Option Char
  | '"' => some '"'
  | '\\' => some '\\'
  | '/' => some '/'
  | 'b' => some '\x08'
  | 'f' => some '\x0c'
  | 'n' => some '\n'
  | 'r' => some '\r'
  | 't' => some '\t'
  | _ => none

/-- The second half of a surrogate pair, if its escape stands next. -/
def lowSurrogate? : Rest → Option Nat
  | '\\' :: 'u' :: a :: b :: c :: d :: _ => (hexUnit? a b c d).filter isLowSurrogate
  | _ => none

/-- Reads a string from after its opening quote to after its closing one. `read` holds the
characters so far, the last one first; `sound` says that no half of a surrogate pair has been
met. -/
def readText : (read : List Char) → (sound : Bool) → Rest → Option (Option String × Rest)
  | _, _, [] => none
  | read, sound, '"' :: rest =>
    some (if sound then some (String.ofList read.reverse) else none, rest)
  | read, sound, '\\' :: 'u' :: a :: b :: c :: d :: rest =>
    match hexUnit? a b c d with
    | none => none
    | some unit =>
      if isHighSurrogate unit then
        match lowSurrogate? rest with
        | some low => readText (pairedChar unit low :: read) sound (rest.drop 6)
        | none => readText read false rest
      else if isLowSurrogate unit then readText read false rest
      else readText (Char.ofNat unit :: read) sound rest
  | read, sound, '\\' :: c :: rest =>
    match escaped? c with
    | none => none
    | some c => readText (c :: read) sound rest
  | read, sound, c :: rest => if c < ' ' then none else readText (c :: read) sound rest
termination_by _ _ s => s.length
decreasing_by all_goals (simp only [List.length_cons, List.length_drop]; omega)

/-! ### Numbers -/

/-- Reads the exponent of a number, `none` if there is none. -/
def readExponent : Rest → Option (Option Int × Rest)
  | c :: rest =>
    if c = 'e' ∨ c = 'E' then
      let (negative, rest) := match rest with
        | '-' :: rest => (true, rest)
        | '+' :: rest => (false, rest)
        | rest => (false, rest)
      let digits := rest.takeWhile Char.isDigit
      if digits.isEmpty then none
      else
        let value : Int := decimalValue digits
        some (some (if negative then -value else value), rest.dropWhile Char.isDigit)
    else some (none, c :: rest)
  | [] => some (none, [])

/-- Reads the fraction of a number, `none` if there is none. -/
def readFraction : Rest → Option (Option (List Char) × Rest)
  | '.' :: rest =>
    let digits := rest.takeWhile Char.isDigit
    if digits.isEmpty then none else some (some digits, rest.dropWhile Char.isDigit)
  | rest => some (none, rest)

/-- Reads a number from after its sign. -/
def readMagnitude (negative : Bool) (s : Rest) : Option (Number × Rest) := do
  let whole := s.takeWhile Char.isDigit
  if whole.isEmpty ∨ (whole.head? = some '0' ∧ whole.length ≠ 1) then none
  else
    let (fraction, rest) ← readFraction (s.dropWhile Char.isDigit)
    let (exponent, rest) ← readExponent rest
    return (.ofDigits negative whole fraction exponent, rest)

def readNumber : Rest → Option (Number × Rest)
  | '-' :: rest => readMagnitude true rest
  | rest => readMagnitude false rest

/-! ### Values -/

mutual
/-- Reads a value after blanks. -/
def readValue : Nat → Rest → Option (Value × Rest)
  | 0, _ => none
  | fuel + 1, s =>
    match skipBlanks s with
    | 'n' :: 'u' :: 'l' :: 'l' :: rest => some (.null, rest)
    | 't' :: 'r' :: 'u' :: 'e' :: rest => some (.bool true, rest)
    | 'f' :: 'a' :: 'l' :: 's' :: 'e' :: rest => some (.bool false, rest)
    | '"' :: rest => do
      let (text, rest) ← readText [] true rest
      return (.string text, rest)
    | '[' :: rest =>
      match skipBlanks rest with
      | ']' :: rest => some (.array [], rest)
      | rest => do
        let (items, rest) ← readItems fuel rest
        return (.array items, rest)
    | '{' :: rest =>
      match skipBlanks rest with
      | '}' :: rest => some (.object [], rest)
      | rest => do
        let (members, rest) ← readMembers fuel rest
        return (.object members, rest)
    | rest => do
      let (n, rest) ← readNumber rest
      return (.number n, rest)

/-- Reads the items of an array, of which there is at least one, and its end. -/
def readItems : Nat → Rest → Option (List Value × Rest)
  | 0, _ => none
  | fuel + 1, s => do
    let (item, rest) ← readValue fuel s
    match skipBlanks rest with
    | ',' :: rest =>
      let (items, rest) ← readItems fuel rest
      return (item :: items, rest)
    | ']' :: rest => return ([item], rest)
    | _ => none

/-- Reads the members of an object, of which there is at least one, and its end. -/
def readMembers : Nat → Rest → Option (List (Option String × Value) × Rest)
  | 0, _ => none
  | fuel + 1, s =>
    match skipBlanks s with
    | '"' :: rest => do
      let (key, rest) ← readText [] true rest
      match skipBlanks rest with
      | ':' :: rest =>
        let (item, rest) ← readValue fuel rest
        match skipBlanks rest with
        | ',' :: rest =>
          let (members, rest) ← readMembers fuel rest
          return ((key, item) :: members, rest)
        | '}' :: rest => return ([(key, item)], rest)
        | _ => none
      | _ => none
    | _ => none
end

/-- The value that a text writes. One level of a value uses at most two units of fuel and at
least one character. -/
def Value.ofText? (text : String) : Option Value :=
  let s := text.toList
  match readValue (2 * s.length + 1) s with
  | some (v, rest) => if (skipBlanks rest).isEmpty then some v else none
  | none => none

end Json
end TypeResolution
