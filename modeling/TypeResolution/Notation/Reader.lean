/-
# Reading a type

The reader of the notation:

    type   = "(" [list] ")" ["->" type]
           | "?" number
           | "#" ("integer" | "float" | "string" | "boolean")
           | "any" [name ("&" name)*]
           | "_" | "!"
           | name ["<" type ("," type)* ">"]
    list   = item ("," item)* [","]
    item   = ["let" | "inout" | "sink" | "set"] type

A parenthesised list is the list of parameters of a function if an arrow follows it; without
an arrow it is a tuple, unless it is one type without a comma after it, which is that type
itself. A name in scope as a generic parameter is that parameter, any other a nominal type.

Names are interned as they are read, from left to right, and stay interned when the text
turns out to be no type. A token takes the reader at most three calls deeper, so three times
the number of tokens bounds the recursion.

Key definitions: `Reader`, `Reader.readType`, `readType`.
-/
import TypeResolution.Notation.Token
import TypeResolution.Ty.Basic

namespace TypeResolution
namespace Notation

/-- The tokens that are still to be read, the last of which is the end of the input, and the
names so far. -/
structure Reader where
  unread : List Lexeme
  names : NameTable

/-- A step of reading, which may find that the text is no type. -/
abbrev Read := ExceptT SyntaxError (StateM Reader)

/-- Whether a type can start with the token. -/
def Token.startsType : Token → Bool
  | .openParen | .variable _ | .hash | .exclamation | .identifier _ => true
  | _ => false

/-- An item of a parenthesised list: a type, and the convention written before it. -/
structure Item where
  convention : Option (Convention × Span)
  type : Ty

namespace Reader

/-- The next token. -/
def current : Read Lexeme := do
  return (← get).unread.headD default

/-- The token after the next one. -/
def following : Read Token := do
  return match (← get).unread with
    | _ :: l :: _ => l.token
    | [l] => l.token
    | [] => .endOfInput

/-- Goes past the next token; the end of the input is never passed. -/
def advance : Read Unit :=
  modify fun r => match r.unread with
    | _ :: l :: rest => { r with unread := l :: rest }
    | _ => r

/-- The next token is not what has to stand here. -/
def unexpected {α : Type} (expected : String) : Read α := do
  let l ← current
  throw (.unexpectedToken expected l.token.describe l.span)

/-- Whether the next token is `token`, which is then passed. -/
def eat (token : Token) : Read Bool := do
  if (← current).token = token then
    advance
    return true
  else return false

def expect (token : Token) (expected : String) : Read Unit := do
  if (← current).token = token then advance else unexpected expected

/-- The next token as an identifier. -/
def readIdentifier (expected : String) : Read (String × Span) := do
  let l ← current
  match l.token with
  | .identifier text =>
    advance
    return (text, l.span)
  | _ => unexpected expected

/-- The name of a text. -/
def internName (text : String) : Read Name :=
  modifyGet fun r =>
    let (name, names) := r.names.intern text
    (name, { r with names })

/-- A convention, if one stands before a type. -/
def readConvention? : Read (Option (Convention × Span)) := do
  let l ← current
  match l.token with
  | .identifier keyword =>
    match Convention.ofKeyword? keyword with
    | some convention =>
      if (← following).startsType then
        advance
        return some (convention, l.span)
      else return none
    | none => return none
  | _ => return none

/-- The traits after the first one of an existential. -/
def readMoreTraits : Nat → Read (List Name)
  | 0 => return []
  | fuel + 1 => do
    if ← eat .ampersand then
      let (text, _) ← readIdentifier "a trait name"
      let name ← internName text
      return name :: (← readMoreTraits fuel)
    else return []

/-- The traits after `any`. -/
def readTraits (fuel : Nat) : Read TraitSet := do
  match (← current).token with
  | .identifier text =>
    advance
    let name ← internName text
    return .ofList (name :: (← readMoreTraits fuel))
  | _ => return .empty

/-- What a parenthesised list that no arrow follows stands for. -/
def groupOf (items : List Item) (trailingComma : Bool) : Read Ty :=
  match items.findSome? (·.convention) with
  | some (convention, span) => throw (.misplacedConvention convention.keyword span)
  | none =>
    match items, trailingComma with
    | [item], false => return item.type
    | items, _ => return .tuple (items.map (·.type))

mutual
/-- Reads one type; `scope` holds the generic parameters. -/
def readType (scope : List Name) : Nat → Read Ty
  | 0 => unexpected "a type"
  | fuel + 1 => do
    let l ← current
    match l.token with
    | .openParen =>
      advance
      readParenthesized scope fuel
    | .variable index =>
      advance
      return .var ⟨index⟩
    | .hash =>
      advance
      let (keyword, span) ← readIdentifier "a literal kind"
      match LiteralKind.ofKeyword? keyword with
      | some kind => return .literal kind
      | none => throw (.unknownLiteralKind keyword span)
    | .exclamation =>
      advance
      return .error
    | .identifier text =>
      if text = "_" then
        advance
        return .unresolved
      else if text = "any" then
        advance
        return .existential (← readTraits fuel)
      else if (Convention.ofKeyword? text).isSome ∧ (← following).startsType then
        throw (.misplacedConvention text l.span)
      else
        advance
        readNominal scope fuel text l.span
    | _ => unexpected "a type"

/-- Reads what follows a name that is no word of the notation. -/
def readNominal (scope : List Name) : Nat → String → Span → Read Ty
  | 0, _, _ => unexpected "a type"
  | fuel + 1, text, span => do
    let name ← internName text
    if (← current).token ≠ .lessThan then
      return if name ∈ scope then .param name else .nominal name []
    else if name ∈ scope then throw (.parameterWithArguments text span)
    else
      advance
      let first ← readType scope fuel
      let more ← readMoreTypes scope fuel
      expect .greaterThan "',' or '>'"
      return .nominal name (first :: more)

/-- Reads types, each after a comma. -/
def readMoreTypes (scope : List Name) : Nat → Read (List Ty)
  | 0 => return []
  | fuel + 1 => do
    if ← eat .comma then
      let type ← readType scope fuel
      return type :: (← readMoreTypes scope fuel)
    else return []

/-- Reads what follows an opening parenthesis. -/
def readParenthesized (scope : List Name) : Nat → Read Ty
  | 0 => unexpected "a type"
  | fuel + 1 => do
    let (items, trailingComma) ←
      if (← current).token = .closeParen then pure ([], false) else readItems scope fuel
    expect .closeParen "',' or ')'"
    if ← eat .arrow then
      let result ← readType scope fuel
      let params := items.map fun item =>
        (match item.convention with
          | some (convention, _) => convention
          | none => .letting, item.type)
      return .function params result
    else groupOf items trailingComma

/-- Reads the items of a list, and whether a comma stands after the last. -/
def readItems (scope : List Name) : Nat → Read (List Item × Bool)
  | 0 => unexpected "a type"
  | fuel + 1 => do
    let convention ← readConvention?
    let type ← readType scope fuel
    let item : Item := ⟨convention, type⟩
    if ← eat .comma then
      if (← current).token = .closeParen then return ([item], true)
      else
        let (items, trailingComma) ← readItems scope fuel
        return (item :: items, trailingComma)
    else return ([item], false)
end

/-- Reads one type and the end of the input. -/
def readWhole (scope : List Name) : Read Ty := do
  let type ← readType scope (3 * (← get).unread.length)
  expect .endOfInput "end of input"
  return type

end Reader

/-- Reads a text as a type in which the names of `scope` are generic parameters. The names of
the text are in the table that is returned, also if the text is no type. -/
def readType (names : NameTable) (scope : List Name) (text : String) :
    Except SyntaxError Ty × NameTable :=
  match tokenize text with
  | .error e => (.error e, names)
  | .ok lexemes =>
    let (result, reader) := (Reader.readWhole scope).run.run ⟨lexemes, names⟩
    (result, reader.names)

end Notation
end TypeResolution
