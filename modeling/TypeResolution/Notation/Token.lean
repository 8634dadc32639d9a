/-
# Tokens of the notation

A text is split into tokens from left to right; blanks between tokens are skipped, and the
longest identifier and the longest run of digits are taken. Every token carries its span in
bytes, and the list of tokens ends with the end of the input.

Key definitions: `Token`, `Lexeme`, `Lexeme.scan`, `tokenize`.
-/
import TypeResolution.Notation.Identifier
import TypeResolution.Notation.SyntaxError
import TypeResolution.Numeral

namespace TypeResolution
namespace Notation

/-- The characters with the Unicode property `White_Space`. -/
def isBlank (c : Char) : Bool :=
  let n := c.toNat
  (0x9 ≤ n && n ≤ 0xD) || n == 0x20 || n == 0x85 || n == 0xA0 || n == 0x1680 ||
    (0x2000 ≤ n && n ≤ 0x200A) || n == 0x2028 || n == 0x2029 || n == 0x202F || n == 0x205F ||
    n == 0x3000

/-- A word of the notation. -/
inductive Token where
  | openParen
  | closeParen
  | lessThan
  | greaterThan
  | comma
  | ampersand
  | arrow
  | exclamation
  | hash
  /-- A question mark and a number. -/
  | variable (index : Nat)
  | identifier (text : String)
  | endOfInput
deriving DecidableEq, Inhabited

/-- The token as an error message names it. -/
def Token.describe : Token → String
  | .openParen => "'('"
  | .closeParen => "')'"
  | .lessThan => "'<'"
  | .greaterThan => "'>'"
  | .comma => "','"
  | .ampersand => "'&'"
  | .arrow => "'->'"
  | .exclamation => "'!'"
  | .hash => "'#'"
  | .variable n => s!"'?{n}'"
  | .identifier text => s!"'{text}'"
  | .endOfInput => "end of input"

/-- A token and where it stands. -/
structure Lexeme where
  token : Token
  span : Span
deriving DecidableEq, Inhabited

/-- The number of bytes of a text. -/
def byteLength (cs : List Char) : Nat := cs.foldl (fun n c => n + c.utf8Size) 0

/-- Variables are numbered below this bound. -/
def variableBound : Nat := UInt32.size

/-- The token that starts with `c`, which stands at `pos` before `rest` and is no blank, with
the number of characters of `rest` that belong to it. -/
def Token.read (pos : Nat) (c : Char) (rest : List Char) : Except SyntaxError (Token × Nat) :=
  match c with
  | '(' => .ok (.openParen, 0)
  | ')' => .ok (.closeParen, 0)
  | '<' => .ok (.lessThan, 0)
  | '>' => .ok (.greaterThan, 0)
  | ',' => .ok (.comma, 0)
  | '&' => .ok (.ampersand, 0)
  | '!' => .ok (.exclamation, 0)
  | '#' => .ok (.hash, 0)
  | '?' =>
    let digits := rest.takeWhile Char.isDigit
    if digits ≠ [] ∧ decimalValue digits < variableBound then
      .ok (.variable (decimalValue digits), digits.length)
    else .error (.invalidVariable (String.ofList ('?' :: digits)) ⟨pos, digits.length + 1⟩)
  | c =>
    if c = '-' ∧ rest.head? = some '>' then .ok (.arrow, 1)
    else if isIdentifierStart c then
      let part := rest.takeWhile isIdentifierPart
      .ok (.identifier (String.ofList (c :: part)), part.length)
    else .error (.unexpectedChar c ⟨pos, c.utf8Size⟩)

/-- The tokens of a text that starts at byte `pos`. -/
def Lexeme.scan (pos : Nat) : List Char → Except SyntaxError (List Lexeme)
  | [] => .ok [⟨.endOfInput, ⟨pos, 0⟩⟩]
  | c :: rest =>
    if isBlank c then scan (pos + c.utf8Size) rest
    else
      match Token.read pos c rest with
      | .error e => .error e
      | .ok (token, more) =>
        let length := byteLength (c :: rest.take more)
        match scan (pos + length) (rest.drop more) with
        | .error e => .error e
        | .ok lexemes => .ok (⟨token, ⟨pos, length⟩⟩ :: lexemes)
termination_by s => s.length
decreasing_by all_goals (simp only [List.length_cons, List.length_drop]; omega)

/-- Splits a text into tokens, the last of them the end of the input. -/
def tokenize (text : String) : Except SyntaxError (List Lexeme) := Lexeme.scan 0 text.toList

end Notation
end TypeResolution
