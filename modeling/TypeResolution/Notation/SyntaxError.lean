/-
# Errors in the notation

What can be wrong with the text of a type, where it is, and how it is said.

Key definitions: `SyntaxError`, `SyntaxError.span`, `SyntaxError.message`.
-/
import TypeResolution.Span

namespace TypeResolution

/-- A text that is no type. -/
inductive SyntaxError where
  /-- A character that no token starts with. -/
  | unexpectedChar (char : Char) (span : Span)
  /-- A variable whose number is missing or too large. -/
  | invalidVariable (text : String) (span : Span)
  /-- A token where another one has to stand. -/
  | unexpectedToken (expected found : String) (span : Span)
  | unknownLiteralKind (keyword : String) (span : Span)
  /-- A passing convention that is not before a parameter of a function type. -/
  | misplacedConvention (keyword : String) (span : Span)
  /-- Arguments on a generic parameter. -/
  | parameterWithArguments (name : String) (span : Span)
deriving DecidableEq

namespace SyntaxError

/-- The text that the error is about. -/
def span : SyntaxError → Span
  | .unexpectedChar _ s | .invalidVariable _ s | .unexpectedToken _ _ s
  | .unknownLiteralKind _ s | .misplacedConvention _ s | .parameterWithArguments _ s => s

def message : SyntaxError → String
  | .unexpectedChar c _ => s!"unexpected character '{c}'"
  | .invalidVariable text _ => s!"invalid type variable '{text}'"
  | .unexpectedToken expected found _ => s!"expected {expected}, found {found}"
  | .unknownLiteralKind keyword _ => s!"unknown literal kind '{keyword}'"
  | .misplacedConvention keyword _ => s!"parameter convention '{keyword}' outside a function type"
  | .parameterWithArguments name _ => s!"generic parameter '{name}' cannot take arguments"

/-- The stable name of the kind of error. -/
def code : SyntaxError → String
  | .unexpectedChar .. => "tyre::syntax::unexpected_char"
  | .invalidVariable .. => "tyre::syntax::invalid_variable"
  | .unexpectedToken .. => "tyre::syntax::unexpected_token"
  | .unknownLiteralKind .. => "tyre::syntax::unknown_literal"
  | .misplacedConvention .. => "tyre::syntax::misplaced_convention"
  | .parameterWithArguments .. => "tyre::syntax::parameter_arguments"

/-- What to write instead, where that can be said. -/
def help? : SyntaxError → Option String
  | .invalidVariable .. => some "type variables are written ?0, ?1, ..."
  | .unknownLiteralKind .. => some "literal types are #integer, #float, #string and #boolean"
  | _ => none

/-- The words at the marked span. -/
def label : SyntaxError → String
  | .unexpectedChar .. => "not part of the type notation"
  | .invalidVariable .. => "expected a number after '?'"
  | .unexpectedToken .. => "unexpected token here"
  | .unknownLiteralKind .. => "unknown literal kind"
  | .misplacedConvention .. => "only function parameters take a convention"
  | .parameterWithArguments .. => "declared as a generic parameter"

end SyntaxError
end TypeResolution
