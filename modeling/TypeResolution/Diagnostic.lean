/-
# Diagnostics

A diagnostic is a message with the locator of the constraint it is about. The wording of the
messages is kept here, in one catalogue of templates; a template marks the place of its `i`-th
argument with `hole i`. `Message.fill` puts the arguments in one after the other.

Key definitions: `Category`, `Message`, `Message.catalogue`, `fillTemplate`, `Diagnostic`,
`Diagnostic.render`.
-/
import TypeResolution.Locator

namespace TypeResolution

/-- How grave a diagnostic is. -/
inductive Category where
  | warning
  | error
  | suggestion
  | message
deriving DecidableEq, Inhabited

def Category.render : Category → String
  | .warning => "warning"
  | .error => "error"
  | .suggestion => "suggestion"
  | .message => "message"

/-! ### Templates -/

/-- The mark at which a template takes its `i`-th argument: the number in braces. -/
def hole (i : Nat) : String := "\x7b" ++ toString i ++ "\x7d"

/-- Every occurrence of the nonempty `mark`, found from left to right without overlaps, is
replaced by `text`. -/
def replaceMark (mark text : List Char) : List Char → List Char
  | [] => []
  | c :: rest =>
    if mark.isPrefixOf (c :: rest) then text ++ replaceMark mark text (rest.drop (mark.length - 1))
    else c :: replaceMark mark text rest
termination_by s => s.length
decreasing_by all_goals (simp only [List.length_cons, List.length_drop]; omega)

/-- Fills the holes from number `i` on with `args`, one argument after the other, each in the
text that the arguments before it left. -/
def fillFrom (i : Nat) (template : List Char) : List String → List Char
  | [] => template
  | arg :: args => fillFrom (i + 1) (replaceMark (hole i).toList arg.toList template) args

/-- The template with its holes filled. -/
def fillTemplate (template : String) (args : List String) : String :=
  String.ofList (fillFrom 0 template.toList args)

/-- An entry of the catalogue. -/
structure Message where
  code : Nat
  category : Category
  template : String
deriving DecidableEq

namespace Message

def fill (m : Message) (args : List String) : String := fillTemplate m.template args

def incompatible : Message :=
  ⟨2001, .error, "Type '" ++ hole 0 ++ "' is not compatible with type '" ++ hole 1 ++ "'."⟩

def notSubtype : Message :=
  ⟨2002, .error, "Type '" ++ hole 0 ++ "' is not a subtype of '" ++ hole 1 ++ "'."⟩

def cannotReturn : Message :=
  ⟨2003, .error, "Cannot return a value of type '" ++ hole 0 ++
    "' from a function whose return type is '" ++ hole 1 ++ "'."⟩

def infiniteType : Message :=
  ⟨2004, .error, "Infinite type: '" ++ hole 0 ++ "' occurs in '" ++ hole 1 ++ "'."⟩

def doesNotConform : Message :=
  ⟨2005, .error, "Type '" ++ hole 0 ++ "' does not conform to trait '" ++ hole 1 ++ "'."⟩

def notExpressible : Message :=
  ⟨2006, .error, "Type '" ++ hole 0 ++ "' is not expressible by " ++ hole 1 ++ " literal."⟩

def noMember : Message :=
  ⟨2007, .error, "Type '" ++ hole 0 ++ "' has no member '" ++ hole 1 ++ "'."⟩

def noViableCandidate : Message :=
  ⟨2010, .error, "No viable candidate for '" ++ hole 0 ++ "' among " ++ hole 1 ++ " declarations."⟩

def candidateRejected : Message :=
  ⟨2011, .message, "Candidate " ++ hole 0 ++ " of type '" ++ hole 1 ++ "' rejected: " ++ hole 2⟩

def ambiguousUse : Message :=
  ⟨2012, .error, "Ambiguous use of '" ++ hole 0 ++ "'."⟩

def candidateFound : Message :=
  ⟨2013, .message, "Found candidate " ++ hole 0 ++ " of type '" ++ hole 1 ++ "'."⟩

def ambiguousInference : Message :=
  ⟨2014, .error, "Type inference is ambiguous: more than one solution with equal rank."⟩

def stepLimit : Message :=
  ⟨2020, .error, "Type checking aborted after " ++ hole 0 ++
    " steps; the expression is too complex."⟩

def penaltyLimit : Message :=
  ⟨2021, .error, "No solution found within the penalty bound " ++ hole 0 ++ "."⟩

def notInferred : Message :=
  ⟨2022, .error, "Could not infer the types of " ++ hole 0 ++ "."⟩

def malformed : Message :=
  ⟨2023, .error, "Malformed constraint: " ++ hole 0⟩

def literalDefaulted : Message :=
  ⟨2100, .warning, "Literal type inferred as default '" ++ hole 0 ++ "'."⟩

/-- All messages, by ascending code. -/
def catalogue : List Message :=
  [incompatible, notSubtype, cannotReturn, infiniteType, doesNotConform, notExpressible, noMember,
    noViableCandidate, candidateRejected, ambiguousUse, candidateFound, ambiguousInference,
    stepLimit, penaltyLimit, notInferred, malformed, literalDefaulted]

/-- The message with a given code. -/
def ofCode? (code : Nat) : Option Message :=
  catalogue.find? (·.code == code)

end Message

/-! ### Diagnostics -/

/-- A message about a located constraint, with notes on it. -/
structure Diagnostic where
  locator : Option Locator
  text : String
  code : Nat
  category : Category
  related : List Diagnostic

namespace Diagnostic

/-- A message without notes. -/
def ofMessage (locator : Option Locator) (m : Message) (args : List String) : Diagnostic :=
  ⟨locator, m.fill args, m.code, m.category, []⟩

/-- One note more, after the others. -/
def withNote (d note : Diagnostic) : Diagnostic :=
  { d with related := d.related ++ [note] }

def isError (d : Diagnostic) : Bool := d.category == .error

def isWarning (d : Diagnostic) : Bool := d.category == .warning

/-- The category, the code and the text. -/
def headline (d : Diagnostic) : String := s!"{d.category.render} E{d.code}: {d.text}"

/-- One line: the node and where it starts, if known, before the headline. -/
def render (d : Diagnostic) : String :=
  match d.locator with
  | none => d.headline
  | some l =>
    let start := match l.span with
      | some s => s!"({s.start})"
      | none => ""
    l.anchor.render ++ start ++ ": " ++ d.headline

end Diagnostic
end TypeResolution
