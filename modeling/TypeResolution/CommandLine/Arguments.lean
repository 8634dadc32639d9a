/-
# Command lines

A command line names one file to check, and may have options before and after it. An option
is written with two dashes and a word or, if it has a letter, with one dash; letters may stand
together behind one dash. The value of an option follows as the next argument, or after an
equals sign, or right behind the letter. What follows two lone dashes is no option. No option
but the one for verbosity may be given twice.

Arguments are read from left to right, and reading ends with the first one that makes no sense
or asks for the version or the help.

Key definitions: `Invocation`, `Request`, `Request.ofArguments`.
-/
import TypeResolution.Options

namespace TypeResolution
namespace CommandLine

/-- What a command line asks to be checked, and how. -/
structure Invocation where
  file : Option String := none
  config : Option String := none
  maxSteps : Option Nat := none
  maxPenalty : Option Nat := none
  literalDefaulting : Bool := false
  sequential : Bool := false
  verbosity : Nat := 0
  noColor : Bool := false

/-- What a command line asks for. -/
inductive Request where
  | check (file : String) (invocation : Invocation)
  | version
  | help

/-- Why the reading of arguments ends early. -/
inductive Stop where
  | request (request : Request)
  /-- An argument makes no sense. -/
  | misuse

/-- An option without a value. -/
inductive Flag where
  | literalDefaulting
  | sequential
  | verbose
  | noColor
  | version
  | help
deriving DecidableEq

/-- An option with a value. -/
inductive Parameter where
  | config
  | maxSteps
  | maxPenalty
deriving DecidableEq

namespace Flag

def ofWord? : String → Option Flag
  | "literal-defaulting" => some literalDefaulting
  | "sequential" => some sequential
  | "verbose" => some verbose
  | "no-color" => some noColor
  | "version" => some version
  | "help" => some help
  | _ => none

def ofLetter? : Char → Option Flag
  | 'v' => some verbose
  | 'V' => some version
  | 'h' => some help
  | _ => none

end Flag

namespace Parameter

def ofWord? : String → Option Parameter
  | "config" => some config
  | "max-steps" => some maxSteps
  | "max-penalty" => some maxPenalty
  | _ => none

def ofLetter? : Char → Option Parameter
  | 'c' => some config
  | _ => none

end Parameter

/-! ### Numbers -/

/-- A number of 64 bits; a plus sign may stand in front. -/
def stepCount? (text : String) : Option Nat := (unsigned? text).filter (· < UInt64.size)

/-- A number of 32 bits; a sign may stand in front, a minus sign of zero only. -/
def penalty? (text : String) : Option Nat :=
  match text.toList with
  | '-' :: cs => (decimal? cs).filter (· == 0)
  | _ => (unsigned? text).filter (· < UInt32.size)

/-! ### Arguments -/

/-- The arguments read so far. -/
structure Reading where
  invocation : Invocation := {}
  /-- The option whose value comes next. -/
  awaiting : Option Parameter := none
  /-- Whether options are no longer looked for. -/
  onlyFiles : Bool := false

namespace Reading

/-- Sets a field that must not have been set before. -/
def once {α : Type} (old : Option α) (value : Option α) : Except Stop (Option α) :=
  match old, value with
  | none, some a => .ok (some a)
  | _, _ => .error .misuse

/-- Sets a flag that must not have been set before. -/
def switchOn (old : Bool) : Except Stop Bool := if old then .error .misuse else .ok true

def takeFile (r : Reading) (text : String) : Except Stop Reading := do
  let file ← once r.invocation.file (some text)
  return { r with invocation := { r.invocation with file } }

def takeFlag (r : Reading) (flag : Flag) : Except Stop Reading := do
  let i := r.invocation
  let i ← match flag with
    | .literalDefaulting => do
      pure { i with literalDefaulting := ← switchOn i.literalDefaulting }
    | .sequential => do pure { i with sequential := ← switchOn i.sequential }
    | .noColor => do pure { i with noColor := ← switchOn i.noColor }
    | .verbose => pure { i with verbosity := i.verbosity + 1 }
    | .version => throw (.request .version)
    | .help => throw (.request .help)
  return { r with invocation := i }

def takeValue (r : Reading) (parameter : Parameter) (text : String) : Except Stop Reading := do
  let i := r.invocation
  let i ← match parameter with
    | .config => do pure { i with config := ← once i.config (some text) }
    | .maxSteps => do pure { i with maxSteps := ← once i.maxSteps (stepCount? text) }
    | .maxPenalty => do pure { i with maxPenalty := ← once i.maxPenalty (penalty? text) }
  return { r with invocation := i, awaiting := none }

/-- An option by its word, with the value behind its equals sign. -/
def takeWord (r : Reading) (word : String) (value : Option String) : Except Stop Reading :=
  match Parameter.ofWord? word, Flag.ofWord? word, value with
  | some parameter, _, some value => r.takeValue parameter value
  | some parameter, _, none => .ok { r with awaiting := some parameter }
  | none, some flag, none => r.takeFlag flag
  | none, _, _ => .error .misuse

/-- The letters behind one dash. -/
def takeLetters (r : Reading) : List Char → Except Stop Reading
  | [] => .ok r
  | c :: rest =>
    match Parameter.ofLetter? c, Flag.ofLetter? c with
    | some parameter, _ =>
      match rest with
      | [] => .ok { r with awaiting := some parameter }
      | '=' :: value => r.takeValue parameter (String.ofList value)
      | value => r.takeValue parameter (String.ofList value)
    | none, some flag => do (← r.takeFlag flag).takeLetters rest
    | none, none => .error .misuse

/-- Reads one argument. -/
def take (r : Reading) (arg : String) : Except Stop Reading :=
  if r.onlyFiles then r.takeFile arg
  else
    match arg.toList, r.awaiting with
    | '-' :: _ :: _, some _ => .error .misuse
    | _, some parameter => r.takeValue parameter arg
    | ['-', '-'], none => .ok { r with onlyFiles := true }
    | '-' :: '-' :: option, none =>
      let word := option.takeWhile (· != '=')
      let value := match option.dropWhile (· != '=') with
        | [] => none
        | _ :: value => some (String.ofList value)
      r.takeWord (String.ofList word) value
    | '-' :: c :: letters, none => r.takeLetters (c :: letters)
    | _, none => r.takeFile arg

/-- What has been asked for when all arguments are read. -/
def finish (r : Reading) : Except Stop Request :=
  match r.awaiting, r.invocation.file with
  | none, some file => .ok (.check file r.invocation)
  | _, _ => .error .misuse

end Reading

/-- What the arguments ask for; nothing if they make no sense. -/
def Request.ofArguments (args : List String) : Option Request :=
  match args.foldlM Reading.take {} >>= Reading.finish with
  | .ok request => some request
  | .error (.request request) => some request
  | .error .misuse => none

/-- The paths of the files that a request mentions. -/
def Request.paths : Request → List String
  | .check file invocation => file :: invocation.config.toList
  | .version | .help => []

end CommandLine
end TypeResolution
