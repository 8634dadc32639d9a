/-
# Answers to command lines

A run checks the units of a workspace file and says how each of them fared: its types and
declarations on the standard output, its diagnostics on the standard error output. A run ends
with the code 0 if every unit has a solution, with 1 if one has none or there are no units,
and with 2 if nothing could be checked.

The settings of the command line come before those of a configuration file, which takes the
place of the workspace's own configuration.

Key definitions: `Answer`, `Answer.toArguments`.
-/
import TypeResolution.CommandLine.Arguments
import TypeResolution.Workspace.Checking

namespace TypeResolution
namespace CommandLine

/-- What a run of the program writes, and the code that it ends with. -/
structure Answer where
  code : Nat
  output : String
  errors : String

/-- The contents of files by their paths; a file that cannot be read has none. -/
abbrev Files := String → Option String

/-- The options with the settings of a command line. -/
def Invocation.override (i : Invocation) (o : CheckerOptions) : CheckerOptions :=
  { o with
    solver :=
      { maxSteps := i.maxSteps.getD o.solver.maxSteps
        maxPenalty := i.maxPenalty <|> o.solver.maxPenalty
        literalDefaulting := i.literalDefaulting || o.solver.literalDefaulting }
    parallel := !i.sequential && o.parallel }

/-- The options that a workspace is checked with. -/
def Invocation.options (i : Invocation) (files : Files) (own : CheckerOptions) :
    Except ConfigError CheckerOptions := do
  let base ← match i.config with
    | none => pure own
    | some path =>
      match files path with
      | none => throw .unreadable
      | some text => CheckerOptions.ofText text
  let options := i.override base
  options.validate
  return options

/-! ### Lines -/

def line (text : String) : String := text ++ "\n"

/-- Two blanks for each level. -/
def indent (level : Nat) : String := String.join (List.replicate level "  ")

mutual
/-- A diagnostic and its notes, each on a line, the notes one level deeper. -/
def diagnosticLines (names : NameTable) (level : Nat) : Diagnostic → String
  | d@⟨locator, _, _, _, related⟩ =>
    let place := match locator with
      | none => ""
      | some l => l.render names ++ ": "
    line (indent level ++ place ++ d.headline) ++ reportLines names (level + 1) related

def reportLines (names : NameTable) (level : Nat) : List Diagnostic → String
  | [] => ""
  | d :: ds => diagnosticLines names level d ++ reportLines names level ds
end

def bindingLine (names : NameTable) (v : TyVar) (t : Ty) : String :=
  line (indent 1 ++ s!"{v.render} = {t.render names}")

def referenceLine (site : NodeId) (decl : DeclId) : String :=
  line (indent 1 ++ s!"{site.render} -> {decl.render}")

/-- The lines about a unit on the standard output. -/
def outcomeLines (names : NameTable) (o : Outcome) : String :=
  match o.result with
  | .error _ => line (o.name ++ ": failed")
  | .ok s =>
    line (o.name ++ ": ok") ++
      String.join (s.bindings.map fun (v, t) => bindingLine names v t) ++
      String.join (s.references.map fun (site, decl) => referenceLine site decl)

/-- How many units failed; nothing if none did. -/
def summary (outcomes : List Outcome) : String :=
  let failed := outcomes.countP fun o => !o.isSuccess
  let total := outcomes.length
  if failed = 0 then ""
  else
    let units := if total = 1 then "unit" else "units"
    "\n" ++ line s!"{failed} of {total} {units} failed."

/-! ### Answers -/

namespace Answer

/-- Nothing could be checked. -/
def refusal (reason : String) : Answer := ⟨2, "", line ("error: " ++ reason)⟩

/-- What is said about the units of a workspace. -/
def ofOutcomes (names : NameTable) (outcomes : List Outcome) : Answer :=
  { code := if outcomes.all Outcome.isSuccess then 0 else 1
    output := String.join (outcomes.map (outcomeLines names))
    errors := String.join (outcomes.map fun o => reportLines names 1 (o.report names)) ++
      summary outcomes }

def noUnits : Answer := ⟨1, "", line "error: workspace has no units"⟩

/-- The program ended without an answer. -/
def aborted : Answer := ⟨101, "", ""⟩

def usage : String := "usage: tyre [OPTIONS] <FILE>"

/-- The options, one on a line. -/
def helpText : String :=
  line usage ++ String.join
    [line "  -c, --config <CONFIG>            configuration in place of the workspace's own",
      line "      --max-steps <MAX_STEPS>      search steps allowed per unit",
      line "      --max-penalty <MAX_PENALTY>  prune alternatives whose penalty exceeds this",
      line "      --literal-defaulting         give unconstrained literals their default type",
      line "      --sequential                 check units one at a time",
      line "  -v, --verbose                    say more",
      line "      --no-color                   write without colors",
      line "  -h, --help                       write this help",
      line "  -V, --version                    write the version"]

/-- The answer to a request. -/
def toRequest (files : Files) : Request → Answer
  | .version => ⟨0, line "tyre 0.1.0", ""⟩
  | .help => ⟨0, helpText, ""⟩
  | .check file invocation =>
    match files file with
    | none => refusal ("failed to read " ++ file)
    | some text =>
      match Workspace.ofText text with
      | .error (e, names) => refusal (e.message names)
      | .ok w =>
        match invocation.options files w.options with
        | .error e => refusal e.message
        | .ok options =>
          if w.units.isEmpty then noUnits
          else
            match Workspace.check? { w with options } with
            | none => aborted
            | some outcomes => ofOutcomes w.table.names outcomes

/-- The answer to a command line. -/
def toArguments (files : Files) (args : List String) : Answer :=
  match Request.ofArguments args with
  | none => refusal usage
  | some request => toRequest files request

end Answer
end CommandLine
end TypeResolution
