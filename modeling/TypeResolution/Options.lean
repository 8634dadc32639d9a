/-
# Settings

How far a search may go and what it may assume, and how a whole workspace is checked. Every
setting has a default, so the empty object is a configuration.

Key definitions: `SolverOptions`, `CheckerOptions`, `CheckerOptions.validate`,
`CheckerOptions.ofText`.
-/
import TypeResolution.Json.Parser
import TypeResolution.Json.Record

namespace TypeResolution

/-- The settings of one search. -/
structure SolverOptions where
  /-- The number of simplifications and entered alternatives before the search gives up. -/
  maxSteps : Nat := 100000
  /-- Alternatives that bring the penalty above this bound are not tried. -/
  maxPenalty : Option Nat := none
  /-- Whether a literal that nothing else gives a type takes its default type. -/
  literalDefaulting : Bool := false
deriving DecidableEq, Inhabited

/-- The settings of a checking run. -/
structure CheckerOptions where
  solver : SolverOptions := {}
  /-- Whether units may be checked at the same time; it changes no answer. -/
  parallel : Bool := true
  /-- The number of workers, if it is fixed. -/
  threads : Option Nat := none
deriving DecidableEq, Inhabited

/-- A setting that can have a value that makes no sense. -/
inductive Setting where
  | maxSteps
  | threads
deriving DecidableEq

def Setting.path : Setting → String
  | .maxSteps => "solver.maxSteps"
  | .threads => "threads"

/-- Why there is no configuration. -/
inductive ConfigError where
  /-- The file cannot be read. -/
  | unreadable
  /-- The text is not the JSON of a configuration. -/
  | malformed
  /-- A number that has to be at least one is zero. -/
  | zero (setting : Setting)
deriving DecidableEq

/-- What is wrong with a value. -/
def ConfigError.message : ConfigError → String
  | .unreadable => "failed to read configuration"
  | .malformed => "invalid configuration JSON"
  | .zero setting => s!"invalid value for '{setting.path}': must be at least 1"

open Json in
/-- The settings that a JSON value gives to a search. -/
def SolverOptions.ofJson? (v : Json.Value) : Option SolverOptions := do
  let r ← record? ⟨["maxSteps", "maxPenalty", "literalDefaulting"], false⟩ v
  let default : SolverOptions := {}
  return {
    maxSteps := ← r.orElse "maxSteps" default.maxSteps Value.longWord?
    maxPenalty := ← r.orElse "maxPenalty" default.maxPenalty (Value.nullable Value.word?)
    literalDefaulting := ← r.orElse "literalDefaulting" default.literalDefaulting Value.bool? }

namespace CheckerOptions

/-- Refuses bounds of zero; the number of steps is looked at first. -/
def validate (o : CheckerOptions) : Except ConfigError Unit :=
  if o.solver.maxSteps = 0 then .error (.zero .maxSteps)
  else if o.threads = some 0 then .error (.zero .threads)
  else .ok ()

open Json in
/-- The settings that a JSON value gives to a run. -/
def ofJson? (v : Json.Value) : Option CheckerOptions := do
  let r ← record? ⟨["solver", "parallel", "threads"], false⟩ v
  let default : CheckerOptions := {}
  return {
    solver := ← r.orElse "solver" default.solver SolverOptions.ofJson?
    parallel := ← r.orElse "parallel" default.parallel Value.bool?
    threads := ← r.orElse "threads" default.threads (Value.nullable Value.longWord?) }

/-- The configuration that a text writes. -/
def ofText (text : String) : Except ConfigError CheckerOptions :=
  match (Json.Value.ofText? text).bind ofJson? with
  | none => .error .malformed
  | some o =>
    match o.validate with
    | .error e => .error e
    | .ok () => .ok o

/-- A configuration passes exactly if neither bound is zero. -/
theorem validate_eq_ok_iff (o : CheckerOptions) :
    o.validate = .ok () ↔ o.solver.maxSteps ≠ 0 ∧ o.threads ≠ some 0 := by
  unfold validate
  split
  · simp_all
  · split <;> simp_all

end CheckerOptions
end TypeResolution
