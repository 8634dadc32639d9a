/-
# Checking of workspaces

Each unit of a workspace is solved by itself, with the table and the options that all share,
and gets a report: the warnings of its solution, or the errors for which it has none, sorted by
place. The units are reported in their order.

Key definitions: `Outcome`, `Workspace.check`, `Workspace.check?`, `Outcome.report`.
-/
import TypeResolution.Solve
import TypeResolution.Workspace.Loading

namespace TypeResolution

/-- What checking a unit comes to. -/
structure Outcome where
  name : String
  result : Except Unsolved Solution

namespace Outcome

def isSuccess (o : Outcome) : Bool :=
  match o.result with
  | .ok _ => true
  | .error _ => false

/-- What is said about the unit, by place. -/
def report (o : Outcome) (names : NameTable) : Report :=
  Report.sort <|
    match o.result with
    | .ok s => s.warnings
    | .error u => u.report names

end Outcome

namespace Workspace

/-- Solves every unit. -/
def check (w : Workspace) : List Outcome :=
  w.units.map fun u => ⟨u.name, solve w.table w.options.solver u.system⟩

/-- Solves every unit, unless a variable is looked up that a store does not have. -/
def check? (w : Workspace) : Option (List Outcome) :=
  w.units.mapM fun u => (solve? w.table w.options.solver u.system).map (⟨u.name, ·⟩)

end Workspace
end TypeResolution
