/-
# Lists of diagnostics

What is said about one unit: the diagnostics in the order in which they came, until they are
sorted by place. Sorting is stable, and what has no place comes first.

Key definitions: `Report`, `Report.sort`.
-/
import TypeResolution.Diagnostic

namespace TypeResolution

/-- The diagnostics of one unit. -/
abbrev Report := List Diagnostic

namespace Report

def errorCount (r : Report) : Nat := r.countP Diagnostic.isError

def warningCount (r : Report) : Nat := r.countP Diagnostic.isWarning

def hasErrors (r : Report) : Bool := r.any Diagnostic.isError

/-- `none` stands before every `some`, which are compared by `le`. -/
def optionLe {α : Type} (le : α → α → Bool) : Option α → Option α → Bool
  | none, _ => true
  | some _, none => false
  | some a, some b => le a b

/-- Whether one place does not come after another: first the node counts, then the start of
the span. -/
def placeLe : Option Locator → Option Locator → Bool :=
  optionLe fun a b =>
    a.anchor.index < b.anchor.index ||
      (a.anchor == b.anchor &&
        optionLe (fun s t => s.start ≤ t.start) a.span b.span)

/-- The diagnostics by place; those of one place keep their order. -/
def sort (r : Report) : Report := r.mergeSort fun a b => placeLe a.locator b.locator

/-- Sorting loses and adds nothing. -/
theorem sort_perm (r : Report) : r.sort.Perm r := List.mergeSort_perm _ _

end Report
end TypeResolution
