/-
# Systems of constraints and their solutions

A system has variables, constraints on them, and seeds, which are types that some of the
variables are known to stand for. A solution has a type for each variable, the declaration
that each reference resolves to, and what goes with them. A variable that a solution leaves
open stands for a variable in it.

A solution is put back into its system by `System.rewritten`: its types replace the
variables, and become seeds.

Key definitions: `System`, `Solution`, `Solution.apply`, `System.rewritten`.
-/
import TypeResolution.Constraint
import TypeResolution.Report

namespace TypeResolution

/-- The constraints of one unit. The variables are those with an index below `varCount`. -/
structure System where
  varCount : Nat
  constraints : List Constraint
  seeds : List (TyVar × Ty)

/-- An answer to a system. -/
structure Solution where
  /-- The types of the variables, by index. -/
  types : List Ty
  /-- The declarations of the references, in the order in which they were settled. -/
  references : List (NodeId × DeclId)
  predicates : List SizePredicate
  /-- The penalty of all chosen alternatives together. -/
  penalty : Nat
  warnings : Report

namespace Solution

/-- The type of a variable, unless it is left open. -/
def binding? (s : Solution) (v : TyVar) : Option Ty := s.types[v.index]?.filter (!·.isVar)

/-- The variables that have a type, with their types. -/
def bindings (s : Solution) : List (TyVar × Ty) :=
  (s.types.zipIdx.map fun (t, i) => (⟨i⟩, t)).filter (!·.2.isVar)

/-- A type with the solution put in. -/
def apply (s : Solution) (t : Ty) : Ty := t.mapVars fun v => s.types[v.index]?.getD (.var v)

/-- The declaration that the reference at a node resolves to. -/
def reference? (s : Solution) (site : NodeId) : Option DeclId := s.references.lookup site

/-- One more warning about the unit. -/
def warn (s : Solution) (d : Diagnostic) : Solution := { s with warnings := s.warnings ++ [d] }

end Solution

namespace System

/-- The system of `count` variables without constraints. -/
def ofSize (count : Nat) : System := ⟨count, [], []⟩

/-- The variables of a system. -/
def vars (s : System) : List TyVar := (List.range s.varCount).map TyVar.mk

/-- The system with a solution put in. -/
def rewritten (s : System) (solution : Solution) : System :=
  { varCount := s.varCount
    constraints := s.constraints.map (·.mapTypes solution.apply)
    seeds := s.vars.filterMap fun v => (solution.binding? v).map (v, ·) }

end System
end TypeResolution
