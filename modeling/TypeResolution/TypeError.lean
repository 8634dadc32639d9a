/-
# Type errors

Why a system has no solution, in the terms of its constraints, and how it is told. An error
about an overloaded reference tells for each rejected candidate the error that it led to. A
unit that has no solution still has the types that were certain before anything was chosen.

Key definitions: `TypeError`, `TypeError.diagnose`, `Unsolved`.
-/
import TypeResolution.Report
import TypeResolution.Ty.Display

namespace TypeResolution

/-- How two types that do not fit were to fit. -/
inductive Fit where
  | equal
  | subtype
  /-- A returned value in the result of its function. -/
  | returned
deriving DecidableEq

/-- Why a search ended without an answer. -/
inductive StopReason where
  /-- It took as many steps as it may. -/
  | stepLimit (steps : Nat)
  /-- Only alternatives above the penalty bound are left. -/
  | penaltyLimit (bound : Nat)
  /-- Nothing is left to do, but these variables are unknown. -/
  | incomplete (vars : List TyVar)
deriving DecidableEq

/-- A candidate that was tried, and what came of it. -/
structure Rejection (ε : Type) where
  decl : DeclId
  type : Ty
  reason : ε

/-- An error that a search ends with. -/
inductive TypeError where
  | mismatch (fit : Fit) (left right : Ty) (locator : Option Locator)
  | infinite (var : TyVar) (type : Ty) (locator : Option Locator)
  | nonconforming (type : Ty) (trait : Name) (locator : Option Locator)
  | inexpressible (type : Ty) (literal : LiteralKind) (locator : Option Locator)
  | missingMember (base : Ty) (member : Name) (locator : Option Locator)
  /-- Every candidate was rejected. -/
  | noViableCandidate (name : Name) (rejected : List (Rejection TypeError))
      (locator : Option Locator)
  /-- Equally good solutions differ, in the declarations of a reference if it is named. -/
  | ambiguous (name : Option Name) (candidates : List (DeclId × Ty)) (locator : Option Locator)
  | stopped (reason : StopReason) (locator : Option Locator)
  | malformed (description : String) (locator : Option Locator)

namespace TypeError

def locator : TypeError → Option Locator
  | .mismatch _ _ _ l | .infinite _ _ l | .nonconforming _ _ l | .inexpressible _ _ l
  | .missingMember _ _ l | .noViableCandidate _ _ l | .ambiguous _ _ l | .stopped _ l
  | .malformed _ l => l

/-- The message of an error, and its arguments. -/
def message (names : NameTable) : TypeError → Message × List String
  | .mismatch fit left right _ =>
    (match fit with
      | .equal => .incompatible
      | .subtype => .notSubtype
      | .returned => .cannotReturn,
      [left.render names, right.render names])
  | .infinite v t _ => (.infiniteType, [v.render, t.render names])
  | .nonconforming t trait _ => (.doesNotConform, [t.render names, names.resolve trait])
  | .inexpressible t literal _ => (.notExpressible, [t.render names, literal.keyword])
  | .missingMember base member _ => (.noMember, [base.render names, names.resolve member])
  | .noViableCandidate name rejected _ =>
    (.noViableCandidate, [names.resolve name, toString rejected.length])
  | .ambiguous (some name) _ _ => (.ambiguousUse, [names.resolve name])
  | .ambiguous none _ _ => (.ambiguousInference, [])
  | .stopped (.stepLimit steps) _ => (.stepLimit, [toString steps])
  | .stopped (.penaltyLimit bound) _ => (.penaltyLimit, [toString bound])
  | .stopped (.incomplete vars) _ => (.notInferred, [String.intercalate ", " (vars.map (·.render))])
  | .malformed description _ => (.malformed, [description])

/-- The error in words. -/
def text (names : NameTable) (e : TypeError) : String :=
  let (m, args) := e.message names
  m.fill args

/-- One note per candidate. -/
def notes (names : NameTable) : TypeError → List Diagnostic
  | .noViableCandidate _ rejected _ =>
    rejected.map fun r =>
      .ofMessage r.reason.locator .candidateRejected
        [r.decl.render, r.type.render names, r.reason.text names]
  | .ambiguous _ candidates l =>
    candidates.map fun (decl, t) =>
      .ofMessage l .candidateFound [decl.render, t.render names]
  | _ => []

/-- The error as a diagnostic. -/
def diagnose (names : NameTable) (e : TypeError) : Diagnostic :=
  let (m, args) := e.message names
  (e.notes names).foldl Diagnostic.withNote (.ofMessage e.locator m args)

end TypeError

/-- What is known of a unit that has no solution. -/
structure Unsolved where
  errors : List TypeError
  /-- The types of the variables that were certain; one that was not stands for a variable. -/
  certain : List Ty

namespace Unsolved

def report (names : NameTable) (u : Unsolved) : Report := u.errors.map (·.diagnose names)

/-- The type of a variable, if it was certain. -/
def binding? (u : Unsolved) (v : TyVar) : Option Ty := u.certain[v.index]?.filter (!·.isVar)

def message (u : Unsolved) : String := s!"type checking failed with {u.errors.length} error(s)"

end Unsolved
end TypeResolution
