/-
# Where a constraint comes from

A locator is the syntax node that a constraint was generated for, its span if known, and a
path into the type of that node. A constraint that is taken apart hands its locator on with
one more step at the end, so that a failure deep inside a function type names the parameter
that did not fit.

Key definitions: `NodeId`, `DeclId`, `PathStep`, `Locator`, `Locator.extend`,
`Locator.render`.
-/
import TypeResolution.Name
import TypeResolution.Span

namespace TypeResolution

/-- A node of the syntax tree that the constraints were generated from. -/
structure NodeId where
  index : Nat
deriving DecidableEq, Inhabited

/-- A declaration that a reference may resolve to. -/
structure DeclId where
  index : Nat
deriving DecidableEq, Inhabited

def NodeId.render (n : NodeId) : String := s!"node#{n.index}"

def DeclId.render (d : DeclId) : String := s!"decl#{d.index}"

/-- One step from a type, or from a choice, into a part of it. -/
inductive PathStep where
  /-- A parameter of a function type. -/
  | argument (position : Nat)
  /-- The result of a function type. -/
  | result
  /-- An element of a tuple type. -/
  | element (position : Nat)
  /-- A generic argument of a nominal type. -/
  | generic (position : Nat)
  /-- A member access. -/
  | member (name : Name)
  /-- A candidate of an overloaded reference. -/
  | candidate (decl : DeclId)
  /-- An alternative of a disjunction. -/
  | minterm (position : Nat)
deriving DecidableEq

/-- The origin of a constraint. -/
structure Locator where
  anchor : NodeId
  span : Option Span
  path : List PathStep
deriving DecidableEq

/-- The words for one step of a path. -/
def PathStep.render (names : NameTable) : PathStep → String
  | .argument i => s!"argument {i}"
  | .result => "result"
  | .element i => s!"element {i}"
  | .generic i => s!"generic argument {i}"
  | .member name => s!"member '{names.resolve name}'"
  | .candidate decl => s!"candidate {decl.render}"
  | .minterm i => s!"alternative {i}"

namespace Locator

/-- The locator of a whole node. -/
def ofNode (anchor : NodeId) : Locator := ⟨anchor, none, []⟩

/-- One step further into the located type. -/
def extend (l : Locator) (step : PathStep) : Locator :=
  { l with path := l.path ++ [step] }

/-- The length of the path; a longer one points at a smaller part. -/
def depth (l : Locator) : Nat := l.path.length

/-- The locator of the choice itself, if the last step enters one of its candidates. -/
def dropCandidate (l : Locator) : Locator :=
  match l.path.getLast? with
  | some (.candidate _) => { l with path := l.path.dropLast }
  | _ => l

/-- The node, its span and the path, read from the outside in. -/
def render (names : NameTable) (l : Locator) : String :=
  let span := match l.span with
    | some s => s.render
    | none => ""
  l.anchor.render ++ span ++ String.join (l.path.map fun step => " -> " ++ step.render names)

theorem depth_extend (l : Locator) (step : PathStep) : (l.extend step).depth = l.depth + 1 := by
  simp [extend, depth]

end Locator
end TypeResolution
