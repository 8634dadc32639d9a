/-
# Opening of declarations

A reference to a declaration uses its signature at types that are not known yet: each generic
parameter becomes an unbound variable of its own. A signature may have parameters that are
not the declaration's, when the type that it is a member of was written without arguments;
these are opened in the same way.

Key definitions: `openParams`, `Opening`, `openCandidate`.
-/
import TypeResolution.Search.Work

namespace TypeResolution
namespace Search

/-- The variables that stand for parameters; of equal parameters the first one counts. -/
abbrev Opened := List (Name × TyVar)

/-- Gives each parameter a variable. -/
def openEach (s : Store) (opened : Opened) : List Name → Opened × Store
  | [] => (opened, s)
  | name :: rest =>
    let (v, s) := s.fresh
    openEach s ((name, v) :: opened) rest

/-- Gives a variable to each parameter that has none. -/
def openMissing (s : Store) (opened : Opened) : List Name → Opened × Store
  | [] => (opened, s)
  | name :: rest =>
    match opened.lookup name with
    | some _ => openMissing s opened rest
    | none =>
      let (v, s) := s.fresh
      openMissing s ((name, v) :: opened) rest

/-- A type with variables in place of its parameters. -/
def openParams (s : Store) (opened : Opened) (t : Ty) : Ty × Opened × Store :=
  let (opened, s) := openMissing s opened t.params
  (t.instantiate (opened.map fun (name, v) => (name, .var v)), opened, s)

/-- What settles a reference on a candidate. -/
structure Opening where
  store : Store
  constraints : List Constraint
  choice : Choice

/-- Settles a reference `name` of the given type on a candidate: the type is that of the opened
signature, and the variables of the generic parameters conform to their bounds. -/
def openCandidate (s : Store) (type : Ty) (name : Name) (c : Candidate) (l : Option Locator) :
    Opening :=
  let (opened, s) := openEach s [] (c.generics.map (·.name))
  let (signature, opened, s) := openParams s opened c.type
  let bounded := c.generics.filter fun g => !g.bounds.isEmpty
  { store := s
    constraints := .relation (.equality type signature) l :: bounded.filterMap fun g =>
      (opened.lookup g.name).map fun v =>
        .relation (.conformance (.var v) (.ofList g.bounds)) l
    choice := ⟨c.decl, name, c.type, l⟩ }

end Search
end TypeResolution
