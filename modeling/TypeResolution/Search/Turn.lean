/-
# The next thing on a path

A path goes on with the first goal of its queue. Without one, the first choice is made. If
there is no choice either, something has to be assumed: the subtyping that was put aside first
becomes an equality, or a conversion where its subtype is a literal, so that the type of
literals does not become the type of a variable; and if literals may take their default types,
the first literal whose type is an unbound variable takes it, with a warning. A path on which
nothing can be assumed has ended, well if every variable is known and no goal is left.

Key definitions: `Context`, `weaken`, `defaultLiteral`, `incomplete`, `Turn`, `Work.turn`.
-/
import TypeResolution.Options
import TypeResolution.Search.Work
import TypeResolution.Table.Query
import TypeResolution.TypeError

namespace TypeResolution
namespace Search

/-- What does not change during a search. -/
structure Context where
  table : Table
  options : SolverOptions
  /-- The number of variables of the system; the search adds further ones. -/
  varCount : Nat

/-- What comes next on a path. -/
inductive Turn where
  | simplify (goal : Goal) (rest : Work)
  | choose (branch : BranchPoint) (rest : Work)
  | fail (error : TypeError)
  | complete

namespace Context

/-- The variables of the system. -/
def vars (ctx : Context) : List TyVar := (List.range ctx.varCount).map TyVar.mk

/-- The types that the variables of the system have in a store. -/
def bindings (ctx : Context) (s : Store) : List Ty := ctx.vars.map fun v => s.apply (.var v)

end Context

/-- The equality that stands in for a subtyping. -/
def assumption (s : Store) (a b : Ty) : Relation :=
  let known := match a with
    | .var v => s.probe v
    | _ => a
  match known with
  | .literal kind => .conversion b kind
  | _ => .equality a b

/-- The first subtyping that was put aside, with its stand-in, and the other goals. -/
def weaken (s : Store) : List Deferred → Option (Relation × Option Locator × List Deferred)
  | [] => none
  | d :: rest =>
    match d.goal.relation with
    | .subtyping a b | .returnBinding a b => some (assumption s a b, d.goal.locator, rest)
    | _ => (weaken s rest).map fun (r, l, others) => (r, l, d :: others)

/-- The first literal that can take its default type: the variable, the type, and the locator
of the goal. -/
def defaultLiteral (t : Table) (s : Store) : List Deferred → Option (TyVar × Ty × Option Locator)
  | [] => none
  | d :: rest =>
    match d.goal.relation with
    | .conversion (.var v) literal =>
      match s.isBound v, t.literalDefault literal with
      | false, some type => some (s.root v, type, d.goal.locator)
      | _, _ => defaultLiteral t s rest
    | _ => defaultLiteral t s rest

/-- What is unknown at the end of a path, if anything is: the variables of the system whose
types have variables, or else the variables that are watched. -/
def incomplete (ctx : Context) (s : Store) (deferred : List Deferred) : Option TypeError :=
  let unknown := ctx.vars.filter fun v => (s.apply (.var v)).hasVars
  if deferred.isEmpty && unknown.isEmpty then none
  else
    let vars := if unknown.isEmpty then ((deferred.flatMap (·.watch)).map s.root).eraseDups
      else unknown
    some (.stopped (.incomplete vars) (deferred.head?.bind (·.goal.locator)))

namespace Work

/-- Takes a relation in at once. -/
def takeUp (w : Work) (r : Relation) (l : Option Locator) : Turn :=
  .simplify ⟨w.nextOrdinal, r, l⟩ { w with nextOrdinal := w.nextOrdinal + 1 }

/-- Assumes what can be assumed when neither goals nor choices are left. -/
def assume (w : Work) (ctx : Context) (s : Store) : Turn :=
  match weaken s w.deferred with
  | some (r, l, deferred) => { w with deferred }.takeUp r l
  | none =>
    let literal := if ctx.options.literalDefaulting then defaultLiteral ctx.table s w.deferred
      else none
    match literal with
    | some (v, type, l) =>
      let warning := Diagnostic.ofMessage l .literalDefaulted [type.render ctx.table.names]
      { w with warnings := warning :: w.warnings }.takeUp (.equality (.var v) type) l
    | none =>
      match incomplete ctx s w.deferred with
      | some e => .fail e
      | none => .complete

/-- What comes next. -/
def turn (w : Work) (ctx : Context) (s : Store) : Turn :=
  match w.queue, w.branches with
  | goal :: queue, _ => .simplify goal { w with queue }
  | [], branch :: branches =>
    match branch.offer with
    | .overload ⟨_, name, _, []⟩ => .fail (.noViableCandidate name [] branch.locator)
    | _ => .choose branch { w with branches }
  | [], [] => w.assume ctx s

end Work
end Search
end TypeResolution
