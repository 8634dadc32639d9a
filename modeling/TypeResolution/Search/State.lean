/-
# The search

The search follows one path at a time. Between two steps it has the store and the work of the
path, the open branches with the innermost first, and the solutions found so far. A step
simplifies one goal or enters one alternative, and nothing else counts as a step.

When a path ends, the search goes on from the innermost open branch that has an alternative
left. An alternative whose penalty would exceed the bound, or that of a solution already
found, ends its branch, since the alternatives after it are penalised as much. A branch that
ends without a solution passes its failure on to the branch around it.

Key definitions: `State`, `Path.simplify`, `resume`, `answer`, `State.step`, `State.run`.
-/
import TypeResolution.Search.Branch
import TypeResolution.Search.Found
import TypeResolution.Search.Simplify
import TypeResolution.Search.Turn

namespace TypeResolution
namespace Search

/-- The path that is being followed. -/
inductive Path where
  | open (work : Work)
  /-- The last step was in vain. -/
  | failed (failure : Failure)

/-- A search between two steps. -/
structure State where
  store : Store
  path : Path
  branches : List Branch
  /-- The least penalised solutions found so far, the latest first. -/
  found : List Found
  /-- Whether an alternative was left out because of the penalty bound. -/
  pruned : Bool
  /-- The types of the variables when the first branch was met. -/
  certain : Option (List Ty)

/-- How a search goes on. -/
inductive Advance where
  | next (state : State)
  | done (answer : Except Unsolved Solution)

variable (ctx : Context)

/-- The path and the store after a goal has been simplified. Goals that were put aside are
looked at again only if something was written to the store. -/
def Path.simplify (goal : Goal) (rest : Work) (s : Store) : Path × Store :=
  let (result, after) := Search.simplify ctx.table s goal.relation goal.locator
  let goOn (work : Work) : Path :=
    .open (if after.version = s.version then work else work.wake after)
  match result with
  | .discharged children entry => (goOn (rest.discharge children entry), after)
  | .undecided watch => (goOn (rest.defer goal watch), after)
  | .violated e => (.failed ⟨e, rest.progress⟩, after)

/-- What a path that came to a good end has found. -/
def Work.toFound (w : Work) (s : Store) : Found where
  penalty := w.penalty
  genericChoices := w.genericChoices
  conversions := w.conversions
  types := ctx.bindings s
  choices := w.choices
  predicates := w.predicates
  warnings := w.warnings.reverse

/-- The answer when nothing is left to try. -/
def answer (store : Store) (found : List Found) (pruned : Bool) (certain : Option (List Ty))
    (failure : Option Failure) : Except Unsolved Solution :=
  let unsolved (e : TypeError) : Except Unsolved Solution :=
    .error ⟨[e], certain.getD (ctx.bindings store)⟩
  match distinct (ofLowestRank found.reverse) with
  | [] =>
    match failure with
    | some f => unsolved f.error
    | none =>
      if pruned then unsolved (.stopped (.penaltyLimit (ctx.options.maxPenalty.getD 0)) none)
      else unsolved (.stopped (.incomplete []) none)
  | [f] => .ok f.toSolution
  | first :: others => unsolved (ambiguity first (first :: others))

/-- Whether a penalty is above a bound, if there is one. -/
def exceeds (penalty : Nat) (bound : Option Nat) : Bool :=
  match bound with
  | none => false
  | some bound => bound < penalty

/-- Goes on after the end of a path, from the innermost branch that has an alternative left.
`failure` is how the latest alternative of the innermost branch failed, if it did. -/
def resume (found : List Found) (certain : Option (List Ty)) (store : Store) (pruned : Bool)
    (failure : Option Failure) : List Branch → Advance
  | [] => .done (answer ctx store found pruned certain failure)
  | branch :: branches =>
    let branch := branch.note failure
    let store := store.restore branch.snapshot
    let close (pruned : Bool) : Advance :=
      resume found certain store.commit pruned (if branch.solved then none else branch.failure?)
        branches
    match branch.untried with
    | [] => close pruned
    | alternative :: untried =>
      let penalty := addPenalty branch.base.penalty alternative.penalty
      if exceeds penalty ctx.options.maxPenalty then close true
      else if exceeds penalty (bestPenalty found) then close pruned
      else
        let (work, store) := alternative.enter branch.point.locator branch.base store
        let entered := (alternative, none) :: branch.entered
        let branch := { branch with untried, entered }
        .next ⟨store, .open work, branch :: branches, found, pruned, certain⟩

namespace State

/-- Goes on after a path that did not lead to a solution. -/
def fail (s : State) (failure : Failure) : Advance :=
  resume ctx s.found s.certain s.store s.pruned (some failure) s.branches

/-- Records the path, which has come to a good end, as a solution. -/
def complete (s : State) (work : Work) : Advance :=
  let f := work.toFound ctx s.store
  let branches := if exceeds f.penalty (bestPenalty s.found) then s.branches
    else s.branches.map fun b => { b with solved := true }
  resume ctx (keep s.found f) s.certain s.store s.pruned none branches

/-- Opens a branch and enters its first alternative. -/
def choose (s : State) (point : BranchPoint) (rest : Work) : Advance :=
  let certain := s.certain <|> some (ctx.bindings s.store)
  let (snapshot, store) := s.store.snapshot
  resume ctx s.found certain store s.pruned none (.start snapshot point rest :: s.branches)

/-- Simplifies a goal of the path. -/
def simplify (s : State) (goal : Goal) (rest : Work) : State :=
  let (path, store) := Path.simplify ctx goal rest s.store
  { s with store, path }

/-- Goes on by one step, or ends. -/
def step (s : State) : Advance :=
  match s.path with
  | .failed failure => s.fail ctx failure
  | .open work =>
    match work.turn ctx s.store with
    | .simplify goal rest => .next (s.simplify ctx goal rest)
    | .choose point rest => s.choose ctx point rest
    | .fail e => s.fail ctx ⟨e, work.progress⟩
    | .complete => s.complete ctx work

/-- The answer when no step is left. -/
def outOfSteps (s : State) : Except Unsolved Solution :=
  .error ⟨[.stopped (.stepLimit ctx.options.maxSteps) none], s.certain.getD (ctx.bindings s.store)⟩

/-- Searches for at most the given number of steps. -/
def run : Nat → State → Except Unsolved Solution
  | 0, s =>
    match s.step ctx with
    | .done answer => answer
    | .next _ => s.outOfSteps ctx
  | stepsLeft + 1, s =>
    match s.step ctx with
    | .done answer => answer
    | .next s => run stepsLeft s

end State
end Search
end TypeResolution
