/-
# Solving a system

A system is looked at for operands that make no sense before it is searched: placeholders of
types, generic parameters outside of declarations, variables that the system does not have,
and disjunctions of fewer than two alternatives. All of these are told. The seeds are then put
into the store, and the search starts with the constraints in their order.

A variable that the store does not have cannot be looked up. Where declared types bring in such
a variable, the program may end without an answer (`solve?`).

Key definitions: `System.validate`, `solve`, `solve?`.
-/
import TypeResolution.Search.Lookup

namespace TypeResolution

namespace System

/-- What is wrong with an operand, if anything is. -/
def operandProblem (varCount : Nat) (allowParams : Bool) (t : Ty) : Option String :=
  if t.hasPlaceholder then some "unresolved placeholder type as operand"
  else if !allowParams && t.hasParams then some "generic parameter outside a declaration"
  else (t.vars.find? fun v => varCount ≤ v.index).map fun v =>
    s!"unknown type variable {v.render}"

/-- What is wrong with an overload. -/
def overloadProblems (varCount : Nat) (o : Overload) : List String :=
  (operandProblem varCount false o.type).toList ++
    o.candidates.filterMap fun c =>
      (operandProblem varCount true c.type).map fun problem =>
        s!"candidate {c.decl.render}: {problem}"

mutual
/-- What is wrong with a constraint and with those inside it. -/
def constraintErrors (varCount : Nat) : Constraint → List TypeError
  | .relation r l => (r.types.filterMap (operandProblem varCount false)).map (.malformed · l)
  | .overload o l => (overloadProblems varCount o).map (.malformed · l)
  | .disjunction ms l =>
    (if ms.length < 2 then [.malformed "a disjunction needs at least two alternatives" l]
      else []) ++ mintermErrors varCount ms

def mintermErrors (varCount : Nat) : List (Minterm Constraint) → List TypeError
  | [] => []
  | ⟨cs, _⟩ :: ms => allErrors varCount cs ++ mintermErrors varCount ms

def allErrors (varCount : Nat) : List Constraint → List TypeError
  | [] => []
  | c :: cs => constraintErrors varCount c ++ allErrors varCount cs
end

/-- What is wrong with a seed, if anything is. -/
def seedProblem (varCount : Nat) (seed : TyVar × Ty) : Option String :=
  if varCount ≤ seed.1.index then some s!"seed for unknown type variable {seed.1.render}"
  else operandProblem varCount false seed.2

/-- What is wrong with a system: with the constraints first, then with the seeds. -/
def validate (s : System) : List TypeError :=
  allErrors s.varCount s.constraints ++
    (s.seeds.filterMap (seedProblem s.varCount)).map (.malformed · none)

/-- The store in which the seeds are bound, or the first conflict and the store that it left. -/
def plant (s : Store) : List (TyVar × Ty) → Unified
  | [] => .done s
  | (v, t) :: seeds =>
    match s.bind v t with
    | ⟨s, none⟩ => plant s seeds
    | stopped => stopped

end System

open Search in
/-- The best solution of a system, or why there is none. -/
def solve (table : Table) (options : SolverOptions) (system : System) :
    Except Unsolved Solution :=
  let ctx : Context := ⟨table, options, system.varCount⟩
  let store := Store.ofSize system.varCount
  match system.validate with
  | [] =>
    match System.plant store system.seeds with
    | ⟨store, some conflict⟩ => .error ⟨[conflict.toTypeError .equal none], ctx.bindings store⟩
    | ⟨store, none⟩ =>
      let work : Work := Work.pushAll {} system.constraints
      State.run ctx options.maxSteps ⟨store, .open work, [], [], false, none⟩
  | errors => .error ⟨errors, ctx.bindings store⟩

open Search in
/-- The search for a solution of a system, before its first step. -/
def System.start (system : System) (store : Store) : State :=
  ⟨store, .open (Work.pushAll {} system.constraints), [], [], false, none⟩

open Search in
/-- The answer of `solve`, unless a variable is looked up that the store does not have. -/
def solve? (table : Table) (options : SolverOptions) (system : System) :
    Option (Except Unsolved Solution) :=
  match system.validate, System.plant (.ofSize system.varCount) system.seeds with
  | [], ⟨store, none⟩ =>
    State.run? ⟨table, options, system.varCount⟩ options.maxSteps (system.start store)
  | _, _ => some (solve table options system)

end TypeResolution
