/-
# Unification

`unify` makes two types equal by binding variables. A variable and a type are made equal by
binding the variable, unless it occurs in the type; two classes of variables are joined by a
link from the root of lower rank to the other one, and at equal ranks from the one of higher
index; types of one shape are made equal child by child, and the error type goes with every
type. Bindings that were made before a conflict was met stay in the store.

Going from two types to their children, and from a variable to its binding, comes to an end
in a store without cycles: between two bindings the types get smaller, and no binding is met
within itself. `unifyDepth` is the bound on the recursion that this gives.

Key definitions: `UnifyError`, `Unified`, `Store.bindRoot`, `Store.unify`, `Store.bind`.
-/
import TypeResolution.Store.Basic

namespace TypeResolution

/-- Why two types cannot be made equal. -/
inductive UnifyError where
  /-- The innermost types whose shapes differ. -/
  | mismatch (left right : Ty)
  /-- A variable that occurs in the type it should stand for. -/
  | occurs (var : TyVar) (type : Ty)
deriving DecidableEq

/-- The store after an attempt, and the conflict that ended it, if any. -/
structure Unified where
  store : Store
  conflict : Option UnifyError

namespace Unified

/-- The attempt succeeded. -/
def done (s : Store) : Unified := ⟨s, none⟩

def failed (s : Store) (e : UnifyError) : Unified := ⟨s, some e⟩

end Unified

/-- What is left to do about two types that are no bound variables. -/
inductive Comparison where
  /-- Nothing. -/
  | agree
  /-- One of them is a variable. -/
  | bind (var : TyVar) (type : Ty)
  /-- Their shapes and their children have to be compared. -/
  | structural
deriving DecidableEq

/-- Compares the tops of two types; where both are variables, the left one is bound. -/
def Comparison.of (a b : Ty) : Comparison :=
  if a = b then .agree
  else
    match a, b with
    | .error, _ | _, .error => .agree
    | .var v, t | t, .var v => .bind v t
    | _, _ => .structural

namespace Store

/-- Types of different shapes. -/
def mismatch (s : Store) (a b : Ty) : Unified := .failed s (.mismatch (s.apply a) (s.apply b))

/-- The rank of a root. -/
def rank (s : Store) (root : TyVar) : Nat :=
  match s.slot? root with
  | some (.root rank) => rank
  | _ => 0

/-- Joins the classes of two variables. -/
def link (s : Store) (a b : TyVar) : Store :=
  let (a, s) := s.find a
  let (b, s) := s.find b
  if a = b then s
  else if s.rank b < s.rank a then s.write b (.link a)
  else if s.rank a < s.rank b then s.write a (.link b)
  else
    let (root, child) := if a.index < b.index then (a, b) else (b, a)
    (s.write root (.root (s.rank a + 1))).write child (.link root)

/-- Makes the unbound root `v` stand for `t`, which is no bound variable. -/
def bindRoot (s : Store) (v : TyVar) (t : Ty) : Unified :=
  match t with
  | .var w => .done (s.link v w)
  | t =>
    if s.occurs v t then .failed s (.occurs v (s.apply t))
    else .done (s.write v (.bound t))

/-- Unifies the types of two lists in turn. -/
def unifyAll (step : Store → Ty → Ty → Option Unified) :
    Store → List Ty → List Ty → Option Unified
  | s, a :: as, b :: bs =>
    match step s a b with
    | some ⟨s, none⟩ => unifyAll step s as bs
    | stopped => stopped
  | s, _, _ => some (.done s)

/-- Unifies two types of at most `fuel` levels; `none` means that they have more. -/
def unifyWithin : Nat → Store → Ty → Ty → Option Unified
  | 0, _, _, _ => none
  | fuel + 1, s, a, b =>
    let (a, s) := s.shallow a
    let (b, s) := s.shallow b
    match Comparison.of a b with
    | .agree => some (.done s)
    | .bind v t => some (s.bindRoot v t)
    | .structural =>
      if a.shape = b.shape ∧ a.children.length = b.children.length then
        unifyAll (unifyWithin fuel) s a.children b.children
      else some (s.mismatch a b)

/-- The number of levels of the type in a slot. -/
def slotDepth : Slot → Nat
  | .bound t => t.depth
  | _ => 0

/-- A bound on the levels of two types when every variable is replaced: no binding is met
twice on the way down, and no more levels than those of the deepest type lie between two
bindings. -/
def unifyDepth (s : Store) (a b : Ty) : Nat :=
  let levels := s.slots.foldl (fun d slot => max d (slotDepth slot)) (max a.depth b.depth)
  (s.size + 1) * (levels + 1)

/-- Makes two types equal. -/
def unify (s : Store) (a b : Ty) : Unified :=
  (unifyWithin (s.unifyDepth a b) s a b).getD (s.mismatch a b)

/-- Makes a variable stand for a type. A variable that is bound already has its binding
unified with the type. -/
def bind (s : Store) (v : TyVar) (t : Ty) : Unified :=
  let (root, s) := s.find v
  match s.slot? root with
  | some (.bound existing) => s.unify existing t
  | _ =>
    let (t, s) := s.shallow t
    s.bindRoot root t

end Store
end TypeResolution
