/-
# Lookups

A variable can only be looked up in a store that has it; looking up another one ends the
program. Slots mention variables of their store only, so that it is enough to ask this of the
variables that are handed to the store: of the one that a type is, where only its top is looked
at, and of all variables of a type that is bound, told in full, or looked through for a
variable.

Key definitions: `Store.owns`, `Store.ownsAll`, `Store.unifyOwns`.
-/
import TypeResolution.Store.Unify

namespace TypeResolution
namespace Store

/-- Whether the store has a variable. -/
def owns (s : Store) (v : TyVar) : Bool := v.index < s.size

/-- Whether the store has the variable that a type is, if it is one. -/
def ownsTop (s : Store) : Ty → Bool
  | .var v => s.owns v
  | _ => true

/-- Whether the store has every variable of a type. -/
def ownsAll (s : Store) (t : Ty) : Bool := t.vars.all s.owns

/-- Whether the store has what is looked up when the types of two lists are unified in turn, up
to the first conflict. -/
def unifyOwnsAll (owned : Store → Ty → Ty → Bool) (step : Store → Ty → Ty → Option Unified) :
    Store → List Ty → List Ty → Bool
  | s, a :: as, b :: bs =>
    owned s a b &&
      match step s a b with
      | some ⟨s, none⟩ => unifyOwnsAll owned step s as bs
      | _ => true
  | _, _, _ => true

/-- Whether the store has what is looked up when two types of at most `fuel` levels are
unified. -/
def unifyOwnsWithin : Nat → Store → Ty → Ty → Bool
  | 0, _, _, _ => true
  | fuel + 1, s, a, b =>
    let (a', s') := s.shallow a
    let (b', s') := s'.shallow b
    s.ownsTop a && s.ownsTop b &&
      match Comparison.of a' b' with
      | .agree => true
      | .bind _ t => s'.ownsAll t
      | .structural =>
        if a'.shape = b'.shape ∧ a'.children.length = b'.children.length then
          unifyOwnsAll (unifyOwnsWithin fuel) (unifyWithin fuel) s' a'.children b'.children
        else s'.ownsAll a' && s'.ownsAll b'

/-- Whether the store has what is looked up when two types are made equal. -/
def unifyOwns (s : Store) (a b : Ty) : Bool := unifyOwnsWithin (s.unifyDepth a b) s a b

end Store
end TypeResolution
