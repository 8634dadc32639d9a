/-
# Constraints

A constraint relates types, or offers a choice. Relations are simplified one by one; the
choices are the references to overloaded declarations and the disjunctions of alternatives,
whose constraints may offer further choices. Each constraint may have a locator.

`Constraint.types` lists the types of a constraint, and `Constraint.mapTypes` rewrites all of
them but the signatures of candidates, which belong to declarations.

Key definitions: `Relation`, `Overload`, `Minterm`, `Constraint`, `Precedence`,
`Constraint.types`, `Constraint.mapTypes`.
Key theorems: `Constraint.induct`, `Constraint.beq_eq_true_iff`, `Constraint.mapTypes_id`.
-/
import TypeResolution.Table.Basic

namespace TypeResolution

/-- A predicate on values, which type resolution hands on as it is. -/
structure SizePredicate where
  id : Nat
  description : String
deriving DecidableEq

/-- What a constraint can say without offering a choice. -/
inductive Relation where
  /-- Both types are the same. -/
  | equality (left right : Ty)
  /-- Values of the first type can be used as values of the second. -/
  | subtyping (sub sup : Ty)
  /-- Subtyping between a returned value and the declared result. -/
  | returnBinding (value declared : Ty)
  /-- The type satisfies every trait of the set. -/
  | conformance (type : Ty) (traits : TraitSet)
  /-- A literal can be written where the type is expected. -/
  | conversion (type : Ty) (literal : LiteralKind)
  /-- The base has a member of the given type; the expression `site` refers to it. -/
  | valueMember (base : Ty) (member : Name) (type : Ty) (site : NodeId)
  | size (predicate : SizePredicate)
deriving DecidableEq

/-- A reference of the given type, at `site`, to one of the candidates. -/
structure Overload where
  type : Ty
  name : Name
  site : NodeId
  candidates : List Candidate
deriving DecidableEq

/-- One alternative of a disjunction. -/
structure Minterm (κ : Type) where
  constraints : List κ
  /-- How little the alternative is preferred. -/
  penalty : Nat

inductive Constraint where
  | relation (relation : Relation) (locator : Option Locator)
  | overload (overload : Overload) (locator : Option Locator)
  /-- The constraints of at least one of the alternatives hold. -/
  | disjunction (minterms : List (Minterm Constraint)) (locator : Option Locator)

/-- The order in which kinds of constraints are handled: what is cheap and decisive comes
first, choices come last. -/
inductive Precedence where
  | equality
  | subtyping
  | conversion
  | conformance
  | member
  | size
  | overload
  | disjunction
deriving DecidableEq

/-- The position of a precedence. -/
def Precedence.rank : Precedence → Nat
  | .equality => 0
  | .subtyping => 1
  | .conversion => 2
  | .conformance => 3
  | .member => 4
  | .size => 5
  | .overload => 6
  | .disjunction => 7

namespace Relation

def precedence : Relation → Precedence
  | .equality .. => .equality
  | .subtyping .. | .returnBinding .. => .subtyping
  | .conversion .. => .conversion
  | .conformance .. => .conformance
  | .valueMember .. => .member
  | .size .. => .size

/-- The types of a relation, in the order in which it is written. -/
def types : Relation → List Ty
  | .equality l r | .subtyping l r | .returnBinding l r => [l, r]
  | .conformance t _ | .conversion t _ => [t]
  | .valueMember base _ t _ => [base, t]
  | .size _ => []

def mapTypes (f : Ty → Ty) : Relation → Relation
  | .equality l r => .equality (f l) (f r)
  | .subtyping l r => .subtyping (f l) (f r)
  | .returnBinding l r => .returnBinding (f l) (f r)
  | .conformance t traits => .conformance (f t) traits
  | .conversion t literal => .conversion (f t) literal
  | .valueMember base member t site => .valueMember (f base) member (f t) site
  | .size predicate => .size predicate

theorem types_mapTypes (f : Ty → Ty) (r : Relation) : (r.mapTypes f).types = r.types.map f := by
  cases r <;> rfl

end Relation

namespace Constraint

/-- Induction on a constraint from those inside it. -/
@[elab_as_elim, induction_eliminator]
theorem induct {motive : Constraint → Prop}
    (relation : ∀ r l, motive (.relation r l)) (overload : ∀ o l, motive (.overload o l))
    (disjunction : ∀ ms l, (∀ m ∈ ms, ∀ c ∈ m.constraints, motive c) →
      motive (.disjunction ms l)) (c : Constraint) : motive c :=
  @Constraint.rec motive (fun ms => ∀ m ∈ ms, ∀ c ∈ m.constraints, motive c)
    (fun m => ∀ c ∈ m.constraints, motive c) (fun cs => ∀ c ∈ cs, motive c)
    relation overload disjunction
    (by simp) (fun _ _ h hs m hm => by
      rcases List.mem_cons.1 hm with rfl | hm
      · exact h
      · exact hs m hm)
    (fun _ _ h => h)
    (by simp) (fun _ _ h hs c hc => by
      rcases List.mem_cons.1 hc with rfl | hc
      · exact h
      · exact hs c hc) c

def locator : Constraint → Option Locator
  | .relation _ l | .overload _ l | .disjunction _ l => l

/-- The constraint with a locator, if it has none of its own. -/
def orLocator (c : Constraint) (l : Option Locator) : Constraint :=
  match c with
  | .relation r none => .relation r l
  | .overload o none => .overload o l
  | .disjunction ms none => .disjunction ms l
  | c => c

def precedence : Constraint → Precedence
  | .relation r _ => r.precedence
  | .overload .. => .overload
  | .disjunction .. => .disjunction

/-- Whether the constraint offers a choice. -/
def isBranchPoint : Constraint → Bool
  | .relation .. => false
  | .overload .. | .disjunction .. => true

/-- The number of ways that a choice offers. -/
def alternativeCount : Constraint → Nat
  | .relation .. => 0
  | .overload o _ => o.candidates.length
  | .disjunction ms _ => ms.length

/-! ### Equality -/

mutual
/-- Whether two constraints are the same, locators included. -/
def beq : Constraint → Constraint → Bool
  | .relation r l, .relation s m => r == s && l == m
  | .overload o l, .overload p m => o == p && l == m
  | .disjunction ms l, .disjunction ns m => beqMinterms ms ns && l == m
  | _, _ => false

def beqMinterms : List (Minterm Constraint) → List (Minterm Constraint) → Bool
  | [], [] => true
  | ⟨cs, p⟩ :: ms, ⟨ds, q⟩ :: ns => beqAll cs ds && p == q && beqMinterms ms ns
  | _, _ => false

def beqAll : List Constraint → List Constraint → Bool
  | [], [] => true
  | c :: cs, d :: ds => beq c d && beqAll cs ds
  | _, _ => false
end

theorem beqAll_eq_true_iff {cs : List Constraint} (h : ∀ c ∈ cs, ∀ d, beq c d = true ↔ c = d) :
    ∀ ds, beqAll cs ds = true ↔ cs = ds := by
  induction cs with
  | nil => intro ds; cases ds <;> simp [beqAll]
  | cons c cs ih =>
    intro ds
    cases ds with
    | nil => simp [beqAll]
    | cons d ds =>
      simp [beqAll, h c List.mem_cons_self d, ih (fun x hx => h x (List.mem_cons_of_mem _ hx)) ds]

theorem beqMinterms_eq_true_iff {ms : List (Minterm Constraint)}
    (h : ∀ m ∈ ms, ∀ c ∈ m.constraints, ∀ d, beq c d = true ↔ c = d) :
    ∀ ns, beqMinterms ms ns = true ↔ ms = ns := by
  induction ms with
  | nil => intro ns; cases ns <;> simp [beqMinterms]
  | cons m ms ih =>
    intro ns
    obtain ⟨cs, p⟩ := m
    cases ns with
    | nil => simp [beqMinterms]
    | cons n ns =>
      obtain ⟨ds, q⟩ := n
      simp [beqMinterms, beqAll_eq_true_iff (h ⟨cs, p⟩ List.mem_cons_self) ds,
        ih (fun x hx => h x (List.mem_cons_of_mem _ hx)) ns]

theorem beq_eq_true_iff (c d : Constraint) : beq c d = true ↔ c = d := by
  induction c generalizing d with
  | relation r l => cases d <;> simp [beq]
  | overload o l => cases d <;> simp [beq]
  | disjunction ms l ih => cases d <;> simp [beq, beqMinterms_eq_true_iff ih]

instance : DecidableEq Constraint := fun c d => decidable_of_iff _ (beq_eq_true_iff c d)

/-! ### Types -/

mutual
/-- The types of a constraint, with the signatures of candidates and the types of the
constraints inside. -/
def types : Constraint → List Ty
  | .relation r _ => r.types
  | .overload o _ => o.type :: o.candidates.map (·.type)
  | .disjunction ms _ => typesOfMinterms ms

def typesOfMinterms : List (Minterm Constraint) → List Ty
  | [] => []
  | ⟨cs, _⟩ :: ms => typesOfAll cs ++ typesOfMinterms ms

def typesOfAll : List Constraint → List Ty
  | [] => []
  | c :: cs => c.types ++ typesOfAll cs
end

mutual
/-- The constraint with its types rewritten; signatures of candidates are kept. -/
def mapTypes (f : Ty → Ty) : Constraint → Constraint
  | .relation r l => .relation (r.mapTypes f) l
  | .overload o l => .overload { o with type := f o.type } l
  | .disjunction ms l => .disjunction (mapTypesOfMinterms f ms) l

def mapTypesOfMinterms (f : Ty → Ty) : List (Minterm Constraint) → List (Minterm Constraint)
  | [] => []
  | ⟨cs, penalty⟩ :: ms => ⟨mapTypesOfAll f cs, penalty⟩ :: mapTypesOfMinterms f ms

def mapTypesOfAll (f : Ty → Ty) : List Constraint → List Constraint
  | [] => []
  | c :: cs => c.mapTypes f :: mapTypesOfAll f cs
end

theorem typesOfAll_eq_flatMap : ∀ cs : List Constraint, typesOfAll cs = cs.flatMap types
  | [] => rfl
  | _ :: cs => by simp [typesOfAll, typesOfAll_eq_flatMap cs]

theorem typesOfMinterms_eq_flatMap : ∀ ms : List (Minterm Constraint),
    typesOfMinterms ms = ms.flatMap fun m => m.constraints.flatMap types
  | [] => rfl
  | ⟨_, _⟩ :: ms => by
    simp [typesOfMinterms, typesOfAll_eq_flatMap, typesOfMinterms_eq_flatMap ms]

theorem mapTypesOfAll_eq_map (f : Ty → Ty) :
    ∀ cs : List Constraint, mapTypesOfAll f cs = cs.map (mapTypes f)
  | [] => rfl
  | _ :: cs => by simp [mapTypesOfAll, mapTypesOfAll_eq_map f cs]

theorem mapTypesOfMinterms_eq_map (f : Ty → Ty) : ∀ ms : List (Minterm Constraint),
    mapTypesOfMinterms f ms = ms.map fun m => ⟨m.constraints.map (mapTypes f), m.penalty⟩
  | [] => rfl
  | ⟨_, _⟩ :: ms => by
    simp [mapTypesOfMinterms, mapTypesOfAll_eq_map, mapTypesOfMinterms_eq_map f ms]

theorem locator_mapTypes (f : Ty → Ty) (c : Constraint) : (c.mapTypes f).locator = c.locator := by
  cases c <;> rfl

theorem precedence_mapTypes (f : Ty → Ty) (c : Constraint) :
    (c.mapTypes f).precedence = c.precedence := by
  cases c with
  | relation r l => cases r <;> rfl
  | overload o l => rfl
  | disjunction ms l => rfl

/-- Rewriting every type to itself changes nothing. -/
theorem mapTypes_id (c : Constraint) : c.mapTypes id = c := by
  induction c with
  | relation r l => cases r <;> rfl
  | overload o l => rfl
  | disjunction ms l ih =>
    simp only [mapTypes, mapTypesOfMinterms_eq_map]
    congr
    conv => rhs; rw [← List.map_id ms]
    refine List.map_congr_left fun m hm => ?_
    rw [List.map_congr_left (g := id) fun c hc => ih m hm c hc, List.map_id]
    rfl

end Constraint
end TypeResolution
