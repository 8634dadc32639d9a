/-
# Types

A type is a variable, a generic parameter of a declaration, a nominal type with its
arguments, a function with a passing convention per parameter, a tuple, an existential over a
set of traits, the type of a literal that has no other type yet, the type of an ill-formed
expression, or the placeholder of a type that nobody has computed. Types are compared as
terms; two variables are the same variable only if they have the same index.

A type is either a leaf or built from its `children`; `shape` is what remains of it without
them. `leaves` lists its leaves from left to right, and `subst` replaces variables and
parameters.

Key definitions: `TyVar`, `Convention`, `LiteralKind`, `TraitSet`, `Ty`, `Ty.children`,
`Ty.shape`, `Ty.leaves`, `Ty.subst`.
Key theorems: `Ty.beq_eq_true_iff`, `Ty.induct`.
-/
import TypeResolution.Name

namespace TypeResolution

/-- A unification variable, by its index in the store that gives it meaning. -/
structure TyVar where
  index : Nat
deriving DecidableEq, Inhabited

def TyVar.render (v : TyVar) : String := s!"?{v.index}"

/-- How a parameter is passed. -/
inductive Convention where
  | letting
  | inout
  | sink
  | set
deriving DecidableEq, Inhabited

namespace Convention

def keyword : Convention → String
  | .letting => "let"
  | .inout => "inout"
  | .sink => "sink"
  | .set => "set"

def ofKeyword? : String → Option Convention
  | "let" => some .letting
  | "inout" => some .inout
  | "sink" => some .sink
  | "set" => some .set
  | _ => none

/-- Whether arguments are checked against the parameter in one direction only: a value that is
written back must fit both ways. -/
def isOneWay : Convention → Bool
  | .letting | .sink => true
  | .inout | .set => false

theorem ofKeyword?_keyword (c : Convention) : ofKeyword? c.keyword = some c := by
  cases c <;> rfl

theorem keyword_of_ofKeyword? {keyword : String} {c : Convention}
    (h : ofKeyword? keyword = some c) : c.keyword = keyword := by
  unfold ofKeyword? at h
  split at h <;> cases h <;> rfl

end Convention

/-- The kinds of literals. -/
inductive LiteralKind where
  | integer
  | float
  | string
  | boolean
deriving DecidableEq, Inhabited

namespace LiteralKind

def keyword : LiteralKind → String
  | .integer => "integer"
  | .float => "float"
  | .string => "string"
  | .boolean => "boolean"

def ofKeyword? : String → Option LiteralKind
  | "integer" => some .integer
  | "float" => some .float
  | "string" => some .string
  | "boolean" => some .boolean
  | _ => none

/-- The trait of the types that a literal of this kind can be written for. -/
def traitName : LiteralKind → String
  | .integer => "ExpressibleByIntegerLiteral"
  | .float => "ExpressibleByFloatLiteral"
  | .string => "ExpressibleByStringLiteral"
  | .boolean => "ExpressibleByBooleanLiteral"

theorem ofKeyword?_keyword (k : LiteralKind) : ofKeyword? k.keyword = some k := by
  cases k <;> rfl

theorem keyword_of_ofKeyword? {keyword : String} {k : LiteralKind}
    (h : ofKeyword? keyword = some k) : k.keyword = keyword := by
  unfold ofKeyword? at h
  split at h <;> cases h <;> rfl

end LiteralKind

/-! ### Sets of traits -/

/-- A set of traits, listed in the order of their names. -/
structure TraitSet where
  names : List Name
  ascending : names.Pairwise (· < ·)
deriving DecidableEq

namespace TraitSet

/-- Puts a name in its place, unless it is there. -/
def place (name : Name) : List Name → List Name
  | [] => [name]
  | m :: rest =>
    if name < m then name :: m :: rest
    else if name = m then m :: rest
    else m :: place name rest

theorem mem_place {name x : Name} : ∀ {names : List Name},
    x ∈ place name names ↔ x = name ∨ x ∈ names
  | [] => by simp [place]
  | m :: rest => by
    unfold place
    split
    · simp
    · split
      · simp_all
      · simp [@mem_place name x rest, or_left_comm]

theorem pairwise_place {name : Name} : ∀ {names : List Name},
    names.Pairwise (· < ·) → (place name names).Pairwise (· < ·)
  | [], _ => by simp [place]
  | m :: rest, h => by
    obtain ⟨hm, hrest⟩ := List.pairwise_cons.1 h
    unfold place
    split
    · rename_i hlt
      refine List.pairwise_cons.2 ⟨fun x hx => ?_, h⟩
      rcases List.mem_cons.1 hx with rfl | hx
      · exact hlt
      · exact Nat.lt_trans hlt (hm x hx)
    · split
      · exact h
      · rename_i hlt hne
        refine List.pairwise_cons.2 ⟨fun x hx => ?_, pairwise_place hrest⟩
        rcases mem_place.1 hx with rfl | hx
        · have h1 : ¬ x.index < m.index := hlt
          have h2 : x.index ≠ m.index := fun he => hne (by cases x; cases m; simp_all)
          exact Nat.lt_of_le_of_ne (Nat.le_of_not_lt h1) (Ne.symm h2)
        · exact hm x hx

/-- The set without traits. -/
def empty : TraitSet := ⟨[], .nil⟩

instance : Inhabited TraitSet := ⟨empty⟩

def insert (s : TraitSet) (name : Name) : TraitSet :=
  ⟨place name s.names, pairwise_place s.ascending⟩

/-- The set of the listed traits. -/
def ofList (names : List Name) : TraitSet := names.foldl insert empty

theorem mem_foldl_insert {x : Name} : ∀ (names : List Name) (s : TraitSet),
    x ∈ (names.foldl insert s).names ↔ x ∈ names ∨ x ∈ s.names
  | [], s => by simp
  | n :: rest, s => by
    simp only [List.foldl_cons, mem_foldl_insert rest, insert, mem_place, List.mem_cons]
    grind

/-- The set has the listed traits and no others. -/
theorem mem_ofList {x : Name} {names : List Name} : x ∈ (ofList names).names ↔ x ∈ names := by
  simp [ofList, mem_foldl_insert, empty]

end TraitSet

/-! ### Types -/

/-- A type. -/
inductive Ty where
  /-- A variable, which means something in a store only. -/
  | var (v : TyVar)
  /-- A generic parameter of a declaration's signature. -/
  | param (name : Name)
  /-- A nominal type applied to arguments. -/
  | nominal (name : Name) (args : List Ty)
  /-- A function; each parameter has its passing convention. -/
  | function (params : List (Convention × Ty)) (result : Ty)
  | tuple (elements : List Ty)
  /-- Some type that conforms to every trait of the set. -/
  | existential (traits : TraitSet)
  /-- The type of a literal before it has another one. -/
  | literal (kind : LiteralKind)
  /-- The type of an ill-formed expression, which goes with every type. -/
  | error
  /-- The placeholder of a type that nobody has computed. -/
  | unresolved
deriving Inhabited

/-- A parameter of a function type. -/
abbrev Parameter := Convention × Ty

namespace Ty

/-- The type without parts. -/
abbrev unit : Ty := .tuple []

def isVar : Ty → Bool
  | .var _ => true
  | _ => false

/-- Induction on a type from its children. -/
@[elab_as_elim, induction_eliminator]
theorem induct {motive : Ty → Prop}
    (var : ∀ v, motive (.var v)) (param : ∀ name, motive (.param name))
    (nominal : ∀ name args, (∀ a ∈ args, motive a) → motive (.nominal name args))
    (function : ∀ params result, (∀ p ∈ params, motive p.2) → motive result →
      motive (.function params result))
    (tuple : ∀ elements, (∀ e ∈ elements, motive e) → motive (.tuple elements))
    (existential : ∀ traits, motive (.existential traits))
    (literal : ∀ kind, motive (.literal kind)) (error : motive .error)
    (unresolved : motive .unresolved) (t : Ty) : motive t :=
  @Ty.rec motive (fun ts => ∀ t ∈ ts, motive t) (fun ps => ∀ p ∈ ps, motive p.2)
    (fun p => motive p.2)
    var param nominal function tuple existential literal error unresolved
    (by simp) (fun _ _ h hs t ht => by
      rcases List.mem_cons.1 ht with rfl | ht
      · exact h
      · exact hs t ht)
    (by simp) (fun _ _ h hs p hp => by
      rcases List.mem_cons.1 hp with rfl | hp
      · exact h
      · exact hs p hp)
    (fun _ _ h => h) t

/-! ### Equality -/

mutual
/-- Whether two types are the same term. -/
def beq : Ty → Ty → Bool
  | .var v, .var w => v == w
  | .param n, .param m => n == m
  | .nominal n as, .nominal m bs => n == m && beqAll as bs
  | .function ps r, .function qs s => beqParams ps qs && beq r s
  | .tuple as, .tuple bs => beqAll as bs
  | .existential a, .existential b => a == b
  | .literal a, .literal b => a == b
  | .error, .error => true
  | .unresolved, .unresolved => true
  | _, _ => false

def beqAll : List Ty → List Ty → Bool
  | [], [] => true
  | a :: as, b :: bs => beq a b && beqAll as bs
  | _, _ => false

def beqParams : List Parameter → List Parameter → Bool
  | [], [] => true
  | (c, a) :: as, (d, b) :: bs => c == d && beq a b && beqParams as bs
  | _, _ => false
end

theorem beqAll_eq_true_iff {as : List Ty} (h : ∀ a ∈ as, ∀ b, beq a b = true ↔ a = b) :
    ∀ bs, beqAll as bs = true ↔ as = bs := by
  induction as with
  | nil => intro bs; cases bs <;> simp [beqAll]
  | cons a as ih =>
    intro bs
    cases bs with
    | nil => simp [beqAll]
    | cons b bs =>
      simp [beqAll, h a List.mem_cons_self b, ih (fun x hx => h x (List.mem_cons_of_mem _ hx)) bs]

theorem beqParams_eq_true_iff {ps : List Parameter}
    (h : ∀ p ∈ ps, ∀ b, beq p.2 b = true ↔ p.2 = b) :
    ∀ qs, beqParams ps qs = true ↔ ps = qs := by
  induction ps with
  | nil => intro qs; cases qs <;> simp [beqParams]
  | cons p ps ih =>
    intro qs
    obtain ⟨c, a⟩ := p
    cases qs with
    | nil => simp [beqParams]
    | cons q qs =>
      obtain ⟨d, b⟩ := q
      have ha : beq a b = true ↔ a = b := h (c, a) List.mem_cons_self b
      simp [beqParams, ha, ih (fun x hx => h x (List.mem_cons_of_mem _ hx)) qs]

theorem beq_eq_true_iff (a b : Ty) : beq a b = true ↔ a = b := by
  induction a generalizing b with
  | nominal n as ih => cases b <;> simp [beq, beqAll_eq_true_iff ih]
  | function ps r ihp ihr => cases b <;> simp [beq, beqParams_eq_true_iff ihp, ihr]
  | tuple as ih => cases b <;> simp [beq, beqAll_eq_true_iff ih]
  | _ => cases b <;> simp [beq]

instance : DecidableEq Ty := fun a b => decidable_of_iff _ (beq_eq_true_iff a b)

/-! ### Parts -/

/-- A type without its children. -/
inductive Shape where
  | var (v : TyVar)
  | param (name : Name)
  | nominal (name : Name)
  | function (conventions : List Convention)
  | tuple
  | existential (traits : TraitSet)
  | literal (kind : LiteralKind)
  | error
  | unresolved
deriving DecidableEq

def shape : Ty → Shape
  | .var v => .var v
  | .param name => .param name
  | .nominal name _ => .nominal name
  | .function params _ => .function (params.map (·.1))
  | .tuple _ => .tuple
  | .existential traits => .existential traits
  | .literal kind => .literal kind
  | .error => .error
  | .unresolved => .unresolved

/-- The direct parts of a type; a function has its parameters before its result. -/
def children : Ty → List Ty
  | .nominal _ args => args
  | .function params result => params.map (·.2) ++ [result]
  | .tuple elements => elements
  | _ => []

mutual
/-- The parts that have no parts themselves and are no nominal type, function or tuple, from
left to right. -/
def leaves : Ty → List Ty
  | .nominal _ args => leavesAll args
  | .function params result => leavesParams params ++ result.leaves
  | .tuple elements => leavesAll elements
  | t => [t]

def leavesAll : List Ty → List Ty
  | [] => []
  | t :: ts => t.leaves ++ leavesAll ts

def leavesParams : List Parameter → List Ty
  | [] => []
  | (_, t) :: ps => t.leaves ++ leavesParams ps
end

theorem leavesAll_eq_flatMap : ∀ ts : List Ty, leavesAll ts = ts.flatMap leaves
  | [] => rfl
  | _ :: ts => by simp [leavesAll, leavesAll_eq_flatMap ts]

theorem leavesParams_eq_flatMap : ∀ ps : List Parameter, leavesParams ps = ps.flatMap (·.2.leaves)
  | [] => rfl
  | _ :: ps => by simp [leavesParams, leavesParams_eq_flatMap ps]

mutual
/-- The number of levels below the type itself. -/
def depth : Ty → Nat
  | .nominal _ args => depthAll args
  | .function params result => max (depthParams params) (result.depth + 1)
  | .tuple elements => depthAll elements
  | _ => 0

def depthAll : List Ty → Nat
  | [] => 0
  | t :: ts => max (t.depth + 1) (depthAll ts)

def depthParams : List Parameter → Nat
  | [] => 0
  | (_, t) :: ps => max (t.depth + 1) (depthParams ps)
end

/-- The variables of a type, as often as they occur. -/
def vars (t : Ty) : List TyVar :=
  t.leaves.filterMap fun
    | .var v => some v
    | _ => none

/-- The variables of a type in the order in which they first occur. -/
def freeVars (t : Ty) : List TyVar := t.vars.eraseDups

/-- The generic parameters of a type, as often as they occur. -/
def params (t : Ty) : List Name :=
  t.leaves.filterMap fun
    | .param name => some name
    | _ => none

def hasVars (t : Ty) : Bool := !t.vars.isEmpty

def containsVar (t : Ty) (v : TyVar) : Bool := t.vars.contains v

def hasParams (t : Ty) : Bool := !t.params.isEmpty

def hasPlaceholder (t : Ty) : Bool := t.leaves.contains .unresolved

/-! ### Substitution -/

mutual
/-- The type with every variable and every generic parameter replaced. -/
def subst (onVar : TyVar → Ty) (onParam : Name → Ty) : Ty → Ty
  | .var v => onVar v
  | .param name => onParam name
  | .nominal name args => .nominal name (substAll onVar onParam args)
  | .function ps result => .function (substParams onVar onParam ps) (result.subst onVar onParam)
  | .tuple elements => .tuple (substAll onVar onParam elements)
  | .existential traits => .existential traits
  | .literal kind => .literal kind
  | .error => .error
  | .unresolved => .unresolved

def substAll (onVar : TyVar → Ty) (onParam : Name → Ty) : List Ty → List Ty
  | [] => []
  | t :: ts => t.subst onVar onParam :: substAll onVar onParam ts

def substParams (onVar : TyVar → Ty) (onParam : Name → Ty) : List Parameter → List Parameter
  | [] => []
  | (c, t) :: ps => (c, t.subst onVar onParam) :: substParams onVar onParam ps
end

theorem substAll_eq_map (f : TyVar → Ty) (g : Name → Ty) :
    ∀ ts, substAll f g ts = ts.map (subst f g)
  | [] => rfl
  | _ :: ts => by simp [substAll, substAll_eq_map f g ts]

theorem substParams_eq_map (f : TyVar → Ty) (g : Name → Ty) :
    ∀ ps, substParams f g ps = ps.map fun p => (p.1, p.2.subst f g)
  | [] => rfl
  | _ :: ps => by simp [substParams, substParams_eq_map f g ps]

/-- The type with every variable replaced. -/
def mapVars (f : TyVar → Ty) (t : Ty) : Ty := t.subst f .param

/-- The type with every generic parameter replaced. -/
def mapParams (f : Name → Ty) (t : Ty) : Ty := t.subst .var f

/-- The type with the listed generic parameters replaced. -/
def instantiate (args : List (Name × Ty)) (t : Ty) : Ty :=
  t.mapParams fun name => (args.lookup name).getD (.param name)

/-- Replacing nothing changes nothing. -/
theorem subst_var_param (t : Ty) : t.subst .var .param = t := by
  induction t with
  | nominal n as ih =>
    simp only [subst, substAll_eq_map]
    rw [List.map_congr_left (g := id) fun a ha => ih a ha, List.map_id]
  | function ps r ihp ihr =>
    simp only [subst, substParams_eq_map, ihr]
    rw [List.map_congr_left (g := id) fun p hp => by simp [ihp p hp], List.map_id]
  | tuple as ih =>
    simp only [subst, substAll_eq_map]
    rw [List.map_congr_left (g := id) fun a ha => ih a ha, List.map_id]
  | _ => rfl

end Ty
end TypeResolution
