/-
# What constraints say

A constraint holds or does not hold under an interpretation, which gives each variable a type,
each reference a declaration, and hands on some predicates (`Constraint.Holds`). Nothing is said
here about how an interpretation is found. Types are compared by agreement, so that the error
type goes with every type, and subtyping is the least relation with the rules of
`Table.Subtype`.

A declaration is used at some types in place of its generic parameters. The types that variables
stand for may have parameters of their own, and these are left alone (`Ty.Opens`); a type
without parameters is opened by replacing all of them (`Ty.Opens.eq_mapParams`).

Key definitions: `Ty.Opens`, `Table.Subtype`, `Interpretation`, `Relation.Holds`,
`Constraint.Holds`, `Constraint.sites`.
Key theorems: `Ty.Opens.eq_mapParams`.
-/
import TypeResolution.Proofs.Table.Instances
import TypeResolution.Proofs.Ty.Agreement

namespace TypeResolution

/-! ### Declarations at types -/

/-- One type is another one with types put in for its generic parameters; those in the types
that variables of a common pattern stand for are kept. -/
def Ty.Opens (θ : Name → Ty) (declared opened : Ty) : Prop :=
  ∃ (pattern : Ty) (τ : TyVar → Ty), declared = pattern.mapVars τ ∧ opened = pattern.subst τ θ

theorem Ty.mapParams_eq_self {θ : Name → Ty} {t : Ty} (h : t.params = []) : t.mapParams θ = t := by
  refine (Ty.subst_congr (fun _ _ => rfl) fun p hp => ?_).trans (Ty.subst_var_param t)
  rw [h] at hp
  cases hp

theorem Ty.params_subst_var {τ : TyVar → Ty} (θ : Name → Ty) {t : Ty} {v : TyVar} {p : Name}
    (hv : v ∈ t.vars) (hp : p ∈ (τ v).params) : p ∈ (t.subst τ θ).params := by
  induction t with
  | var w =>
    rw [vars_var, List.mem_singleton] at hv
    exact hv ▸ hp
  | nominal n as ih =>
    obtain ⟨a, ha, hv⟩ := List.mem_flatMap.1 (vars_nominal n as ▸ hv)
    rw [subst, substAll_eq_map, params_nominal, List.flatMap_map]
    exact List.mem_flatMap.2 ⟨a, ha, ih a ha hv⟩
  | function ps r ihp ihr =>
    rw [subst, substParams_eq_map, params_function, List.flatMap_map]
    rcases List.mem_append.1 (vars_function ps r ▸ hv) with hv | hv
    · obtain ⟨q, hq, hv⟩ := List.mem_flatMap.1 hv
      exact List.mem_append_left _ (List.mem_flatMap.2 ⟨q, hq, ihp q hq hv⟩)
    · exact List.mem_append_right _ (ihr hv)
  | tuple as ih =>
    obtain ⟨a, ha, hv⟩ := List.mem_flatMap.1 (vars_tuple as ▸ hv)
    rw [subst, substAll_eq_map, params_tuple, List.flatMap_map]
    exact List.mem_flatMap.2 ⟨a, ha, ih a ha hv⟩
  | _ => simp at hv

/-- If no parameter is left, all of them have been replaced. -/
theorem Ty.Opens.eq_mapParams {θ : Name → Ty} {declared opened : Ty}
    (h : Ty.Opens θ declared opened) (hopened : opened.params = []) :
    opened = declared.mapParams θ := by
  obtain ⟨pattern, τ, rfl, rfl⟩ := h
  refine Eq.trans ?_ (subst_subst τ .var .param θ pattern).symm
  refine subst_congr (fun v hv => ?_) fun p _ => rfl
  refine (mapParams_eq_self (List.eq_nil_iff_forall_not_mem.2 fun p hp => ?_)).symm
  have := params_subst_var θ hv hp
  rw [hopened] at this
  cases this

/-- The types put in for the generic parameters satisfy the bounds. -/
def Candidate.BoundsHold (c : Candidate) (table : Table) (θ : Name → Ty) : Prop :=
  ∀ g ∈ c.generics, ∀ trait ∈ g.bounds, table.conforms (θ g.name) trait = true

/-! ### Subtyping -/

/-- Values of the first type can be used as values of the second one. -/
inductive Table.Subtype (table : Table) : Ty → Ty → Prop where
  | agree {a b : Ty} : agree a b = true → Subtype table a b
  /-- Arguments go the opposite way, unless they are written back. -/
  | function {ps qs : List Parameter} {r u : Ty} : ps.map (·.1) = qs.map (·.1) →
      (∀ p ∈ ps.zip qs, p.1.1.isOneWay = true → Subtype table p.2.2 p.1.2) →
      (∀ p ∈ ps.zip qs, p.1.1.isOneWay = false → TypeResolution.agree p.1.2 p.2.2 = true) →
      Subtype table r u → Subtype table (.function ps r) (.function qs u)
  | tuple {as bs : List Ty} : as.length = bs.length → (∀ p ∈ as.zip bs, Subtype table p.1 p.2) →
      Subtype table (.tuple as) (.tuple bs)
  | literal {kind : LiteralKind} {b : Ty} : table.isExpressible b kind = true →
      Subtype table (.literal kind) b
  | existential {a : Ty} {traits : TraitSet} :
      (∀ trait ∈ traits.names, table.conforms a trait = true) →
      Subtype table a (.existential traits)
  /-- A supertype of the name agrees with the other type, at some types in place of the
  parameters that it may have left. -/
  | nominal {n m : Name} {as bs : List Ty} {sup opened : Ty} {θ : Name → Ty} :
      table.Above (.nominal n as) sup → Table.hasHead m sup = true → Ty.Opens θ sup opened →
      TypeResolution.agree opened (.nominal m bs) = true →
      Subtype table (.nominal n as) (.nominal m bs)

/-! ### Constraints -/

/-- What is found for a system. -/
structure Interpretation where
  types : TyVar → Ty
  reference? : NodeId → Option DeclId
  predicates : List SizePredicate

variable (table : Table) (I : Interpretation)

/-- The base has a member of the given type. It is an element of a tuple, or the declaration that
the reference at the site is settled on, at some types in place of its generic parameters. -/
def MemberHolds (base : Ty) (member : Name) (type : Ty) (site : NodeId) : Prop :=
  match base with
  | .error => True
  | .tuple elements =>
    ∃ element, table.element? elements member = some element ∧ agree element type = true
  | base =>
    ∃ c ∈ table.members base member, I.reference? site = some c.decl ∧
      ∃ θ opened, Ty.Opens θ c.type opened ∧ agree type opened = true ∧ c.BoundsHold table θ

/-- The relation holds for the types of the interpretation. -/
def Relation.Holds : Relation → Prop
  | .equality a b => agree (a.mapVars I.types) (b.mapVars I.types) = true
  | .subtyping a b | .returnBinding a b =>
    table.Subtype (a.mapVars I.types) (b.mapVars I.types)
  | .conformance type traits =>
    ∀ trait ∈ traits.names, table.conforms (type.mapVars I.types) trait = true
  | .conversion type literal =>
    type.mapVars I.types = .error ∨ table.isExpressible (type.mapVars I.types) literal = true
  | .valueMember base member type site =>
    MemberHolds table I (base.mapVars I.types) member (type.mapVars I.types) site
  | .size predicate => predicate ∈ I.predicates

/-- The constraint holds. -/
inductive Constraint.Holds : Constraint → Prop where
  | relation {r : Relation} {l : Option Locator} : r.Holds table I → Holds (.relation r l)
  /-- The reference is to one of the candidates, at some types that satisfy the bounds. -/
  | overload {v : Overload} {l : Option Locator} {c : Candidate} {θ : Name → Ty} :
      c ∈ v.candidates → I.reference? v.site = some c.decl →
      agree (v.type.mapVars I.types) (c.type.subst I.types θ) = true → c.BoundsHold table θ →
      Holds (.overload v l)
  | disjunction {ms : List (Minterm Constraint)} {l : Option Locator} {m : Minterm Constraint} :
      m ∈ ms → (∀ c ∈ m.constraints, Holds c) → Holds (.disjunction ms l)

/-! ### Readings -/

/-- An interpretation by types of some kind, to which the generic parameters belong. -/
structure Reading extends Interpretation where
  allowed : Ty → Prop
  allowed_types : ∀ v, allowed (types v)
  allowed_param : ∀ n, allowed (.param n)

/-- Subtyping where generic parameters stand for types of the kind. -/
inductive Table.SubtypeIn (table : Table) (allowed : Ty → Prop) : Ty → Ty → Prop where
  | agree {a b : Ty} : TypeResolution.agree a b = true → SubtypeIn table allowed a b
  | function {ps qs : List Parameter} {r u : Ty} : ps.map (·.1) = qs.map (·.1) →
      (∀ p ∈ ps.zip qs, p.1.1.isOneWay = true → SubtypeIn table allowed p.2.2 p.1.2) →
      (∀ p ∈ ps.zip qs, p.1.1.isOneWay = false → TypeResolution.agree p.1.2 p.2.2 = true) →
      SubtypeIn table allowed r u → SubtypeIn table allowed (.function ps r) (.function qs u)
  | tuple {as bs : List Ty} : as.length = bs.length →
      (∀ p ∈ as.zip bs, SubtypeIn table allowed p.1 p.2) →
      SubtypeIn table allowed (.tuple as) (.tuple bs)
  | literal {kind : LiteralKind} {b : Ty} : table.isExpressible b kind = true →
      SubtypeIn table allowed (.literal kind) b
  | existential {a : Ty} {traits : TraitSet} :
      (∀ trait ∈ traits.names, table.conforms a trait = true) →
      SubtypeIn table allowed a (.existential traits)
  | nominal {n m : Name} {as bs : List Ty} {sup opened : Ty} {θ : Name → Ty} :
      table.Above (.nominal n as) sup → Table.hasHead m sup = true → Ty.Opens θ sup opened →
      (∀ p, allowed (θ p)) → TypeResolution.agree opened (.nominal m bs) = true →
      SubtypeIn table allowed (.nominal n as) (.nominal m bs)

section Readings

variable (R : Reading)

/-- The base has a member of the given type, at types of the kind. -/
def MemberHoldsIn (base : Ty) (member : Name) (type : Ty) (site : NodeId) : Prop :=
  match base with
  | .error => True
  | .tuple elements =>
    ∃ element, table.element? elements member = some element ∧ agree element type = true
  | base =>
    ∃ c ∈ table.members base member, R.reference? site = some c.decl ∧
      ∃ θ opened, Ty.Opens θ c.type opened ∧ (∀ p, R.allowed (θ p)) ∧ agree type opened = true ∧
        c.BoundsHold table θ

/-- The relation holds where generic parameters stand for types of the kind. -/
def Relation.HoldsIn : Relation → Prop
  | .subtyping a b | .returnBinding a b =>
    table.SubtypeIn R.allowed (a.mapVars R.types) (b.mapVars R.types)
  | .valueMember base member type site =>
    MemberHoldsIn table R (base.mapVars R.types) member (type.mapVars R.types) site
  | r => r.Holds table R.toInterpretation

/-- The constraint holds where generic parameters stand for types of the kind. -/
inductive Constraint.HoldsIn : Constraint → Prop where
  | relation {r : Relation} {l : Option Locator} : r.HoldsIn table R → HoldsIn (.relation r l)
  | overload {v : Overload} {l : Option Locator} {c : Candidate} {θ : Name → Ty} :
      c ∈ v.candidates → R.reference? v.site = some c.decl → (∀ p, R.allowed (θ p)) →
      agree (v.type.mapVars R.types) (c.type.subst R.types θ) = true → c.BoundsHold table θ →
      HoldsIn (.overload v l)
  | disjunction {ms : List (Minterm Constraint)} {l : Option Locator} {m : Minterm Constraint} :
      m ∈ ms → (∀ c ∈ m.constraints, HoldsIn c) → HoldsIn (.disjunction ms l)

variable {table R}

theorem Table.SubtypeIn.subtype {allowed : Ty → Prop} {a b : Ty}
    (h : table.SubtypeIn allowed a b) : table.Subtype a b := by
  induction h with
  | agree h => exact .agree h
  | function hconventions _ hboth _ honeWay hresult =>
    exact .function hconventions honeWay hboth hresult
  | tuple hlength _ ih => exact .tuple hlength ih
  | literal h => exact .literal h
  | existential h => exact .existential h
  | nominal habove hhead hopens _ hagree => exact .nominal habove hhead hopens hagree

theorem MemberHoldsIn.memberHolds {base type : Ty} {member : Name} {site : NodeId}
    (h : MemberHoldsIn table R base member type site) :
    MemberHolds table R.toInterpretation base member type site := by
  cases base with
  | error => trivial
  | tuple elements => exact h
  | _ =>
    obtain ⟨c, hc, href, θ, opened, hopens, -, hagree, hbounds⟩ := h
    exact ⟨c, hc, href, θ, opened, hopens, hagree, hbounds⟩

theorem Relation.HoldsIn.holds {r : Relation} (h : r.HoldsIn table R) :
    r.Holds table R.toInterpretation := by
  cases r with
  | subtyping a b => exact Table.SubtypeIn.subtype h
  | returnBinding a b => exact Table.SubtypeIn.subtype h
  | valueMember base member type site => exact MemberHoldsIn.memberHolds h
  | _ => exact h

/-- What holds at types of a kind holds. -/
theorem Constraint.HoldsIn.holds {c : Constraint} (h : c.HoldsIn table R) :
    c.Holds table R.toInterpretation := by
  induction h with
  | relation h => exact .relation h.holds
  | overload hc href _ hagree hbounds => exact .overload hc href hagree hbounds
  | disjunction hm _ ih => exact .disjunction hm ih

end Readings

namespace Constraint

/-! ### References -/

mutual
/-- The sites of the references that a constraint settles, with those inside it. -/
def sites : Constraint → List NodeId
  | .relation (.valueMember _ _ _ site) _ => [site]
  | .relation _ _ => []
  | .overload o _ => [o.site]
  | .disjunction ms _ => sitesOfMinterms ms

def sitesOfMinterms : List (Minterm Constraint) → List NodeId
  | [] => []
  | ⟨cs, _⟩ :: ms => sitesOfAll cs ++ sitesOfMinterms ms

def sitesOfAll : List Constraint → List NodeId
  | [] => []
  | c :: cs => c.sites ++ sitesOfAll cs
end

theorem sitesOfAll_eq_flatMap : ∀ cs : List Constraint, sitesOfAll cs = cs.flatMap sites
  | [] => rfl
  | _ :: cs => by simp [sitesOfAll, sitesOfAll_eq_flatMap cs]

theorem sitesOfMinterms_eq_flatMap : ∀ ms : List (Minterm Constraint),
    sitesOfMinterms ms = ms.flatMap fun m => m.constraints.flatMap sites
  | [] => rfl
  | ⟨_, _⟩ :: ms => by
    simp [sitesOfMinterms, sitesOfAll_eq_flatMap, sitesOfMinterms_eq_flatMap ms]

@[simp] theorem sites_orLocator (c : Constraint) (l : Option Locator) :
    (c.orLocator l).sites = c.sites := by
  unfold orLocator
  split
  · rename_i r
    cases r <;> simp [sites]
  · simp [sites]
  · simp [sites]
  · rfl

@[simp] theorem types_orLocator (c : Constraint) (l : Option Locator) :
    (c.orLocator l).types = c.types := by
  unfold orLocator
  split <;> simp [types]

variable {table} {R : Reading}

/-- Whether a constraint holds does not depend on where it comes from. -/
theorem HoldsIn.of_orLocator {c : Constraint} {l : Option Locator}
    (h : (c.orLocator l).HoldsIn table R) : c.HoldsIn table R := by
  unfold orLocator at h
  split at h
  · cases h with
    | relation h => exact .relation h
  · cases h with
    | overload hc href hallowed hagree hbounds => exact .overload hc href hallowed hagree hbounds
  · cases h with
    | disjunction hm hall => exact .disjunction hm hall
  · exact h

end Constraint
end TypeResolution
