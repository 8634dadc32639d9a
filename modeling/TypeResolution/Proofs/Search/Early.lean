/-
# Early answers

A search asks the table about a type as soon as the type is no variable, though its arguments may
still be unknown. It need not wait for them: what the table answers about the type it answers about
each of its instances, if no declared type has variables. What literals default to may have some
(`Table.Closed.ground`), since none of these questions depends on it.

So a rule that is decided at one store is decided at every later one, and the same way
(`Search.simplify_early`). Which rules are decided and what they refuse is said by the meanings of
the types alone (`Relation.Decided`, `Relation.Refused`); of two types that are compared, it depends
on their outermost shapes and on the declared supertypes (`Table.Clashes`). An equality is not among
these rules: it is not decided but made true, by binding variables.

Key definitions: `Table.Closed`, `Table.Clashes`, `Relation.Decided`,
`Relation.Refused`, `Search.Verdict`.
Key theorems: `Table.findSupertype_eq_none_iff`, `Search.verdict_simplify`,
`Search.simplify_early`, `Search.answers_early`.
-/
import TypeResolution.Proofs.Search.Simplification
import TypeResolution.Proofs.Store.History
import TypeResolution.Search.Lookup
import TypeResolution.Proofs.Table.Conformance
import TypeResolution.Proofs.Table.Growth
import TypeResolution.Proofs.Table.Nearest

open Relation (TransGen)

namespace TypeResolution

variable {table : Table} {a b : Ty} {σ : TyVar → Ty} {r : Relation} {f f' : Ty → Ty}

/-! ### Declared types without variables -/

namespace Table

/-- No type of a declaration has variables; what literals default to may have some. -/
structure Closed (t : Table) : Prop where
  supertypes : ∀ d ∈ t.types, ∀ sup ∈ d.supertypes, sup.vars = []
  members : ∀ d ∈ t.types, ∀ m ∈ d.members, m.2.type.vars = []
  requirements : ∀ d ∈ t.traits, ∀ r ∈ d.requirements, r.2.type.vars = []

/-- Without defaults the table is ground. -/
theorem Closed.ground (h : table.Closed) :
    ({ table with literalDefaults := [] } : Table).Ground :=
  ⟨h.supertypes, h.members, h.requirements, nofun⟩

theorem conforms_literalDefaults (defaults : List (LiteralKind × Ty)) :
    ({ table with literalDefaults := defaults } : Table).conforms = table.conforms := by
  unfold conforms
  rw [conformances_unread]

theorem isExpressible_literalDefaults (defaults : List (LiteralKind × Ty)) :
    ({ table with literalDefaults := defaults } : Table).isExpressible = table.isExpressible := by
  unfold isExpressible
  rw [conforms_literalDefaults]

namespace Closed

variable (hclosed : table.Closed) (hnominal : table.Nominal) (h : a.isVar = false)
include hclosed h

theorem supertypes_mapVars :
    table.supertypes (a.mapVars σ) = (table.supertypes a).map (Ty.mapVars σ) := by
  have hsupertypes := Table.supertypes_mapVars σ hclosed.ground h
  exact hsupertypes

include hnominal

theorem conforms_mapVars (trait : Name) :
    table.conforms (a.mapVars σ) trait = table.conforms a trait := by
  rw [← conforms_literalDefaults []]
  exact Table.conforms_mapVars σ hclosed.ground hnominal h trait

theorem isExpressible_mapVars (kind : LiteralKind) :
    table.isExpressible (a.mapVars σ) kind = table.isExpressible a kind := by
  rw [← isExpressible_literalDefaults []]
  exact Table.isExpressible_mapVars σ hclosed.ground hnominal h kind

theorem members_mapVars (member : Name) :
    table.members (a.mapVars σ) member = (table.members a member).map (Candidate.mapVars σ) := by
  rw [← members_unread table.names []]
  exact Table.members_mapVars σ hclosed.ground hnominal h member

end Closed
end Table

/-- An instance of a type that is no variable is the error type only if the type is. -/
theorem Ty.mapVars_eq_error_iff (h : a.isVar = false) : a.mapVars σ = .error ↔ a = .error := by
  cases a with
  | var v => cases h
  | _ => simp [mapVars, subst]

/-! ### Types that clash -/

/-- Enough is known of the types to compare them. -/
def Ty.Comparable (a b : Ty) : Prop :=
  a = b ∨ a = .error ∨ b = .error ∨ a.isVar = false ∧ b.isVar = false

namespace Ty.Comparable

theorem symm (h : a.Comparable b) : b.Comparable a := by
  rcases h with heq | heq | heq | hvars
  · exact .inl heq.symm
  · exact .inr (.inr (.inl heq))
  · exact .inr (.inl heq)
  · exact .inr (.inr (.inr hvars.symm))

theorem mapVars (h : a.Comparable b) : (a.mapVars σ).Comparable (b.mapVars σ) := by
  rcases h with rfl | rfl | rfl | hvars
  · exact .inl rfl
  · exact .inr (.inl rfl)
  · exact .inr (.inr (.inl rfl))
  · exact .inr (.inr (.inr ⟨isVar_mapVars hvars.1, isVar_mapVars hvars.2⟩))

/-- A variable compares with itself and with the error type only. -/
theorem eq_of_var {v : TyVar} (h : (Ty.var v).Comparable b) : b = .var v ∨ b = .error := by
  rcases h with heq | heq | heq | hvars
  · exact .inl heq.symm
  · cases heq
  · exact .inr heq
  · cases hvars.1

end Ty.Comparable

namespace Table

/-- The outermost parts of the types do not go together: they are not of one shape, no rule looks at
the types in another way, and if both are nominal, the second is not declared above the first. -/
def Clashes (t : Table) (a b : Ty) : Prop :=
  ¬ (a.shape = b.shape ∧ a.children.length = b.children.length) ∧
    match a.shape, b.shape with
    | .error, _ | _, .error | .literal _, _ | _, .existential _ => False
    | .nominal n, .nominal m => ¬ TransGen t.Parent n m
    | _, _ => True

/-- Equal types do not clash, and the error type goes with every type. -/
theorem not_clashes (h : a = b ∨ a = .error ∨ b = .error) : ¬ table.Clashes a b := by
  rintro ⟨hne, hmatch⟩
  rcases h with rfl | rfl | rfl
  · exact hne ⟨rfl, rfl⟩
  · exact hmatch
  · revert hmatch
    cases a <;> exact id

/-- Instances of types that compare clash if these do. -/
theorem clashes_mapVars (h : a.Comparable b) :
    table.Clashes (a.mapVars σ) (b.mapVars σ) ↔ table.Clashes a b := by
  rcases h with rfl | rfl | rfl | ⟨ha, hb⟩
  · exact iff_of_false (not_clashes (.inl rfl)) (not_clashes (.inl rfl))
  · exact iff_of_false (not_clashes (.inr (.inl rfl))) (not_clashes (.inr (.inl rfl)))
  · exact iff_of_false (not_clashes (.inr (.inr rfl))) (not_clashes (.inr (.inr rfl)))
  · unfold Clashes
    rw [Ty.shape_mapVars ha, Ty.shape_mapVars hb, Ty.children_mapVars ha, Ty.children_mapVars hb,
      List.length_map, List.length_map]

/-- Different types clash unless there is a rule for them. -/
theorem clashes_of_ne (hne : a ≠ b) (hea : a ≠ .error) (heb : b ≠ .error)
    (hliteral : ∀ kind, a ≠ .literal kind) (hexistential : ∀ traits, b ≠ .existential traits)
    (hfunction : ∀ ps r qs u, a = .function ps r → b ≠ .function qs u)
    (htuple : ∀ as bs, a = .tuple as → b ≠ .tuple bs)
    (hnominal : ∀ n as m bs, a = .nominal n as → b ≠ .nominal m bs) : table.Clashes a b := by
  constructor
  · rintro ⟨hshape, hlength⟩
    cases a with
    | nominal n as =>
      cases b with
      | nominal m bs => exact hnominal n as m bs rfl rfl
      | _ => cases hshape
    | function ps r =>
      cases b with
      | function qs u => exact hfunction ps r qs u rfl rfl
      | _ => cases hshape
    | tuple as =>
      cases b with
      | tuple bs => exact htuple as bs rfl rfl
      | _ => cases hshape
    | _ => exact hne (Ty.eq_of_children hshape (List.length_eq_zero_iff.1 hlength.symm).symm)
  · cases a with
    | error => exact hea rfl
    | literal kind => exact (hliteral kind rfl).elim
    | nominal n as =>
      cases b with
      | error => exact heb rfl
      | existential traits => exact hexistential traits rfl
      | nominal m bs => exact absurd rfl (hnominal n as m bs rfl)
      | _ => trivial
    | _ =>
      cases b with
      | error => exact heb rfl
      | existential traits => exact hexistential traits rfl
      | _ => trivial

/-- What is above a name is above every type of the name. -/
theorem exists_above {n m : Name} (h : TransGen table.Parent n m) (args : List Ty) :
    ∃ bs, table.Above (.nominal n args) (.nominal m bs) := by
  induction h with
  | single hparent =>
    obtain ⟨bs, hsup⟩ := exists_mem_supertypes hparent args
    exact ⟨bs, .single hsup⟩
  | tail _ hparent ih =>
    obtain ⟨bs, habove⟩ := ih
    obtain ⟨cs, hsup⟩ := exists_mem_supertypes hparent bs
    exact ⟨cs, habove.tail hsup⟩

/-- **Whether a supertype is found** is said by the names. -/
theorem findSupertype_eq_none_iff (hbuilt : table.Built) {n m : Name} {args : List Ty} :
    table.findSupertype (.nominal n args) m = none ↔ ¬ TransGen table.Parent n m := by
  constructor
  · intro hnone hway
    obtain ⟨bs, habove⟩ := exists_above hway args
    obtain ⟨sup, hsup⟩ := exists_findSupertype hbuilt.nominal hbuilt.acyclic habove
      (beq_self_eq_true m)
    rw [hnone] at hsup
    cases hsup
  · intro hno
    by_contra hne
    obtain ⟨sup, hsup⟩ := Option.ne_none_iff_exists'.1 hne
    obtain ⟨habove, hhead⟩ := above_of_findSupertype hsup
    obtain ⟨head, bs, rfl, hway⟩ := habove.exists_nominal hbuilt.nominal
    exact hno (beq_iff_eq.1 hhead ▸ hway)

end Table

/-! ### What is decided -/

namespace Relation

/-- Enough is known of the meanings of the types to say more about the relation. -/
def Decided (meaning : Ty → Ty) : Relation → Prop
  | .equality .. => False
  | .subtyping a b | .returnBinding a b => (meaning a).Comparable (meaning b)
  | .conformance a _ | .conversion a _ | .valueMember a _ _ _ => (meaning a).isVar = false
  | .size _ => True

/-- The declarations rule the relation out for the meanings of its types. -/
def Refused (table : Table) (meaning : Ty → Ty) : Relation → Prop
  | .equality .. | .size _ => False
  | .subtyping a b | .returnBinding a b => table.Clashes (meaning a) (meaning b)
  | .conformance a traits => ∃ trait ∈ traits.names, table.conforms (meaning a) trait = false
  | .conversion a kind => meaning a ≠ .error ∧ table.isExpressible (meaning a) kind = false
  | .valueMember base member _ _ =>
    match meaning base with
    | .error => False
    | .tuple elements => table.element? elements member = none
    | type => table.members type member = []

/-- What is decided stays so when types become instances of what they were. -/
theorem Decided.instance (h : r.Decided f)
    (hf : ∀ t ∈ r.decisive, f' t = (f t).mapVars σ) : r.Decided f' := by
  cases r with
  | equality a b => exact h
  | size predicate => trivial
  | subtyping a b =>
    rw [Decided, hf a List.mem_cons_self, hf b (List.mem_cons_of_mem _ List.mem_cons_self)]
    exact Ty.Comparable.mapVars h
  | returnBinding a b =>
    rw [Decided, hf a List.mem_cons_self, hf b (List.mem_cons_of_mem _ List.mem_cons_self)]
    exact Ty.Comparable.mapVars h
  | _ =>
    show (f' _).isVar = false
    rw [hf _ List.mem_cons_self]
    exact Ty.isVar_mapVars h

/-- The declarations refuse an instance of what is decided exactly if they refuse what it is an
instance of. -/
theorem refused_instance (hbuilt : table.Built) (hclosed : table.Closed) (h : r.Decided f)
    (hf : ∀ t ∈ r.decisive, f' t = (f t).mapVars σ) : r.Refused table f' ↔ r.Refused table f := by
  cases r with
  | equality a b => exact h.elim
  | size predicate => exact Iff.rfl
  | subtyping a b =>
    rw [Refused, hf a List.mem_cons_self, hf b (List.mem_cons_of_mem _ List.mem_cons_self)]
    exact Table.clashes_mapVars h
  | returnBinding a b =>
    rw [Refused, hf a List.mem_cons_self, hf b (List.mem_cons_of_mem _ List.mem_cons_self)]
    exact Table.clashes_mapVars h
  | conformance a traits =>
    unfold Refused
    dsimp only
    rw [hf a List.mem_cons_self]
    simp only [hclosed.conforms_mapVars hbuilt.nominal h]
  | conversion a kind =>
    unfold Refused
    dsimp only
    rw [hf a List.mem_cons_self, Ne, Ty.mapVars_eq_error_iff h,
      hclosed.isExpressible_mapVars hbuilt.nominal h]
  | valueMember base member type site =>
    have hvar : (f base).isVar = false := h
    unfold Refused
    dsimp only
    rw [hf base List.mem_cons_self]
    have hmembers := hclosed.members_mapVars hbuilt.nominal hvar member (σ := σ)
    generalize f base = t at hvar hmembers
    cases t with
    | var v => cases hvar
    | error => exact Iff.rfl
    | tuple elements =>
      rw [Ty.mapVars_tuple]
      dsimp only
      rw [Search.element?_map, Option.map_eq_none_iff]
    | _ =>
      show table.members _ member = [] ↔ table.members _ member = []
      rw [hmembers, List.map_eq_nil_iff]

end Relation

namespace Search

open Store

variable {s s' : Store} {l l' : Option Locator} {fit : Fit} {type base : Ty}

/-! ### The rules -/

/-- What comes of a relation is said by the meanings of its types. -/
inductive Verdict (table : Table) (meaning : Ty → Ty) (r : Relation) : Simplified → Prop where
  | undecided {watch : List TyVar} : ¬ r.Decided meaning →
    Verdict table meaning r (.undecided watch)
  | violated {e : TypeError} : r.Decided meaning → r.Refused table meaning →
    Verdict table meaning r (.violated e)
  | discharged {children : List Constraint} {entry : Option Entry} : r.Decided meaning →
    ¬ r.Refused table meaning → Verdict table meaning r (.discharged children entry)

namespace Verdict

variable {result : Simplified}

theorem undecided_iff (h : Verdict table f r result) :
    (∃ watch, result = .undecided watch) ↔ ¬ r.Decided f := by
  cases h with
  | undecided hno => exact iff_of_true ⟨_, rfl⟩ hno
  | violated hyes _ => exact iff_of_false nofun (not_not_intro hyes)
  | discharged hyes _ => exact iff_of_false nofun (not_not_intro hyes)

theorem violated_iff (h : Verdict table f r result) :
    (∃ e, result = .violated e) ↔ r.Decided f ∧ r.Refused table f := by
  cases h with
  | undecided hno => exact iff_of_false nofun fun h => hno h.1
  | violated hyes hrefused => exact iff_of_true ⟨_, rfl⟩ ⟨hyes, hrefused⟩
  | discharged _ hallowed => exact iff_of_false nofun fun h => hallowed h.2

end Verdict

/-- A type that is looked up keeps its meaning. It becomes a variable only if that is what it means,
and else an instance of it is what it means. -/
theorem exists_shallow (hs : s.WellFormed) (ht : s.Covers type) : ∃ known s₁,
    s.shallow type = (known, s₁) ∧ Tidies s s₁ ∧ s₁.Covers known ∧
      s₁.apply known = s.apply type ∧ (∀ v, known = .var v → s.apply type = .var v) ∧
      ∃ σ, s.apply type = known.mapVars σ := by
  have htidy := tidies_shallow hs ht
  have hcovers := covers_shallow hs ht
  have hmeans := apply_shallow hs ht
  refine ⟨(s.shallow type).1, (s.shallow type).2, rfl, htidy, htidy.moves.covers hcovers,
    (htidy.apply_eq hs hcovers).trans hmeans, fun v hv => ?_, fun v => s.apply (.var v), ?_⟩
  · obtain ⟨k, hk⟩ := root_of_shallow hs ht hv
    rw [← hmeans, hv, hs.apply_root hk]
  · rw [← hmeans, hs.apply_eq_mapVars hcovers]

/-- An instance of a type that is no variable is none. -/
theorem isVar_of_instance {known meaning : Ty} (h : meaning = known.mapVars σ)
    (hknown : ∀ v, known ≠ .var v) : meaning.isVar = false :=
  h ▸ Ty.isVar_mapVars (Ty.isVar_eq_false hknown)

theorem isVar_ne_false {meaning : Ty} {v : TyVar} (h : meaning = .var v) :
    meaning.isVar ≠ false := fun hvar => nomatch h ▸ hvar

/-- A variable is not compared with an instance of a type that is neither a variable nor an
error. -/
theorem not_comparable_of_instance {known meaning : Ty} {v : TyVar} (h : meaning = known.mapVars σ)
    (hknown : ∀ v, known ≠ .var v) (herror : known ≠ .error) :
    ¬ (Ty.var v).Comparable meaning := by
  intro hcomparable
  rcases hcomparable.eq_of_var with heq | heq
  · exact isVar_ne_false heq (isVar_of_instance h hknown)
  · exact herror ((Ty.mapVars_eq_error_iff (Ty.isVar_eq_false hknown)).1 (h.symm.trans heq))

theorem verdict_conformance (hs : s.WellFormed) (ht : s.Covers type) (traits : TraitSet) :
    Verdict table s.apply (.conformance type traits)
      (simplifyConformance table s type traits l).1 := by
  obtain ⟨known, s₁, hshallow, -, -, hmeans, hvar, σ, hinst⟩ := exists_shallow hs ht
  unfold simplifyConformance
  rw [hshallow]
  dsimp only
  split
  · exact .undecided (isVar_ne_false (hvar _ rfl))
  · refine .discharged (isVar_of_instance hinst nofun) ?_
    rintro ⟨trait, -, hconforms⟩
    rw [hinst] at hconforms
    cases hconforms
  · rename_i hne _
    have hdecided : (Relation.conformance type traits).Decided s.apply :=
      isVar_of_instance hinst hne
    rw [hmeans]
    split
    · rename_i trait hfind
      have hconforms := List.find?_some hfind
      rw [Bool.not_eq_true'] at hconforms
      exact .violated hdecided ⟨trait, List.mem_of_find?_eq_some hfind, hconforms⟩
    · rename_i hfind
      refine .discharged hdecided ?_
      rintro ⟨trait, htrait, hconforms⟩
      have hfound := List.find?_eq_none.1 hfind trait htrait
      rw [hconforms] at hfound
      exact hfound rfl

theorem verdict_conversion (hs : s.WellFormed) (ht : s.Covers type) (kind : LiteralKind) :
    Verdict table s.apply (.conversion type kind)
      (simplifyConversion table s type kind l).1 := by
  obtain ⟨known, s₁, hshallow, -, -, hmeans, hvar, σ, hinst⟩ := exists_shallow hs ht
  unfold simplifyConversion
  rw [hshallow]
  dsimp only
  split
  · exact .undecided (isVar_ne_false (hvar _ rfl))
  · exact .discharged (isVar_of_instance hinst nofun) fun hrefused => hrefused.1 hinst
  · rename_i hne herror
    have hdecided : (Relation.conversion type kind).Decided s.apply :=
      isVar_of_instance hinst hne
    rw [hmeans]
    split
    · rename_i hliteral
      refine .discharged hdecided fun hrefused => ?_
      have hexpressible := hrefused.2
      rw [hinst, hliteral] at hexpressible
      cases (table.isExpressible_literal kind).symm.trans hexpressible
    · split
      · rename_i hexpressible
        refine .discharged hdecided fun hrefused => ?_
        cases hexpressible.symm.trans hrefused.2
      · rename_i hexpressible
        refine .violated hdecided ⟨fun heq => herror ?_, Bool.eq_false_iff.2 hexpressible⟩
        exact (Ty.mapVars_eq_error_iff (Ty.isVar_eq_false hne)).1 (hinst.symm.trans heq)

theorem verdict_member (hs : s.WellFormed) (hb : s.Covers base) (member : Name) (site : NodeId) :
    Verdict table s.apply (.valueMember base member type site)
      (simplifyMember table s base member type site l).1 := by
  obtain ⟨known, s₁, hshallow, -, -, hmeans, hvar, σ, hinst⟩ := exists_shallow hs hb
  unfold simplifyMember
  rw [hshallow]
  dsimp only
  split
  · exact .undecided (isVar_ne_false (hvar _ rfl))
  · refine .discharged (isVar_of_instance hinst nofun) fun hrefused => ?_
    rw [Relation.Refused, hinst] at hrefused
    exact hrefused
  · rename_i elements
    have hdecided : (Relation.valueMember base member type site).Decided s.apply :=
      isVar_of_instance hinst nofun
    have hrefused : (Relation.valueMember base member type site).Refused table s.apply ↔
        table.element? elements member = none := by
      rw [Relation.Refused, hinst, Ty.mapVars_tuple]
      dsimp only
      rw [element?_map, Option.map_eq_none_iff]
    split
    · rename_i helement
      refine .discharged hdecided fun h => ?_
      cases helement.symm.trans (hrefused.1 h)
    · rename_i helement
      exact .violated hdecided (hrefused.2 helement)
  · rename_i hne herror htuple
    have hdecided : (Relation.valueMember base member type site).Decided s.apply :=
      isVar_of_instance hinst hne
    have hrefused : (Relation.valueMember base member type site).Refused table s.apply ↔
        table.members (s.apply base) member = [] := by
      rw [Relation.Refused, hinst]
      cases known with
      | var v => exact absurd rfl (hne v)
      | error => exact absurd rfl herror
      | tuple elements => exact absurd rfl (htuple elements)
      | _ => exact Iff.rfl
    rw [hmeans]
    split
    · rename_i hnil
      exact .violated hdecided (hrefused.2 hnil)
    · rename_i hmembers
      refine .discharged hdecided fun h => ?_
      cases hmembers.symm.trans (hrefused.1 h)
    · rename_i hnil _
      exact .discharged hdecided fun h => hnil (hrefused.1 h)

/-- Types of which enough is known are compared by their outermost parts. -/
theorem simplifyShapes_cases (fit : Fit) (l : Option Locator) (hbuilt : table.Built)
    (hs : s.WellFormed) (ha : s.Covers a) (hva : a.isVar = false) (hvb : b.isVar = false)
    (hne : a ≠ b) (hea : a ≠ .error) (heb : b ≠ .error) :
    (table.Clashes a b ∧ ∃ e, (simplifyShapes table s fit a b l).1 = .violated e) ∨
      ¬ table.Clashes a b ∧
        ∃ children, (simplifyShapes table s fit a b l).1 = .discharged children none := by
  unfold simplifyShapes
  dsimp only
  split
  · refine .inr ⟨fun hclash => ?_, _, rfl⟩
    have hrule := hclash.2
    cases a <;> exact hrule
  · refine .inr ⟨fun hclash => ?_, _, rfl⟩
    have hrule := hclash.2
    cases b <;> exact hrule
  · rename_i ps r qs u
    split
    · rename_i hconventions
      have hlength : ps.length = qs.length := by simpa using congrArg List.length hconventions
      refine .inr ⟨fun hclash => hclash.1 ⟨congrArg Ty.Shape.function hconventions, ?_⟩, _, rfl⟩
      simp [Ty.children, hlength]
    · rename_i hconventions
      exact .inl ⟨⟨fun hsame => hconventions (Ty.Shape.function.inj hsame.1), trivial⟩, _, rfl⟩
  · split
    · rename_i hlength
      exact .inr ⟨fun hclash => hclash.1 ⟨rfl, hlength⟩, _, rfl⟩
    · rename_i hlength
      exact .inl ⟨⟨fun hsame => hlength hsame.2, trivial⟩, _, rfl⟩
  · rename_i n as m bs
    split
    · rename_i hsame
      exact .inr ⟨fun hclash => hclash.1 ⟨congrArg Ty.Shape.nominal hsame.1, hsame.2⟩, _, rfl⟩
    · rename_i hdiffer
      have hfound : table.findSupertype
          (.nominal n (as.map fun t => t.mapVars fun v => s.apply (.var v))) m = none ↔
          ¬ TransGen table.Parent n m := Table.findSupertype_eq_none_iff hbuilt
      rw [hs.apply_eq_mapVars ha, Ty.mapVars_nominal]
      split
      · rename_i hnone
        refine .inl ⟨⟨fun hsame => hdiffer ⟨Ty.Shape.nominal.inj hsame.1, hsame.2⟩, ?_⟩, _, rfl⟩
        exact hfound.1 hnone
      · rename_i hsome
        refine .inr ⟨fun hclash => ?_, _, rfl⟩
        cases hsome.symm.trans (hfound.2 hclash.2)
  · rename_i hliteral hexistential hfunction htuple hnominal
    exact .inl ⟨Table.clashes_of_ne hne hea heb hliteral hexistential hfunction htuple hnominal, _,
      rfl⟩

/-- **Subtyping** is decided by the outermost parts of the meanings. -/
theorem verdict_subtyping (hbuilt : table.Built) (hs : s.WellFormed) (ha : s.Covers a)
    (hb : s.Covers b) (hr : r = .subtyping a b ∨ r = .returnBinding a b) :
    Verdict table s.apply r (simplifySubtyping table s fit a b l).1 := by
  obtain ⟨a', s₁, hfirst, htidy₁, hcovers₁, hmeans₁, hvar₁, σ, hinst₁⟩ := exists_shallow hs ha
  have hs₁ := htidy₁.moves.wellFormed hs
  obtain ⟨b', s₂, hsecond, htidy₂, hcovers₂, hmeans₂, hvar₂, τ, hinst₂⟩ :=
    exists_shallow hs₁ (htidy₁.moves.covers hb)
  have hs₂ := htidy₂.moves.wellFormed hs₁
  rw [htidy₁.apply_eq hs hb] at hmeans₂ hvar₂ hinst₂
  rw [← htidy₂.apply_eq hs₁ hcovers₁] at hmeans₁
  have hdecided : r.Decided s.apply ↔ (s.apply a).Comparable (s.apply b) := by
    rcases hr with rfl | rfl <;> exact Iff.rfl
  have hrefused : r.Refused table s.apply ↔ table.Clashes (s.apply a) (s.apply b) := by
    rcases hr with rfl | rfl <;> exact Iff.rfl
  unfold simplifySubtyping
  rw [hfirst]
  dsimp only
  rw [hsecond]
  dsimp only
  split
  · rename_i hsame
    have heq : s.apply a = s.apply b := by rw [← hmeans₁, ← hmeans₂, hsame]
    exact .discharged (hdecided.2 (.inl heq)) fun h => Table.not_clashes (.inl heq) (hrefused.1 h)
  · rename_i hne
    split
    · exact .discharged (hdecided.2 (.inr (.inl hinst₁))) fun h =>
        Table.not_clashes (.inr (.inl hinst₁)) (hrefused.1 h)
    · exact .discharged (hdecided.2 (.inr (.inr (.inl hinst₂)))) fun h =>
        Table.not_clashes (.inr (.inr hinst₂)) (hrefused.1 h)
    · rename_i v w
      refine .undecided fun h => ?_
      rw [hdecided, hvar₁ v rfl, hvar₂ w rfl] at h
      rcases h.eq_of_var with heq | heq
      · exact hne heq.symm
      · cases heq
    · rename_i v herror hvar
      refine .undecided fun h => ?_
      rw [hdecided, hvar₁ v rfl] at h
      exact not_comparable_of_instance hinst₂ hvar herror h
    · rename_i v herror hvar
      refine .undecided fun h => ?_
      rw [hdecided, hvar₂ v rfl] at h
      exact not_comparable_of_instance hinst₁ hvar herror h.symm
    · rename_i hea hva heb hvb _
      have hva := Ty.isVar_eq_false hva
      have hvb := Ty.isVar_eq_false hvb
      have hcomparable : a'.Comparable b' := .inr (.inr (.inr ⟨hva, hvb⟩))
      have hcovers := htidy₂.moves.covers hcovers₁
      rw [← hmeans₁, ← hmeans₂, hs₂.apply_eq_mapVars hcovers, hs₂.apply_eq_mapVars hcovers₂]
        at hdecided hrefused
      rw [Table.clashes_mapVars hcomparable] at hrefused
      have hyes := hdecided.2 hcomparable.mapVars
      rcases simplifyShapes_cases fit l hbuilt hs₂ hcovers hva hvb hne hea heb with
        ⟨hclash, e, heq⟩ | ⟨hfits, children, heq⟩
      · rw [heq]
        exact .violated hyes (hrefused.2 hclash)
      · rw [heq]
        exact .discharged hyes fun h => hfits (hrefused.1 h)

/-- **What a rule says is said by the meanings of the types.** -/
theorem verdict_simplify (hbuilt : table.Built) (hs : s.WellFormed)
    (hr : ∀ t ∈ r.decisive, s.Covers t) (hequality : ∀ a b, r ≠ .equality a b) :
    Verdict table s.apply r (simplify table s r l).1 := by
  cases r with
  | equality a b => exact absurd rfl (hequality a b)
  | subtyping a b =>
    exact verdict_subtyping hbuilt hs (hr a List.mem_cons_self)
      (hr b (List.mem_cons_of_mem _ List.mem_cons_self)) (.inl rfl)
  | returnBinding a b =>
    exact verdict_subtyping hbuilt hs (hr a List.mem_cons_self)
      (hr b (List.mem_cons_of_mem _ List.mem_cons_self)) (.inr rfl)
  | conformance a traits => exact verdict_conformance hs (hr a List.mem_cons_self) traits
  | conversion a kind => exact verdict_conversion hs (hr a List.mem_cons_self) kind
  | valueMember base member type site =>
    exact verdict_member hs (hr base List.mem_cons_self) member site
  | size predicate => exact .discharged trivial id

/-! ### Later stores -/

/-- What a type means later is an instance of what it means now. -/
theorem apply_later (hs : s.WellFormed) (hm : Moves s s') (ht : s.Covers type) :
    s'.apply type = (s.apply type).mapVars fun v => s'.apply (.var v) := by
  have hs' := hm.wellFormed hs
  rw [(hm.solved hs'.solved).apply hs ht]
  exact hs'.apply_eq_mapVars (hm.covers ht)

/-- **What is decided stays decided, and the same way.** -/
theorem simplify_early (hbuilt : table.Built) (hclosed : table.Closed) (hs : s.WellFormed)
    (hm : Moves s s') (hr : ∀ t ∈ r.decisive, s.Covers t) (hequality : ∀ a b, r ≠ .equality a b)
    (hdecided : ∀ watch, (simplify table s r l).1 ≠ .undecided watch) :
    (∀ watch, (simplify table s' r l').1 ≠ .undecided watch) ∧
      ((∃ e, (simplify table s' r l').1 = .violated e) ↔
        ∃ e, (simplify table s r l).1 = .violated e) := by
  have hearly := verdict_simplify (l := l) hbuilt hs hr hequality
  have hlate := verdict_simplify (l := l') hbuilt (hm.wellFormed hs)
    (fun t ht => hm.covers (hr t ht)) hequality
  have hmeans := fun t ht => apply_later hs hm (hr t ht)
  have hyes : r.Decided s.apply := by
    by_contra hno
    obtain ⟨watch, hwatch⟩ := hearly.undecided_iff.2 hno
    exact hdecided watch hwatch
  have hyes' := hyes.instance hmeans
  refine ⟨fun watch hwatch => hlate.undecided_iff.1 ⟨watch, hwatch⟩ hyes', ?_⟩
  rw [hlate.violated_iff, hearly.violated_iff, and_iff_right hyes, and_iff_right hyes']
  exact Relation.refused_instance hbuilt hclosed hyes hmeans

/-- **Early answers are late answers.** If no declared type has variables, then an instance of a
type that is no variable conforms to the same traits, can have the same literals written in its
place, and has the instances of the supertypes and of the members, in their order. So whatever rule
is decided while variables are unbound is decided the same way after they have been bound. -/
theorem answers_early (hbuilt : table.Built) (hclosed : table.Closed) :
    (∀ (a : Ty) (σ : TyVar → Ty), a.isVar = false →
      (∀ trait, table.conforms (a.mapVars σ) trait = table.conforms a trait) ∧
      (∀ kind, table.isExpressible (a.mapVars σ) kind = table.isExpressible a kind) ∧
      table.supertypes (a.mapVars σ) = (table.supertypes a).map (Ty.mapVars σ) ∧
      ∀ member, table.members (a.mapVars σ) member =
        (table.members a member).map (Candidate.mapVars σ)) ∧
    ∀ (s s' : Store) (r : Relation) (l l' : Option Locator), s.WellFormed → Moves s s' →
      (∀ t ∈ r.decisive, s.Covers t) → (∀ a b, r ≠ .equality a b) →
      (∀ watch, (simplify table s r l).1 ≠ .undecided watch) →
      (∀ watch, (simplify table s' r l').1 ≠ .undecided watch) ∧
        ((∃ e, (simplify table s' r l').1 = .violated e) ↔
          ∃ e, (simplify table s r l).1 = .violated e) := by
  have hnominal := hbuilt.nominal
  refine ⟨fun a σ h => ⟨hclosed.conforms_mapVars hnominal h,
    hclosed.isExpressible_mapVars hnominal h, hclosed.supertypes_mapVars h,
    hclosed.members_mapVars hnominal h⟩, ?_⟩
  intro s s' r l l' hs hm hr hequality hdecided
  exact simplify_early hbuilt hclosed hs hm hr hequality hdecided

/-- An array of what is not known yet does not conform to a trait, and does not when that is known.
Its members are those of the array with the element put in. -/
theorem answers_early_array :
    let ops : List Table.Operation :=
      [.declareTrait ⟨5⟩ [], .declareType ⟨1⟩ [⟨9⟩], .setLiteralDefault .integer (.var ⟨0⟩),
        .addMember ⟨1⟩ ⟨8⟩ (.plain ⟨1⟩ (.tuple [.param ⟨9⟩]))]
    let table := (Registry.run ops (.ofNames .empty)).2.table
    let s := Store.ofSize 1
    let s' := (s.unify (.var ⟨0⟩) .unit).store
    let array : Ty := .nominal ⟨1⟩ [.var ⟨0⟩]
    let r : Relation := .conformance array ⟨[⟨5⟩], List.pairwise_singleton _ _⟩
    table.Built ∧ table.Closed ∧ Moves s s' ∧
      table.members array ⟨8⟩ = [.plain ⟨1⟩ (.tuple [.var ⟨0⟩])] ∧
      table.members (.nominal ⟨1⟩ [.unit]) ⟨8⟩ = [.plain ⟨1⟩ (.tuple [.unit])] ∧
      (∃ e, (simplify table s r none).1 = .violated e) ∧
      ∃ e, (simplify table s' r none).1 = .violated e := by
  intro ops table s s' array r
  have hbuilt : table.Built :=
    (Registry.consistent_run ops (Registry.consistent_ofNames .empty)).built
  have hclosed : table.Closed := ⟨by decide +kernel, by decide +kernel, by decide +kernel⟩
  have hs : s.WellFormed := wellFormed_ofSize 1
  have hhas : s.Has ⟨0⟩ := Nat.zero_lt_one
  have hm : Moves s s' := moves_unify hs (covers_var.2 hhas) nofun
  have hmembers : table.members array ⟨8⟩ = [.plain ⟨1⟩ (.tuple [.var ⟨0⟩])] := by decide +kernel
  have hcovers : ∀ t ∈ r.decisive, s.Covers t :=
    List.forall_mem_singleton.2 fun v hv => List.mem_singleton.1 hv ▸ hhas
  have hdecided : r.Decided s.apply := by
    unfold Relation.Decided
    decide +kernel
  have hrefused : r.Refused table s.apply := ⟨⟨5⟩, List.mem_cons_self, by decide +kernel⟩
  have hearly := verdict_simplify (l := none) hbuilt hs hcovers nofun
  have hviolated := hearly.violated_iff.2 ⟨hdecided, hrefused⟩
  obtain ⟨hqueries, hrules⟩ := answers_early hbuilt hclosed
  obtain ⟨-, -, -, hinstance⟩ := hqueries array (fun _ => .unit) rfl
  obtain ⟨-, hlate⟩ := hrules s s' r none none hs hm hcovers nofun fun watch hwatch =>
    hearly.undecided_iff.1 ⟨watch, hwatch⟩ hdecided
  refine ⟨hbuilt, hclosed, hm, hmembers, ?_, hviolated, hlate.2 hviolated⟩
  have hunit := hinstance ⟨8⟩
  rw [hmembers] at hunit
  exact hunit

end Search
end TypeResolution
