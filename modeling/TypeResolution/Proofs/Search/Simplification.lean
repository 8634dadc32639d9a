/-
# The steps on goals

What is discharged comes down to constraints that make it hold (`Search.reduces_simplify`), and
what is put aside has been looked up only (`Search.tidies_of_undecided`).

The types in a goal are looked up and applied before the table is asked about them. Its answers
stay right when more variables become known, since they are those about all instances. A member
that only one declaration has is settled at once; several declarations are left as a choice.

Key theorems: `Search.reduces_simplifyMember`, `Search.reduces_simplify`,
`Search.tidies_of_undecided`.
-/
import TypeResolution.Proofs.Search.Fitting

namespace TypeResolution
namespace Search

open Store

variable {table : Table} {s s' : Store} {a b type base : Ty} {l l' : Option Locator}
variable {children : List Constraint} {entry : Option Entry} {r : Relation} {fit : Fit}
variable {member : Name} {site : NodeId}

/-! ### Members -/

/-- A member of a type that is no tuple is one of its declared members. -/
theorem memberHolds_of_mem {I : Reading} {c : Candidate} {θ : Name → Ty} {opened : Ty}
    (htuple : ∀ elements, base ≠ .tuple elements) (hc : c ∈ table.members base member)
    (href : I.reference? site = some c.decl) (hopens : Ty.Opens θ c.type opened)
    (hallowed : ∀ p, I.allowed (θ p)) (hagree : agree type opened = true)
    (hbounds : c.BoundsHold table θ) :
    MemberHoldsIn table I base member type site := by
  cases base with
  | error => trivial
  | tuple elements => exact absurd rfl (htuple elements)
  | _ => exact ⟨c, hc, href, θ, opened, hopens, hallowed, hagree, hbounds⟩

theorem element?_map (f : Ty → Ty) (elements : List Ty) (member : Name) :
    table.element? (elements.map f) member = (table.element? elements member).map f := by
  unfold Table.element?
  cases unsigned? (table.names.resolve member) with
  | none => rfl
  | some i => exact List.getElem?_map

theorem mem_of_element? {elements : List Ty} {element : Ty}
    (h : table.element? elements member = some element) : element ∈ elements := by
  obtain ⟨i, -, hi⟩ := Option.bind_eq_some_iff.1 h
  exact List.mem_of_getElem? hi

/-- Every member of the error type is of the error type. -/
theorem reduces_errorMember (ht : s.Covers type) :
    Reduces table s [.relation (.valueMember .error member type site) l] s
      [.relation (.equality type .error) l'] none :=
  reduces_relation .refl (forall_mem_pair ht fun v hv => by simp at hv) List.nil_subperm
    fun _ _ _ => trivial

/-- A member of a tuple is of the type of the element. -/
theorem reduces_element {elements : List Ty} {element : Ty} (hb : s.Covers (.tuple elements))
    (ht : s.Covers type) (helement : table.element? elements member = some element) :
    Reduces table s [.relation (.valueMember (.tuple elements) member type site) l] s
      [.relation (.equality element type) l'] none := by
  have hcover : s.Covers element := hb.of_mem_children (mem_of_element? helement)
  refine reduces_relation .refl (forall_mem_pair hcover ht) List.nil_subperm fun I _ hagree => ?_
  show MemberHoldsIn table I ((Ty.tuple elements).mapVars I.types) member _ site
  rw [Ty.mapVars_tuple]
  refine ⟨element.mapVars I.types, ?_, hagree⟩
  rw [element?_map, helement]
  rfl

section Rules

variable (hground : table.Ground) (hnominal : table.Nominal)
include hground

theorem covers_of_mem_members {c : Candidate} (hs : s.WellFormed) (hb : s.Covers base)
    (hc : c ∈ table.members (s.apply base) member) : s.Covers c.type := fun v hv =>
  covers_apply hs hb v (Table.mem_vars_of_mem_members hground hc hv)

include hnominal

/-- A declared member holds at some types in place of its generic parameters. -/
theorem memberHolds_of_members {I : Reading} {c : Candidate} {θ : Name → Ty}
    (hs : s.WellFormed) (hb : s.Covers base) (hvar : ∀ v, base ≠ .var v)
    (htuple : ∀ elements, base ≠ .tuple elements) (hσ : s.SolvedBy I.types)
    (hc : c ∈ table.members (s.apply base) member) (href : I.reference? site = some c.decl)
    (hallowed : ∀ p, I.allowed (θ p))
    (hagree : agree (type.mapVars I.types) (c.type.subst I.types θ) = true)
    (hbounds : c.BoundsHold table θ) :
    (Relation.valueMember base member type site).HoldsIn table I := by
  have hn := Ty.isVar_eq_false hvar
  have hmem : c.mapVars I.types ∈ table.members (base.mapVars I.types) member := by
    rw [← hσ.apply hs hb, Table.members_mapVars I.types hground hnominal (isVar_apply hs hb hn)]
    exact List.mem_map.2 ⟨c, hc, rfl⟩
  have htuple' : ∀ elements, base.mapVars I.types ≠ .tuple elements := by
    intro elements
    cases base with
    | var v => exact absurd rfl (hvar v)
    | tuple elements => exact absurd rfl (htuple elements)
    | _ => exact fun heq => by cases heq
  exact memberHolds_of_mem htuple' hmem href ⟨c.type, I.types, rfl, rfl⟩ hallowed hagree
    hbounds

/-- Several declared members are left as a choice. -/
theorem reduces_members (hs : s.WellFormed) (hb : s.Covers base) (ht : s.Covers type)
    (hvar : ∀ v, base ≠ .var v) (htuple : ∀ elements, base ≠ .tuple elements) :
    Reduces table s [.relation (.valueMember base member type site) l] s
      [.overload ⟨type, member, site, table.members (s.apply base) member⟩ l'] none := by
  refine ⟨.refl, fun d hd t htype => ?_, List.Subperm.refl _, fun I hσ _ hall d hd => ?_⟩
  · rw [List.mem_singleton.1 hd] at htype
    rcases List.mem_cons.1 htype with rfl | htype
    · exact ht
    · obtain ⟨c, hmem, rfl⟩ := List.mem_map.1 htype
      exact covers_of_mem_members hground hs hb hmem
  · rw [List.mem_singleton.1 hd]
    cases hall _ List.mem_cons_self with
    | overload hmem href hallowed hagree hbounds =>
      exact .relation (memberHolds_of_members hground hnominal hs hb hvar htuple hσ hmem href
        hallowed hagree hbounds)

/-- **A member** is looked up in the table, and comes down to the declaration that is found, or
to a choice of several. -/
theorem reduces_simplifyMember (hs : s.WellFormed) (hb : s.Covers base) (ht : s.Covers type)
    (h : simplifyMember table s base member type site l = (.discharged children entry, s')) :
    Reduces table s [.relation (.valueMember base member type site) l] s' children entry := by
  have htidy := tidies_shallow hs hb
  have hc := htidy.moves.covers (covers_shallow hs hb)
  have hs₁ := htidy.moves.wellFormed hs
  have ht₁ := htidy.moves.covers ht
  have hlooked : Reduces table s [.relation (.valueMember base member type site) l]
      (s.shallow base).2 [.relation (.valueMember (s.shallow base).1 member type site) l] none := by
    refine reduces_shallow (fun u => .valueMember u member type site) hs hb
      (fun u => forall_mem_pair (.inl rfl) (.inr ht)) (fun _ => rfl) fun I u hu hholds => ?_
    show MemberHoldsIn table I (base.mapVars I.types) member _ site
    rw [← hu]
    exact hholds
  refine hlooked.trans ?_
  unfold simplifyMember at h
  dsimp only at h
  generalize s.shallow base = p at hc hs₁ ht₁ h
  obtain ⟨known, s₁⟩ := p
  dsimp only at *
  split at h
  · cases (Prod.mk.inj h).1
  · obtain ⟨rfl, rfl, rfl⟩ := discharged_inj h
    exact reduces_errorMember ht₁
  · split at h
    · rename_i helement
      obtain ⟨rfl, rfl, rfl⟩ := discharged_inj h
      exact reduces_element hc ht₁ helement
    · cases (Prod.mk.inj h).1
  · rename_i hvar herror htuple
    split at h
    · cases (Prod.mk.inj h).1
    · rename_i c hmembers
      have hmem : c ∈ table.members (s₁.apply known) member := by
        rw [hmembers]
        exact List.mem_cons_self
      obtain ⟨rfl, rfl, rfl⟩ := discharged_inj h
      exact reduces_opened ht₁ (covers_of_mem_members hground hs₁ hc hmem) rfl
        fun I θ hσ href hallowed hagree hbounds => .relation (memberHolds_of_members hground
          hnominal hs₁ hc hvar htuple hσ hmem href hallowed hagree hbounds)
    · obtain ⟨rfl, rfl, rfl⟩ := discharged_inj h
      exact reduces_members hground hnominal hs₁ hc ht₁ hvar htuple

/-! ### The other rules -/

/-- **Conformance** is asked of the table. -/
theorem reduces_simplifyConformance {traits : TraitSet} (hs : s.WellFormed) (ht : s.Covers type)
    (h : simplifyConformance table s type traits l = (.discharged children entry, s')) :
    Reduces table s [.relation (.conformance type traits) l] s' children entry := by
  have htidy := tidies_shallow hs ht
  have hc := htidy.moves.covers (covers_shallow hs ht)
  have hs₁ := htidy.moves.wellFormed hs
  have hlooked : Reduces table s [.relation (.conformance type traits) l] (s.shallow type).2
      [.relation (.conformance (s.shallow type).1 traits) l] none := by
    refine reduces_shallow (fun u => .conformance u traits) hs ht
      (fun u x hx => .inl (List.mem_singleton.1 hx)) (fun _ => rfl) fun I u hu hholds => ?_
    show ∀ trait ∈ traits.names, table.conforms (type.mapVars I.types) trait = true
    rw [← hu]
    exact hholds
  refine hlooked.trans ?_
  unfold simplifyConformance at h
  dsimp only at h
  generalize s.shallow type = p at hc hs₁ h
  obtain ⟨known, s₁⟩ := p
  dsimp only at *
  split at h
  · cases (Prod.mk.inj h).1
  · obtain ⟨rfl, rfl, rfl⟩ := discharged_inj h
    exact reduces_settled .refl rfl fun I _ _ trait _ => rfl
  · rename_i hvar herror
    split at h
    · cases (Prod.mk.inj h).1
    · rename_i hnone
      obtain ⟨rfl, rfl, rfl⟩ := discharged_inj h
      refine reduces_settled .refl rfl fun I hσ _ trait htrait => ?_
      have hconforms := List.find?_eq_none.1 hnone trait htrait
      rw [Bool.not_eq_true, Bool.not_eq_false'] at hconforms
      have hn := isVar_apply hs₁ hc (Ty.isVar_eq_false hvar)
      rw [← hσ.apply hs₁ hc, Table.conforms_mapVars I.types hground hnominal hn]
      exact hconforms

/-- **Conversion** is asked of the table. -/
theorem reduces_simplifyConversion {kind : LiteralKind} (hs : s.WellFormed) (ht : s.Covers type)
    (h : simplifyConversion table s type kind l = (.discharged children entry, s')) :
    Reduces table s [.relation (.conversion type kind) l] s' children entry := by
  have htidy := tidies_shallow hs ht
  have hc := htidy.moves.covers (covers_shallow hs ht)
  have hs₁ := htidy.moves.wellFormed hs
  have hlooked : Reduces table s [.relation (.conversion type kind) l] (s.shallow type).2
      [.relation (.conversion (s.shallow type).1 kind) l] none := by
    refine reduces_shallow (fun u => .conversion u kind) hs ht
      (fun u x hx => .inl (List.mem_singleton.1 hx)) (fun _ => rfl) fun I u hu hholds => ?_
    show type.mapVars I.types = .error ∨ table.isExpressible (type.mapVars I.types) kind = true
    rw [← hu]
    exact hholds
  refine hlooked.trans ?_
  unfold simplifyConversion at h
  dsimp only at h
  generalize s.shallow type = p at hc hs₁ h
  obtain ⟨known, s₁⟩ := p
  dsimp only at *
  split at h
  · cases (Prod.mk.inj h).1
  · obtain ⟨rfl, rfl, rfl⟩ := discharged_inj h
    exact reduces_settled .refl rfl fun I _ _ => .inl rfl
  · rename_i hvar herror
    split at h
    · rename_i heq
      obtain ⟨rfl, rfl, rfl⟩ := discharged_inj h
      refine reduces_settled .refl rfl fun I _ _ => .inr ?_
      rw [heq]
      exact table.isExpressible_literal kind
    · split at h
      · rename_i hexpressible
        obtain ⟨rfl, rfl, rfl⟩ := discharged_inj h
        refine reduces_settled .refl rfl fun I hσ _ => .inr ?_
        have hn := isVar_apply hs₁ hc (Ty.isVar_eq_false hvar)
        rw [← hσ.apply hs₁ hc, Table.isExpressible_mapVars I.types hground hnominal hn]
        exact hexpressible
      · cases (Prod.mk.inj h).1

omit hground hnominal in
/-- Equality is unification. -/
theorem reduces_equality (hs : s.WellFormed) (ha : s.Covers a) (hb : s.Covers b)
    (h : s.unify a b = .done s') :
    Reduces table s [.relation (.equality a b) l] s' [] none := by
  have hmoves := moves_unify hs ha hb
  rw [h] at hmoves
  exact reduces_settled hmoves rfl fun I hσ _ => agree_of_unify hs ha hb h hσ

/-- **A relation that is discharged** comes down to constraints that make it hold. -/
theorem reduces_simplify (hs : s.WellFormed) (hr : ∀ t ∈ r.types, s.Covers t)
    (h : simplify table s r l = (.discharged children entry, s')) :
    Reduces table s [.relation r l] s' children entry := by
  cases r with
  | equality a b =>
    have ha := hr a List.mem_cons_self
    have hb := hr b (List.mem_cons_of_mem _ List.mem_cons_self)
    unfold simplify at h
    dsimp only at h
    rcases hunify : s.unify a b with ⟨s₁, _ | e⟩
    · rw [hunify] at h
      obtain ⟨rfl, rfl, rfl⟩ := discharged_inj h
      exact reduces_equality hs ha hb hunify
    · rw [hunify] at h
      cases (Prod.mk.inj h).1
  | subtyping a b =>
    replace h : simplifySubtyping table s .subtype a b l = (.discharged children entry, s') := h
    exact reduces_simplifySubtyping hground hs (hr a List.mem_cons_self)
      (hr b (List.mem_cons_of_mem _ List.mem_cons_self)) h
  | returnBinding a b =>
    replace h : simplifySubtyping table s .returned a b l = (.discharged children entry, s') := h
    exact reduces_simplifySubtyping hground hs (hr a List.mem_cons_self)
      (hr b (List.mem_cons_of_mem _ List.mem_cons_self)) h
  | conformance type traits =>
    exact reduces_simplifyConformance hground hnominal hs (hr type List.mem_cons_self) h
  | conversion type literal =>
    exact reduces_simplifyConversion hground hnominal hs (hr type List.mem_cons_self) h
  | valueMember base member type site =>
    exact reduces_simplifyMember hground hnominal hs (hr base List.mem_cons_self)
      (hr type (List.mem_cons_of_mem _ List.mem_cons_self)) h
  | size predicate =>
    obtain ⟨rfl, rfl, rfl⟩ := discharged_inj h
    exact reduces_settled .refl rfl fun I _ hrecords => hrecords

end Rules

/-! ### Goals that are put aside -/

theorem not_undecided_simplifyShapes {watch : List TyVar} :
    (simplifyShapes table s fit a b l).1 ≠ .undecided watch := by
  unfold simplifyShapes
  dsimp only
  intro h
  split at h
  · cases h
  · cases h
  · split at h <;> cases h
  · split at h <;> cases h
  · split at h
    · cases h
    · split at h <;> cases h
  · cases h

theorem tidies_of_undecided_subtyping {watch : List TyVar} (hs : s.WellFormed) (ha : s.Covers a)
    (hb : s.Covers b) (h : simplifySubtyping table s fit a b l = (.undecided watch, s')) :
    Tidies s s' := by
  have htidy := tidies_tops hs ha hb
  unfold simplifySubtyping at h
  dsimp only at h
  split at h
  · cases (Prod.mk.inj h).1
  · split at h
    · cases (Prod.mk.inj h).1
    · cases (Prod.mk.inj h).1
    · rw [← (Prod.mk.inj h).2]
      exact htidy
    · rw [← (Prod.mk.inj h).2]
      exact htidy
    · rw [← (Prod.mk.inj h).2]
      exact htidy
    · exact absurd (congrArg Prod.fst h) not_undecided_simplifyShapes

/-- Putting a goal aside has looked up its types only. -/
theorem tidies_of_undecided {watch : List TyVar} (hs : s.WellFormed)
    (hr : ∀ t ∈ r.types, s.Covers t) (h : simplify table s r l = (.undecided watch, s')) :
    Tidies s s' := by
  cases r with
  | equality a b =>
    unfold simplify at h
    dsimp only at h
    split at h <;> cases (Prod.mk.inj h).1
  | subtyping a b =>
    replace h : simplifySubtyping table s .subtype a b l = (.undecided watch, s') := h
    exact tidies_of_undecided_subtyping hs (hr a List.mem_cons_self)
      (hr b (List.mem_cons_of_mem _ List.mem_cons_self)) h
  | returnBinding a b =>
    replace h : simplifySubtyping table s .returned a b l = (.undecided watch, s') := h
    exact tidies_of_undecided_subtyping hs (hr a List.mem_cons_self)
      (hr b (List.mem_cons_of_mem _ List.mem_cons_self)) h
  | conformance type traits =>
    have htidy := tidies_shallow hs (hr type List.mem_cons_self)
    replace h : simplifyConformance table s type traits l = (.undecided watch, s') := h
    unfold simplifyConformance at h
    dsimp only at h
    split at h
    · rw [← (Prod.mk.inj h).2]
      exact htidy
    · cases (Prod.mk.inj h).1
    · split at h <;> cases (Prod.mk.inj h).1
  | conversion type literal =>
    have htidy := tidies_shallow hs (hr type List.mem_cons_self)
    replace h : simplifyConversion table s type literal l = (.undecided watch, s') := h
    unfold simplifyConversion at h
    dsimp only at h
    split at h
    · rw [← (Prod.mk.inj h).2]
      exact htidy
    · cases (Prod.mk.inj h).1
    · split at h
      · cases (Prod.mk.inj h).1
      · split at h <;> cases (Prod.mk.inj h).1
  | valueMember base member type site =>
    have htidy := tidies_shallow hs (hr base List.mem_cons_self)
    replace h : simplifyMember table s base member type site l = (.undecided watch, s') := h
    unfold simplifyMember at h
    dsimp only at h
    split at h
    · rw [← (Prod.mk.inj h).2]
      exact htidy
    · cases (Prod.mk.inj h).1
    · split at h <;> cases (Prod.mk.inj h).1
    · split at h <;> cases (Prod.mk.inj h).1
  | size predicate => cases (Prod.mk.inj h).1

end Search
end TypeResolution
