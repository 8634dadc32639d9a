/-
# The rules of subtyping

What the rules for types that are to fit make of a goal. Functions and tuples come down to their
parts, literals to conversions, and existentials to conformances. A nominal type comes down to
the equality of its arguments with those of a type of the same name, or of one of its
supertypes with the other type.

The supertypes of a type are asked for when its variables may still be unbound. Those of its
meaning are instances of them.

Key theorems: `Search.reduces_function`, `Search.reduces_supertype`,
`Search.reduces_simplifySubtyping`.
-/
import TypeResolution.Proofs.Search.Reduction

namespace TypeResolution
namespace Search

open Store

variable {table : Table} {s s' : Store} {a b t : Ty} {l : Option Locator} {fit : Fit}
variable {children : List Constraint} {entry : Option Entry}

/-! ### Meanings -/

theorem holds_fitting {I : Reading} (h : (fitting fit a b).HoldsIn table I) :
    table.SubtypeIn I.allowed (a.mapVars I.types) (b.mapVars I.types) := by
  cases fit <;> exact h

theorem holds_of_subtype {I : Reading}
    (h : table.SubtypeIn I.allowed (a.mapVars I.types) (b.mapVars I.types)) :
    (fitting fit a b).HoldsIn table I := by
  cases fit <;> exact h

theorem types_fitting : (fitting fit a b).types = [a, b] := by cases fit <;> rfl

theorem sites_fitting : (Constraint.relation (fitting fit a b) l).sites = [] := by
  cases fit <;> rfl

theorem mem_pairwise {α : Type} {step : Nat → PathStep} {relate : α → α → Relation} {as bs : List α}
    {c : Constraint} (h : c ∈ pairwise l step relate as bs) :
    ∃ p ∈ as.zip bs, ∃ l', c = .relation (relate p.1 p.2) l' := by
  obtain ⟨i, hi, rfl⟩ := List.mem_mapIdx.1 h
  exact ⟨_, List.getElem_mem hi, _, rfl⟩

theorem holds_of_pairwise {α : Type} {step : Nat → PathStep} {relate : α → α → Relation}
    {as bs : List α} {I : Reading}
    (h : ∀ c ∈ pairwise l step relate as bs, c.HoldsIn table I) :
    ∀ p ∈ as.zip bs, (relate p.1 p.2).HoldsIn table I := by
  intro p hp
  obtain ⟨i, hi, rfl⟩ := List.mem_iff_getElem.1 hp
  cases h _ (List.mem_mapIdx.2 ⟨i, hi, rfl⟩) with
  | relation h => exact h

theorem subtype_function {allowed : Ty → Prop} {σ : TyVar → Ty} {ps qs : List Parameter} {u v : Ty}
    (hconventions : ps.map (·.1) = qs.map (·.1))
    (honeWay : ∀ p ∈ ps.zip qs, p.1.1.isOneWay = true →
      table.SubtypeIn allowed (p.2.2.mapVars σ) (p.1.2.mapVars σ))
    (hboth : ∀ p ∈ ps.zip qs, p.1.1.isOneWay = false →
      agree (p.1.2.mapVars σ) (p.2.2.mapVars σ) = true)
    (hresult : table.SubtypeIn allowed (u.mapVars σ) (v.mapVars σ)) :
    table.SubtypeIn allowed ((Ty.function ps u).mapVars σ) ((Ty.function qs v).mapVars σ) := by
  rw [Ty.mapVars_function, Ty.mapVars_function]
  refine .function ?_ ?_ ?_ hresult
  · rw [List.map_map, List.map_map]
    exact hconventions
  · rw [List.zip_map]
    intro p hp
    obtain ⟨q, hq, rfl⟩ := List.mem_map.1 hp
    exact honeWay q hq
  · rw [List.zip_map]
    intro p hp
    obtain ⟨q, hq, rfl⟩ := List.mem_map.1 hp
    exact hboth q hq

theorem subtype_tuple {allowed : Ty → Prop} {σ : TyVar → Ty} {as bs : List Ty}
    (hlength : as.length = bs.length)
    (h : ∀ p ∈ as.zip bs, table.SubtypeIn allowed (p.1.mapVars σ) (p.2.mapVars σ)) :
    table.SubtypeIn allowed ((Ty.tuple as).mapVars σ) ((Ty.tuple bs).mapVars σ) := by
  rw [Ty.mapVars_tuple, Ty.mapVars_tuple]
  refine .tuple (by rw [List.length_map, List.length_map, hlength]) ?_
  rw [List.zip_map]
  intro p hp
  obtain ⟨q, hq, rfl⟩ := List.mem_map.1 hp
  exact h q hq

theorem agree_nominal {σ : TyVar → Ty} {n : Name} {as bs : List Ty}
    (hlength : as.length = bs.length)
    (h : ∀ p ∈ as.zip bs, agree (p.1.mapVars σ) (p.2.mapVars σ) = true) :
    agree ((Ty.nominal n as).mapVars σ) ((Ty.nominal n bs).mapVars σ) = true := by
  rw [Ty.mapVars_nominal, Ty.mapVars_nominal]
  refine agree_of_children rfl ?_ ?_
  · show (as.map _).length = (bs.map _).length
    rw [List.length_map, List.length_map, hlength]
  · show ∀ p ∈ (as.map _).zip (bs.map _), _
    rw [List.zip_map]
    intro p hp
    obtain ⟨q, hq, rfl⟩ := List.mem_map.1 hp
    exact h q hq

/-! ### Rules -/

/-- To subtyping the goal comes down that its children make hold. -/
theorem Reduces.of_subtype (hm : Moves s s') (hcovers : CoversAll s' children)
    (hsites : ∀ d ∈ children, d.sites = [])
    (hsound : ∀ I : Reading, s'.SolvedBy I.types → (∀ d ∈ children, d.HoldsIn table I) →
      table.SubtypeIn I.allowed (a.mapVars I.types) (b.mapVars I.types)) :
    Reduces table s [.relation (fitting fit a b) l] s' children none :=
  .of_no_sites hm hcovers hsites fun I hσ h => .relation (holds_of_subtype (hsound I hσ h))

/-- A type that is to be below an existential conforms to its traits. -/
theorem reduces_existential (ha : s.Covers a) (traits : TraitSet) :
    Reduces table s [.relation (fitting fit a (.existential traits)) l] s
      [.relation (.conformance a traits) l] none := by
  refine reduces_relation .refl (fun t ht => ?_) List.nil_subperm fun I _ h => ?_
  · rw [List.mem_singleton.1 ht]
    exact ha
  · exact holds_of_subtype (.existential h)

/-- A type expresses a literal, or is the error type. -/
theorem subtype_literal {I : Reading} {kind : LiteralKind}
    (h : (Relation.conversion b kind).HoldsIn table I) :
    table.SubtypeIn I.allowed (.literal kind) (b.mapVars I.types) := by
  rcases h with herror | hexpressible
  · rw [herror]
    exact .agree (agree_error_right _)
  · exact .literal hexpressible

/-- A literal is below the types that it can be written as. -/
theorem reduces_literal (hb : s.Covers b) (kind : LiteralKind) :
    Reduces table s [.relation (fitting fit (.literal kind) b) l] s
      [.relation (.conversion b kind) l] none := by
  refine reduces_relation .refl (fun t ht => ?_) List.nil_subperm fun I _ h => ?_
  · rw [List.mem_singleton.1 ht]
    exact hb
  · exact holds_of_subtype (subtype_literal h)

theorem types_parameterRelation {p q : Parameter} (ht : t ∈ (parameterRelation p q).types) :
    t = p.2 ∨ t = q.2 := by
  unfold parameterRelation at ht
  split at ht
  · exact forall_mem_pair (P := fun t => t = p.2 ∨ t = q.2) (.inr rfl) (.inl rfl) t ht
  · exact forall_mem_pair (P := fun t => t = p.2 ∨ t = q.2) (.inl rfl) (.inr rfl) t ht

theorem sites_parameterRelation {p q : Parameter} :
    (Constraint.relation (parameterRelation p q) l).sites = [] := by
  unfold parameterRelation
  split <;> rfl

/-- Functions are compared parameter by parameter, and then their results. -/
theorem reduces_function {ps qs : List Parameter} {u v : Ty} (ha : s.Covers (.function ps u))
    (hb : s.Covers (.function qs v)) (hconventions : ps.map (·.1) = qs.map (·.1)) :
    Reduces table s [.relation (fitting fit (.function ps u) (.function qs v)) l] s
      (pairwise l .argument parameterRelation ps qs ++
        [.relation (fitting fit u v) (extended l .result)]) none := by
  have hparam : ∀ {rs : List Parameter} {w : Ty} {p : Parameter}, s.Covers (.function rs w) →
      p ∈ rs → s.Covers p.2 := fun h hp =>
    h.of_mem_children (List.mem_append_left _ (List.mem_map.2 ⟨_, hp, rfl⟩))
  have hresult : ∀ {rs : List Parameter} {w : Ty}, s.Covers (.function rs w) → s.Covers w :=
    fun h => h.of_mem_children (List.mem_append_right _ (List.mem_singleton.2 rfl))
  refine .of_subtype .refl (coversAll_append (fun c hc t ht => ?_)
    (coversAll_relation fun t ht => ?_)) (fun d hd => ?_) fun I hσ hall => ?_
  · obtain ⟨p, hp, l', rfl⟩ := mem_pairwise hc
    obtain ⟨hp₁, hp₂⟩ := List.of_mem_zip hp
    rcases types_parameterRelation ht with rfl | rfl
    · exact hparam ha hp₁
    · exact hparam hb hp₂
  · rw [types_fitting] at ht
    exact forall_mem_pair (hresult ha) (hresult hb) t ht
  · rcases List.mem_append.1 hd with hd | hd
    · obtain ⟨p, -, l', rfl⟩ := mem_pairwise hd
      exact sites_parameterRelation
    · rw [List.mem_singleton.1 hd]
      exact sites_fitting
  · obtain ⟨hpairs, hlast⟩ := List.forall_mem_append.1 hall
    have hparams := holds_of_pairwise hpairs
    refine subtype_function hconventions (fun p hp hway => ?_) (fun p hp hway => ?_) ?_
    · have hholds := hparams p hp
      unfold parameterRelation at hholds
      rw [if_pos hway] at hholds
      exact hholds
    · have hholds := hparams p hp
      unfold parameterRelation at hholds
      rw [if_neg (by rw [hway]; simp)] at hholds
      exact hholds
    · cases hlast _ List.mem_cons_self with
      | relation h => exact holds_fitting h

/-- Tuples are compared element by element. -/
theorem reduces_tuple {as bs : List Ty} (ha : s.Covers (.tuple as)) (hb : s.Covers (.tuple bs))
    (hlength : as.length = bs.length) :
    Reduces table s [.relation (fitting fit (.tuple as) (.tuple bs)) l] s
      (pairwise l .element (fitting fit) as bs) none := by
  refine .of_subtype .refl (fun c hc t ht => ?_) (fun d hd => ?_) fun I hσ hall =>
    subtype_tuple hlength fun p hp => holds_fitting (holds_of_pairwise hall p hp)
  · obtain ⟨p, hp, l', rfl⟩ := mem_pairwise hc
    obtain ⟨hp₁, hp₂⟩ := List.of_mem_zip hp
    replace ht : t ∈ (fitting fit p.1 p.2).types := ht
    rw [types_fitting] at ht
    exact forall_mem_pair (ha.of_mem_children hp₁) (hb.of_mem_children hp₂) t ht
  · obtain ⟨p, -, l', rfl⟩ := mem_pairwise hd
    exact sites_fitting

/-- Nominal types of one name have equal arguments. -/
theorem reduces_arguments {n : Name} {as bs : List Ty} (ha : s.Covers (.nominal n as))
    (hb : s.Covers (.nominal n bs)) (hlength : as.length = bs.length) :
    Reduces table s [.relation (fitting fit (.nominal n as) (.nominal n bs)) l] s
      (pairwise l .generic .equality as bs) none := by
  refine .of_subtype .refl (fun c hc t ht => ?_) (fun d hd => ?_) fun I hσ hall =>
    .agree (agree_nominal hlength fun p hp => holds_of_pairwise hall p hp)
  · obtain ⟨p, hp, l', rfl⟩ := mem_pairwise hc
    obtain ⟨hp₁, hp₂⟩ := List.of_mem_zip hp
    exact forall_mem_pair (ha.of_mem_children hp₁) (hb.of_mem_children hp₂) t ht
  · obtain ⟨p, -, l', rfl⟩ := mem_pairwise hd
    rfl

section Rules

variable (hground : table.Ground)
include hground

/-- A nominal type has a supertype of the other name that is equal to the other type. -/
theorem reduces_supertype {n m : Name} {as bs : List Ty} {sup : Ty} (hs : s.WellFormed)
    (ha : s.Covers (.nominal n as)) (hb : s.Covers (.nominal m bs))
    (hsup : table.findSupertype (s.apply (.nominal n as)) m = some sup) :
    Reduces table s [.relation (fitting fit (.nominal n as) (.nominal m bs)) l]
      (openParams s [] sup).2.2
      [.relation (.equality (openParams s [] sup).1 (.nominal m bs)) l] none := by
  obtain ⟨habove, hhead⟩ := Table.above_of_findSupertype hsup
  have hsupcovers : s.Covers sup := fun v hv =>
    covers_apply hs ha v (habove.mem_vars hground hv)
  have hnone : Opened.HasAll [] s := fun p hp => by cases hp
  obtain ⟨hextends, hcovers, hopened⟩ := openParams_spec hnone hsupcovers
  refine reduces_relation hextends.moves (forall_mem_pair hcovers (hextends.moves.covers hb))
    List.nil_subperm fun I hσ hagree => holds_of_subtype ?_
  have habove' := habove.mapVars I.types hground
  have hhead' : Table.hasHead m (sup.mapVars I.types) = true := by
    cases sup with
    | nominal name args => exact hhead
    | _ => cases hhead
  replace hagree : agree ((openParams s [] sup).1.mapVars I.types)
      ((Ty.nominal m bs).mapVars I.types) = true := hagree
  rw [(hextends.moves.solved hσ).apply hs ha] at habove'
  rw [Ty.mapVars_nominal] at habove' hagree ⊢
  rw [Ty.mapVars_nominal]
  exact .nominal habove' hhead' ⟨sup, I.types, rfl, hopened I.types⟩ (allowed_assigned I _) hagree

/-- Types that are not variables are compared rule by rule. -/
theorem reduces_simplifyShapes (hs : s.WellFormed) (ha : s.Covers a) (hb : s.Covers b)
    (h : simplifyShapes table s fit a b l = (.discharged children entry, s')) :
    entry = none ∧ Reduces table s [.relation (fitting fit a b) l] s' children none := by
  unfold simplifyShapes at h
  dsimp only at h
  split at h
  · obtain ⟨rfl, rfl, rfl⟩ := discharged_inj h
    exact ⟨rfl, reduces_existential ha _⟩
  · obtain ⟨rfl, rfl, rfl⟩ := discharged_inj h
    exact ⟨rfl, reduces_literal hb _⟩
  · split at h
    · rename_i hconventions
      obtain ⟨rfl, rfl, rfl⟩ := discharged_inj h
      exact ⟨rfl, reduces_function ha hb hconventions⟩
    · cases (Prod.mk.inj h).1
  · split at h
    · rename_i hlength
      obtain ⟨rfl, rfl, rfl⟩ := discharged_inj h
      exact ⟨rfl, reduces_tuple ha hb hlength⟩
    · cases (Prod.mk.inj h).1
  · split at h
    · rename_i heq
      obtain ⟨rfl, hlength⟩ := heq
      obtain ⟨rfl, rfl, rfl⟩ := discharged_inj h
      exact ⟨rfl, reduces_arguments ha hb hlength⟩
    · split at h
      · cases (Prod.mk.inj h).1
      · rename_i sup hsup
        obtain ⟨rfl, rfl, rfl⟩ := discharged_inj h
        exact ⟨rfl, reduces_supertype hground hs ha hb hsup⟩
  · cases (Prod.mk.inj h).1

omit hground in
/-- The types of a subtyping can be looked up first. -/
theorem reduces_tops {a' b' : Ty} (hs : s.WellFormed) (ha : s.Covers a) (hb : s.Covers b)
    (htops : s.tops a b = ((a', b'), s')) :
    Reduces table s [.relation (fitting fit a b) l] s' [.relation (fitting fit a' b') l] none := by
  obtain ⟨htidy, hca, hcb, rfl, rfl⟩ := tops_spec hs ha hb htops
  refine reduces_relation htidy.moves ?_ ?_ fun I hσ h => holds_of_subtype ?_
  · rw [types_fitting]
    exact forall_mem_pair hca hcb
  · rw [sites_fitting]
    exact List.nil_subperm
  · have hσs := htidy.moves.solved hσ
    rw [← hσs.shallow hs ha, ← hσs.shallow hs hb]
    exact holds_fitting h

omit hground in
theorem reduces_agreeing (h : ∀ σ, agree (a.mapVars σ) (b.mapVars σ) = true) :
    Reduces table s [.relation (fitting fit a b) l] s [] none :=
  reduces_settled .refl rfl fun I _ _ => holds_of_subtype (.agree (h I.types))

omit hground in
/-- Subtyping is discharged by the shapes of the tops of the types, if these do not agree in any
case. -/
theorem discharged_simplifySubtyping {a' b' : Ty} {s₁ : Store}
    (htops : s.tops a b = ((a', b'), s₁))
    (h : simplifySubtyping table s fit a b l = (.discharged children entry, s')) :
    (children = [] ∧ entry = none ∧ s' = s₁ ∧ ∀ σ, agree (a'.mapVars σ) (b'.mapVars σ) = true) ∨
      simplifyShapes table s₁ fit a' b' l = (.discharged children entry, s') := by
  have hs₁ : ((s.shallow a).2.shallow b).2 = s₁ := congrArg (·.2) htops
  have hb' : ((s.shallow a).2.shallow b).1 = b' := congrArg (·.1.2) htops
  have ha' : (s.shallow a).1 = a' := congrArg (·.1.1) htops
  unfold simplifySubtyping at h
  dsimp only at h
  rw [hs₁, hb', ha'] at h
  split at h
  · rename_i heq
    obtain ⟨rfl, rfl, rfl⟩ := discharged_inj h
    exact .inl ⟨rfl, rfl, rfl, fun σ => agree_of_eq (by rw [heq])⟩
  · split at h
    · obtain ⟨rfl, rfl, rfl⟩ := discharged_inj h
      exact .inl ⟨rfl, rfl, rfl, fun σ => agree_error_left _⟩
    · obtain ⟨rfl, rfl, rfl⟩ := discharged_inj h
      exact .inl ⟨rfl, rfl, rfl, fun σ => agree_error_right _⟩
    · cases (Prod.mk.inj h).1
    · cases (Prod.mk.inj h).1
    · cases (Prod.mk.inj h).1
    · exact .inr h

/-- **Subtyping** comes down to constraints that make it hold. -/
theorem reduces_simplifySubtyping (hs : s.WellFormed) (ha : s.Covers a) (hb : s.Covers b)
    (h : simplifySubtyping table s fit a b l = (.discharged children entry, s')) :
    Reduces table s [.relation (fitting fit a b) l] s' children entry := by
  rcases htops : s.tops a b with ⟨⟨a', b'⟩, s₁⟩
  obtain ⟨htidy, hca, hcb, -, -⟩ := tops_spec hs ha hb htops
  refine (reduces_tops hs ha hb htops).trans ?_
  obtain ⟨rfl, rfl, rfl, hagree⟩ | h := discharged_simplifySubtyping htops h
  · exact reduces_agreeing hagree
  · obtain ⟨rfl, hreduces⟩ := reduces_simplifyShapes hground (htidy.moves.wellFormed hs) hca hcb h
    exact hreduces

end Rules

end Search
end TypeResolution
