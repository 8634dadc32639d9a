/-
# What opening a declaration asks for

Opening only adds variables to the store, and gives one to each generic parameter. Under any
assignment the opened signature is the signature at the types that these variables stand for, so
that the constraints to which a reference comes down when it is settled on a candidate say that
its type is that of the candidate at types that satisfy the bounds (`Search.openCandidate_spec`).

Key definitions: `Search.assigned`, `Search.Opened.Extends`.
Key theorems: `Search.openParams_spec`, `Search.openCandidate_spec`.
-/
import TypeResolution.Proofs.Holding
import TypeResolution.Proofs.Store.Moves
import TypeResolution.Search.Opening

namespace TypeResolution
namespace Search

open Store

variable {s s' : Store} {opened opened' : Opened} {names : List Name} {σ : TyVar → Ty}

/-- What the parameters stand for; those without a variable stand for themselves. -/
def assigned (σ : TyVar → Ty) (opened : Opened) (name : Name) : Ty :=
  ((opened.lookup name).map σ).getD (.param name)

theorem allowed_assigned (I : Reading) (opened : Opened) (name : Name) :
    I.allowed (assigned I.types opened name) := by
  unfold assigned
  cases opened.lookup name with
  | none => exact I.allowed_param name
  | some v => exact I.allowed_types v

/-- The variables that stand for parameters are variables of the store. -/
def Opened.HasAll (opened : Opened) (s : Store) : Prop := ∀ p ∈ opened, s.Has p.2

/-- The names have got variables of the later store, and no name has lost its variable. -/
structure Opened.Extends (s : Store) (opened : Opened) (names : List Name) (s' : Store)
    (opened' : Opened) : Prop where
  moves : Moves s s'
  hasAll : opened.HasAll s → opened'.HasAll s'
  keeps : ∀ n, (opened.lookup n).isSome = true → (opened'.lookup n).isSome = true
  names : ∀ n ∈ names, (opened'.lookup n).isSome = true

namespace Opened

theorem Extends.refl (s : Store) (opened : Opened) : Extends s opened [] s opened :=
  ⟨.refl, id, fun _ h => h, fun _ h => by cases h⟩

/-- A fresh variable for one more name. -/
theorem Extends.cons {name : Name}
    (h : Extends s.fresh.2 ((name, s.fresh.1) :: opened) names s' opened') :
    Extends s opened (name :: names) s' opened' := by
  have hlookup : ∀ n, (n = name ∨ (opened.lookup n).isSome = true) →
      (((name, s.fresh.1) :: opened).lookup n).isSome = true := by
    intro n hn
    rw [List.lookup_cons]
    by_cases heq : n = name
    · rw [beq_iff_eq.2 heq]
      rfl
    · rw [beq_eq_false_iff_ne.2 heq]
      exact hn.resolve_left heq
  refine ⟨.head .fresh h.moves, fun hall => h.hasAll fun p hp => ?_, fun n hn =>
    h.keeps n (hlookup n (.inr hn)), fun n hn => ?_⟩
  · rcases List.mem_cons.1 hp with rfl | hp
    · show s.slots.size < (s.slots.push (.root 0)).size
      simp
    · exact (hall p hp).fresh
  · rcases List.mem_cons.1 hn with rfl | hn
    · exact h.keeps n (hlookup n (.inl rfl))
    · exact h.names n hn

/-- A name that has a variable keeps it. -/
theorem Extends.skip {name : Name} (hname : (opened.lookup name).isSome = true)
    (h : Extends s opened names s' opened') : Extends s opened (name :: names) s' opened' :=
  ⟨h.moves, h.hasAll, h.keeps, List.forall_mem_cons.2 ⟨h.keeps name hname, h.names⟩⟩

end Opened

theorem extends_openEach : ∀ (names : List Name) (s : Store) (opened : Opened),
    Opened.Extends s opened names (openEach s opened names).2 (openEach s opened names).1
  | [], s, opened => .refl s opened
  | name :: names, s, opened =>
    .cons (extends_openEach names s.fresh.2 ((name, s.fresh.1) :: opened))

theorem extends_openMissing : ∀ (names : List Name) (s : Store) (opened : Opened),
    Opened.Extends s opened names (openMissing s opened names).2 (openMissing s opened names).1
  | [], s, opened => .refl s opened
  | name :: names, s, opened => by
    unfold openMissing
    cases hname : opened.lookup name with
    | some v =>
      exact (extends_openMissing names s opened).skip (by rw [hname]; rfl)
    | none => exact .cons (extends_openMissing names s.fresh.2 ((name, s.fresh.1) :: opened))

/-! ### Opened types -/

/-- A type at variables is the type at what these stand for. -/
theorem instantiate_opened (t : Ty) :
    (t.instantiate (opened.map fun (name, v) => (name, .var v))).mapVars σ =
      t.subst σ (assigned σ opened) := by
  refine (Ty.subst_subst _ _ _ _ t).trans (Ty.subst_congr (fun v _ => rfl) fun p _ => ?_)
  show (((opened.map fun q => (q.1, Ty.var q.2)).lookup p).getD (.param p)).mapVars σ = _
  rw [Table.lookup_map_snd, assigned]
  cases opened.lookup p <;> rfl

theorem covers_instantiate_opened (hall : opened.HasAll s) {t : Ty} (ht : s.Covers t) :
    s.Covers (t.instantiate (opened.map fun (name, v) => (name, .var v))) := by
  intro w hw
  rcases Ty.mem_vars_subst.1 hw with ⟨v, hv, hw⟩ | ⟨p, -, hw⟩
  · rw [Ty.vars_var, List.mem_singleton] at hw
    exact hw ▸ ht v hv
  · replace hw : w ∈ (((opened.map fun q => (q.1, Ty.var q.2)).lookup p).getD (.param p)).vars := hw
    rw [Table.lookup_map_snd] at hw
    cases hlookup : opened.lookup p with
    | none =>
      rw [hlookup] at hw
      simp at hw
    | some v =>
      rw [hlookup] at hw
      replace hw : w ∈ (Ty.var v).vars := hw
      rw [Ty.vars_var, List.mem_singleton] at hw
      exact hw ▸ hall _ (Table.mem_of_lookup_eq_some hlookup)

/-- An opened type is the type at what the variables of its parameters stand for. -/
theorem openParams_spec (hall : opened.HasAll s) {t : Ty} (ht : s.Covers t) :
    Opened.Extends s opened t.params (openParams s opened t).2.2 (openParams s opened t).2.1 ∧
      (openParams s opened t).2.2.Covers (openParams s opened t).1 ∧
      ∀ σ, (openParams s opened t).1.mapVars σ =
        t.subst σ (assigned σ (openParams s opened t).2.1) := by
  have hextends := extends_openMissing t.params s opened
  exact ⟨hextends, covers_instantiate_opened (hextends.hasAll hall) (hextends.moves.covers ht),
    fun σ => instantiate_opened t⟩

/-! ### Opened declarations -/

variable {type : Ty} {c : Candidate}

/-- **A reference that is settled on a candidate** has the type of the candidate at types that
satisfy the bounds, if the constraints that are left hold. -/
theorem openCandidate_spec (table : Table) (htype : s.Covers type) (hc : s.Covers c.type)
    (name : Name) (l : Option Locator) :
    Moves s (openCandidate s type name c l).store ∧
      (∀ d ∈ (openCandidate s type name c l).constraints, d.sites = [] ∧
        ∀ t ∈ d.types, (openCandidate s type name c l).store.Covers t) ∧
      ∀ I : Reading, (∀ d ∈ (openCandidate s type name c l).constraints, d.HoldsIn table I) →
        ∃ θ, (∀ p, I.allowed (θ p)) ∧ agree (type.mapVars I.types) (c.type.subst I.types θ) = true ∧
          c.BoundsHold table θ := by
  have heach := extends_openEach (c.generics.map (·.name)) s []
  have hall := heach.hasAll fun p hp => by cases hp
  obtain ⟨hextends, hcovers, hopened⟩ := openParams_spec hall (heach.moves.covers hc)
  have hmoves : Moves s _ := heach.moves.trans hextends.moves
  have hall' := hextends.hasAll hall
  unfold openCandidate
  dsimp only
  generalize openEach s [] (c.generics.map (·.name)) = p at *
  generalize openParams p.2 p.1 c.type = q at *
  refine ⟨hmoves, List.forall_mem_cons.2 ⟨⟨rfl, fun t ht => ?_⟩, fun d hd => ?_⟩,
    fun I hholds => ?_⟩
  · rcases List.mem_cons.1 ht with rfl | ht
    · exact hmoves.covers htype
    · rw [List.mem_singleton.1 ht]
      exact hcovers
  · obtain ⟨g, -, hd⟩ := List.mem_filterMap.1 hd
    obtain ⟨v, hv, rfl⟩ := Option.map_eq_some_iff.1 hd
    refine ⟨rfl, fun t ht => ?_⟩
    rw [List.mem_singleton.1 ht]
    exact covers_var.2 (hall' _ (Table.mem_of_lookup_eq_some hv))
  · obtain ⟨hequal, hbounds⟩ := List.forall_mem_cons.1 hholds
    refine ⟨assigned I.types q.2.1, allowed_assigned I q.2.1, ?_, fun g hg trait htrait => ?_⟩
    · cases hequal with
      | relation h =>
        replace h : agree (type.mapVars I.types) (q.1.mapVars I.types) = true := h
        rw [hopened] at h
        exact h
    · obtain ⟨v, hv⟩ := Option.isSome_iff_exists.1
        (hextends.keeps g.name (heach.names g.name (List.mem_map.2 ⟨g, hg, rfl⟩)))
      have hbounded : g ∈ c.generics.filter fun g => !g.bounds.isEmpty := by
        refine List.mem_filter.2 ⟨hg, ?_⟩
        rw [Bool.not_eq_true', List.isEmpty_eq_false_iff]
        exact List.ne_nil_of_mem htrait
      have hconforms := hbounds (.relation (.conformance (.var v) (.ofList g.bounds)) l)
        (List.mem_filterMap.2 ⟨g, hbounded, by rw [hv]; rfl⟩)
      have hassigned : assigned I.types q.2.1 g.name = I.types v := by
        rw [assigned, hv]
        rfl
      rw [hassigned]
      cases hconforms with
      | relation h => exact h trait (TraitSet.mem_ofList.2 htrait)

end Search
end TypeResolution
