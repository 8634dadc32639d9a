/-
# What a step makes of a constraint

A step replaces constraints by others, moves the store, and may record something
(`Search.Reduces`). It is sound if the new constraints, and what was recorded, make the old
ones hold under each interpretation that solves the store after the step. Such steps can be
made one after the other (`Search.Reduces.trans`).

Most steps on a goal start with looking up one of its types (`Search.reduces_shallow`). Some
leave nothing (`Search.reduces_settled`), and some settle a reference on a declaration
(`Search.reduces_opened`).

Key definitions: `Search.Records`, `Search.CoversAll`, `Search.Reduces`.
Key theorems: `Search.Reduces.trans`, `Search.reduces_settled`, `Search.reduces_shallow`,
`Search.reduces_opened`.
-/
import TypeResolution.Proofs.Search.Opening
import TypeResolution.Proofs.Store.Assignments
import TypeResolution.Search.Simplify

namespace TypeResolution
namespace Search

open Store

/-- The sites of what is recorded. -/
def Entry.sites : Entry → List NodeId
  | .choice site _ _ => [site]
  | _ => []

/-- The interpretation has what was recorded. -/
def Records (I : Reading) : Option Entry → Prop
  | some (.choice site c _) => I.reference? site = some c.decl
  | some (.predicate p) => p ∈ I.predicates
  | _ => True

/-- The types of the constraints have variables of the store only. -/
def CoversAll (s : Store) (cs : List Constraint) : Prop := ∀ c ∈ cs, ∀ t ∈ c.types, s.Covers t

/-- Old constraints come down to new ones. -/
structure Reduces (table : Table) (s : Store) (olds : List Constraint) (s' : Store)
    (news : List Constraint) (entry : Option Entry) : Prop where
  moves : Moves s s'
  covers : CoversAll s' news
  sites : (entry.toList.flatMap Entry.sites ++ news.flatMap Constraint.sites).Subperm
    (olds.flatMap Constraint.sites)
  sound : ∀ I : Reading, s'.SolvedBy I.types → Records I entry →
    (∀ c ∈ news, c.HoldsIn table I) → ∀ c ∈ olds, c.HoldsIn table I

variable {table : Table} {s s' : Store} {a b t type : Ty} {l : Option Locator}
variable {children : List Constraint} {entry : Option Entry} {r : Relation}

theorem coversAll_nil : CoversAll s [] := fun _ h => by cases h

theorem CoversAll.moves {cs : List Constraint} (h : CoversAll s cs) (hm : Moves s s') :
    CoversAll s' cs := fun c hc t ht => hm.covers (h c hc t ht)

theorem coversAll_append {cs ds : List Constraint} (hcs : CoversAll s cs) (hds : CoversAll s ds) :
    CoversAll s (cs ++ ds) := fun c hc => (List.mem_append.1 hc).elim (hcs c) (hds c)

theorem coversAll_relation (h : ∀ t ∈ r.types, s.Covers t) : CoversAll s [.relation r l] := by
  intro c hc t ht
  rw [List.mem_singleton.1 hc] at ht
  exact h t ht

theorem forall_mem_pair {P : Ty → Prop} (ha : P a) (hb : P b) : ∀ t ∈ [a, b], P t := by
  intro t ht
  rcases List.mem_cons.1 ht with rfl | ht
  · exact ha
  · rw [List.mem_singleton.1 ht]
    exact hb

/-- Putting a goal aside, with the store tidied up. -/
theorem Reduces.keep {c : Constraint} (hm : Moves s s') (hc : CoversAll s [c]) :
    Reduces table s [c] s' [c] none :=
  ⟨hm, hc.moves hm, List.Subperm.refl _, fun _ _ _ h => h⟩

/-- Steps one after the other make one step. -/
theorem Reduces.trans {s'' : Store} {olds mids news : List Constraint}
    (h : Reduces table s olds s' mids none) (h' : Reduces table s' mids s'' news entry) :
    Reduces table s olds s'' news entry :=
  ⟨h.moves.trans h'.moves, h'.covers, h'.sites.trans h.sites, fun I hσ hrecords hnews =>
    h.sound I (h'.moves.solved hσ) trivial (h'.sound I hσ hrecords hnews)⟩

/-- A step without references on either side. -/
theorem Reduces.of_no_sites {c : Constraint} (hm : Moves s s') (hcovers : CoversAll s' children)
    (hsites : ∀ d ∈ children, d.sites = [])
    (hsound : ∀ I : Reading, s'.SolvedBy I.types → (∀ d ∈ children, d.HoldsIn table I) →
      c.HoldsIn table I) : Reduces table s [c] s' children none := by
  refine ⟨hm, hcovers, ?_, fun I hσ _ h d hd => ?_⟩
  · have hnil : children.flatMap Constraint.sites = [] := List.flatMap_eq_nil_iff.2 hsites
    rw [hnil]
    exact List.nil_subperm
  · rw [List.mem_singleton.1 hd]
    exact hsound I hσ h

theorem covers_apply (hs : s.WellFormed) (ht : s.Covers t) : s.Covers (s.apply t) := by
  intro w hw
  obtain ⟨k, hk⟩ := hs.unbound_of_mem_vars_apply ht hw
  exact has_of_slot? hk

theorem isVar_apply (hs : s.WellFormed) (ht : s.Covers t) (hn : t.isVar = false) :
    (s.apply t).isVar = false := by
  rw [hs.apply_eq_mapVars ht]
  exact Ty.isVar_mapVars hn

/-! ### Steps of one kind -/

theorem discharged_inj {children' : List Constraint} {entry' : Option Entry}
    (h : (Simplified.discharged children entry, s) = (.discharged children' entry', s')) :
    children = children' ∧ entry = entry' ∧ s = s' := by
  obtain ⟨hsimp, hstore⟩ := Prod.mk.inj h
  obtain ⟨hchildren, hentry⟩ := Simplified.discharged.inj hsimp
  exact ⟨hchildren, hentry, hstore⟩

/-- Nothing is left of a relation that holds under every interpretation. -/
theorem reduces_settled (hm : Moves s s') (hentry : entry.toList.flatMap Entry.sites = [])
    (h : ∀ I : Reading, s'.SolvedBy I.types → Records I entry → r.HoldsIn table I) :
    Reduces table s [.relation r l] s' [] entry := by
  refine ⟨hm, coversAll_nil, ?_, fun I hσ hrecords _ d hd => ?_⟩
  · rw [hentry]
    exact List.nil_subperm
  · rw [List.mem_singleton.1 hd]
    exact .relation (h I hσ hrecords)

/-- A relation comes down to another one. -/
theorem reduces_relation {r' : Relation} {l' : Option Locator} (hm : Moves s s')
    (htypes : ∀ t ∈ r'.types, s'.Covers t)
    (hsites : (Constraint.relation r' l').sites.Subperm (Constraint.relation r l).sites)
    (h : ∀ I : Reading, s'.SolvedBy I.types → r'.HoldsIn table I → r.HoldsIn table I) :
    Reduces table s [.relation r l] s' [.relation r' l'] none := by
  refine ⟨hm, coversAll_relation htypes, ?_, fun I hσ _ hall d hd => ?_⟩
  · rw [List.flatMap_singleton, List.flatMap_singleton]
    exact hsites
  · rw [List.mem_singleton.1 hd]
    cases hall _ List.mem_cons_self with
    | relation hholds => exact .relation (h I hσ hholds)

/-- A type in a goal can be looked up first, if the goal is about its meaning. -/
theorem reduces_shallow (goal : Ty → Relation) (hs : s.WellFormed) (ht : s.Covers t)
    (htypes : ∀ u, ∀ x ∈ (goal u).types, x = u ∨ s.Covers x)
    (hsites : ∀ u, (Constraint.relation (goal u) l).sites =
      (Constraint.relation (goal t) l).sites)
    (hgoal : ∀ (I : Reading) (u : Ty), u.mapVars I.types = t.mapVars I.types →
      (goal u).HoldsIn table I → (goal t).HoldsIn table I) :
    Reduces table s [.relation (goal t) l] (s.shallow t).2
      [.relation (goal (s.shallow t).1) l] none := by
  have htidy := tidies_shallow hs ht
  refine reduces_relation htidy.moves (fun x hx => ?_) (hsites _ ▸ List.Subperm.refl _)
    fun I hσ => hgoal I _ ((htidy.moves.solved hσ).shallow hs ht)
  rcases htypes _ x hx with rfl | hx
  · exact htidy.moves.covers (covers_shallow hs ht)
  · exact htidy.moves.covers hx

/-- A constraint with one reference is settled on a candidate. -/
theorem reduces_opened {old : Constraint} {c : Candidate} {site : NodeId} {name : Name}
    (htype : s.Covers type) (hc : s.Covers c.type) (hsites : old.sites = [site])
    (hsound : ∀ (I : Reading) (θ : Name → Ty), s.SolvedBy I.types →
      I.reference? site = some c.decl → (∀ p, I.allowed (θ p)) →
      agree (type.mapVars I.types) (c.type.subst I.types θ) = true → c.BoundsHold table θ →
      old.HoldsIn table I) :
    Reduces table s [old] (openCandidate s type name c l).store
      (openCandidate s type name c l).constraints
      (some (.choice site (openCandidate s type name c l).choice c.isGeneric)) := by
  obtain ⟨hopen, hconstraints, hopened⟩ := openCandidate_spec table htype hc name l
  refine ⟨hopen, fun d hd => (hconstraints d hd).2, ?_, fun I hσ href hall d hd => ?_⟩
  · rw [List.flatMap_eq_nil_iff.2 fun d hd => (hconstraints d hd).1, List.flatMap_singleton,
      hsites]
    exact List.Subperm.refl _
  · obtain ⟨θ, hallowed, hagree, hbounds⟩ := hopened I hall
    rw [List.mem_singleton.1 hd]
    exact hsound I θ (hopen.solved hσ) href hallowed hagree hbounds

end Search
end TypeResolution
