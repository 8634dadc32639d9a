/-
# The turns of a path

What a path does next is sound in the same way as a step on a goal. Entering an alternative of a
choice brings in what makes the choice hold (`Search.reduces_enter`). A goal that is taken up
stands for those that it was taken from (`Search.reduces_turn`): it is one of them, or it is
assumed when nothing else is left to do, in place of a subtyping, or of nothing.

Key definitions: `Search.Recorded`.
Key theorems: `Search.reduces_enter`, `Search.mem_pending_of_simplify`, `Search.reduces_turn`,
`Search.of_complete`.
-/
import TypeResolution.Proofs.Search.Fitting
import TypeResolution.Proofs.Search.Pending

namespace TypeResolution
namespace Search

open Store

variable {table : Table} {s : Store} {a b type : Ty} {l : Option Locator}
variable {children : List Constraint} {entry : Option Entry} {r : Relation}
variable {w w' rest : Work} {point : BranchPoint}

/-! ### Alternatives -/

/-- The work has recorded the entry. -/
structure Recorded (w : Work) (entry : Option Entry) (w' : Work) : Prop where
  choices : w'.choices = (entry.elim w w.record).choices
  predicates : w'.predicates = (entry.elim w w.record).predicates

theorem recorded_discharge (w : Work) (children : List Constraint) (entry : Option Entry) :
    Recorded w entry (w.discharge children entry) := by
  cases entry with
  | none => exact ⟨Work.choices_pushAll _ _, Work.predicates_pushAll _ _⟩
  | some e =>
    cases e <;> exact ⟨Work.choices_pushAll _ _, Work.predicates_pushAll _ _⟩

theorem mem_listed_of_mem_alternatives {o : Offer} {i : Nat} {x : Alternative}
    (h : o.alternatives[i]? = some x) : x ∈ o.listed :=
  o.alternatives_perm.mem_iff.1 (List.mem_of_getElem? h)

/-- An overload is settled on one of its candidates. -/
theorem reduces_candidate {o : Overload} {c : Candidate} {l' : Option Locator}
    (hc : c ∈ o.candidates) (hcovers : CoversAll s [.overload o l]) :
    Reduces table s [.overload o l] (openCandidate s o.type o.name c l').store
      (openCandidate s o.type o.name c l').constraints
      (some (.choice o.site (openCandidate s o.type o.name c l').choice c.isGeneric)) := by
  have htypes : ∀ t ∈ o.type :: o.candidates.map (·.type), s.Covers t :=
    hcovers _ List.mem_cons_self
  have hctype : s.Covers c.type :=
    htypes _ (List.mem_cons_of_mem _ (List.mem_map.2 ⟨c, hc, rfl⟩))
  exact reduces_opened (htypes _ List.mem_cons_self) hctype rfl
    fun I θ _ href hallowed hagree hbounds => .overload hc href hallowed hagree hbounds

/-- A disjunction comes down to the constraints of one of its minterms. -/
theorem reduces_minterm {ms : List (Minterm Constraint)} {m : Minterm Constraint}
    {l' : Option Locator} (hm : m ∈ ms) (hcovers : CoversAll s [.disjunction ms l]) :
    Reduces table s [.disjunction ms l] s (m.constraints.map (·.orLocator l')) none := by
  refine ⟨.refl, fun d hd t ht => ?_, ?_, fun I hσ _ hall d hd => ?_⟩
  · obtain ⟨c, hc, rfl⟩ := List.mem_map.1 hd
    rw [Constraint.types_orLocator] at ht
    refine hcovers _ List.mem_cons_self t ?_
    show t ∈ Constraint.typesOfMinterms ms
    rw [Constraint.typesOfMinterms_eq_flatMap]
    exact List.mem_flatMap.2 ⟨m, hm, List.mem_flatMap.2 ⟨c, hc, ht⟩⟩
  · have hsites : (m.constraints.map (·.orLocator l')).flatMap Constraint.sites =
        m.constraints.flatMap Constraint.sites := by
      simp only [List.flatMap_map, Constraint.sites_orLocator]
    show (([] : List NodeId) ++ _).Subperm (Constraint.sitesOfMinterms ms ++ [])
    rw [hsites, Constraint.sitesOfMinterms_eq_flatMap, List.append_nil, List.nil_append]
    have hsublist : (m.constraints.flatMap Constraint.sites).Sublist
        (ms.map fun m => m.constraints.flatMap Constraint.sites).flatten :=
      List.sublist_flatten_of_mem (List.mem_map.2 ⟨m, hm, rfl⟩)
    exact hsublist.subperm
  · rw [List.mem_singleton.1 hd]
    exact .disjunction hm fun c hc => (hall _ (List.mem_map.2 ⟨c, hc, rfl⟩)).of_orLocator

/-- **A choice** comes down to what entering one of its alternatives brings in. -/
theorem reduces_enter {x : Alternative} {i : Nat} (hc : CoversAll s [point.constraint])
    (hx : point.offer.alternatives[i]? = some x) (w : Work) :
    ∃ news entry, (x.enter point.locator w s).1.pending.Perm (news ++ w.pending) ∧
      Recorded w entry (x.enter point.locator w s).1 ∧
      Reduces table s [point.constraint] (x.enter point.locator w s).2 news entry := by
  have hlisted := mem_listed_of_mem_alternatives hx
  obtain ⟨ordinal, offer, l⟩ := point
  cases offer with
  | overload o =>
    obtain ⟨c, hmem, rfl⟩ := List.mem_map.1 hlisted
    refine ⟨_, some (.choice o.site _ c.isGeneric), ?_,
      ⟨Work.choices_pushAll _ _, Work.predicates_pushAll _ _⟩, reduces_candidate hmem hc⟩
    refine (Work.pending_pushAll _ _).trans ?_
    rw [Work.pending_record]
    exact .refl _
  | disjunction ms =>
    obtain ⟨j, hj, rfl⟩ := List.mem_mapIdx.1 hlisted
    exact ⟨_, none, Work.pending_pushAll _ _,
      ⟨Work.choices_pushAll _ _, Work.predicates_pushAll _ _⟩,
      reduces_minterm (List.getElem_mem hj) hc⟩

/-! ### Assumptions -/

/-- A literal is weakened to a conversion, everything else to an equality. -/
theorem assumption_cases (hs : s.WellFormed) (ha : ∀ v, a = .var v → s.Has v) :
    assumption s a b = .equality a b ∨ ∃ kind, assumption s a b = .conversion b kind ∧
      ∀ σ, s.SolvedBy σ → a.mapVars σ = .literal kind := by
  unfold assumption
  dsimp only
  split
  · rename_i kind hknown
    refine .inr ⟨kind, rfl, fun σ hσ => ?_⟩
    cases a with
    | var v =>
      have hprobe := hσ.probe hs (ha v rfl)
      replace hknown : s.probe v = .literal kind := hknown
      rw [hknown] at hprobe
      exact hprobe.symm
    | literal kind' => exact hknown
    | _ => cases hknown
  · exact .inl rfl

/-- The stand-in for a subtyping makes it hold. -/
theorem reduces_assumption {fit : Fit} (hs : s.WellFormed) (ha : s.Covers a) (hb : s.Covers b) :
    Reduces table s [.relation (fitting fit a b) l] s [.relation (assumption s a b) l] none := by
  have hvar : ∀ v, a = .var v → s.Has v := fun v hv => covers_var.1 (hv ▸ ha)
  rcases assumption_cases (b := b) hs hvar with hequality | ⟨kind, hconversion, hliteral⟩
  · rw [hequality]
    exact reduces_relation .refl (forall_mem_pair ha hb) List.nil_subperm fun I _ hagree =>
      holds_of_subtype (.agree hagree)
  · rw [hconversion]
    refine reduces_relation .refl (fun t ht => ?_) List.nil_subperm fun I hσ h =>
      holds_of_subtype ?_
    · rw [List.mem_singleton.1 ht]
      exact hb
    · rw [hliteral I.types hσ]
      exact subtype_literal h

/-- What is weakened is a subtyping that was put aside. -/
theorem weaken_cases {ds others : List Deferred} (h : weaken s ds = some (r, l, others)) :
    ∃ d fit a b, ds.Perm (d :: others) ∧ d.goal.relation = fitting fit a b ∧
      r = assumption s a b ∧ l = d.goal.locator := by
  induction ds generalizing others with
  | nil => cases h
  | cons d ds ih =>
    unfold weaken at h
    split at h
    · rename_i a b hrelation
      simp only [Option.some.injEq, Prod.mk.injEq] at h
      obtain ⟨rfl, rfl, rfl⟩ := h
      exact ⟨d, .subtype, a, b, .refl _, hrelation, rfl, rfl⟩
    · rename_i a b hrelation
      simp only [Option.some.injEq, Prod.mk.injEq] at h
      obtain ⟨rfl, rfl, rfl⟩ := h
      exact ⟨d, .returned, a, b, .refl _, hrelation, rfl, rfl⟩
    · obtain ⟨⟨r', l', others'⟩, hweaken, heq⟩ := Option.map_eq_some_iff.1 h
      simp only [Prod.mk.injEq] at heq
      obtain ⟨rfl, rfl, rfl⟩ := heq
      obtain ⟨e, fit, a, b, hperm, hrelation, hr, hl⟩ := ih hweaken
      exact ⟨e, fit, a, b, (hperm.cons d).trans (.swap e d others'), hrelation, hr, hl⟩

/-- A literal takes a default type of the table at an unbound variable. -/
theorem defaultLiteral_cases {v : TyVar} {ds : List Deferred}
    (h : defaultLiteral table s ds = some (v, type, l)) :
    ∃ d ∈ ds, ∃ u kind, d.goal.relation = .conversion (.var u) kind ∧ v = s.root u ∧
      table.literalDefault kind = some type ∧ l = d.goal.locator := by
  induction ds with
  | nil => cases h
  | cons d ds ih =>
    have hlater : defaultLiteral table s ds = some (v, type, l) →
        ∃ e ∈ d :: ds, ∃ u kind, e.goal.relation = .conversion (.var u) kind ∧ v = s.root u ∧
          table.literalDefault kind = some type ∧ l = e.goal.locator := by
      intro h
      obtain ⟨e, he, hcase⟩ := ih h
      exact ⟨e, List.mem_cons_of_mem _ he, hcase⟩
    unfold defaultLiteral at h
    split at h
    · rename_i u kind hrelation
      split at h
      · rename_i type' hbound hdefault
        simp only [Option.some.injEq, Prod.mk.injEq] at h
        obtain ⟨rfl, rfl, rfl⟩ := h
        exact ⟨d, List.mem_cons_self, u, kind, hrelation, rfl, hdefault, rfl⟩
      · exact hlater h
    · exact hlater h

/-- A goal that is taken up was left to see to, or is assumed as an equality or a conversion. What is
left then was left before. -/
theorem mem_pending_of_simplify {ctx : Context} {goal : Goal}
    (h : w.turn ctx s = .simplify goal rest) :
    (goal.constraint ∈ w.pending ∨ (∃ a b, goal.relation = .equality a b) ∨
      ∃ type kind, goal.relation = .conversion type kind) ∧
    ∀ c ∈ rest.pending, c ∈ w.pending := by
  have hnext := w.next_turn ctx s
  rw [h] at hnext
  cases hnext with
  | @goal _ queue hqueue =>
    have hpending : w.pending = goal.constraint :: Work.pending { w with queue } := by
      unfold Work.pending
      rw [hqueue]
      rfl
    rw [hpending]
    exact ⟨.inl List.mem_cons_self, fun c hc => List.mem_cons_of_mem _ hc⟩
  | @weakened r l deferred hqueue hbranches hweaken =>
    obtain ⟨d, fit, a, b, hperm, -, rfl, -⟩ := weaken_cases hweaken
    refine ⟨.inr ?_, fun c hc => ?_⟩
    · unfold assumption
      dsimp only
      split
      · exact .inr ⟨_, _, rfl⟩
      · exact .inl ⟨_, _, rfl⟩
    · have hdeferred := hperm.map (·.goal.constraint)
      unfold Work.pending at hc ⊢
      rw [hqueue, hbranches] at hc ⊢
      simp only [List.map_nil, List.nil_append, List.append_nil] at hc ⊢
      exact hdeferred.mem_iff.2 (List.mem_cons_of_mem _ hc)
  | literal => exact ⟨.inr (.inl ⟨_, _, rfl⟩), fun c hc => hc⟩

/-- A subtyping that was put aside is assumed to be an equality or a conversion. -/
theorem reduces_weaken {others : List Deferred} (hs : s.WellFormed) (hw : CoversAll s w.pending)
    (hqueue : w.queue = []) (hbranches : w.branches = [])
    (h : weaken s w.deferred = some (r, l, others)) :
    ∃ olds, w.pending.Perm (olds ++ Work.pending { w with deferred := others }) ∧
      Reduces table s olds s [.relation r l] none := by
  obtain ⟨d, fit, a, b, hperm, hrelation, rfl, rfl⟩ := weaken_cases h
  have hpending : w.pending.Perm
      ([d.goal.constraint] ++ Work.pending { w with deferred := others }) := by
    have hdeferred := hperm.map (·.goal.constraint)
    unfold Work.pending
    rw [hqueue, hbranches, List.map_nil, List.map_nil, List.append_nil, List.append_nil]
    exact hdeferred
  have hconstraint : d.goal.constraint = .relation (fitting fit a b) d.goal.locator := by
    rw [← hrelation]
    rfl
  rw [hconstraint] at hpending
  have htypes : ∀ t ∈ (fitting fit a b).types, s.Covers t :=
    hw _ (hpending.mem_iff.2 (List.mem_append_left _ List.mem_cons_self))
  rw [types_fitting] at htypes
  exact ⟨_, hpending, reduces_assumption hs (htypes a List.mem_cons_self)
    (htypes b (List.mem_cons_of_mem _ List.mem_cons_self))⟩

/-- A literal whose variable the store has takes a default type of the table. -/
theorem has_of_defaultLiteral {v : TyVar} (hs : s.WellFormed) (hw : CoversAll s w.pending)
    (h : defaultLiteral table s w.deferred = some (v, type, l)) :
    s.Has v ∧ ∃ p ∈ table.literalDefaults, p.2 = type := by
  obtain ⟨d, hd, u, kind, hrelation, rfl, hdefault, -⟩ := defaultLiteral_cases h
  have hu : s.Has u := by
    have hmem : d.goal.constraint ∈ w.pending := List.mem_append_left _
      (List.mem_append_right _ (List.mem_map.2 ⟨d, hd, rfl⟩))
    refine covers_var.1 (hw _ hmem (.var u) ?_)
    show Ty.var u ∈ d.goal.relation.types
    rw [hrelation]
    exact List.mem_cons_self
  exact ⟨hs.has_root hu, _, Table.mem_of_lookup_eq_some hdefault, rfl⟩

/-- That a literal takes its default type may be assumed in place of nothing. -/
theorem reduces_default {v : TyVar} (hground : table.Ground) (hs : s.WellFormed)
    (hw : CoversAll s w.pending) (h : defaultLiteral table s w.deferred = some (v, type, l)) :
    Reduces table s [] s [.relation (.equality (.var v) type) l] none := by
  obtain ⟨hv, p, hp, rfl⟩ := has_of_defaultLiteral hs hw h
  have htype : s.Covers p.2 := by
    intro v hv
    rw [hground.literalDefaults p hp] at hv
    cases hv
  exact ⟨.refl, coversAll_relation (forall_mem_pair (covers_var.2 hv) htype), List.Subperm.refl _,
    fun _ _ _ _ c hc => by cases hc⟩

/-! ### Turns -/

/-- **What comes next on a path** makes what it was taken from hold. -/
theorem reduces_turn {ctx : Context} {goal : Goal} (hground : ctx.table.Ground)
    (hs : s.WellFormed) (hw : CoversAll s w.pending) (h : w.turn ctx s = .simplify goal rest) :
    ∃ olds, w.pending.Perm (olds ++ rest.pending) ∧
      Reduces ctx.table s olds s [goal.constraint] none := by
  have hnext := w.next_turn ctx s
  rw [h] at hnext
  cases hnext with
  | @goal _ queue hqueue =>
    have hpending : w.pending = [goal.constraint] ++ Work.pending { w with queue } := by
      unfold Work.pending
      rw [hqueue]
      rfl
    rw [hpending] at hw ⊢
    exact ⟨_, .refl _, .keep .refl fun c hc => hw c (List.mem_append_left _ hc)⟩
  | weakened hqueue hbranches hweaken => exact reduces_weaken hs hw hqueue hbranches hweaken
  | literal _ _ hliteral => exact ⟨[], .refl _, reduces_default hground hs hw hliteral⟩

theorem mem_vars_below {v : TyVar} {count : Nat} :
    v ∈ (List.range count).map TyVar.mk ↔ v.index < count := by
  rw [List.mem_map]
  exact ⟨fun ⟨i, hi, hv⟩ => hv ▸ List.mem_range.1 hi, fun h => ⟨v.index, List.mem_range.2 h, rfl⟩⟩

/-- Nothing is unknown if no goal is left and no type of a variable has variables. -/
theorem incomplete_eq_none_iff {ctx : Context} {ds : List Deferred} : incomplete ctx s ds = none ↔
    ds = [] ∧ ∀ v ∈ ctx.vars, (s.apply (.var v)).vars = [] := by
  unfold incomplete
  dsimp only
  split
  · rename_i hempty
    rw [Bool.and_eq_true, List.isEmpty_iff, List.isEmpty_iff, List.filter_eq_nil_iff] at hempty
    simp only [Ty.hasVars, Bool.not_eq_true, Bool.not_eq_false', List.isEmpty_iff] at hempty
    exact ⟨fun _ => hempty, fun _ => rfl⟩
  · rename_i hempty
    rw [Bool.and_eq_true, List.isEmpty_iff, List.isEmpty_iff, List.filter_eq_nil_iff] at hempty
    simp only [Ty.hasVars, Bool.not_eq_true, Bool.not_eq_false', List.isEmpty_iff] at hempty
    exact ⟨nofun, fun h => absurd h hempty⟩

/-- A path that has come to a good end has nothing left to do, and all variables are known. -/
theorem of_complete {ctx : Context} (h : w.turn ctx s = .complete) :
    w.pending = [] ∧ ∀ v ∈ ctx.vars, (s.apply (.var v)).vars = [] := by
  have hnext := w.next_turn ctx s
  rw [h] at hnext
  cases hnext with
  | complete hqueue hbranches hnone =>
    obtain ⟨hdeferred, hground⟩ := incomplete_eq_none_iff.1 hnone
    refine ⟨?_, hground⟩
    unfold Work.pending
    rw [hqueue, hdeferred, hbranches]
    rfl

end Search
end TypeResolution
