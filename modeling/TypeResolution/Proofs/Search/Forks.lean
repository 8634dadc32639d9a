/-
# The choices on a path

A system that makes sense has no disjunction without alternatives. A path never comes to one
either: a goal comes down to relations and references, and entering an alternative brings in
relations, or constraints of a disjunction that was there. In the same way a path of a system
without references never comes to a reference, since only a member turns into one
(`Search.Work.Forks`).

Key definitions: `Constraint.Forks`, `Search.Work.Forks`.
Key theorems: `System.forks_constraints`, `Search.forks_simplify`, `Search.Work.Forks.simplify`,
`Search.Work.Forks.enter`, `Search.Work.Forks.alternatives_ne_nil`.
-/
import TypeResolution.Proofs.Search.Turns
import TypeResolution.Proofs.Validation

namespace TypeResolution

variable {refs : Prop} {count : Nat} {c : Constraint} {l : Option Locator}

/-- Each disjunction in the constraint has an alternative, and if there is a reference in the
constraint then `refs` holds. -/
inductive Constraint.Forks (refs : Prop) : Constraint → Prop where
  | relation {r : Relation} {l : Option Locator} :
      (∀ base member type site, r = .valueMember base member type site → refs) →
      Forks refs (.relation r l)
  | overload {o : Overload} {l : Option Locator} : refs → Forks refs (.overload o l)
  | disjunction {ms : List (Minterm Constraint)} {l : Option Locator} : ms ≠ [] →
      (∀ m ∈ ms, ∀ c ∈ m.constraints, Forks refs c) → Forks refs (.disjunction ms l)

namespace Constraint

theorem Forks.orLocator (h : c.Forks refs) (l : Option Locator) :
    (c.orLocator l).Forks refs := by
  unfold Constraint.orLocator
  split
  · cases h with
    | relation hmember => exact .relation hmember
  · cases h with
    | overload hrefs => exact .overload hrefs
  · cases h with
    | disjunction hms hall => exact .disjunction hms hall
  · exact h

/-- Without sites a constraint has no references. -/
theorem forks_of_constraintErrors (h : System.constraintErrors count c = [])
    (hrefs : refs ∨ c.sites = []) : c.Forks refs := by
  induction c with
  | relation r l =>
    refine .relation ?_
    rintro base member type site rfl
    exact hrefs.resolve_right (List.cons_ne_nil _ _)
  | overload o l => exact .overload (hrefs.resolve_right (List.cons_ne_nil _ _))
  | disjunction ms l ih =>
    unfold System.constraintErrors at h
    obtain ⟨hcount, hms⟩ := List.append_eq_nil_iff.1 h
    rw [System.mintermErrors_eq_flatMap, List.flatMap_eq_nil_iff] at hms
    refine .disjunction ?_ fun m hm c hc => ?_
    · rintro rfl
      cases hcount
    · refine ih m hm c hc (List.flatMap_eq_nil_iff.1 (hms m hm) c hc) (hrefs.imp_right fun h => ?_)
      rw [sites, sitesOfMinterms_eq_flatMap, List.flatMap_eq_nil_iff] at h
      exact List.flatMap_eq_nil_iff.1 (h m hm) c hc

end Constraint

theorem System.forks_constraints {system : System} (hvalid : system.validate = [])
    (hrefs : refs ∨ ∀ c ∈ system.constraints, c.sites = []) :
    ∀ c ∈ system.constraints, c.Forks refs := by
  intro c hc
  have hall := (List.append_eq_nil_iff.1 hvalid).1
  rw [System.allErrors_eq_flatMap] at hall
  exact Constraint.forks_of_constraintErrors (List.flatMap_eq_nil_iff.1 hall c hc)
    (hrefs.imp_right fun h => h c hc)

namespace Search

/-! ### Steps on goals -/

variable {ctx : Context} {table : Table} {s s' : Store} {w w' rest : Work} {goal : Goal}
variable {point : BranchPoint} {a : Alternative} {fit : Fit} {t u : Ty} {r : Relation}

theorem forks_fitting : (Constraint.relation (fitting fit t u) l).Forks refs := by
  cases fit <;> exact .relation nofun

theorem forks_parameterRelation {p q : Parameter} :
    (Constraint.relation (parameterRelation p q) l).Forks refs := by
  unfold parameterRelation
  split <;> exact .relation nofun

theorem forks_pairwise {α : Type} {step : Nat → PathStep} {relate : α → α → Relation}
    {as bs : List α} (h : ∀ a b l, (Constraint.relation (relate a b) l).Forks refs) :
    ∀ c ∈ pairwise l step relate as bs, c.Forks refs := by
  intro c hc
  obtain ⟨p, -, l', rfl⟩ := mem_pairwise hc
  exact h p.1 p.2 l'

theorem forks_openCandidate (type : Ty) (name : Name) (c : Candidate) :
    ∀ d ∈ (openCandidate s type name c l).constraints, d.Forks refs := by
  refine List.forall_mem_cons.2 ⟨.relation nofun, fun d hd => ?_⟩
  obtain ⟨g, -, hd⟩ := List.mem_filterMap.1 hd
  obtain ⟨v, -, rfl⟩ := Option.map_eq_some_iff.1 hd
  exact .relation nofun

/-- What a relation comes down to offers a choice only if it is a reference. -/
def Simplified.Forks (refs : Prop) : Simplified → Prop
  | .discharged children _ => ∀ c ∈ children, c.Forks refs
  | _ => True

theorem forks_settled : Simplified.settled.Forks refs := fun _ hc => by cases hc

theorem forks_expanded (h : (Constraint.relation r l).Forks refs) :
    (Simplified.expanded [.relation r l]).Forks refs := List.forall_mem_singleton.2 h

theorem forks_simplifyShapes : (simplifyShapes table s fit t u l).1.Forks refs := by
  unfold simplifyShapes
  dsimp only
  split
  · exact forks_expanded (.relation nofun)
  · exact forks_expanded (.relation nofun)
  · split
    · exact List.forall_mem_append.2 ⟨forks_pairwise fun _ _ _ => forks_parameterRelation,
        List.forall_mem_singleton.2 forks_fitting⟩
    · trivial
  · split
    · exact forks_pairwise fun _ _ _ => forks_fitting
    · trivial
  · split
    · exact forks_pairwise fun _ _ _ => .relation nofun
    · split
      · trivial
      · exact forks_expanded (.relation nofun)
  · trivial

theorem forks_simplifySubtyping : (simplifySubtyping table s fit t u l).1.Forks refs := by
  unfold simplifySubtyping
  dsimp only
  split
  · exact forks_settled
  · split
    · exact forks_settled
    · exact forks_settled
    · trivial
    · trivial
    · trivial
    · exact forks_simplifyShapes

/-- A member turns into a reference if several declarations have it. -/
theorem forks_simplifyMember (hrefs : refs) (base : Ty) (member : Name) (type : Ty)
    (site : NodeId) : (simplifyMember table s base member type site l).1.Forks refs := by
  unfold simplifyMember
  dsimp only
  split
  · trivial
  · exact forks_expanded (.relation nofun)
  · split
    · exact forks_expanded (.relation nofun)
    · trivial
  · split
    · trivial
    · exact forks_openCandidate _ _ _
    · exact List.forall_mem_singleton.2 (.overload hrefs)

/-- **What a goal comes down to** offers no choice but those of references. -/
theorem forks_simplify (h : (Constraint.relation r l).Forks refs) :
    (simplify table s r l).1.Forks refs := by
  cases r with
  | equality t u =>
    unfold simplify
    dsimp only
    split
    · exact forks_settled
    · trivial
  | subtyping t u =>
    show (simplifySubtyping table s .subtype t u l).1.Forks refs
    exact forks_simplifySubtyping
  | returnBinding t u =>
    show (simplifySubtyping table s .returned t u l).1.Forks refs
    exact forks_simplifySubtyping
  | conformance type traits =>
    show (simplifyConformance table s type traits l).1.Forks refs
    unfold simplifyConformance
    dsimp only
    split
    · trivial
    · exact forks_settled
    · split
      · trivial
      · exact forks_settled
  | conversion type literal =>
    show (simplifyConversion table s type literal l).1.Forks refs
    unfold simplifyConversion
    dsimp only
    split
    · trivial
    · exact forks_settled
    · split
      · exact forks_settled
      · split
        · exact forks_settled
        · trivial
  | valueMember base member type site =>
    cases h with
    | relation hmember =>
      exact forks_simplifyMember (hmember base member type site rfl) base member type site
  | size predicate => exact forks_settled

/-! ### Paths -/

/-- So does all that is left to see to on a path. -/
def Work.Forks (refs : Prop) (w : Work) : Prop := ∀ c ∈ w.pending, c.Forks refs

theorem Work.Forks.start {cs : List Constraint} (h : ∀ c ∈ cs, c.Forks refs) :
    (Work.pushAll {} cs).Forks refs := fun c hc => h c ((Work.pending_start cs).mem_iff.1 hc)

theorem Work.Forks.simplify (h : w.Forks refs) (hturn : w.turn ctx s = .simplify goal rest)
    (hsimp : Path.simplify ctx goal rest s = (.open w', s')) : w'.Forks refs := by
  obtain ⟨hgoal, hrest⟩ := mem_pending_of_simplify hturn
  have hgoal : goal.constraint.Forks refs := by
    obtain ⟨ordinal, r, l⟩ := goal
    rcases hgoal with hmem | ⟨t, u, rfl⟩ | ⟨type, kind, rfl⟩
    · exact h _ hmem
    · exact .relation nofun
    · exact .relation nofun
  intro c hc
  rcases mem_pending_of_pathSimplify hsimp hc with hc | ⟨rfl, -⟩ | ⟨children, entry, hsimp, hc⟩
  · exact h c (hrest c hc)
  · exact hgoal
  · have hchildren : (Search.simplify ctx.table s goal.relation goal.locator).1.Forks refs :=
      forks_simplify hgoal
    rw [hsimp] at hchildren
    exact hchildren c hc

/-- Entering an alternative brings in constraints of the choice. -/
theorem Work.Forks.enter (h : w.Forks refs) (hturn : w.turn ctx s = .choose point rest)
    (ha : a ∈ point.offer.alternatives) : (a.enter point.locator rest s).1.Forks refs := by
  obtain ⟨hpoint, hrest⟩ := Work.mem_pending_of_choose hturn
  replace hpoint := h _ hpoint
  have hlisted := point.offer.alternatives_perm.mem_iff.1 ha
  obtain ⟨ordinal, offer, l⟩ := point
  intro c hc
  cases offer with
  | overload o =>
    obtain ⟨candidate, -, rfl⟩ := List.mem_map.1 hlisted
    replace hc := (Work.pending_pushAll _ _).mem_iff.1 hc
    rw [Work.pending_record] at hc
    exact (List.mem_append.1 hc).elim (forks_openCandidate _ _ _ c) fun hc => h c (hrest c hc)
  | disjunction ms =>
    obtain ⟨j, hj, rfl⟩ := List.mem_mapIdx.1 hlisted
    cases hpoint with
    | disjunction _ hall =>
      rcases List.mem_append.1 ((Work.pending_pushAll _ _).mem_iff.1 hc) with hc | hc
      · obtain ⟨d, hd, rfl⟩ := List.mem_map.1 hc
        exact (hall _ (List.getElem_mem hj) d hd).orLocator _
      · exact h c (hrest c hc)

/-- A choice that is made has an alternative. -/
theorem Work.Forks.alternatives_ne_nil (h : w.Forks refs)
    (hturn : w.turn ctx s = .choose point rest) : point.offer.alternatives ≠ [] := by
  have hpoint := h _ (Work.mem_pending_of_choose hturn).1
  obtain ⟨hqueue, hbranches, -⟩ := Work.turn_choose hturn
  have hlisted : point.offer.listed ≠ [] := by
    obtain ⟨ordinal, offer, l⟩ := point
    cases offer with
    | overload o =>
      obtain ⟨type, name, site, candidates⟩ := o
      cases candidates with
      | nil =>
        unfold Work.turn at hturn
        rw [hqueue, hbranches] at hturn
        cases hturn
      | cons c candidates => exact List.cons_ne_nil _ _
    | disjunction ms =>
      cases hpoint with
      | disjunction hms => simpa [Offer.listed] using hms
  intro hnil
  exact hlisted (List.perm_nil.1 (hnil ▸ point.offer.alternatives_perm.symm))

end Search
end TypeResolution
