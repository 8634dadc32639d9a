/-
# The order of alternatives

In which order the candidates of an overload and the alternatives of a disjunction are listed
decides which paths the search follows first, and so what it leaves out. It does not decide which
good ends there are: the exhaustive searches have leaves that are alike, at other places in the tree
(`Search.Leaf.like`), and so their best leaves are alike (`Search.Mirrors.best`). The answer is
settled by these. Which variables are made on a path depends on the path alone, so that the types
are the same and not the same up to the names of variables.

An order can still be the difference between an answer and none. If a declared type brings in a
variable that the system does not have, then a path on which it is looked up ends the program, and
a solution that is found before can be the reason for leaving this path out
(`order_irrelevant_unknown`). If declared types bring in no such variable, both searches have an
answer (`solve?_eq_some`).

Key definitions: `Search.Mirrors`, `SameOutcome`.
Key theorems: `Search.Leaf.like`, `Search.Mirrors.best`, `Search.Settles.sameOutcome`,
`order_irrelevant`.
-/
import TypeResolution.Proofs.Search.Lockstep
import TypeResolution.Proofs.Search.Soundness

namespace TypeResolution
namespace Search

variable {L : Latitude} {ctx : Context} {s s' t : Store} {w w' v : Work} {path : List Nat}
variable {f f' g g' : Found} {T T' : Leaves} {P : List Nat}

/-! ### Leaves that are alike -/

/-- **Each leaf has one like it** among those of a search from work that is alike. The alternatives
that lead to it may be at other positions. -/
theorem Leaf.like (h : Leaf ctx s w path t v) (hL : ¬ L.flips) (hw : w.Like L w')
    (hslots : s.slots = s'.slots) :
    ∃ path' t' v', Leaf ctx s' w' path' t' v' ∧ v.Like L v' ∧ t.slots = t'.slots := by
  induction h generalizing s' w' with
  | @complete s w hturn =>
    have hnext := hw.turn ctx hslots
    rw [hturn] at hnext
    generalize hturn' : w'.turn ctx s' = turn' at hnext
    cases hnext with
    | complete => exact ⟨[], s', w', .complete hturn', hw, hslots⟩
  | @simplify s s₁ t w w₁ v rest goal path hturn hsimplify _ ih =>
    have hnext := hw.turn ctx hslots
    rw [hturn] at hnext
    generalize hturn' : w'.turn ctx s' = turn' at hnext
    cases hnext with
    | @simplify _ goal' _ rest' hgoal hrest =>
      obtain ⟨hpath, hslots'⟩ := hrest.pathSimplify ctx hgoal hslots fun hflips => absurd hflips hL
      rcases hsimplify' : Path.simplify ctx goal' rest' s' with ⟨path', s₁'⟩
      rw [hsimplify, hsimplify'] at hpath hslots'
      cases hpath with
      | works hwork =>
        obtain ⟨path', t', v', hleaf, hv, ht⟩ := ih hwork hslots'
        exact ⟨path', t', v', .simplify hturn' hsimplify' hleaf, hv, ht⟩
  | @choose s t w v rest point a i path hturn ha _ ih =>
    have hnext := hw.turn ctx hslots
    rw [hturn] at hnext
    generalize hturn' : w'.turn ctx s' = turn' at hnext
    cases hnext with
    | choose hpoint hrest =>
      obtain ⟨a', ha', halike⟩ := hpoint.offer.exists_alternative (List.mem_of_getElem? ha)
      obtain ⟨j, hj⟩ := List.getElem?_of_mem ha'
      obtain ⟨hwork, hslots'⟩ := halike.enter hpoint.locator hrest hslots
      obtain ⟨path', t', v', hleaf, hv, ht⟩ := ih hwork hslots'
      exact ⟨j :: path', t', v', .choose hturn' hj hleaf, hv, ht⟩

theorem Yields.like (h : Yields ctx s w path f) (hL : ¬ L.flips) (hw : w.Like L w')
    (hslots : s.slots = s'.slots) : ∃ path' f', Yields ctx s' w' path' f' ∧ f.Like L f' := by
  obtain ⟨t, v, hleaf, rfl⟩ := h
  obtain ⟨path', t', v', hleaf', hv, ht⟩ := hleaf.like hL hw hslots
  exact ⟨path', _, ⟨t', v', hleaf', rfl⟩, hv.toFound ctx ht⟩

/-- Leaves that are alike give the same types and declarations as leaves that are alike. -/
theorem sameAssignment_iff_of_like (h : f.Like L f') (hg : g.Like L g') :
    SameAssignment f g ↔ SameAssignment f' g' := by
  unfold SameAssignment
  simp only [h.types, hg.types, h.decl?, hg.decl?]

/-! ### Searches whose leaves are alike -/

/-- Each leaf of one search has one like it among those of the other. -/
def Mirrors (L : Latitude) (T T' : Leaves) : Prop :=
  ∀ P f, T P f → ∃ P' f', T' P' f' ∧ f.Like L f'

namespace Mirrors

/-- The bound leaves out leaves that are alike. -/
theorem admitted (h : Mirrors L T T') (ctx : Context) :
    Mirrors L (Admitted ctx T) (Admitted ctx T') := by
  rintro P f ⟨hf, hbound⟩
  obtain ⟨P', f', hf', hlike⟩ := h P f hf
  rw [hlike.penalty] at hbound
  exact ⟨P', f', ⟨hf', hbound⟩, hlike⟩

section Both

variable (h : Mirrors L T T') (h' : Mirrors L T' T)
include h h'

/-- **The best leaves are alike.** -/
theorem best : Mirrors L (Best T) (Best T') := by
  rintro P f ⟨hf, hleast⟩
  obtain ⟨P', f', hf', hlike⟩ := h P f hf
  refine ⟨P', f', ⟨hf', fun Q' g' hg' => ?_⟩, hlike⟩
  obtain ⟨Q, g, hg, hback⟩ := h' Q' g' hg'
  rw [← hlike.rankLe hback.symm]
  exact hleast Q g hg

/-- If the best leaves of one search agree, those of the other one do. -/
theorem agree (hT : ∀ P Q f g, Best T P f → Best T Q g → SameAssignment f g) :
    ∀ P Q f g, Best T' P f → Best T' Q g → SameAssignment f g := by
  intro P Q f g hf hg
  obtain ⟨P', f', hf', hlike⟩ := h'.best h P f hf
  obtain ⟨Q', g', hg', hlike'⟩ := h'.best h Q g hg
  exact (sameAssignment_iff_of_like hlike hlike').2 (hT P' Q' f' g' hf' hg')

end Both
end Mirrors
end Search

open Search

variable {L : Latitude} {table : Table} {options : SolverOptions} {system system' : System}
variable {p q : Except Unsolved Solution} {s₀ : Store}

/-! ### Answers -/

/-- Both or neither of the answers are solutions, and then with the same types, the same declaration
at every reference and the same penalty; and both or neither are ambiguities. -/
structure SameOutcome (p q : Except Unsolved Solution) : Prop where
  solved : (∃ s, p = .ok s) ↔ ∃ s, q = .ok s
  same : ∀ s s', p = .ok s → q = .ok s' → s.types = s'.types ∧
    (∀ site, s.reference? site = s'.reference? site) ∧ s.penalty = s'.penalty
  ambiguous : (∃ e certain, p = .error ⟨[e], certain⟩ ∧ IsAmbiguity e) ↔
    ∃ e certain, q = .error ⟨[e], certain⟩ ∧ IsAmbiguity e

/-- A solution is one of the best leaves. -/
theorem Search.Settles.exists_best {T : Leaves} {s : Solution} (h : Settles T (.ok s)) :
    ∃ P f, Best T P f ∧ s = f.toSolution := by
  cases h with
  | solved hfirst _ => exact ⟨_, _, hfirst.1, rfl⟩

/-- **Searches whose leaves are alike have answers that agree.** -/
theorem Search.Settles.sameOutcome {T T' : Leaves} (h : Settles T p) (h' : Settles T' q)
    (hT : Mirrors L T T') (hT' : Mirrors L T' T) : SameOutcome p q := by
  have hagree : (∀ P Q f g, Best T P f → Best T Q g → SameAssignment f g) ↔
      ∀ P Q f g, Best T' P f → Best T' Q g → SameAssignment f g := ⟨hT.agree hT', hT'.agree hT⟩
  refine ⟨?_, ?_, ?_⟩
  · have hone : ∀ {T T' : Leaves}, Mirrors L T T' → (∃ P f, T P f) → ∃ P f, T' P f := by
      rintro T T' hT ⟨P, f, hf⟩
      obtain ⟨P', f', hf', -⟩ := hT P f hf
      exact ⟨P', f', hf'⟩
    rw [h.solved_iff, h'.solved_iff]
    exact and_congr ⟨hone (hT.best hT'), hone (hT'.best hT)⟩ hagree
  · rintro s s' rfl rfl
    obtain ⟨P, f, hf, rfl⟩ := h.exists_best
    obtain ⟨Q, g, hg, rfl⟩ := h'.exists_best
    obtain ⟨P', f', hf', hlike⟩ := hT.best hT' P f hf
    obtain ⟨htypes, hdecls⟩ := (h'.solved_iff.1 ⟨_, rfl⟩).2 P' Q f' g hf' hg
    refine ⟨hlike.types.trans htypes, fun site => ?_, ?_⟩
    · rw [reference?_toSolution, reference?_toSolution, hlike.decl?, hdecls]
    · exact hlike.penalty.trans (Nat.le_antisymm (Found.penalty_le (hf'.2 Q g hg.1))
        (Found.penalty_le (hg.2 P' f' hf'.1)))
  · have hdiffer : ∀ {T : Leaves}, (∃ P Q f g, Best T P f ∧ Best T Q g ∧ ¬ SameAssignment f g) ↔
        ¬ ∀ P Q f g, Best T P f → Best T Q g → SameAssignment f g := by simp
    rw [h.ambiguous_iff, h'.ambiguous_iff, hdiffer, hdiffer]
    exact not_congr hagree

/-- Failures that are no ambiguities agree. -/
theorem sameOutcome_of_failed {errors errors' : List TypeError} {certain certain' : List Ty}
    (h : ∀ e ∈ errors, ¬ IsAmbiguity e) (h' : ∀ e ∈ errors', ¬ IsAmbiguity e) :
    SameOutcome (.error ⟨errors, certain⟩) (.error ⟨errors', certain'⟩) := by
  refine ⟨by simp, by simp, iff_of_false ?_ ?_⟩
  · rintro ⟨e, _, heq, he⟩
    obtain ⟨rfl, -⟩ := Unsolved.mk.inj (Except.error.inj heq)
    exact h e List.mem_cons_self he
  · rintro ⟨e, _, heq, he⟩
    obtain ⟨rfl, -⟩ := Unsolved.mk.inj (Except.error.inj heq)
    exact h' e List.mem_cons_self he

/-! ### Systems that differ in the order of alternatives -/

/-- The leaves of the searches for systems that say the same are alike. -/
theorem System.Like.mirrors (h : system.Like L system') (hL : ¬ L.flips) (table : Table)
    (options : SolverOptions) (s₀ : Store) :
    Mirrors L (system.leaves table options s₀) (system'.leaves table options s₀) := by
  intro P f hf
  unfold System.leaves at hf ⊢
  rw [← h.varCount]
  exact hf.like hL (Work.Like.empty.pushAll h.constraints) rfl

/-- An answer of the run that stops at unknown variables is that of the run. -/
theorem run_of_run? {ctx : Context} : ∀ (steps : Nat) {s : State},
    s.run? ctx steps = some p → s.run ctx steps = p
  | 0, s, h => Option.some.inj h
  | steps + 1, s, h => by
    unfold State.run? at h
    unfold State.run
    by_cases howns : s.owns ctx = true
    · rw [if_pos howns] at h
      cases hstep : s.step ctx with
      | done answer =>
        rw [hstep] at h
        exact Option.some.inj h
      | next s' =>
        rw [hstep] at h
        exact run_of_run? steps h
    · rw [if_neg howns] at h
      cases h

theorem solve_of_solve? (h : solve? table options system = some p) :
    solve table options system = p := by
  unfold solve? at h
  split at h
  · rename_i hvalid hseeds
    rw [System.solve_start hvalid hseeds]
    exact run_of_run? options.maxSteps h
  · exact Option.some.inj h

/-- **The order in which alternatives are listed does not matter.** Two systems that differ only in
the order of the candidates of overloads and of the alternatives of disjunctions, at any depth, have
answers that agree, unless steps run out or a variable is looked up that the store does not have. -/
theorem order_irrelevant (h : system.Like .order system')
    (hp : solve? table options system = some p) (hq : solve? table options system' = some q)
    (hpsteps : ∀ certain, p ≠ .error ⟨[.stopped (.stepLimit options.maxSteps) none], certain⟩)
    (hqsteps : ∀ certain, q ≠ .error ⟨[.stopped (.stepLimit options.maxSteps) none], certain⟩) :
    SameOutcome p q := by
  obtain rfl := solve_of_solve? hp
  obtain rfl := solve_of_solve? hq
  by_cases hvalid : system.validate = []
  · have hvalid' := h.validate_iff.1 hvalid
    rcases hseeds : System.plant (.ofSize system.varCount) system.seeds with ⟨s₀, outcome⟩
    have hseeds' := hseeds
    rw [h.varCount, h.seeds] at hseeds'
    cases outcome with
    | none =>
      have hsettles := (solve_settles hvalid hseeds).resolve_right fun ⟨certain, hstop⟩ =>
        hpsteps certain hstop
      have hsettles' := (solve_settles hvalid' hseeds').resolve_right fun ⟨certain, hstop⟩ =>
        hqsteps certain hstop
      rw [← h.varCount] at hsettles'
      exact hsettles.sameOutcome hsettles' ((h.mirrors not_false table options s₀).admitted _)
        ((h.symm.mirrors not_false table options s₀).admitted _)
    | some conflict =>
      have hconflict : ∀ e ∈ [conflict.toTypeError .equal none], ¬ IsAmbiguity e :=
        List.forall_mem_singleton.2 (endsPath_toTypeError conflict .equal none).not_isAmbiguity
      obtain ⟨certain, heq⟩ := System.exists_solve_of_conflict table options hvalid hseeds
      obtain ⟨certain', heq'⟩ := System.exists_solve_of_conflict table options hvalid' hseeds'
      rw [heq, heq']
      exact sameOutcome_of_failed hconflict hconflict
  · obtain ⟨certain, heq⟩ := System.exists_solve_of_invalid table options hvalid
    obtain ⟨certain', heq'⟩ :=
      System.exists_solve_of_invalid table options (mt h.validate_iff.2 hvalid)
    rw [heq, heq']
    exact sameOutcome_of_failed (fun e he => (endsPath_of_mem_validate he).not_isAmbiguity)
      fun e he => (endsPath_of_mem_validate he).not_isAmbiguity

/-- An overload inside of a disjunction: its candidates and the alternatives in either order. -/
theorem order_irrelevant_nested :
    let x : Ty := .var ⟨0⟩
    let better : Candidate := ⟨⟨1⟩, .unit, [], 0⟩
    let worse : Candidate := ⟨⟨2⟩, .error, [], 1⟩
    let reference (candidates : List Candidate) : Minterm Constraint :=
      ⟨[.overload ⟨x, ⟨0⟩, ⟨5⟩, candidates⟩ none], 2⟩
    let other : Minterm Constraint := ⟨[.relation (.equality x .error) none], 4⟩
    let system (ms : List (Minterm Constraint)) : System := ⟨1, [.disjunction ms none], []⟩
    let first := system [other, reference [worse, better]]
    let second := system [reference [better, worse], other]
    let table := Table.ofNames .empty
    let solution : Solution := ⟨[.unit], [(⟨5⟩, ⟨1⟩)], [], 2, []⟩
    first.Like .order second ∧ solve? table {} first = some (.ok solution) ∧
      ∃ q, solve? table {} second = some q ∧ SameOutcome (.ok solution) q := by
  intro x better worse reference other system first second table solution
  have hreference : Minterm.Like (Constraint.Like .order) (reference [worse, better])
      (reference [better, worse]) :=
    .mk (.cons (.overload (.inr ⟨trivial, .swap _ _ _⟩) (.refl none)) .nil)
  have hother : Minterm.Like (Constraint.Like .order) other other := .mk (.cons (.refl _) .nil)
  have hlike : first.Like .order second :=
    ⟨rfl, rfl, .cons (.disjunction (.inr ⟨trivial, .swap _ _ _⟩)
      (.cons hreference (.cons hother .nil)) (.refl none)) .nil⟩
  have hfirst : solve? table {} first = some (.ok solution) := by cbv
  obtain ⟨s, hsecond⟩ : ∃ s, solve? table {} second = some (.ok s) := ⟨_, by cbv⟩
  exact ⟨hlike, hfirst, .ok s, hsecond, order_irrelevant hlike hfirst hsecond (by simp) (by simp)⟩

/-- If a declared type brings in a variable that the system does not have, the order decides whether
it is looked up: a good end that is found first leaves the path out on which it is. -/
theorem order_irrelevant_unknown :
    let table : Table :=
      { Table.ofNames .empty with types := [⟨⟨1⟩, [], [], [], [(⟨2⟩, .plain ⟨1⟩ (.var ⟨5⟩))]⟩] }
    let member : Constraint := .relation (.valueMember (.nominal ⟨1⟩ []) ⟨2⟩ .unit ⟨1⟩) none
    let costly : Constraint := .disjunction [⟨[member], 5⟩, ⟨[], 5⟩] none
    let system (ms : List (Minterm Constraint)) : System := ⟨0, [.disjunction ms none], []⟩
    let first := system [⟨[], 0⟩, ⟨[costly], 0⟩]
    let second := system [⟨[costly], 0⟩, ⟨[], 0⟩]
    table.Built ∧ first.Like .order second ∧
      solve? table {} first = some (.ok ⟨[], [], [], 0, []⟩) ∧ solve? table {} second = none := by
  intro table member costly system first second
  have hbuilt : table.Built := .addMember ⟨1⟩ ⟨2⟩ (.plain ⟨1⟩ (.var ⟨5⟩))
    (.declareType ⟨1⟩ [] (.ofNames .empty) rfl) rfl
  have hcostly : Minterm.Like (Constraint.Like .order) ⟨[costly], 0⟩ ⟨[costly], 0⟩ :=
    .mk (.cons (.refl costly) .nil)
  have hlike : first.Like .order second :=
    ⟨rfl, rfl, .cons (.disjunction (.inr ⟨trivial, .swap _ _ _⟩)
      (.cons hcostly (.cons (.mk .nil) .nil)) (.refl none)) .nil⟩
  exact ⟨hbuilt, hlike, by cbv, by cbv⟩

end TypeResolution
