/-
# What an answer does not depend on

It makes no difference which side of an equality is written first: unification leaves the same
slots, and a search comes to the same answer, except that mismatches that stem from equalities are
told with their sides exchanged (`equality_symmetric`). Nor do the data that errors are told with
have any influence on typing: with other locators, and with other subtypings tagged as those of
returned values, there is a solution with the same types, references, predicates and penalty, or
none, and the same limits are met (`diagnostics_inert`).

Key theorems: `equality_symmetric`, `diagnostics_inert`.
-/
import TypeResolution.Proofs.Search.Lockstep

namespace TypeResolution

open Search

variable {L : Latitude} {table : Table} {options : SolverOptions} {system system' : System}

/-! ### The sides of equalities -/

/-- Where the locators are the same, solutions that are alike are the same. -/
theorem Solution.Like.eq {s s' : Solution} (h : s.Like L s') (hL : ¬ L.relocates) : s = s' := by
  obtain ⟨types, references, predicates, penalty, warnings⟩ := s
  obtain rfl : types = _ := h.types
  obtain rfl : references = _ := h.references
  obtain rfl : predicates = _ := h.predicates
  obtain rfl : penalty = _ := h.penalty
  obtain rfl : warnings = _ := h.warnings hL
  rfl

/-- **Equality is symmetric.** From every store that operations lead to, unifying two types and
unifying them the other way round leave the same slots, also where they fail, and meet the same
conflict up to its sides. And if some equalities of a system that makes sense have their sides
exchanged, wherever they are in it, the system makes sense, and its answer is the same: it has the
same solution, or fails with the same errors, except that mismatches that stem from equalities may
have their sides exchanged. -/
theorem equality_symmetric :
    (∀ (x : Session) (a b : Ty), x.Reachable → x.store.Covers a → x.store.Covers b →
      (x.store.unify b a).store.slots = (x.store.unify a b).store.slots ∧
      (x.store.unify b a).conflict = (x.store.unify a b).conflict.map UnifyError.flip) ∧
    ∀ system system' : System, system.validate = [] → system.Like .sides system' →
      system'.validate = [] ∧
      (solve? table options system = none ↔ solve? table options system' = none) ∧
      (∀ solution, solve? table options system = some (.ok solution) ↔
        solve? table options system' = some (.ok solution)) ∧
      ∀ errors certain, solve? table options system = some (.error ⟨errors, certain⟩) →
        ∃ errors', solve? table options system' = some (.error ⟨errors', certain⟩) ∧
          List.Forall₂ (TypeError.Like .sides) errors errors' := by
  refine ⟨fun x a b hx ha hb => ?_, fun system system' hvalid h => ⟨h.validate_iff.1 hvalid, ?_⟩⟩
  · obtain ⟨past, hpast⟩ := Session.History.of_reachable hx
    have hs := hpast.store_wellFormed
    obtain ⟨-, hflipped⟩ := Store.unify_flip hs rfl (Store.unifyOwns_of_covers hs ha hb)
    exact ⟨hflipped.store.slots.symm, hflipped.conflict⟩
  · have hanswers := h.answers_of_valid table options not_false hvalid
    generalize solve? table options system = p at hanswers ⊢
    generalize solve? table options system' = q at hanswers ⊢
    cases hanswers with
    | none => exact ⟨Iff.rfl, fun _ => Iff.rfl, fun _ _ h => by cases h⟩
    | some hanswer =>
      cases hanswer with
      | solved hlike =>
        obtain rfl := hlike.eq not_false
        exact ⟨by simp, fun _ => Iff.rfl, fun _ _ h => by cases h⟩
      | unsolved herrors =>
        refine ⟨by simp, fun _ => by simp, fun errors certain heq => ?_⟩
        obtain ⟨rfl, rfl⟩ := Unsolved.mk.inj (Except.error.inj (Option.some.inj heq))
        exact ⟨_, rfl, herrors⟩

/-- A mismatch that stems from an equality inside of a disjunction is told with its sides
exchanged. -/
theorem equality_symmetric_mismatch :
    let unit : Ty := .tuple []
    let x := (Session.start 2).next (.unify (.var ⟨0⟩) unit)
    let choice (c : Constraint) : System := ⟨0, [.disjunction [⟨[c], 0⟩, ⟨[c], 1⟩] none], []⟩
    let equation (a b : Ty) : Constraint := .relation (.equality a b) none
    let table := Table.ofNames .empty
    (x.store.unify (.tuple [unit]) (.var ⟨0⟩)).store.slots =
        (x.store.unify (.var ⟨0⟩) (.tuple [unit])).store.slots ∧
      (x.store.unify (.tuple [unit]) (.var ⟨0⟩)).conflict =
        some (.mismatch (.tuple [unit]) unit) ∧
      (choice (equation unit (.tuple [unit]))).validate = [] ∧
      ∃ errors, solve? table {} (choice (equation (.tuple [unit]) unit)) =
          some (.error ⟨errors, []⟩) ∧
        List.Forall₂ (TypeError.Like .sides) [.mismatch .equal unit (.tuple [unit]) none]
          errors := by
  intro unit x choice equation table
  obtain ⟨hunify, hsolve⟩ := @equality_symmetric table {}
  have hx : x.Reachable := ⟨2, .step (.refl _) (by decide) (by decide)⟩
  obtain ⟨hslots, hconflict⟩ := hunify x (.var ⟨0⟩) (.tuple [unit]) hx (by decide) (by decide)
  have hfirst : (x.store.unify (.var ⟨0⟩) (.tuple [unit])).conflict =
      some (.mismatch unit (.tuple [unit])) := by decide
  rw [hfirst] at hconflict
  refine ⟨hslots, hconflict, by decide, ?_⟩
  have hequation : (equation unit (.tuple [unit])).Like .sides (equation (.tuple [unit]) unit) :=
    .relation (.flipped trivial) (.refl none)
  have hlike : (choice (equation unit (.tuple [unit]))).Like .sides
      (choice (equation (.tuple [unit]) unit)) :=
    ⟨rfl, rfl, .cons (.disjunction (.inl rfl) (.cons (.mk (.cons hequation .nil))
      (.cons (.mk (.cons hequation .nil)) .nil)) (.refl none)) .nil⟩
  obtain ⟨-, -, -, herrors⟩ := hsolve _ _ (by decide) hlike
  exact herrors _ _ (by cbv)

/-! ### Locators and tags -/

/-- The answers of systems that differ in their locators and tags only are alike. -/
theorem System.Like.answers (table : Table) (options : SolverOptions)
    (h : system.Like L system') (hflips : ¬ L.flips) (hreorders : ¬ L.reorders) :
    Option.Rel (AnswerLike L) (solve? table options system) (solve? table options system') := by
  by_cases hvalid : system.validate = []
  · exact h.answers_of_valid table options hreorders hvalid
  · have herrors := System.Like.validate hflips hreorders h
    unfold solve? solve
    rw [← h.varCount]
    generalize system.validate = errors at herrors hvalid ⊢
    generalize system'.validate = errors' at herrors ⊢
    cases herrors with
    | nil => exact absurd rfl hvalid
    | cons he herrors => exact .some (.unsolved (.cons he herrors))

/-- A limit that was met is told by both of two errors that are alike, or by neither. -/
theorem TypeError.Like.stopped_iff {e e' : TypeError} (h : TypeError.Like L e e')
    {reason : StopReason} (hreason : ∀ vars, reason ≠ .incomplete vars) :
    (∃ l, e = .stopped reason l) ↔ ∃ l, e' = .stopped reason l := by
  have hends : ∀ {e : TypeError}, EndsPath e → ¬ ∃ l, e = .stopped reason l := by
    rintro e he ⟨l, rfl⟩
    cases reason with
    | incomplete vars => exact hreason vars rfl
    | _ => exact he
  cases h with
  | same => exact Iff.rfl
  | told _ he he' => exact iff_of_false (hends he) (hends he')
  | _ => simp

/-- **Diagnostic data have no influence on typing.** Of two systems that differ in their locators
and in which subtypings are tagged as those of returned values, both or neither have a solution,
and then with the same types, references, predicates and penalty. One search stops at the step
limit, or reports the penalty limit, exactly if the other one does. -/
theorem diagnostics_inert (h : system.Like .diagnostics system') :
    (solve? table options system = none ↔ solve? table options system' = none) ∧
    (∀ types references predicates penalty,
      (∃ warnings, solve? table options system =
        some (.ok ⟨types, references, predicates, penalty, warnings⟩)) ↔
      ∃ warnings, solve? table options system' =
        some (.ok ⟨types, references, predicates, penalty, warnings⟩)) ∧
    ∀ reason, (∀ vars, reason ≠ .incomplete vars) →
      ((∃ l certain,
        solve? table options system = some (.error ⟨[.stopped reason l], certain⟩)) ↔
      ∃ l certain,
        solve? table options system' = some (.error ⟨[.stopped reason l], certain⟩)) := by
  have hanswers := h.answers table options not_false not_false
  generalize solve? table options system = p at hanswers ⊢
  generalize solve? table options system' = q at hanswers ⊢
  cases hanswers with
  | none => simp
  | some hanswer =>
    cases hanswer with
    | @solved s s' hlike =>
      refine ⟨by simp, fun types references predicates penalty => ?_, by simp⟩
      obtain ⟨types₁, references₁, predicates₁, penalty₁, warnings₁⟩ := s
      obtain ⟨types₂, references₂, predicates₂, penalty₂, warnings₂⟩ := s'
      obtain rfl : types₁ = types₂ := hlike.types
      obtain rfl : references₁ = references₂ := hlike.references
      obtain rfl : predicates₁ = predicates₂ := hlike.predicates
      obtain rfl : penalty₁ = penalty₂ := hlike.penalty
      simp
    | @unsolved errors errors' certain herrors =>
      refine ⟨by simp, by simp, fun reason hreason => ?_⟩
      simp only [Option.some.injEq, Except.error.injEq, Unsolved.mk.injEq, exists_and_left,
        exists_eq', and_true]
      cases herrors with
      | nil => simp
      | cons he hrest =>
        cases hrest with
        | nil => simpa using he.stopped_iff hreason
        | cons => simp

/-- A subtyping at no locator is solved like that of a returned value at one. -/
theorem diagnostics_inert_returned :
    let unit : Ty := .tuple []
    let system (relate : Ty → Ty → Relation) (l : Option Locator) : System :=
      ⟨1, [.relation (relate (.var ⟨0⟩) unit) l, .relation (.equality (.var ⟨0⟩) unit) none], []⟩
    let table := Table.ofNames .empty
    let returned := system .returnBinding (some ⟨⟨3⟩, none, [.result]⟩)
    (system .subtyping none).Like .diagnostics returned ∧
      ∃ warnings, solve? table {} returned = some (.ok ⟨[unit], [], [], 0, warnings⟩) := by
  intro unit system table returned
  have hlike : (system .subtyping none).Like .diagnostics returned :=
    ⟨rfl, rfl, .cons (.relation (.returned trivial) (.inr trivial))
      (.cons (.relation (.same _) (.refl none)) .nil)⟩
  obtain ⟨-, hsolved, -⟩ := @diagnostics_inert table {} _ _ hlike
  exact ⟨hlike, (hsolved _ _ _ _).1 ⟨[], by cbv⟩⟩

end TypeResolution
