/-
# Members of the error type

The error type goes with every type. A member of it is the error type again: this is told by an
equality of the member's type with the error type, and the equality is dropped, since the error type
agrees with everything before any variable is bound. So if nothing else is said about the member's
type, it stays unknown, and a path that would come to a good end without the member is incomplete
with it. A system that was solved has no solution any more once a variable is added that is the type
of a member of the error type (`errorMember_open`).

The proof keeps the added variable out of everything. Types of the system and of declarations do not
have it, the two relations on the error type are the only ones that do, and simplifying them binds
nothing (`Search.harmless_onError`). So the variable is an unbound root in every state that is
reached, and open at every leaf.

Key definitions: `Relation.OnError`, `System.withErrorMember`.
Key theorems: `Search.harmless_onError`, `errorMember_open`.
-/
import TypeResolution.Proofs.Search.Closure

namespace TypeResolution

/-- The relation asks for a member of the error type, or for an equality with it. -/
def Relation.OnError : Relation → Prop
  | .equality _ b => b = .error
  | .valueMember base _ _ _ => base = .error
  | _ => False

namespace Search

variable {table : Table} {Q : Ty → Prop}

/-- An equality with the error type is settled at once. -/
theorem simplify_equality_error (s : Store) (a : Ty) (l : Option Locator) :
    simplify table s (.equality a .error) l = (.settled, (s.shallow a).2) := by
  simp only [simplify, Store.unify_error, Unified.done]

/-- **What is asked of the error type** binds nothing and comes down to nothing else. -/
theorem harmless_onError : Harmless table Q Relation.OnError where
  keeps {s r l} hr hs := by
    cases r with
    | equality a b =>
      obtain rfl : b = .error := hr
      rw [simplify_equality_error]
      exact hs.shallow_store a
    | valueMember base member type site =>
      obtain rfl : base = .error := hr
      exact hs
    | _ => cases hr
  children {s r l children entry} hr h := by
    cases r with
    | equality a b =>
      obtain rfl : b = .error := hr
      rw [simplify_equality_error] at h
      obtain ⟨rfl, -⟩ := Simplified.discharged.inj h
      exact nofun
    | valueMember base member type site =>
      obtain rfl : base = .error := hr
      obtain ⟨rfl, -⟩ := Simplified.discharged.inj h
      exact List.forall_mem_singleton.2 (.inr ⟨_, _, rfl, rfl⟩)
    | _ => cases hr
  notFitting fit a b h := by cases fit <;> exact h
  notConversion _ _ h := h

end Search

open Search Store

variable {table : Table} {options : SolverOptions} {system : System} {s : Store}

namespace System

/-- The system with one more variable, which is the type of a member of the error type. -/
def withErrorMember (system : System) (member : Name) (site : NodeId) (l : Option Locator) :
    System :=
  ⟨system.varCount + 1, system.constraints ++
    [.relation (.valueMember .error member (.var ⟨system.varCount⟩) site) l], system.seeds⟩

theorem validate_withErrorMember (hvalid : system.validate = []) (member : Name) (site : NodeId)
    (l : Option Locator) : (system.withErrorMember member site l).validate = [] := by
  refine validate_extended hvalid (Nat.le_succ _) ?_
  unfold constraintErrors
  rw [List.map_eq_nil_iff, List.filterMap_eq_nil_iff]
  refine List.forall_mem_cons.2 ⟨rfl, List.forall_mem_singleton.2 ?_⟩
  refine operandProblem_eq_none_iff.2 ⟨fun hleaf => ?_, fun _ => rfl, fun v hv => ?_⟩
  · cases List.mem_singleton.1 hleaf
  rw [List.mem_singleton.1 hv]
  exact Nat.lt_succ_self _

/-- The added variable is none of the system. -/
theorem ne_added {v : TyVar} (h : (Store.ofSize system.varCount).Has v) :
    Ty.var v ≠ .var ⟨system.varCount⟩ := by
  intro heq
  rw [Ty.var.inj heq] at h
  exact Nat.lt_irrefl _ (has_ofSize.1 h)

theorem leavesIn_of_covers {t : Ty} (h : (Store.ofSize system.varCount).Covers t) :
    t.LeavesIn (· ≠ .var ⟨system.varCount⟩) := by
  rintro l hl rfl
  exact ne_added (h _ (Ty.mem_vars_iff.2 hl)) rfl

/-- The search of the extended system starts with the added variable kept out. -/
theorem enclosed_withErrorMember (hvalid : system.validate = []) (member : Name) (site : NodeId)
    (l : Option Locator)
    (hseeds : plant (.ofSize (system.varCount + 1)) system.seeds = .done s) :
    Enclosed (· ≠ .var ⟨system.varCount⟩) Relation.OnError s
      (Work.pushAll {} (system.withErrorMember member site l).constraints) := by
  have hstore : (Store.ofSize (system.varCount + 1)).Keeps (· ≠ .var ⟨system.varCount⟩) := by
    refine .ofSize fun v hv heq => ?_
    rw [Ty.var.inj heq] at hv
    exact Nat.not_succ_le_self _ hv
  have hplanted : (plant (.ofSize (system.varCount + 1)) system.seeds).store.Keeps _ :=
    plant_preserves (I := (Keeps · _)) system.seeds (fun seed hseed s hs =>
      have hhas := plantable_seeds hvalid seed hseed
      hs.bind (ne_added hhas.1) (leavesIn_of_covers hhas.2)) hstore
  rw [hseeds] at hplanted
  refine .start hplanted (List.forall_mem_append.2 ⟨fun c hc => .inl ?_, ?_⟩)
  · exact .of_types fun t ht => leavesIn_of_covers (covers_constraints hvalid c hc t ht)
  · exact List.forall_mem_singleton.2 (.inr ⟨_, _, rfl, rfl⟩)

end System

/-- **The type of a member of the error type stays open.** Let a system make sense, and let declared
types not mention the variable that is added to it. Then the extended system makes sense too, but
the variable stands for itself in every state that its search reaches, and it has no solution. -/
theorem errorMember_open (hvalid : system.validate = [])
    (htable : table.LeavesIn (· ≠ .var ⟨system.varCount⟩)) (member : Name) (site : NodeId)
    (l : Option Locator) :
    let added : TyVar := ⟨system.varCount⟩
    let extended := system.withErrorMember member site l
    extended.validate = [] ∧
      (∀ s₀, System.plant (.ofSize extended.varCount) extended.seeds = .done s₀ →
        ∀ s past, Reached ⟨table, options, extended.varCount⟩ (extended.start s₀) s past →
          s.store.apply (.var added) = .var added) ∧
      ∀ solution, solve table options extended ≠ .ok solution := by
  intro added extended
  have hout : ¬ (Ty.var added ≠ .var added) := fun h => h rfl
  refine ⟨System.validate_withErrorMember hvalid member site l, ?_, ?_⟩
  · intro s₀ hseeds s past hreached
    have hstart := System.enclosed_withErrorMember hvalid member site l hseeds
    have hkeeps := hreached.keeps htable harmless_onError (stands_start _ hseeds hstart)
      hstart.keeps
    exact hkeeps.apply_eq hout
  · intro solution h
    obtain ⟨s₀, f, hway⟩ := System.leaf_of_solve h
    have hstart := System.enclosed_withErrorMember hvalid member site l hway.planted
    have hground := hway.ground added (mem_vars_below.2 (Nat.lt_succ_self _))
    obtain ⟨P, w, hleaf, -⟩ := hway.leaf
    have hkeeps := (hleaf.enclosed htable harmless_onError hstart).keeps
    rw [hkeeps.apply_eq hout] at hground
    cases hground

/-- With a variable that is known: the added one stays open beside it. -/
theorem errorMember_open_unit :
    let system : System := ⟨1, [.relation (.equality (.var ⟨0⟩) .unit) none], []⟩
    let extended := system.withErrorMember ⟨0⟩ ⟨1⟩ none
    let table := Table.ofNames .empty
    system.validate = [] ∧ table.LeavesIn (· ≠ .var ⟨1⟩) ∧
      System.plant (.ofSize 2) extended.seeds = .done (.ofSize 2) ∧
      (∃ s past, Reached ⟨table, {}, 2⟩ (extended.start (.ofSize 2)) s past ∧
        s.store.apply (.var ⟨0⟩) = .unit ∧ s.store.apply (.var ⟨1⟩) = .var ⟨1⟩) ∧
      ∀ solution, solve table {} extended ≠ .ok solution := by
  intro system extended table
  have hvalid : system.validate = [] := by decide
  have htable : table.LeavesIn (· ≠ .var ⟨1⟩) := ⟨nofun, nofun, nofun, nofun⟩
  obtain ⟨-, hreached, hunsolved⟩ := @errorMember_open table {} system hvalid htable ⟨0⟩ ⟨1⟩ none
  obtain ⟨s, hs, hknown⟩ : ∃ s, Goes ⟨table, {}, 2⟩ (extended.start (.ofSize 2)) s ∧
      s.store.apply (.var ⟨0⟩) = .unit := ⟨_, ⟨by cbv, by cbv⟩, by cbv⟩
  exact ⟨hvalid, htable, rfl, ⟨s, _, .step .start hs, hknown,
    hreached _ rfl s _ (.step .start hs)⟩, hunsolved⟩

/-- **A member of the error type makes a solved system unsolvable**: the system without variables
has a solution, and with the variable that is added it is incomplete. -/
theorem errorMember_incomplete :
    let system : System := ⟨0, [], []⟩
    let table := Table.ofNames .empty
    solve table {} system = .ok ⟨[], [], [], 0, []⟩ ∧
      solve table {} (system.withErrorMember ⟨0⟩ ⟨1⟩ none) =
        .error ⟨[.stopped (.incomplete [⟨0⟩]) none], [.var ⟨0⟩]⟩ ∧
      ¬ ∃ solution, solve table {} (system.withErrorMember ⟨0⟩ ⟨1⟩ none) = .ok solution ∧
        solution.types = [.error] := by
  intro system table
  have hsolve : solve table {} (system.withErrorMember ⟨0⟩ ⟨1⟩ none) =
      .error ⟨[.stopped (.incomplete [⟨0⟩]) none], [.var ⟨0⟩]⟩ := by cbv
  refine ⟨by cbv, hsolve, ?_⟩
  rintro ⟨solution, h, -⟩
  rw [hsolve] at h
  cases h

end TypeResolution
