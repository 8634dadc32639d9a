/-
# Variables of loaded units

Loading refuses a unit with a type that has a variable which the unit does not declare
(`Workspace.ensures_toSystem`). It does not look at the types of the environment: these may have
any variables, and a member, a supertype or a default type brings them into the search. A lookup of
such a variable ends the program (`check_unknown`). If declared types bring in no variables but
those of the unit, its search looks up none but what the store has (`check_owned`).

What a step of loading ensures is told by a predicate on its results, whatever names were met
before (`Workspace.Load.Ensures`).

Key definitions: `Workspace.Load.Ensures`.
Key theorems: `Workspace.ensures_toSystem`, `solve?_eq_some`, `exists_of_check?_eq_none`,
`check_owned`, `check_unknown`.
-/
import TypeResolution.Proofs.Search.Scope
import TypeResolution.Proofs.Workspace.Steps
import TypeResolution.Workspace.Checking

namespace TypeResolution
namespace Workspace

/-! ### What loading ensures -/

namespace Load

variable {α β : Type} {P : α → Prop} {Q : β → Prop} {m : Load α}

/-- Every result of the step has a property. -/
def Ensures (m : Load α) (P : α → Prop) : Prop :=
  ∀ names a names', m.run.run names = (.ok a, names') → P a

theorem ensures_pure {a : α} (h : P a) : Ensures (pure a) P := by
  rintro names _ _ ⟨⟩
  exact h

theorem ensures_throw (e : LoadError) : Ensures (throw e : Load α) P := by
  rintro names _ _ ⟨⟩

theorem ensures_true (m : Load α) : Ensures m fun _ => True := fun _ _ _ _ => trivial

/-- What is loaded passes a test. -/
theorem exists_loaded {names : NameTable} {test : α → Bool}
    (h : (m.run.run names).1.toOption.any test = true) :
    ∃ a names', m.run.run names = (.ok a, names') ∧ test a = true := by
  rcases heq : m.run.run names with ⟨e | a, names'⟩
  · rw [heq] at h
    cases h
  · rw [heq] at h
    exact ⟨a, names', rfl, h⟩

theorem Ensures.bind {f : α → Load β} (hm : m.Ensures P) (hf : ∀ a, P a → (f a).Ensures Q) :
    (m >>= f).Ensures Q := by
  intro names b names' h
  obtain ⟨a, names₁, ha, hb⟩ := loads_bind.1 h
  exact hf a (hm names a names₁ ha) names₁ b names' hb

theorem ensures_mapM {f : α → Load β} : ∀ (as : List α), (∀ a ∈ as, (f a).Ensures Q) →
    (as.mapM f).Ensures fun bs => ∀ b ∈ bs, Q b
  | [], _ => by
    rw [List.mapM_nil]
    exact ensures_pure fun b hb => by cases hb
  | a :: as, h => by
    obtain ⟨ha, has⟩ := List.forall_mem_cons.1 h
    rw [List.mapM_cons]
    refine ha.bind fun b hb => (ensures_mapM as has).bind fun bs hbs => ensures_pure ?_
    exact List.forall_mem_cons.2 ⟨hb, hbs⟩

end Load

open Load

/-- The types have no variables but the first ones, as many as the unit declares. -/
def Within (varCount : Nat) (types : List Ty) : Prop :=
  ∀ t ∈ types, ∀ v ∈ t.vars, v.index < varCount

theorem within_cons {varCount : Nat} {t : Ty} {types : List Ty} : Within varCount (t :: types) ↔
    (∀ v ∈ t.vars, v.index < varCount) ∧ Within varCount types := List.forall_mem_cons

theorem within_nil (varCount : Nat) : Within varCount [] := fun _ h => by cases h

theorem within_flatMap {α : Type} {varCount : Nat} {items : List α} {f : α → List Ty} :
    Within varCount (items.flatMap f) ↔ ∀ a ∈ items, Within varCount (f a) := by
  unfold Within
  simp only [List.mem_flatMap]
  exact ⟨fun h a ha t ht => h t ⟨a, ha, ht⟩, fun h t ⟨a, ha, ht⟩ => h a ha t ht⟩

section Units

variable (unit : UnitEntry)

theorem ensures_checkVars (t : Ty) :
    (checkVars unit t).Ensures fun _ => ∀ v ∈ t.vars, v.index < unit.varCount := by
  unfold checkVars
  split
  · exact ensures_throw _
  · rename_i hnone
    refine ensures_pure fun v hv => ?_
    have hnot := List.find?_eq_none.1 hnone v hv
    simpa using hnot

theorem ensures_operand (text : String) :
    (operand unit text).Ensures fun t => ∀ v ∈ t.vars, v.index < unit.varCount :=
  (ensures_true _).bind fun t _ => (ensures_checkVars unit t).bind fun _ ht => ensures_pure ht

theorem ensures_operands (l r : String) {f : Ty → Ty → Relation}
    (hf : ∀ a b, (f a b).types = [a, b]) :
    (do return f (← operand unit l) (← operand unit r) : Load Relation).Ensures fun r =>
      Within unit.varCount r.types := by
  refine (ensures_operand unit l).bind fun a ha => (ensures_operand unit r).bind fun b hb =>
    ensures_pure ?_
  rw [hf]
  exact within_cons.2 ⟨ha, within_cons.2 ⟨hb, within_nil _⟩⟩

theorem ensures_toRelation (r : RelationEntry) :
    (r.toRelation unit).Ensures fun r => Within unit.varCount r.types := by
  cases r with
  | equality l r => exact ensures_operands unit l r fun _ _ => rfl
  | subtyping l r => exact ensures_operands unit l r fun _ _ => rfl
  | conformance t traits =>
    refine (ensures_operand unit t).bind fun a ha => (ensures_true _).bind fun _ _ =>
      ensures_pure ?_
    exact within_cons.2 ⟨ha, within_nil _⟩
  | conversion t literal =>
    refine (ensures_operand unit t).bind fun a ha => (ensures_true _).bind fun _ _ =>
      ensures_pure ?_
    exact within_cons.2 ⟨ha, within_nil _⟩
  | returnBinding l r => exact ensures_operands unit l r fun _ _ => rfl
  | valueMember base member t site =>
    refine (ensures_operand unit base).bind fun a ha => (ensures_true _).bind fun _ _ =>
      (ensures_operand unit t).bind fun b hb => ensures_pure ?_
    exact within_cons.2 ⟨ha, within_cons.2 ⟨hb, within_nil _⟩⟩
  | size id description => exact ensures_pure (within_nil _)

theorem ensures_toOverload (o : OverloadEntry) : (o.toOverload unit).Ensures fun o =>
    Within unit.varCount (o.type :: o.candidates.map (·.type)) := by
  have hcandidate : ∀ d ∈ o.candidates, (do
      let c ← d.toCandidate []
      checkVars unit c.type
      return c : Load Candidate).Ensures fun c => ∀ v ∈ c.type.vars, v.index < unit.varCount :=
    fun d _ => (ensures_true _).bind fun c _ =>
      (ensures_checkVars unit c.type).bind fun _ hc => ensures_pure hc
  refine (ensures_mapM o.candidates hcandidate).bind fun candidates hcandidates =>
    (ensures_operand unit o.type).bind fun type htype => (ensures_true _).bind fun _ _ =>
      ensures_pure (within_cons.2 ⟨htype, ?_⟩)
  exact List.forall_mem_map.2 hcandidates

mutual
/-- A constraint that is loaded has declared variables only, down to its innermost ones. -/
theorem ensures_toConstraint : ∀ c : ConstraintEntry,
    (c.toConstraint unit).Ensures fun c => Within unit.varCount c.types
  | .relation r node => by
    unfold ConstraintEntry.toConstraint
    exact (ensures_toRelation unit r).bind fun _ hr => ensures_pure hr
  | .overload o node => by
    unfold ConstraintEntry.toConstraint
    exact (ensures_toOverload unit o).bind fun _ ho => ensures_pure ho
  | .disjunction ms node => by
    unfold ConstraintEntry.toConstraint
    refine (ensures_toMinterms ms).bind fun ms hms => ensures_pure ?_
    show Within unit.varCount (Constraint.typesOfMinterms ms)
    rw [Constraint.typesOfMinterms_eq_flatMap]
    exact within_flatMap.2 fun m hm => within_flatMap.2 (hms m hm)

theorem ensures_toMinterms : ∀ ms : List (Minterm ConstraintEntry),
    (toMinterms unit ms).Ensures fun ms =>
      ∀ m ∈ ms, ∀ c ∈ m.constraints, Within unit.varCount c.types
  | [] => by
    unfold toMinterms
    exact ensures_pure fun m hm => by cases hm
  | ⟨cs, penalty⟩ :: ms => by
    unfold toMinterms
    exact (ensures_toConstraints cs).bind fun cs hcs => (ensures_toMinterms ms).bind fun ms hms =>
      ensures_pure (List.forall_mem_cons.2 ⟨hcs, hms⟩)

theorem ensures_toConstraints : ∀ cs : List ConstraintEntry,
    (toConstraints unit cs).Ensures fun cs => ∀ c ∈ cs, Within unit.varCount c.types
  | [] => by
    unfold toConstraints
    exact ensures_pure fun c hc => by cases hc
  | c :: cs => by
    unfold toConstraints
    exact (ensures_toConstraint c).bind fun c hc => (ensures_toConstraints cs).bind fun cs hcs =>
      ensures_pure (List.forall_mem_cons.2 ⟨hc, hcs⟩)
end

/-- **A unit that is loaded has declared variables only**, and no seeds. -/
theorem ensures_toSystem : unit.toSystem.Ensures fun system => system.seeds = [] ∧
    ∀ c ∈ system.constraints, Within system.varCount c.types := by
  unfold UnitEntry.toSystem
  split
  · exact Ensures.bind (P := fun _ => False) (ensures_throw _) fun _ h => h.elim
  · exact (ensures_toConstraints unit unit.constraints).bind fun cs hcs => ensures_pure ⟨rfl, hcs⟩

end Units
theorem ensures_toWorkspace (d : Document) : d.toWorkspace.Ensures fun w => ∀ u ∈ w.units,
    u.system.seeds = [] ∧ ∀ c ∈ u.system.constraints, Within u.system.varCount c.types := by
  unfold Document.toWorkspace
  dsimp only
  split
  · exact ensures_throw _
  · refine (ensures_true _).bind fun table _ => ?_
    refine Ensures.bind (ensures_mapM d.units fun entry _ => ?_) fun units hunits =>
      (ensures_true _).bind fun names _ => ensures_pure hunits
    exact (ensures_toSystem entry).bind fun system hsystem => ensures_pure hsystem

end Workspace

open Search Store Workspace

section Solve

variable {ctx : Context} {table : Table} {options : SolverOptions} {system : System}

/-- A run that keeps to the variables of the store has an answer. -/
theorem run?_eq_some : ∀ (steps : Nat) {s : State} {past : List Store},
    Stands ctx (Scoped ctx) s past → ctx.varCount ≤ s.store.size →
    s.run? ctx steps = some (s.run ctx steps)
  | 0, _, _, _, _ => rfl
  | steps + 1, s, past, h, hvars => by
    have howns := h.owns hvars
    unfold State.run? State.run
    rw [if_pos howns]
    cases hstep : s.step ctx with
    | done answer => rfl
    | next s' =>
      obtain ⟨past', honward, -, hstands⟩ := h.step (preserved_scoped ctx) ⟨howns, hstep⟩
      exact run?_eq_some steps hstands (honward.varCount_le h hstands)

/-- **A search in scope has an answer**: it looks up no variable that the store does not have. -/
theorem solve?_eq_some (options : SolverOptions)
    (htable : table.LeavesIn (Store.ofSize system.varCount).HasLeaf) :
    solve? table options system = some (solve table options system) := by
  unfold solve?
  split
  · rename_i s₀ hvalid hseeds
    have hscoped := scoped_start options htable hvalid hseeds
    have hstart := stands_start ⟨table, options, system.varCount⟩ hseeds hscoped
    rw [System.solve_start hvalid hseeds]
    exact run?_eq_some options.maxSteps hstart hscoped.vars
  · rfl

/-- A run without an answer reaches a state that looks up what the store does not have. -/
theorem exists_of_run?_eq_none {start : State} : ∀ (steps : Nat) {s : State} {past : List Store},
    Reached ctx start s past → s.run? ctx steps = none →
    ∃ s' past', Reached ctx start s' past' ∧ s'.owns ctx = false
  | 0, _, _, _, h => by cases h
  | steps + 1, s, past, hreached, h => by
    unfold State.run? at h
    split at h
    · rename_i howns
      split at h
      · cases h
      · rename_i s' hstep
        exact exists_of_run?_eq_none steps (hreached.step ⟨howns, hstep⟩) h
    · rename_i howns
      exact ⟨s, past, hreached, Bool.eq_false_iff.2 howns⟩

theorem exists_of_solve?_eq_none (h : solve? table options system = none) :
    system.validate = [] ∧
      ∃ s₀, System.plant (.ofSize system.varCount) system.seeds = .done s₀ ∧
        ∃ s past, Reached ⟨table, options, system.varCount⟩ (system.start s₀) s past ∧
          s.owns ⟨table, options, system.varCount⟩ = false := by
  unfold solve? at h
  split at h
  · rename_i s₀ hvalid hseeds
    exact ⟨hvalid, s₀, hseeds, exists_of_run?_eq_none options.maxSteps .start h⟩
  · cases h

theorem mapM_eq_some {α β : Type} {f : α → Option β} {g : α → β} : ∀ {as : List α},
    (∀ a ∈ as, f a = some (g a)) → as.mapM f = some (as.map g)
  | [], _ => rfl
  | a :: as, h => by
    obtain ⟨ha, has⟩ := List.forall_mem_cons.1 h
    rw [List.mapM_cons, ha, mapM_eq_some has]
    rfl

theorem exists_of_mapM_eq_none {α β : Type} {f : α → Option β} : ∀ {as : List α},
    as.mapM f = none → ∃ a ∈ as, f a = none
  | a :: as, h => by
    cases ha : f a with
    | none => exact ⟨a, List.mem_cons_self, ha⟩
    | some b =>
      rw [List.mapM_cons, ha] at h
      cases has : as.mapM f with
      | none =>
        obtain ⟨a', ha', hnone⟩ := exists_of_mapM_eq_none has
        exact ⟨a', List.mem_cons_of_mem _ ha', hnone⟩
      | some bs =>
        rw [has] at h
        cases h

end Solve

/-- **Checking that ends without an answer** has come to a unit whose search looks up a variable
that its store does not have. -/
theorem exists_of_check?_eq_none {w : Workspace} (h : w.check? = none) :
    ∃ u ∈ w.units,
      let ctx : Context := ⟨w.table, w.options.solver, u.system.varCount⟩
      u.system.validate = [] ∧
      ∃ s₀, System.plant (.ofSize u.system.varCount) u.system.seeds = .done s₀ ∧
        ∃ s past, Reached ctx (u.system.start s₀) s past ∧ s.owns ctx = false := by
  obtain ⟨u, hu, hnone⟩ := exists_of_mapM_eq_none h
  exact ⟨u, hu, exists_of_solve?_eq_none (Option.map_eq_none_iff.1 hnone)⟩

/-- **Loaded units mention declared variables only, and none but what the store has is looked up**
when they are checked, as long as declared types bring in no others. -/
theorem check_owned {d : Document} {names names' : NameTable} {w : Workspace}
    (h : d.toWorkspace.run.run names = (.ok w, names')) :
    (∀ u ∈ w.units, ∀ c ∈ u.system.constraints, ∀ t ∈ c.types, ∀ v ∈ t.vars,
      v.index < u.system.varCount) ∧
    (∀ u ∈ w.units, w.table.LeavesIn (Store.ofSize u.system.varCount).HasLeaf →
      let ctx : Context := ⟨w.table, w.options.solver, u.system.varCount⟩
      (u.system.validate = [] → ∀ s past,
        Reached ctx (u.system.start (.ofSize u.system.varCount)) s past → s.owns ctx = true) ∧
      solve? w.table w.options.solver u.system =
        some (solve w.table w.options.solver u.system)) ∧
    ((∀ u ∈ w.units, w.table.LeavesIn (Store.ofSize u.system.varCount).HasLeaf) →
      w.check? = some w.check) := by
  have hloaded := ensures_toWorkspace d names w names' h
  refine ⟨fun u hu => (hloaded u hu).2, fun u hu htable => ⟨fun hvalid s past hreached => ?_,
    solve?_eq_some w.options.solver htable⟩, fun htable => ?_⟩
  · have hseeds : System.plant (.ofSize u.system.varCount) u.system.seeds =
        .done (.ofSize u.system.varCount) := by
      rw [(hloaded u hu).1]
      rfl
    have hscoped := scoped_start w.options.solver htable hvalid hseeds
    have hstart := stands_start ⟨w.table, w.options.solver, u.system.varCount⟩ hseeds hscoped
    exact (hreached.stands (preserved_scoped _) hstart).owns
      (hreached.varCount_le hstart hscoped.vars)
  · unfold Workspace.check? Workspace.check
    refine mapM_eq_some fun u hu => ?_
    rw [solve?_eq_some w.options.solver (htable u hu)]
    rfl

/-- A member whose type is declared brings in no variable. -/
theorem check_owned_member :
    let member : DeclEntry := ⟨some "x", 1, "A", [], 0⟩
    let unit : UnitEntry := ⟨"u", 1, [.relation (.valueMember "A" "x" "?0" 1) none]⟩
    let d : Document := ⟨none, { types := [⟨"A", [], [], [], [member]⟩] }, [unit]⟩
    ∃ w names, d.toWorkspace.run.run .empty = (.ok w, names) ∧ w.table.Ground ∧
      w.check? = some w.check ∧ w.check.map (·.isSuccess) = [true] := by
  intro member unit d
  have hrun : (d.toWorkspace.run.run .empty).1.toOption.any (fun w =>
      (w.table.types.all fun d => d.supertypes.all (·.vars.isEmpty) &&
        d.members.all (·.2.type.vars.isEmpty)) && w.table.traits.isEmpty &&
        w.table.literalDefaults.isEmpty && w.check.map (·.isSuccess) == [true]) = true := by
    decide +kernel
  obtain ⟨w, names, hload, htest⟩ := Load.exists_loaded hrun
  simp only [Bool.and_eq_true, List.all_eq_true, List.isEmpty_iff, beq_iff_eq] at htest
  obtain ⟨⟨⟨htypes, htraits⟩, hdefaults⟩, hsuccess⟩ := htest
  have hground : w.table.Ground := by
    refine ⟨fun d hd => (htypes d hd).1, fun d hd => (htypes d hd).2, ?_, ?_⟩
    · simp [htraits]
    · simp [hdefaults]
  obtain ⟨-, -, hcheck⟩ := check_owned hload
  refine ⟨w, names, hload, hground, hcheck fun u _ => ?_, hsuccess⟩
  exact (hground.leavesIn []).mono fun l hl v hv => absurd (hl v hv) List.not_mem_nil

/-- A variable in the type of a member is not one of the unit: it is looked up, and the program ends
without an answer. -/
theorem check_unknown :
    let member : DeclEntry := ⟨some "x", 1, "?5", [], 0⟩
    let unit : UnitEntry := ⟨"u", 1, [.relation (.valueMember "A" "x" "?0" 1) none]⟩
    let d : Document := ⟨none, { types := [⟨"A", [], [], [], [member]⟩] }, [unit]⟩
    ∃ w names, d.toWorkspace.run.run .empty = (.ok w, names) ∧ w.check? = none ∧
      ∃ u ∈ w.units,
        let ctx : Context := ⟨w.table, w.options.solver, u.system.varCount⟩
        u.system.validate = [] ∧
        ∃ s₀, System.plant (.ofSize u.system.varCount) u.system.seeds = .done s₀ ∧
          ∃ s past, Reached ctx (u.system.start s₀) s past ∧ s.owns ctx = false := by
  intro member unit d
  have hrun : (d.toWorkspace.run.run .empty).1.toOption.any (fun w => w.check?.isNone) = true := by
    decide +kernel
  obtain ⟨w, names, hload, htest⟩ := Load.exists_loaded hrun
  have hnone := Option.isNone_iff_eq_none.1 htest
  exact ⟨w, names, hload, hnone, exists_of_check?_eq_none hnone⟩

end TypeResolution
