/-
# No parameter escapes

Generic parameters belong to declarations. They come into a search with the signatures of
candidates, the members of a type that is written without arguments, the supertypes of such a type,
and the requirements of traits, and each of these is opened where it is met: a variable stands for
the parameter from then on. So a variable is never bound to a type with a parameter in it, however
far the search has come and whether or not the path that it is on fails. Only the default types of
literals are taken as they are declared, and are asked to be without parameters.

A solution therefore has neither variables nor parameters in it: what is unknown at the end of a
path is told as incomplete, and what is known has no parameter (`search_closed`). Nothing is
supposed about the variables that declared types mention, nor about the table otherwise.

Key definitions: `Ty.Opened`.
Key theorems: `Search.preserved_enclosed`, `Search.Reached.keeps`, `Search.Reached.bindsOnly`,
`System.bindsOnly_reached`, `System.leavesIn_of_solve`, `search_closed`.
-/
import TypeResolution.Proofs.Search.Scope
import TypeResolution.Proofs.Search.Solutions

namespace TypeResolution

/-- What is left of a type in which parameters have been opened: no leaf is a parameter. -/
def Ty.Opened (l : Ty) : Prop := ∀ p, l ≠ .param p

namespace Ty

variable {t : Ty}

theorem leavesIn_opened_iff : t.LeavesIn Opened ↔ t.params = [] := by
  refine ⟨fun h => List.eq_nil_iff_forall_not_mem.2 fun p hp => ?_, fun h l hl p heq => ?_⟩
  · exact h _ (mem_params_iff.1 hp) p rfl
  · subst heq
    have hp := mem_params_iff.2 hl
    rw [h] at hp
    cases hp

/-- With parameters let in, nothing is asked of a type. -/
theorem leavesIn_orParam_opened (t : Ty) : t.LeavesIn (OrParam Opened) := by
  intro l _
  by_cases h : ∃ p, l = .param p
  · exact .inr h
  · exact .inl fun p heq => h ⟨p, heq⟩

end Ty

/-- Of a table only the default types of literals are asked to be without parameters. -/
theorem Table.leavesIn_opened {table : Table}
    (h : ∀ p ∈ table.literalDefaults, p.2.params = []) : table.LeavesIn Ty.Opened where
  supertypes _ _ sup _ := sup.leavesIn_orParam_opened
  members _ _ m _ := m.2.type.leavesIn_orParam_opened
  requirements _ _ r _ := r.2.type.leavesIn_orParam_opened
  literalDefaults p hp := Ty.leavesIn_opened_iff.2 (h p hp)

namespace System

variable {system : System} {count : Nat}

theorem opened_of_operandProblem {t : Ty} (h : operandProblem count false t = none) :
    t.LeavesIn Ty.Opened :=
  Ty.leavesIn_opened_iff.2 ((operandProblem_eq_none_iff.1 h).2.1 rfl)

theorem opened_of_constraintErrors {c : Constraint} (h : constraintErrors count c = []) :
    c.LeavesIn Ty.Opened := by
  induction c with
  | relation r l =>
    unfold constraintErrors at h
    have hnone := List.filterMap_eq_nil_iff.1 (List.map_eq_nil_iff.1 h)
    exact .relation (.of_types fun t ht => opened_of_operandProblem (hnone t ht))
  | overload o l =>
    unfold constraintErrors overloadProblems at h
    have htype := (List.append_eq_nil_iff.1 (List.map_eq_nil_iff.1 h)).1
    exact .overload (opened_of_operandProblem (Option.toList_eq_nil_iff.1 htype))
      fun c _ => c.type.leavesIn_orParam_opened
  | disjunction ms l ih =>
    unfold constraintErrors at h
    have hms := (List.append_eq_nil_iff.1 h).2
    rw [mintermErrors_eq_flatMap, List.flatMap_eq_nil_iff] at hms
    exact .disjunction fun m hm c hc =>
      ih m hm c hc (List.flatMap_eq_nil_iff.1 (hms m hm) c hc)

/-- A system that makes sense has parameters in the signatures of candidates only. -/
theorem opened_constraints (h : system.validate = []) :
    ∀ c ∈ system.constraints, c.LeavesIn Ty.Opened := by
  have hall := (List.append_eq_nil_iff.1 h).1
  rw [allErrors_eq_flatMap] at hall
  exact fun c hc => opened_of_constraintErrors (List.flatMap_eq_nil_iff.1 hall c hc)

theorem opened_seeds (h : system.validate = []) :
    ∀ seed ∈ system.seeds, seed.2.LeavesIn Ty.Opened := by
  intro seed hseed
  have hall := List.map_eq_nil_iff.1 (List.append_eq_nil_iff.1 h).2
  have hnone := List.filterMap_eq_nil_iff.1 hall seed hseed
  unfold seedProblem at hnone
  split at hnone
  · cases hnone
  · exact opened_of_operandProblem hnone

end System

namespace Search

open Store

variable {ctx : Context} {Q : Ty → Prop} {E : Relation → Prop} {start s s' : State}
variable {past past' : List Store}

section Enclosed

variable (htable : ctx.table.LeavesIn Q) (hE : Harmless ctx.table Q E)
include htable hE

/-- **Following a path keeps to the kind.** -/
theorem preserved_enclosed : Preserved ctx (Enclosed Q E) where
  congr hslots h := ⟨h.keeps.congr hslots, h.pending⟩
  simplify h hturn _ hsimp := h.simplify htable hE hturn hsimp
  enter h hturn ha := by
    obtain ⟨i, hi⟩ := List.getElem?_of_mem ha
    exact h.enter hturn hi

/-- A step keeps the store to the kind, also where the path fails. -/
theorem Onward.keeps (h : Onward ctx s past s' past') (hs : Stands ctx (Enclosed Q E) s past)
    (hs' : Stands ctx (Enclosed Q E) s' past') : s'.store.Keeps Q := by
  cases h with
  | @simplify w rest goal hpath hturn heq =>
    have hw := hs.path w hpath
    have hgoal := (hw.turn htable hE hturn).1
    have hkeeps := (hE.simplify (l := goal.locator) htable hw.keeps hgoal).1
    rw [← store_pathSimplify ctx goal rest] at hkeeps
    rw [heq]
    exact hkeeps
  | enter _ _ _ henters => exact (hs'.path _ henters.path).keeps

/-- **In every state that is reached** the store keeps to the kind. -/
theorem Reached.keeps (hstart : Stands ctx (Enclosed Q E) start []) (hstore : start.store.Keeps Q)
    (h : Reached ctx start s past) : s.store.Keeps Q := by
  have hI := preserved_enclosed htable hE
  induction h with
  | start => exact hstore
  | @step s s' past h hgoes _ =>
    have hstands := h.stands hI hstart
    obtain ⟨past', -, honward, hstands'⟩ := h.next hI hstands hgoes
    exact honward.keeps htable hE hstands hstands'

end Enclosed

/-- Variables are bound to types of the kind only. -/
theorem Reached.bindsOnly (hvar : ∀ v, Q (.var v)) (htable : ctx.table.LeavesIn Q)
    (hstart : Stands ctx (Confined Q) start []) (hbinds : start.store.BindsOnly (Ty.LeavesIn Q))
    (h : Reached ctx start s past) : s.store.BindsOnly (Ty.LeavesIn Q) := by
  have hconfined : Confined Q = Enclosed Q fun _ => False :=
    funext₂ fun s w => propext (confined_iff hvar)
  rw [hconfined] at hstart
  exact (h.keeps htable harmless_none hstart (.of_vars hvar hbinds)).binds

end Search

open Search Store

variable {table : Table} {options : SolverOptions} {system : System} {Q : Ty → Prop}

section Kind

variable (hvar : ∀ v, Q (.var v)) (htable : table.LeavesIn Q)
variable (hseeds : ∀ seed ∈ system.seeds, seed.2.LeavesIn Q)
variable (hconstraints : ∀ c ∈ system.constraints, c.LeavesIn Q)
include hvar htable hseeds hconstraints

/-- In every state that is reached variables are bound to types of the kind, if the system and the
table have no others. -/
theorem System.bindsOnly_reached {s₀ : Store} {s : State} {past : List Store}
    (hplant : System.plant (.ofSize system.varCount) system.seeds = .done s₀)
    (h : Reached ⟨table, options, system.varCount⟩ (system.start s₀) s past) :
    s.store.BindsOnly (Ty.LeavesIn Q) := by
  have hplanted := System.bindsOnly_plant (Ty.hereditary_leavesIn hvar) system.seeds
    (bindsOnly_ofSize system.varCount _) hseeds
  rw [hplant] at hplanted
  have hstart : Confined Q s₀ (Work.pushAll {} system.constraints) :=
    ⟨hplanted, fun c hc => hconstraints c ((Work.pending_start _).mem_iff.1 hc)⟩
  exact h.bindsOnly hvar htable (stands_start _ hplant hstart) hplanted

/-- So does a solution give types of the kind. -/
theorem System.leavesIn_of_solve {solution : Solution}
    (h : solve table options system = .ok solution) : ∀ t ∈ solution.types, t.LeavesIn Q := by
  obtain ⟨s₀, f, hway⟩ := System.leaf_of_solve h
  have hbinds := hway.leavesIn hvar htable hseeds hconstraints
  rw [hway.types]
  exact List.forall_mem_map.2 fun v _ =>
    hbinds.leavesIn_apply hvar (Ty.leavesIn_singleton rfl (hvar v))

end Kind

/-- **Solutions are total and closed.** If the default types of literals have no parameters, then
no variable is bound to a type with a parameter in it, in any state that the search of a valid
system reaches. And a solution gives a type to each variable of its system, in which there are
neither variables nor parameters. -/
theorem search_closed (hdefaults : ∀ p ∈ table.literalDefaults, p.2.params = []) :
    (∀ s₀, system.validate = [] →
      System.plant (.ofSize system.varCount) system.seeds = .done s₀ →
      ∀ s past, Reached ⟨table, options, system.varCount⟩ (system.start s₀) s past →
        s.store.BindsOnly fun t => t.params = []) ∧
    ∀ solution, solve table options system = .ok solution →
      solution.types.length = system.varCount ∧
      ∀ t ∈ solution.types, t.vars = [] ∧ t.params = [] := by
  have hvar : ∀ v, Ty.Opened (.var v) := fun v p => nofun
  have htable := Table.leavesIn_opened hdefaults
  refine ⟨fun s₀ hvalid hseeds s past h => ?_, fun solution h => ?_⟩
  · have hbinds := System.bindsOnly_reached hvar htable (System.opened_seeds hvalid)
      (System.opened_constraints hvalid) hseeds h
    exact fun v t ht => Ty.leavesIn_opened_iff.1 (hbinds v t ht)
  · obtain ⟨s₀, f, hway⟩ := System.leaf_of_solve h
    have hleaves := System.leavesIn_of_solve hvar htable (System.opened_seeds hway.valid)
      (System.opened_constraints hway.valid) h
    rw [hway.types] at hleaves ⊢
    refine ⟨by simp [System.vars], List.forall_mem_map.2 fun v hv => ⟨hway.ground v hv, ?_⟩⟩
    exact Ty.leavesIn_opened_iff.1 (hleaves _ (List.mem_map_of_mem hv))

/-- A candidate whose signature has a parameter is opened, and the variable that stands for the
parameter is bound. -/
theorem search_closed_generic :
    let candidate : Candidate := ⟨⟨7⟩, .tuple [.param ⟨0⟩, .param ⟨0⟩], [⟨⟨0⟩, []⟩], 0⟩
    let overload : Overload := ⟨.tuple [.tuple [], .var ⟨0⟩], ⟨0⟩, ⟨5⟩, [candidate]⟩
    let system : System := ⟨1, [.overload overload none], []⟩
    let table := Table.ofNames .empty
    (∀ p ∈ table.literalDefaults, p.2.params = []) ∧ system.validate = [] ∧
      System.plant (.ofSize system.varCount) system.seeds = .done (.ofSize 1) ∧
      (∃ s past, Reached ⟨table, {}, 1⟩ (system.start (.ofSize 1)) s past ∧
        s.store.slot? ⟨1⟩ = some (.bound (.tuple [])) ∧
        s.store.BindsOnly fun t => t.params = []) ∧
      ∃ solution, solve table {} system = .ok solution ∧ solution.types = [.tuple []] ∧
        solution.types.length = system.varCount ∧
        ∀ t ∈ solution.types, t.vars = [] ∧ t.params = [] := by
  intro candidate overload system table
  have hdefaults : ∀ p ∈ table.literalDefaults, p.2.params = [] := nofun
  have hvalid : system.validate = [] := by decide
  obtain ⟨hreached, hsolved⟩ := @search_closed table {} system hdefaults
  refine ⟨hdefaults, hvalid, rfl, ?_, ?_⟩
  · obtain ⟨s, t, hs, ht, hbound⟩ : ∃ s t,
        Goes ⟨table, {}, 1⟩ (system.start (.ofSize 1)) s ∧ Goes ⟨table, {}, 1⟩ s t ∧
        t.store.slot? ⟨1⟩ = some (.bound (.tuple [])) :=
      ⟨_, _, ⟨by cbv, by cbv⟩, ⟨by cbv, by cbv⟩, by cbv⟩
    exact ⟨t, _, .step (.step .start hs) ht, hbound,
      hreached _ hvalid rfl _ _ (.step (.step .start hs) ht)⟩
  · obtain ⟨solution, hsolve, htypes⟩ : ∃ solution,
        solve table {} system = .ok solution ∧ solution.types = [.tuple []] :=
      ⟨_, by cbv, by cbv⟩
    exact ⟨solution, hsolve, htypes, hsolved solution hsolve⟩

end TypeResolution
