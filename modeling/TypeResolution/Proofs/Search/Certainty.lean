/-
# What is certain before anything is chosen

When a search comes to its first choice, it keeps the types that the variables have in the store.
After that it never goes back behind this store: a snapshot that is restored leads back to where an
open branch was met, and each branch was met on a path that goes on from the first choice. On such
a path the store is only refined, so an assignment that solves it solves the first store too
(`Search.Refined`). What the variables stand for at the end of the path is such an assignment.

So every solution that is kept is an instance of what was certain, by one substitution for all
variables (`Instantiates`, `Search.Certain`). In particular solutions that are equally good share
the types in which nothing was left open (`search_certain`). If the search ends before it has come
to a choice, there are no solutions that could differ. As elsewhere, states are reached by steps
that look up nothing but what the store has.

Key definitions: `Instantiates`, `Search.Refined`, `Search.State.tied`, `Search.State.Chooses`,
`Search.Certain`.
Key theorems: `Search.preserved_refined`, `Search.Certain.instantiates`, `Search.Certain.step`,
`Search.Certain.tied`, `Search.State.reached_of_run?`, `search_certain`.
-/
import TypeResolution.Proofs.Search.Explanations
import TypeResolution.Proofs.Search.Iterations

namespace TypeResolution

/-- One substitution of types for variables makes the types out of those that were certain. -/
def Instantiates (certain types : List Ty) : Prop :=
  ∃ τ : TyVar → Ty, types = certain.map (·.mapVars τ)

/-- A type in which nothing was left open is kept. -/
theorem Instantiates.shared {certain types : List Ty} {i : Nat} {t : Ty}
    (h : Instantiates certain types) (hi : certain[i]? = some t) (ht : t.vars = []) :
    types[i]? = some t := by
  obtain ⟨τ, rfl⟩ := h
  rw [List.getElem?_map, hi, Option.map_some, Ty.mapVars_eq_self ht]

namespace Search

open Store

variable {ctx : Context} {g s s' : Store} {w w' rest : Work}

/-! ### Refined stores -/

/-- What solves the store solves the earlier one. -/
structure Refined (g s : Store) : Prop where
  wellFormed : s.WellFormed
  solves : ∀ σ, s.SolvedBy σ → g.SolvedBy σ

theorem Refined.refl (hs : s.WellFormed) : Refined s s := ⟨hs, fun _ h => h⟩

theorem Refined.moves (h : Refined g s) (hm : Moves s s') : Refined g s' :=
  ⟨hm.wellFormed h.wellFormed, fun σ hσ => h.solves σ (hm.solved hσ)⟩

theorem Refined.of_slots_eq (h : Refined g s) (hslots : s.slots = s'.slots) : Refined g s' := by
  refine ⟨h.wellFormed.of_slots_eq hslots, fun σ hσ => h.solves σ (hσ.of_slots fun v c _ hv => ?_)⟩
  rw [← hv]
  exact congrArg (·[v.index]?) hslots.symm

/-- **Following a path** refines the store. -/
theorem preserved_refined (ctx : Context) (g : Store) : Preserved ctx fun s _ => Refined g s where
  congr hslots h := h.of_slots_eq hslots
  simplify {s s' _ _ rest goal} h hturn howns hsimp := by
    have hmoves := moves_simplify (l := goal.locator) h.wellFormed howns
    rw [← store_pathSimplify ctx goal rest, hsimp] at hmoves
    exact h.moves hmoves
  enter h _ _ := h.moves (moves_enter _ _ _)

/-- **What the variables stand for** in the store is an instance of what they stood for before. -/
theorem Refined.instantiates (h : Refined g s) (hg : g.WellFormed) (hvars : ctx.varCount ≤ g.size) :
    Instantiates (ctx.bindings g) (ctx.bindings s) := by
  refine ⟨fun v => s.apply (.var v), ?_⟩
  unfold Context.bindings
  rw [List.map_map]
  refine List.map_congr_left fun v hv => ?_
  have hhas : g.Has v := (mem_vars_below.1 hv).trans_le hvars
  exact ((h.solves _ h.wellFormed.solved).apply hg (covers_var.2 hhas)).symm

/-! ### What is kept -/

variable {start s s' : State} {past : List Store} {certain : List Ty} {f : Found}
variable {result : Except Unsolved Solution}

/-- Among the solutions that are kept when the next step has been taken, the best ones, of which no
two agree. -/
def State.tied (ctx : Context) (s : State) : List Found :=
  distinct (ofLowestRank (s.kept ctx).reverse)

/-- The path comes to a choice. -/
def State.Chooses (ctx : Context) (s : State) : Prop :=
  ∃ w point rest, s.path = .open w ∧ w.turn ctx s.store = .choose point rest

theorem kept_of_simplify {goal : Goal} (hpath : s.path = .open w)
    (hturn : w.turn ctx s.store = .simplify goal rest) :
    s.kept ctx = s.found ∧ s.captured ctx = s.certain := by
  unfold State.kept State.captured
  rw [hpath]
  dsimp only
  rw [hturn]
  exact ⟨rfl, rfl⟩

theorem kept_of_chooses (h : s.Chooses ctx) :
    s.kept ctx = s.found ∧ s.captured ctx = (s.certain <|> some (ctx.bindings s.store)) := by
  obtain ⟨w, point, rest, hpath, hturn⟩ := h
  unfold State.kept State.captured
  rw [hpath]
  dsimp only
  rw [hturn]
  exact ⟨rfl, rfl⟩

theorem captured_of_certain (h : s.certain = some certain) : s.captured ctx = some certain := by
  unfold State.captured
  split
  · exact h
  · split
    · rw [h]
      rfl
    · exact h

/-- A step that does not end the search simplifies a goal, or goes on from the end of a path with
what is kept. Where no branch was open there is one then only because of a choice. -/
theorem step_next (h : s.step ctx = .next s') :
    (∃ w goal rest, s.path = .open w ∧ w.turn ctx s.store = .simplify goal rest ∧
      s' = s.simplify ctx goal rest) ∨
    ∃ store failure branches,
      resume ctx (s.kept ctx) (s.captured ctx) store s.pruned failure branches = .next s' ∧
      (s.branches = [] → branches ≠ [] → s.Chooses ctx) := by
  unfold State.step at h
  unfold State.captured State.kept State.Chooses
  cases hpath : s.path with
  | failed failure =>
    rw [hpath] at h
    exact .inr ⟨_, _, _, h, fun hnil hne => absurd hnil hne⟩
  | «open» w =>
    rw [hpath] at h
    dsimp only at h ⊢
    cases hturn : w.turn ctx s.store with
    | simplify goal rest =>
      rw [hturn] at h
      exact .inl ⟨w, goal, rest, rfl, hturn, (Advance.next.inj h).symm⟩
    | choose point rest =>
      rw [hturn] at h
      exact .inr ⟨_, _, _, h, fun _ _ => ⟨w, point, rest, rfl, hturn⟩⟩
    | fail e =>
      rw [hturn] at h
      exact .inr ⟨_, _, _, h, fun hnil hne => absurd hnil hne⟩
    | complete =>
      rw [hturn] at h
      exact .inr ⟨_, _, _, h, fun hnil hne => absurd (by simp [hnil]) hne⟩

/-- The next state has what is kept when the step has been taken. -/
theorem keeps_step (h : s.step ctx = .next s') :
    s'.certain = s.captured ctx ∧ s'.found = s.kept ctx := by
  rcases step_next h with ⟨w, goal, rest, hpath, hturn, rfl⟩ | ⟨store, failure, branches, h, -⟩
  · obtain ⟨hkept, hcaptured⟩ := kept_of_simplify hpath hturn
    exact ⟨hcaptured.symm, hkept.symm⟩
  · exact (resume_keeps h).2

/-- As long as no branch is open, the search goes on with goals until it comes to a choice. -/
theorem step_of_unbranched (h : s.step ctx = .next s') (hbranches : s.branches = []) :
    (s'.branches = [] ∧ s.kept ctx = s.found ∧ s.captured ctx = s.certain) ∨ s.Chooses ctx := by
  rcases step_next h with ⟨w, goal, rest, hpath, hturn, rfl⟩ |
    ⟨store, failure, branches, h, hchooses⟩
  · exact .inl ⟨hbranches, kept_of_simplify hpath hturn⟩
  · exact .inr (hchooses hbranches (resume_keeps h).1)

/-- Either nothing was chosen so far, or the search goes on from the store in which the first choice
was met. Then what is certain is what was known in this store, and all solutions are instances of
it. -/
inductive Certain (ctx : Context) (s : State) (past : List Store) : Prop where
  | unbranched : s.certain = none → s.branches = [] → s.found = [] → Stands ctx (Ample ctx) s past →
      Certain ctx s past
  | branched {g : Store} : g.WellFormed → ctx.varCount ≤ g.size →
      s.certain = some (ctx.bindings g) → Stands ctx (fun s _ => Refined g s) s past →
      (∀ f ∈ s.found, Instantiates (ctx.bindings g) f.types) → Certain ctx s past

/-- What is preserved on a path holds in the next state, with the stores of its branches. -/
theorem Stands.next {I : Store → Work → Prop} (hI : Preserved ctx I) (h : Stands ctx I s past)
    (hgoes : Goes ctx s s') : Stands ctx I s' ((s.met ctx past).rtake s'.branches.length) := by
  obtain ⟨past', -, hsuffix, hstands⟩ := h.step hI hgoes
  rw [hstands.rtake_met hsuffix]
  exact hstands

/-- **On every path** the types of the variables are an instance of what was certain at the first
choice, and so they are in every solution that is kept. -/
theorem Certain.instantiates (h : Certain ctx s past) (hcertain : s.certain = some certain) :
    (∀ w, s.path = .open w → Instantiates certain (ctx.bindings s.store)) ∧
      ∀ f, f ∈ s.found ∨ f ∈ s.kept ctx → Instantiates certain f.types := by
  cases h with
  | unbranched hnone => cases hnone.symm.trans hcertain
  | @branched g hg hvars hsome hstands hfound =>
    obtain rfl := Option.some.inj (hsome.symm.trans hcertain)
    have hpath : ∀ w, s.path = .open w → Instantiates (ctx.bindings g) (ctx.bindings s.store) :=
      fun w hw => (hstands.path w hw).instantiates hg hvars
    refine ⟨hpath, fun f hf => hf.elim (hfound f) fun hf => ?_⟩
    unfold State.kept at hf
    split at hf
    · exact hfound f hf
    · rename_i w hw
      split at hf
      · rcases mem_keep hf with rfl | hf
        · exact hpath w hw
        · exact hfound f hf
      · exact hfound f hf

/-- **A step** does not go back behind the first choice. -/
theorem Certain.step (h : Certain ctx s past) (hgoes : Goes ctx s s') :
    Certain ctx s' ((s.met ctx past).rtake s'.branches.length) := by
  obtain ⟨hcertain', hfound'⟩ := keeps_step hgoes.2
  cases h with
  | unbranched hcertain hbranches hfound hstands =>
    rcases step_of_unbranched hgoes.2 hbranches with ⟨hbranches', hkept, hcaptured⟩ | hchooses
    · exact .unbranched (hcertain'.trans (hcaptured.trans hcertain)) hbranches'
        (hfound'.trans (hkept.trans hfound)) (hstands.next (preserved_ample ctx) hgoes)
    · -- From here on the search goes on from the present store.
      obtain ⟨hkept, hcaptured⟩ := kept_of_chooses hchooses
      obtain ⟨w, point, rest, hpath, -⟩ := hchooses
      have hample := hstands.path w hpath
      have hs := hample.watchful.wellFormed
      have hrefined : Stands ctx (fun s' _ => Refined s.store s') s past := by
        refine ⟨hstands.back, hstands.depth, fun _ _ => .refl hs, ?_⟩
        have hpast := hstands.branches
        rw [hbranches] at hpast ⊢
        cases hpast
        exact .nil
      refine .branched hs hample.vars ?_ (hrefined.next (preserved_refined ctx _) hgoes) ?_
      · rw [hcertain', hcaptured, hcertain]
        rfl
      · rw [hfound', hkept, hfound]
        nofun
  | @branched g hg hvars hsome hstands hfound =>
    obtain ⟨-, hkept⟩ := Certain.instantiates (.branched hg hvars hsome hstands hfound) hsome
    refine .branched hg hvars (hcertain'.trans (captured_of_certain hsome))
      (hstands.next (preserved_refined ctx g) hgoes) ?_
    rw [hfound']
    exact fun f hf => hkept f (.inr hf)

/-- **In every state that is reached** what is certain has been kept since the first choice. -/
theorem Reached.keepsCertain (hstart : Certain ctx start []) (h : Reached ctx start s past) :
    Certain ctx s past := by
  induction h with
  | start => exact hstart
  | step _ hgoes ih => exact ih.step hgoes

theorem Reached.visits (h : Reached ctx start s past) : Visits ctx start s := by
  induction h with
  | start => exact .refl
  | step _ hgoes ih => exact ih.tail hgoes.2

/-! ### Answers -/

/-- An answer is given in a state that is reached, or when the steps have run out. -/
theorem State.reached_of_run? (steps : Nat) {s : State} {past : List Store}
    (h : Reached ctx start s past) (hrun : s.run? ctx steps = some result) :
    ∃ s' past', Reached ctx start s' past' ∧
      (s'.step ctx = .done result ∨ result = s'.outOfSteps ctx) := by
  induction steps generalizing s past with
  | zero =>
    obtain rfl := Option.some.inj hrun
    refine ⟨s, past, h, ?_⟩
    unfold State.run
    cases s.step ctx with
    | done answer => exact .inl rfl
    | next s' => exact .inr rfl
  | succ steps ih =>
    unfold State.run? at hrun
    split at hrun
    · rename_i howns
      split at hrun
      · rename_i answer hdone
        obtain rfl := Option.some.inj hrun
        exact ⟨s, past, h, .inl hdone⟩
      · rename_i s' hnext
        exact ih (h.step ⟨howns, hnext⟩) hrun
    · cases hrun

section Answer

variable {store : Store} {found : List Found} {pruned : Bool} {kept : Option (List Ty)}
variable {failure : Option Failure} {solution : Solution} {u : Unsolved} {e : TypeError}

/-- A solution that is given is one that is kept. -/
theorem exists_of_answer_ok (h : answer ctx store found pruned kept failure = .ok solution) :
    ∃ f ∈ found, solution = f.toSolution := by
  unfold answer at h
  dsimp only at h
  split at h
  · split at h
    · cases h
    · split at h <;> cases h
  · rename_i f hone
    obtain rfl := Except.ok.inj h
    exact ⟨f, mem_of_mem_winners (hone ▸ List.mem_cons_self), rfl⟩
  · cases h

/-- An ambiguity is told of at least two solutions. -/
theorem exists_of_answer_ambiguous (hfailure : ∀ f, failure = some f → ¬ IsAmbiguity f.error)
    (h : answer ctx store found pruned kept failure = .error u) (he : e ∈ u.errors)
    (hambiguous : IsAmbiguity e) :
    ∃ first others, distinct (ofLowestRank found.reverse) = first :: others ∧ others ≠ [] ∧
      u = ⟨[ambiguity first (first :: others)], kept.getD (ctx.bindings store)⟩ := by
  have hone : ∀ {e' : TypeError} {types : List Ty}, ¬ IsAmbiguity e' →
      (.error ⟨[e'], types⟩ : Except Unsolved Solution) ≠ .error u := by
    rintro e' types hnot ⟨⟩
    rw [List.mem_singleton.1 he] at hambiguous
    exact hnot hambiguous
  unfold answer at h
  dsimp only at h
  split at h
  · split at h
    · exact absurd h (hone (hfailure _ rfl))
    · split at h
      · exact absurd h (hone id)
      · exact absurd h (hone id)
  · cases h
  · rename_i first others hne hmany
    exact ⟨first, others, hmany, hne, (Except.error.inj h).symm⟩

end Answer

/-- One solution is not tied with others. -/
theorem tied_of_unbranched (ctx : Context) (hfound : s.found = []) :
    s.tied ctx = [] ∨ ∃ f, s.tied ctx = [f] := by
  have hone : ∀ f : Found, distinct (ofLowestRank [f]) = [f] := by
    intro f
    simp [ofLowestRank, distinct, dropAgreeing, f.rankLe_refl]
  have hkept : s.kept ctx = [] ∨ ∃ f, s.kept ctx = [f] := by
    unfold State.kept
    rw [hfound]
    split
    · exact .inl rfl
    · split
      · exact .inr ⟨_, rfl⟩
      · exact .inl rfl
  unfold State.tied
  rcases hkept with hkept | ⟨f, hkept⟩
  · rw [hkept]
    exact .inl rfl
  · rw [hkept]
    exact .inr ⟨f, hone f⟩

/-- **Solutions that are tied** are instances of what was certain at the first choice; there was
one, since otherwise the search ends with the first solution. -/
theorem Certain.tied {first : Found} {others : List Found} (h : Certain ctx s past)
    (htied : s.tied ctx = first :: others) (hne : others ≠ []) :
    ∃ certain, s.certain = some certain ∧ ∀ f ∈ s.tied ctx, Instantiates certain f.types := by
  cases hcertain : s.certain with
  | some certain =>
    refine ⟨certain, rfl, fun f hf => (h.instantiates hcertain).2 f (.inr ?_)⟩
    exact mem_of_mem_winners hf
  | none =>
    cases h with
    | branched _ _ hsome => cases hcertain.symm.trans hsome
    | unbranched _ _ hfound =>
      exfalso
      rcases tied_of_unbranched ctx hfound with hnone | ⟨f, hone⟩
      · cases htied.symm.trans hnone
      · exact hne (List.cons.inj (htied.symm.trans hone)).2

end Search

open Search

variable {table : Table} {options : SolverOptions} {system : System} {s₀ : Store}

theorem certain_start (options : SolverOptions) (hvalid : system.validate = [])
    (hseeds : System.plant (.ofSize system.varCount) system.seeds = .done s₀) :
    Certain ⟨table, options, system.varCount⟩ (system.start s₀) [] :=
  .unbranched rfl rfl rfl (regular_start options hvalid hseeds).stands

/-- When the search ends, its answer is made of the solutions that are kept, and no failure that is
told is an ambiguity. -/
theorem answers_of_reached {s : State} {past : List Store} {result : Except Unsolved Solution}
    (hvalid : system.validate = []) :
    let ctx : Context := ⟨table, options, system.varCount⟩
    Reached ctx (system.start s₀) s past → s.step ctx = .done result →
      ∃ store pruned failure, (∀ f, failure = some f → ¬ IsAmbiguity f.error) ∧
        result = answer ctx store (s.kept ctx) pruned (s.captured ctx) failure := by
  intro ctx h hdone
  have hI := upheld_watching ctx
  have hs := (upholds_start options hvalid (watching_start _)).visits hI h.visits fun _ _ => trivial
  have hleads := hs.step hI trivial
  rw [hdone] at hleads
  obtain ⟨store, pruned, failure, haccounts, heq⟩ := hleads
  exact ⟨store, pruned, failure, fun f hf => (haccounts.told f hf).not_isAmbiguity, heq⟩

/-- **What was certain before the first choice stays so.** The types of the variables are kept when
the search comes to its first choice, before it has found anything, and not changed any more. On
every path after that, the types of the variables are an instance of them, by one substitution; so
are the solutions that are kept, and the one that is given. If the system is ambiguous, then what is
told to be certain are these types, and those that have no variables are the same in all solutions
that are tied. -/
theorem search_certain (hvalid : system.validate = [])
    (hseeds : System.plant (.ofSize system.varCount) system.seeds = .done s₀) :
    let ctx : Context := ⟨table, options, system.varCount⟩
    (∀ s past, Reached ctx (system.start s₀) s past →
      (s.certain = none → s.branches = [] ∧ s.found = [] ∧ ∀ s' certain, Goes ctx s s' →
        s'.certain = some certain → s.Chooses ctx ∧ certain = ctx.bindings s.store) ∧
      ∀ certain, s.certain = some certain →
        (∀ s', Goes ctx s s' → s'.certain = some certain) ∧
        (∀ w, s.path = .open w → Instantiates certain (ctx.bindings s.store)) ∧
        ∀ f, f ∈ s.found ∨ f ∈ s.kept ctx → Instantiates certain f.types) ∧
    ∀ result, solve? table options system = some result →
      ∃ s past, Reached ctx (system.start s₀) s past ∧
        (s.step ctx = .done result ∨ result = s.outOfSteps ctx) ∧
        (∀ solution certain, result = .ok solution → s.certain = some certain →
          Instantiates certain solution.types) ∧
        ∀ u e, result = .error u → e ∈ u.errors → IsAmbiguity e →
          s.certain = some u.certain ∧
          (∃ first others, s.tied ctx = first :: others ∧ others ≠ [] ∧
            e = ambiguity first (first :: others)) ∧
          ∀ f ∈ s.tied ctx, Instantiates u.certain f.types ∧
            ∀ (i : Nat) t, u.certain[i]? = some t → t.vars = [] → f.types[i]? = some t := by
  intro ctx
  have hstart : Certain ctx (system.start s₀) [] := certain_start options hvalid hseeds
  refine ⟨fun s past h => ⟨fun hnone => ?_, fun certain hsome => ⟨?_, ?_⟩⟩, fun result hrun => ?_⟩
  · cases h.keepsCertain hstart with
    | branched _ _ hsome => cases hnone.symm.trans hsome
    | unbranched _ hbranches hfound =>
      refine ⟨hbranches, hfound, fun s' certain hgoes hsome => ?_⟩
      have hcaptured := (keeps_step hgoes.2).1.symm.trans hsome
      rcases step_of_unbranched hgoes.2 hbranches with ⟨-, -, hsame⟩ | hchooses
      · cases (hsame.trans hnone).symm.trans hcaptured
      · rw [(kept_of_chooses hchooses).2, hnone] at hcaptured
        exact ⟨hchooses, (Option.some.inj hcaptured).symm⟩
  · exact fun s' hgoes => (keeps_step hgoes.2).1.trans (captured_of_certain hsome)
  · exact (h.keepsCertain hstart).instantiates hsome
  · unfold solve? at hrun
    rw [hvalid, hseeds] at hrun
    obtain ⟨s, past, h, hend⟩ := State.reached_of_run? options.maxSteps .start hrun
    have hcertain := h.keepsCertain hstart
    refine ⟨s, past, h, hend, ?_⟩
    rcases hend with hdone | rfl
    · obtain ⟨store, pruned, failure, hfailure, rfl⟩ := answers_of_reached hvalid h hdone
      refine ⟨fun solution certain hok hsome => ?_, fun u e herror he hambiguous => ?_⟩
      · obtain ⟨f, hf, rfl⟩ := exists_of_answer_ok hok
        exact (hcertain.instantiates hsome).2 f (.inr hf)
      · obtain ⟨first, others, htied, hne, rfl⟩ :=
          exists_of_answer_ambiguous hfailure herror he hambiguous
        obtain ⟨certain, hsome, hall⟩ := hcertain.tied htied hne
        rw [captured_of_certain hsome]
        exact ⟨hsome, ⟨first, others, htied, hne, List.mem_singleton.1 he⟩,
          fun f hf => ⟨hall f hf, fun i t hi ht => (hall f hf).shared hi ht⟩⟩
    · refine ⟨nofun, ?_⟩
      rintro u e ⟨⟩ he hambiguous
      rw [List.mem_singleton.1 he] at hambiguous
      exact hambiguous.elim

/-- Two solutions are tied that differ in the element of a tuple. That there is a tuple, and what
the last variable is, was certain before. -/
theorem search_certain_tied :
    let unit : Ty := .tuple []
    let choose (type : Ty) : Minterm Constraint :=
      ⟨[.relation (.equality (.var ⟨1⟩) type) none], 0⟩
    let system : System := ⟨3, [.relation (.equality (.var ⟨0⟩) (.tuple [.var ⟨1⟩])) none,
      .relation (.equality (.var ⟨2⟩) unit) none,
      .disjunction [choose unit, choose (.tuple [unit])] none], []⟩
    let table := Table.ofNames .empty
    let ctx : Context := ⟨table, {}, 3⟩
    let certain : List Ty := [.tuple [.var ⟨1⟩], .var ⟨1⟩, unit]
    system.validate = [] ∧ System.plant (.ofSize 3) system.seeds = .done (.ofSize 3) ∧
      solve? table {} system = some (.error ⟨[.ambiguous none [] none], certain⟩) ∧
      ∃ s past, Reached ctx (system.start (.ofSize 3)) s past ∧ s.certain = some certain ∧
        2 ≤ (s.tied ctx).length ∧
        ∀ f ∈ s.tied ctx, Instantiates certain f.types ∧ f.types[2]? = some unit := by
  intro unit choose system table ctx certain
  have hvalid : system.validate = [] := by decide
  have hsolve : solve? table {} system =
      some (.error ⟨[.ambiguous none [] none], certain⟩) := by cbv
  obtain ⟨-, hanswers⟩ := @search_certain table {} system (.ofSize 3) hvalid rfl
  obtain ⟨s, past, hreached, -, -, hambiguous⟩ := hanswers _ hsolve
  obtain ⟨hcertain, ⟨first, others, htied, hne, -⟩, hall⟩ :=
    hambiguous _ _ rfl List.mem_cons_self trivial
  refine ⟨hvalid, rfl, hsolve, s, past, hreached, hcertain, ?_, fun f hf => ?_⟩
  · have hlength := List.length_pos_of_ne_nil hne
    rw [htied, List.length_cons]
    omega
  · obtain ⟨hinstance, hshared⟩ := hall f hf
    exact ⟨hinstance, hshared 2 unit rfl rfl⟩

end TypeResolution
