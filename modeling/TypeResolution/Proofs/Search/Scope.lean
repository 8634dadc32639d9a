/-
# Variables in scope

Backtracking gives variables back: those that an alternative has added are gone when the next one is
entered, which may add others of the same names. So a type that outlives the alternative must not
mention any of them. It does not, since all that is kept with a branch is from before the branch was
met, and since the store is then brought back to the slots that there were at that time.

The invariant is that the store has every variable of what is left to do on a path, and of what the
declarations bring in (`Search.Scoped`). What a goal comes down to, and what an alternative brings
in, has variables of these or new ones.

Key definitions: `Search.InScope`, `Search.Scoped`.
Key theorems: `Search.preserved_scoped`, `Search.Stands.owns`, `search_inScope`.
-/
import TypeResolution.Proofs.Search.Waiting
import TypeResolution.Proofs.Validation

namespace TypeResolution
namespace Search

open Store

variable {ctx : Context} {s s' : Store} {w w' rest : Work} {goal : Goal} {point : BranchPoint}
variable {a : Alternative} {d : Deferred}

/-- The store has every variable that is mentioned by the work. -/
structure InScope (s : Store) (w : Work) : Prop where
  pending : CoversAll s w.pending
  watched : ∀ d ∈ w.deferred, ∀ v ∈ d.watch, s.Has v

/-- The store is one in which the path can be followed without looking up a variable that it does
not have. -/
structure Scoped (ctx : Context) (s : Store) (w : Work) : Prop where
  wellFormed : s.WellFormed
  vars : ctx.varCount ≤ s.size
  table : ctx.table.LeavesIn s.HasLeaf
  scope : InScope s w

theorem size_le_of_moves (hm : Moves s s') : s.size ≤ s'.size := by
  by_cases hzero : s.size = 0
  · omega
  · have hlast : s.Has ⟨s.size - 1⟩ := by
      show s.size - 1 < s.size
      omega
    have hlast' : s.size - 1 < s'.size := hm.has hlast
    omega

theorem InScope.moves (h : InScope s w) (hm : Moves s s') : InScope s' w :=
  ⟨h.pending.moves hm, fun d hd v hv => hm.has (h.watched d hd v hv)⟩

/-- What is left of a path in scope, or what it is made into, may only mention more variables if the
store has them. -/
theorem Scoped.moves (h : Scoped ctx s w) (hm : Moves s s') (hscope : InScope s' w') :
    Scoped ctx s' w' :=
  ⟨hm.wellFormed h.wellFormed, h.vars.trans (size_le_of_moves hm),
    hasLeaf_moves h.table hm, hscope⟩

theorem Scoped.congr (h : Scoped ctx s w) (hslots : s.slots = s'.slots) : Scoped ctx s' w := by
  have hhas : ∀ v, s.Has v → s'.Has v := by
    intro v hv
    unfold Has size at hv ⊢
    rwa [← hslots]
  have hcovers : ∀ t, s.Covers t → s'.Covers t := fun t ht v hv => hhas v (ht v hv)
  have hleaf : ∀ l, s.HasLeaf l → s'.HasLeaf l := fun l hl v hv => hhas v (hl v hv)
  have hsize : s.size = s'.size := by
    unfold size
    rw [hslots]
  exact ⟨h.wellFormed.of_slots_eq hslots, hsize ▸ h.vars, h.table.mono hleaf,
    fun c hc t ht => hcovers t (h.scope.pending c hc t ht),
    fun d hd v hv => hhas v (h.scope.watched d hd v hv)⟩

/-- The goal that comes next is in scope, as is what is left then. -/
theorem Scoped.turn (h : Scoped ctx s w) (hturn : w.turn ctx s = .simplify goal rest) :
    (∀ t ∈ goal.relation.types, s.Covers t) ∧ InScope s rest := by
  have hwatched : ∀ d ∈ rest.deferred, ∀ v ∈ d.watch, s.Has v := fun d hd =>
    h.scope.watched d (mem_deferred_of_turn hturn hd)
  have hpending := h.scope.pending
  refine ⟨?_, fun c hc => hpending c ((mem_pending_of_simplify hturn).2 c hc), hwatched⟩
  have hnext := w.next_turn ctx s
  rw [hturn] at hnext
  cases hnext with
  | goal hqueue =>
    refine hpending goal.constraint ?_
    exact List.mem_append_left _ (List.mem_append_left _
      (List.mem_map_of_mem (hqueue ▸ List.mem_cons_self)))
  | weakened hqueue hbranches hweaken =>
    obtain ⟨olds, -, hreduces⟩ : ∃ olds, w.pending.Perm _ ∧ Reduces ctx.table s olds s _ none :=
      reduces_weaken h.wellFormed hpending hqueue hbranches hweaken
    exact hreduces.covers _ List.mem_cons_self
  | literal _ _ hliteral =>
    obtain ⟨hv, p, hp, rfl⟩ := has_of_defaultLiteral h.wellFormed hpending hliteral
    exact forall_mem_pair (covers_var.2 hv) (covers_iff_leavesIn.2 (h.table.literalDefaults p hp))

theorem Scoped.simplify (h : Scoped ctx s w) (hturn : w.turn ctx s = .simplify goal rest)
    (hsimp : Path.simplify ctx goal rest s = (.open w', s')) : Scoped ctx s' w' := by
  have hs := h.wellFormed
  obtain ⟨hgoal, hrest⟩ := h.turn hturn
  have howns : simplifyOwns ctx.table s goal.relation = true := simplifyOwns_of_covers hs hgoal
  have hmoves := moves_simplify (l := goal.locator) hs howns
  have hwatched : Moves s s' → ∀ d ∈ w'.deferred, ∀ v ∈ d.watch, s'.Has v := by
    intro hm d hd v hv
    obtain ⟨hd | ⟨watch, rfl, hdefer⟩, -⟩ := mem_deferred_of_pathSimplify hsimp hd
    · exact hm.has (hrest.watched d hd v hv)
    · obtain ⟨k, hk⟩ := (waits_of_simplify hs howns hdefer).unbound (hm.wellFormed hs) hv
      exact has_of_slot? hk
  rw [← store_pathSimplify ctx goal rest, hsimp] at hmoves
  refine h.moves hmoves ⟨fun c hc => ?_, hwatched hmoves⟩
  rcases mem_pending_of_pathSimplify hsimp hc with hc | ⟨rfl, -⟩ | ⟨children, entry, hsimp, hc⟩
  · exact hrest.pending.moves hmoves c hc
  · exact fun t ht => hmoves.covers (hgoal t ht)
  · exact coversAll_of_simplify h.table hs hgoal hsimp c hc

/-- The choice that comes next is in scope, as is what is left then. -/
theorem Scoped.choose (h : Scoped ctx s w) (hturn : w.turn ctx s = .choose point rest) :
    CoversAll s [point.constraint] ∧ InScope s rest := by
  obtain ⟨hpoint, hrest⟩ := Work.mem_pending_of_choose hturn
  refine ⟨fun c hc => ?_, fun c hc => h.scope.pending c (hrest c hc), fun d hd => ?_⟩
  · rw [List.mem_singleton.1 hc]
    exact h.scope.pending _ hpoint
  · exact h.scope.watched d (deferred_of_choose hturn ▸ hd)

theorem Scoped.enter (h : Scoped ctx s w) (hturn : w.turn ctx s = .choose point rest)
    (ha : a ∈ point.offer.alternatives) :
    Scoped ctx (a.enter point.locator rest s).2 (a.enter point.locator rest s).1 := by
  obtain ⟨hpoint, hrest⟩ := h.choose hturn
  obtain ⟨i, hi⟩ := List.getElem?_of_mem ha
  obtain ⟨news, entry, hperm, -, hreduces⟩ : ∃ news entry, _ ∧ _ ∧
      Reduces ctx.table s _ (a.enter point.locator rest s).2 news entry :=
    reduces_enter hpoint hi rest
  refine h.moves hreduces.moves ⟨fun c hc => ?_, fun d hd v hv => ?_⟩
  · exact (List.mem_append.1 (hperm.mem_iff.1 hc)).elim (hreduces.covers c)
      (hrest.pending.moves hreduces.moves c)
  · rw [a.deferred_enter] at hd
    exact hreduces.moves.has (hrest.watched d hd v hv)

/-- **Every step keeps to the variables of the store.** -/
theorem preserved_scoped (ctx : Context) : Preserved ctx (Scoped ctx) where
  congr hslots h := h.congr hslots
  simplify h hturn _ hsimp := h.simplify hturn hsimp
  enter h hturn ha := h.enter hturn ha

section Reached

variable {start s s' : State} {past past' : List Store}

/-- The next step looks up nothing but what the store has. -/
theorem Stands.owns (h : Stands ctx (Scoped ctx) s past) (hvars : ctx.varCount ≤ s.store.size) :
    s.owns ctx = true := by
  unfold State.owns
  refine Bool.and_eq_true_iff.2 ⟨decide_eq_true hvars, ?_⟩
  cases hpath : s.path with
  | failed failure => rfl
  | «open» w =>
    have hw := h.path w hpath
    refine Bool.and_eq_true_iff.2 ⟨List.all_eq_true.2 fun d hd => ?_, ?_⟩
    · have hgoal : ∀ t ∈ d.goal.relation.types, s.store.Covers t :=
        hw.scope.pending d.goal.constraint (List.mem_append_left _
          (List.mem_append_right _ (List.mem_map.2 ⟨d, hd, rfl⟩)))
      exact Bool.and_eq_true_iff.2 ⟨ownsTop_of_covers hgoal,
        List.all_eq_true.2 fun v hv => owns_iff.2 (hw.scope.watched d hd v hv)⟩
    · split
      · rename_i goal rest hturn
        exact simplifyOwns_of_covers hw.wellFormed (hw.turn hturn).1
      · rfl

/-- A step keeps the variables of the system, also where it fails. -/
theorem Onward.varCount_le (h : Onward ctx s past s' past') (hs : Stands ctx (Scoped ctx) s past)
    (hs' : Stands ctx (Scoped ctx) s' past') : ctx.varCount ≤ s'.store.size := by
  cases h with
  | @simplify w rest goal hpath hturn heq =>
    have hw := hs.path w hpath
    have hgoal : simplifyOwns ctx.table s.store goal.relation = true :=
      simplifyOwns_of_covers hw.wellFormed (hw.turn hturn).1
    have hmoves := moves_simplify (l := goal.locator) hw.wellFormed hgoal
    rw [← store_pathSimplify ctx goal rest] at hmoves
    rw [heq]
    exact hw.vars.trans (size_le_of_moves hmoves)
  | enter _ _ _ henters =>
    exact (hs'.path _ henters.path).vars

theorem Reached.varCount_le (hstart : Stands ctx (Scoped ctx) start [])
    (hvars : ctx.varCount ≤ start.store.size) (h : Reached ctx start s past) :
    ctx.varCount ≤ s.store.size := by
  induction h with
  | start => exact hvars
  | @step s s' past h hgoes _ =>
    have hstands := h.stands (preserved_scoped ctx) hstart
    obtain ⟨past', -, honward, hstands'⟩ := h.next (preserved_scoped ctx) hstands hgoes
    exact honward.varCount_le hstands hstands'

end Reached
end Search

open Search Store

variable {table : Table} {options : SolverOptions} {system : System} {s₀ : Store}

/-- A system that makes sense starts in scope, if declared types bring in no variables but those of
the system. -/
theorem scoped_start (options : SolverOptions)
    (htable : table.LeavesIn (Store.ofSize system.varCount).HasLeaf)
    (hvalid : system.validate = [])
    (hseeds : System.plant (.ofSize system.varCount) system.seeds = .done s₀) :
    Scoped ⟨table, options, system.varCount⟩ s₀ (Work.pushAll {} system.constraints) := by
  have hs := wellFormed_ofSize system.varCount
  have hmoves := System.moves_plant system.seeds hs (System.plantable_seeds hvalid) hseeds
  have hstart : Scoped ⟨table, options, system.varCount⟩ (.ofSize system.varCount)
      (Work.pushAll {} system.constraints) := by
    refine ⟨hs, (size_ofSize system.varCount).ge, htable, fun c hc => ?_, fun d hd => ?_⟩
    · exact System.covers_constraints hvalid c ((Work.pending_start _).mem_iff.1 hc)
    · rw [Work.deferred_pushAll] at hd
      cases hd
  exact hstart.moves hmoves (hstart.scope.moves hmoves)

/-- **Variables that are used again are not confused.** With declared types that have no variables,
every state that the search of a valid system reaches mentions variables of its store only; what is
kept with an open branch mentions those only of the store in which the branch was met. The
snapshots of the branches are the open ones of the store, numbered from the outermost, and lead back
to these stores. No step looks up a variable that the store does not have, and each enters an
alternative from the slots with which the branch was met, if it does not simplify a goal. -/
theorem search_inScope (hground : table.Ground) (hvalid : system.validate = [])
    (hseeds : System.plant (.ofSize system.varCount) system.seeds = .done s₀) :
    let ctx : Context := ⟨table, options, system.varCount⟩
    ∀ s past, Reached ctx (system.start s₀) s past →
      (∀ w, s.path = .open w → InScope s.store w) ∧
      List.Forall₂ (fun b g => b.snapshot = mark g ∧ InScope g b.base ∧
        CoversAll g [b.point.constraint]) s.branches past ∧
      (s.store.LeadsBack past ∧
        ∀ g outer, g :: outer <:+ past → g.openSnapshots = outer.length + 1) ∧
      s.owns ctx = true ∧
      ∀ s', s.step ctx = .next s' → ∃ past', Reached ctx (system.start s₀) s' past' ∧
        Onward ctx s past s' past' := by
  intro ctx s past h
  have htable : table.LeavesIn (Store.ofSize system.varCount).HasLeaf :=
    (hground.leavesIn []).mono fun l hl v hv => absurd (hl v hv) List.not_mem_nil
  have hstart := scoped_start options htable hvalid hseeds
  have hI := preserved_scoped ctx
  have hstands := h.stands hI (stands_start ctx hseeds hstart)
  have howns := hstands.owns (h.varCount_le (stands_start ctx hseeds hstart) hstart.vars)
  refine ⟨fun w hw => (hstands.path w hw).scope, ?_, ⟨hstands.back, hstands.depth⟩, howns, ?_⟩
  · refine hstands.branches.imp fun b g hb => ?_
    obtain ⟨w, hturn, hw⟩ := hb.work
    obtain ⟨hpoint, hbase⟩ := hw.choose hturn
    exact ⟨hb.snapshot, hbase, hpoint⟩
  · intro s' hstep
    obtain ⟨past', hreached, honward, -⟩ := h.next hI hstands ⟨howns, hstep⟩
    exact ⟨past', hreached, honward⟩

/-- A generic candidate is entered with a variable that the store had not when the branch was
met. -/
theorem search_inScope_generic :
    let generic (decl : DeclId) (type : Ty) : Candidate := ⟨decl, type, [⟨⟨0⟩, []⟩], 0⟩
    let candidates := [generic ⟨7⟩ (.tuple [.param ⟨0⟩]), generic ⟨8⟩ (.param ⟨0⟩)]
    let system : System := ⟨1, [.overload ⟨.var ⟨0⟩, ⟨0⟩, ⟨5⟩, candidates⟩ none], []⟩
    let table := Table.ofNames .empty
    let ctx : Context := ⟨table, {}, 1⟩
    let g := (Store.ofSize 1).snapshot.2
    table.Ground ∧ system.validate = [] ∧
      System.plant (.ofSize 1) system.seeds = .done (.ofSize 1) ∧
      ∃ s w, Reached ctx (system.start (.ofSize 1)) s [g] ∧ s.path = .open w ∧
        s.store.size = 2 ∧ InScope s.store w ∧ ∀ b ∈ s.branches, InScope g b.base := by
  intro generic candidates system table ctx g
  have hground : table.Ground := by
    constructor <;> intro _ h <;> cases h
  have hvalid : system.validate = [] := by decide
  have hscope := @search_inScope table {} system (.ofSize 1) hground hvalid rfl
  obtain ⟨s, w, hstep, hopen, hsize, hlength⟩ : ∃ s w, (system.start (.ofSize 1)).step ctx =
      .next s ∧ s.path = .open w ∧ s.store.size = 2 ∧ s.branches.length = 1 :=
    ⟨_, _, by cbv, by cbv, by cbv, by cbv⟩
  have hmet : ((system.start (.ofSize 1)).met ctx []).rtake s.branches.length = [g] := by
    rw [hlength]
    rfl
  obtain ⟨-, -, -, howns, -⟩ := hscope _ [] .start
  have hreached : Reached ctx (system.start (.ofSize 1)) s [g] :=
    hmet ▸ Reached.step .start ⟨howns, hstep⟩
  obtain ⟨hpath, hbranches, -, -, -⟩ := hscope s [g] hreached
  refine ⟨hground, hvalid, rfl, s, w, hreached, hopen, hsize, hpath w hopen, fun b hb => ?_⟩
  generalize s.branches = branches at hbranches hb
  cases hbranches with
  | cons hmet hnil =>
    cases hnil
    rw [List.mem_singleton.1 hb]
    exact hmet.2.1

end TypeResolution
