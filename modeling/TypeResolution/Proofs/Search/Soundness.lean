/-
# Solutions satisfy the constraints

Every step of a path makes the constraints that it sees to hold, provided that those it leaves
hold and that what it records is still there at the end (`Search.Continues`). Stores only get
more to say on the way to a leaf, so that an assignment that solves the last store solves all;
and since no two constraints are at one site, a reference that was settled stays settled. So
going back from a leaf, at which nothing is left, all constraints hold (`Search.Leaf.ends`).

A solution is what was found at a leaf, and the leaf's store gives the types under which the
seeds and the constraints of the system hold (`solve_sound`).

Key definitions: `Search.Work.sites`, `Search.Continues`, `Search.Ends`.
Key theorems: `Search.Continues.ends`, `Search.Leaf.ends`, `solve_sound`.
-/
import Mathlib
import TypeResolution.Proofs.Search.Exhaustive
import TypeResolution.Proofs.Search.Simplification
import TypeResolution.Proofs.Search.Turns
import TypeResolution.Proofs.Validation

namespace TypeResolution
namespace Search

open Store

variable {ctx : Context} {table : Table} {s s' t : Store} {w w' v rest : Work}
variable {entry : Option Entry}

/-! ### One step -/

/-- The sites of the references that are settled or left to settle. -/
def Work.sites (w : Work) : List NodeId :=
  w.choices.map (·.1) ++ w.pending.flatMap Constraint.sites

/-- One step on a path: some of the constraints come down to others, and something may be
recorded. -/
def Continues (table : Table) (s : Store) (w : Work) (s' : Store) (w' : Work) : Prop :=
  ∃ olds news others entry, w.pending.Perm (olds ++ others) ∧
    w'.pending.Perm (news ++ others) ∧ Recorded w entry w' ∧ Reduces table s olds s' news entry

theorem Recorded.trans_none {w₁ : Work} (h : Recorded w none w₁) (h' : Recorded w₁ entry w') :
    Recorded w entry w' := by
  obtain ⟨hchoices, hpredicates⟩ := h
  replace hchoices : w₁.choices = w.choices := hchoices
  replace hpredicates : w₁.predicates = w.predicates := hpredicates
  obtain ⟨hchoices', hpredicates'⟩ := h'
  cases entry with
  | none => exact ⟨hchoices'.trans hchoices, hpredicates'.trans hpredicates⟩
  | some e =>
    constructor
    · rw [hchoices']
      cases e <;> simp [Work.record, hchoices]
    · rw [hpredicates']
      cases e <;> simp [Work.record, hpredicates]

theorem lookup_of_recorded {site : NodeId} {c : Choice} {isGeneric : Bool}
    (h : Recorded w (some (.choice site c isGeneric)) w') : w'.choices.lookup site = some c := by
  rw [h.choices]
  show (setKey site c w.choices).lookup site = some c
  rw [lookup_setKey, if_pos rfl]

/-- A reference that is settled at a site of its own is one more. -/
theorem map_fst_of_recorded (h : Recorded w entry w')
    (hnew : ∀ site ∈ entry.toList.flatMap Entry.sites, site ∉ w.choices.map (·.1)) :
    w'.choices.map (·.1) = w.choices.map (·.1) ++ entry.toList.flatMap Entry.sites := by
  rw [h.choices]
  cases entry with
  | none => exact (List.append_nil _).symm
  | some e =>
    cases e with
    | choice site c isGeneric =>
      have hsite : site ∉ w.choices.map (·.1) := hnew site (by simp [Entry.sites])
      show (setKey site c w.choices).map (·.1) = _
      rw [map_fst_setKey, if_neg hsite]
      rfl
    | conversion => exact (List.append_nil _).symm
    | predicate p => exact (List.append_nil _).symm

/-- What has been settled is kept when another reference is settled. -/
theorem lookup_recorded (h : Recorded w entry w')
    (hnew : ∀ site ∈ entry.toList.flatMap Entry.sites, site ∉ w.choices.map (·.1))
    {site : NodeId} {c : Choice} (hlookup : w.choices.lookup site = some c) :
    w'.choices.lookup site = some c := by
  rw [h.choices]
  cases entry with
  | none => exact hlookup
  | some e =>
    cases e with
    | choice site' c' isGeneric =>
      have hne : site ≠ site' := by
        rintro rfl
        exact hnew site (by simp [Entry.sites])
          (List.mem_map.2 ⟨_, Table.mem_of_lookup_eq_some hlookup, rfl⟩)
      show (setKey site' c' w.choices).lookup site = some c
      rw [lookup_setKey, if_neg hne]
      exact hlookup
    | conversion => exact hlookup
    | predicate p => exact hlookup

theorem mem_predicates_of_recorded (h : Recorded w entry w') {p : SizePredicate}
    (hp : p ∈ w.predicates) : p ∈ w'.predicates := by
  rw [h.predicates]
  cases entry with
  | none => exact hp
  | some e =>
    cases e with
    | predicate q => exact List.mem_append_left _ hp
    | conversion => exact hp
    | choice site c isGeneric => exact hp

theorem nodup_of_subperm {α : Type} {xs ys : List α} (h : xs.Subperm ys) (hn : ys.Nodup) :
    xs.Nodup := by
  obtain ⟨zs, hperm, hsub⟩ := h
  exact hperm.nodup_iff.1 (hsub.nodup hn)

/-! ### From a leaf back -/

/-- The way from one moment to another keeps what was recorded, and at the other one everything
that was left to do has been done. -/
structure Ends (table : Table) (s : Store) (w : Work) (t : Store) (v : Work) : Prop where
  moves : Moves s t
  choices : ∀ site c, w.choices.lookup site = some c → v.choices.lookup site = some c
  predicates : ∀ p ∈ w.predicates, p ∈ v.predicates
  holdsIn : ∀ I : Reading, t.SolvedBy I.types →
    (∀ site c, v.choices.lookup site = some c → I.reference? site = some c.decl) →
    (∀ p ∈ v.predicates, p ∈ I.predicates) → ∀ c ∈ w.pending, c.HoldsIn table I

/-- Everything holds that was left to do, whatever generic parameters may stand for. -/
theorem Ends.holds (h : Ends table s w t v) (I : Interpretation) (hσ : t.SolvedBy I.types)
    (hreferences : ∀ site c, v.choices.lookup site = some c → I.reference? site = some c.decl)
    (hpredicates : ∀ p ∈ v.predicates, p ∈ I.predicates) :
    ∀ c ∈ w.pending, c.Holds table I := fun c hc =>
  (h.holdsIn ⟨I, fun _ => True, fun _ => trivial, fun _ => trivial⟩ hσ hreferences hpredicates c
    hc).holds

/-- The store is well formed and has the variables of what is left to do. -/
structure Covered (s : Store) (w : Work) : Prop where
  wellFormed : s.WellFormed
  covers : CoversAll s w.pending

/-- What a moment has to be like for the way to a leaf to be sound. -/
structure Ready (s : Store) (w : Work) : Prop extends Covered s w where
  sites : w.sites.Nodup

/-- No new reference is settled at a site of an old one. -/
theorem new_sites {olds news others : List Constraint} (hw : Ready s w)
    (hperm : w.pending.Perm (olds ++ others)) (hreduces : Reduces table s olds s' news entry) :
    ∀ site ∈ entry.toList.flatMap Entry.sites, site ∉ w.choices.map (·.1) := by
  intro site hsite hold
  have hmem : site ∈ w.pending.flatMap Constraint.sites := by
    refine (hperm.flatMap_right Constraint.sites).mem_iff.2 ?_
    rw [List.flatMap_append]
    exact List.mem_append_left _ (hreduces.sites.subset (List.mem_append_left _ hsite))
  exact (List.nodup_append.1 hw.sites).2.2 site hold site hmem rfl

/-- A step moves the store, and leaves a store that has the variables of what is left. -/
theorem Continues.covered (h : Continues table s w s' w') (hw : Covered s w) :
    Moves s s' ∧ Covered s' w' := by
  obtain ⟨olds, news, others, entry, hperm, hperm', -, hreduces⟩ := h
  refine ⟨hreduces.moves, hreduces.moves.wellFormed hw.wellFormed, fun c hc => ?_⟩
  rcases List.mem_append.1 (hperm'.mem_iff.1 hc) with hc | hc
  · exact hreduces.covers c hc
  · have hmem := hperm.mem_iff.2 (List.mem_append_right olds hc)
    exact fun type htype => hreduces.moves.covers (hw.covers c hmem type htype)

/-- A step leaves what the next one needs. -/
theorem Continues.ready (h : Continues table s w s' w') (hw : Ready s w) : Ready s' w' := by
  refine ⟨(h.covered hw.toCovered).2, ?_⟩
  obtain ⟨olds, news, others, entry, hperm, hperm', hrecorded, hreduces⟩ := h
  have hkeys := map_fst_of_recorded hrecorded (new_sites hw hperm hreduces)
  have hafter : w'.sites.Perm (w.choices.map (·.1) ++ ((entry.toList.flatMap Entry.sites ++
      news.flatMap Constraint.sites) ++ others.flatMap Constraint.sites)) := by
    calc w'.sites
      _ = w.choices.map (·.1) ++ entry.toList.flatMap Entry.sites ++
          w'.pending.flatMap Constraint.sites := by rw [Work.sites, hkeys]
      List.Perm _ (w.choices.map (·.1) ++ entry.toList.flatMap Entry.sites ++
          (news ++ others).flatMap Constraint.sites) :=
        (hperm'.flatMap_right Constraint.sites).append_left _
      _ = _ := by simp only [List.flatMap_append, List.append_assoc]
  have hbefore : w.sites.Perm (w.choices.map (·.1) ++
      (olds.flatMap Constraint.sites ++ others.flatMap Constraint.sites)) := by
    rw [← List.flatMap_append]
    exact (hperm.flatMap_right Constraint.sites).append_left _
  refine hafter.nodup_iff.2 (nodup_of_subperm ?_ (hbefore.nodup_iff.1 hw.sites))
  exact (List.Subperm.refl _).append (hreduces.sites.append (List.Subperm.refl _))

/-- What is so after a step was so before it. -/
theorem Continues.ends (h : Continues table s w s' w') (hw : Ready s w)
    (hends : Ends table s' w' t v) : Ends table s w t v := by
  obtain ⟨olds, news, others, entry, hperm, hperm', hrecorded, hreduces⟩ := h
  have hnew := new_sites hw hperm hreduces
  refine ⟨hreduces.moves.trans hends.moves, fun site c hlookup => ?_, fun p hp => ?_,
    fun I hσ hreferences hpredicates => ?_⟩
  · exact hends.choices site c (lookup_recorded hrecorded hnew hlookup)
  · exact hends.predicates p (mem_predicates_of_recorded hrecorded hp)
  · have hall := hends.holdsIn I hσ hreferences hpredicates
    have hrecords : Records I entry := by
      cases entry with
      | none => trivial
      | some e =>
        cases e with
        | conversion => trivial
        | predicate p =>
          refine hpredicates p (hends.predicates p ?_)
          rw [hrecorded.predicates]
          exact List.mem_append_right _ (List.mem_singleton.2 rfl)
        | choice site c isGeneric =>
          exact hreferences site c (hends.choices site c (lookup_of_recorded hrecorded))
    have hnews : ∀ c ∈ news, c.HoldsIn table I := fun c hc =>
      hall c (hperm'.mem_iff.2 (List.mem_append_left _ hc))
    intro c hc
    rcases List.mem_append.1 (hperm.mem_iff.1 hc) with hc | hc
    · exact hreduces.sound I (hends.moves.solved hσ) hrecords hnews c hc
    · exact hall c (hperm'.mem_iff.2 (List.mem_append_right _ hc))

theorem recorded_of_sameRecord (h : Work.SameRecord w w') : Recorded w none w' :=
  ⟨h.choices, h.predicates⟩

/-- Simplifying a goal discharges it or puts it aside. -/
theorem reduces_pathSimplify {goal : Goal} (hground : ctx.table.Ground)
    (hnominal : ctx.table.Nominal) (hs : s.WellFormed) (hgoal : CoversAll s [goal.constraint])
    (h : Path.simplify ctx goal rest s = (.open w', s')) :
    ∃ news entry, w'.pending.Perm (news ++ rest.pending) ∧ Recorded rest entry w' ∧
      Reduces ctx.table s [goal.constraint] s' news entry := by
  have htypes : ∀ t ∈ goal.relation.types, s.Covers t := hgoal _ List.mem_cons_self
  obtain ⟨w₁, hw', hcases⟩ := pathSimplify_cases h
  obtain ⟨news, entry, hperm, hrecorded, hreduces⟩ : ∃ news entry,
      w₁.pending.Perm (news ++ rest.pending) ∧ Recorded rest entry w₁ ∧
        Reduces ctx.table s [goal.constraint] s' news entry := by
    rcases hcases with ⟨children, entry, hsimp, rfl⟩ | ⟨watch, hsimp, rfl⟩
    · exact ⟨children, entry, Work.pending_discharge rest children entry,
        recorded_discharge rest children entry,
        reduces_simplify hground hnominal hs htypes hsimp⟩
    · exact ⟨[goal.constraint], none, Work.pending_defer rest goal watch, ⟨rfl, rfl⟩,
        .keep (tidies_of_undecided hs htypes hsimp).moves hgoal⟩
  refine ⟨news, entry, ?_, ?_, hreduces⟩
  · rcases hw' with rfl | rfl
    · exact hperm
    · exact (Work.pending_wake w₁ s').trans hperm
  · rcases hw' with rfl | rfl
    · exact hrecorded
    · exact ⟨hrecorded.choices, hrecorded.predicates⟩

/-- Following a path by one goal is a step. -/
theorem continues_simplify {goal : Goal} (hground : ctx.table.Ground)
    (hnominal : ctx.table.Nominal) (hw : Covered s w) (hturn : w.turn ctx s = .simplify goal rest)
    (hsimp : Path.simplify ctx goal rest s = (.open w', s')) :
    Continues ctx.table s w s' w' := by
  obtain ⟨olds, hperm, hturned⟩ := reduces_turn hground hw.wellFormed hw.covers hturn
  obtain ⟨news, entry, hperm', hrecorded, hreduces⟩ :=
    reduces_pathSimplify hground hnominal hw.wellFormed hturned.covers hsimp
  have hsame := recorded_of_sameRecord (Work.sameRecord_simplify hturn)
  exact ⟨olds, news, rest.pending, entry, hperm, hperm', hsame.trans_none hrecorded,
    hturned.trans hreduces⟩

/-- Entering an alternative is a step. -/
theorem continues_enter {point : BranchPoint} {x : Alternative} {i : Nat} (hw : Covered s w)
    (hturn : w.turn ctx s = .choose point rest) (hx : point.offer.alternatives[i]? = some x) :
    Continues ctx.table s w (x.enter point.locator rest s).2 (x.enter point.locator rest s).1 := by
  obtain ⟨hqueue, hbranches, hrest⟩ := Work.turn_choose hturn
  have hperm : w.pending.Perm ([point.constraint] ++ rest.pending) := by
    rw [hrest]
    unfold Work.pending
    rw [hbranches]
    exact List.perm_middle
  have hpoint : CoversAll s [point.constraint] := fun c hc =>
    hw.covers c (hperm.mem_iff.2 (List.mem_append_left _ hc))
  obtain ⟨news, entry, hperm', hrecorded, hreduces⟩ := reduces_enter hpoint hx rest
  have hsame := recorded_of_sameRecord (Work.sameRecord_choose hturn)
  exact ⟨_, news, rest.pending, entry, hperm, hperm', hsame.trans_none hrecorded, hreduces⟩

/-- On the way to a leaf the store is moved. -/
theorem Leaf.moves {path : List Nat} (hground : ctx.table.Ground) (hnominal : ctx.table.Nominal)
    (h : Leaf ctx s w path t v) : Covered s w → Moves s t := by
  induction h with
  | complete => exact fun _ => .refl
  | simplify hturn hsimp _ ih =>
    intro hw
    obtain ⟨hmoves, hw'⟩ := (continues_simplify hground hnominal hw hturn hsimp).covered hw
    exact hmoves.trans (ih hw')
  | choose hturn hx _ ih =>
    intro hw
    obtain ⟨hmoves, hw'⟩ := (continues_enter hw hturn hx).covered hw
    exact hmoves.trans (ih hw')

/-- **At a leaf everything has been done** that was left to do on the way to it. -/
theorem Leaf.ends {path : List Nat} (hground : ctx.table.Ground) (hnominal : ctx.table.Nominal)
    (h : Leaf ctx s w path t v) : Ready s w → Ends ctx.table s w t v := by
  induction h with
  | complete hturn =>
    intro _
    refine ⟨.refl, fun _ _ hlookup => hlookup, fun _ hp => hp, fun I _ _ _ c hc => ?_⟩
    rw [(of_complete hturn).1] at hc
    cases hc
  | simplify hturn hsimp _ ih =>
    intro hw
    have hcontinues := continues_simplify hground hnominal hw.toCovered hturn hsimp
    exact hcontinues.ends hw (ih (hcontinues.ready hw))
  | choose hturn hx _ ih =>
    intro hw
    have hcontinues := continues_enter hw.toCovered hturn hx
    exact hcontinues.ends hw (ih (hcontinues.ready hw))

/-- The work that a search starts with. -/
theorem covered_pushAll {cs : List Constraint} (hs : s.WellFormed) (hcovers : CoversAll s cs) :
    Covered s (Work.pushAll {} cs) :=
  ⟨hs, fun c hc => hcovers c ((Work.pending_start cs).mem_iff.1 hc)⟩

theorem ready_pushAll {cs : List Constraint} (hs : s.WellFormed) (hcovers : CoversAll s cs)
    (hsites : (cs.flatMap Constraint.sites).Nodup) : Ready s (Work.pushAll {} cs) := by
  refine ⟨covered_pushAll hs hcovers, ?_⟩
  unfold Work.sites
  rw [Work.choices_pushAll]
  exact ((Work.pending_start cs).flatMap_right Constraint.sites).nodup_iff.2 hsites

end Search

/-! ### Solutions -/

open Search

variable {table : Table} {options : SolverOptions} {system : System} {solution : Solution}
variable {s₀ f : Store} {w : Work}

/-- The interpretation that a solution and a store tell of. -/
def Solution.interpretation (solution : Solution) (f : Store) : Interpretation :=
  ⟨fun v => f.apply (.var v), solution.reference?, solution.predicates⟩

theorem reference?_toSolution (g : Found) (site : NodeId) :
    g.toSolution.reference? site = g.decl? site := by
  unfold Found.decl? Solution.reference?
  show (g.choices.map fun p => (p.1, p.2.decl)).lookup site = _
  induction g.choices with
  | nil => rfl
  | cons p choices ih =>
    obtain ⟨site', c⟩ := p
    rw [List.map_cons, List.lookup_cons, List.lookup_cons]
    cases site == site' with
    | true => rfl
    | false => exact ih

/-- A system that has a solution makes sense, and its seeds can be planted. -/
theorem planted_of_solve (h : solve table options system = .ok solution) :
    system.validate = [] ∧
      ∃ s₀, System.plant (.ofSize system.varCount) system.seeds = .done s₀ := by
  unfold solve at h
  dsimp only at h
  split at h
  · rename_i hvalid
    split at h
    · cases h
    · rename_i s₀ hplant
      exact ⟨hvalid, s₀, hplant⟩
  · cases h

/-- A solution is what is found at the first of the best leaves. -/
theorem first_of_solve (hvalid : system.validate = [])
    (hseeds : System.plant (.ofSize system.varCount) system.seeds = .done s₀)
    (h : solve table options system = .ok solution) :
    ∃ P g, First (Admitted ⟨table, options, system.varCount⟩ (system.leaves table options s₀)) P g ∧
      solution = g.toSolution := by
  have hsettles := (solve_settles hvalid hseeds).resolve_right (by
    rintro ⟨certain, hlimit⟩
    rw [h] at hlimit
    cases hlimit)
  rw [h] at hsettles
  cases hsettles with
  | solved hfirst => exact ⟨_, _, hfirst, rfl⟩

/-- **Solutions satisfy their systems.** Under the last store of the path that a solution comes
from, the first of the best ones, all seeds agree with their variables, and all constraints hold. -/
theorem solve_sound (hbuilt : table.Built) (hground : table.Ground)
    (hsites : (system.constraints.flatMap Constraint.sites).Nodup)
    (h : solve table options system = .ok solution) :
    let ctx : Context := ⟨table, options, system.varCount⟩
    ∃ s₀ P f w, System.plant (.ofSize system.varCount) system.seeds = .done s₀ ∧
      Leaf ctx s₀ (Work.pushAll {} system.constraints) P f w ∧
      First (Admitted ctx (system.leaves table options s₀)) P (w.toFound ctx f) ∧
      solution = (w.toFound ctx f).toSolution ∧
      (∀ seed ∈ system.seeds, agree (f.apply (.var seed.1)) (f.apply seed.2) = true) ∧
      ∀ c ∈ system.constraints, c.Holds table (solution.interpretation f) := by
  intro ctx
  obtain ⟨hvalid, s₀, hplant⟩ := planted_of_solve h
  obtain ⟨P, g, hfirst, hsolution⟩ := first_of_solve hvalid hplant h
  obtain ⟨f, w, hleaf, rfl⟩ := hfirst.1.1.1
  refine ⟨s₀, P, f, w, hplant, hleaf, hfirst, hsolution, ?_⟩
  have hstart := Store.wellFormed_ofSize system.varCount
  have hseeds := System.plantable_seeds hvalid
  have hmoves := System.moves_plant system.seeds hstart hseeds hplant
  have hcovers : CoversAll s₀ system.constraints := fun c hc t ht =>
    hmoves.covers (System.covers_constraints hvalid c hc t ht)
  have hready := ready_pushAll (hmoves.wellFormed hstart) hcovers hsites
  have hends := hleaf.ends hground hbuilt.nominal hready
  have hf := hends.moves.wellFormed hready.wellFormed
  constructor
  · intro seed hseed
    have hagree := System.agree_of_plant system.seeds hstart hseeds hplant
      (hends.moves.solved hf.solved) seed hseed
    rwa [← hf.apply_eq_mapVars (hends.moves.covers (hmoves.covers (hseeds seed hseed).2))] at hagree
  · intro c hc
    have hpending : c ∈ (Work.pushAll {} system.constraints).pending :=
      (Work.pending_pushAll system.constraints {}).mem_iff.2 (List.mem_append_left _ hc)
    refine hends.holds (solution.interpretation f) hf.solved (fun site c hlookup => ?_)
      (fun p hp => ?_) c hpending
    · show solution.reference? site = some c.decl
      rw [hsolution, reference?_toSolution]
      exact congrArg (Option.map Choice.decl) hlookup
    · show p ∈ solution.predicates
      rw [hsolution]
      exact hp

/-- Applied to a unit, the identity is used at the type of units, and its result is one. -/
theorem solve_sound_identity :
    let identity : Candidate :=
      ⟨⟨7⟩, .function [(.letting, .param ⟨0⟩)] (.param ⟨0⟩), [⟨⟨0⟩, []⟩], 0⟩
    let callee : Ty := .function [(.letting, .var ⟨0⟩)] (.var ⟨1⟩)
    let system : System :=
      { varCount := 2
        constraints := [.overload ⟨callee, ⟨0⟩, ⟨5⟩, [identity]⟩ none,
          .relation (.subtyping (.tuple [.var ⟨1⟩]) (.tuple [.unit])) none]
        seeds := [(⟨0⟩, .unit)] }
    let table := Table.ofNames .empty
    let solution : Solution := ⟨[.unit, .unit], [(⟨5⟩, ⟨7⟩)], [], 0, []⟩
    table.Built ∧ table.Ground ∧ (system.constraints.flatMap Constraint.sites).Nodup ∧
      solve table {} system = .ok solution ∧
      ∃ f : Store, ∀ c ∈ system.constraints, c.Holds table (solution.interpretation f) := by
  intro identity callee system table solution
  have hbuilt : table.Built := .ofNames .empty
  have hground : table.Ground := by
    constructor <;> intro _ h <;> cases h
  have hsites : (system.constraints.flatMap Constraint.sites).Nodup := by decide
  have hsolve : solve table {} system = .ok solution := by cbv
  obtain ⟨s₀, P, f, w, -, -, -, -, -, hholds⟩ := solve_sound hbuilt hground hsites hsolve
  exact ⟨hbuilt, hground, hsites, hsolve, f, hholds⟩

end TypeResolution
