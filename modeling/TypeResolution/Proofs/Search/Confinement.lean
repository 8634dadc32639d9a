/-
# No new leaves

The types that a search works with are made of those of its system and of the declarations in its
table: a step takes types apart, puts arguments in for parameters, and gives fresh variables to
parameters that are left over. So if the leaves of all these types are of one kind, then so are
those of all types on a path and of the bindings of its store (`Search.Leaf.enclosed`), and of the
types that a solution gives (`System.Way.leavesIn`). Generic parameters of declarations need not be
of the kind, since they are opened before they are met. A literal may stand where a subtype is
expected, since no variable is bound to it there.

Some variables may be left out of the kind, if the store keeps them apart (`Store.Keeps`). And some
relations may have types of another kind, if simplifying them leaves the store as it is and brings
in relations like them only (`Search.Harmless`). Where all variables are of the kind and all
relations have types of it, this is `Search.Confined`.

Key definitions: `Search.Harmless`, `Search.Enclosed`, `Search.Confined`.
Key theorems: `Search.leavesIn_openCandidate`, `Search.leavesIn_simplify`,
`Search.Enclosed.simplify`, `Search.Enclosed.enter`, `Search.Leaf.enclosed`,
`Search.Leaf.confined`.
-/
import TypeResolution.Proofs.Operands
import TypeResolution.Proofs.Search.Soundness
import TypeResolution.Proofs.Store.Keeping

namespace TypeResolution
namespace Search

open Store

variable {Q : Ty → Prop} {E : Relation → Prop} {ctx : Context} {table : Table}
variable {s s' t : Store} {w w' v rest : Work} {a b type base : Ty} {l : Option Locator}
variable {children : List Constraint} {entry : Option Entry} {r : Relation} {fit : Fit}
variable {goal : Goal}

/-! ### Opening -/

/-- The store keeps to the kind, and parameters have been opened as variables of it. -/
def KeepsOpened (Q : Ty → Prop) (p : Opened × Store) : Prop :=
  p.2.Keeps Q ∧ ∀ o ∈ p.1, Q (.var o.2)

theorem keepsOpened_nil (hs : s.Keeps Q) : KeepsOpened Q ([], s) := ⟨hs, nofun⟩

theorem KeepsOpened.fresh {opened : Opened} (h : KeepsOpened Q (opened, s)) (name : Name) :
    KeepsOpened Q ((name, s.fresh.1) :: opened, s.fresh.2) :=
  ⟨h.1.fresh, List.forall_mem_cons.2 ⟨h.1.var_fresh, h.2⟩⟩

theorem keepsOpened_openEach : ∀ (names : List Name) {s : Store} {opened : Opened},
    KeepsOpened Q (opened, s) → KeepsOpened Q (openEach s opened names)
  | [], _, _, h => h
  | name :: names, _, _, h => keepsOpened_openEach names (h.fresh name)

theorem keepsOpened_openMissing : ∀ (names : List Name) {s : Store} {opened : Opened},
    KeepsOpened Q (opened, s) → KeepsOpened Q (openMissing s opened names)
  | [], _, _, h => h
  | name :: names, _, _, h => by
    unfold openMissing
    split
    · exact keepsOpened_openMissing names h
    · exact keepsOpened_openMissing names (h.fresh name)

/-- Opening replaces all parameters by variables of the kind. -/
theorem leavesIn_openParams {declared : Ty} {opened : Opened} (h : KeepsOpened Q (opened, s))
    (hdeclared : declared.LeavesIn (Ty.OrParam Q)) :
    (openParams s opened declared).1.LeavesIn Q ∧
      KeepsOpened Q (openParams s opened declared).2 := by
  have hmissing := keepsOpened_openMissing declared.params h
  refine ⟨Ty.LeavesIn.mapParams hdeclared fun p hp => ?_, hmissing⟩
  obtain ⟨v, hv⟩ := Option.isSome_iff_exists.1
    ((extends_openMissing declared.params s opened).names p hp)
  rw [Table.lookup_map_snd, hv]
  exact Ty.leavesIn_singleton rfl (hmissing.2 _ (Table.mem_of_lookup_eq_some hv))

/-- A reference that is settled on a candidate leaves constraints on variables and on its type. -/
theorem leavesIn_openCandidate {c : Candidate} (name : Name) (hs : s.Keeps Q)
    (htype : type.LeavesIn Q) (hc : c.type.LeavesIn (Ty.OrParam Q)) :
    (openCandidate s type name c l).store.Keeps Q ∧
      ∀ d ∈ (openCandidate s type name c l).constraints, d.LeavesIn Q := by
  have hgenerics := keepsOpened_openEach (c.generics.map (·.name)) (keepsOpened_nil hs)
  obtain ⟨hsignature, hopened⟩ := leavesIn_openParams hgenerics hc
  refine ⟨hopened.1, List.forall_mem_cons.2 ⟨.relation ⟨htype, hsignature⟩, fun d hd => ?_⟩⟩
  obtain ⟨g, -, hd⟩ := List.mem_filterMap.1 hd
  obtain ⟨v, hv, rfl⟩ := Option.map_eq_some_iff.1 hd
  have hvar := hopened.2 _ (Table.mem_of_lookup_eq_some hv)
  exact .relation (.inr (Ty.leavesIn_singleton rfl hvar))

/-! ### Steps on goals -/

theorem leavesIn_pairwise {α : Type} {step : Nat → PathStep} {relate : α → α → Relation}
    {as bs : List α} (h : ∀ p ∈ as.zip bs, (relate p.1 p.2).LeavesIn Q) :
    ∀ c ∈ pairwise l step relate as bs, c.LeavesIn Q := by
  intro c hc
  obtain ⟨p, hp, l', rfl⟩ := mem_pairwise hc
  exact .relation (h p hp)

theorem leavesIn_fitting (ha : a.LiteralOrIn Q) (hb : b.LeavesIn Q) :
    (fitting fit a b).LeavesIn Q := by
  cases fit <;> exact ⟨ha, hb⟩

theorem leavesIn_function {ps qs : List Parameter} {u v : Ty}
    (ha : (Ty.function ps u).LeavesIn Q) (hb : (Ty.function qs v).LeavesIn Q) :
    ∀ c ∈ pairwise l .argument parameterRelation ps qs ++
      [.relation (fitting fit u v) (extended l .result)], c.LeavesIn Q := by
  have hparam : ∀ {rs : List Parameter} {w : Ty} {p : Parameter},
      (Ty.function rs w).LeavesIn Q → p ∈ rs → p.2.LeavesIn Q := fun h hp =>
    h.of_mem_children (List.mem_append_left _ (List.mem_map.2 ⟨_, hp, rfl⟩))
  have hresult : ∀ {rs : List Parameter} {w : Ty}, (Ty.function rs w).LeavesIn Q →
      w.LeavesIn Q := fun h =>
    h.of_mem_children (List.mem_append_right _ (List.mem_singleton.2 rfl))
  refine List.forall_mem_append.2 ⟨leavesIn_pairwise fun p hp => ?_, fun c hc => ?_⟩
  · obtain ⟨hp₁, hp₂⟩ := List.of_mem_zip hp
    unfold parameterRelation
    split
    · exact ⟨.inr (hparam hb hp₂), hparam ha hp₁⟩
    · exact ⟨hparam ha hp₁, hparam hb hp₂⟩
  · rw [List.mem_singleton.1 hc]
    exact .relation (leavesIn_fitting (.inr (hresult ha)) (hresult hb))

/-- What a relation comes down to has leaves of the kind. -/
def Simplified.LeavesIn (Q : Ty → Prop) : Simplified → Prop
  | .discharged children _ => ∀ c ∈ children, c.LeavesIn Q
  | .undecided _ | .violated _ => True

section Simplifying

variable (htable : table.LeavesIn Q) (hs : s.Keeps Q)
include htable hs

theorem leavesIn_simplifyShapes (ha : a.LiteralOrIn Q) (hb : b.LeavesIn Q) :
    (simplifyShapes table s fit a b l).1.LeavesIn Q ∧
      (simplifyShapes table s fit a b l).2.Keeps Q := by
  unfold simplifyShapes
  dsimp only
  split
  · exact ⟨List.forall_mem_singleton.2 (.relation ha), hs⟩
  · exact ⟨List.forall_mem_singleton.2 (.relation hb), hs⟩
  · have ha := ha.resolve_left nofun
    split
    · exact ⟨leavesIn_function ha hb, hs⟩
    · exact ⟨trivial, hs⟩
  · have ha := ha.resolve_left nofun
    split
    · refine ⟨leavesIn_pairwise fun p hp => ?_, hs⟩
      obtain ⟨hp₁, hp₂⟩ := List.of_mem_zip hp
      exact leavesIn_fitting (.inr (ha.of_mem_children hp₁)) (hb.of_mem_children hp₂)
    · exact ⟨trivial, hs⟩
  · have ha := ha.resolve_left nofun
    split
    · refine ⟨leavesIn_pairwise fun p hp => ?_, hs⟩
      obtain ⟨hp₁, hp₂⟩ := List.of_mem_zip hp
      exact ⟨ha.of_mem_children hp₁, hb.of_mem_children hp₂⟩
    · split
      · exact ⟨trivial, hs⟩
      · rename_i sup hsup
        obtain ⟨habove, -⟩ := Table.above_of_findSupertype hsup
        obtain ⟨hsup, hopened⟩ := leavesIn_openParams (keepsOpened_nil hs)
          (habove.leavesIn htable.supertypes ((hs.leavesIn_apply ha).mono fun l => .inl))
        exact ⟨List.forall_mem_singleton.2 (.relation ⟨hsup, hb⟩), hopened.1⟩
  · exact ⟨trivial, hs⟩

theorem leavesIn_simplifySubtyping (ha : a.LiteralOrIn Q) (hb : b.LeavesIn Q) :
    (simplifySubtyping table s fit a b l).1.LeavesIn Q ∧
      (simplifySubtyping table s fit a b l).2.Keeps Q := by
  have hfirst := hs.shallow_store a
  have hs' := hfirst.shallow_store b
  have hb' := hfirst.shallow hb
  have ha' : (s.shallow a).1.LiteralOrIn Q := by
    rcases ha with ⟨kind, rfl⟩ | ha
    · exact .inl ⟨kind, rfl⟩
    · exact .inr (hs.shallow ha)
  unfold simplifySubtyping
  dsimp only
  split
  · exact ⟨nofun, hs'⟩
  · split
    · exact ⟨nofun, hs'⟩
    · exact ⟨nofun, hs'⟩
    · exact ⟨trivial, hs'⟩
    · exact ⟨trivial, hs'⟩
    · exact ⟨trivial, hs'⟩
    · exact leavesIn_simplifyShapes htable hs' ha' hb'

/-- The members of a type are made of it and of declared types. -/
theorem leavesIn_simplifyMember (member : Name) (site : NodeId) (hb : base.LeavesIn Q)
    (ht : type.LeavesIn Q) :
    (simplifyMember table s base member type site l).1.LeavesIn Q ∧
      (simplifyMember table s base member type site l).2.Keeps Q := by
  have hb' := hs.shallow hb
  have hs' := hs.shallow_store base
  unfold simplifyMember
  dsimp only
  generalize s.shallow base = p at hb' hs' ⊢
  obtain ⟨known, s₁⟩ := p
  dsimp only at *
  split
  · exact ⟨trivial, hs'⟩
  · exact ⟨List.forall_mem_singleton.2 (.relation ⟨ht, hb'⟩), hs'⟩
  · split
    · rename_i helement
      exact ⟨List.forall_mem_singleton.2
        (.relation ⟨hb'.of_mem_children (mem_of_element? helement), ht⟩), hs'⟩
    · exact ⟨trivial, hs'⟩
  · have hreceiver : (s₁.apply known).LeavesIn (Ty.OrParam Q) :=
      (hs'.leavesIn_apply hb').mono fun l => .inl
    have hmembers : ∀ c ∈ table.members (s₁.apply known) member, c.type.LeavesIn (Ty.OrParam Q) :=
      fun c hc => Table.leavesIn_of_mem_members htable hreceiver hc
    split
    · exact ⟨trivial, hs'⟩
    · rename_i c hone
      rw [hone] at hmembers
      exact (leavesIn_openCandidate member hs' ht (hmembers c List.mem_cons_self)).symm
    · exact ⟨List.forall_mem_singleton.2 (.overload ht hmembers), hs'⟩

/-- **Simplifying** a relation brings in no leaf of another kind, also where it is violated. -/
theorem leavesIn_simplify (hr : r.LeavesIn Q) :
    (simplify table s r l).1.LeavesIn Q ∧ (simplify table s r l).2.Keeps Q := by
  cases r with
  | equality a b =>
    have hunify := hs.unify hr.1 hr.2
    unfold simplify
    dsimp only
    split
    · rename_i s₁ heq
      rw [heq] at hunify
      exact ⟨nofun, hunify⟩
    · rename_i s₁ conflict heq
      rw [heq] at hunify
      exact ⟨trivial, hunify⟩
  | subtyping a b => exact leavesIn_simplifySubtyping htable hs hr.1 hr.2
  | returnBinding a b => exact leavesIn_simplifySubtyping htable hs hr.1 hr.2
  | conformance type traits =>
    have hs' := hs.shallow_store type
    show (simplifyConformance table s type traits l).1.LeavesIn Q ∧
      (simplifyConformance table s type traits l).2.Keeps Q
    unfold simplifyConformance
    dsimp only
    split
    · exact ⟨trivial, hs'⟩
    · exact ⟨nofun, hs'⟩
    · split
      · exact ⟨trivial, hs'⟩
      · exact ⟨nofun, hs'⟩
  | conversion type kind =>
    have hs' := hs.shallow_store type
    show (simplifyConversion table s type kind l).1.LeavesIn Q ∧
      (simplifyConversion table s type kind l).2.Keeps Q
    unfold simplifyConversion
    dsimp only
    split
    · exact ⟨trivial, hs'⟩
    · exact ⟨nofun, hs'⟩
    · split
      · exact ⟨nofun, hs'⟩
      · split
        · exact ⟨nofun, hs'⟩
        · exact ⟨trivial, hs'⟩
  | valueMember base member type site =>
    exact leavesIn_simplifyMember htable hs member site hr.1 hr.2
  | size predicate => exact ⟨nofun, hs⟩

end Simplifying

/-! ### Relations of another kind -/

/-- The types of the constraint have leaves of the kind, or it is one of the relations `E`. -/
def Allowed (Q : Ty → Prop) (E : Relation → Prop) (c : Constraint) : Prop :=
  c.LeavesIn Q ∨ ∃ r l, c = .relation r l ∧ E r

theorem allowed_relation : Allowed Q E (.relation r l) ↔ r.LeavesIn Q ∨ E r := by
  refine or_congr ⟨fun h => ?_, .relation⟩ ⟨fun h => ?_, fun h => ⟨r, l, rfl, h⟩⟩
  · cases h with
    | relation h => exact h
  · obtain ⟨r', l', heq, hr⟩ := h
    obtain ⟨rfl, -⟩ := Constraint.relation.inj heq
    exact hr

/-- The relations `E` bring nothing in: simplifying one of them binds no variable that is left out
of the kind and leaves allowed constraints only, and nothing is assumed for any of them. -/
structure Harmless (table : Table) (Q : Ty → Prop) (E : Relation → Prop) : Prop where
  keeps : ∀ {s r l}, E r → s.Keeps Q → (simplify table s r l).2.Keeps Q
  children : ∀ {s r l children entry}, E r →
    (simplify table s r l).1 = .discharged children entry → ∀ c ∈ children, Allowed Q E c
  notFitting : ∀ fit a b, ¬ E (fitting fit a b)
  notConversion : ∀ type kind, ¬ E (.conversion type kind)

theorem harmless_none : Harmless table Q fun _ => False := ⟨nofun, nofun, nofun, nofun⟩

theorem Harmless.simplify (hE : Harmless table Q E) (htable : table.LeavesIn Q) (hs : s.Keeps Q)
    (hr : r.LeavesIn Q ∨ E r) :
    (simplify table s r l).2.Keeps Q ∧
      ∀ children entry, (simplify table s r l).1 = .discharged children entry →
        ∀ c ∈ children, Allowed Q E c := by
  rcases hr with hr | hr
  · obtain ⟨hleaves, hs'⟩ := leavesIn_simplify (l := l) htable hs hr
    refine ⟨hs', fun children entry heq c hc => .inl ?_⟩
    rw [heq] at hleaves
    exact hleaves c hc
  · exact ⟨hE.keeps hr hs, fun children entry heq => hE.children hr heq⟩

/-! ### Paths -/

/-- The store keeps to the kind, and what is left to do on a path is allowed. -/
structure Enclosed (Q : Ty → Prop) (E : Relation → Prop) (s : Store) (w : Work) : Prop where
  keeps : s.Keeps Q
  pending : ∀ c ∈ w.pending, Allowed Q E c

theorem Enclosed.start {cs : List Constraint} (hs : s.Keeps Q) (hcs : ∀ c ∈ cs, Allowed Q E c) :
    Enclosed Q E s (Work.pushAll {} cs) :=
  ⟨hs, fun c hc => hcs c ((Work.pending_start cs).mem_iff.1 hc)⟩

theorem leavesIn_assumption (ha : a.LiteralOrIn Q) (hb : b.LeavesIn Q) :
    (assumption s a b).LeavesIn Q := by
  unfold assumption
  dsimp only
  split
  · exact hb
  · rename_i hnot
    refine ⟨ha.resolve_left ?_, hb⟩
    rintro ⟨kind, rfl⟩
    exact hnot kind rfl

section Steps

variable (htable : ctx.table.LeavesIn Q) (hE : Harmless ctx.table Q E)
include htable hE

/-- The goal that comes next is allowed, as what is left then. -/
theorem Enclosed.turn (h : Enclosed Q E s w) (hturn : w.turn ctx s = .simplify goal rest) :
    (goal.relation.LeavesIn Q ∨ E goal.relation) ∧ Enclosed Q E s rest := by
  have hdeferred : ∀ d ∈ w.deferred, d.goal.relation.LeavesIn Q ∨ E d.goal.relation :=
    fun d hd => allowed_relation.1 (h.pending d.goal.constraint (List.mem_append_left _
      (List.mem_append_right _ (List.mem_map.2 ⟨d, hd, rfl⟩))))
  refine ⟨?_, h.keeps, fun c hc => h.pending c ((mem_pending_of_simplify hturn).2 c hc)⟩
  have hnext := w.next_turn ctx s
  rw [hturn] at hnext
  cases hnext with
  | goal hqueue =>
    refine allowed_relation.1 (h.pending goal.constraint ?_)
    exact List.mem_append_left _ (List.mem_append_left _
      (List.mem_map_of_mem (hqueue ▸ List.mem_cons_self)))
  | weakened _ _ hweaken =>
    obtain ⟨d, fit, a, b, hperm, hrelation, rfl, rfl⟩ := weaken_cases hweaken
    have hd := hdeferred d (hperm.mem_iff.2 List.mem_cons_self)
    rw [hrelation] at hd
    have hsides : a.LiteralOrIn Q ∧ b.LeavesIn Q := by
      have hd := hd.resolve_right (hE.notFitting fit a b)
      cases fit <;> exact hd
    exact .inl (leavesIn_assumption hsides.1 hsides.2)
  | literal _ _ hliteral =>
    obtain ⟨d, hd, u, kind, hrelation, rfl, hdefault, -⟩ := defaultLiteral_cases hliteral
    have hd := hdeferred d hd
    rw [hrelation] at hd
    have hu : Q (.var u) :=
      hd.resolve_right (hE.notConversion _ kind) _ (List.mem_singleton.2 rfl)
    exact .inl ⟨Ty.leavesIn_singleton rfl (h.keeps.var_root hu),
      htable.literalDefaults _ (Table.mem_of_lookup_eq_some hdefault)⟩

/-- Following a path by one goal keeps it enclosed. -/
theorem Enclosed.simplify (h : Enclosed Q E s w) (hturn : w.turn ctx s = .simplify goal rest)
    (hsimp : Path.simplify ctx goal rest s = (.open w', s')) : Enclosed Q E s' w' := by
  obtain ⟨hgoal, hrest⟩ := h.turn htable hE hturn
  obtain ⟨hs', hchildren⟩ := hE.simplify (l := goal.locator) htable h.keeps hgoal
  rw [← store_pathSimplify ctx goal rest, hsimp] at hs'
  refine ⟨hs', fun c hc => ?_⟩
  rcases mem_pending_of_pathSimplify hsimp hc with hc | ⟨rfl, -⟩ | ⟨children, entry, hsimp, hc⟩
  · exact hrest.pending c hc
  · exact allowed_relation.2 hgoal
  · exact hchildren children entry (congrArg Prod.fst hsimp) c hc

omit htable hE in
/-- Entering an alternative keeps a path enclosed. -/
theorem Enclosed.enter {point : BranchPoint} {x : Alternative} {i : Nat} (h : Enclosed Q E s w)
    (hturn : w.turn ctx s = .choose point rest) (hx : point.offer.alternatives[i]? = some x) :
    Enclosed Q E (x.enter point.locator rest s).2 (x.enter point.locator rest s).1 := by
  obtain ⟨hmem, hrest⟩ := Work.mem_pending_of_choose hturn
  have hpoint : Allowed Q E point.constraint := h.pending _ hmem
  have hpending : ∀ c ∈ rest.pending, Allowed Q E c := fun c hc => h.pending c (hrest c hc)
  have hlisted := mem_listed_of_mem_alternatives hx
  obtain ⟨ordinal, offer, l⟩ := point
  cases offer with
  | overload o =>
    obtain ⟨c, hmem, rfl⟩ := List.mem_map.1 hlisted
    rcases hpoint with hpoint | ⟨r, l, heq, -⟩
    · cases hpoint with
      | overload htype hcandidates =>
        obtain ⟨hs', hnews⟩ :=
          leavesIn_openCandidate (l := l.map (·.extend (.candidate c.decl))) o.name h.keeps
            htype (hcandidates c hmem)
        refine ⟨hs', fun d hd => ?_⟩
        replace hd := (Work.pending_pushAll _ _).mem_iff.1 hd
        rw [Work.pending_record] at hd
        exact (List.mem_append.1 hd).elim (fun hd => .inl (hnews d hd)) (hpending d)
    · cases heq
  | disjunction ms =>
    obtain ⟨j, hj, rfl⟩ := List.mem_mapIdx.1 hlisted
    rcases hpoint with hpoint | ⟨r, l, heq, -⟩
    · cases hpoint with
      | disjunction hall =>
        refine ⟨h.keeps, fun d hd => ?_⟩
        replace hd := (Work.pending_pushAll _ _).mem_iff.1 hd
        rcases List.mem_append.1 hd with hd | hd
        · obtain ⟨c, hc, rfl⟩ := List.mem_map.1 hd
          exact .inl ((hall _ (List.getElem_mem hj) c hc).orLocator _)
        · exact hpending d hd
    · cases heq

/-- **No leaf of another kind** is met on the way to a leaf of the search, apart from those of the
relations that are let be. -/
theorem Leaf.enclosed {path : List Nat} (h : Leaf ctx s w path t v) :
    Enclosed Q E s w → Enclosed Q E t v := by
  induction h with
  | complete => exact id
  | simplify hturn hsimp _ ih => exact fun h => ih (h.simplify htable hE hturn hsimp)
  | choose hturn hx _ ih => exact fun h => ih (h.enter hturn hx)

end Steps

/-! ### Kinds with all variables -/

/-- The types of what is left to do on a path, and those that variables are bound to, have leaves
of the kind. -/
structure Confined (Q : Ty → Prop) (s : Store) (w : Work) : Prop where
  binds : s.BindsOnly (Ty.LeavesIn Q)
  pending : ∀ c ∈ w.pending, c.LeavesIn Q

section Kind

variable (hvar : ∀ v, Q (.var v))
include hvar

theorem confined_iff : Confined Q s w ↔ Enclosed Q (fun _ => False) s w :=
  ⟨fun h => ⟨.of_vars hvar h.binds, fun c hc => .inl (h.pending c hc)⟩,
    fun h => ⟨h.keeps.binds, fun c hc => (h.pending c hc).resolve_right fun ⟨_, _, _, hr⟩ => hr⟩⟩

theorem Confined.turn (htable : ctx.table.LeavesIn Q) (h : Confined Q s w)
    (hturn : w.turn ctx s = .simplify goal rest) :
    goal.relation.LeavesIn Q ∧ Confined Q s rest := by
  obtain ⟨hgoal, hrest⟩ := ((confined_iff hvar).1 h).turn htable harmless_none hturn
  exact ⟨hgoal.resolve_right id, (confined_iff hvar).2 hrest⟩

theorem Confined.simplify (htable : ctx.table.LeavesIn Q) (h : Confined Q s w)
    (hturn : w.turn ctx s = .simplify goal rest)
    (hsimp : Path.simplify ctx goal rest s = (.open w', s')) : Confined Q s' w' :=
  (confined_iff hvar).2 (((confined_iff hvar).1 h).simplify htable harmless_none hturn hsimp)

theorem Leaf.confined {path : List Nat} (htable : ctx.table.LeavesIn Q)
    (h : Leaf ctx s w path t v) (hw : Confined Q s w) : Confined Q t v :=
  (confined_iff hvar).2 (h.enclosed htable harmless_none ((confined_iff hvar).1 hw))

end Kind
end Search
end TypeResolution
