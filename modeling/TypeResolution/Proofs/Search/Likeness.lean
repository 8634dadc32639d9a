/-
# Paths that are alike

The work of two paths is alike if what is left to do on them says the same, in the same order, and
they have recorded the same (`Search.Work.Like`). They may have warned at other locators where
locators may be others. In stores with the same slots the same comes next on such paths
(`Search.Work.Like.turn`), the same alternatives are offered at a choice, and entering one of them
leaves work that is alike and stores with the same slots (`Search.Alternative.Like.enter`).

Key definitions: `Search.Goal.Like`, `Search.BranchPoint.Like`, `Search.Work.Like`,
`Search.Turn.Like`, `Search.Alternative.Like`.
Key theorems: `Search.Work.Like.turn`, `Search.Offer.Like.alternatives`,
`Search.Offer.Like.exists_alternative`, `Search.Alternative.Like.enter`.
-/
import TypeResolution.Proofs.Search.Latitude
import TypeResolution.Proofs.Store.Symmetry

namespace TypeResolution
namespace Search

open Store

/-! ### What is left to do -/

structure Goal.Like (L : Latitude) (g g' : Goal) : Prop where
  ordinal : g.ordinal = g'.ordinal
  relation : L.Relates g.relation g'.relation
  locator : L.Locates g.locator g'.locator

structure Deferred.Like (L : Latitude) (d d' : Deferred) : Prop where
  goal : d.goal.Like L d'.goal
  watch : d.watch = d'.watch

/-- The same alternatives are offered, perhaps in another order. -/
inductive Offer.Like (L : Latitude) : Offer → Offer → Prop where
  | overload {o : Overload} {candidates : List Candidate} : L.Lists o.candidates candidates →
      Like L (.overload o) (.overload { o with candidates })
  | disjunction {ms ms' ns : List (Minterm Constraint)} : L.Lists ms ms' →
      List.Forall₂ (Minterm.Like (Constraint.Like L)) ms' ns →
      Like L (.disjunction ms) (.disjunction ns)

structure BranchPoint.Like (L : Latitude) (p p' : BranchPoint) : Prop where
  ordinal : p.ordinal = p'.ordinal
  offer : p.offer.Like L p'.offer
  locator : L.Locates p.locator p'.locator

/-- The same candidate was settled on, perhaps at another locator. -/
structure Choice.Like (L : Latitude) (c c' : Choice) : Prop where
  decl : c.decl = c'.decl
  name : c.name = c'.name
  signature : c.signature = c'.signature
  locator : L.Locates c.locator c'.locator

/-- The same reference was settled. -/
def Choice.LikeAt (L : Latitude) (p p' : NodeId × Choice) : Prop :=
  p.1 = p'.1 ∧ p.2.Like L p'.2

inductive Entry.Like (L : Latitude) : Entry → Entry → Prop where
  | conversion : Like L .conversion .conversion
  | predicate (p : SizePredicate) : Like L (.predicate p) (.predicate p)
  | choice {site : NodeId} {c c' : Choice} { isGeneric : Bool} : c.Like L c' →
      Like L (.choice site c isGeneric) (.choice site c' isGeneric)

/-- What is left to do says the same, and the same has been recorded. -/
structure Work.Like (L : Latitude) (w w' : Work) : Prop where
  queue : List.Forall₂ (Goal.Like L) w.queue w'.queue
  deferred : List.Forall₂ (Deferred.Like L) w.deferred w'.deferred
  branches : List.Forall₂ (BranchPoint.Like L) w.branches w'.branches
  nextOrdinal : w.nextOrdinal = w'.nextOrdinal
  penalty : w.penalty = w'.penalty
  genericChoices : w.genericChoices = w'.genericChoices
  conversions : w.conversions = w'.conversions
  choices : List.Forall₂ (Choice.LikeAt L) w.choices w'.choices
  predicates : w.predicates = w'.predicates
  warnings : ¬ L.relocates → w.warnings = w'.warnings
  progress : w.progress = w'.progress

/-- The same comes next. -/
inductive Turn.Like (L : Latitude) : Turn → Turn → Prop where
  | simplify {goal goal' : Goal} {rest rest' : Work} : goal.Like L goal' → rest.Like L rest' →
      Like L (.simplify goal rest) (.simplify goal' rest')
  | choose {point point' : BranchPoint} {rest rest' : Work} : point.Like L point' →
      rest.Like L rest' → Like L (.choose point rest) (.choose point' rest')
  | fail {e e' : TypeError} : TypeError.Like L e e' → Like L (.fail e) (.fail e')
  | complete : Like L .complete .complete

/-- The alternatives stand for each other: the same candidate, or minterms that say the same. -/
inductive Alternative.Like (L : Latitude) : Alternative → Alternative → Prop where
  | candidate {o : Overload} {candidates : List Candidate} (c : Candidate) :
      Like L (.candidate o c) (.candidate { o with candidates } c)
  | minterm {i j : Nat} {m n : Minterm Constraint} : i = j ∨ L.relocates →
      Minterm.Like (Constraint.Like L) m n → Like L (.minterm i m) (.minterm j n)

variable {L : Latitude} {s t : Store} {w w' : Work} {l l' : Option Locator} {p p' : BranchPoint}

/-! ### Work -/

theorem forall₂_insertBefore {α β : Type} {R : α → β → Prop} {before : α → α → Bool}
    {before' : β → β → Bool} {x : α} {y : β} {xs : List α} {ys : List β}
    (hbefore : ∀ {a b a' b'}, R a b → R a' b' → before a a' = before' b b') (hxy : R x y)
    (h : List.Forall₂ R xs ys) :
    List.Forall₂ R (insertBefore before x xs) (insertBefore before' y ys) := by
  induction h with
  | nil => exact .cons hxy .nil
  | cons hab hrest ih =>
    unfold insertBefore
    rw [hbefore hxy hab]
    split
    · exact .cons hxy (.cons hab hrest)
    · exact .cons hab ih

theorem Goal.Like.before {g g' k k' : Goal} (h : g.Like L g') (hk : k.Like L k') :
    g.before k = g'.before k' := by
  unfold Goal.before
  rw [h.relation.precedence, hk.relation.precedence, h.ordinal, hk.ordinal]

theorem BranchPoint.Like.alternativeCount (h : p.Like L p') :
    p.alternativeCount = p'.alternativeCount := by
  obtain ⟨i, o, l⟩ := p
  obtain ⟨i', o', l'⟩ := p'
  have hoffer : o.Like L o' := h.offer
  cases hoffer with
  | overload hlists => exact hlists.perm.length_eq
  | disjunction hlists hns => exact hlists.perm.length_eq.trans hns.length_eq

theorem BranchPoint.Like.before {k k' : BranchPoint} (h : p.Like L p') (hk : k.Like L k') :
    p.before k = p'.before k' := by
  unfold BranchPoint.before
  rw [h.alternativeCount, hk.alternativeCount, h.ordinal, hk.ordinal]

theorem like_setKey {site : NodeId} {c c' : Choice} (hc : c.Like L c')
    {choices choices' : List (NodeId × Choice)}
    (h : List.Forall₂ (Choice.LikeAt L) choices choices') :
    List.Forall₂ (Choice.LikeAt L) (setKey site c choices) (setKey site c' choices') := by
  induction h with
  | nil => exact .cons ⟨rfl, hc⟩ .nil
  | @cons q q' _ _ hq hrest ih =>
    obtain ⟨k, a⟩ := q
    obtain ⟨k', a'⟩ := q'
    obtain rfl : k = k' := hq.1
    unfold setKey
    split
    · exact .cons ⟨rfl, hc⟩ hrest
    · exact .cons ⟨rfl, hq.2⟩ ih

namespace Work.Like

variable {c c' : Constraint} {cs cs' : List Constraint} {e e' : Option Entry}

theorem empty : Work.Like L {} {} :=
  ⟨.nil, .nil, .nil, rfl, rfl, rfl, rfl, .nil, rfl, fun _ => rfl, rfl⟩

theorem push (h : w.Like L w') (hc : c.Like L c') : (w.push c).Like L (w'.push c') := by
  have hbranches : ∀ {o o' : Offer} {l l' : Option Locator},
      BranchPoint.Like L ⟨w.nextOrdinal, o, l⟩ ⟨w'.nextOrdinal, o', l'⟩ →
      List.Forall₂ (BranchPoint.Like L)
        (insertBefore BranchPoint.before ⟨w.nextOrdinal, o, l⟩ w.branches)
        (insertBefore BranchPoint.before ⟨w'.nextOrdinal, o', l'⟩ w'.branches) :=
    fun hp => forall₂_insertBefore BranchPoint.Like.before hp h.branches
  have hnext : w.nextOrdinal + 1 = w'.nextOrdinal + 1 := by rw [h.nextOrdinal]
  cases hc with
  | relation hr hl =>
    exact { h with
      queue := forall₂_insertBefore Goal.Like.before ⟨h.nextOrdinal, hr, hl⟩ h.queue
      nextOrdinal := hnext }
  | overload ho hl =>
    exact { h with branches := hbranches ⟨h.nextOrdinal, .overload ho, hl⟩, nextOrdinal := hnext }
  | disjunction hms hns hl =>
    exact { h with
      branches := hbranches ⟨h.nextOrdinal, .disjunction hms hns, hl⟩, nextOrdinal := hnext }

theorem pushAll (h : w.Like L w') (hcs : List.Forall₂ (Constraint.Like L) cs cs') :
    (w.pushAll cs).Like L (w'.pushAll cs') := by
  induction hcs generalizing w w' with
  | nil => exact h
  | cons hc _ ih => exact ih (h.push hc)

theorem record {e e' : Entry} (h : w.Like L w') (he : e.Like L e') :
    (w.record e).Like L (w'.record e') := by
  cases he with
  | conversion => exact { h with conversions := congrArg (· + 1) h.conversions }
  | predicate p => exact { h with predicates := congrArg (· ++ [p]) h.predicates }
  | choice hc =>
    refine { h with choices := like_setKey hc h.choices, genericChoices := ?_ }
    unfold Work.record
    dsimp only
    rw [h.genericChoices]

theorem discharge (h : w.Like L w') (hcs : List.Forall₂ (Constraint.Like L) cs cs')
    (he : Option.Rel (Entry.Like L) e e') : (w.discharge cs e).Like L (w'.discharge cs' e') := by
  have hnext : Work.Like L { w with progress := w.progress + 1 }
      { w' with progress := w'.progress + 1 } :=
    { h with progress := congrArg (· + 1) h.progress }
  unfold Work.discharge
  cases he with
  | none => exact hnext.pushAll hcs
  | some he => exact (hnext.record he).pushAll hcs

theorem defer {goal goal' : Goal} (h : w.Like L w') (hgoal : goal.Like L goal')
    (watch : List TyVar) : (w.defer goal watch).Like L (w'.defer goal' watch) := by
  refine { h with deferred := forall₂_insertBefore (fun hd hd' => ?_) ⟨hgoal, rfl⟩ h.deferred }
  rw [hd.goal.ordinal, hd'.goal.ordinal]

theorem wake (h : w.Like L w') (hslots : s.slots = t.slots) : (w.wake s).Like L (w'.wake t) := by
  have hready : ∀ {d d' : Deferred}, d.Like L d' → d.isReady s = d'.isReady t := by
    intro d d' hd
    unfold Deferred.isReady
    rw [hd.watch, probe_congr hslots]
  have hgo := List.rel_filter (p := (·.isReady s)) (q := (·.isReady t))
    (fun _ _ hd => iff_of_eq (congrArg (· = true) (hready hd))) h.deferred
  have hstay := List.rel_filter (p := (!·.isReady s)) (q := (!·.isReady t))
    (fun _ _ hd => iff_of_eq (congrArg (fun ready : Bool => (!ready) = true) (hready hd)))
    h.deferred
  unfold Work.wake
  rw [List.partition_eq_filter_filter, List.partition_eq_filter_filter]
  refine { h with deferred := hstay, queue := ?_ }
  exact List.rel_foldl (P := List.Forall₂ (Goal.Like L)) (R := Deferred.Like L)
    (fun _ _ hqueue _ _ hd => forall₂_insertBefore Goal.Like.before hd.goal hqueue) h.queue hgo

end Work.Like

/-! ### What comes next -/

/-- The same relation stands in for a goal, and the goals that are left are alike. -/
def Assumes (L : Latitude) (x y : Relation × Option Locator × List Deferred) : Prop :=
  x.1 = y.1 ∧ L.Locates x.2.1 y.2.1 ∧ List.Forall₂ (Deferred.Like L) x.2.2 y.2.2

theorem like_weaken {ds ds' : List Deferred} (hslots : s.slots = t.slots)
    (h : List.Forall₂ (Deferred.Like L) ds ds') :
    Option.Rel (Assumes L) (weaken s ds) (weaken t ds') := by
  rw [weaken_congr hslots]
  induction h with
  | nil => exact .none
  | @cons d d' ds ds' hd hrest ih =>
    obtain ⟨⟨i, r, l⟩, watch⟩ := d
    obtain ⟨⟨i', r', l'⟩, watch'⟩ := d'
    have hskip : Option.Rel (Assumes L)
        ((weaken t ds).map fun x => (x.1, x.2.1, ⟨⟨i, r, l⟩, watch⟩ :: x.2.2))
        ((weaken t ds').map fun x => (x.1, x.2.1, ⟨⟨i', r', l'⟩, watch'⟩ :: x.2.2)) :=
      optionRel_map ih fun hx => ⟨hx.1, hx.2.1, .cons hd hx.2.2⟩
    have hl : L.Locates l l' := hd.goal.locator
    have hr : L.Relates r r' := hd.goal.relation
    cases hr with
    | same =>
      cases r with
      | subtyping a b => exact .some ⟨rfl, hl, hrest⟩
      | returnBinding a b => exact .some ⟨rfl, hl, hrest⟩
      | _ => exact hskip
    | flipped => exact hskip
    | returned => exact .some ⟨rfl, hl, hrest⟩
    | untagged => exact .some ⟨rfl, hl, hrest⟩

theorem like_defaultLiteral {ds ds' : List Deferred} (table : Table) (hslots : s.slots = t.slots)
    (h : List.Forall₂ (Deferred.Like L) ds ds') :
    Option.Rel (fun x y : TyVar × Ty × Option Locator =>
      x.1 = y.1 ∧ x.2.1 = y.2.1 ∧ L.Locates x.2.2 y.2.2)
      (defaultLiteral table s ds) (defaultLiteral table t ds') := by
  rw [defaultLiteral_congr table hslots]
  induction h with
  | nil => exact .none
  | @cons d d' ds ds' hd hrest ih =>
    obtain ⟨⟨i, r, l⟩, watch⟩ := d
    obtain ⟨⟨i', r', l'⟩, watch'⟩ := d'
    have hl : L.Locates l l' := hd.goal.locator
    have hr : L.Relates r r' := hd.goal.relation
    cases hr with
    | same =>
      unfold defaultLiteral
      dsimp only
      split
      · split
        · exact .some ⟨rfl, rfl, hl⟩
        · exact ih
      · exact ih
    | _ => exact ih

theorem like_incomplete (ctx : Context) {ds ds' : List Deferred} (hslots : s.slots = t.slots)
    (h : List.Forall₂ (Deferred.Like L) ds ds') :
    Option.Rel (TypeError.Like L) (incomplete ctx s ds) (incomplete ctx t ds') := by
  have hwatch : ds.flatMap (·.watch) = ds'.flatMap (·.watch) := by
    induction h with
    | nil => rfl
    | cons hd _ ih => rw [List.flatMap_cons, List.flatMap_cons, hd.watch, ih]
  have hempty : ds.isEmpty = ds'.isEmpty := by cases h <;> rfl
  have hl : L.Locates (ds.head?.bind (·.goal.locator)) (ds'.head?.bind (·.goal.locator)) := by
    cases h with
    | nil => exact .refl none
    | cons hd _ => exact hd.goal.locator
  rw [incomplete_congr ctx hslots]
  unfold incomplete
  rw [hwatch, hempty]
  dsimp only
  split
  · exact .none
  · exact .some (.relocate (.stopped (.incomplete _)) (fun _ => trivial) hl)

theorem Work.Like.takeUp (h : w.Like L w') (r : Relation) (hl : L.Locates l l') :
    (w.takeUp r l).Like L (w'.takeUp r l') :=
  .simplify ⟨h.nextOrdinal, .same r, hl⟩ { h with nextOrdinal := by rw [h.nextOrdinal] }

theorem Work.Like.warn (h : w.Like L w') (warning : Option Locator → Diagnostic)
    (hl : L.Locates l l') : Work.Like L { w with warnings := warning l :: w.warnings }
      { w' with warnings := warning l' :: w'.warnings } := by
  refine { h with warnings := fun hL => ?_ }
  obtain rfl : l = l' := hl.resolve_right hL
  exact congrArg (warning l :: ·) (h.warnings hL)

theorem Work.Like.assume (h : w.Like L w') (ctx : Context) (hslots : s.slots = t.slots) :
    (w.assume ctx s).Like L (w'.assume ctx t) := by
  have hweaken := like_weaken hslots h.deferred
  have hliteral : Option.Rel (fun x y : TyVar × Ty × Option Locator =>
      x.1 = y.1 ∧ x.2.1 = y.2.1 ∧ L.Locates x.2.2 y.2.2)
      (if ctx.options.literalDefaulting then defaultLiteral ctx.table s w.deferred else none)
      (if ctx.options.literalDefaulting then defaultLiteral ctx.table t w'.deferred else none) := by
    split
    · exact like_defaultLiteral ctx.table hslots h.deferred
    · exact .none
  have hincomplete := like_incomplete ctx hslots h.deferred
  unfold Work.assume
  generalize weaken s w.deferred = x at hweaken ⊢
  generalize weaken t w'.deferred = y at hweaken ⊢
  cases hweaken with
  | @some x y hassumes =>
    obtain ⟨r, l, ds⟩ := x
    obtain ⟨r', l', ds'⟩ := y
    obtain ⟨hr, hl, hds⟩ := hassumes
    obtain rfl : r = r' := hr
    have hrest : Work.Like L { w with deferred := ds } { w' with deferred := ds' } :=
      { h with deferred := hds }
    exact hrest.takeUp r hl
  | none =>
    dsimp only
    generalize (if ctx.options.literalDefaulting then defaultLiteral ctx.table s w.deferred
      else none) = x at hliteral ⊢
    generalize (if ctx.options.literalDefaulting then defaultLiteral ctx.table t w'.deferred
      else none) = y at hliteral ⊢
    cases hliteral with
    | @some x y heq =>
      obtain ⟨v, type, l⟩ := x
      obtain ⟨v', type', l'⟩ := y
      obtain ⟨hv, htype, hl⟩ := heq
      obtain rfl : v = v' := hv
      obtain rfl : type = type' := htype
      exact (h.warn (Diagnostic.ofMessage · .literalDefaulted _) hl).takeUp _ hl
    | none =>
      dsimp only
      generalize incomplete ctx s w.deferred = x at hincomplete ⊢
      generalize incomplete ctx t w'.deferred = y at hincomplete ⊢
      cases hincomplete with
      | none => exact .complete
      | some he => exact .fail he

/-- **The same comes next** on paths that are alike. -/
theorem Work.Like.turn (h : w.Like L w') (ctx : Context) (hslots : s.slots = t.slots) :
    (w.turn ctx s).Like L (w'.turn ctx t) := by
  obtain ⟨queue, deferred, branches⟩ := w
  obtain ⟨queue', deferred', branches'⟩ := w'
  have hqueue : List.Forall₂ (Goal.Like L) queue queue' := h.queue
  have hbranches : List.Forall₂ (BranchPoint.Like L) branches branches' := h.branches
  unfold Work.turn
  cases hqueue with
  | cons hgoal hqueue => exact .simplify hgoal { h with queue := hqueue }
  | nil =>
    cases hbranches with
    | nil => exact h.assume ctx hslots
    | @cons p p' ps ps' hp hbranches =>
      have hchoose : Turn.Like L (.choose p ⟨[], deferred, ps, _, _, _, _, _, _, _, _⟩)
          (.choose p' ⟨[], deferred', ps', _, _, _, _, _, _, _, _⟩) :=
        .choose hp { h with branches := hbranches }
      obtain ⟨i, o, l⟩ := p
      obtain ⟨i', o', l'⟩ := p'
      have hoffer : o.Like L o' := hp.offer
      cases hoffer with
      | disjunction => exact hchoose
      | @overload o cs' hlists =>
        obtain ⟨type, name, site, cs⟩ := o
        have hperm : cs.Perm cs' := hlists.perm
        cases cs with
        | nil =>
          obtain rfl := hperm.nil_eq
          exact .fail (.relocate (.noViableCandidate name []) (fun _ => trivial) hp.locator)
        | cons c cs =>
          cases cs' with
          | nil => cases hperm.eq_nil
          | cons c' cs' => exact hchoose

/-! ### Alternatives -/

theorem Alternative.Like.penalty {x x' : Alternative} (h : x.Like L x') :
    x.penalty = x'.penalty := by
  cases h with
  | candidate c => rfl
  | minterm _ hm =>
    cases hm
    rfl

theorem Alternative.Like.isGeneric {x x' : Alternative} (h : x.Like L x') :
    x.isGeneric = x'.isGeneric := by
  cases h <;> rfl

theorem Alternative.Like.le {x x' y y' : Alternative} (h : x.Like L x') (hy : y.Like L y') :
    x.le y = x'.le y' := by
  unfold Alternative.le
  rw [h.penalty, h.isGeneric, hy.penalty, hy.isGeneric]

/-- Where alternatives are listed in the same order they are tried in the same order. -/
theorem Offer.Like.alternatives {o o' : Offer} (h : o.Like L o') (hL : ¬ L.reorders) :
    List.Forall₂ (Alternative.Like L) o.alternatives o'.alternatives := by
  refine forall₂_mergeSort ?_ Alternative.Like.le
  cases h with
  | overload hlists =>
    obtain rfl := hlists.eq hL
    unfold Offer.listed
    rw [List.forall₂_map_left_iff, List.forall₂_map_right_iff, List.forall₂_same]
    exact fun c _ => .candidate c
  | disjunction hlists hns =>
    obtain rfl := hlists.eq hL
    unfold Offer.listed
    rw [List.forall₂_iff_get] at hns ⊢
    refine ⟨by simpa using hns.1, fun i hi hi' => ?_⟩
    simp only [List.get_eq_getElem, List.getElem_mapIdx]
    exact .minterm (.inl rfl) (hns.2 i (by simpa using hi) (by simpa using hi'))

/-- Each alternative stands for one of the other offer. -/
theorem Offer.Like.exists_alternative {o o' : Offer} (h : o.Like L o') {x : Alternative}
    (hx : x ∈ o.alternatives) : ∃ x' ∈ o'.alternatives, x.Like L x' := by
  by_cases hL : L.reorders
  · rw [o.alternatives_perm.mem_iff] at hx
    simp only [o'.alternatives_perm.mem_iff]
    cases h with
    | @overload o candidates hlists =>
      obtain ⟨c, hc, rfl⟩ := List.mem_map.1 hx
      exact ⟨_, List.mem_map.2 ⟨c, hlists.perm.mem_iff.1 hc, rfl⟩, .candidate c⟩
    | disjunction hlists hns =>
      obtain ⟨i, hi, rfl⟩ := List.mem_mapIdx.1 hx
      obtain ⟨n, hn, hmn⟩ := (exists_of_forall₂ hns).1 _
        (hlists.perm.mem_iff.1 (List.getElem_mem hi))
      obtain ⟨j, hj, rfl⟩ := List.getElem_of_mem hn
      exact ⟨_, List.mem_mapIdx.2 ⟨j, hj, rfl⟩, .minterm (.inr (L.relocates_of_reorders hL)) hmn⟩
  · exact (exists_of_forall₂ (h.alternatives hL)).1 x hx

/-! ### Entering an alternative -/

theorem like_openCandidate (s : Store) (type : Ty) (name : Name) (c : Candidate)
    (hl : L.Locates l l') :
    (openCandidate s type name c l).store = (openCandidate s type name c l').store ∧
      (openCandidate s type name c l).choice.Like L (openCandidate s type name c l').choice ∧
      List.Forall₂ (Constraint.Like L) (openCandidate s type name c l).constraints
        (openCandidate s type name c l').constraints := by
  refine ⟨rfl, ⟨rfl, rfl, rfl, hl⟩, .cons (.relation (.same _) hl) ?_⟩
  refine List.rel_filterMap (R := Eq) ?_ (List.forall₂_refl _)
  rintro g _ rfl
  dsimp only
  generalize List.lookup g.name _ = v
  cases v with
  | none => exact .none
  | some v => exact .some (.relation (.same _) hl)

/-- **Entering an alternative** leads to work that is alike, and to the same slots. -/
theorem Alternative.Like.enter {x x' : Alternative} (h : x.Like L x') (hl : L.Locates l l')
    (hw : w.Like L w') (hslots : s.slots = t.slots) :
    (x.enter l w s).1.Like L (x'.enter l' w' t).1 ∧
      (x.enter l w s).2.slots = (x'.enter l' w' t).2.slots := by
  have hpenalty : ∀ penalty, Work.Like L { w with penalty := addPenalty w.penalty penalty }
      { w' with penalty := addPenalty w'.penalty penalty } := fun penalty =>
    { hw with penalty := congrArg (addPenalty · penalty) hw.penalty }
  cases h with
  | @candidate o candidates c =>
    obtain ⟨hstore, hchoice, hconstraints⟩ :=
      like_openCandidate s o.type o.name c (hl.map (·.extend (.candidate c.decl)))
    obtain ⟨hconstraints', hchoice', htogether⟩ := alike_openCandidate (parallel_together s t)
      (.refl hslots) o.type o.name c (l'.map (·.extend (.candidate c.decl)))
    rw [hchoice'] at hchoice
    rw [hconstraints'] at hconstraints
    rw [← hstore] at htogether
    exact ⟨((hpenalty c.penalty).record (.choice hchoice)).pushAll hconstraints, htogether.slots⟩
  | @minterm i j m n hij hm =>
    have hinherited : L.Locates (l.map (·.extend (.minterm i)))
        (l'.map (·.extend (.minterm j))) := by
      rcases hij with rfl | hL
      · exact hl.map _
      · exact .inr hL
    cases hm with
    | @mk penalty cs ds hcs =>
      have hminterm := List.rel_map (fun _ _ hc => hc.orLocator hinherited) hcs
      exact ⟨(hpenalty penalty).pushAll hminterm, hslots⟩

end Search
end TypeResolution
