/-
# Steps on goals that are alike

A relation is simplified alike at another locator, tagged or not, in a store with the same slots:
what it comes down to says the same, and both stores have been written to or neither
(`Search.like_simplify`), so that the same goals are looked at again
(`Search.Work.Like.pathSimplify`). Where the sides of an equality are exchanged this is the symmetry
of unification, for which the store has to be well-formed and to have what is looked up. Whether it
has that does not depend on how the relation is written either (`Search.like_simplifyOwns`).

Key definitions: `Search.Simplified.Like`, `Search.Failure.Like`, `Search.Path.Like`,
`Search.Prepared`.
Key theorems: `Search.like_simplify`, `Search.like_simplifyOwns`, `Search.Work.Like.pathSimplify`.
-/
import TypeResolution.Proofs.Search.Likeness

namespace TypeResolution
namespace Search

open Store

/-- A step on a relation comes to the same. -/
inductive Simplified.Like (L : Latitude) : Simplified → Simplified → Prop where
  | discharged {cs ds : List Constraint} {e e' : Option Entry} :
      List.Forall₂ (Constraint.Like L) cs ds → Option.Rel (Entry.Like L) e e' →
      Like L (.discharged cs e) (.discharged ds e')
  | undecided (watch : List TyVar) : Like L (.undecided watch) (.undecided watch)
  | violated {e e' : TypeError} : TypeError.Like L e e' → Like L (.violated e) (.violated e')

/-- The paths failed alike: as far on the way, and with errors that are alike. Where locators may
be others, another failure may be told. -/
structure Failure.Like (L : Latitude) (f f' : Failure) : Prop where
  left : EndsPath f.error
  right : EndsPath f'.error
  error : TypeError.Like L f.error f'.error
  progress : ¬ L.relocates → f.progress = f'.progress

inductive Path.Like (L : Latitude) : Path → Path → Prop where
  | works {w w' : Work} : w.Like L w' → Like L (.open w) (.open w')
  | fails {f f' : Failure} : f.Like L f' → Like L (.failed f) (.failed f')

variable {L : Latitude} {table : Table} {s t : Store} {w w' : Work}
variable {l l' : Option Locator} {a b type : Ty} {fit fit' : Fit} {r r' : Relation}

/-! ### Relations at other locators -/

/-- Types fit as subtypes either way, where a subtyping may be tagged. -/
def Fits (L : Latitude) (fit fit' : Fit) : Prop := fit = fit' ∨ L.tags

theorem Fits.relates (h : Fits L fit fit') (a b : Ty) :
    L.Relates (fitting fit a b) (fitting fit' a b) := by
  rcases h with rfl | hL
  · exact .same _
  · cases fit <;> cases fit' <;> first
      | exact .same _
      | exact .returned hL
      | exact .untagged hL

theorem Fits.mismatch (h : Fits L fit fit') (hl : L.Locates l l') (a b : Ty) :
    TypeError.Like L (.mismatch fit a b l) (.mismatch fit' a b l') := by
  rcases h with rfl | hL
  · exact .relocate (.mismatch fit a b) (fun _ => trivial) hl
  · exact .told (L.relocates_of_tags hL) trivial trivial

theorem locates_extended (hl : L.Locates l l') (step : PathStep) :
    L.Locates (extended l step) (extended l' step) := hl.map _

theorem like_pairwise {α : Type} {relate relate' : α → α → Relation} (step : Nat → PathStep)
    (hl : L.Locates l l') (hrelate : ∀ x y, L.Relates (relate x y) (relate' x y)) (xs ys : List α) :
    List.Forall₂ (Constraint.Like L) (pairwise l step relate xs ys)
      (pairwise l' step relate' xs ys) := by
  unfold pairwise
  rw [List.forall₂_iff_get]
  refine ⟨by simp, fun i hi hi' => ?_⟩
  simp only [List.get_eq_getElem, List.getElem_mapIdx]
  exact .relation (hrelate _ _) (locates_extended hl _)

/-- A result in the same store. -/
def LikeResult (L : Latitude) (x y : Simplified × Store) : Prop := x.1.Like L y.1 ∧ x.2 = y.2

theorem like_settled : Simplified.Like L .settled .settled := .discharged .nil .none

theorem like_expanded {cs ds : List Constraint} (h : List.Forall₂ (Constraint.Like L) cs ds) :
    Simplified.Like L (.expanded cs) (.expanded ds) := .discharged h .none

theorem like_relation (r : Relation) (hl : L.Locates l l') :
    Simplified.Like L (.expanded [.relation r l]) (.expanded [.relation r l']) :=
  like_expanded (.cons (.relation (.same r) hl) .nil)

theorem like_simplifyShapes (table : Table) (s : Store) (hfit : Fits L fit fit')
    (hl : L.Locates l l') (a b : Ty) : LikeResult L (simplifyShapes table s fit a b l)
      (simplifyShapes table s fit' a b l') := by
  have hmismatch : Simplified.Like L (.violated (.mismatch fit (s.apply a) (s.apply b) l))
      (.violated (.mismatch fit' (s.apply a) (s.apply b) l')) := .violated (hfit.mismatch hl _ _)
  unfold simplifyShapes
  dsimp only
  split
  · exact ⟨like_relation _ hl, rfl⟩
  · exact ⟨like_relation _ hl, rfl⟩
  · split
    · exact ⟨like_expanded (List.rel_append (like_pairwise _ hl (fun _ _ => .same _) _ _)
        (.cons (.relation (hfit.relates _ _) (locates_extended hl _)) .nil)), rfl⟩
    · exact ⟨hmismatch, rfl⟩
  · split
    · exact ⟨like_expanded (like_pairwise _ hl hfit.relates _ _), rfl⟩
    · exact ⟨hmismatch, rfl⟩
  · split
    · exact ⟨like_expanded (like_pairwise _ hl (fun _ _ => .same _) _ _), rfl⟩
    · split
      · exact ⟨hmismatch, rfl⟩
      · exact ⟨like_relation _ hl, rfl⟩
  · exact ⟨hmismatch, rfl⟩

theorem like_simplifySubtyping (table : Table) (s : Store) (hfit : Fits L fit fit')
    (hl : L.Locates l l') (a b : Ty) : LikeResult L (simplifySubtyping table s fit a b l)
      (simplifySubtyping table s fit' a b l') := by
  unfold simplifySubtyping
  dsimp only
  split
  · exact ⟨like_settled, rfl⟩
  · split
    · exact ⟨like_settled, rfl⟩
    · exact ⟨like_settled, rfl⟩
    · exact ⟨.undecided _, rfl⟩
    · exact ⟨.undecided _, rfl⟩
    · exact ⟨.undecided _, rfl⟩
    · exact like_simplifyShapes table _ hfit hl _ _

theorem like_simplifyConformance (table : Table) (s : Store) (type : Ty) (traits : TraitSet)
    (hl : L.Locates l l') : LikeResult L (simplifyConformance table s type traits l)
      (simplifyConformance table s type traits l') := by
  unfold simplifyConformance
  dsimp only
  split
  · exact ⟨.undecided _, rfl⟩
  · exact ⟨like_settled, rfl⟩
  · split
    · exact ⟨.violated (.relocate (.nonconforming _ _) (fun _ => trivial) hl), rfl⟩
    · exact ⟨like_settled, rfl⟩

theorem like_simplifyConversion (table : Table) (s : Store) (type : Ty) (literal : LiteralKind)
    (hl : L.Locates l l') : LikeResult L (simplifyConversion table s type literal l)
      (simplifyConversion table s type literal l') := by
  unfold simplifyConversion
  dsimp only
  split
  · exact ⟨.undecided _, rfl⟩
  · exact ⟨like_settled, rfl⟩
  · split
    · exact ⟨like_settled, rfl⟩
    · split
      · exact ⟨.discharged .nil (.some .conversion), rfl⟩
      · exact ⟨.violated (.relocate (.inexpressible _ _) (fun _ => trivial) hl), rfl⟩

theorem like_simplifyMember (table : Table) (s : Store) (base : Ty) (member : Name) (type : Ty)
    (site : NodeId) (hl : L.Locates l l') :
    LikeResult L (simplifyMember table s base member type site l)
      (simplifyMember table s base member type site l') := by
  have hmember := locates_extended hl (.member member)
  unfold simplifyMember
  dsimp only
  split
  · exact ⟨.undecided _, rfl⟩
  · exact ⟨like_relation _ hmember, rfl⟩
  · split
    · exact ⟨like_relation _ hmember, rfl⟩
    · exact ⟨.violated (.relocate (.missingMember _ _) (fun _ => trivial) hl), rfl⟩
  · split
    · exact ⟨.violated (.relocate (.missingMember _ _) (fun _ => trivial) hl), rfl⟩
    · obtain ⟨hstore, hchoice, hconstraints⟩ := like_openCandidate _ type member _ hmember
      exact ⟨.discharged hconstraints (.some (.choice hchoice)), hstore⟩
    · exact ⟨like_expanded (.cons (.overload (.inl rfl) hmember) .nil), rfl⟩

/-- A conflict is told alike, up to the locator. -/
theorem like_toTypeError (e : UnifyError) (hl : L.Locates l l') :
    TypeError.Like L (e.toTypeError .equal l) (e.toTypeError .equal l') :=
  .relocate (e.toTypeError .equal) (fun l => endsPath_toTypeError e .equal l) hl

theorem like_toTypeError_flip (hL : L.flips) (e : UnifyError) (hl : L.Locates l l') :
    TypeError.Like L (e.toTypeError .equal l) (e.flip.toTypeError .equal l') := by
  rcases hl with rfl | hrelocates
  · cases e with
    | mismatch a b => exact .flipped hL
    | occurs v type => exact .same _
  · exact .told hrelocates (endsPath_toTypeError _ _ _) (endsPath_toTypeError _ _ _)

/-- The result of a step on an equality. -/
theorem simplify_equality (table : Table) (s : Store) (a b : Ty) (l : Option Locator) :
    simplify table s (.equality a b) l = (match (s.unify a b).conflict with
      | none => .settled
      | some e => .violated (e.toTypeError .equal l), (s.unify a b).store) := by
  unfold simplify
  dsimp only
  rcases s.unify a b with ⟨s', _ | e⟩ <;> rfl

/-- A relation is simplified alike at another locator, tagged or not, in the same store. -/
theorem like_simplify_same (table : Table) (s : Store) (r : Relation) (hl : L.Locates l l') :
    LikeResult L (simplify table s r l) (simplify table s r l') := by
  cases r with
  | equality a b =>
    rw [simplify_equality, simplify_equality]
    refine ⟨?_, rfl⟩
    dsimp only
    split
    · exact like_settled
    · exact .violated (like_toTypeError _ hl)
  | subtyping a b => exact like_simplifySubtyping table s (.inl rfl) hl a b
  | returnBinding a b => exact like_simplifySubtyping table s (.inl rfl) hl a b
  | conformance type traits => exact like_simplifyConformance table s type traits hl
  | conversion type literal => exact like_simplifyConversion table s type literal hl
  | valueMember base member type site => exact like_simplifyMember table s base member type site hl
  | size predicate => exact ⟨.discharged .nil (.some (.predicate predicate)), rfl⟩

/-! ### What is looked up -/

theorem simplifyShapesOwns_congr (table : Table) (hslots : s.slots = t.slots) :
    simplifyShapesOwns table s = simplifyShapesOwns table t := by
  funext a b
  unfold simplifyShapesOwns
  rw [apply_congr hslots, ownsAll_congr hslots]

theorem simplifySubtypingOwns_congr (table : Table) (hslots : s.slots = t.slots) :
    simplifySubtypingOwns table s a b = simplifySubtypingOwns table t a b := by
  have hR := parallel_together s t
  obtain ⟨ha, hfirst⟩ := hR.shallow (.refl hslots) a
  obtain ⟨hb, hsecond⟩ := hR.shallow hfirst b
  unfold simplifySubtypingOwns
  dsimp only
  rw [ha, hb, simplifyShapesOwns_congr table hsecond.slots]

theorem simplifyTypeOwns_congr (hslots : s.slots = t.slots) :
    simplifyTypeOwns s type = simplifyTypeOwns t type := by
  obtain ⟨htype, htogether⟩ := (parallel_together s t).shallow (.refl hslots) type
  unfold simplifyTypeOwns
  dsimp only
  rw [htype, ownsAll_congr htogether.slots]

theorem simplifyMemberOwns_congr (table : Table) (hslots : s.slots = t.slots) (member : Name) :
    simplifyMemberOwns table s type member = simplifyMemberOwns table t type member := by
  obtain ⟨htype, htogether⟩ := (parallel_together s t).shallow (.refl hslots) type
  unfold simplifyMemberOwns
  dsimp only
  rw [htype, ownsAll_congr htogether.slots]

/-- What is looked up is there in both stores or in neither. -/
theorem like_simplifyOwns (table : Table) (hs : s.WellFormed) (hslots : s.slots = t.slots)
    (hr : L.Relates r r') : simplifyOwns table s r = simplifyOwns table t r' := by
  have hdecisive : r.decisive.all s.ownsTop = r'.decisive.all t.ownsTop := by
    rw [ownsTop_congr hslots]
    exact hr.decisive_perm.all_eq
  unfold simplifyOwns
  rw [hdecisive]
  cases hr with
  | same =>
    cases r with
    | equality a b =>
      have ht := hs.of_slots_eq hslots
      have hback := unifyOwns_flip (a := b) (b := a) ht (rfl : t.slots = t.slots)
      dsimp only
      rw [unifyOwns_flip hs hslots, hback]
    | subtyping a b =>
      dsimp only
      rw [simplifySubtypingOwns_congr table hslots]
    | returnBinding a b =>
      dsimp only
      rw [simplifySubtypingOwns_congr table hslots]
    | conformance type traits =>
      dsimp only
      rw [simplifyTypeOwns_congr hslots]
    | conversion type literal =>
      dsimp only
      rw [simplifyTypeOwns_congr hslots]
    | valueMember base member type site =>
      dsimp only
      rw [simplifyMemberOwns_congr table hslots]
    | size predicate => rfl
  | flipped =>
    dsimp only
    rw [unifyOwns_flip hs hslots]
  | returned =>
    dsimp only
    rw [simplifySubtypingOwns_congr table hslots]
  | untagged =>
    dsimp only
    rw [simplifySubtypingOwns_congr table hslots]

/-! ### Steps on relations that are alike -/

/-- Where the sides of equalities may be exchanged, the store is well-formed and has what is
looked up. -/
def Prepared (L : Latitude) (table : Table) (s : Store) (r : Relation) : Prop :=
  L.flips → s.WellFormed ∧ simplifyOwns table s r = true

/-- **A step on a relation** comes to the same, and leaves stores with the same slots, both of
which have been written to or neither. -/
theorem like_simplify (table : Table) (hslots : s.slots = t.slots) (hr : L.Relates r r')
    (hl : L.Locates l l') (hprepared : Prepared L table s r) :
    (simplify table s r l).1.Like L (simplify table t r' l').1 ∧
      Together s t (simplify table s r l).2 (simplify table t r' l').2 := by
  -- What holds in one store holds in the other one.
  have hother : ∀ {r r' : Relation}, LikeResult L (simplify table s r l) (simplify table s r' l') →
      (simplify table s r l).1.Like L (simplify table t r' l').1 ∧
        Together s t (simplify table s r l).2 (simplify table t r' l').2 := by
    rintro r r' ⟨hresult, hstore⟩
    obtain ⟨hresult', htogether⟩ :=
      alike_simplify (parallel_together s t) table (.refl hslots) r' l'
    rw [hresult'] at hresult
    rw [← hstore] at htogether
    exact ⟨hresult, htogether⟩
  cases hr with
  | same => exact hother (like_simplify_same table s r hl)
  | @flipped a b hL =>
    obtain ⟨hs, howns⟩ := hprepared hL
    obtain ⟨-, hflipped⟩ := unify_flip hs hslots (Bool.and_eq_true_iff.1 howns).2
    rw [simplify_equality, simplify_equality]
    refine ⟨?_, hflipped.store⟩
    rw [hflipped.conflict]
    cases (s.unify a b).conflict with
    | none => exact like_settled
    | some e => exact .violated (like_toTypeError_flip hL e hl)
  | @returned a b hL =>
    exact hother (like_simplifySubtyping table s (.inr hL) hl a b)
  | @untagged a b hL =>
    exact hother (like_simplifySubtyping table s (.inr hL) hl a b)

/-- **Simplifying a goal** leads on alike, and to the same slots. -/
theorem Work.Like.pathSimplify {goal goal' : Goal} (h : w.Like L w') (ctx : Context)
    (hgoal : goal.Like L goal') (hslots : s.slots = t.slots)
    (hprepared : Prepared L ctx.table s goal.relation) :
    (Path.simplify ctx goal w s).1.Like L (Path.simplify ctx goal' w' t).1 ∧
      (Path.simplify ctx goal w s).2.slots = (Path.simplify ctx goal' w' t).2.slots := by
  obtain ⟨hresult, htogether⟩ :=
    like_simplify ctx.table hslots hgoal.relation hgoal.locator hprepared
  have hblamed := blamed_simplify ctx.table s goal.relation goal.locator
  have hblamed' := blamed_simplify ctx.table t goal'.relation goal'.locator
  rw [store_pathSimplify, store_pathSimplify]
  refine ⟨?_, htogether.slots⟩
  unfold Path.simplify
  generalize simplify ctx.table s goal.relation goal.locator = x at hresult htogether hblamed ⊢
  generalize simplify ctx.table t goal'.relation goal'.locator = y at hresult htogether hblamed' ⊢
  obtain ⟨result, s'⟩ := x
  obtain ⟨result', t'⟩ := y
  have hgoOn : ∀ {v v' : Work}, v.Like L v' →
      Path.Like L (.open (if s'.version = s.version then v else v.wake s'))
        (.open (if t'.version = t.version then v' else v'.wake t')) := by
    intro v v' hv
    by_cases hversion : s'.version = s.version
    · rw [if_pos hversion, if_pos (htogether.written.1 hversion)]
      exact .works hv
    · rw [if_neg hversion, if_neg fun h => hversion (htogether.written.2 h)]
      exact .works (hv.wake htogether.slots)
  cases hresult with
  | discharged hcs he => exact hgoOn (h.discharge hcs he)
  | undecided watch => exact hgoOn (h.defer hgoal watch)
  | violated he =>
    exact .fails ⟨OfRelation.endsPath hblamed, OfRelation.endsPath hblamed', he, fun _ => h.progress⟩

end Search
end TypeResolution
