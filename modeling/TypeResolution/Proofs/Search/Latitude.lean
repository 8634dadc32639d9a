/-
# What two systems may differ in

Much of a system can be written in more than one way: the sides of an equality can be exchanged, a
subtyping can be tagged as that of a returned value, constraints can have other locators, and
alternatives can be listed in another order. Which of these differences are allowed is a latitude
(`Latitude`), and two systems with no other differences are alike (`System.Like`). They may differ
anywhere, also within the alternatives of a disjunction.

Answers are alike (`AnswerLike`) if they have the same types, references, predicates and penalty,
or else errors that are alike (`TypeError.Like`). With the same locators these are the same errors,
up to the sides of mismatches that stem from equalities. With other locators another failure may be
the one that got furthest, and all that is said is that both or neither are ambiguities, and that
both or neither tell of a limit.

Key definitions: `Latitude`, `Constraint.Like`, `System.Like`, `TypeError.Like`, `AnswerLike`.
Key theorems: `Constraint.Like.symm`, `System.Like.validate_iff`, `System.Like.validate`.
-/
import TypeResolution.Proofs.Lists
import TypeResolution.Proofs.Search.Failures
import TypeResolution.Proofs.Validation

namespace TypeResolution

/-- What two systems that say the same may differ in. -/
structure Latitude where
  /-- The sides of equalities. -/
  flips : Prop
  /-- Whether subtypings are those of returned values. -/
  tags : Prop
  /-- The locators, and so the failures that are told. -/
  relocates : Prop
  /-- The order of alternatives. -/
  reorders : Prop
  relocates_of_tags : tags → relocates
  relocates_of_reorders : reorders → relocates

namespace Latitude

/-- Equalities may have their sides exchanged. -/
def sides : Latitude := ⟨True, False, False, False, False.elim, False.elim⟩

/-- Locators may be others, and subtypings may be tagged or not. -/
def diagnostics : Latitude := ⟨False, True, True, False, fun _ => trivial, False.elim⟩

/-- Alternatives may be listed in another order, and locators may be others. -/
def order : Latitude := ⟨False, False, True, True, False.elim, fun _ => trivial⟩

variable (L : Latitude)

/-- The locators may stand for each other. -/
def Locates (l l' : Option Locator) : Prop := l = l' ∨ L.relocates

/-- The lists have the same items, perhaps in another order. -/
def Lists {α : Type} (xs ys : List α) : Prop := xs = ys ∨ (L.reorders ∧ xs.Perm ys)

/-- The relations say the same. -/
inductive Relates : Relation → Relation → Prop where
  | same (r : Relation) : Relates r r
  | flipped {a b : Ty} : L.flips → Relates (.equality a b) (.equality b a)
  | returned {a b : Ty} : L.tags → Relates (.subtyping a b) (.returnBinding a b)
  | untagged {a b : Ty} : L.tags → Relates (.returnBinding a b) (.subtyping a b)

end Latitude

/-- The alternatives have the same penalty, and constraints that are related in their order. -/
inductive Minterm.Like {κ : Type} (R : κ → κ → Prop) : Minterm κ → Minterm κ → Prop where
  | mk {penalty : Nat} {cs ds : List κ} : List.Forall₂ R cs ds → Like R ⟨cs, penalty⟩ ⟨ds, penalty⟩

/-- The constraints say the same, as do those inside them. -/
inductive Constraint.Like (L : Latitude) : Constraint → Constraint → Prop where
  | relation {r r' : Relation} {l l' : Option Locator} : L.Relates r r' → L.Locates l l' →
      Like L (.relation r l) (.relation r' l')
  | overload {o : Overload} {candidates : List Candidate} {l l' : Option Locator} :
      L.Lists o.candidates candidates → L.Locates l l' →
      Like L (.overload o l) (.overload { o with candidates } l')
  | disjunction {ms ms' ns : List (Minterm Constraint)} {l l' : Option Locator} :
      L.Lists ms ms' → List.Forall₂ (Minterm.Like (Like L)) ms' ns → L.Locates l l' →
      Like L (.disjunction ms l) (.disjunction ns l')

/-- The systems have the same variables and seeds, and constraints that say the same. -/
structure System.Like (L : Latitude) (system system' : System) : Prop where
  varCount : system.varCount = system'.varCount
  seeds : system.seeds = system'.seeds
  constraints : List.Forall₂ (Constraint.Like L) system.constraints system'.constraints

/-- The candidates are the same and were rejected for related reasons. -/
inductive Rejection.Like {ε : Type} (R : ε → ε → Prop) : Rejection ε → Rejection ε → Prop where
  | mk {decl : DeclId} {type : Ty} {e e' : ε} : R e e' → Like R ⟨decl, type, e⟩ ⟨decl, type, e'⟩

open Search in
/-- The errors are the same, up to the sides of mismatches where equalities may have their sides
exchanged. Where locators may be others, a path can be told to have failed in another way. -/
inductive TypeError.Like (L : Latitude) : TypeError → TypeError → Prop where
  | same (e : TypeError) : Like L e e
  | flipped {a b : Ty} {l : Option Locator} : L.flips →
      Like L (.mismatch .equal a b l) (.mismatch .equal b a l)
  | rejected {name : Name} {rs rs' : List (Rejection TypeError)} {l : Option Locator} :
      List.Forall₂ (Rejection.Like (Like L)) rs rs' →
      Like L (.noViableCandidate name rs l) (.noViableCandidate name rs' l)
  | ambiguous {name : Option Name} {candidates : List (DeclId × Ty)} {l l' : Option Locator} :
      L.Locates l l' → Like L (.ambiguous name candidates l) (.ambiguous name candidates l')
  | told {e e' : TypeError} : L.relocates → EndsPath e → EndsPath e' → Like L e e'

/-- The solutions are the same, up to their warnings where locators may be others. -/
structure Solution.Like (L : Latitude) (s s' : Solution) : Prop where
  types : s.types = s'.types
  references : s.references = s'.references
  predicates : s.predicates = s'.predicates
  penalty : s.penalty = s'.penalty
  warnings : ¬ L.relocates → s.warnings = s'.warnings

/-- The answers are solutions or failures that are alike. -/
inductive AnswerLike (L : Latitude) : Except Unsolved Solution → Except Unsolved Solution → Prop
  where
  | solved {s s' : Solution} : s.Like L s' → AnswerLike L (.ok s) (.ok s')
  | unsolved {errors errors' : List TypeError} {certain : List Ty} :
      List.Forall₂ (TypeError.Like L) errors errors' →
      AnswerLike L (.error ⟨errors, certain⟩) (.error ⟨errors', certain⟩)

variable {L : Latitude}

/-! ### Locators and lists -/

namespace Latitude

variable {α : Type} {l l' m m' : Option Locator} {xs ys : List α} {r r' : Relation}

theorem Locates.refl (l : Option Locator) : L.Locates l l := .inl rfl

theorem Locates.symm (h : L.Locates l l') : L.Locates l' l := h.imp_left Eq.symm

theorem Locates.map (h : L.Locates l l') (f : Locator → Locator) :
    L.Locates (l.map f) (l'.map f) := h.imp_left (congrArg _)

theorem Lists.symm (h : L.Lists xs ys) : L.Lists ys xs :=
  h.imp Eq.symm fun h => ⟨h.1, h.2.symm⟩

theorem Lists.perm (h : L.Lists xs ys) : xs.Perm ys := by
  rcases h with rfl | h
  · exact .refl _
  · exact h.2

theorem Lists.eq (h : L.Lists xs ys) (hL : ¬ L.reorders) : xs = ys :=
  h.resolve_right fun h => hL h.1

theorem Relates.symm (h : L.Relates r r') : L.Relates r' r := by
  cases h with
  | same => exact .same r
  | flipped h => exact .flipped h
  | returned h => exact .untagged h
  | untagged h => exact .returned h

theorem Relates.precedence (h : L.Relates r r') : r.precedence = r'.precedence := by
  cases h <;> rfl

/-- The same types are looked at before anything is said about the relations. -/
theorem Relates.decisive_perm (h : L.Relates r r') : r.decisive.Perm r'.decisive := by
  cases h with
  | flipped => exact .swap _ _ []
  | _ => exact .refl _

theorem Relates.types_perm (h : L.Relates r r') : r.types.Perm r'.types := by
  cases h with
  | flipped => exact .swap _ _ []
  | _ => exact .refl _

end Latitude

/-! ### Constraints -/

namespace Constraint

variable {c c' : Constraint}

theorem orLocator_relation (r : Relation) (m l : Option Locator) :
    (relation r m).orLocator l = relation r (m.or l) := by
  cases m <;> rfl

theorem orLocator_overload (o : Overload) (m l : Option Locator) :
    (overload o m).orLocator l = overload o (m.or l) := by
  cases m <;> rfl

theorem orLocator_disjunction (ms : List (Minterm Constraint)) (m l : Option Locator) :
    (disjunction ms m).orLocator l = disjunction ms (m.or l) := by
  cases m <;> rfl

theorem Like.orLocator (h : c.Like L c') {l l' : Option Locator} (hl : L.Locates l l') :
    (c.orLocator l).Like L (c'.orLocator l') := by
  have hlocates : ∀ {m m' : Option Locator}, L.Locates m m' → L.Locates (m.or l) (m'.or l') := by
    rintro m m' (rfl | hm)
    · rcases hl with rfl | hl
      · exact .inl rfl
      · exact .inr hl
    · exact .inr hm
  cases h with
  | relation hr hm =>
    rw [orLocator_relation, orLocator_relation]
    exact .relation hr (hlocates hm)
  | overload ho hm =>
    rw [orLocator_overload, orLocator_overload]
    exact .overload ho (hlocates hm)
  | disjunction hms hns hm =>
    rw [orLocator_disjunction, orLocator_disjunction]
    exact .disjunction hms hns (hlocates hm)

theorem Like.refl (c : Constraint) : c.Like L c := by
  induction c with
  | relation r l => exact .relation (.same r) (.refl l)
  | overload o l => exact .overload (o := o) (.inl rfl) (.refl l)
  | disjunction ms l ih =>
    refine .disjunction (.inl rfl) (List.forall₂_same.2 fun m hm => ?_) (.refl l)
    exact .mk (List.forall₂_same.2 fun c hc => ih m hm c hc)

theorem Like.symm (h : c.Like L c') : c'.Like L c := by
  induction c generalizing c' with
  | relation r l =>
    cases h with
    | relation hr hl => exact .relation hr.symm hl.symm
  | overload o l =>
    cases h with
    | overload ho hl =>
      exact .overload (o := { o with candidates := _ }) ho.symm hl.symm
  | disjunction ms l ih =>
    cases h with
    | @disjunction _ ms' ns _ l' hms hns hl =>
      obtain ⟨ks, hlists, hks⟩ : ∃ ks, L.Lists ns ks ∧
          List.Forall₂ (Minterm.Like (Like L)) ms ks := by
        rcases hms with rfl | ⟨hL, hperm⟩
        · exact ⟨ns, .inl rfl, hns⟩
        · obtain ⟨ks, hks, hperm'⟩ := List.perm_comp_forall₂ hperm hns
          exact ⟨ks, .inr ⟨hL, hperm'.symm⟩, hks⟩
      refine .disjunction hlists (forall₂_flip_of_mem hks fun m hm n hmn => ?_) hl.symm
      cases hmn with
      | mk hcs => exact .mk (forall₂_flip_of_mem hcs fun c hc d h => ih _ hm c hc h)

end Constraint

/-! ### Errors -/

namespace TypeError.Like

variable {l l' : Option Locator} {e e' : TypeError}

open Search in
/-- The error is the same up to its locator. -/
theorem relocate (e : Option Locator → TypeError) (he : ∀ l, EndsPath (e l))
    (hl : L.Locates l l') : TypeError.Like L (e l) (e l') := by
  rcases hl with rfl | hL
  · exact .same _
  · exact .told hL (he l) (he l')

/-- The same candidates were rejected, for reasons that are alike. -/
theorem noViable {rs rs' : List (Rejection TypeError)} (name : Name)
    (hrs : List.Forall₂ (Rejection.Like (TypeError.Like L)) rs rs') (hl : L.Locates l l') :
    TypeError.Like L (.noViableCandidate name rs l) (.noViableCandidate name rs' l') := by
  rcases hl with rfl | hL
  · exact .rejected hrs
  · exact .told hL trivial trivial

theorem locator (h : TypeError.Like L e e') (hL : ¬ L.relocates) : e.locator = e'.locator := by
  cases h with
  | ambiguous hl => exact hl.resolve_right hL
  | told hL' => exact absurd hL' hL
  | _ => rfl

end TypeError.Like

/-! ### Systems -/

namespace System

variable {system system' : System} {count : Nat}

theorem Like.symm (h : system.Like L system') : system'.Like L system :=
  ⟨h.varCount.symm, h.seeds.symm, forall₂_flip_of_mem h.constraints fun _ _ _ h => h.symm⟩

/-- Nothing is wrong with a constraint if nothing is wrong with one that says the same. -/
theorem constraintErrors_of_like {c c' : Constraint} (h : c.Like L c')
    (hc : constraintErrors count c = []) : constraintErrors count c' = [] := by
  induction c generalizing c' with
  | relation r l =>
    cases h with
    | relation hr hl =>
      unfold constraintErrors at hc ⊢
      have hnone := List.filterMap_eq_nil_iff.1 (List.map_eq_nil_iff.1 hc)
      refine List.map_eq_nil_iff.2 (List.filterMap_eq_nil_iff.2 fun t ht => ?_)
      exact hnone t (hr.types_perm.mem_iff.2 ht)
  | overload o l =>
    cases h with
    | overload ho hl =>
      unfold constraintErrors overloadProblems at hc ⊢
      obtain ⟨htype, hcandidates⟩ := List.append_eq_nil_iff.1 (List.map_eq_nil_iff.1 hc)
      have hnone := List.filterMap_eq_nil_iff.1 hcandidates
      refine List.map_eq_nil_iff.2 (List.append_eq_nil_iff.2 ⟨htype, ?_⟩)
      exact List.filterMap_eq_nil_iff.2 fun c hc => hnone c (ho.perm.mem_iff.2 hc)
  | disjunction ms l ih =>
    cases h with
    | @disjunction _ ms' ns _ _ hms hns hl =>
      unfold constraintErrors at hc ⊢
      obtain ⟨hlength, hall⟩ := List.append_eq_nil_iff.1 hc
      have htwo : ¬ ms.length < 2 := fun hlt => by
        rw [if_pos hlt] at hlength
        cases hlength
      have hcount : ns.length = ms.length := hns.length_eq.symm.trans hms.perm.length_eq.symm
      rw [mintermErrors_eq_flatMap, List.flatMap_eq_nil_iff] at hall
      rw [hcount, if_neg htwo, List.nil_append, mintermErrors_eq_flatMap, List.flatMap_eq_nil_iff]
      intro n hn
      obtain ⟨m, hm, hmn⟩ := (exists_of_forall₂ hns).2 n hn
      have hm := hms.perm.mem_iff.2 hm
      cases hmn with
      | mk hcs =>
        refine List.flatMap_eq_nil_iff.2 fun d hd => ?_
        obtain ⟨c, hc, hcd⟩ := (exists_of_forall₂ hcs).2 d hd
        exact ih _ hm c hc hcd (List.flatMap_eq_nil_iff.1 (hall _ hm) c hc)

theorem Like.validate_eq_nil (h : system.Like L system') (hvalid : system.validate = []) :
    system'.validate = [] := by
  unfold validate at hvalid ⊢
  rw [allErrors_eq_flatMap, List.append_eq_nil_iff, List.flatMap_eq_nil_iff] at hvalid ⊢
  rw [← h.varCount, ← h.seeds]
  refine ⟨fun d hd => ?_, hvalid.2⟩
  obtain ⟨c, hc, hcd⟩ := (exists_of_forall₂ h.constraints).2 d hd
  exact constraintErrors_of_like hcd (hvalid.1 c hc)

/-- **Both or neither of two systems that say the same are accepted.** -/
theorem Like.validate_iff (h : system.Like L system') :
    system.validate = [] ↔ system'.validate = [] :=
  ⟨h.validate_eq_nil, h.symm.validate_eq_nil⟩

section Malformed

variable (hflips : ¬ L.flips) (hreorders : ¬ L.reorders)
include hflips hreorders

/-- Where everything is in the same order, the same is wrong with constraints that say the same. -/
theorem like_constraintErrors {c c' : Constraint} (h : c.Like L c') :
    List.Forall₂ (TypeError.Like L) (constraintErrors count c) (constraintErrors count c') := by
  have hmalformed : ∀ {l l' : Option Locator} (problems : List String), L.Locates l l' →
      List.Forall₂ (TypeError.Like L) (problems.map (.malformed · l))
        (problems.map (.malformed · l')) := by
    intro l l' problems hl
    rw [List.forall₂_map_left_iff, List.forall₂_map_right_iff, List.forall₂_same]
    exact fun problem _ => .relocate (.malformed problem) (fun _ => trivial) hl
  induction c generalizing c' with
  | relation r l =>
    cases h with
    | @relation _ r' _ _ hr hl =>
      have htypes : r.types = r'.types := by
        cases hr with
        | flipped hL => exact absurd hL hflips
        | _ => rfl
      unfold constraintErrors
      rw [htypes]
      exact hmalformed _ hl
  | overload o l =>
    cases h with
    | overload ho hl =>
      obtain rfl := ho.eq hreorders
      exact hmalformed _ hl
  | disjunction ms l ih =>
    cases h with
    | disjunction hms hns hl =>
      obtain rfl := hms.eq hreorders
      unfold constraintErrors
      rw [hns.length_eq, mintermErrors_eq_flatMap, mintermErrors_eq_flatMap]
      refine List.rel_append ?_ ?_
      · split
        · exact .cons (.relocate (.malformed _) (fun _ => trivial) hl) .nil
        · exact .nil
      · refine List.rel_flatMap ((List.forall₂_and_left _ _).2 ⟨ih, hns⟩) ?_
        rintro ⟨cs, penalty⟩ _ ⟨hall, ⟨hcs⟩⟩
        refine List.rel_flatMap ((List.forall₂_and_left _ _).2 ⟨hall, hcs⟩) ?_
        exact fun c c' hc => hc.1 hc.2

theorem Like.validate (h : system.Like L system') :
    List.Forall₂ (TypeError.Like L) system.validate system'.validate := by
  unfold System.validate
  rw [← h.varCount, ← h.seeds, allErrors_eq_flatMap, allErrors_eq_flatMap]
  refine List.rel_append (List.rel_flatMap h.constraints fun c c' hc =>
    like_constraintErrors hflips hreorders hc) ?_
  exact List.forall₂_same.2 fun e _ => .same e

end Malformed
end System
end TypeResolution
