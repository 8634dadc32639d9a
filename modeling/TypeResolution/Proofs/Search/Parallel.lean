/-
# Search steps on stores with the same slots

A step of the search answers alike on stores with the same slots, and makes the same changes to
both. Only the question whether anything was written looks at more, namely at the versions
before and after the step (`Steady`).

Key definitions: `Search.Steady`.
Key theorems: `Search.turn_congr`, `Search.alike_simplify`, `Search.Steady.alike_pathSimplify`,
`Search.alike_enter`.
-/
import TypeResolution.Proofs.Store.Parallel
import TypeResolution.Search.State

namespace TypeResolution
namespace Search

open Store

variable {s t : Store} {R : Store → Store → Prop}

/-! ### What comes next -/

theorem bindings_congr (ctx : Context) (h : s.slots = t.slots) :
    ctx.bindings s = ctx.bindings t := by
  rw [Context.bindings, Context.bindings, apply_congr h]

theorem toFound_congr (ctx : Context) (w : Work) (h : s.slots = t.slots) :
    w.toFound ctx s = w.toFound ctx t := by
  rw [Work.toFound, Work.toFound, bindings_congr ctx h]

theorem weaken_congr (h : s.slots = t.slots) : ∀ ds : List Deferred, weaken s ds = weaken t ds
  | [] => rfl
  | d :: ds => by
    unfold weaken
    have hassume : Search.assumption s = Search.assumption t := by
      funext a b
      unfold Search.assumption
      rw [probe_congr h]
    rw [hassume, weaken_congr h ds]

theorem defaultLiteral_congr (table : Table) (h : s.slots = t.slots) :
    ∀ ds : List Deferred, defaultLiteral table s ds = defaultLiteral table t ds
  | [] => rfl
  | d :: ds => by
    unfold defaultLiteral
    rw [isBound_congr h, root_congr h, defaultLiteral_congr table h ds]

theorem incomplete_congr (ctx : Context) (h : s.slots = t.slots) :
    incomplete ctx s = incomplete ctx t := by
  funext ds
  rw [incomplete, incomplete, apply_congr h, root_congr h]

/-- The turn of a path depends on the slots of the store only. -/
theorem turn_congr (ctx : Context) (w : Work) (h : s.slots = t.slots) :
    w.turn ctx s = w.turn ctx t := by
  unfold Work.turn Work.assume
  rw [weaken_congr h, defaultLiteral_congr ctx.table h, incomplete_congr ctx h]

/-! ### Steps side by side -/

/-- Related stores have been written to since earlier related ones together. -/
structure Steady (R : Store → Store → Prop) : Prop extends Parallel R where
  version : ∀ {s t s' t'}, R s t → R s' t' → (s'.version = s.version ↔ t'.version = t.version)

theorem alike_openEach (hR : Parallel R) : ∀ (names : List Name) (opened : Opened) {s t : Store},
    R s t → Alike R (openEach s opened names) (openEach t opened names)
  | [], _, _, _, h => ⟨rfl, h⟩
  | name :: rest, opened, s, t, h => by
    unfold openEach
    have hv : s.fresh.1 = t.fresh.1 := by simp only [Store.fresh, hR.slots h]
    dsimp only
    rw [hv]
    exact alike_openEach hR rest _ (hR.fresh h)

theorem alike_openMissing (hR : Parallel R) : ∀ (names : List Name) (opened : Opened) {s t : Store},
    R s t → Alike R (openMissing s opened names) (openMissing t opened names)
  | [], _, _, _, h => ⟨rfl, h⟩
  | name :: rest, opened, s, t, h => by
    unfold openMissing
    have hv : s.fresh.1 = t.fresh.1 := by simp only [Store.fresh, hR.slots h]
    cases opened.lookup name with
    | some v => exact alike_openMissing hR rest opened h
    | none =>
      dsimp only
      rw [hv]
      exact alike_openMissing hR rest _ (hR.fresh h)

theorem alike_openParams (hR : Parallel R) (h : R s t) (opened : Opened) (type : Ty) :
    (openParams s opened type).1 = (openParams t opened type).1 ∧
      Alike R (openParams s opened type).2 (openParams t opened type).2 := by
  obtain ⟨hopened, hstore⟩ := alike_openMissing hR type.params opened h
  unfold openParams
  dsimp only
  rw [hopened]
  exact ⟨rfl, rfl, hstore⟩

theorem alike_openCandidate (hR : Parallel R) (h : R s t) (type : Ty) (name : Name) (c : Candidate)
    (l : Option Locator) :
    (openCandidate s type name c l).constraints = (openCandidate t type name c l).constraints ∧
      (openCandidate s type name c l).choice = (openCandidate t type name c l).choice ∧
      R (openCandidate s type name c l).store (openCandidate t type name c l).store := by
  obtain ⟨heach, h₁⟩ := alike_openEach hR (c.generics.map (·.name)) [] h
  obtain ⟨hsignature, hopened, h₂⟩ := alike_openParams hR h₁ (openEach s [] (c.generics.map
    (·.name))).1 c.type
  unfold openCandidate
  dsimp only
  rw [← heach, hsignature, hopened]
  exact ⟨rfl, rfl, h₂⟩

theorem alike_simplifyShapes (hR : Parallel R) (table : Table) (h : R s t) (fit : Fit) (a b : Ty)
    (l : Option Locator) :
    Alike R (simplifyShapes table s fit a b l) (simplifyShapes table t fit a b l) := by
  unfold simplifyShapes
  dsimp only
  rw [apply_congr (hR.slots h)]
  split
  · exact ⟨rfl, h⟩
  · exact ⟨rfl, h⟩
  · split
    · exact ⟨rfl, h⟩
    · exact ⟨rfl, h⟩
  · split
    · exact ⟨rfl, h⟩
    · exact ⟨rfl, h⟩
  · rename_i n as m bs
    split
    · exact ⟨rfl, h⟩
    · split
      · exact ⟨rfl, h⟩
      · rename_i supertype _
        obtain ⟨htype, -, hstore⟩ := alike_openParams hR h [] supertype
        rw [htype]
        exact ⟨rfl, hstore⟩
  · exact ⟨rfl, h⟩

theorem alike_simplifySubtyping (hR : Parallel R) (table : Table) (h : R s t) (fit : Fit) (a b : Ty)
    (l : Option Locator) :
    Alike R (simplifySubtyping table s fit a b l) (simplifySubtyping table t fit a b l) := by
  obtain ⟨ha, h₁⟩ := hR.shallow h a
  obtain ⟨hb, h₂⟩ := hR.shallow h₁ b
  unfold simplifySubtyping
  dsimp only
  rw [ha, hb]
  split
  · exact ⟨rfl, h₂⟩
  · split
    · exact ⟨rfl, h₂⟩
    · exact ⟨rfl, h₂⟩
    · exact ⟨rfl, h₂⟩
    · exact ⟨rfl, h₂⟩
    · exact ⟨rfl, h₂⟩
    · exact alike_simplifyShapes hR table h₂ fit _ _ l

theorem alike_simplifyConformance (hR : Parallel R) (table : Table) (h : R s t) (type : Ty)
    (traits : TraitSet) (l : Option Locator) :
    Alike R (simplifyConformance table s type traits l)
      (simplifyConformance table t type traits l) := by
  obtain ⟨htype, h₁⟩ := hR.shallow h type
  unfold simplifyConformance
  dsimp only
  rw [htype, apply_congr (hR.slots h₁)]
  split
  · exact ⟨rfl, h₁⟩
  · exact ⟨rfl, h₁⟩
  · split <;> exact ⟨rfl, h₁⟩

theorem alike_simplifyConversion (hR : Parallel R) (table : Table) (h : R s t) (type : Ty)
    (literal : LiteralKind) (l : Option Locator) :
    Alike R (simplifyConversion table s type literal l)
      (simplifyConversion table t type literal l) := by
  obtain ⟨htype, h₁⟩ := hR.shallow h type
  unfold simplifyConversion
  dsimp only
  rw [htype, apply_congr (hR.slots h₁)]
  split
  · exact ⟨rfl, h₁⟩
  · exact ⟨rfl, h₁⟩
  · split
    · exact ⟨rfl, h₁⟩
    · split <;> exact ⟨rfl, h₁⟩

theorem alike_simplifyMember (hR : Parallel R) (table : Table) (h : R s t) (base : Ty)
    (member : Name) (type : Ty) (site : NodeId) (l : Option Locator) :
    Alike R (simplifyMember table s base member type site l)
      (simplifyMember table t base member type site l) := by
  obtain ⟨hbase, h₁⟩ := hR.shallow h base
  unfold simplifyMember
  dsimp only
  rw [hbase, apply_congr (hR.slots h₁)]
  split
  · exact ⟨rfl, h₁⟩
  · exact ⟨rfl, h₁⟩
  · split <;> exact ⟨rfl, h₁⟩
  · split
    · exact ⟨rfl, h₁⟩
    · rename_i c _
      obtain ⟨hconstraints, hchoice, hstore⟩ :=
        alike_openCandidate hR h₁ type member c (extended l (.member member))
      rw [hconstraints, hchoice]
      exact ⟨rfl, hstore⟩
    · exact ⟨rfl, h₁⟩

theorem alike_simplify (hR : Parallel R) (table : Table) (h : R s t) (r : Relation)
    (l : Option Locator) : Alike R (simplify table s r l) (simplify table t r l) := by
  cases r with
  | equality a b =>
    obtain ⟨hconflict, hstore⟩ := hR.unify h a b
    unfold simplify
    dsimp only
    rcases hs : s.unify a b with ⟨s', c⟩
    rcases ht : t.unify a b with ⟨t', d⟩
    rw [hs, ht] at hconflict hstore
    obtain rfl : c = d := hconflict
    cases c <;> exact ⟨rfl, hstore⟩
  | subtyping a b => exact alike_simplifySubtyping hR table h .subtype a b l
  | returnBinding a b => exact alike_simplifySubtyping hR table h .returned a b l
  | conformance type traits => exact alike_simplifyConformance hR table h type traits l
  | conversion type literal => exact alike_simplifyConversion hR table h type literal l
  | valueMember base member type site =>
    exact alike_simplifyMember hR table h base member type site l
  | size predicate => exact ⟨rfl, h⟩

/-- A goal is simplified alike, and the same goals are looked at again. -/
theorem Steady.alike_pathSimplify (hR : Steady R) (ctx : Context) (h : R s t) (goal : Goal)
    (rest : Work) : Alike R (Path.simplify ctx goal rest s) (Path.simplify ctx goal rest t) := by
  obtain ⟨hresult, hafter⟩ := alike_simplify hR.toParallel ctx.table h goal.relation goal.locator
  unfold Path.simplify
  dsimp only
  have hwake : ∀ w : Work, Work.wake w (simplify ctx.table s goal.relation goal.locator).2 =
      w.wake (simplify ctx.table t goal.relation goal.locator).2 := by
    intro w
    unfold Work.wake Deferred.isReady
    rw [probe_congr (hR.slots hafter)]
  rw [hresult]
  simp only [hwake, hR.version h hafter]
  split <;> exact ⟨rfl, hafter⟩

/-- An alternative is entered alike. -/
theorem alike_enter (hR : Parallel R) (h : R s t) (a : Alternative) (l : Option Locator)
    (w : Work) : Alike R (a.enter l w s) (a.enter l w t) := by
  cases a with
  | candidate o c =>
    obtain ⟨hconstraints, hchoice, hstore⟩ :=
      alike_openCandidate hR h o.type o.name c (l.map (·.extend (.candidate c.decl)))
    unfold Alternative.enter
    dsimp only
    rw [hconstraints, hchoice]
    exact ⟨rfl, hstore⟩
  | minterm i m => exact ⟨rfl, h⟩

end Search
end TypeResolution
