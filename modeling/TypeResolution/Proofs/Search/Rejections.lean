/-
# Rejected candidates

When no candidate of a reference is viable, the error lists all of them, each once and in the order
in which they are tried (`Overload.RejectsAll`). This holds of the error that a search ends with,
and of every error that is given inside it as the reason why a candidate was rejected
(`TypeError.Contains`): the failures that a branch has noted when it is closed are those of its
alternatives in their order, and an error of this kind is made of them at one place only, or of no
failures where a reference has no candidates.

Nothing is said about systems whose penalties are bounded, where candidates above the bound are
left out, or about the error with which a search stops when its steps run out.

Key definitions: `TypeError.Contains`, `Candidate.TriedBefore`, `Overload.RejectsAll`,
`Search.RejectsAt`.
Key theorems: `Search.exists_tried`, `Search.rejectsAll_of_failure?`, `Search.Fails.rejectsAll`,
`solve_rejectsAll`.
-/
import TypeResolution.Proofs.Search.Exhaustion

namespace TypeResolution

/-- An error occurs in another one: it is this error, or occurs in the reason why a candidate was
rejected. -/
inductive TypeError.Contains : TypeError → TypeError → Prop where
  | self (e : TypeError) : Contains e e
  | reason {name : Name} {rejected : List (Rejection TypeError)} {l : Option Locator}
      {r : Rejection TypeError} {e : TypeError} : r ∈ rejected → Contains r.reason e →
      Contains (.noViableCandidate name rejected l) e

/-- Of two candidates with their positions the first is tried before the second: it is penalised
less; or as much, and only the second is generic; or they do not differ in this either, and the
first is listed earlier. -/
def Candidate.TriedBefore (p q : Candidate × Nat) : Prop :=
  p.1.penalty < q.1.penalty ∨ p.1.penalty = q.1.penalty ∧
    (p.1.isGeneric = false ∧ q.1.isGeneric = true ∨
      p.1.isGeneric = q.1.isGeneric ∧ p.2 < q.2)

/-- The rejections are those of all candidates of the overload, each once, in the order in which
they are tried. -/
def Overload.RejectsAll (o : Overload) (rejected : List (Rejection TypeError)) : Prop :=
  ∃ tried : List (Candidate × Nat), tried.Perm o.candidates.zipIdx ∧
    tried.Pairwise Candidate.TriedBefore ∧
    rejected.map (fun r => (r.decl, r.type)) = tried.map fun p => (p.1.decl, p.1.type)

namespace Search

variable {ctx : Context} {s s' : Store} {w w' rest : Work} {goal : Goal} {f : Failure}
variable {b : Branch} {a : Alternative} {i : Nat} {point : BranchPoint} {o : Overload}
variable {name : Name} {rejected : List (Rejection TypeError)} {l : Option Locator} {e : TypeError}

/-! ### The order of candidates -/

theorem triedBefore_of_zipIdxLE {p q : Candidate × Nat}
    (h : List.zipIdxLE (fun c d => (Alternative.candidate o c).le (.candidate o d)) p q = true)
    (hne : p.2 ≠ q.2) : Candidate.TriedBefore p q := by
  unfold List.zipIdxLE at h
  simp only [Alternative.le, Alternative.penalty, Alternative.isGeneric, Bool.or_eq_true,
    Bool.and_eq_true, beq_iff_eq, Bool.not_eq_true'] at h
  unfold Candidate.TriedBefore
  grind

/-- **The alternatives of a reference** are its candidates in the order in which they are tried. -/
theorem exists_tried (o : Overload) : ∃ tried : List (Candidate × Nat),
    tried.Perm o.candidates.zipIdx ∧ tried.Pairwise Candidate.TriedBefore ∧
      (Offer.overload o).alternatives = tried.map fun p => .candidate o p.1 := by
  let le (c d : Candidate) : Bool := (Alternative.candidate o c).le (.candidate o d)
  have htrans : ∀ c d e, le c d = true → le d e = true → le c e = true :=
    fun _ _ _ => Alternative.le_trans _ _ _
  have htotal : ∀ c d, (le c d || le d c) = true := fun _ _ => Alternative.le_total _ _
  let tried := o.candidates.zipIdx.mergeSort (List.zipIdxLE le)
  have hperm : tried.Perm o.candidates.zipIdx := List.mergeSort_perm _ _
  refine ⟨tried, hperm, ?_, ?_⟩
  · have hsorted : tried.Pairwise fun p q => List.zipIdxLE le p q = true :=
      List.pairwise_mergeSort (List.zipIdxLE_trans htrans) (List.zipIdxLE_total htotal) _
    have hdistinct : tried.Pairwise fun p q => p.2 ≠ q.2 := by
      refine List.pairwise_map.1 ((hperm.map Prod.snd).nodup_iff.2 ?_)
      rw [List.zipIdx_map_snd]
      exact List.nodup_range'
    exact (hsorted.and hdistinct).imp fun ⟨hle, hne⟩ => triedBefore_of_zipIdxLE hle hne
  · have hmap : (o.candidates.mergeSort le).map (Alternative.candidate o) =
        (Offer.overload o).alternatives := List.map_mergeSort fun _ _ _ _ => rfl
    rw [← hmap, ← List.mergeSort_zipIdx, List.map_map]
    rfl

/-- The declaration and the type with which an alternative is listed when it is rejected. -/
def Alternative.signature? : Alternative → Option (DeclId × Ty)
  | .candidate _ c => some (c.decl, c.type)
  | .minterm .. => none

/-- **What a branch makes of the failures of all candidates** lists each candidate, with a failure
as the reason. -/
theorem rejectsAll_of_failure? (hoffer : b.point.offer = .overload o)
    (hall : b.failures.map (·.1) = b.point.offer.alternatives) (h : b.failure? = some f) :
    ∃ rejected, f.error = .noViableCandidate o.name rejected b.point.locator ∧
      o.RejectsAll rejected ∧ ∀ r ∈ rejected, ∃ p ∈ b.failures, r.reason = p.2.error := by
  unfold Branch.failure? at h
  rw [hoffer] at h hall
  split at h
  · cases h
  · rename_i a first rest hfailures
    obtain rfl := Option.some.inj h
    rw [← hfailures]
    refine ⟨_, rfl, ?_, fun r hr => ?_⟩
    · obtain ⟨tried, hperm, hsorted, htried⟩ := exists_tried o
      refine ⟨tried, hperm, hsorted, ?_⟩
      have hsignatures : b.failures.filterMap (fun p => p.1.signature?) =
          tried.map fun p => (p.1.decl, p.1.type) := by
        have hcandidates := congrArg (List.filterMap Alternative.signature?) (hall.trans htried)
        rw [List.filterMap_map, List.filterMap_map] at hcandidates
        exact hcandidates.trans (congrFun List.filterMap_eq_map tried)
      rw [← hsignatures, List.map_filterMap]
      refine List.filterMap_congr fun p _ => ?_
      obtain ⟨_ | _, _⟩ := p <;> rfl
    · obtain ⟨⟨_ | _, f⟩, hp, hr⟩ := List.mem_filterMap.1 hr
      · obtain rfl := Option.some.inj hr
        exact ⟨_, hp, rfl⟩
      · cases hr

/-! ### References that are come to -/

/-- The exhaustive search comes to a reference, with a locator, as the choice that is to be made
next, and fails there with the rejections. -/
def RejectsAt (ctx : Context) (s : Store) (w : Work) (o : Overload) (l : Option Locator)
    (rejected : List (Rejection TypeError)) : Prop :=
  ∃ P n t v point k, Walk ctx s w P n t v ∧ v.queue = [] ∧ v.branches.head? = some point ∧
    point.offer = .overload o ∧ point.locator = l ∧
    Fails ctx t v ⟨.noViableCandidate o.name rejected l, k⟩

theorem RejectsAt.simplify (h : RejectsAt ctx s' w' o l rejected)
    (hturn : w.turn ctx s = .simplify goal rest)
    (hsimp : Path.simplify ctx goal rest s = (.open w', s')) : RejectsAt ctx s w o l rejected := by
  obtain ⟨P, n, t, v, point, k, hwalk, hthere⟩ := h
  exact ⟨P, _, t, v, point, k, .simplify hturn hsimp hwalk, hthere⟩

theorem RejectsAt.choose (hturn : w.turn ctx s = .choose point rest)
    (ha : a ∈ point.offer.alternatives)
    (h : RejectsAt ctx (a.enter point.locator rest s).2 (a.enter point.locator rest s).1 o l
      rejected) :
    RejectsAt ctx s w o l rejected := by
  obtain ⟨i, hi⟩ := List.getElem?_of_mem ha
  obtain ⟨P, n, t, v, point, k, hwalk, hthere⟩ := h
  exact ⟨i :: P, n, t, v, point, k, .choose hturn hi hwalk, hthere⟩

theorem rejectsAt_of_choose (hturn : w.turn ctx s = .choose point rest)
    (hoffer : point.offer = .overload o) (h : Fails ctx s w f)
    (herror : f.error = .noViableCandidate o.name rejected point.locator) :
    RejectsAt ctx s w o point.locator rejected := by
  obtain ⟨hqueue, hbranches, -⟩ := Work.turn_choose hturn
  refine ⟨[], 0, s, w, point, f.progress, .here, hqueue, by rw [hbranches]; rfl, hoffer, rfl, ?_⟩
  rw [← herror]
  exact h

/-- What is left unknown is not told as a reference. -/
theorem incomplete_eq_some {ds : List Deferred} (h : incomplete ctx s ds = some e) :
    ∃ vars l, e = .stopped (.incomplete vars) l := by
  unfold incomplete at h
  dsimp only at h
  split at h
  · cases h
  · exact ⟨_, _, (Option.some.inj h).symm⟩

/-- A path fails at a reference when this has no candidates. -/
theorem unviable_of_turn (h : w.turn ctx s = .fail (.noViableCandidate name rejected l)) :
    rejected = [] ∧ ∃ point o, w.queue = [] ∧ w.branches.head? = some point ∧
      point.offer = .overload o ∧ point.locator = l ∧ o.name = name ∧ o.candidates = [] := by
  unfold Work.turn at h
  split at h
  · cases h
  · rename_i point branches hqueue hbranches
    split at h
    · rename_i hoffer
      cases h
      exact ⟨rfl, point, _, hqueue, by rw [hbranches]; rfl, hoffer, rfl, rfl, rfl⟩
    · cases h
  · unfold Work.assume at h
    dsimp only at h
    split at h
    · cases h
    · split at h
      · cases h
      · split at h
        · rename_i hincomplete
          obtain ⟨vars, l', rfl⟩ := incomplete_eq_some hincomplete
          cases h
        · cases h

/-- A path that is blocked at a reference lists its candidates, of which there are none. -/
theorem Blocked.rejectsAll (h : Blocked ctx s w (.noViableCandidate name rejected l)) :
    rejected = [] ∧ ∃ o, o.name = name ∧ RejectsAt ctx s w o l rejected ∧
      o.RejectsAll rejected := by
  cases hturn : w.turn ctx s with
  | simplify goal rest =>
    have hblamed := blamed_simplify ctx.table s goal.relation goal.locator
    rw [(blocked_simplify hturn).1 h] at hblamed
    exact hblamed.elim
  | choose point rest => exact absurd h (not_blocked_choose hturn)
  | fail e =>
    obtain rfl := (blocked_fail hturn).1 h
    obtain ⟨rfl, point, o, hqueue, hbranches, hoffer, hlocator, rfl, hnone⟩ :=
      unviable_of_turn hturn
    refine ⟨rfl, o, rfl,
      ⟨[], 0, s, w, point, _, .here, hqueue, hbranches, hoffer, hlocator, .blocked h⟩,
      [], ?_, .nil, rfl⟩
    rw [hnone]
    exact .refl _
  | complete => exact absurd h (not_blocked_complete hturn)

/-- **Wherever the exhaustive search fails** because no candidate of a reference is viable, all
candidates are listed. -/
theorem Fails.rejectsAll (h : Fails ctx s w f)
    (hin : f.error.Contains (.noViableCandidate name rejected l)) :
    ∃ o, o.name = name ∧ RejectsAt ctx s w o l rejected ∧ o.RejectsAll rejected := by
  induction h with
  | @blocked s w e hblocked =>
    replace hin : e.Contains (.noViableCandidate name rejected l) := hin
    cases hin with
    | self => exact hblocked.rejectsAll.2
    | reason hr =>
      rw [hblocked.rejectsAll.1] at hr
      cases hr
  | simplify hturn hsimp _ ih =>
    obtain ⟨o, hname, hat, hrejects⟩ := ih hin
    exact ⟨o, hname, hat.simplify hturn hsimp, hrejects⟩
  | @choose s w b f hturn hall hfails hfailure ih =>
    have hbelow : ∀ p ∈ b.failures, p.2.error.Contains (.noViableCandidate name rejected l) →
        ∃ o, o.name = name ∧ RejectsAt ctx s w o l rejected ∧ o.RejectsAll rejected := by
      intro p hp hin
      obtain ⟨o, hname, hat, hrejects⟩ := ih p hp hin
      exact ⟨o, hname, .choose hturn (hall ▸ List.mem_map_of_mem hp) hat, hrejects⟩
    cases hoffer : b.point.offer with
    | overload o =>
      obtain ⟨all, herror, hrejects, hreasons⟩ := rejectsAll_of_failure? hoffer hall hfailure
      rw [herror] at hin
      cases hin with
      | self =>
        have hhere : Fails ctx s w f := .choose hturn hall hfails hfailure
        exact ⟨o, rfl, rejectsAt_of_choose hturn hoffer hhere herror, hrejects⟩
      | reason hr hin =>
        obtain ⟨p, hp, hreason⟩ := hreasons _ hr
        exact hbelow p hp (hreason ▸ hin)
    | disjunction ms =>
      obtain ⟨p, hp, rfl⟩ := mem_failures_of_failure? hoffer hfailure
      exact hbelow p hp hin

end Search

open Search

variable {table : Table} {options : SolverOptions} {system : System} {unsolved : Unsolved}

/-- Only an error about rejected candidates has such an error inside. -/
theorem TypeError.Contains.exists_noViable {e : TypeError} {name : Name}
    {rejected : List (Rejection TypeError)} {l : Option Locator}
    (h : e.Contains (.noViableCandidate name rejected l)) :
    ∃ name' rejected' l', e = .noViableCandidate name' rejected' l' := by
  cases h with
  | self => exact ⟨_, _, _, rfl⟩
  | reason => exact ⟨_, _, _, rfl⟩

/-- **Rejected candidates are reported completely.** When a system that makes sense has no answer,
although penalties are not bounded and the steps do not run out, every error of the answer that says
of a reference that no candidate is viable, also inside the reasons why candidates were rejected, is
about a reference that the exhaustive search comes to and fails at, and lists each of its candidates
once, in the order in which they are tried. -/
theorem solve_rejectsAll (hvalid : system.validate = []) (hbound : options.maxPenalty = none)
    (hsolve : solve table options system = .error unsolved)
    (hsteps : ∀ certain, unsolved ≠ ⟨[.stopped (.stepLimit options.maxSteps) none], certain⟩) :
    ∀ e ∈ unsolved.errors, ∀ name rejected l, e.Contains (.noViableCandidate name rejected l) →
      ∃ s₀ o, System.plant (.ofSize system.varCount) system.seeds = .done s₀ ∧ o.name = name ∧
        RejectsAt ⟨table, options, system.varCount⟩ s₀ (Work.pushAll {} system.constraints) o l
          rejected ∧
        o.RejectsAll rejected := by
  intro e he name rejected l hin
  rcases hplant : System.plant (.ofSize system.varCount) system.seeds with ⟨s₀, _ | conflict⟩
  · have hlimit : ∀ certain, solve table options system ≠
        .error ⟨[.stopped (.stepLimit options.maxSteps) none], certain⟩ := fun certain h =>
      hsteps certain (Except.error.inj (hsolve.symm.trans h))
    have hsettles := (solve_settles hvalid hplant).resolve_right fun ⟨certain, h⟩ =>
      hlimit certain h
    rw [hsolve] at hsettles
    cases hsettles with
    | ambiguous _ _ _ hambiguity =>
      obtain rfl := List.mem_singleton.1 he
      obtain ⟨_, _, _, rfl⟩ := hin.exists_noViable
      exact hambiguity.elim
    | unsolved hnone =>
      have hfree : ∀ P f, ¬ system.leaves table options s₀ P f := fun P f hf =>
        hnone P f ⟨hf, by rw [hbound]; rfl⟩
      obtain ⟨f, certain, hfails, hsolve'⟩ :=
        (solve_exhausts hvalid hplant hbound hfree).resolve_right fun ⟨certain, h⟩ =>
          hlimit certain h
      have herrors := congrArg Unsolved.errors (Except.error.inj (hsolve.symm.trans hsolve'))
      obtain rfl : e = f.error := List.mem_singleton.1 ((congrArg (e ∈ ·) herrors).mp he)
      obtain ⟨o, hname, hat, hrejects⟩ := hfails.rejectsAll hin
      exact ⟨s₀, o, rfl, hname, hat, hrejects⟩
  · obtain ⟨certain, hsolve'⟩ :=
      System.exists_solve_of_conflict table options hvalid hplant
    obtain rfl := Except.error.inj (hsolve.symm.trans hsolve')
    obtain rfl := List.mem_singleton.1 he
    have hrelation := ofRelation_toTypeError conflict .equal none
    obtain ⟨_, _, _, hnoViable⟩ := hin.exists_noViable
    rw [hnoViable] at hrelation
    exact hrelation.elim

/-- Both candidates of the outer reference fail because both of the inner one fail, and the second
candidate of the outer reference is tried first. -/
theorem solve_rejectsAll_nested :
    let unit : Ty := .tuple []
    let single : Ty := .tuple [unit]
    let pair : Ty := .tuple [unit, unit]
    let triple : Ty := .tuple [unit, unit, unit]
    let outer : Overload := ⟨.var ⟨0⟩, ⟨5⟩, ⟨7⟩, [⟨⟨1⟩, unit, [], 1⟩, .plain ⟨2⟩ single]⟩
    let inner : Overload := ⟨.var ⟨0⟩, ⟨6⟩, ⟨8⟩, [.plain ⟨3⟩ pair, .plain ⟨4⟩ triple]⟩
    let system : System := ⟨1, [.overload outer none, .overload inner none], []⟩
    let table := Table.ofNames .empty
    let rejected (t : Ty) : List (Rejection TypeError) :=
      [⟨⟨3⟩, pair, .mismatch .equal t pair none⟩, ⟨⟨4⟩, triple, .mismatch .equal t triple none⟩]
    let told : TypeError := .noViableCandidate ⟨5⟩
      [⟨⟨2⟩, single, .noViableCandidate ⟨6⟩ (rejected single) none⟩,
        ⟨⟨1⟩, unit, .noViableCandidate ⟨6⟩ (rejected unit) none⟩] none
    system.validate = [] ∧ solve table {} system = .error ⟨[told], [.var ⟨0⟩]⟩ ∧
      told.Contains (.noViableCandidate ⟨6⟩ (rejected unit) none) ∧
      ∃ s₀ o, System.plant (.ofSize 1) system.seeds = .done s₀ ∧ o.name = ⟨6⟩ ∧
        RejectsAt ⟨table, {}, 1⟩ s₀ (Work.pushAll {} system.constraints) o none (rejected unit) ∧
        o.RejectsAll (rejected unit) := by
  intro unit single pair triple outer inner system table rejected told
  have hvalid : system.validate = [] := rfl
  have hsolve : solve table {} system = .error ⟨[told], [.var ⟨0⟩]⟩ := by cbv
  have hsteps : ∀ certain, (⟨[told], [.var ⟨0⟩]⟩ : Unsolved) ≠
      ⟨[.stopped (.stepLimit 100000) none], certain⟩ := by
    simp [told]
  have hin : told.Contains (.noViableCandidate ⟨6⟩ (rejected unit) none) :=
    .reason (List.mem_cons_of_mem _ List.mem_cons_self) (.self _)
  exact ⟨hvalid, hsolve, hin,
    @solve_rejectsAll table {} system _ hvalid rfl hsolve hsteps told List.mem_cons_self _ _ _ hin⟩

end TypeResolution
