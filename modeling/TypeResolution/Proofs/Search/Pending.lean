/-
# What is left to do on a path

The goals in the queue, those put aside and the choices to be made are constraints that a path
still has to see to (`Search.Work.pending`). Pushing a constraint adds it to them, putting a goal
aside keeps it among them, and waking goals moves them around. Their order does not matter here.

Key definitions: `Search.Work.pending`.
Key theorems: `Search.Work.pending_pushAll`, `Search.Work.pending_defer`,
`Search.Work.pending_wake`, `Search.Work.pending_discharge`, `Search.Work.mem_pending_of_choose`,
`Search.mem_pending_of_pathSimplify`.
-/
import TypeResolution.Proofs.Search.Record

namespace TypeResolution
namespace Search

def Goal.constraint (g : Goal) : Constraint := .relation g.relation g.locator

def BranchPoint.constraint (b : BranchPoint) : Constraint :=
  match b.offer with
  | .overload o => .overload o b.locator
  | .disjunction ms => .disjunction ms b.locator

/-- The constraints that are left to see to. -/
def Work.pending (w : Work) : List Constraint :=
  w.queue.map Goal.constraint ++ w.deferred.map (·.goal.constraint) ++
    w.branches.map BranchPoint.constraint

theorem perm_insertBefore {α : Type} (before : α → α → Bool) (item : α) : ∀ items : List α,
    (insertBefore before item items).Perm (item :: items)
  | [] => .refl _
  | a :: rest => by
    unfold insertBefore
    split
    · exact .refl _
    · exact ((perm_insertBefore before item rest).cons a).trans (.swap item a rest)

namespace Work

variable {w : Work}

theorem mem_pending_of_deferred {d : Deferred} (h : d ∈ w.deferred) :
    d.goal.constraint ∈ w.pending :=
  List.mem_append_left _ (List.mem_append_right _ (List.mem_map_of_mem h))

theorem mem_pending_of_branch {b : BranchPoint} (h : b ∈ w.branches) : b.constraint ∈ w.pending :=
  List.mem_append_right _ (List.mem_map_of_mem h)

theorem pending_push (w : Work) (c : Constraint) : (w.push c).pending.Perm (c :: w.pending) := by
  cases c with
  | relation r l =>
    have hqueue := (perm_insertBefore Goal.before ⟨w.nextOrdinal, r, l⟩ w.queue).map Goal.constraint
    exact (hqueue.append_right _).append_right _
  | overload o l =>
    have hbranches := (perm_insertBefore BranchPoint.before ⟨w.nextOrdinal, .overload o, l⟩
      w.branches).map BranchPoint.constraint
    exact (hbranches.append_left _).trans List.perm_middle
  | disjunction ms l =>
    have hbranches := (perm_insertBefore BranchPoint.before ⟨w.nextOrdinal, .disjunction ms, l⟩
      w.branches).map BranchPoint.constraint
    exact (hbranches.append_left _).trans List.perm_middle

theorem pending_pushAll : ∀ (cs : List Constraint) (w : Work),
    (w.pushAll cs).pending.Perm (cs ++ w.pending)
  | [], w => .refl _
  | c :: cs, w => by
    have hrest := pending_pushAll cs (w.push c)
    exact hrest.trans (((pending_push w c).append_left cs).trans List.perm_middle)

/-- At the start all constraints are left to see to. -/
theorem pending_start (cs : List Constraint) : (pushAll {} cs).pending.Perm cs := by
  have hperm := pending_pushAll cs {}
  rwa [show ({} : Work).pending = [] from rfl, List.append_nil] at hperm

theorem pending_defer (w : Work) (goal : Goal) (watch : List TyVar) :
    (w.defer goal watch).pending.Perm (goal.constraint :: w.pending) := by
  have hdeferred := (perm_insertBefore (fun a b : Deferred => a.goal.ordinal < b.goal.ordinal)
    ⟨goal, watch⟩ w.deferred).map (·.goal.constraint)
  exact ((hdeferred.append_left _).trans List.perm_middle).append_right _

theorem perm_foldl_insertBefore : ∀ (ready : List Deferred) (queue : List Goal),
    (ready.foldl (fun queue d => insertBefore Goal.before d.goal queue) queue).Perm
      (ready.map (·.goal) ++ queue)
  | [], queue => .refl _
  | d :: ready, queue => by
    have hrest := perm_foldl_insertBefore ready (insertBefore Goal.before d.goal queue)
    exact hrest.trans (((perm_insertBefore Goal.before d.goal queue).append_left _).trans
      List.perm_middle)

theorem pending_wake (w : Work) (s : Store) : (w.wake s).pending.Perm w.pending := by
  have hparts : (w.deferred.filter (·.isReady s) ++ w.deferred.filter (!·.isReady s)).Perm
      w.deferred := List.filter_append_perm _ _
  have hqueue := (perm_foldl_insertBefore (w.deferred.filter (·.isReady s)) w.queue).map
    Goal.constraint
  have hdeferred := hparts.map (·.goal.constraint)
  unfold wake
  rw [List.partition_eq_filter_filter]
  refine List.Perm.append_right _ ?_
  refine (hqueue.append_right _).trans ?_
  rw [List.map_append, List.map_map]
  rw [List.map_append] at hdeferred
  refine List.Perm.trans ?_ (hdeferred.append_left (w.queue.map Goal.constraint))
  rw [← List.append_assoc]
  exact List.perm_append_comm.append_right _

theorem pending_record (w : Work) (e : Entry) : (w.record e).pending = w.pending := by
  cases e <;> rfl

theorem pending_discharge (w : Work) (children : List Constraint) (entry : Option Entry) :
    (w.discharge children entry).pending.Perm (children ++ w.pending) := by
  unfold discharge
  refine (pending_pushAll children _).trans ?_
  cases entry with
  | none => exact .refl _
  | some e =>
    dsimp only
    rw [pending_record]
    exact .refl _

/-- The choice that comes next was left to be made, and so was what is left then. -/
theorem mem_pending_of_choose {ctx : Context} {s : Store} {rest : Work} {point : BranchPoint}
    (h : w.turn ctx s = .choose point rest) :
    point.constraint ∈ w.pending ∧ ∀ c ∈ rest.pending, c ∈ w.pending := by
  obtain ⟨-, hbranches, hrest⟩ := turn_choose h
  have hchoices : w.branches.map BranchPoint.constraint =
      point.constraint :: rest.branches.map BranchPoint.constraint := by
    rw [hbranches, List.map_cons]
  refine ⟨List.mem_append_right _ (hchoices ▸ List.mem_cons_self), fun c hc => ?_⟩
  rw [hrest] at hc
  rcases List.mem_append.1 hc with hc | hc
  · exact List.mem_append_left _ hc
  · exact List.mem_append_right _ (hchoices ▸ List.mem_cons_of_mem _ hc)

end Work

/-- After a step on a goal there is left what was left beside it, and the goal if it was put aside,
or what it came down to. -/
theorem mem_pending_of_pathSimplify {ctx : Context} {goal : Goal} {rest w' : Work} {s s' : Store}
    {c : Constraint} (h : Path.simplify ctx goal rest s = (.open w', s')) (hc : c ∈ w'.pending) :
    c ∈ rest.pending ∨
      (c = goal.constraint ∧ ∃ watch,
        simplify ctx.table s goal.relation goal.locator = (.undecided watch, s')) ∨
      ∃ children entry, simplify ctx.table s goal.relation goal.locator =
        (.discharged children entry, s') ∧ c ∈ children := by
  obtain ⟨w, hw', hcases⟩ := pathSimplify_cases h
  have hc : c ∈ w.pending := by
    rcases hw' with rfl | rfl
    · exact hc
    · exact (Work.pending_wake w s').mem_iff.1 hc
  rcases hcases with ⟨children, entry, hsimp, rfl⟩ | ⟨watch, hsimp, rfl⟩
  · rcases List.mem_append.1 ((rest.pending_discharge children entry).mem_iff.1 hc) with hc | hc
    · exact .inr (.inr ⟨children, entry, hsimp, hc⟩)
    · exact .inl hc
  · rcases List.mem_cons.1 ((rest.pending_defer goal watch).mem_iff.1 hc) with hc | hc
    · exact .inr (.inl ⟨hc, watch, hsimp⟩)
    · exact .inl hc
end Search
end TypeResolution
