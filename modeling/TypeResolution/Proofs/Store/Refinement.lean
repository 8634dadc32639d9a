/-
# Later stores refine earlier ones

As long as no snapshot is restored, a session only learns: what a type means later is what its
earlier meaning means later, so that one substitution leads from all earlier meanings to the later
ones. A unification that fails is no exception, because the bindings that it made before it failed
stay.

Operations that only look variables up shorten links, and snapshots, commits and fresh variables
change no slot of a variable that is there already. All of them leave the old variables undisturbed
(`Store.Undisturbed`): roots and contents are found as before, so types mean what they meant and
variables occur where they occurred.

Key definitions: `Store.Undisturbed`, `Session.Steps`, `Op.Keeps`, `Op.Looks`.
Key theorems: `Store.Undisturbed.apply_eq`, `Store.Undisturbed.occurs_eq`,
`Store.occurs_iff_mem_vars_apply`, `Session.meanings_refine`.
-/
import TypeResolution.Proofs.Store.Assignments
import TypeResolution.Proofs.Store.History

open Relation

namespace TypeResolution
namespace Store

variable {s s' s'' : Store} {v : TyVar} {t : Ty}

/-! ### Variables that occur -/

/-- **A variable occurs in a type if and only if its root is in the meaning of the type.** A bound
variable, whose root is in no meaning, occurs nowhere. -/
theorem occurs_iff_mem_vars_apply (hs : s.WellFormed) (ht : s.Covers t) :
    s.occurs v t = true ↔ s.root v ∈ (s.apply t).vars := by
  have hacc := hs.acc_enters ht
  induction hacc with
  | intro t _ ih =>
    rw [hs.occurs_eq ht, hs.apply_eq ht, List.any_eq_true, Ty.mem_vars_mapVars]
    refine exists_congr fun w => and_congr_right fun hw => ?_
    rcases hs.probe_cases (ht w hw) with ⟨k, -, hprobe⟩ | ⟨u, hu, hprobe⟩
    · rw [hprobe]
      simp only [beq_iff_eq, Ty.vars_var, List.mem_singleton]
      exact eq_comm
    · have hproper := hs.proper _ u hu
      have hiff := ih u ⟨w, hw, hprobe, hproper⟩ (hs.covered _ u hu)
      rw [hprobe]
      cases u with
      | var r => cases hproper
      | _ => exact hiff

/-- A variable is bound if what is found for it is no variable. -/
theorem isBound_eq (hs : s.WellFormed) (hv : s.Has v) : s.isBound v = !(s.probe v).isVar := by
  unfold isBound
  rcases hs.probe_cases hv with ⟨k, hk, hprobe⟩ | ⟨u, hu, hprobe⟩
  · rw [hk, hprobe]
    rfl
  · rw [hu, hprobe, hs.proper _ u hu]
    rfl

/-! ### Undisturbed variables -/

/-- The later store has the variables of the earlier one, and finds for them what the earlier one
finds. -/
structure Undisturbed (s s' : Store) : Prop where
  has : ∀ v, s.Has v → s'.Has v
  root : ∀ v, s.Has v → s'.root v = s.root v
  probe : ∀ v, s.Has v → s'.probe v = s.probe v

namespace Undisturbed

theorem refl (s : Store) : Undisturbed s s := ⟨fun _ h => h, fun _ _ => rfl, fun _ _ => rfl⟩

theorem trans (h : Undisturbed s s') (h' : Undisturbed s' s'') : Undisturbed s s'' where
  has v hv := h'.has v (h.has v hv)
  root v hv := (h'.root v (h.has v hv)).trans (h.root v hv)
  probe v hv := (h'.probe v (h.has v hv)).trans (h.probe v hv)

theorem of_tidies (h : Tidies s s') (hs : s.WellFormed) : Undisturbed s s' where
  has _ := h.moves.has
  root _ := h.root_eq hs
  probe _ := h.probe_eq hs

theorem of_slots (h : s.slots = s'.slots) : Undisturbed s s' where
  has v hv := by
    unfold Has size at hv ⊢
    rwa [← h]
  root v _ := congrFun (root_congr h).symm v
  probe v _ := congrFun (probe_congr h).symm v

theorem fresh (hs : s.WellFormed) : Undisturbed s s.fresh.2 := by
  have hroot : ∀ v, s.Has v → s.fresh.2.root v = s.root v := fun v hv =>
    (wellFormed_fresh hs).root_eq (leads_fresh (hs.leads_root hv))
  refine ⟨fun v hv => hv.fresh, hroot, fun v hv => ?_⟩
  unfold Store.probe content
  rw [hroot v hv, slot?_fresh_of_has (hs.has_root hv)]

section Meanings

variable (h : Undisturbed s s') (hs : s.WellFormed) (hs' : s'.WellFormed)
include h hs hs'

theorem isBound_eq (hv : s.Has v) : s'.isBound v = s.isBound v := by
  rw [Store.isBound_eq hs hv, Store.isBound_eq hs' (h.has v hv), h.probe v hv]

/-- Types mean what they meant. -/
theorem apply_eq (ht : s.Covers t) : s'.apply t = s.apply t :=
  apply_eq_of_probe_eq hs hs' h.has h.probe ht

/-- Variables occur where they occurred. -/
theorem occurs_eq (hv : s.Has v) (ht : s.Covers t) : s'.occurs v t = s.occurs v t := by
  rw [Bool.eq_iff_iff, occurs_iff_mem_vars_apply hs ht,
    occurs_iff_mem_vars_apply hs' fun w hw => h.has w (ht w hw), h.root v hv,
    h.apply_eq hs hs' ht]

end Meanings

end Undisturbed

/-- What solves a later store leads from meanings in the earlier one to those in the later one. -/
theorem apply_of_solved (hs : s.WellFormed) (hs' : s'.WellFormed) (ht : s.Covers t)
    (ht' : s'.Covers t) (h : s.SolvedBy fun v => s'.apply (.var v)) :
    s'.apply t = (s.apply t).mapVars fun v => s'.apply (.var v) := by
  rw [h.apply hs ht]
  exact hs'.apply_eq_mapVars ht'

end Store

/-! ### Sessions -/

/-- The operation takes nothing back. -/
def Op.keeps : Op → Bool
  | .restore => false
  | _ => true

/-- The operation looks variables up, opens or commits a snapshot, or adds a variable. -/
def Op.looks : Op → Bool
  | .find _ | .resolve _ | .shallow _ | .snapshot | .commit | .fresh => true
  | .bind .. | .unify .. | .restore => false

namespace Session

open Store

variable {x y : Session} {past : List Store} {op : Op}

/-- Operations of one kind lead from one session to another one. -/
def Steps (kind : Op → Bool) : Session → Session → Prop :=
  ReflTransGen fun x y => ∃ op, kind op = true ∧ x.Allows op ∧ y = x.next op

theorem slots_next_commit (x : Session) : (x.next .commit).store.slots = x.store.slots := by
  unfold Session.next
  cases x.taken <;> rfl

namespace History

variable (h : x.History past) (hop : x.Allows op)
include h hop

/-- An operation that takes nothing back moves the store, and at most its log differs then. -/
theorem exists_moves (hkeeps : op.keeps = true) :
    ∃ s, Moves x.store s ∧ s.slots = (x.next op).store.slots := by
  have hs := h.store_wellFormed
  cases op with
  | fresh => exact ⟨_, .single .fresh, rfl⟩
  | find v => exact ⟨_, (tidies_find hs hop).moves, rfl⟩
  | resolve v => exact ⟨_, (tidies_find hs hop).moves, rfl⟩
  | shallow t => exact ⟨_, (tidies_shallow hs hop).moves, rfl⟩
  | bind v t => exact ⟨_, moves_bind hs hop.1 hop.2, rfl⟩
  | unify a b => exact ⟨_, moves_unify hs hop.1 hop.2, rfl⟩
  | snapshot => exact ⟨_, .refl, rfl⟩
  | restore => cases hkeeps
  | commit => exact ⟨_, .refl, (slots_next_commit x).symm⟩

/-- What solves the store after such an operation solves the store before it. -/
theorem solved_next (hkeeps : op.keeps = true) {σ : TyVar → Ty}
    (hσ : (x.next op).store.SolvedBy σ) : x.store.SolvedBy σ := by
  obtain ⟨s, hmoves, hslots⟩ := h.exists_moves hop hkeeps
  exact hmoves.solved (hσ.of_slots fun v c _ hv => congrFun (slot?_congr hslots) v ▸ hv)

/-- An operation that looks variables up leaves them undisturbed. -/
theorem undisturbed_next (hlooks : op.looks = true) : Undisturbed x.store (x.next op).store := by
  have hs := h.store_wellFormed
  cases op with
  | fresh => exact .fresh hs
  | find v => exact .of_tidies (tidies_find hs hop) hs
  | resolve v => exact .of_tidies (tidies_find hs hop) hs
  | shallow t => exact .of_tidies (tidies_shallow hs hop) hs
  | snapshot => exact .of_slots rfl
  | commit => exact .of_slots (slots_next_commit x).symm
  | _ => cases hlooks

end History

/-! ### Runs -/

theorem History.of_steps {kind : Op → Bool} (h : x.History past) (hrun : x.Steps kind y) :
    ∃ past', y.History past' := by
  induction hrun with
  | refl => exact ⟨past, h⟩
  | tail _ hstep ih =>
    obtain ⟨past', hy⟩ := ih
    obtain ⟨op, -, hop, rfl⟩ := hstep
    obtain ⟨past'', hnext, -⟩ := hy.next hop
    exact ⟨past'', hnext⟩

/-- After a run that takes nothing back, the store has all old variables, and what solves it solves
the store at the start. -/
theorem solved_of_steps (h : x.History past) (hrun : x.Steps Op.keeps y) :
    (∀ v, x.store.Has v → y.store.Has v) ∧ ∀ σ, y.store.SolvedBy σ → x.store.SolvedBy σ := by
  induction hrun with
  | refl => exact ⟨fun _ hv => hv, fun _ hσ => hσ⟩
  | @tail y z hrun hstep ih =>
    obtain ⟨hhas, hsolved⟩ := ih
    obtain ⟨past', hy⟩ := h.of_steps hrun
    obtain ⟨op, hkeeps, hop, rfl⟩ := hstep
    obtain ⟨s, hmoves, hslots⟩ := hy.exists_moves hop hkeeps
    refine ⟨fun v hv => ?_, fun σ hσ => hsolved σ (hy.solved_next hop hkeeps hσ)⟩
    exact (Undisturbed.of_slots hslots).has v (hmoves.has (hhas v hv))

theorem undisturbed_of_steps (h : x.History past) (hrun : x.Steps Op.looks y) :
    Undisturbed x.store y.store := by
  induction hrun with
  | refl => exact .refl _
  | @tail y z hrun hstep ih =>
    obtain ⟨past', hy⟩ := h.of_steps hrun
    obtain ⟨op, hlooks, hop, rfl⟩ := hstep
    exact ih.trans (hy.undisturbed_next hop hlooks)

/-- **Operations only refine, and shortening links is not seen.** In every session that operations
lead to:

* after further operations that take nothing back, failed ones included, one substitution leads from
  the meanings that types had to those that they have;
* operations that look variables up, and those that open and commit snapshots or add variables,
  leave all meanings, roots and contents of old variables, and what is bound and occurs, as they
  were;
* looking a variable up with and without shortening finds the same;
* a variable occurs in a type exactly if its root is a variable of the meaning of the type. -/
theorem meanings_refine (hx : x.Reachable) :
    (∀ y, x.Steps Op.keeps y → ∃ τ : TyVar → Ty, ∀ t, x.store.Covers t →
      y.store.apply t = (x.store.apply t).mapVars τ) ∧
    (∀ y, x.Steps Op.looks y →
      (∀ t, x.store.Covers t → y.store.apply t = x.store.apply t) ∧
      (∀ v, x.store.Has v → y.store.probe v = x.store.probe v ∧
        y.store.root v = x.store.root v ∧ y.store.isBound v = x.store.isBound v) ∧
      ∀ v t, x.store.Has v → x.store.Covers t → y.store.occurs v t = x.store.occurs v t) ∧
    (∀ v, x.store.Has v → (x.store.resolve v).1 = x.store.probe v) ∧
    ∀ v t, x.store.Has v → x.store.isBound v = false → x.store.Covers t →
      (x.store.occurs v t = true ↔ x.store.root v ∈ (x.store.apply t).vars) := by
  obtain ⟨past, hpast⟩ := History.of_reachable hx
  have hs := hpast.store_wellFormed
  refine ⟨fun y hrun => ?_, fun y hrun => ?_, fun v hv => ?_, fun v t _ _ ht => ?_⟩
  · obtain ⟨past', hy⟩ := hpast.of_steps hrun
    obtain ⟨hhas, hsolved⟩ := solved_of_steps hpast hrun
    have hs' := hy.store_wellFormed
    exact ⟨_, fun t ht =>
      apply_of_solved hs hs' ht (fun v hv => hhas v (ht v hv)) (hsolved _ hs'.solved)⟩
  · obtain ⟨past', hy⟩ := hpast.of_steps hrun
    have hsame := undisturbed_of_steps hpast hrun
    have hs' := hy.store_wellFormed
    exact ⟨fun t ht => hsame.apply_eq hs hs' ht, fun v hv =>
      ⟨hsame.probe v hv, hsame.root v hv, hsame.isBound_eq hs hs' hv⟩,
      fun v t hv ht => hsame.occurs_eq hs hs' hv ht⟩
  · exact congrArg Prod.fst (resolve_eq hs hv)
  · exact occurs_iff_mem_vars_apply hs ht

/-- A unification that fails has bound four variables before, and refines all meanings; looking one
of them up instead shortens its way and changes no meaning. -/
theorem meanings_refine_failed :
    let x := (Session.start 4).next (.unify (.tuple [.var ⟨0⟩, .var ⟨2⟩, .var ⟨1⟩])
      (.tuple [.var ⟨1⟩, .var ⟨3⟩, .var ⟨3⟩]))
    let y := x.next (.unify (.tuple [.var ⟨0⟩, .unit]) (.tuple [.unit, .literal .integer]))
    let z := x.next (.resolve ⟨3⟩)
    (∃ τ : TyVar → Ty, ∀ t, x.store.Covers t → y.store.apply t = (x.store.apply t).mapVars τ) ∧
      y.store.apply (.var ⟨3⟩) = .unit ∧
      (∀ t, x.store.Covers t → z.store.apply t = x.store.apply t) ∧
      z.store.slots ≠ x.store.slots ∧
      (x.store.occurs ⟨3⟩ (.tuple [.var ⟨1⟩]) = true ↔
        x.store.root ⟨3⟩ ∈ (x.store.apply (.tuple [.var ⟨1⟩])).vars) := by
  intro x y z
  have hx : x.Reachable := ⟨4, .step (.refl _) (by decide) (by decide)⟩
  obtain ⟨hrefine, hlook, -, hoccurs⟩ := meanings_refine hx
  have hy : x.Steps Op.keeps y := .single ⟨_, rfl, by decide, rfl⟩
  have hz : x.Steps Op.looks z := .single ⟨_, rfl, by decide, rfl⟩
  exact ⟨hrefine y hy, by decide, (hlook z hz).1, by decide,
    hoccurs _ _ (by decide) (by decide) (by decide)⟩

end Session
end TypeResolution
