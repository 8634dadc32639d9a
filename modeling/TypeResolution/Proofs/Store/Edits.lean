/-
# Edits and the version

Whatever happens to a store comes down to five edits: a slot is written, a variable is added, a
snapshot is taken, restored or committed (`Store.Edit`). The version counts the writes and the
restorations. As long as it stays the same, nothing that was there has been touched, although
variables may have been added and snapshots taken (`Store.Edits.later`).

What is closed under writes and new variables is kept by everything that a step of the search
does to the store (`Store.steady_of_closed`).

Key definitions: `Store.Edit`, `Store.Later`.
Key theorems: `Store.Edits.later`, `Store.steady_of_closed`.
-/
import Mathlib.Logic.Relation
import TypeResolution.Proofs.Search.Parallel
import TypeResolution.Proofs.Store.History

open Relation (ReflTransGen)

namespace TypeResolution
namespace Store

variable {s t u : Store}

/-- One change of a store. -/
inductive Edit (s : Store) : Store → Prop where
  | write (v : TyVar) (c : Slot) : Edit s (s.write v c)
  | fresh : Edit s s.fresh.2
  | snapshot : Edit s s.snapshot.2
  | restore (m : Snapshot) : Edit s (s.restore m)
  | commit : Edit s s.commit

/-- Changes one after the other. -/
abbrev Edits : Store → Store → Prop := ReflTransGen Edit

/-- The version has not gone down, and if it is the same then so are the slots that there were. -/
structure Later (s t : Store) : Prop where
  version_le : s.version ≤ t.version
  slot : t.version = s.version → ∀ v c, s.slot? v = some c → t.slot? v = some c

theorem Later.refl (s : Store) : Later s s := ⟨Nat.le_refl _, fun _ _ _ h => h⟩

theorem Later.trans (h : Later s t) (h' : Later t u) : Later s u := by
  refine ⟨h.version_le.trans h'.version_le, fun heq v c hc => ?_⟩
  have hle := h.version_le
  have hle' := h'.version_le
  exact h'.slot (by omega) v c (h.slot (by omega) v c hc)

theorem Later.of_lt (h : s.version < t.version) : Later s t :=
  ⟨Nat.le_of_lt h, fun heq => by omega⟩

theorem Edit.later (h : Edit s t) : Later s t := by
  cases h with
  | write v c =>
    unfold Store.write
    split
    · exact .refl s
    · exact .of_lt (Nat.lt_succ_self _)
  | fresh => exact ⟨Nat.le_refl _, fun _ v c hc => (slot?_fresh_of_has (has_of_slot? hc)).trans hc⟩
  | snapshot => exact ⟨Nat.le_refl _, fun _ _ _ hc => hc⟩
  | restore m => exact .of_lt (by rw [version_restore]; exact Nat.lt_succ_self _)
  | commit => exact ⟨Nat.le_refl _, fun _ _ _ hc => hc⟩

/-- **As long as the version stays the same, so do the slots that there are.** -/
theorem Edits.later (h : Edits s t) : Later s t := by
  induction h with
  | refl => exact .refl s
  | tail _ hedit ih => exact ih.trans hedit.later

/-- Two runs of one step from the same store keep to what is closed under its changes. -/
theorem steady_of_closed {P : Store → Prop} (hwrite : ∀ s, P s → ∀ v c, P (s.write v c))
    (hfresh : ∀ s, P s → P s.fresh.2) : Search.Steady (fun s t => s = t ∧ P s) where
  slots h := congrArg Store.slots h.1
  write := by
    rintro s t ⟨rfl, h⟩ v c
    exact ⟨rfl, hwrite s h v c⟩
  fresh := by
    rintro s t ⟨rfl, h⟩
    exact ⟨rfl, hfresh s h⟩
  version := by
    rintro s t s' t' ⟨rfl, -⟩ ⟨rfl, -⟩
    exact Iff.rfl

theorem steady_edits (s : Store) : Search.Steady (fun t u => t = u ∧ Edits s t) :=
  steady_of_closed (fun _ h v c => h.tail (.write v c)) fun _ h => h.tail .fresh

end Store

namespace Search

open Store

variable {s : Store}

theorem edits_pathSimplify (ctx : Context) (goal : Goal) (rest : Work) :
    Edits s (Path.simplify ctx goal rest s).2 :=
  ((steady_edits s).alike_pathSimplify ctx ⟨rfl, .refl⟩ goal rest).2.2

theorem edits_enter (a : Alternative) (l : Option Locator) (w : Work) :
    Edits s (a.enter l w s).2 :=
  (alike_enter (steady_edits s).toParallel ⟨rfl, .refl⟩ a l w).2.2

end Search
end TypeResolution
