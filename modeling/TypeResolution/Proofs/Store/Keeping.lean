/-
# Variables that are kept out

A kind of leaves may leave out some variables. A store keeps to such a kind if no binding and no
link leads to a variable that is left out, and if this variable is unbound and in a class of its
own (`Store.Keeps`). Looking up, binding and unifying types of the kind keeps the store to it: what
is written goes to variables of the kind, and what is read comes from them. A fresh variable is of
the kind, since the store had no slot for it.

For a kind with all variables in it this is what `Store.BindsOnly` says.

Key definitions: `Store.Keeps`.
Key theorems: `Store.Keeps.find`, `Store.Keeps.bindRoot`, `Store.Keeps.unify`,
`Store.Keeps.leavesIn_apply`, `Store.Keeps.apply_eq`.
-/
import TypeResolution.Proofs.Store.Unification

namespace TypeResolution
namespace Store

variable {s s' : Store} {Q : Ty → Prop} {v w r : TyVar} {a b a' b' t : Ty} {c : Slot}

/-- Types that are bound have leaves of the kind, links lead to variables of the kind, and a
variable that is not of the kind is an unbound root. -/
structure Keeps (s : Store) (Q : Ty → Prop) : Prop where
  binds : s.BindsOnly (Ty.LeavesIn Q)
  links : ∀ v w, s.slot? v = some (.link w) → Q (.var w)
  apart : ∀ v, Q (.var v) ∨ ∃ k, s.slot? v = some (.root k)

namespace Keeps

/-- If all variables are of the kind, then only bindings matter. -/
theorem of_vars (hvar : ∀ v, Q (.var v)) (hs : s.BindsOnly (Ty.LeavesIn Q)) : s.Keeps Q :=
  ⟨hs, fun _ w _ => hvar w, fun v => .inl (hvar v)⟩

/-- A store of unbound variables keeps to a kind that leaves out variables of the store only. -/
theorem ofSize {count : Nat} (h : ∀ v : TyVar, count ≤ v.index → Q (.var v)) :
    (Store.ofSize count).Keeps Q := by
  refine ⟨bindsOnly_ofSize count _, fun v w hv => ?_, fun v => ?_⟩
  · cases slot_ofSize hv
  by_cases hlt : v.index < count
  · exact .inr ⟨0, by rw [slot?_ofSize, if_pos hlt]⟩
  · exact .inl (h v (Nat.le_of_not_lt hlt))

theorem congr (hslots : s.slots = s'.slots) (h : s.Keeps Q) : s'.Keeps Q := by
  have heq := slot?_congr hslots
  refine ⟨fun v t ht => h.binds v t ?_, fun v w hw => h.links v w ?_, fun v => ?_⟩
  · rw [heq, ht]
  · rw [heq, hw]
  · rw [← heq]
    exact h.apart v

/-! ### Writing -/

/-- Writing what is of the kind to a variable of it. -/
theorem write (h : s.Keeps Q) (hv : Q (.var v)) (hbound : ∀ t, c = .bound t → t.LeavesIn Q)
    (hlink : ∀ w, c = .link w → Q (.var w)) : (s.write v c).Keeps Q := by
  refine ⟨fun x t ht => ?_, fun x w hw => ?_, fun x => ?_⟩
  · rw [slot?_write] at ht
    split at ht
    · exact hbound t (Option.some.inj ht)
    · exact h.binds x t ht
  · rw [slot?_write] at hw
    split at hw
    · exact hlink w (Option.some.inj hw)
    · exact h.links x w hw
  · by_cases hx : x = v
    · exact .inl (hx ▸ hv)
    · rw [slot?_write, if_neg fun heq => hx heq.1]
      exact h.apart x

theorem write_link (h : s.Keeps Q) (hv : Q (.var v)) (hw : Q (.var w)) :
    (s.write v (.link w)).Keeps Q :=
  h.write hv nofun fun _ heq => Slot.link.inj heq ▸ hw

theorem write_root (h : s.Keeps Q) (hv : Q (.var v)) (k : Nat) : (s.write v (.root k)).Keeps Q :=
  h.write hv nofun nofun

theorem write_bound (h : s.Keeps Q) (hv : Q (.var v)) (ht : t.LeavesIn Q) :
    (s.write v (.bound t)).Keeps Q :=
  h.write hv (fun _ heq => Slot.bound.inj heq ▸ ht) nofun

/-- A fresh variable is of the kind. -/
theorem var_fresh (h : s.Keeps Q) : Q (.var s.fresh.1) := by
  refine (h.apart _).resolve_right ?_
  rintro ⟨k, hk⟩
  have hlt := has_of_slot? hk
  exact Nat.lt_irrefl _ hlt

theorem fresh (h : s.Keeps Q) : s.fresh.2.Keeps Q := by
  refine ⟨fun v t ht => ?_, fun v w hw => ?_, fun v => ?_⟩
  · rw [slot?_fresh] at ht
    split at ht
    · cases ht
    · exact h.binds v t ht
  · rw [slot?_fresh] at hw
    split at hw
    · cases hw
    · exact h.links v w hw
  · rw [slot?_fresh]
    split
    · exact .inr ⟨0, rfl⟩
    · exact h.apart v

/-! ### Looking up -/

theorem var_rootWithin (h : s.Keeps Q) : ∀ (fuel : Nat) {v : TyVar}, Q (.var v) →
    Q (.var (s.rootWithin fuel v))
  | 0, _, hv => hv
  | fuel + 1, v, hv => by
    unfold rootWithin
    split
    · rename_i next hnext
      exact h.var_rootWithin fuel (h.links v next hnext)
    · exact hv

theorem var_root (h : s.Keeps Q) (hv : Q (.var v)) : Q (.var (s.root v)) :=
  h.var_rootWithin s.size hv

theorem compressWithin (hr : Q (.var r)) : ∀ (fuel : Nat) {s : Store} {v : TyVar}, s.Keeps Q →
    Q (.var v) → (compressWithin r fuel s v).Keeps Q
  | 0, _, _, h, _ => h
  | fuel + 1, s, v, h, hv => by
    unfold Store.compressWithin
    split
    · exact h
    · split
      · rename_i next hnext
        refine compressWithin hr fuel ?_ (h.links v next hnext)
        split
        · exact h
        · exact h.write_link hv hr
      · exact h

/-- Finding the root of a variable that is left out changes nothing. -/
theorem find (h : s.Keeps Q) (v : TyVar) : (s.find v).2.Keeps Q := by
  rcases h.apart v with hv | ⟨k, hk⟩
  · exact compressWithin (h.var_root hv) s.size h hv
  · show (Store.compressWithin (s.root v) s.size s v).Keeps Q
    cases s.size with
    | zero => exact h
    | succ fuel =>
      unfold Store.compressWithin
      rw [hk]
      split <;> exact h

theorem content (h : s.Keeps Q) (hr : Q (.var r)) : (s.content r).LeavesIn Q := by
  unfold Store.content
  split
  · exact h.binds _ _ ‹_›
  · exact Ty.leavesIn_singleton rfl hr

/-- The meaning of a type of the kind is of the kind. -/
theorem leavesIn_apply (h : s.Keeps Q) (ht : t.LeavesIn Q) : (s.apply t).LeavesIn Q :=
  Store.leavesIn_apply (fun _ hv => h.content (h.var_root hv)) ht

/-- The meaning of a variable that is left out is the variable. -/
theorem apply_eq (h : s.Keeps Q) (hv : ¬ Q (.var v)) : s.apply (.var v) = .var v := by
  obtain ⟨k, hk⟩ := (h.apart v).resolve_left hv
  have hroot : s.root v = v := by
    unfold Store.root
    cases s.size with
    | zero => rfl
    | succ fuel =>
      unfold rootWithin
      rw [hk]
  have hprobe : s.probe v = .var v := by
    unfold probe Store.content
    rw [hroot, hk]
  unfold apply applyWithin
  rw [Ty.mapVars_var, hprobe]

theorem shallow_store (h : s.Keeps Q) (t : Ty) : (s.shallow t).2.Keeps Q := by
  cases t with
  | var v => exact h.find v
  | _ => exact h

theorem shallow (h : s.Keeps Q) (ht : t.LeavesIn Q) : (s.shallow t).1.LeavesIn Q := by
  cases t with
  | var v => exact (h.find v).content (h.var_root (ht _ (List.mem_singleton.2 rfl)))
  | _ => exact ht

theorem tops (h : s.Keeps Q) (ha : a.LeavesIn Q) (hb : b.LeavesIn Q)
    (htops : s.tops a b = ((a', b'), s')) : s'.Keeps Q ∧ a'.LeavesIn Q ∧ b'.LeavesIn Q := by
  obtain ⟨hpair, rfl⟩ := Prod.mk.inj htops
  obtain ⟨rfl, rfl⟩ := Prod.mk.inj hpair
  have hfirst := h.shallow_store a
  exact ⟨hfirst.shallow_store b, h.shallow ha, hfirst.shallow hb⟩

/-! ### Joining, binding and unifying -/

theorem link (h : s.Keeps Q) (hv : Q (.var v)) (hw : Q (.var w)) : (s.link v w).Keeps Q := by
  have hfirst := h.find v
  have hboth := hfirst.find w
  have hv' : Q (.var (s.find v).1) := h.var_root hv
  have hw' : Q (.var ((s.find v).2.find w).1) := hfirst.var_root hw
  have hsides : ∀ {p q}, Sides (s.find v).1 ((s.find v).2.find w).1 p q →
      Q (.var p) ∧ Q (.var q) := fun h => h.both (P := fun x => Q (.var x)) hv' hw'
  refine link_cases (P := (Keeps · Q)) rfl rfl (fun _ => hboth) (fun h _ => ?_) fun h _ => ?_
  · exact hboth.write_link (hsides h).2 (hsides h).1
  · exact (hboth.write_root (hsides h).1 _).write_link (hsides h).2 (hsides h).1

theorem bindRoot (h : s.Keeps Q) (hv : Q (.var v)) (ht : t.LeavesIn Q) :
    (s.bindRoot v t).store.Keeps Q := by
  cases hn : t.isVar with
  | true =>
    obtain ⟨w, rfl⟩ := Ty.eq_var_of_isVar hn
    exact h.link hv (ht _ (List.mem_singleton.2 rfl))
  | false =>
    rw [bindRoot_eq hn]
    split
    · exact h
    · exact h.write_bound hv ht

/-- **Unifying types of the kind** keeps the store to it, whether it succeeds or not. -/
theorem unify (h : s.Keeps Q) (ha : a.LeavesIn Q) (hb : b.LeavesIn Q) :
    (s.unify a b).store.Keeps Q := by
  unfold Store.unify
  cases hunify : unifyWithin (s.unifyDepth a b) s a b with
  | none => exact h
  | some out =>
    have hrun := unifies_of_unifyWithin _ s a b out hunify [] out (follows_nil out)
    exact hrun.preserves (I := (Keeps · Q)) (fun ht hc => ht.of_mem_children hc)
      (fun hs ha hb heq => hs.tops ha hb heq)
      (fun hs hv ht => hs.bindRoot (hv _ (List.mem_singleton.2 rfl)) ht) h
      (List.forall_mem_singleton.2 ⟨ha, hb⟩)

theorem bind (h : s.Keeps Q) (hv : Q (.var v)) (ht : t.LeavesIn Q) :
    (s.bind v t).store.Keeps Q := by
  have hfound := h.find v
  unfold Store.bind
  dsimp only
  split
  · rename_i u hu
    exact hfound.unify (hfound.binds _ u hu) ht
  · exact (hfound.shallow_store t).bindRoot (h.var_root hv) (hfound.shallow ht)

end Keeps

/-- **The error type agrees with everything**, and nothing is bound to it. -/
theorem unify_error (s : Store) (a : Ty) : s.unify a .error = .done (s.shallow a).2 := by
  have hcompare : Comparison.of (s.shallow a).1 .error = .agree := by
    unfold Comparison.of
    cases (s.shallow a).1 <;> rfl
  have htops : s.tops a .error = (((s.shallow a).1, .error), (s.shallow a).2) := rfl
  unfold unify
  cases hfuel : s.unifyDepth a .error with
  | zero => exact absurd hfuel (Nat.mul_ne_zero (Nat.succ_ne_zero _) (Nat.succ_ne_zero _))
  | succ fuel =>
    rw [unifyWithin_succ fuel htops, hcompare]
    rfl

end Store
end TypeResolution
