/-
# Agreement of types

Types agree if they are the same up to parts that are of the error type in one of them. A type
agrees with itself (`agree_refl`) and with the error type, and types of one shape agree if their
children do (`agree_of_children`). Agreement goes both ways (`agree_comm`).

Key theorems: `agree_refl`, `agree_of_children`, `agree_comm`.
-/
import TypeResolution.Proofs.Ty.Substitution
import TypeResolution.Satisfaction

namespace TypeResolution

variable {a b : Ty}

@[simp] theorem agree_error_left (b : Ty) : agree .error b = true := by
  simp [agree]

@[simp] theorem agree_error_right (a : Ty) : agree a .error = true := by
  cases a <;> simp [agree]

theorem agreeAll_of_zip : ∀ {as bs : List Ty}, as.length = bs.length →
    (∀ p ∈ as.zip bs, agree p.1 p.2 = true) → agreeAll as bs = true
  | [], [], _, _ => rfl
  | a :: as, b :: bs, hlength, h => by
    rw [List.zip_cons_cons] at h
    obtain ⟨hab, hrest⟩ := List.forall_mem_cons.1 h
    unfold agreeAll
    rw [hab, agreeAll_of_zip (Nat.succ.inj hlength) hrest]
    rfl

theorem agreeParams_of_zip : ∀ {ps qs : List Parameter}, ps.map (·.1) = qs.map (·.1) →
    (∀ p ∈ ps.zip qs, agree p.1.2 p.2.2 = true) → agreeParams ps qs = true
  | [], [], _, _ => rfl
  | (c, a) :: ps, (d, b) :: qs, hconventions, h => by
    obtain ⟨hcd, hrest⟩ := List.cons.inj hconventions
    rw [List.zip_cons_cons] at h
    obtain ⟨hab, hparams⟩ := List.forall_mem_cons.1 h
    unfold agreeParams
    rw [hab, agreeParams_of_zip hrest hparams, beq_iff_eq.2 hcd]
    rfl

theorem mem_zip_self {α : Type} {p : α × α} : ∀ {xs : List α}, p ∈ xs.zip xs →
    p.1 = p.2 ∧ p.1 ∈ xs
  | x :: xs, h => by
    rw [List.zip_cons_cons] at h
    rcases List.mem_cons.1 h with rfl | h
    · exact ⟨rfl, List.mem_cons_self⟩
    · obtain ⟨heq, hmem⟩ := mem_zip_self h
      exact ⟨heq, List.mem_cons_of_mem _ hmem⟩

theorem agree_refl (a : Ty) : agree a a = true := by
  induction a with
  | nominal n as ih =>
    have hall : agreeAll as as = true := agreeAll_of_zip rfl fun p hp => by
      obtain ⟨heq, hmem⟩ := mem_zip_self hp
      rw [← heq]
      exact ih p.1 hmem
    simp [agree, hall]
  | function ps r ihp ihr =>
    have hparams : agreeParams ps ps = true := agreeParams_of_zip rfl fun p hp => by
      obtain ⟨heq, hmem⟩ := mem_zip_self hp
      rw [← heq]
      exact ihp p.1 hmem
    simp [agree, hparams, ihr]
  | tuple as ih =>
    have hall : agreeAll as as = true := agreeAll_of_zip rfl fun p hp => by
      obtain ⟨heq, hmem⟩ := mem_zip_self hp
      rw [← heq]
      exact ih p.1 hmem
    simp [agree, hall]
  | _ => simp [agree]

theorem agree_of_eq (h : a = b) : agree a b = true := h ▸ agree_refl a

/-- Types of one shape agree if their children do. -/
theorem agree_of_children (hshape : a.shape = b.shape)
    (hlength : a.children.length = b.children.length)
    (h : ∀ p ∈ a.children.zip b.children, agree p.1 p.2 = true) : agree a b = true := by
  cases a with
  | nominal n as =>
    cases b with
    | nominal m bs =>
      have hall : agreeAll as bs = true := agreeAll_of_zip hlength h
      simp [agree, Ty.Shape.nominal.inj hshape, hall]
    | _ => cases hshape
  | function ps r =>
    cases b with
    | function qs u =>
      have hconventions := Ty.Shape.function.inj hshape
      have hcount : (ps.map (·.2)).length = (qs.map (·.2)).length := by
        simpa using congrArg List.length hconventions
      simp only [Ty.children, List.zip_append hcount, List.zip_map, List.zip_cons_cons,
        List.zip_nil_left] at h
      have hparams : agreeParams ps qs = true := agreeParams_of_zip hconventions fun p hp =>
        h (p.1.2, p.2.2) (List.mem_append_left _ (List.mem_map.2 ⟨p, hp, rfl⟩))
      have hresult : agree r u = true :=
        h (r, u) (List.mem_append_right _ (List.mem_singleton.2 rfl))
      simp [agree, hparams, hresult]
    | _ => cases hshape
  | tuple as =>
    cases b with
    | tuple bs => exact agreeAll_of_zip hlength h
    | _ => cases hshape
  | _ =>
    cases b <;> cases hshape
    exact agree_refl _

theorem agreeAll_comm : ∀ {as bs : List Ty}, (∀ a ∈ as, ∀ b, agree a b = agree b a) →
    agreeAll as bs = agreeAll bs as
  | [], [], _ => rfl
  | [], _ :: _, _ => rfl
  | _ :: _, [], _ => rfl
  | a :: as, b :: bs, h => by
    obtain ⟨ha, has⟩ := List.forall_mem_cons.1 h
    unfold agreeAll
    rw [ha, agreeAll_comm has]

theorem agreeParams_comm : ∀ {ps qs : List Parameter},
    (∀ p ∈ ps, ∀ b, agree p.2 b = agree b p.2) → agreeParams ps qs = agreeParams qs ps
  | [], [], _ => rfl
  | [], _ :: _, _ => rfl
  | _ :: _, [], _ => rfl
  | (c, a) :: ps, (d, b) :: qs, h => by
    obtain ⟨ha, hps⟩ := List.forall_mem_cons.1 h
    unfold agreeParams
    rw [ha, agreeParams_comm hps, BEq.comm (a := c)]

/-- It does not matter which of two types is looked at first. -/
theorem agree_comm (a b : Ty) : agree a b = agree b a := by
  induction a generalizing b with
  | error => rw [agree_error_left, agree_error_right]
  | nominal n as ih =>
    cases b with
    | nominal m bs =>
      unfold agree
      rw [agreeAll_comm ih, BEq.comm (a := n)]
    | error => rw [agree_error_left, agree_error_right]
    | _ => rfl
  | function ps r ihps ihr =>
    cases b with
    | function qs u =>
      unfold agree
      rw [agreeParams_comm ihps, ihr]
    | error => rw [agree_error_left, agree_error_right]
    | _ => rfl
  | tuple as ih =>
    cases b with
    | tuple bs => exact agreeAll_comm ih
    | error => rw [agree_error_left, agree_error_right]
    | _ => rfl
  | _ =>
    cases b with
    | error => rw [agree_error_left, agree_error_right]
    | _ => exact BEq.comm

end TypeResolution
