/-
# Subtyping as a recursive program

Whether a type is a subtype of another one is asked of their parts, with parameters the other way
round, and of the supertypes of a nominal type, with no bound. In a table without circles this
comes to an end as well (`Table.subtypeRecursion_computes`): parts are smaller, and from a nominal
type the only way on is up.

Key definitions: `Table.subtypeRecursion`.
Key theorems: `Table.isSubtypeToward_flip`, `Table.subtypeRecursion_computes`.
-/
import TypeResolution.Proofs.Lists
import TypeResolution.Proofs.Table.Recursion
import TypeResolution.Proofs.Ty.Agreement

namespace TypeResolution
namespace Table

variable {table t : Table} {a b : Ty}

/-! ### Both directions -/

theorem areSubtypesToward_flip {upward : Bool} : ∀ {as bs : List Ty},
    (∀ a ∈ as, ∀ b, table.isSubtypeToward upward a b = table.isSubtypeToward (!upward) b a) →
    table.areSubtypesToward upward as bs = table.areSubtypesToward (!upward) bs as
  | [], [], _ => rfl
  | [], _ :: _, _ => rfl
  | _ :: _, [], _ => rfl
  | a :: as, b :: bs, h => by
    obtain ⟨ha, has⟩ := List.forall_mem_cons.1 h
    unfold areSubtypesToward
    rw [ha, areSubtypesToward_flip has]

theorem areSubtypeParams_flip {upward : Bool} : ∀ {ps qs : List Parameter},
    (∀ p ∈ ps, ∀ upward b,
      table.isSubtypeToward upward p.2 b = table.isSubtypeToward (!upward) b p.2) →
    table.areSubtypeParams upward ps qs = table.areSubtypeParams (!upward) qs ps
  | [], [], _ => rfl
  | [], _ :: _, _ => rfl
  | _ :: _, [], _ => rfl
  | (c, a) :: ps, (d, b) :: qs, h => by
    obtain ⟨ha, hps⟩ := List.forall_mem_cons.1 h
    unfold areSubtypeParams
    rw [areSubtypeParams_flip hps, ha, agree_comm a]
    by_cases hcd : c = d
    · rw [hcd]
    · rw [beq_eq_false_iff_ne.2 hcd, beq_eq_false_iff_ne.2 (Ne.symm hcd)]
      rfl

/-- Looked at from the other type, subtyping goes the other way. -/
theorem isSubtypeToward_flip (upward : Bool) (a b : Ty) :
    table.isSubtypeToward upward a b = table.isSubtypeToward (!upward) b a := by
  induction a generalizing b upward with
  | function ps r ihps ihr =>
    cases b with
    | function qs u =>
      unfold isSubtypeToward
      dsimp only
      rw [agree_comm, areSubtypeParams_flip ihps, ihr]
    | _ =>
      unfold isSubtypeToward
      rw [agree_comm]
      cases upward <;> rfl
  | tuple as ih =>
    cases b with
    | tuple bs =>
      unfold isSubtypeToward
      dsimp only
      rw [agree_comm, areSubtypesToward_flip fun a ha b => ih a ha upward b]
    | _ =>
      unfold isSubtypeToward
      rw [agree_comm]
      cases upward <;> rfl
  | _ =>
    unfold isSubtypeToward
    rw [agree_comm]
    cases upward <;> cases b <;> rfl

/-! ### The recursion -/

/-- The pairs of types that are compared next. -/
def subtypeCalls (t : Table) : Ty × Ty → List (Ty × Ty)
  | (.function ps r, .function qs u) =>
    ((ps.zip qs).filter (·.1.1.isOneWay)).map (fun p => (p.2.2, p.1.2)) ++ [(r, u)]
  | (.tuple as, .tuple bs) => as.zip bs
  | (.nominal n as, .nominal m bs) =>
    if n = m then [] else (t.supertypes (.nominal n as)).map (·, .nominal m bs)
  | _ => []

/-- Whether the first type is a subtype of the second one, if this is known of these pairs. -/
def subtypeResult (t : Table) (answer : Ty × Ty → Bool) : Ty → Ty → Bool
  | a, .existential traits => traits.names.all (t.conforms a)
  | .literal kind, b => t.isExpressible b kind
  | .function ps r, .function qs u =>
    ps.length == qs.length &&
      ((ps.zip qs).all fun p => p.1.1 == p.2.1 &&
        if p.1.1.isOneWay then answer (p.2.2, p.1.2) else agree p.1.2 p.2.2) &&
      answer (r, u)
  | .tuple as, .tuple bs => as.length == bs.length && (as.zip bs).all answer
  | .nominal n as, .nominal m bs =>
    n != m && (t.supertypes (.nominal n as)).any fun s =>
      (s.hasParams && (matchPattern s (.nominal m bs) []).isSome) || answer (s, .nominal m bs)
  | _, _ => false

theorem mem_subtypeCalls_nominal {n m : Name} {as bs : List Ty} {s : Ty} (hnm : n ≠ m)
    (hs : s ∈ t.supertypes (.nominal n as)) :
    (s, .nominal m bs) ∈ t.subtypeCalls (.nominal n as, .nominal m bs) := by
  unfold subtypeCalls
  dsimp only
  rw [if_neg hnm]
  exact List.mem_map_of_mem hs

theorem subtypeResult_congr {f g : Ty × Ty → Bool} (h : ∀ c ∈ t.subtypeCalls (a, b), f c = g c) :
    t.subtypeResult f a b = t.subtypeResult g a b := by
  unfold subtypeResult
  split
  · rfl
  · rfl
  · rename_i ps r qs u
    have hparams : ∀ p ∈ ps.zip qs,
        (p.1.1 == p.2.1 && if p.1.1.isOneWay then f (p.2.2, p.1.2) else agree p.1.2 p.2.2) =
        (p.1.1 == p.2.1 && if p.1.1.isOneWay then g (p.2.2, p.1.2) else agree p.1.2 p.2.2) := by
      intro p hp
      split
      · rename_i hway
        rw [h _ (List.mem_append_left _ (List.mem_map.2 ⟨p, List.mem_filter.2 ⟨hp, hway⟩, rfl⟩))]
      · rfl
    rw [all_congr_of_mem hparams, h (r, u) (List.mem_append_right _ List.mem_cons_self)]
  · rename_i as bs
    have hparts : (as.zip bs).all f = (as.zip bs).all g := all_congr_of_mem h
    rw [hparts]
  · rename_i n as m bs
    by_cases hnm : n = m
    · simp [hnm]
    · rw [any_congr_of_mem fun s hs => by rw [h _ (mem_subtypeCalls_nominal hnm hs)]]
  · rfl

/-- Subtyping. -/
def subtypeRecursion (t : Table) : Recursion (Ty × Ty) Bool where
  calls := t.subtypeCalls
  result p answer := agree p.1 p.2 || t.subtypeResult answer p.1 p.2
  congr h := by rw [subtypeResult_congr h]

theorem areSubtypesToward_eq : ∀ as bs : List Ty, t.areSubtypesToward true as bs =
    (as.length == bs.length && (as.zip bs).all fun p => t.isSubtype p.1 p.2)
  | [], [] => rfl
  | [], _ :: _ => rfl
  | _ :: _, [] => rfl
  | a :: as, b :: bs => by
    unfold areSubtypesToward
    rw [areSubtypesToward_eq as bs]
    simp [isSubtype, Bool.and_left_comm]

theorem areSubtypeParams_eq : ∀ ps qs : List Parameter, t.areSubtypeParams true ps qs =
    (ps.length == qs.length && (ps.zip qs).all fun p => p.1.1 == p.2.1 &&
      if p.1.1.isOneWay then t.isSubtype p.2.2 p.1.2 else agree p.1.2 p.2.2)
  | [], [] => rfl
  | [], _ :: _ => rfl
  | _ :: _, [] => rfl
  | (c, a) :: ps, (d, b) :: qs => by
    unfold areSubtypeParams
    rw [areSubtypeParams_eq ps qs, isSubtypeToward_flip]
    simp [isSubtype, Bool.and_left_comm]

theorem climbsTo_eq_agree (h : ∀ n as m bs, a = .nominal n as → b ≠ .nominal m bs) :
    ∀ fuel, t.climbsTo fuel a b = agree a b
  | 0 => rfl
  | fuel + 1 => by
    unfold climbsTo
    split
    · exact absurd rfl (h _ _ _ _ rfl)
    · rw [Bool.or_false]

/-- Between types whose parts are not compared, the check at the top is what remains. -/
theorem isSubtypeAtTop_eq {answer : Ty × Ty → Bool}
    (hnominal : ∀ n as m bs, a = .nominal n as → b ≠ .nominal m bs)
    (hfunctions : ∀ ps r qs u, a = .function ps r → b ≠ .function qs u)
    (htuples : ∀ as bs, a = .tuple as → b ≠ .tuple bs) :
    (agree a b || t.isSubtypeAtTop a b) = (agree a b || t.subtypeResult answer a b) := by
  unfold isSubtypeAtTop
  split
  · rfl
  · rename_i kind hexistential
    cases b with
    | existential traits => exact absurd rfl (hexistential traits)
    | _ => rfl
  · rename_i hliteral hexistential
    rw [climbsTo_eq_agree hnominal, Bool.or_self]
    unfold subtypeResult
    split
    · exact absurd rfl (hexistential _)
    · exact absurd rfl (hliteral _)
    · exact absurd rfl (hfunctions _ _ _ _ rfl)
    · exact absurd rfl (htuples _ _ rfl)
    · exact absurd rfl (hnominal _ _ _ _ rfl)
    · exact (Bool.or_false _).symm

/-- Between types that are not both nominal, what is known of their parts is enough. -/
theorem isSubtype_eq (h : ∀ n as m bs, a = .nominal n as → b ≠ .nominal m bs) :
    t.isSubtype a b = (agree a b || t.subtypeResult (fun p => t.isSubtype p.1 p.2) a b) := by
  generalize hanswer : (fun p : Ty × Ty => t.isSubtype p.1 p.2) = answer
  unfold isSubtype isSubtypeToward
  split
  · rw [areSubtypeParams_eq, ← hanswer]
    rfl
  · rw [areSubtypesToward_eq, ← hanswer]
    rfl
  · rename_i hfunctions htuples
    exact isSubtypeAtTop_eq h hfunctions htuples

/-- From a nominal type the only way on is up. -/
theorem returns_climbsTo {height : Ty → Nat}
    (hlt : ∀ a, ∀ b ∈ t.supertypes a, height b < height a) (hnominal : t.Nominal) {m : Name}
    {bs : List Ty} : ∀ (fuel : Nat) {n : Name} {as : List Ty}, height (.nominal n as) < fuel →
      t.subtypeRecursion.Returns (.nominal n as, .nominal m bs)
        (t.climbsTo fuel (.nominal n as) (.nominal m bs))
  | fuel + 1, n, as, hfuel => by
    refine .of_calls (fun p => t.climbsTo fuel p.1 p.2) (fun c hc => ?_) ?_
    · unfold subtypeRecursion subtypeCalls at hc
      dsimp only at hc
      split at hc
      · cases hc
      · obtain ⟨s, hs, rfl⟩ := List.mem_map.1 hc
        have hheight := hlt _ s hs
        obtain ⟨-, -, k, cs, -, rfl, -⟩ := exists_parent hnominal hs
        exact returns_climbsTo hlt hnominal fuel (by omega)
    · rfl

theorem isSubtype_nominal {n m : Name} {as bs : List Ty} :
    t.isSubtype (.nominal n as) (.nominal m bs) =
      t.climbsTo t.height (.nominal n as) (.nominal m bs) := by
  unfold isSubtype isSubtypeToward
  show (_ || t.climbsTo (t.types.length + 1) _ _) = t.climbsTo (t.types.length + 1) _ _
  unfold climbsTo
  rw [← Bool.or_assoc, Bool.or_self]

theorem returns_of_parts (h : ∀ n as m bs, a = .nominal n as → b ≠ .nominal m bs)
    (hparts : ∀ c ∈ t.subtypeCalls (a, b), t.subtypeRecursion.Returns c (t.isSubtype c.1 c.2)) :
    t.subtypeRecursion.Returns (a, b) (t.isSubtype a b) :=
  .of_calls (fun p => t.isSubtype p.1 p.2) hparts (isSubtype_eq h).symm

/-- **Subtyping is found**, whatever types are compared. -/
theorem subtypeRecursion_computes (hnominal : t.Nominal) (hacyclic : t.Acyclic) :
    t.subtypeRecursion.Computes fun p => t.isSubtype p.1 p.2 := by
  obtain ⟨height, hlt, hle⟩ := exists_height hnominal hacyclic
  -- Parameters change sides, so each type is looked at on both.
  have hreturns : ∀ a b, t.subtypeRecursion.Returns (a, b) (t.isSubtype a b) ∧
      t.subtypeRecursion.Returns (b, a) (t.isSubtype b a) := by
    intro a
    induction a with
    | function ps r ihps ihr =>
      intro b
      cases b with
      | function qs u =>
        refine ⟨returns_of_parts nofun fun c hc => ?_, returns_of_parts nofun fun c hc => ?_⟩
        · rcases List.mem_append.1 hc with hc | hc
          · obtain ⟨p, hp, rfl⟩ := List.mem_map.1 hc
            exact (ihps p.1 (List.of_mem_zip (List.mem_filter.1 hp).1).1 p.2.2).2
          · rw [List.mem_singleton.1 hc]
            exact (ihr u).1
        · rcases List.mem_append.1 hc with hc | hc
          · obtain ⟨p, hp, rfl⟩ := List.mem_map.1 hc
            exact (ihps p.2 (List.of_mem_zip (List.mem_filter.1 hp).1).2 p.1.2).1
          · rw [List.mem_singleton.1 hc]
            exact (ihr u).2
      | _ => exact ⟨returns_of_parts nofun nofun, returns_of_parts nofun nofun⟩
    | tuple as ih =>
      intro b
      cases b with
      | tuple bs =>
        refine ⟨returns_of_parts nofun fun p hp => ?_, returns_of_parts nofun fun p hp => ?_⟩
        · exact (ih p.1 (List.of_mem_zip hp).1 p.2).1
        · exact (ih p.2 (List.of_mem_zip hp).2 p.1).2
      | _ => exact ⟨returns_of_parts nofun nofun, returns_of_parts nofun nofun⟩
    | nominal n as _ =>
      intro b
      cases b with
      | nominal m bs =>
        rw [isSubtype_nominal, isSubtype_nominal]
        exact ⟨returns_climbsTo hlt hnominal _ (hle _), returns_climbsTo hlt hnominal _ (hle _)⟩
      | _ => exact ⟨returns_of_parts nofun nofun, returns_of_parts nofun nofun⟩
    | _ =>
      intro b
      cases b with
      | _ => exact ⟨returns_of_parts nofun nofun, returns_of_parts nofun nofun⟩
  exact fun p b => (hreturns p.1 p.2).1.iff

end Table
end TypeResolution
