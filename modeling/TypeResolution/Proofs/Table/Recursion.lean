/-
# Recursion through supertypes

The questions to a table go on to the supertypes of a type and to theirs, and nothing in them says
where this ends. A recursive program is written here as the calls that it may make for an argument
and what it makes of their answers (`Recursion`). A call returns if all calls that it may make
return, so that it returns only at the root of a finite tree of calls (`Recursion.Returns`); and
what it returns is determined (`Recursion.Returns.unique`).

In a table without circles every step up leads to a lower type (`Table.exists_height`). So the
traits and the members of a type and its nearest supertype of a name are found
(`Table.conformanceRecursion_computes`, `Table.memberRecursion_computes`,
`Table.supertypeSearch_returns`), with the answers that the bounded lookups give. The search for a
supertype is a loop over a queue: a level of the hierarchy is gone through before the next one.

Key definitions: `Recursion`, `Recursion.Returns`, `Recursion.Computes`,
`Table.conformanceRecursion`, `Table.memberRecursion`, `Table.supertypeSearch`.
Key theorems: `Recursion.Returns.unique`, `Recursion.returns_of_fuel`, `Table.exists_height`,
`Table.conformanceRecursion_computes`, `Table.memberRecursion_computes`,
`Table.supertypeSearch_returns`.
-/
import TypeResolution.Proofs.Table.Hierarchy

namespace TypeResolution

variable {α β : Type}

/-! ### Recursive programs -/

/-- A recursive program. -/
structure Recursion (α β : Type) where
  /-- The calls that it may make for an argument. -/
  calls : α → List α
  /-- What it returns for an argument, if this is what calls return. -/
  result : α → (α → β) → β
  /-- No other calls have a part in it. -/
  congr : ∀ {a f g}, (∀ c ∈ calls a, f c = g c) → result a f = result a g

namespace Recursion

variable {p : Recursion α β} {a : α} {b b' : β}

/-- The call comes to an end, since all calls that it may make do, and it returns this. -/
inductive Returns (p : Recursion α β) : α → β → Prop where
  | intro {a : α} (answer : α → β) : (∀ c ∈ p.calls a, p.Returns c (answer c)) →
      p.Returns a (p.result a answer)

theorem Returns.of_calls (answer : α → β) (hcalls : ∀ c ∈ p.calls a, p.Returns c (answer c))
    (hb : p.result a answer = b) : p.Returns a b := hb ▸ .intro answer hcalls

/-- A call returns one thing. -/
theorem Returns.unique (h : p.Returns a b) (h' : p.Returns a b') : b = b' := by
  induction h generalizing b' with
  | intro answer _ ih =>
    cases h' with
    | intro answer' hanswer' => exact p.congr fun c hc => ih c hc (hanswer' c hc)

/-- Every call comes to an end, and returns what the function says. -/
def Computes (p : Recursion α β) (f : α → β) : Prop := ∀ a b, p.Returns a b ↔ b = f a

theorem Returns.iff (h : p.Returns a b) : p.Returns a b' ↔ b' = b :=
  ⟨fun h' => h'.unique h, fun heq => heq ▸ h⟩

/-- What is computed is what the program makes of what is computed for its calls. -/
theorem Computes.eq {f : α → β} (h : p.Computes f) (a : α) : f a = p.result a f :=
  ((h a _).1 (.intro f fun c _ => (h c _).2 rfl)).symm

/-- A program that always comes to an end can be followed: what holds of an argument if it holds of
all calls made for it, holds of every argument. -/
theorem Computes.induct {f : α → β} (h : p.Computes f) {P : α → Prop}
    (step : ∀ a, (∀ c ∈ p.calls a, P c) → P a) (a : α) : P a := by
  have hreturns : p.Returns a (f a) := (h a _).2 rfl
  generalize f a = b at hreturns
  induction hreturns with
  | intro answer _ ih => exact step _ ih

/-- Recursion that is bounded by fuel is the recursive program, if all calls have less height than
there is fuel. -/
theorem returns_of_fuel (within : Nat → α → β) {height : α → Nat}
    (hwithin : ∀ fuel a, within (fuel + 1) a = p.result a (within fuel))
    (hheight : ∀ a, ∀ c ∈ p.calls a, height c < height a) :
    ∀ {fuel : Nat} {a : α}, height a < fuel → p.Returns a (within fuel a)
  | fuel + 1, a, hfuel => by
    rw [hwithin]
    refine .intro _ fun c hc => returns_of_fuel within hwithin hheight ?_
    have hlt := hheight a c hc
    omega

end Recursion

namespace Table

variable {table : Table} {a b : Ty} {target : Name}

/-- In a table without circles the supertypes of a type are lower than the type, and no type is as
high as the table. -/
theorem exists_height (hnominal : table.Nominal) (hacyclic : table.Acyclic) :
    ∃ height : Ty → Nat, (∀ a, ∀ b ∈ table.supertypes a, height b < height a) ∧
      ∀ a, height a < table.height := by
  obtain ⟨rank, hrank, hle⟩ := hacyclic.exists_rank
  refine ⟨fun a => ((head? a).map rank).getD 0, fun a b hb => ?_, fun a => ?_⟩
  · obtain ⟨n, as, m, bs, rfl, rfl, hparent⟩ := exists_parent hnominal hb
    exact hrank n m hparent
  · cases a with
    | nominal n as => exact Nat.lt_succ_of_le (hle n)
    | _ => exact Nat.succ_pos _

/-! ### Traits -/

/-- The traits of a type, with those of the supertypes as answers. -/
def conformanceRecursion (t : Table) : Recursion Ty (List Name) where
  calls := t.supertypes
  result a answer := match a with
    | .nominal name _ =>
      match t.type? name with
      | none => []
      | some d =>
        reach t.refinementGraph (appendNew d.conformances ((t.supertypes a).flatMap answer))
    | .existential traits => reach t.refinementGraph traits.names
    | _ => []
  congr h := by rw [List.flatMap_congr h]

/-- **The traits of a type** are found. -/
theorem conformanceRecursion_computes (hnominal : table.Nominal) (hacyclic : table.Acyclic) :
    table.conformanceRecursion.Computes table.conformances := by
  obtain ⟨height, hlt, hle⟩ := exists_height hnominal hacyclic
  exact fun a b => (Recursion.returns_of_fuel (p := table.conformanceRecursion)
    table.conformancesWithin (fun _ _ => rfl) hlt (hle a)).iff

/-! ### Members -/

/-- The declared members of a name on a type: its own, or else those of the first supertype that
has any. -/
def memberRecursion (t : Table) (member : Name) : Recursion Ty (List Candidate) where
  calls := t.supertypes
  result a answer := match t.ownMembers a member with
    | [] => firstNonempty ((t.supertypes a).map answer)
    | own => own
  congr h := by rw [List.map_congr_left h]

/-- **The declared members of a type** are found. -/
theorem memberRecursion_computes (hnominal : table.Nominal) (hacyclic : table.Acyclic)
    (member : Name) :
    (table.memberRecursion member).Computes fun a => table.declaredMembers a member := by
  obtain ⟨height, hlt, hle⟩ := exists_height hnominal hacyclic
  exact fun a b => (Recursion.returns_of_fuel (p := table.memberRecursion member)
    (fun fuel a => table.declaredMembersWithin fuel a member)
    (fun _ _ => rfl) hlt (hle a)).iff

/-! ### The nearest supertype of a name -/

/-- A turn of the search: the first type of the queue is what is looked for, or has been seen, or
its supertypes are put at the end of the queue. -/
def supertypeSearch (t : Table) (target : Name) : Recursion (List Ty × List Ty) (Option Ty) where
  calls
    | ([], _) => []
    | (a :: queue, seen) =>
      if hasHead target a then []
      else if a ∈ seen then [(queue, seen)]
      else [(queue ++ t.supertypes a, a :: seen)]
  result
    | ([], _), _ => none
    | (a :: queue, seen), answer =>
      if hasHead target a then some a
      else if a ∈ seen then answer (queue, seen)
      else answer (queue ++ t.supertypes a, a :: seen)
  congr := by
    rintro ⟨_ | ⟨a, queue⟩, seen⟩ f g h
    · rfl
    · dsimp only at h ⊢
      split_ifs at h ⊢
      · rfl
      · exact h _ List.mem_cons_self
      · exact h _ List.mem_cons_self

section Search

variable {queue seen above : List Ty} {found : Option Ty}

theorem returns_nil : (table.supertypeSearch target).Returns ([], seen) none :=
  .of_calls (fun _ => none) nofun rfl

theorem returns_head (ha : hasHead target a = true) :
    (table.supertypeSearch target).Returns (a :: queue, seen) (some a) := by
  refine .of_calls (fun _ => none) ?_ (if_pos ha)
  simp only [supertypeSearch, if_pos ha]
  exact nofun

theorem returns_seen (ha : hasHead target a = false) (hseen : a ∈ seen)
    (h : (table.supertypeSearch target).Returns (queue, seen) found) :
    (table.supertypeSearch target).Returns (a :: queue, seen) found := by
  refine .of_calls (fun _ => found) ?_ ?_
  · simp only [supertypeSearch, ha, Bool.false_eq_true, if_false, if_pos hseen]
    exact List.forall_mem_singleton.2 h
  · simp only [supertypeSearch, ha, Bool.false_eq_true, if_false, if_pos hseen]

theorem returns_unseen (ha : hasHead target a = false) (hseen : a ∉ seen)
    (h : (table.supertypeSearch target).Returns (queue ++ table.supertypes a, a :: seen) found) :
    (table.supertypeSearch target).Returns (a :: queue, seen) found := by
  refine .of_calls (fun _ => found) ?_ ?_
  · simp only [supertypeSearch, ha, Bool.false_eq_true, if_false, if_neg hseen]
    exact List.forall_mem_singleton.2 h
  · simp only [supertypeSearch, ha, Bool.false_eq_true, if_false, if_neg hseen]

/-- A level in which the name occurs is where the search ends, whatever stands behind it. -/
theorem returns_level_of_some : ∀ {level seen above : List Ty},
    level.find? (hasHead target) = some a →
    (table.supertypeSearch target).Returns (level ++ above, seen) (some a)
  | b :: level, seen, above, h => by
    rw [List.cons_append]
    by_cases hb : hasHead target b = true
    · rw [List.find?_cons_of_pos hb] at h
      obtain rfl := Option.some.inj h
      exact returns_head hb
    · rw [List.find?_cons_of_neg hb] at h
      rw [Bool.not_eq_true] at hb
      by_cases hseen : b ∈ seen
      · exact returns_seen hb hseen (returns_level_of_some h)
      · refine returns_unseen hb hseen ?_
        rw [List.append_assoc]
        exact returns_level_of_some h

/-- After a level in which the name does not occur comes what stands behind it, and then the next
level. -/
theorem returns_level_of_none : ∀ {level seen above : List Ty},
    level.find? (hasHead target) = none →
    (table.supertypeSearch target).Returns
      (above ++ (table.nextLevel seen level).2, (table.nextLevel seen level).1) found →
    (table.supertypeSearch target).Returns (level ++ above, seen) found
  | [], seen, above, _, h => by
    unfold nextLevel at h
    rwa [List.append_nil] at h
  | b :: level, seen, above, hnone, h => by
    obtain ⟨hb, hnone⟩ := List.forall_mem_cons.1 (List.find?_eq_none.1 hnone)
    rw [Bool.not_eq_true] at hb
    rw [List.cons_append]
    unfold nextLevel at h
    by_cases hseen : b ∈ seen
    · rw [if_pos hseen] at h
      exact returns_seen hb hseen (returns_level_of_none (List.find?_eq_none.2 hnone) h)
    · rw [if_neg hseen] at h
      refine returns_unseen hb hseen ?_
      rw [List.append_assoc]
      refine returns_level_of_none (List.find?_eq_none.2 hnone) ?_
      rwa [List.append_assoc]

theorem returns_of_some {level : List Ty} (h : level.find? (hasHead target) = some a) :
    (table.supertypeSearch target).Returns (level, seen) (some a) := by
  have hlevel : (table.supertypeSearch target).Returns (level ++ [], seen) (some a) :=
    returns_level_of_some h
  rwa [List.append_nil] at hlevel

theorem returns_of_none {level : List Ty} (hnone : level.find? (hasHead target) = none)
    (h : (table.supertypeSearch target).Returns
      ((table.nextLevel seen level).2, (table.nextLevel seen level).1) found) :
    (table.supertypeSearch target).Returns (level, seen) found := by
  have hlevel : (table.supertypeSearch target).Returns (level ++ [], seen) found :=
    returns_level_of_none hnone h
  rwa [List.append_nil] at hlevel

theorem returns_findInLevels {height : Ty → Nat}
    (hlt : ∀ a, ∀ b ∈ table.supertypes a, height b < height a) :
    ∀ (fuel : Nat) {seen level : List Ty}, (∀ a ∈ level, height a ≤ fuel) →
      (table.supertypeSearch target).Returns (level, seen)
        (table.findInLevels target fuel seen level) := by
  intro fuel
  induction fuel with
  | zero =>
    intro seen level hfuel
    have hnext : (table.nextLevel seen level).2 = [] := by
      refine List.eq_nil_iff_forall_not_mem.2 fun b hb => ?_
      obtain ⟨a, ha, hba⟩ := mem_supertypes_of_mem_nextLevel seen level hb
      have hheight := hlt a b hba
      have hzero := hfuel a ha
      omega
    unfold findInLevels
    cases hfind : level.find? (hasHead target) with
    | some found => exact returns_of_some hfind
    | none =>
      refine returns_of_none hfind ?_
      rw [hnext]
      exact returns_nil
  | succ fuel ih =>
    intro seen level hfuel
    unfold findInLevels
    cases hfind : level.find? (hasHead target) with
    | some found => exact returns_of_some hfind
    | none =>
      refine returns_of_none hfind ?_
      dsimp only
      cases hnext : (table.nextLevel seen level).2 with
      | nil => exact returns_nil
      | cons b above =>
        rw [List.isEmpty_cons, ← hnext]
        refine ih fun b hb => ?_
        obtain ⟨a, ha, hba⟩ := mem_supertypes_of_mem_nextLevel seen level hb
        have hheight := hlt a b hba
        have hle := hfuel a ha
        omega

/-- **The nearest supertype of a name** is found, or that there is none. -/
theorem supertypeSearch_returns (hnominal : table.Nominal) (hacyclic : table.Acyclic)
    (target : Name) (a : Ty) (found : Option Ty) :
    (table.supertypeSearch target).Returns (table.supertypes a, []) found ↔
      found = table.findSupertype a target := by
  obtain ⟨height, hlt, hle⟩ := exists_height hnominal hacyclic
  exact (returns_findInLevels hlt table.height fun b _ => Nat.le_of_lt (hle b)).iff

end Search

end Table
end TypeResolution
