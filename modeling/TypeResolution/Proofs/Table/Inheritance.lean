/-
# Inherited members

A member that a type does not declare is looked up on its supertypes in their order, and on each of
them the same way. So the lookup goes depth first: all that is above the first supertype comes
before the second one. It ends at the first type of the hierarchy in this order that declares the
member, and gives all members of the name declared there, in their order, at the arguments that the
way up has led to (`Table.Lookup.members_eq`).

This need not be the nearest declaration. It is if at every type that the lookup passes the first
supertype from which the member is seen is as near to a declaration as the others, and only then
(`Table.Lookup.nearest_iff`).

Key definitions: `Table.Climbs`, `Table.Sees`, `Table.Lookup`, `Table.NearestFirst`,
`Table.FindsNearest`.
Key theorems: `Table.Lookup.unique`, `Table.Sees.exists_lookup`, `Table.Lookup.members_eq`,
`Table.Lookup.nearest_iff`, `Table.members_lookup`.
-/
import TypeResolution.Proofs.Table.Conformance

open Relation (ReflTransGen)

namespace TypeResolution
namespace Table

variable {table : Table} {a b c sup found : Ty} {member : Name} {n : Nat}

/-! ### Ways up -/

/-- A way up in a number of steps. -/
inductive Climbs (t : Table) : Nat → Ty → Ty → Prop where
  | refl (a : Ty) : t.Climbs 0 a a
  | step {n : Nat} {a b c : Ty} : b ∈ t.supertypes a → t.Climbs n b c → t.Climbs (n + 1) a c

/-- The type itself declares a member of the name. -/
def DeclaresMember (t : Table) (member : Name) (a : Ty) : Prop := t.ownMembers a member ≠ []

/-- A declaration of the member is at most so many steps up. -/
def SeesWithin (t : Table) (member : Name) (n : Nat) (a : Ty) : Prop :=
  ∃ k ≤ n, ∃ b, t.Climbs k a b ∧ t.DeclaresMember member b

/-- The member is declared on the type or above it. -/
def Sees (t : Table) (member : Name) (a : Ty) : Prop := ∃ n, t.SeesWithin member n a

theorem Climbs.sees (h : table.Climbs n a b) (hb : table.DeclaresMember member b) :
    table.SeesWithin member n a := ⟨n, Nat.le_refl n, b, h, hb⟩

/-- What is seen from a supertype is seen from one step below. -/
theorem SeesWithin.step (h : table.SeesWithin member n b) (hb : b ∈ table.supertypes a) :
    table.SeesWithin member (n + 1) a := by
  obtain ⟨k, hk, c, hc, hdeclares⟩ := h
  exact ⟨k + 1, Nat.succ_le_succ hk, c, .step hb hc, hdeclares⟩

/-- What a type sees without declaring it, one of its supertypes sees from one step above. -/
theorem SeesWithin.exists_supertype (h : table.SeesWithin member n a)
    (ha : ¬ table.DeclaresMember member a) :
    ∃ k, n = k + 1 ∧ ∃ b ∈ table.supertypes a, table.SeesWithin member k b := by
  obtain ⟨k, hk, c, hc, hdeclares⟩ := h
  cases hc with
  | refl => exact absurd hdeclares ha
  | @step j _ b _ hb hc =>
    obtain ⟨m, rfl⟩ := Nat.exists_eq_add_of_le' hk
    exact ⟨m + j, by omega, b, hb, j, Nat.le_add_left j m, c, hc, hdeclares⟩

theorem sees_iff (ha : ¬ table.DeclaresMember member a) :
    table.Sees member a ↔ ∃ b ∈ table.supertypes a, table.Sees member b := by
  constructor
  · rintro ⟨n, hn⟩
    obtain ⟨k, -, b, hb, hk⟩ := hn.exists_supertype ha
    exact ⟨b, hb, k, hk⟩
  · rintro ⟨b, hb, n, hn⟩
    exact ⟨n + 1, hn.step hb⟩

/-! ### The way of the lookup -/

/-- From the first type the lookup comes to the second one, where it ends. The types of the list are
those that it passes: none of them declares the member, and it goes on with the first supertype from
which the member is seen. -/
inductive Lookup (t : Table) (member : Name) : List Ty → Ty → Ty → Prop where
  | own {a : Ty} : t.DeclaresMember member a → t.Lookup member [] a a
  | inherited {a sup found : Ty} {before after way : List Ty} :
    ¬ t.DeclaresMember member a → t.supertypes a = before ++ sup :: after →
      (∀ b ∈ before, ¬ t.Sees member b) → t.Lookup member way sup found →
      t.Lookup member (a :: way) a found

/-- Of the supertypes from which the member is seen, the first one is as near to a declaration as
any other. -/
def NearestFirst (t : Table) (member : Name) (a : Ty) : Prop :=
  ∀ before sup after, t.supertypes a = before ++ sup :: after →
    (∀ b ∈ before, ¬ t.Sees member b) → t.Sees member sup →
    ∀ b ∈ after, ∀ n, t.SeesWithin member n b → t.SeesWithin member n sup

/-- The members are those of one type of the hierarchy to which no other one that declares the
member is nearer. -/
def FindsNearest (t : Table) (member : Name) (a : Ty) : Prop :=
  ∃ n b, t.Climbs n a b ∧ t.DeclaresMember member b ∧
    (∀ k, t.SeesWithin member k a → n ≤ k) ∧ t.members a member = t.ownMembers b member

theorem Lookup.climbs {way : List Ty} (h : table.Lookup member way a found) :
    table.Climbs way.length a found := by
  induction h with
  | own _ => exact .refl _
  | inherited _ hsups _ _ ih =>
    exact .step (hsups ▸ List.mem_append_right _ List.mem_cons_self) ih

theorem Lookup.declares {way : List Ty} (h : table.Lookup member way a found) :
    table.DeclaresMember member found := by
  induction h with
  | own hown => exact hown
  | inherited _ _ _ _ ih => exact ih

theorem Lookup.sees {way : List Ty} (h : table.Lookup member way a found) :
    table.SeesWithin member way.length a := h.climbs.sees h.declares

/-- The first element with a property is in one place only. -/
theorem eq_of_first {α : Type} {P : α → Prop} {x y : α} : ∀ {before before' after after' : List α},
    before ++ x :: after = before' ++ y :: after' → (∀ b ∈ before, ¬ P b) → P x →
    (∀ b ∈ before', ¬ P b) → P y → before = before' ∧ x = y ∧ after = after'
  | [], [], _, _, h, _, _, _, _ => ⟨rfl, List.cons.inj h⟩
  | [], _ :: _, _, _, h, _, hx, hbefore', _ =>
    absurd ((List.cons.inj h).1 ▸ hx) (hbefore' _ List.mem_cons_self)
  | _ :: _, [], _, _, h, hbefore, _, _, hy =>
    absurd ((List.cons.inj h).1 ▸ hy) (hbefore _ List.mem_cons_self)
  | _ :: _, _ :: _, _, _, h, hbefore, hx, hbefore', hy => by
    obtain ⟨rfl, hrest⟩ := List.cons.inj h
    obtain ⟨heq, hxy, hafter⟩ := eq_of_first hrest (List.forall_mem_cons.1 hbefore).2 hx
      (List.forall_mem_cons.1 hbefore').2 hy
    exact ⟨congrArg _ heq, hxy, hafter⟩

/-- **The lookup has one way.** -/
theorem Lookup.unique {way way' : List Ty} {found' : Ty} (h : table.Lookup member way a found)
    (h' : table.Lookup member way' a found') : way = way' ∧ found = found' := by
  induction h generalizing way' found' with
  | own hown =>
    cases h' with
    | own _ => exact ⟨rfl, rfl⟩
    | inherited hnot => exact absurd hown hnot
  | inherited hnot hsups hbefore hsup ih =>
    cases h' with
    | own hown => exact absurd hown hnot
    | inherited _ hsups' hbefore' hsup' =>
      obtain ⟨-, rfl, -⟩ := eq_of_first (hsups.symm.trans hsups') hbefore ⟨_, hsup.sees⟩ hbefore'
        ⟨_, hsup'.sees⟩
      obtain ⟨rfl, rfl⟩ := ih hsup'
      exact ⟨rfl, rfl⟩

/-- **What is seen is looked up.** -/
theorem Sees.exists_lookup (hbuilt : table.Built) (h : table.Sees member a) :
    ∃ way found, table.Lookup member way a found := by
  classical
  revert h
  refine (memberRecursion_computes hbuilt.nominal hbuilt.acyclic member).induct
    (P := fun a => table.Sees member a → ∃ way found, table.Lookup member way a found)
    (fun a ih h => ?_) a
  by_cases ha : table.DeclaresMember member a
  · exact ⟨[], a, .own ha⟩
  · obtain ⟨b, hb, hsees⟩ := (sees_iff ha).1 h
    have hfind : ((table.supertypes a).find? fun b => table.Sees member b).isSome = true :=
      List.find?_isSome.2 ⟨b, hb, decide_eq_true hsees⟩
    obtain ⟨sup, hfirst⟩ := Option.isSome_iff_exists.1 hfind
    obtain ⟨hsup, before, after, hsups, hbefore⟩ := List.find?_eq_some_iff_append.1 hfirst
    have hmem : sup ∈ table.supertypes a := List.mem_of_find?_eq_some hfirst
    obtain ⟨way, found, hlookup⟩ := ih sup hmem (of_decide_eq_true hsup)
    refine ⟨a :: way, found, .inherited ha hsups (fun b hb hsees => ?_) hlookup⟩
    have hnot := hbefore b hb
    rw [decide_eq_true hsees] at hnot
    cases hnot

/-! ### What is found -/

/-- A type that declares the member has its own members. -/
theorem declaredMembers_of_declares (hbuilt : table.Built) (h : table.DeclaresMember member a) :
    table.declaredMembers a member = table.ownMembers a member := by
  rw [(memberRecursion_computes hbuilt.nominal hbuilt.acyclic member).eq a]
  unfold memberRecursion
  dsimp only
  split
  · rename_i hnil
    exact absurd hnil h
  · rfl

/-- A type that does not declare the member has those of its supertypes. -/
theorem declaredMembers_of_not_declares (hbuilt : table.Built)
    (h : ¬ table.DeclaresMember member a) : table.declaredMembers a member =
      firstNonempty ((table.supertypes a).map fun b => table.declaredMembers b member) := by
  rw [(memberRecursion_computes hbuilt.nominal hbuilt.acyclic member).eq a]
  unfold memberRecursion
  dsimp only
  rw [not_not.1 h]

/-- No members are found of what is not seen. -/
theorem declaredMembers_eq_nil (hbuilt : table.Built) (h : ¬ table.Sees member a) :
    table.declaredMembers a member = [] := by
  revert h
  refine (memberRecursion_computes hbuilt.nominal hbuilt.acyclic member).induct
    (P := fun a => ¬ table.Sees member a → table.declaredMembers a member = [])
    (fun a ih h => ?_) a
  rw [declaredMembers_of_not_declares hbuilt fun hown => h ⟨0, (Climbs.refl a).sees hown⟩]
  rcases firstNonempty_mem ((table.supertypes a).map fun b => table.declaredMembers b member) with
    hnil | hmem
  · exact hnil
  · obtain ⟨b, hb, heq⟩ := List.mem_map.1 hmem
    exact heq.symm.trans (ih b hb fun ⟨n, hn⟩ => h ⟨n + 1, hn.step hb⟩)

theorem firstNonempty_append {α : Type} {found : List α} (hfound : found ≠ [])
    (after : List (List α)) : ∀ before : List (List α), (∀ l ∈ before, l = []) →
    firstNonempty (before ++ found :: after) = found
  | [], _ => by
    cases found with
    | nil => exact absurd rfl hfound
    | cons x found => rfl
  | l :: before, h => by
    obtain ⟨rfl, hbefore⟩ := List.forall_mem_cons.1 h
    exact firstNonempty_append hfound after before hbefore

/-- **What is found is declared where the lookup ends.** -/
theorem Lookup.declaredMembers_eq (hbuilt : table.Built) {way : List Ty}
    (h : table.Lookup member way a found) :
    table.declaredMembers a member = table.ownMembers found member := by
  induction h with
  | own hown => exact declaredMembers_of_declares hbuilt hown
  | inherited hnot hsups hbefore hlookup ih =>
    rw [declaredMembers_of_not_declares hbuilt hnot, hsups, List.map_append, List.map_cons, ih]
    refine firstNonempty_append hlookup.declares _ _ fun l hl => ?_
    obtain ⟨b, hb, rfl⟩ := List.mem_map.1 hl
    exact declaredMembers_eq_nil hbuilt (hbefore b hb)

theorem Lookup.members_eq (hbuilt : table.Built) {way : List Ty}
    (h : table.Lookup member way a found) :
    table.members a member = table.ownMembers found member := by
  have hdeclared := h.declaredMembers_eq hbuilt
  unfold members
  rw [hdeclared]
  cases hmembers : table.ownMembers found member with
  | nil => exact absurd hmembers h.declares
  | cons c own => rfl

/-! ### The nearest declaration -/

/-- Which supertype is the first from which the member is seen is known. -/
theorem NearestFirst.of_first {before after : List Ty}
    (hsups : table.supertypes a = before ++ sup :: after)
    (hbefore : ∀ b ∈ before, ¬ table.Sees member b) (hsup : table.Sees member sup)
    (h : ∀ b ∈ after, ∀ n, table.SeesWithin member n b → table.SeesWithin member n sup) :
    table.NearestFirst member a := by
  intro before' sup' after' hsups' hbefore' hsup'
  obtain ⟨-, rfl, rfl⟩ := eq_of_first (hsups.symm.trans hsups') hbefore hsup hbefore' hsup'
  exact h

/-- **The lookup finds the nearest declaration** exactly if each type that it passes has the nearest
one above its first supertype. -/
theorem Lookup.nearest_iff {way : List Ty} (h : table.Lookup member way a found) :
    (∀ k, table.SeesWithin member k a → way.length ≤ k) ↔
      ∀ c ∈ way, table.NearestFirst member c := by
  induction h with
  | own _ => exact iff_of_true (fun k _ => Nat.zero_le k) nofun
  | @inherited a sup found before after way hnot hsups hbefore hlookup ih =>
    have hsup : sup ∈ table.supertypes a := hsups ▸ List.mem_append_right _ List.mem_cons_self
    rw [List.forall_mem_cons, ← ih]
    constructor
    · intro hnearest
      have hle : ∀ b ∈ table.supertypes a, ∀ k, table.SeesWithin member k b → way.length ≤ k :=
        fun b hb k hk => Nat.le_of_succ_le_succ (hnearest (k + 1) (hk.step hb))
      refine ⟨.of_first hsups hbefore ⟨_, hlookup.sees⟩ fun b hb k hk => ?_, hle sup hsup⟩
      have hmem : b ∈ table.supertypes a :=
        hsups ▸ List.mem_append_right _ (List.mem_cons_of_mem _ hb)
      exact ⟨way.length, hle b hmem k hk, found, hlookup.climbs, hlookup.declares⟩
    · rintro ⟨hfirst, hnearest⟩ k hk
      obtain ⟨k, rfl, b, hb, hk⟩ := hk.exists_supertype hnot
      refine Nat.succ_le_succ (hnearest k ?_)
      rw [hsups] at hb
      rcases List.mem_append.1 hb with hb | hb
      · exact absurd ⟨k, hk⟩ (hbefore b hb)
      · rcases List.mem_cons.1 hb with rfl | hb
        · exact hk
        · exact hfirst before sup after hsups hbefore ⟨_, hlookup.sees⟩ b hb k hk

/-! ### Declarations above a name -/

/-- What is above a name is above all types of the name. -/
theorem exists_climbs {n m : Name} (h : ReflTransGen table.Parent n m) (args : List Ty) :
    ∃ k bs, table.Climbs k (.nominal n args) (.nominal m bs) := by
  induction h using ReflTransGen.head_induction_on generalizing args with
  | refl => exact ⟨0, args, .refl _⟩
  | head hparent _ ih =>
    obtain ⟨bs, hsup⟩ := exists_mem_supertypes hparent args
    obtain ⟨k, cs, hclimbs⟩ := ih bs
    exact ⟨k + 1, cs, .step hsup hclimbs⟩

theorem ownMembers_of_type? {d : TypeDecl} {m : Name} (hd : table.type? m = some d)
    (args : List Ty) (member : Name) : table.ownMembers (.nominal m args) member =
      (d.members.filter (·.1 == member)).map fun p =>
        { p.2 with type := p.2.type.instantiate (d.arguments args) } := by
  rw [ownMembers_nominal, hd]
  exact List.map_map

theorem declaresMember_iff : table.DeclaresMember member a ↔ ∃ head args d,
    a = .nominal head args ∧ table.type? head = some d ∧ ∃ p ∈ d.members, p.1 = member := by
  unfold DeclaresMember
  constructor
  · intro h
    cases a with
    | nominal head args =>
      cases hd : table.type? head with
      | none =>
        rw [ownMembers_nominal, hd] at h
        exact absurd rfl h
      | some d =>
        rw [ownMembers_of_type? hd, Ne, List.map_eq_nil_iff, List.filter_eq_nil_iff] at h
        simp only [beq_iff_eq, not_forall, not_not] at h
        obtain ⟨p, hp, hname⟩ := h
        exact ⟨head, args, d, rfl, hd, p, hp, hname⟩
    | _ => exact absurd rfl h
  · rintro ⟨head, args, d, rfl, hd, p, hp, hname⟩
    rw [ownMembers_of_type? hd, Ne, List.map_eq_nil_iff, List.filter_eq_nil_iff]
    exact fun h => h p hp (beq_iff_eq.2 hname)

/-- **Where members are found.** If a member is declared on the head of a nominal type or on a head
above it, then the lookup comes to one type of the hierarchy, by one way. What it answers are all
members of the name that are declared there, in their order, with the arguments put in that the way
leads to. No declaration is nearer exactly if every type that is passed has the nearest one above
its first supertype. -/
theorem members_lookup (hbuilt : table.Built) {n m : Name} {d : TypeDecl} {member : Name}
    (hup : ReflTransGen table.Parent n m) (hd : table.type? m = some d)
    (hdeclared : ∃ p ∈ d.members, p.1 = member) (args : List Ty) :
    ∃ way head bs d', table.Lookup member way (.nominal n args) (.nominal head bs) ∧
      (∀ way' found, table.Lookup member way' (.nominal n args) found →
        way' = way ∧ found = .nominal head bs) ∧
      table.Climbs way.length (.nominal n args) (.nominal head bs) ∧
      table.type? head = some d' ∧ (∃ p ∈ d'.members, p.1 = member) ∧
      table.members (.nominal n args) member = ((d'.members.filter (·.1 == member)).map fun p =>
        { p.2 with type := p.2.type.instantiate (d'.arguments bs) }) ∧
      ((∀ k, table.SeesWithin member k (.nominal n args) → way.length ≤ k) ↔
        ∀ c ∈ way, table.NearestFirst member c) ∧
      ((∀ c ∈ way, table.NearestFirst member c) → table.FindsNearest member (.nominal n args)) := by
  have hsees : table.Sees member (.nominal n args) := by
    obtain ⟨k, bs, hclimbs⟩ := exists_climbs hup args
    exact ⟨k, hclimbs.sees (declaresMember_iff.2 ⟨m, bs, d, rfl, hd, hdeclared⟩)⟩
  obtain ⟨way, found, hlookup⟩ := hsees.exists_lookup hbuilt
  obtain ⟨head, bs, d', rfl, hd', hdeclared'⟩ := declaresMember_iff.1 hlookup.declares
  have hmembers := hlookup.members_eq hbuilt
  refine ⟨way, head, bs, d', hlookup, fun way' found h => h.unique hlookup, hlookup.climbs, hd',
    hdeclared', ?_, hlookup.nearest_iff, fun hfirst => ?_⟩
  · rw [hmembers, ownMembers_of_type? hd']
  · exact ⟨way.length, _, hlookup.climbs, hlookup.declares, hlookup.nearest_iff.2 hfirst, hmembers⟩

/-- At the bottom of a diamond both members of the name at its top are found, with the arguments of
the way over the first supertype. -/
theorem members_lookup_diamond :
    let ops : List Operation :=
      [.declareType ⟨1⟩ [⟨9⟩], .declareType ⟨2⟩ [⟨9⟩], .declareType ⟨3⟩ [], .declareType ⟨4⟩ [],
        .addSupertype ⟨2⟩ (.nominal ⟨1⟩ [.tuple [.param ⟨9⟩]]),
        .addSupertype ⟨3⟩ (.nominal ⟨1⟩ [.error]), .addSupertype ⟨4⟩ (.nominal ⟨2⟩ [.unit]),
        .addSupertype ⟨4⟩ (.nominal ⟨3⟩ []), .addMember ⟨1⟩ ⟨8⟩ (.plain ⟨1⟩ (.param ⟨9⟩)),
        .addMember ⟨1⟩ ⟨8⟩ (.plain ⟨2⟩ .unit)]
    let table := (Registry.run ops (.ofNames .empty)).2.table
    table.Built ∧ table.FindsNearest ⟨8⟩ (.nominal ⟨4⟩ []) ∧
      table.members (.nominal ⟨4⟩ []) ⟨8⟩ = [.plain ⟨1⟩ (.tuple [.unit]), .plain ⟨2⟩ .unit] := by
  intro ops table
  have hbuilt : table.Built :=
    (Registry.consistent_run ops (Registry.consistent_ofNames .empty)).built
  let bottom : Ty := .nominal ⟨4⟩ []
  let left : Ty := .nominal ⟨2⟩ [.unit]
  let right : Ty := .nominal ⟨3⟩ []
  let top : Ty := .nominal ⟨1⟩ [.tuple [.unit]]
  have hbottom : table.supertypes bottom = [] ++ left :: [right] := by decide +kernel
  have hleft : table.supertypes left = [] ++ top :: [] := by decide +kernel
  have htop : table.DeclaresMember ⟨8⟩ top := by unfold DeclaresMember; decide +kernel
  have hright : ¬ table.DeclaresMember ⟨8⟩ right := by unfold DeclaresMember; decide +kernel
  have hfromLeft : table.Lookup ⟨8⟩ [left] left top :=
    .inherited (by unfold DeclaresMember; decide +kernel) hleft nofun (.own htop)
  have hlookup : table.Lookup ⟨8⟩ [bottom, left] bottom top :=
    .inherited (by unfold DeclaresMember; decide +kernel) hbottom nofun hfromLeft
  have hup : ReflTransGen table.Parent ⟨4⟩ ⟨1⟩ :=
    .head (b := ⟨2⟩) (by unfold Parent; decide +kernel) (.single (by unfold Parent; decide +kernel))
  obtain ⟨head, args, d, heq, hd, hdeclared⟩ := declaresMember_iff.1 htop
  obtain ⟨rfl, -⟩ := Ty.nominal.inj heq
  obtain ⟨way, head, bs, d', -, hunique, -, -, -, -, -, hnearest⟩ :=
    members_lookup hbuilt hup hd hdeclared []
  obtain ⟨rfl, -⟩ := hunique _ _ hlookup
  refine ⟨hbuilt, hnearest (List.forall_mem_cons.2 ⟨?_, List.forall_mem_singleton.2 ?_⟩),
    by decide +kernel⟩
  · refine .of_first hbottom nofun ⟨_, hfromLeft.sees⟩ (List.forall_mem_singleton.2 fun k hk => ?_)
    obtain ⟨j, rfl, -⟩ := hk.exists_supertype hright
    exact ⟨1, Nat.le_add_left 1 j, top, hfromLeft.climbs, htop⟩
  · exact .of_first hleft nofun ⟨0, (Climbs.refl top).sees htop⟩ nofun

/-- A declaration two steps up, above the first supertype, is found in place of one on the second
supertype. -/
theorem members_lookup_farther :
    let ops : List Operation :=
      [.declareType ⟨1⟩ [], .declareType ⟨2⟩ [], .declareType ⟨3⟩ [], .declareType ⟨4⟩ [],
        .addSupertype ⟨2⟩ (.nominal ⟨1⟩ []), .addSupertype ⟨4⟩ (.nominal ⟨2⟩ []),
        .addSupertype ⟨4⟩ (.nominal ⟨3⟩ []), .addMember ⟨1⟩ ⟨8⟩ (.plain ⟨1⟩ .unit),
        .addMember ⟨3⟩ ⟨8⟩ (.plain ⟨2⟩ .unit)]
    let table := (Registry.run ops (.ofNames .empty)).2.table
    table.Built ∧ table.Sees ⟨8⟩ (.nominal ⟨4⟩ []) ∧
      ¬ table.FindsNearest ⟨8⟩ (.nominal ⟨4⟩ []) := by
  intro ops table
  have hsups : table.supertypes (.nominal ⟨4⟩ []) = [.nominal ⟨2⟩ [], .nominal ⟨3⟩ []] := by
    decide +kernel
  have hsees : table.SeesWithin ⟨8⟩ 1 (.nominal ⟨4⟩ []) := by
    have hclimbs : table.Climbs 1 (.nominal ⟨4⟩ []) (.nominal ⟨3⟩ []) :=
      .step (hsups ▸ List.mem_cons_of_mem _ List.mem_cons_self) (.refl _)
    exact hclimbs.sees (by unfold DeclaresMember; decide +kernel)
  refine ⟨(Registry.consistent_run ops (Registry.consistent_ofNames .empty)).built, ⟨1, hsees⟩, ?_⟩
  rintro ⟨n, b, hclimbs, hdeclares, hnearest, hmembers⟩
  have hn := hnearest 1 hsees
  cases hclimbs with
  | refl => exact hdeclares (by decide +kernel)
  | step hb hrest =>
    obtain rfl := Nat.le_zero.1 (Nat.le_of_succ_le_succ hn)
    cases hrest
    rw [hsups] at hb
    rcases List.mem_pair.1 hb with rfl | rfl
    · exact hdeclares (by decide +kernel)
    · revert hmembers
      decide +kernel

end Table
end TypeResolution
