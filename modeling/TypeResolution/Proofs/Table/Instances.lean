/-
# The table and instances of types

The answers of a table about a type are those about its instances, once the type is no variable
any more: an instance has the instances of the supertypes, the same traits, and the members with
the instances of their signatures. For this no declared type may have variables, and every
supertype has to be nominal, which the operations that build a table see to
(`Table.Built.nominal`). The leaves of an answer are those of the type asked about and those of
declared types (`Table.LeavesIn`).

Key definitions: `Table.Ground`, `Table.LeavesIn`, `Table.Above`, `Candidate.mapVars`.
Key theorems: `Table.supertypes_mapVars`, `Table.conforms_mapVars`,
`Table.isExpressible_mapVars`, `Table.members_mapVars`, `Table.leavesIn_of_mem_members`,
`Table.above_of_findSupertype`.
-/
import TypeResolution.Proofs.Table.Building
import TypeResolution.Proofs.Ty.Substitution
import TypeResolution.Table.Query
import Mathlib.Data.List.Basic
import Mathlib.Logic.Relation

namespace TypeResolution

/-- A declaration with the variables of its signature replaced. -/
def Candidate.mapVars (σ : TyVar → Ty) (c : Candidate) : Candidate :=
  { c with type := c.type.mapVars σ }

namespace Table

variable {table : Table} {σ : TyVar → Ty} {a b : Ty} {n : Name}

/-- No declared type has variables. -/
structure Ground (t : Table) : Prop where
  supertypes : ∀ d ∈ t.types, ∀ sup ∈ d.supertypes, sup.vars = []
  members : ∀ d ∈ t.types, ∀ m ∈ d.members, m.2.type.vars = []
  requirements : ∀ d ∈ t.traits, ∀ r ∈ d.requirements, r.2.type.vars = []
  literalDefaults : ∀ p ∈ t.literalDefaults, p.2.vars = []

/-! ### Instances -/

theorem mem_of_type? {d : TypeDecl} (h : table.type? n = some d) : d ∈ table.types :=
  List.mem_of_find?_eq_some h

theorem isExpressible_literal (table : Table) (kind : LiteralKind) :
    table.isExpressible (.literal kind) kind = true := by
  rw [isExpressible, beq_self_eq_true, Bool.true_or]

theorem lookup_map_snd {α β : Type} (f : α → β) (k : Name) : ∀ items : List (Name × α),
    (items.map fun p => (p.1, f p.2)).lookup k = (items.lookup k).map f
  | [] => rfl
  | (m, x) :: items => by
    rw [List.map_cons, List.lookup_cons, List.lookup_cons, lookup_map_snd f k items]
    cases k == m <;> rfl

theorem mem_of_lookup_eq_some {κ α : Type} [DecidableEq κ] {k : κ} {a : α} :
    ∀ {items : List (κ × α)}, items.lookup k = some a → (k, a) ∈ items
  | (m, b) :: rest, h => by
    rw [List.lookup_cons] at h
    by_cases heq : k = m
    · rw [beq_iff_eq.2 heq] at h
      rw [heq, Option.some.inj h]
      exact List.mem_cons_self
    · rw [beq_eq_false_iff_ne.2 heq] at h
      exact List.mem_cons_of_mem _ (mem_of_lookup_eq_some h)

/-- An instance of an instantiated type is the type at the instances of the arguments. -/
theorem instantiate_mapVars {args : List (Name × Ty)} (h : a.vars = []) :
    (a.instantiate args).mapVars σ = a.instantiate (args.map fun p => (p.1, p.2.mapVars σ)) := by
  refine (Ty.subst_subst _ _ _ _ a).trans (Ty.subst_congr (fun v hv => ?_) fun p _ => ?_)
  · rw [h] at hv
    cases hv
  · rw [lookup_map_snd]
    cases args.lookup p <;> rfl

theorem candidate_mapVars {args : List (Name × Ty)} {c : Candidate} (h : c.type.vars = []) :
    Candidate.mapVars σ { c with type := c.type.instantiate args } =
      { c with type := c.type.instantiate (args.map fun p => (p.1, p.2.mapVars σ)) } := by
  unfold Candidate.mapVars
  dsimp only
  rw [instantiate_mapVars h]

theorem arguments_map (d : TypeDecl) (f : Ty → Ty) (args : List Ty) :
    d.arguments (args.map f) = (d.arguments args).map fun p => (p.1, f p.2) := by
  unfold TypeDecl.arguments
  rw [List.length_map]
  split
  · rw [List.zip_map_right, List.map_reverse]
    rfl
  · rfl

theorem supertypes_nominal (table : Table) (name : Name) (args : List Ty) :
    table.supertypes (.nominal name args) = match table.type? name with
      | none => []
      | some d => d.supertypes.map (Ty.instantiate (d.arguments args)) := rfl

theorem ownMembers_nominal (table : Table) (name : Name) (args : List Ty) (member : Name) :
    table.ownMembers (.nominal name args) member = match table.type? name with
      | none => []
      | some d => ((d.members.filter (·.1 == member)).map (·.2)).map fun c =>
        { c with type := c.type.instantiate (d.arguments args) } := rfl

section Instances

variable (σ) (hground : table.Ground)
include hground

/-- An instance has the instances of the supertypes. -/
theorem supertypes_mapVars (h : a.isVar = false) :
    table.supertypes (a.mapVars σ) = (table.supertypes a).map (Ty.mapVars σ) := by
  cases a with
  | var v => cases h
  | nominal name args =>
    rw [Ty.mapVars_nominal, supertypes_nominal, supertypes_nominal]
    cases hd : table.type? name with
    | none => rfl
    | some d =>
      dsimp only
      rw [List.map_map, arguments_map]
      exact List.map_congr_left fun sup hsup =>
        (instantiate_mapVars (hground.supertypes d (mem_of_type? hd) sup hsup)).symm
  | _ => rfl

omit hground in
theorem isVar_of_mem_supertypes (hnominal : table.Nominal) (h : b ∈ table.supertypes a) :
    b.isVar = false := by
  cases a with
  | nominal name args =>
    rw [supertypes_nominal] at h
    cases hd : table.type? name with
    | none =>
      rw [hd] at h
      cases h
    | some d =>
      rw [hd] at h
      obtain ⟨sup, hsup, rfl⟩ := List.mem_map.1 h
      obtain ⟨head, args', rfl⟩ := hnominal d (mem_of_type? hd) sup hsup
      rfl
  | _ => cases h

variable (hnominal : table.Nominal)
include hnominal

theorem conformancesWithin_mapVars : ∀ (fuel : Nat) {a : Ty}, a.isVar = false →
    table.conformancesWithin fuel (a.mapVars σ) = table.conformancesWithin fuel a
  | 0, _, _ => rfl
  | fuel + 1, a, h => by
    have hsup := supertypes_mapVars σ hground h
    have hall : (table.supertypes (a.mapVars σ)).flatMap (table.conformancesWithin fuel) =
        (table.supertypes a).flatMap (table.conformancesWithin fuel) := by
      rw [hsup, List.flatMap_map]
      exact List.flatMap_congr fun sup hmem =>
        conformancesWithin_mapVars fuel (isVar_of_mem_supertypes hnominal hmem)
    cases a with
    | var v => cases h
    | nominal name args =>
      unfold conformancesWithin
      rw [hall]
      rfl
    | _ => rfl

theorem conformances_mapVars (h : a.isVar = false) :
    table.conformances (a.mapVars σ) = table.conformances a :=
  conformancesWithin_mapVars σ hground hnominal table.height h

/-- An instance conforms to the same traits. -/
theorem conforms_mapVars (h : a.isVar = false) (trait : Name) :
    table.conforms (a.mapVars σ) trait = table.conforms a trait := by
  have hall := conformances_mapVars σ hground hnominal h
  cases a with
  | var v => cases h
  | error => rfl
  | literal kind => rfl
  | _ =>
    unfold conforms
    rw [hall]
    rfl

theorem isExpressible_mapVars (h : a.isVar = false) (kind : LiteralKind) :
    table.isExpressible (a.mapVars σ) kind = table.isExpressible a kind := by
  have hliteral : (a.mapVars σ == .literal kind) = (a == .literal kind) := by
    rw [Bool.eq_iff_iff, beq_iff_eq, beq_iff_eq]
    cases a with
    | var v => cases h
    | _ => simp [Ty.mapVars, Ty.subst]
  have hall := fun trait => conforms_mapVars σ hground hnominal h trait
  unfold isExpressible
  rw [hliteral]
  simp only [hall]

omit hnominal in
theorem ownMembers_mapVars (h : a.isVar = false) (member : Name) :
    table.ownMembers (a.mapVars σ) member =
      (table.ownMembers a member).map (Candidate.mapVars σ) := by
  cases a with
  | var v => cases h
  | nominal name args =>
    rw [Ty.mapVars_nominal, ownMembers_nominal, ownMembers_nominal]
    cases hd : table.type? name with
    | none => rfl
    | some d =>
      dsimp only
      generalize hdeclared : (d.members.filter (·.1 == member)).map (·.2) = declared
      rw [List.map_map, arguments_map]
      refine List.map_congr_left fun c hc => ?_
      rw [← hdeclared] at hc
      obtain ⟨m, hm, rfl⟩ := List.mem_map.1 hc
      have hvars := hground.members d (mem_of_type? hd) m (List.mem_filter.1 hm).1
      exact (candidate_mapVars hvars).symm
  | _ => rfl

omit hground hnominal in
theorem firstNonempty_map {α β : Type} (f : α → β) : ∀ lists : List (List α),
    firstNonempty (lists.map (List.map f)) = (firstNonempty lists).map f
  | [] => rfl
  | [] :: rest => firstNonempty_map f rest
  | (_ :: _) :: _ => rfl

theorem declaredMembersWithin_mapVars (member : Name) : ∀ (fuel : Nat) {a : Ty}, a.isVar = false →
    table.declaredMembersWithin fuel (a.mapVars σ) member =
      (table.declaredMembersWithin fuel a member).map (Candidate.mapVars σ)
  | 0, _, _ => rfl
  | fuel + 1, a, h => by
    unfold declaredMembersWithin
    rw [ownMembers_mapVars σ hground h]
    cases table.ownMembers a member with
    | nil =>
      show firstNonempty ((table.supertypes (a.mapVars σ)).map _) = _
      rw [supertypes_mapVars σ hground h, ← firstNonempty_map, List.map_map, List.map_map]
      congr 1
      exact List.map_congr_left fun sup hsup =>
        declaredMembersWithin_mapVars member fuel (isVar_of_mem_supertypes hnominal hsup)
    | cons c rest => rfl

omit hground hnominal in
theorem mem_foldl_decl {c : Candidate} : ∀ {cs found : List Candidate},
    c ∈ cs.foldl (fun found c =>
      if found.any (·.decl == c.decl) then found else found ++ [c]) found → c ∈ found ∨ c ∈ cs
  | [], found, h => .inl h
  | d :: cs, found, h => by
    rw [List.foldl_cons] at h
    rcases mem_foldl_decl h with h | h
    · split at h
      · exact .inl h
      · rcases List.mem_append.1 h with h | h
        · exact .inl h
        · rw [List.mem_singleton.1 h]
          exact .inr List.mem_cons_self
    · exact .inr (List.mem_cons_of_mem _ h)

omit hnominal in
theorem requirements_mapVars (receiver : Ty) (traits : List Name) (member : Name) :
    table.requirements (receiver.mapVars σ) traits member =
      (table.requirements receiver traits member).map (Candidate.mapVars σ) := by
  unfold requirements
  dsimp only
  rw [List.map_map]
  refine List.map_congr_left fun c hc => ?_
  rcases mem_foldl_decl hc with hc | hc
  · cases hc
  · obtain ⟨trait, -, hc⟩ := List.mem_flatMap.1 hc
    cases hd : table.trait? trait with
    | none =>
      rw [hd] at hc
      cases hc
    | some d =>
      rw [hd] at hc
      obtain ⟨r, hr, rfl⟩ := List.mem_map.1 hc
      have hvars := hground.requirements d (List.mem_of_find?_eq_some hd) r
        (List.mem_filter.1 hr).1
      show _ = Candidate.mapVars σ _
      rw [candidate_mapVars hvars]
      rfl

/-- An instance has the members of the type with the instances of their signatures. -/
theorem members_mapVars (h : a.isVar = false) (member : Name) :
    table.members (a.mapVars σ) member = (table.members a member).map (Candidate.mapVars σ) := by
  have hdeclared := declaredMembersWithin_mapVars σ hground hnominal member table.height h
  have hconformances := conformances_mapVars σ hground hnominal h
  have hrequirements := requirements_mapVars σ hground a (table.conformances a) member
  unfold members declaredMembers
  rw [hdeclared]
  cases table.declaredMembersWithin table.height a member with
  | cons c rest => rfl
  | nil =>
    cases a with
    | var v => cases h
    | nominal name args =>
      dsimp only [List.map_nil]
      rw [← hrequirements, ← hconformances]
      rfl
    | existential traits =>
      dsimp only [List.map_nil]
      rw [← hrequirements, ← hconformances]
      rfl
    | _ => rfl

end Instances

/-! ### Leaves of the answers -/

section Leaves

variable {Q R : Ty → Prop}

/-- The leaves of declared types are of the kind, or generic parameters. -/
structure LeavesIn (t : Table) (Q : Ty → Prop) : Prop where
  supertypes : ∀ d ∈ t.types, ∀ sup ∈ d.supertypes, sup.LeavesIn (Ty.OrParam Q)
  members : ∀ d ∈ t.types, ∀ m ∈ d.members, m.2.type.LeavesIn (Ty.OrParam Q)
  requirements : ∀ d ∈ t.traits, ∀ r ∈ d.requirements, r.2.type.LeavesIn (Ty.OrParam Q)
  literalDefaults : ∀ p ∈ t.literalDefaults, p.2.LeavesIn Q

theorem LeavesIn.mono {t : Table} {Q R : Ty → Prop} (h : t.LeavesIn Q) (hQ : ∀ l, Q l → R l) :
    t.LeavesIn R := by
  have hdeclared : ∀ {a : Ty}, a.LeavesIn (Ty.OrParam Q) → a.LeavesIn (Ty.OrParam R) :=
    fun h => h.mono fun l => Or.imp_left (hQ l)
  exact ⟨fun d hd sup hsup => hdeclared (h.supertypes d hd sup hsup),
    fun d hd m hm => hdeclared (h.members d hd m hm),
    fun d hd r hr => hdeclared (h.requirements d hd r hr),
    fun p hp => (h.literalDefaults p hp).mono hQ⟩

theorem leavesIn_instantiate {args : List (Name × Ty)} (ha : a.LeavesIn (Ty.OrParam Q))
    (hargs : ∀ p ∈ args, p.2.LeavesIn (Ty.OrParam Q)) :
    (a.instantiate args).LeavesIn (Ty.OrParam Q) := by
  refine Ty.LeavesIn.mapParams (ha.mono fun l => .inl) fun p _ => ?_
  cases hlookup : args.lookup p with
  | none => exact Ty.leavesIn_singleton rfl (.inr ⟨p, rfl⟩)
  | some t => exact hargs _ (mem_of_lookup_eq_some hlookup)

theorem leavesIn_arguments {d : TypeDecl} {args : List Ty} (h : (Ty.nominal n args).LeavesIn R) :
    ∀ p ∈ d.arguments args, p.2.LeavesIn R := by
  intro p hp
  unfold TypeDecl.arguments at hp
  split at hp
  · have hmem := (List.of_mem_zip (List.mem_reverse.1 hp)).2
    exact h.of_mem_children hmem
  · cases hp

theorem leavesIn_of_mem_supertypes
    (hdeclared : ∀ d ∈ table.types, ∀ sup ∈ d.supertypes, sup.LeavesIn (Ty.OrParam Q))
    (ha : a.LeavesIn (Ty.OrParam Q)) (hb : b ∈ table.supertypes a) :
    b.LeavesIn (Ty.OrParam Q) := by
  cases a with
  | nominal name args =>
    rw [supertypes_nominal] at hb
    cases hd : table.type? name with
    | none =>
      rw [hd] at hb
      cases hb
    | some d =>
      rw [hd] at hb
      obtain ⟨sup, hsup, rfl⟩ := List.mem_map.1 hb
      exact leavesIn_instantiate (hdeclared d (mem_of_type? hd) sup hsup) (leavesIn_arguments ha)
  | _ => cases hb

variable (htable : table.LeavesIn Q)
include htable

theorem leavesIn_of_mem_ownMembers {member : Name} {c : Candidate}
    (ha : a.LeavesIn (Ty.OrParam Q)) (hc : c ∈ table.ownMembers a member) :
    c.type.LeavesIn (Ty.OrParam Q) := by
  cases a with
  | nominal name args =>
    rw [ownMembers_nominal] at hc
    cases hd : table.type? name with
    | none =>
      rw [hd] at hc
      cases hc
    | some d =>
      rw [hd] at hc
      obtain ⟨c', hc', rfl⟩ := List.mem_map.1 hc
      obtain ⟨m, hm, rfl⟩ := List.mem_map.1 hc'
      exact leavesIn_instantiate
        (htable.members d (mem_of_type? hd) m (List.mem_filter.1 hm).1) (leavesIn_arguments ha)
  | _ => cases hc

omit htable in
theorem exists_mem_of_mem_firstNonempty {α : Type} {x : α} : ∀ {lists : List (List α)},
    x ∈ firstNonempty lists → ∃ l ∈ lists, x ∈ l
  | [] :: rest, h => by
    obtain ⟨l, hl, hx⟩ := @exists_mem_of_mem_firstNonempty α x rest h
    exact ⟨l, List.mem_cons_of_mem _ hl, hx⟩
  | (y :: l) :: rest, h => ⟨y :: l, List.mem_cons_self, h⟩

theorem leavesIn_of_mem_declaredMembersWithin {member : Name} {c : Candidate} :
    ∀ (fuel : Nat) {a : Ty}, a.LeavesIn (Ty.OrParam Q) →
      c ∈ table.declaredMembersWithin fuel a member → c.type.LeavesIn (Ty.OrParam Q)
  | 0, _, _, hc => by cases hc
  | fuel + 1, a, ha, hc => by
    unfold declaredMembersWithin at hc
    split at hc
    · obtain ⟨l, hl, hc⟩ := exists_mem_of_mem_firstNonempty hc
      obtain ⟨sup, hsup, rfl⟩ := List.mem_map.1 hl
      exact leavesIn_of_mem_declaredMembersWithin fuel
        (leavesIn_of_mem_supertypes htable.supertypes ha hsup) hc
    · exact leavesIn_of_mem_ownMembers htable ha hc

theorem leavesIn_of_mem_requirements {traits : List Name} {member : Name} {c : Candidate}
    (ha : a.LeavesIn (Ty.OrParam Q)) (hc : c ∈ table.requirements a traits member) :
    c.type.LeavesIn (Ty.OrParam Q) := by
  obtain ⟨c', hc', rfl⟩ := List.mem_map.1 hc
  rcases mem_foldl_decl hc' with hc' | hc'
  · cases hc'
  · obtain ⟨trait, -, hc'⟩ := List.mem_flatMap.1 hc'
    cases hd : table.trait? trait with
    | none =>
      rw [hd] at hc'
      cases hc'
    | some d =>
      rw [hd] at hc'
      obtain ⟨r, hr, rfl⟩ := List.mem_map.1 hc'
      refine leavesIn_instantiate (htable.requirements d (List.mem_of_find?_eq_some hd) r
        (List.mem_filter.1 hr).1) fun p hp => ?_
      rw [List.mem_singleton.1 hp]
      exact ha

/-- The signature of a member has leaves of the type and of declared types. -/
theorem leavesIn_of_mem_members {member : Name} {c : Candidate} (ha : a.LeavesIn (Ty.OrParam Q))
    (hc : c ∈ table.members a member) : c.type.LeavesIn (Ty.OrParam Q) := by
  unfold members at hc
  split at hc
  · split at hc
    · exact leavesIn_of_mem_requirements htable ha hc
    · exact leavesIn_of_mem_requirements htable ha hc
    · cases hc
  · exact leavesIn_of_mem_declaredMembersWithin htable table.height ha hc

end Leaves

/-- In a table without variables the only leaves that are variables are those asked about. -/
theorem Ground.leavesIn (h : table.Ground) (vs : List TyVar) :
    table.LeavesIn fun l => ∀ v, l = .var v → v ∈ vs := by
  have hleaves : ∀ {t : Ty}, t.vars = [] →
      t.LeavesIn fun l => ∀ v, l = .var v → v ∈ vs := by
    rintro t hnil l hl v rfl
    rw [← Ty.mem_vars_iff, hnil] at hl
    cases hl
  have hdeclared : ∀ {t : Ty}, t.vars = [] →
      t.LeavesIn (Ty.OrParam fun l => ∀ v, l = .var v → v ∈ vs) := fun hnil =>
    (hleaves hnil).mono fun l => .inl
  exact ⟨fun d hd sup hsup => hdeclared (h.supertypes d hd sup hsup),
    fun d hd m hm => hdeclared (h.members d hd m hm),
    fun d hd r hr => hdeclared (h.requirements d hd r hr),
    fun p hp => hleaves (h.literalDefaults p hp)⟩

/-- A supertype has no other variables than the type. -/
theorem mem_vars_of_mem_supertypes {v : TyVar} (hground : table.Ground)
    (hb : b ∈ table.supertypes a) (hv : v ∈ b.vars) : v ∈ a.vars := by
  have ha : a.LeavesIn (Ty.OrParam fun l => ∀ v, l = .var v → v ∈ a.vars) := fun l hl =>
    .inl fun v hv => Ty.mem_vars_iff.2 (hv ▸ hl)
  have hleaf := leavesIn_of_mem_supertypes (hground.leavesIn a.vars).supertypes ha hb _
    (Ty.mem_vars_iff.1 hv)
  exact hleaf.resolve_right nofun v rfl

/-- The signature of a member has no other variables than the type. -/
theorem mem_vars_of_mem_members {v : TyVar} (hground : table.Ground) {member : Name}
    {c : Candidate} (hc : c ∈ table.members a member) (hv : v ∈ c.type.vars) : v ∈ a.vars := by
  have ha : a.LeavesIn (Ty.OrParam fun l => ∀ v, l = .var v → v ∈ a.vars) := fun l hl =>
    .inl fun v hv => Ty.mem_vars_iff.2 (hv ▸ hl)
  have hleaf := leavesIn_of_mem_members (hground.leavesIn a.vars) ha hc _ (Ty.mem_vars_iff.1 hv)
  exact hleaf.resolve_right nofun v rfl

/-! ### Ways up -/

/-- The second type is a supertype of the first one, directly or through others. -/
abbrev Above (t : Table) : Ty → Ty → Prop := Relation.TransGen fun a b => b ∈ t.supertypes a

/-- A way up from a type is one from its instances. -/
theorem Above.mapVars (σ : TyVar → Ty) (hground : table.Ground) (h : table.Above a b) :
    table.Above (a.mapVars σ) (b.mapVars σ) := by
  refine Relation.TransGen.lift (Ty.mapVars σ) (fun x y hxy => ?_) a b h
  have hx : x.isVar = false := by
    cases x with
    | var v => cases hxy
    | _ => rfl
  show y.mapVars σ ∈ table.supertypes (x.mapVars σ)
  rw [supertypes_mapVars σ hground hx]
  exact List.mem_map.2 ⟨y, hxy, rfl⟩

theorem Above.leavesIn {Q : Ty → Prop}
    (hdeclared : ∀ d ∈ table.types, ∀ sup ∈ d.supertypes, sup.LeavesIn (Ty.OrParam Q))
    (h : table.Above a b) (ha : a.LeavesIn (Ty.OrParam Q)) : b.LeavesIn (Ty.OrParam Q) := by
  induction h with
  | single hb => exact leavesIn_of_mem_supertypes hdeclared ha hb
  | tail _ hc ih => exact leavesIn_of_mem_supertypes hdeclared ih hc

theorem Above.mem_vars {v : TyVar} (hground : table.Ground) (h : table.Above a b)
    (hv : v ∈ b.vars) : v ∈ a.vars := by
  induction h with
  | single hb => exact mem_vars_of_mem_supertypes hground hb hv
  | tail _ hc ih => exact ih (mem_vars_of_mem_supertypes hground hc hv)

theorem mem_supertypes_of_mem_nextLevel {x : Ty} : ∀ (seen level : List Ty),
    x ∈ (table.nextLevel seen level).2 → ∃ y ∈ level, x ∈ table.supertypes y
  | _, [], h => by cases h
  | seen, y :: level, h => by
    unfold nextLevel at h
    split at h
    · obtain ⟨z, hz, hx⟩ := mem_supertypes_of_mem_nextLevel _ level h
      exact ⟨z, List.mem_cons_of_mem _ hz, hx⟩
    · rcases List.mem_append.1 h with h | h
      · exact ⟨y, List.mem_cons_self, h⟩
      · obtain ⟨z, hz, hx⟩ := mem_supertypes_of_mem_nextLevel _ level h
        exact ⟨z, List.mem_cons_of_mem _ hz, hx⟩

theorem above_of_findInLevels {target : Name} : ∀ (fuel : Nat) {seen level : List Ty},
    (∀ x ∈ level, table.Above a x) → table.findInLevels target fuel seen level = some b →
    table.Above a b ∧ hasHead target b = true
  | 0, seen, level, hlevel, h =>
    ⟨hlevel b (List.mem_of_find?_eq_some h), List.find?_some h⟩
  | fuel + 1, seen, level, hlevel, h => by
    unfold findInLevels at h
    split at h
    · rename_i found hfound
      obtain rfl := Option.some.inj h
      exact ⟨hlevel found (List.mem_of_find?_eq_some hfound), List.find?_some hfound⟩
    · dsimp only at h
      split at h
      · cases h
      · refine above_of_findInLevels fuel (fun x hx => ?_) h
        obtain ⟨y, hy, hxy⟩ := mem_supertypes_of_mem_nextLevel seen level hx
        exact (hlevel y hy).tail hxy

/-- A supertype that is found lies on a way up, and has the name looked for. -/
theorem above_of_findSupertype {target : Name} (h : table.findSupertype a target = some b) :
    table.Above a b ∧ hasHead target b = true :=
  above_of_findInLevels table.height (fun _ hx => .single hx) h

end Table
end TypeResolution
