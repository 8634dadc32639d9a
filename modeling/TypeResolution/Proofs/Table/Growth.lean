/-
# Growth of a table

An operation on a table takes nothing away: a type that is declared stays declared with its
parameters, and keeps its members; a trait keeps its requirements (`Table.Operation.grows`). So what
has been declared is found in every table that is built from there. What is asked about types does
not depend on the names that the table holds besides, and only the literals depend on them.

Key definitions: `Table.Grows`, `Table.HasMember`, `Table.HasRequirement`.
Key theorems: `Table.Operation.grows`, `Table.hasMember_addMember`,
`Table.hasRequirement_addRequirement`, `Table.members_unread`.
-/
import TypeResolution.Proofs.Table.Registry

namespace TypeResolution
namespace Table

variable {table table' table'' : Table} {n m head trait member : Name} {c : Candidate}

/-! ### Tables that grow -/

/-- The table becomes the other one, which can be built if it can and has all declarations that it
has. -/
structure Grows (t t' : Table) : Prop where
  built : t.Built → t'.Built
  selfName : t'.selfName = t.selfName
  types : ∀ n d, t.type? n = some d → ∃ d', t'.type? n = some d' ∧ d'.params = d.params ∧
    d.members ⊆ d'.members
  traits : ∀ n d, t.trait? n = some d → ∃ d', t'.trait? n = some d' ∧
    d.requirements ⊆ d'.requirements

namespace Grows

theorem refl (t : Table) : t.Grows t where
  built := id
  selfName := rfl
  types _ d hd := ⟨d, hd, rfl, List.Subset.refl _⟩
  traits _ d hd := ⟨d, hd, List.Subset.refl _⟩

theorem trans (h : table.Grows table') (h' : table'.Grows table'') : table.Grows table'' where
  built := h'.built ∘ h.built
  selfName := h'.selfName.trans h.selfName
  types n d hd := by
    obtain ⟨d', hd', hparams, hmembers⟩ := h.types n d hd
    obtain ⟨d'', hd'', hparams', hmembers'⟩ := h'.types n d' hd'
    exact ⟨d'', hd'', hparams'.trans hparams, List.Subset.trans hmembers hmembers'⟩
  traits n d hd := by
    obtain ⟨d', hd', hrequirements⟩ := h.traits n d hd
    obtain ⟨d'', hd'', hrequirements'⟩ := h'.traits n d' hd'
    exact ⟨d'', hd'', List.Subset.trans hrequirements hrequirements'⟩

end Grows

theorem trait?_modifyTrait {f : TraitDecl → TraitDecl} (hf : ∀ d, (f d).name = d.name) :
    (table.modifyTrait m f).trait? n =
      (table.trait? n).map fun d => if d.name = m then f d else d := by
  unfold trait? modifyTrait
  rw [List.find?_map]
  congr 2
  funext d
  show ((if d.name = m then f d else d).name == n) = _
  split
  · rw [hf]
  · rfl

/-- A change to one type that keeps its parameters and members. -/
theorem grows_modifyType {f : TypeDecl → TypeDecl}
    (hbuilt : table.Built → (table.modifyType m f).Built) (hname : ∀ d, (f d).name = d.name)
    (hparams : ∀ d, (f d).params = d.params) (hmembers : ∀ d, d.members ⊆ (f d).members) :
    table.Grows (table.modifyType m f) where
  built := hbuilt
  selfName := rfl
  types n d hd := by
    rw [type?_modifyType hname, hd]
    refine ⟨_, rfl, ?_⟩
    dsimp only
    split
    · exact ⟨hparams d, hmembers d⟩
    · exact ⟨rfl, List.Subset.refl _⟩
  traits n d hd := ⟨d, hd, List.Subset.refl _⟩

/-- **No operation takes a declaration away.** -/
theorem Operation.grows {op : Operation} (hok : op.on table = .ok table') :
    table.Grows table' := by
  have hbuilt : table.Built → table'.Built := fun h => h.on hok
  cases op with
  | declareTrait name refines =>
    obtain ⟨-, -, rfl⟩ := of_declareTrait hok
    refine ⟨hbuilt, rfl, fun n d hd => ⟨d, hd, rfl, List.Subset.refl _⟩, fun n d hd => ?_⟩
    exact ⟨d, List.find?_append.trans (by rw [← trait?, hd]; rfl), List.Subset.refl _⟩
  | declareType name params =>
    obtain ⟨-, rfl⟩ := of_declareType hok
    refine ⟨hbuilt, rfl, fun n d hd => ?_, fun n d hd => ⟨d, hd, List.Subset.refl _⟩⟩
    exact ⟨d, List.find?_append.trans (by rw [← type?, hd]; rfl), rfl, List.Subset.refl _⟩
  | addConformance type trait =>
    obtain ⟨-, -, rfl⟩ := of_addConformance hok
    refine grows_modifyType hbuilt ?_ ?_ ?_
    · intro d
      split <;> rfl
    · intro d
      split <;> rfl
    · intro d
      split <;> exact List.Subset.refl _
  | addSupertype type supertype =>
    obtain ⟨-, -, -, -, -, -, -, rfl⟩ := of_addSupertype hok
    exact grows_modifyType hbuilt (fun _ => rfl) (fun _ => rfl) fun _ => List.Subset.refl _
  | addMember type member c =>
    obtain ⟨-, -, -, rfl⟩ := of_addMember hok
    exact grows_modifyType hbuilt (fun _ => rfl) (fun _ => rfl) fun _ =>
      List.subset_append_left _ _
  | addRequirement trait member decl type =>
    obtain ⟨-, -, rfl⟩ := of_addRequirement hok
    refine ⟨hbuilt, rfl, fun n d hd => ⟨d, hd, rfl, List.Subset.refl _⟩, fun n d hd => ?_⟩
    rw [trait?_modifyTrait (by exact fun _ => rfl), hd]
    refine ⟨_, rfl, ?_⟩
    dsimp only
    split
    · exact List.subset_append_left _ _
    · exact List.Subset.refl _
  | setLiteralDefault kind type =>
    obtain rfl := Except.ok.inj hok
    exact ⟨hbuilt, rfl, fun n d hd => ⟨d, hd, rfl, List.Subset.refl _⟩,
      fun n d hd => ⟨d, hd, List.Subset.refl _⟩⟩

/-! ### What operations declare -/

/-- The type is declared with these parameters. -/
def HasType (t : Table) (head : Name) (params : List Name) : Prop :=
  ∃ d, t.type? head = some d ∧ d.params = params

/-- The type is declared with these parameters, and it has the member. -/
def HasMember (t : Table) (head : Name) (params : List Name) (member : Name) (c : Candidate) :
    Prop := ∃ d, t.type? head = some d ∧ d.params = params ∧ (member, c) ∈ d.members

/-- The trait is declared and has the requirement. -/
def HasRequirement (t : Table) (trait member : Name) (c : Candidate) : Prop :=
  ∃ d, t.trait? trait = some d ∧ (member, c) ∈ d.requirements

theorem HasType.grows {params : List Name} (h : table.HasType head params)
    (hgrows : table.Grows table') : table'.HasType head params := by
  obtain ⟨d, hd, rfl⟩ := h
  obtain ⟨d', hd', hparams, -⟩ := hgrows.types head d hd
  exact ⟨d', hd', hparams⟩

theorem HasMember.grows {params : List Name} (h : table.HasMember head params member c)
    (hgrows : table.Grows table') : table'.HasMember head params member c := by
  obtain ⟨d, hd, rfl, hmem⟩ := h
  obtain ⟨d', hd', hparams, hmembers⟩ := hgrows.types head d hd
  exact ⟨d', hd', hparams, hmembers hmem⟩

theorem HasRequirement.grows (h : table.HasRequirement trait member c)
    (hgrows : table.Grows table') : table'.HasRequirement trait member c := by
  obtain ⟨d, hd, hmem⟩ := h
  obtain ⟨d', hd', hrequirements⟩ := hgrows.traits trait d hd
  exact ⟨d', hd', hrequirements hmem⟩

theorem hasType_declareType {params : List Name} (hok : table.declareType n params = .ok table') :
    table'.HasType n params := by
  obtain ⟨hnew, rfl⟩ := of_declareType hok
  refine ⟨⟨n, params, [], [], []⟩, List.find?_append.trans ?_, rfl⟩
  rw [← type?, Option.isNone_iff_eq_none.1 (Option.isSome_eq_false_iff.1 hnew), Option.none_or]
  exact List.find?_cons_of_pos (by exact beq_self_eq_true n)

theorem hasMember_addMember {params : List Name} (h : table.HasType head params)
    (hok : table.addMember head member c = .ok table') : table'.HasMember head params member c := by
  obtain ⟨d, hd, rfl⟩ := h
  obtain ⟨-, -, -, rfl⟩ := of_addMember hok
  refine ⟨_, (type?_modifyType (by exact fun _ => rfl)).trans (congrArg _ hd), ?_⟩
  dsimp only
  rw [if_pos (name_of_type? hd)]
  exact ⟨rfl, List.mem_concat_self⟩

theorem hasRequirement_addRequirement {decl : DeclId} {type : Ty}
    (hok : table.addRequirement trait member decl type = .ok table') :
    table'.HasRequirement trait member (.plain decl type) := by
  obtain ⟨htrait, -, rfl⟩ := of_addRequirement hok
  obtain ⟨d, hd⟩ := Option.isSome_iff_exists.1 htrait
  have hname := List.find?_some hd
  refine ⟨_, (trait?_modifyTrait (by exact fun _ => rfl)).trans (congrArg _ hd), ?_⟩
  dsimp only
  rw [if_pos (beq_iff_eq.1 hname)]
  exact List.mem_concat_self

/-! ### What is not read -/

section Unread

variable (names : NameTable) (defaults : List (LiteralKind × Ty))

theorem conformancesWithin_unread : ∀ fuel : Nat,
    ({ table with names := names, literalDefaults := defaults } : Table).conformancesWithin fuel =
      table.conformancesWithin fuel
  | 0 => rfl
  | fuel + 1 => by
    funext a
    unfold conformancesWithin
    rw [conformancesWithin_unread fuel]
    rfl

theorem declaredMembersWithin_unread : ∀ fuel : Nat,
    ({ table with names := names, literalDefaults := defaults } : Table).declaredMembersWithin
      fuel = table.declaredMembersWithin fuel
  | 0 => rfl
  | fuel + 1 => by
    funext a member
    unfold declaredMembersWithin
    rw [declaredMembersWithin_unread fuel]
    rfl

/-- Conformances do not depend on names and defaults. -/
theorem conformances_unread :
    ({ table with names := names, literalDefaults := defaults } : Table).conformances =
      table.conformances := by
  unfold conformances
  rw [conformancesWithin_unread]
  rfl

theorem declaredMembers_unread :
    ({ table with names := names, literalDefaults := defaults } : Table).declaredMembers =
      table.declaredMembers := by
  unfold declaredMembers
  rw [declaredMembersWithin_unread]
  rfl

/-- **Members do not depend on names and defaults.** -/
theorem members_unread :
    ({ table with names := names, literalDefaults := defaults } : Table).members =
      table.members := by
  unfold members
  rw [conformances_unread, declaredMembers_unread]
  rfl

end Unread

end Table
end TypeResolution
