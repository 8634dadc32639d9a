/-
# Declarations of loaded environments

What an entry of an environment declares is found in the table that is loaded. A member of a type is
found on every type of that name that has as many arguments as it has parameters: with its number,
its penalty, its generic parameters with all their bounds, and the signature that its text is read
as, with the arguments put in (`Workspace.EnvironmentEntry.KeepsMembers`).

The requirement of a trait goes another way into the table. It is found with its number and its
signature on every nominal type that conforms to the trait and declares no member of the name. But
its generic parameters and its penalty stay behind: an entry with any of them is not found as it is
written (`Workspace.toTable_keeps`).

Key definitions: `Workspace.DeclEntry.Writes`, `Workspace.DeclEntry.Yields`,
`Workspace.EnvironmentEntry.KeepsMembers`, `Workspace.EnvironmentEntry.KeepsRequirements`.
Key theorems: `Workspace.loads_toCandidate`, `Workspace.loads_toTable`, `Workspace.toTable_keeps`.
-/
import TypeResolution.Proofs.Table.Capture
import TypeResolution.Proofs.Workspace.Steps
import TypeResolution.Proofs.Workspace.Variables

namespace TypeResolution
namespace Workspace

variable {names names' : NameTable} {t t' : Table} {scope params : List Name} {c : Candidate}
variable {head trait : Name} {d : DeclEntry}

/-! ### What entries write -/

/-- The generic parameter is the one of the entry. -/
structure GenericEntry.Writes (names : NameTable) (g : GenericEntry) (p : GenericParam) : Prop where
  name : names.Knows g.name p.name
  bounds : names.KnowsAll g.bounds p.bounds

/-- The declaration is the one of the entry in a scope of generic parameters. Its signature is what
the text is read as, with all names known. -/
structure DeclEntry.Writes (names : NameTable) (scope : List Name) (d : DeclEntry) (c : Candidate) :
    Prop where
  decl : c.decl = ⟨d.decl⟩
  penalty : c.penalty = d.penalty
  generics : List.Forall₂ (GenericEntry.Writes names) d.generics c.generics
  type : Notation.readType names (scope ++ c.generics.map (·.name)) d.type = (.ok c.type, names)

/-- The candidate is the declaration of the entry with arguments put in. -/
def DeclEntry.Yields (names : NameTable) (scope : List Name) (args : List (Name × Ty))
    (d : DeclEntry) (c : Candidate) : Prop :=
  ∃ declared, d.Writes names scope declared ∧ c = declared.instantiate args

/-- The name and the parameters are those of the entry. -/
structure TypeEntry.Named (names : NameTable) (e : TypeEntry) (head : Name) (params : List Name) :
    Prop where
  head : names.Knows e.name head
  params : names.KnowsAll e.params params

theorem GenericEntry.Writes.mono {g : GenericEntry} {p : GenericParam} (h : g.Writes names p)
    (hnames : names.texts <+: names'.texts) : g.Writes names' p :=
  ⟨h.name.mono hnames, h.bounds.mono hnames⟩

theorem DeclEntry.Writes.mono (h : d.Writes names scope c) (hnames : names.texts <+: names'.texts) :
    d.Writes names' scope c :=
  ⟨h.decl, h.penalty, h.generics.imp fun _ _ hwrites => hwrites.mono hnames,
    Notation.readType_again h.type hnames⟩

theorem TypeEntry.Named.mono {e : TypeEntry} (h : e.Named names head params)
    (hnames : names.texts <+: names'.texts) : e.Named names' head params :=
  ⟨h.head.mono hnames, h.params.mono hnames⟩

/-! ### Loading entries -/

theorem knows_of_loads_intern {text : String} {name : Name}
    (h : Loads (Load.intern text) names name names') :
    names.texts <+: names'.texts ∧ names'.Knows text name := by
  have hintern := loads_intern.1 h
  have hadded := names.prefix_intern text
  have hknows := names.knows_intern text
  rw [hintern] at hadded hknows
  exact ⟨hadded, hknows⟩

theorem knows_of_loads_internAll {texts : List String} {ns : List Name}
    (h : Loads (Load.internAll texts) names ns names') :
    names.texts <+: names'.texts ∧ names'.KnowsAll texts ns := by
  have hintern := loads_internAll.1 h
  have hadded := NameTable.prefix_internAll texts names
  have hknows := NameTable.knows_of_internAll texts names
  rw [hintern] at hadded hknows
  exact ⟨hadded, hknows⟩

theorem loads_toParam {g : GenericEntry} {p : GenericParam} (h : Loads g.toParam names p names') :
    names.texts <+: names'.texts ∧ g.Writes names' p := by
  obtain ⟨name, names₁, hname, h⟩ := loads_bind.1 h
  obtain ⟨bounds, names₂, hbounds, h⟩ := loads_bind.1 h
  obtain ⟨rfl, rfl⟩ := loads_pure.1 h
  obtain ⟨hadded, hknows⟩ := knows_of_loads_intern hname
  obtain ⟨hadded', hknows'⟩ := knows_of_loads_internAll hbounds
  exact ⟨hadded.trans hadded', hknows.mono hadded', hknows'⟩

/-- **A declaration is loaded as it is written.** -/
theorem loads_toCandidate (h : Loads (d.toCandidate scope) names c names') :
    names.texts <+: names'.texts ∧ d.Writes names' scope c := by
  obtain ⟨generics, names₁, hgenerics, h⟩ := loads_bind.1 h
  obtain ⟨type, names₂, htype, h⟩ := loads_bind.1 h
  obtain ⟨rfl, rfl⟩ := loads_pure.1 h
  have hread := loads_type.1 htype
  have hadded' := Notation.readType_isPrefix hread
  obtain ⟨hadded, hwrites⟩ := loads_mapM (P := fun names g p => GenericEntry.Writes names g p)
    (fun _ _ _ _ hwrites hnames => hwrites.mono hnames) (fun _ _ _ _ h => loads_toParam h) hgenerics
  exact ⟨hadded.trans hadded', rfl, rfl, hwrites.imp fun _ _ hwrites => hwrites.mono hadded',
    Notation.readType_again hread List.prefix_rfl⟩

/-! ### Loading types and traits -/

/-- The entry is declared as a member of the type. -/
def DeclEntry.IsMember (head : Name) (params : List Name) (d : DeclEntry) (t : Table)
    (names : NameTable) : Prop :=
  ∃ member c, names.Knows (d.name.getD "") member ∧ d.Writes names params c ∧
    t.HasMember head params member c

/-- The entry is declared as a requirement of the trait, without its generic parameters and its
penalty. -/
def DeclEntry.IsRequirement (trait : Name) (d : DeclEntry) (t : Table) (names : NameTable) : Prop :=
  ∃ member c, names.Knows (d.name.getD "") member ∧ d.Writes names [t.selfName] c ∧
    t.HasRequirement trait member (.plain c.decl c.type)

/-- The type of the entry is declared. -/
def TypeEntry.IsDeclared (e : TypeEntry) (t : Table) (names : NameTable) : Prop :=
  ∃ head params, e.Named names head params ∧ t.HasType head params

/-- The type of the entry is declared, and so are all its members. -/
def TypeEntry.IsComplete (e : TypeEntry) (t : Table) (names : NameTable) : Prop :=
  ∃ head params, e.Named names head params ∧ ∀ d ∈ e.members, d.IsMember head params t names

/-- All requirements of the entry are declared. -/
def TraitEntry.IsComplete (e : TraitEntry) (t : Table) (names : NameTable) : Prop :=
  ∃ trait, names.Knows e.name trait ∧ ∀ d ∈ e.requirements, d.IsRequirement trait t names

section Advancing

variable (h : Advances t names t' names')
include h

theorem DeclEntry.IsMember.advances (hd : d.IsMember head params t names) :
    d.IsMember head params t' names' := by
  obtain ⟨member, c, hmember, hwrites, hhas⟩ := hd
  exact ⟨member, c, hmember.mono h.names, hwrites.mono h.names, hhas.grows h.table⟩

theorem DeclEntry.IsRequirement.advances (hd : d.IsRequirement trait t names) :
    d.IsRequirement trait t' names' := by
  obtain ⟨member, c, hmember, hwrites, hhas⟩ := hd
  refine ⟨member, c, hmember.mono h.names, ?_, hhas.grows h.table⟩
  rw [h.table.selfName]
  exact hwrites.mono h.names

theorem TypeEntry.IsDeclared.advances {e : TypeEntry} (he : e.IsDeclared t names) :
    e.IsDeclared t' names' := by
  obtain ⟨head, params, hnamed, hhas⟩ := he
  exact ⟨head, params, hnamed.mono h.names, hhas.grows h.table⟩

theorem TypeEntry.IsComplete.advances {e : TypeEntry} (he : e.IsComplete t names) :
    e.IsComplete t' names' := by
  obtain ⟨head, params, hnamed, hmembers⟩ := he
  exact ⟨head, params, hnamed.mono h.names, fun d hd => (hmembers d hd).advances h⟩

theorem TraitEntry.IsComplete.advances {e : TraitEntry} (he : e.IsComplete t names) :
    e.IsComplete t' names' := by
  obtain ⟨trait, htrait, hrequirements⟩ := he
  exact ⟨trait, htrait.mono h.names, fun d hd => (hrequirements d hd).advances h⟩

end Advancing

theorem loads_declareTrait {e : TraitEntry} (h : Loads (declareTrait t e) names t' names') :
    Advances t names t' names' := by
  obtain ⟨refines, names₁, hrefines, h⟩ := loads_bind.1 h
  obtain ⟨name, names₂, hname, h⟩ := loads_bind.1 h
  obtain ⟨-, hadvances⟩ := advances_declare (.declareTrait name refines) h
  exact (Advances.ofNames ((knows_of_loads_internAll hrefines).1.trans
    (knows_of_loads_intern hname).1)).trans hadvances

theorem loads_declareType {e : TypeEntry} (h : Loads (declareType t e) names t' names') :
    Advances t names t' names' ∧ e.IsDeclared t' names' := by
  obtain ⟨params, names₁, hparams, h⟩ := loads_bind.1 h
  obtain ⟨head, names₂, hhead, h⟩ := loads_bind.1 h
  obtain ⟨hok, hadvances⟩ := advances_declare (.declareType head params) h
  obtain ⟨hadded, hknows⟩ := knows_of_loads_internAll hparams
  obtain ⟨hadded', hknows'⟩ := knows_of_loads_intern hhead
  refine ⟨(Advances.ofNames (hadded.trans hadded')).trans hadvances, head, params, ?_,
    Table.hasType_declareType hok⟩
  exact ⟨hknows'.mono hadvances.names, (hknows.mono hadded').mono hadvances.names⟩

theorem advances_conforms {conforms : List String}
    (h : Loads (conforms.foldlM (fun t trait => do
      Load.declare (t.addConformance head (← Load.intern trait))) t) names t' names') :
    Advances t names t' names' := by
  refine advances_foldlM (fun trait t names t' names' h => ?_) h
  obtain ⟨name, names₁, hname, h⟩ := loads_bind.1 h
  obtain ⟨-, hadvances⟩ := advances_declare (.addConformance head name) h
  exact (Advances.ofNames (knows_of_loads_intern hname).1).trans hadvances

theorem advances_supertypes {supertypes : List String}
    (h : Loads (supertypes.foldlM (fun t text => do
      Load.declare (t.addSupertype head (← Load.type params text))) t) names t' names') :
    Advances t names t' names' := by
  refine advances_foldlM (fun text t names t' names' h => ?_) h
  obtain ⟨type, names₁, htype, h⟩ := loads_bind.1 h
  obtain ⟨-, hadvances⟩ := advances_declare (.addSupertype head type) h
  have hadded := Notation.readType_isPrefix (loads_type.1 htype)
  exact (Advances.ofNames hadded).trans hadvances

/-- **The members of a type are declared** with its parameters. -/
theorem loads_members {members : List DeclEntry} (htype : t.HasType head params)
    (h : Loads (members.foldlM (fun t d => do
      let member ← d.memberName
      Load.declare (t.addMember head member (← d.toCandidate params))) t) names t' names') :
    Advances t names t' names' ∧ ∀ d ∈ members, d.IsMember head params t' names' := by
  refine loads_foldlM (fun _ _ _ _ _ hd h => hd.advances h) ?_ h
  intro d _ t₁ names₁ t₂ names₂ hbefore h
  obtain ⟨member, names₃, hmember, h⟩ := loads_bind.1 h
  obtain ⟨c, names₄, hc, h⟩ := loads_bind.1 h
  obtain ⟨hok, hadvances⟩ := advances_declare (.addMember head member c) h
  obtain ⟨hadded, hknows⟩ := knows_of_loads_intern hmember
  obtain ⟨hadded', hwrites⟩ := loads_toCandidate hc
  refine ⟨(Advances.ofNames (hadded.trans hadded')).trans hadvances, member, c, ?_, ?_, ?_⟩
  · exact (hknows.mono hadded').mono hadvances.names
  · exact hwrites.mono hadvances.names
  · exact Table.hasMember_addMember (htype.grows hbefore.table) hok

theorem loads_completeType {e : TypeEntry} (he : e.IsDeclared t names)
    (h : Loads (completeType t e) names t' names') :
    Advances t names t' names' ∧ e.IsComplete t' names' := by
  obtain ⟨head, params, hnamed, htype⟩ := he
  obtain ⟨head', names₁, hhead, h⟩ := loads_bind.1 h
  obtain ⟨rfl, rfl⟩ := Prod.mk.inj (hnamed.head.intern.symm.trans (loads_intern.1 hhead))
  obtain ⟨params', names₁, hparams, h⟩ := loads_bind.1 h
  obtain ⟨rfl, rfl⟩ := Prod.mk.inj (hnamed.params.internAll.symm.trans (loads_internAll.1 hparams))
  obtain ⟨t₁, names₁, hconforms, h⟩ := loads_bind.1 h
  obtain ⟨t₂, names₂, hsupertypes, h⟩ := loads_bind.1 h
  have hbefore := (advances_conforms hconforms).trans (advances_supertypes hsupertypes)
  obtain ⟨hafter, hmembers⟩ := loads_members (htype.grows hbefore.table) h
  have hall := hbefore.trans hafter
  exact ⟨hall, head, params, hnamed.mono hall.names, hmembers⟩

/-- **The requirements of a trait are declared** without their generic parameters and penalties. -/
theorem loads_completeTrait {e : TraitEntry} (h : Loads (completeTrait t e) names t' names') :
    Advances t names t' names' ∧ e.IsComplete t' names' := by
  obtain ⟨trait, names₁, htrait, h⟩ := loads_bind.1 h
  obtain ⟨hadded, hknows⟩ := knows_of_loads_intern htrait
  have hstart : Advances t names t names₁ := .ofNames hadded
  suffices hfold : Advances t names₁ t' names' ∧
      ∀ d ∈ e.requirements, d.IsRequirement trait t' names' from
    ⟨hstart.trans hfold.1, trait, hknows.mono hfold.1.names, hfold.2⟩
  refine loads_foldlM (fun _ _ _ _ _ hd h => hd.advances h) ?_ h
  intro d _ t₁ names₁ t₂ names₂ hbefore h
  obtain ⟨c, names₃, hc, h⟩ := loads_bind.1 h
  obtain ⟨member, names₄, hmember, h⟩ := loads_bind.1 h
  obtain ⟨hok, hadvances⟩ := advances_declare (.addRequirement trait member c.decl c.type) h
  obtain ⟨hadded, hwrites⟩ := loads_toCandidate hc
  obtain ⟨hadded', hknows⟩ := knows_of_loads_intern hmember
  refine ⟨(Advances.ofNames (hadded.trans hadded')).trans hadvances, member, c, ?_, ?_, ?_⟩
  · exact hknows.mono hadvances.names
  · rw [hadvances.table.selfName]
    exact (hwrites.mono hadded').mono hadvances.names
  · exact Table.hasRequirement_addRequirement hok

theorem loads_addDefault {entry : String × String}
    (h : Loads (addDefault t entry) names t' names') : Advances t names t' names' := by
  obtain ⟨kind, names₁, hkind, hrest⟩ := loads_bind.1 h
  obtain ⟨type, names₂, htype, hset⟩ := loads_bind.1 hrest
  obtain rfl := loads_literal hkind
  obtain ⟨rfl, rfl⟩ := loads_pure.1 hset
  have hadded := Notation.readType_isPrefix (loads_type.1 htype)
  have hok : (Table.Operation.setLiteralDefault kind type).on t = .ok _ := rfl
  exact ⟨Table.Operation.grows hok, hadded⟩

/-- **Everything that an environment lists is declared**, in a table that can be built and that
differs from the loaded one in its names only. -/
theorem loads_toTable {e : EnvironmentEntry} (h : Loads e.toTable names t names') :
    ∃ built : Table, built.Built ∧ t = { built with names := names' } ∧
      (∀ entry ∈ e.types, entry.IsComplete built names') ∧
      ∀ entry ∈ e.traits, entry.IsComplete built names' := by
  obtain ⟨known, names₀, hget, h⟩ := loads_bind.1 h
  obtain ⟨hknown, hnames₀⟩ := loads_get.1 hget
  rw [hknown, hnames₀] at h
  obtain ⟨u, names₁, -, h⟩ := loads_bind.1 h
  obtain ⟨t₁, names₂, htraits, h⟩ := loads_bind.1 h
  obtain ⟨t₂, names₃, htypes, h⟩ := loads_bind.1 h
  obtain ⟨t₃, names₄, hcomplete, h⟩ := loads_bind.1 h
  obtain ⟨t₄, names₅, hrequirements, h⟩ := loads_bind.1 h
  obtain ⟨t₅, names₆, hdefaults, h⟩ := loads_bind.1 h
  obtain ⟨final, names₇, hget, h⟩ := loads_bind.1 h
  obtain ⟨hfinal, hnames₇⟩ := loads_get.1 hget
  obtain ⟨ht, hnames'⟩ := loads_pure.1 h
  rw [hfinal] at ht
  rw [hnames₇] at hnames'
  have htraits := advances_foldlM (fun _ _ _ _ _ => loads_declareTrait) htraits
  obtain ⟨htypes, hdeclared⟩ := loads_foldlM (P := TypeEntry.IsDeclared)
    (fun _ _ _ _ _ he h => he.advances h) (fun _ _ _ _ _ _ _ h => loads_declareType h) htypes
  obtain ⟨hcomplete, hmembers⟩ := loads_foldlM (P := TypeEntry.IsComplete)
    (fun _ _ _ _ _ he h => he.advances h) (fun entry hentry _ _ _ _ hbefore h =>
      loads_completeType ((hdeclared entry hentry).advances hbefore) h) hcomplete
  obtain ⟨hall, hrequired⟩ := loads_foldlM (P := TraitEntry.IsComplete)
    (fun _ _ _ _ _ he h => he.advances h) (fun _ _ _ _ _ _ _ h => loads_completeTrait h)
    hrequirements
  have hdefaults := advances_foldlM (fun _ _ _ _ _ => loads_addDefault) hdefaults
  have hgrows := (htraits.trans htypes).trans (hcomplete.trans (hall.trans hdefaults))
  rw [hnames']
  refine ⟨t₅, hgrows.table.built (.ofNames _), ht, fun entry hentry => ?_, fun entry hentry => ?_⟩
  · exact (hmembers entry hentry).advances (hall.trans hdefaults)
  · exact (hrequired entry hentry).advances hdefaults

/-! ### What is found -/

/-- A declared member is found on all types of the name with the right number of arguments. -/
theorem mem_members_of_hasMember {built : Table} (hbuilt : built.Built) {member : Name}
    (h : built.HasMember head params member c) {args : List Ty}
    (hargs : args.length = params.length) :
    c.instantiate (params.zip args).reverse ∈ built.members (.nominal head args) member := by
  obtain ⟨d, hd, rfl, hmem⟩ := h
  have hdeclares : built.DeclaresMember member (.nominal head args) :=
    Table.declaresMember_iff.2 ⟨head, args, d, rfl, hd, _, hmem, rfl⟩
  rw [(Table.Lookup.own hdeclares).members_eq hbuilt, Table.ownMembers_of_type? hd]
  have harguments : d.arguments args = (d.params.zip args).reverse := if_pos hargs.symm
  rw [harguments]
  exact List.mem_map.2 ⟨(member, c), List.mem_filter.2 ⟨hmem, beq_self_eq_true member⟩, rfl⟩

/-- A declared requirement is found on the types that have to meet it and declare no member of the
name. -/
theorem mem_members_of_hasRequirement {built : Table} (hbuilt : built.Built) {member : Name}
    {args : List Ty} (h : built.HasRequirement trait member c)
    (htrait : trait ∈ built.conformances (.nominal head args))
    (hnil : built.declaredMembers (.nominal head args) member = []) :
    c.instantiate [(built.selfName, .nominal head args)] ∈
      built.members (.nominal head args) member := by
  obtain ⟨d, hd, hmem⟩ := h
  exact (Table.mem_members_of_required hbuilt hnil).2 ⟨trait, htrait, d, hd, c, hmem, rfl⟩

/-- What is found among requirements has no generic parameters and no penalty. -/
theorem plain_of_mem_members {built : Table} (hbuilt : built.Built) {member : Name}
    {args : List Ty} (hnil : built.declaredMembers (.nominal head args) member = [])
    (hc : c ∈ built.members (.nominal head args) member) : c.generics = [] ∧ c.penalty = 0 := by
  obtain ⟨trait, -, d, hd, r, hmem, rfl⟩ := (Table.mem_members_of_required hbuilt hnil).1 hc
  have hplain := hbuilt.plain_requirements d (List.mem_of_find?_eq_some hd) (member, r) hmem
  exact ⟨congrArg (·.generics) hplain, congrArg (·.penalty) hplain⟩

/-- The member declarations of an environment are found as they are written. -/
def EnvironmentEntry.KeepsMembers (e : EnvironmentEntry) (t : Table) : Prop :=
  ∀ entry ∈ e.types, ∀ d ∈ entry.members, ∃ head params member, entry.Named t.names head params ∧
    t.names.Knows (d.name.getD "") member ∧ ∀ args : List Ty, args.length = params.length →
      ∃ c ∈ t.members (.nominal head args) member,
        d.Yields t.names params (params.zip args).reverse c

/-- The requirements of an environment are found as they are written, on every type that conforms to
their trait and declares no member of the name. -/
def EnvironmentEntry.KeepsRequirements (e : EnvironmentEntry) (t : Table) : Prop :=
  ∀ entry ∈ e.traits, ∀ d ∈ entry.requirements, ∃ trait member, t.names.Knows entry.name trait ∧
    t.names.Knows (d.name.getD "") member ∧
    ∀ head args, t.conforms (.nominal head args) trait = true →
      t.declaredMembers (.nominal head args) member = [] →
      ∃ c ∈ t.members (.nominal head args) member,
        d.Yields t.names [t.selfName] [(t.selfName, .nominal head args)] c

/-- **What loading keeps.** The members that an environment lists are found as they are written. A
requirement is found with its number and its signature; it is found as it is written exactly if it
has no generic parameters and no penalty. -/
theorem toTable_keeps {e : EnvironmentEntry} (h : e.toTable.run.run names = (.ok t, names')) :
    e.KeepsMembers t ∧
    ∀ entry ∈ e.traits, ∀ d ∈ entry.requirements, ∃ trait member declared,
      t.names.Knows entry.name trait ∧ t.names.Knows (d.name.getD "") member ∧
      d.Writes t.names [t.selfName] declared ∧
      ∀ head args, t.conforms (.nominal head args) trait = true →
        t.declaredMembers (.nominal head args) member = [] →
        .plain declared.decl (declared.type.instantiate [(t.selfName, .nominal head args)]) ∈
          t.members (.nominal head args) member ∧
        ((∃ c ∈ t.members (.nominal head args) member,
          d.Yields t.names [t.selfName] [(t.selfName, .nominal head args)] c) ↔
            d.generics = [] ∧ d.penalty = 0) := by
  obtain ⟨built, hbuilt, rfl, htypes, htraits⟩ := loads_toTable h
  constructor
  · intro entry hentry d hd
    obtain ⟨head, params, hnamed, hmembers⟩ := htypes entry hentry
    obtain ⟨member, c, hmember, hwrites, hhas⟩ := hmembers d hd
    refine ⟨head, params, member, hnamed, hmember, fun args hargs => ?_⟩
    rw [Table.members_unread names' built.literalDefaults]
    exact ⟨_, mem_members_of_hasMember hbuilt hhas hargs, c, hwrites, rfl⟩
  · intro entry hentry d hd
    obtain ⟨trait, htrait, hrequirements⟩ := htraits entry hentry
    obtain ⟨member, declared, hmember, hwrites, hhas⟩ := hrequirements d hd
    refine ⟨trait, member, declared, htrait, hmember, hwrites, fun head args hconforms hnil => ?_⟩
    have hconformance : trait ∈ built.conformances (.nominal head args) := by
      rw [← Table.conformances_unread names' built.literalDefaults]
      exact List.contains_iff_mem.1 hconforms
    rw [Table.declaredMembers_unread names' built.literalDefaults] at hnil
    rw [Table.members_unread names' built.literalDefaults]
    have hfound := mem_members_of_hasRequirement hbuilt hhas hconformance hnil
    refine ⟨hfound, ?_, ?_⟩
    · rintro ⟨c, hc, other, hother, rfl⟩
      obtain ⟨hgenerics, hpenalty⟩ := plain_of_mem_members hbuilt hnil hc
      have hentries := hother.generics
      rw [show other.generics = [] from hgenerics] at hentries
      exact ⟨List.forall₂_nil_right_iff.1 hentries, hother.penalty.symm.trans hpenalty⟩
    · rintro ⟨hgenerics, hpenalty⟩
      refine ⟨_, hfound, declared, hwrites, ?_⟩
      have hentries := hwrites.generics
      rw [hgenerics] at hentries
      have hplain : .plain declared.decl declared.type = declared := by
        unfold Candidate.plain
        rw [← List.forall₂_nil_left_iff.1 hentries, ← hwrites.penalty.trans hpenalty]
      rw [hplain]

/-- A generic member with a bound and a penalty is found, and so is a plain requirement. -/
theorem toTable_keeps_plain :
    let member : DeclEntry := ⟨some "x", 1, "(T, U)", [⟨"U", ["Q"]⟩], 3⟩
    let requirement : DeclEntry := ⟨some "r", 2, "(Self, T)", [], 0⟩
    let e : EnvironmentEntry :=
      { traits := [⟨"Q", [], []⟩, ⟨"P", ["Q"], [requirement]⟩]
        types := [⟨"A", ["T"], ["P"], [], [member]⟩] }
    ∃ t names', e.toTable.run.run .empty = (.ok t, names') ∧ e.KeepsMembers t ∧
      e.KeepsRequirements t := by
  intro member requirement e
  have hrun : (e.toTable.run.run .empty).1.toOption.any (fun _ => true) = true := by decide +kernel
  obtain ⟨t, names', hload, -⟩ := Load.exists_loaded hrun
  obtain ⟨hmembers, hrequirements⟩ := toTable_keeps hload
  refine ⟨t, names', hload, hmembers, fun entry hentry d hd => ?_⟩
  obtain ⟨trait, member, declared, htrait, hmember, -, hfound⟩ := hrequirements entry hentry d hd
  have hplain : ∀ entry ∈ e.traits, ∀ d ∈ entry.requirements, d.generics = [] ∧ d.penalty = 0 := by
    decide +kernel
  exact ⟨trait, member, htrait, hmember, fun head args hconforms hnil =>
    (hfound head args hconforms hnil).2.2 (hplain entry hentry d hd)⟩

/-- A requirement with a bounded generic parameter and a penalty is not found as it is written. -/
theorem toTable_loses :
    let requirement : DeclEntry := ⟨some "r", 1, "T", [⟨"T", ["Q"]⟩], 5⟩
    let e : EnvironmentEntry :=
      { traits := [⟨"Q", [], []⟩, ⟨"P", [], [requirement]⟩]
        types := [⟨"A", [], ["P"], [], []⟩] }
    ∃ t names', e.toTable.run.run .empty = (.ok t, names') ∧ ¬ e.KeepsRequirements t := by
  intro requirement e
  have hrun : (e.toTable.run.run .empty).1.toOption.any (fun t =>
      t.names.get? "P" == some ⟨2⟩ && t.names.get? "r" == some ⟨5⟩ &&
        t.conforms (.nominal ⟨3⟩ []) ⟨2⟩ && (t.declaredMembers (.nominal ⟨3⟩ []) ⟨5⟩).isEmpty &&
        (t.members (.nominal ⟨3⟩ []) ⟨5⟩).all (·.penalty == 0)) = true := by
    decide +kernel
  obtain ⟨t, names', hload, htest⟩ := Load.exists_loaded hrun
  simp only [Bool.and_eq_true, beq_iff_eq, List.isEmpty_iff, List.all_eq_true] at htest
  obtain ⟨⟨⟨⟨htrait, hmember⟩, hconforms⟩, hnil⟩, hpenalty⟩ := htest
  refine ⟨t, names', hload, fun hkeeps => ?_⟩
  obtain ⟨trait, member, htrait', hmember', hfound⟩ :=
    hkeeps _ (List.mem_cons_of_mem _ List.mem_cons_self) requirement List.mem_cons_self
  obtain rfl := Option.some.inj (htrait.symm.trans htrait')
  obtain rfl := Option.some.inj (hmember.symm.trans hmember')
  obtain ⟨c, hc, declared, hwrites, rfl⟩ := hfound ⟨3⟩ [] hconforms hnil
  have hzero := hpenalty _ hc
  change declared.penalty = 0 at hzero
  cases hwrites.penalty.symm.trans hzero

end Workspace
end TypeResolution
