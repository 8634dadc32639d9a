/-
# Types in any order

Types may refer to each other, so an environment may list them in any order. It is accepted in all
orders or refused in all of them, and the tables that are loaded give the same answers
(`Workspace.toTable_perm`).

The two runs do not meet the names in the same order, and neither do the tables on the way agree. So
the first run is repeated under the names of its end. There nothing is interned any more, and an
entry says the same wherever it stands; hence the types can be declared and completed in the order
of the second run, to the same table but for the order of its types. The second run follows this one
under its own names.

Key definitions: `Workspace.TypeEntry.StandsFor`, `Workspace.EnvironmentEntry.fill`,
`Table.SameAnswers`, `Table.Agrees`.
Key theorems: `Workspace.loads_foldlM_steady`, `Workspace.fill_follow`, `Workspace.toTable_perm`.
-/
import TypeResolution.Proofs.Workspace.Following

open List (Forall₂)

namespace TypeResolution
namespace Workspace

open NameTable (Step)
open Table (Completion)

variable {names known final : NameTable} {t t' u : Table} {head : Name} {params : List Name}
variable {es es' : List TypeEntry}

/-! ### Entries under settled names -/

theorem loads_intern_steady {text : String} {name : Name} :
    Loads (Load.intern text) names name names ↔ names.Knows text name :=
  ⟨fun h => (knows_of_loads_intern h).2, fun h => loads_intern.2 h.intern⟩

theorem loads_internAll_steady {texts : List String} {ns : List Name} :
    Loads (Load.internAll texts) names ns names ↔ names.KnowsAll texts ns :=
  ⟨fun h => (knows_of_loads_internAll h).2, fun h => loads_internAll.2 h.internAll⟩

theorem loads_declare_steady (op : Table.Operation) :
    Loads (Load.declare (op.on t)) names u names ↔ Table.runAll [op] t = .ok u := by
  rw [Table.runAll_singleton, loads_declare]
  exact and_iff_left rfl

/-- **A fold under settled names.** The operations that the entries stand for are done one after the
other, and which these are does not depend on the table. -/
theorem loads_foldlM_steady {β γ : Type} {step : Table → β → Load Table} {standsFor : β → γ → Prop}
    {ops : γ → List Table.Operation} (hsteady : ∀ t b, Steady (step t b))
    (hstep : ∀ t b u, Loads (step t b) names u names ↔
      ∃ c, standsFor b c ∧ Table.runAll (ops c) t = .ok u) :
    ∀ {bs : List β} {t u : Table}, Loads (bs.foldlM step t) names u names ↔
      ∃ cs, Forall₂ standsFor bs cs ∧ Table.runAll (cs.flatMap ops) t = .ok u
  | [], t, u => by
    constructor
    · intro h
      obtain ⟨rfl, -⟩ := loads_pure.1 h
      exact ⟨[], .nil, rfl⟩
    · rintro ⟨cs, hcs, hrun⟩
      cases hcs
      exact loads_pure.2 ⟨(Except.ok.inj hrun).symm, rfl⟩
  | b :: bs, t, u => by
    rw [List.foldlM_cons, loads_bind_steady (hsteady t b) fun t => steady_foldlM hsteady bs t]
    constructor
    · rintro ⟨t₁, hfirst, hrest⟩
      obtain ⟨c, hc, hrun⟩ := (hstep _ _ _).1 hfirst
      obtain ⟨cs, hcs, hruns⟩ := (loads_foldlM_steady hsteady hstep).1 hrest
      exact ⟨c :: cs, .cons hc hcs, Table.runAll_append_eq_ok.2 ⟨t₁, hrun, hruns⟩⟩
    · rintro ⟨cs, hcs, hrun⟩
      cases hcs with
      | cons hc hcs =>
        obtain ⟨t₁, hrun, hruns⟩ := Table.runAll_append_eq_ok.1 hrun
        exact ⟨t₁, (hstep _ _ _).2 ⟨_, hc, hrun⟩,
          (loads_foldlM_steady hsteady hstep).2 ⟨_, hcs, hruns⟩⟩

theorem loads_declareType_steady {e : TypeEntry} :
    Loads (declareType t e) names u names ↔ ∃ p : Name × List Name, e.Named names p.1 p.2 ∧
      Table.runAll [.declareType p.1 p.2] t = .ok u := by
  unfold declareType
  rw [loads_bind_steady (steady_internAll _) fun _ =>
    (steady_intern _).bind fun _ => steady_declare _]
  constructor
  · rintro ⟨params, hparams, h⟩
    obtain ⟨head, hhead, h⟩ :=
      (loads_bind_steady (steady_intern _) fun _ => steady_declare _).1 h
    exact ⟨(head, params), ⟨loads_intern_steady.1 hhead, loads_internAll_steady.1 hparams⟩,
      (loads_declare_steady (.declareType head params)).1 h⟩
  · rintro ⟨⟨head, params⟩, hnamed, h⟩
    exact ⟨params, loads_internAll_steady.2 hnamed.params,
      (loads_bind_steady (steady_intern _) fun _ => steady_declare _).2
        ⟨head, loads_intern_steady.2 hnamed.head,
          (loads_declare_steady (.declareType head params)).2 h⟩⟩

theorem loads_addConformances_steady {texts : List String} :
    Loads (addConformances head t texts) names u names ↔ ∃ traits, names.KnowsAll texts traits ∧
      Table.runAll (traits.flatMap fun trait => [.addConformance head trait]) t = .ok u := by
  refine loads_foldlM_steady (fun t _ => (steady_intern _).bind fun _ => steady_declare _) ?_
  intro t text u
  rw [loads_bind_steady (steady_intern _) fun _ => steady_declare _]
  exact exists_congr fun trait => and_congr loads_intern_steady
    (loads_declare_steady (.addConformance head trait))

theorem loads_addSupertypes_steady {texts : List String} :
    Loads (addSupertypes head params t texts) names u names ↔
      ∃ sups, Forall₂ (fun text sup => Loads (Load.type params text) names sup names) texts sups ∧
        Table.runAll (sups.flatMap fun sup => [.addSupertype head sup]) t = .ok u := by
  refine loads_foldlM_steady (fun t _ => (steady_type _ _).bind fun _ => steady_declare _) ?_
  intro t text u
  rw [loads_bind_steady (steady_type _ _) fun _ => steady_declare _]
  exact exists_congr fun sup => and_congr_right fun _ =>
    loads_declare_steady (.addSupertype head sup)

/-- The entry is a member of a name with a declaration, in which parameters are in scope. -/
def DeclEntry.StandsFor (names : NameTable) (params : List Name) (d : DeclEntry)
    (m : Name × Candidate) : Prop :=
  names.Knows (d.name.getD "") m.1 ∧ Loads (d.toCandidate params) names m.2 names

theorem loads_addMembers_steady {ds : List DeclEntry} :
    Loads (ds.foldlM (addMember head params) t) names u names ↔
      ∃ ms, Forall₂ (DeclEntry.StandsFor names params) ds ms ∧
        Table.runAll (ms.flatMap fun m => [.addMember head m.1 m.2]) t = .ok u := by
  refine loads_foldlM_steady (steady_addMember _ _) ?_
  intro t d u
  unfold addMember DeclEntry.memberName
  rw [loads_bind_steady (steady_intern _) fun _ =>
    (steady_toCandidate _ _).bind fun _ => steady_declare _]
  constructor
  · rintro ⟨member, hmember, h⟩
    obtain ⟨c, hc, h⟩ := (loads_bind_steady (steady_toCandidate _ _) fun _ => steady_declare _).1 h
    exact ⟨(member, c), ⟨loads_intern_steady.1 hmember, hc⟩,
      (loads_declare_steady (.addMember head member c)).1 h⟩
  · rintro ⟨⟨member, c⟩, ⟨hmember, hc⟩, h⟩
    exact ⟨member, loads_intern_steady.2 hmember,
      (loads_bind_steady (steady_toCandidate _ _) fun _ => steady_declare _).2
        ⟨c, hc, (loads_declare_steady (.addMember head member c)).2 h⟩⟩

/-- What an entry says of its type, in the order in which it does. -/
def TypeEntry.StandsFor (names : NameTable) (e : TypeEntry) (block : Name × List Completion) :
    Prop :=
  ∃ params traits sups ms, e.Named names block.1 params ∧ names.KnowsAll e.conforms traits ∧
    Forall₂ (fun text sup => Loads (Load.type params text) names sup names) e.supertypes sups ∧
    Forall₂ (DeclEntry.StandsFor names params) e.members ms ∧
    block.2 = traits.map .conformance ++ (sups.map .supertype ++ ms.map fun m => .member m.1 m.2)

/-- What completes a type is done in three parts. -/
theorem completions_eq (head : Name) (traits : List Name) (sups : List Ty)
    (ms : List (Name × Candidate)) :
    Table.completions (head, traits.map .conformance ++
        (sups.map .supertype ++ ms.map fun m => .member m.1 m.2)) =
      (traits.flatMap fun trait => [.addConformance head trait]) ++
        ((sups.flatMap fun sup => [.addSupertype head sup]) ++
          ms.flatMap fun m => [.addMember head m.1 m.2]) := by
  rw [← List.map_eq_flatMap, ← List.map_eq_flatMap, ← List.map_eq_flatMap]
  unfold Table.completions
  rw [List.map_append, List.map_append, List.map_map, List.map_map, List.map_map]
  rfl

theorem loads_complete_steady {e : TypeEntry} :
    Loads (complete head params t e) names u names ↔ ∃ t₁ t₂,
      Loads (addConformances head t e.conforms) names t₁ names ∧
      Loads (addSupertypes head params t₁ e.supertypes) names t₂ names ∧
      Loads (e.members.foldlM (addMember head params) t₂) names u names := by
  have hmembers : ∀ t, Steady (e.members.foldlM (addMember head params) t) :=
    steady_foldlM (steady_addMember _ _) _
  unfold complete
  rw [loads_bind_steady (steady_addConformances _ _ _) fun _ =>
    (steady_addSupertypes _ _ _ _).bind hmembers]
  simp only [loads_bind_steady (steady_addSupertypes _ _ _ _) hmembers, exists_and_left]

/-- **A type is completed under settled names** by what its entry stands for in every table. -/
theorem loads_completeType_steady {e : TypeEntry} :
    Loads (completeType t e) names u names ↔
      ∃ block, e.StandsFor names block ∧ Table.runAll (Table.completions block) t = .ok u := by
  rw [completeType_eq, loads_bind_steady (steady_intern _) fun _ =>
    (steady_internAll _).bind fun _ => steady_complete _ _ _ _]
  constructor
  · rintro ⟨head, hhead, h⟩
    obtain ⟨params, hparams, h⟩ :=
      (loads_bind_steady (steady_internAll _) fun _ => steady_complete _ _ _ _).1 h
    obtain ⟨t₁, t₂, htraits, hsups, hms⟩ := loads_complete_steady.1 h
    obtain ⟨traits, htraits, hrun⟩ := loads_addConformances_steady.1 htraits
    obtain ⟨sups, hsups, hrun'⟩ := loads_addSupertypes_steady.1 hsups
    obtain ⟨ms, hms, hrun''⟩ := loads_addMembers_steady.1 hms
    refine ⟨(head, _), ⟨params, traits, sups, ms, ⟨loads_intern_steady.1 hhead,
      loads_internAll_steady.1 hparams⟩, htraits, hsups, hms, rfl⟩, ?_⟩
    rw [completions_eq]
    exact Table.runAll_append_eq_ok.2 ⟨t₁, hrun, Table.runAll_append_eq_ok.2 ⟨t₂, hrun', hrun''⟩⟩
  · rintro ⟨⟨head, _⟩, ⟨params, traits, sups, ms, hnamed, htraits, hsups, hms, rfl⟩, h⟩
    rw [completions_eq] at h
    obtain ⟨t₁, hrun, h⟩ := Table.runAll_append_eq_ok.1 h
    obtain ⟨t₂, hrun', hrun''⟩ := Table.runAll_append_eq_ok.1 h
    refine ⟨head, loads_intern_steady.2 hnamed.head, ?_⟩
    refine (loads_bind_steady (steady_internAll _) fun _ => steady_complete _ _ _ _).2
      ⟨params, loads_internAll_steady.2 hnamed.params, loads_complete_steady.2 ⟨t₁, t₂, ?_, ?_, ?_⟩⟩
    · exact loads_addConformances_steady.2 ⟨traits, htraits, hrun⟩
    · exact loads_addSupertypes_steady.2 ⟨sups, hsups, hrun'⟩
    · exact loads_addMembers_steady.2 ⟨ms, hms, hrun''⟩

/-! ### Types in another order -/

theorem loads_declareTypes_steady : Loads (es.foldlM declareType t) names u names ↔
    ∃ ps : List (Name × List Name), Forall₂ (fun e p => TypeEntry.Named names e p.1 p.2) es ps ∧
      Table.runAll (ps.map fun p => .declareType p.1 p.2) t = .ok u := by
  simp only [List.map_eq_flatMap]
  exact loads_foldlM_steady steady_declareType fun _ _ _ => loads_declareType_steady

theorem loads_completeTypes_steady : Loads (es.foldlM completeType t) names u names ↔
    ∃ blocks, Forall₂ (TypeEntry.StandsFor names) es blocks ∧
      Table.runAll (blocks.flatMap Table.completions) t = .ok u :=
  loads_foldlM_steady steady_completeType fun _ _ _ => loads_completeType_steady

/-- The names of types are known, and no two are the same. -/
def Distinct (names : NameTable) (es : List TypeEntry) : Prop :=
  ∃ heads, Forall₂ (fun (e : TypeEntry) n => names.Knows e.name n) es heads ∧ heads.Nodup

/-- **Types are declared in any order.** -/
theorem loads_declareTypes_perm (hperm : es.Perm es')
    (h : Loads (es.foldlM declareType t) names u names) : Distinct names es ∧
      ∃ types, types.Perm u.types ∧
        Loads (es'.foldlM declareType t) names { u with types := types } names := by
  obtain ⟨ps, hps, hrun⟩ := loads_declareTypes_steady.1 h
  obtain ⟨ps', hps', hperm'⟩ := List.perm_comp_forall₂ hperm.symm hps
  obtain ⟨types, htypes, hrun'⟩ := Table.runAll_declareType_perm hperm'.symm hrun
  refine ⟨⟨ps.map (·.1), ?_, (Table.runAll_declareType_eq_ok.1 hrun).1.2⟩, types, htypes,
    loads_declareTypes_steady.2 ⟨ps', hps', hrun'⟩⟩
  exact List.forall₂_map_right_iff.2 (hps.imp fun _ _ hnamed => hnamed.head)

/-- **Types are completed in any order**, to the same table. -/
theorem loads_completeTypes_perm (hperm : es.Perm es') (hdistinct : Distinct names es)
    (hbuilt : t.Built) (h : Loads (es.foldlM completeType t) names u names) :
    Loads (es'.foldlM completeType t) names u names := by
  obtain ⟨heads, hheads, hnodup⟩ := hdistinct
  obtain ⟨blocks, hblocks, hrun⟩ := loads_completeTypes_steady.1 h
  obtain ⟨blocks', hblocks', hperm'⟩ := List.perm_comp_forall₂ hperm.symm hblocks
  have hknown : Forall₂ (fun (e : TypeEntry) n => names.Knows e.name n) es (blocks.map (·.1)) := by
    refine List.forall₂_map_right_iff.2 (hblocks.imp ?_)
    rintro e block ⟨_, _, _, _, hnamed, -⟩
    exact hnamed.head
  have hsame : blocks.map (·.1) = heads :=
    List.right_unique_forall₂' (fun _ _ _ hn hm => Option.some.inj (hn.symm.trans hm)) hknown hheads
  refine loads_completeTypes_steady.2 ⟨blocks', hblocks', ?_⟩
  exact Table.runAll_perm hperm'.symm (hsame ▸ hnodup) hbuilt hrun

/-! ### Environments -/

/-- Loads the declarations of an environment into a table. -/
def EnvironmentEntry.fill (e : EnvironmentEntry) (t : Table) : Load Table := do
  let t ← e.traits.foldlM declareTrait t
  let t ← e.types.foldlM declareType t
  let t ← e.types.foldlM completeType t
  let t ← e.traits.foldlM completeTrait t
  e.literalDefaults.foldlM addDefault t

variable {e : EnvironmentEntry} {types : List TypeEntry}

theorem toTable_eq (e : EnvironmentEntry) : e.toTable = (do
    let t := Table.ofNames (← get)
    set t.names
    let t ← e.fill t
    return { t with names := ← get }) := by
  unfold EnvironmentEntry.toTable EnvironmentEntry.fill
  simp only [bind_assoc]

theorem loads_toTable_iff : Loads e.toTable names t final ↔
    ∃ built : Table, Loads (e.fill (.ofNames names)) (Table.ofNames names).names built final ∧
      t = { built with names := final } := by
  rw [toTable_eq]
  simp only [loads_bind, loads_get, loads_set, loads_pure]
  constructor
  · rintro ⟨_, _, ⟨rfl, rfl⟩, _, _, rfl, built, _, hfill, _, _, ⟨rfl, rfl⟩, ht, rfl⟩
    exact ⟨built, hfill, ht⟩
  · rintro ⟨built, hfill, ht⟩
    exact ⟨_, _, ⟨rfl, rfl⟩, ⟨⟩, _, rfl, built, final, hfill, _, _, ⟨rfl, rfl⟩, ht, rfl⟩

theorem steady_fill (e : EnvironmentEntry) (t : Table) : Steady (e.fill t) :=
  (steady_foldlM steady_declareTrait _ _).bind fun _ =>
    (steady_foldlM steady_declareType _ _).bind fun _ =>
      (steady_foldlM steady_completeType _ _).bind fun _ =>
        (steady_foldlM steady_completeTrait _ _).bind fun _ =>
          steady_foldlM steady_addDefault _ _

/-- The five parts, under settled names. -/
theorem loads_fill_steady (h : Loads (e.fill t) names u names) : ∃ t₁ t₂ t₃ t₄,
    Loads (e.traits.foldlM declareTrait t) names t₁ names ∧
    Loads (e.types.foldlM declareType t₁) names t₂ names ∧
    Loads (e.types.foldlM completeType t₂) names t₃ names ∧
    Loads (e.traits.foldlM completeTrait t₃) names t₄ names ∧
    Loads (e.literalDefaults.foldlM addDefault t₄) names u names := by
  have hdefaults := fun t => steady_foldlM steady_addDefault e.literalDefaults t
  have htraits := fun t => (steady_foldlM steady_completeTrait e.traits t).bind hdefaults
  have htypes := fun t => (steady_foldlM steady_completeType e.types t).bind htraits
  have hdeclared := fun t => (steady_foldlM steady_declareType e.types t).bind htypes
  obtain ⟨t₁, h₁, h⟩ := (loads_bind_steady (steady_foldlM steady_declareTrait _ _) hdeclared).1 h
  obtain ⟨t₂, h₂, h⟩ := (loads_bind_steady (steady_foldlM steady_declareType _ _) htypes).1 h
  obtain ⟨t₃, h₃, h⟩ := (loads_bind_steady (steady_foldlM steady_completeType _ _) htraits).1 h
  obtain ⟨t₄, h₄, h₅⟩ := (loads_bind_steady (steady_foldlM steady_completeTrait _ _) hdefaults).1 h
  exact ⟨t₁, t₂, t₃, t₄, h₁, h₂, h₃, h₄, h₅⟩

theorem Renamed.built (h : Renamed names known t t') : t.Built := by
  obtain ⟨ρ, hρ⟩ := NameTable.exists_matches names known
  exact (h ρ hρ).built

/-- Before anything is declared there is only the name of the type itself. -/
theorem renamed_ofNames (hnames : (Table.ofNames names).names.texts <+: final.texts) :
    Renamed final (Table.ofNames names).names (.ofNames names) (.ofNames names) := fun _ hρ =>
  { injective := hρ.injective
    built := .ofNames names
    selfName := (hρ.same "Self" _ _ ((names.knows_intern "Self").mono hnames)
      (names.knows_intern "Self")).symm
    traits := rfl
    types := .nil
    literalDefaults := rfl }

/-- **Another order of the types is followed** from settled names: what is loaded in the one order
is loaded in the other, under its own names. -/
theorem fill_follow (hperm : e.types.Perm types) (ht : Renamed names known t t)
    (h : Loads (e.fill t) names u names) :
    ∃ u' known', Loads (({ e with types := types } : EnvironmentEntry).fill t) known u' known' ∧
      Step names known names known' ∧ Renamed names known' u u' := by
  obtain ⟨t₁, t₂, t₃, t₄, h₁, h₂, h₃, h₄, h₅⟩ := loads_fill_steady h
  obtain ⟨t₁', known₁, hload₁, hstep₁, ht₁⟩ :=
    follows_foldlM e.traits (fun e _ _ _ _ _ ht => follows_declareTrait ht e) ht t₁ names h₁
  -- The first run declares the types in the other order.
  obtain ⟨hdistinct, types₂, hperm₂, h₂'⟩ := loads_declareTypes_perm hperm h₂
  have hadvances := advances_foldlM (fun _ _ _ _ _ h => (loads_declareType h).1) h₂
  have hbuilt₂ : t₂.Built := hadvances.table.built (Renamed.built ht₁)
  obtain ⟨t₂', known₂, hload₂, hstep₂, ht₂⟩ :=
    follows_foldlM types (fun e _ _ _ _ _ ht => follows_declareType ht e) ht₁ _ names h₂'
  have ht₂ : Renamed names known₂ t₂ t₂' := fun ρ hρ => (ht₂ ρ hρ).of_perm hperm₂ hbuilt₂
  -- So it completes them.
  have h₃' := loads_completeTypes_perm hperm hdistinct hbuilt₂ h₃
  obtain ⟨t₃', known₃, hload₃, hstep₃, ht₃⟩ :=
    follows_foldlM types (fun e _ _ _ _ _ ht => follows_completeType ht e) ht₂ t₃ names h₃'
  obtain ⟨t₄', known₄, hload₄, hstep₄, ht₄⟩ :=
    follows_foldlM e.traits (fun e _ _ _ _ _ ht => follows_completeTrait ht e) ht₃ t₄ names h₄
  obtain ⟨u', known₅, hload₅, hstep₅, hu⟩ := follows_foldlM e.literalDefaults
    (fun entry _ _ _ _ _ ht => follows_addDefault ht entry) ht₄ u names h₅
  refine ⟨u', known₅, ?_, hstep₁.trans (hstep₂.trans (hstep₃.trans (hstep₄.trans hstep₅))), hu⟩
  exact loads_bind.2 ⟨t₁', known₁, hload₁, loads_bind.2 ⟨t₂', known₂, hload₂, loads_bind.2
    ⟨t₃', known₃, hload₃, loads_bind.2 ⟨t₄', known₄, hload₄, hload₅⟩⟩⟩⟩

theorem toTable_follow (hperm : e.types.Perm types) (h : Loads e.toTable names t final) :
    ∃ t' final', Loads ({ e with types := types } : EnvironmentEntry).toTable names t' final' ∧
      final'.texts ⊆ final.texts ∧ ∃ built built' : Table, t = { built with names := final } ∧
        t' = { built' with names := final' } ∧ Renamed final final' built built' := by
  obtain ⟨built, hfill, ht⟩ := loads_toTable_iff.1 h
  obtain ⟨hadded, hagain⟩ := steady_fill e _ _ _ _ hfill
  obtain ⟨built', final', hfill', hstep, hbuilt⟩ :=
    fill_follow hperm (renamed_ofNames hadded) (hagain final List.prefix_rfl)
  refine ⟨_, final', loads_toTable_iff.2 ⟨built', hfill', rfl⟩, fun text htext => ?_, built, built',
    ht, rfl, hbuilt⟩
  exact (hstep.learnt text htext).elim (hadded.subset ·) id

end Workspace

/-! ### The same answers -/

namespace Table

variable {t t' : Table} {ρ : Name → Name}

/-- The answers of the second table are those of the first one under other names, member by member
in the same order. -/
structure SameAnswers (ρ : Name → Name) (t t' : Table) : Prop where
  conforms : ∀ a trait, t'.conforms (a.rename ρ) (ρ trait) = t.conforms a trait
  supertypes : ∀ a, t'.supertypes (a.rename ρ) = (t.supertypes a).map (Ty.rename ρ)
  members : ∀ head args member,
    t'.members (.nominal (ρ head) (args.map (Ty.rename ρ))) (ρ member) =
      (t.members (.nominal head args) member).map (Candidate.rename ρ)
  literalDefault : ∀ kind, t'.literalDefault kind = (t.literalDefault kind).map (Ty.rename ρ)

/-- The tables know the same texts, and give the same answers if names are compared by them. -/
structure Agrees (t t' : Table) : Prop where
  texts : ∀ text, text ∈ t.names.texts ↔ text ∈ t'.names.texts
  corresponds : ∃ ρ, t.names.Matches t'.names ρ
  answers : ∀ ρ, t.names.Matches t'.names ρ → t.SameAnswers ρ t'

theorem Renames.sameAnswers (h : t.Renames ρ t') {names known : NameTable}
    (hρ : names.Matches known ρ) (htexts : ∀ text, text ∈ names.texts ↔ text ∈ known.texts) :
    SameAnswers ρ { t with names := names } { t' with names := known } where
  conforms := h.conforms fun _ _ => hρ.knows_iff htexts
  supertypes := h.supertypes
  members head args member := by
    rw [members_unread known t'.literalDefaults, members_unread names t.literalDefaults]
    exact h.members_nominal head args member
  literalDefault := h.literalDefault

end Table

namespace Workspace

/-- **Types may be listed in any order.** An environment is accepted or refused in any order of its
types, and the tables agree. -/
theorem toTable_perm {e : EnvironmentEntry} {types : List TypeEntry} (hperm : e.types.Perm types)
    (names : NameTable) :
    let e' : EnvironmentEntry := { e with types := types }
    ((∃ t final, e.toTable.run.run names = (.ok t, final)) ↔
      ∃ t' final', e'.toTable.run.run names = (.ok t', final')) ∧
    ∀ t final t' final', e.toTable.run.run names = (.ok t, final) →
      e'.toTable.run.run names = (.ok t', final') → t.Agrees t' := by
  intro e'
  refine ⟨⟨?_, ?_⟩, ?_⟩
  · rintro ⟨t, final, h⟩
    obtain ⟨t', final', h', -⟩ := toTable_follow hperm h
    exact ⟨t', final', h'⟩
  · rintro ⟨t', final', h'⟩
    obtain ⟨t, final, h, -⟩ := toTable_follow (e := e') hperm.symm h'
    exact ⟨t, final, h⟩
  · intro t final t' final' h h'
    obtain ⟨_, _, hload', hleft, built, built', rfl, rfl, hbuilt⟩ := toTable_follow hperm h
    obtain ⟨ht', rfl⟩ := Prod.mk.inj (hload'.symm.trans h')
    obtain rfl := Except.ok.inj ht'
    obtain ⟨_, _, hload, hright, -⟩ := toTable_follow (e := e') hperm.symm h'
    obtain ⟨-, rfl⟩ := Prod.mk.inj (hload.symm.trans h)
    have htexts : ∀ text, text ∈ _ ↔ text ∈ _ := fun text => ⟨@hright text, @hleft text⟩
    exact ⟨htexts, NameTable.exists_matches _ _, fun ρ hρ => (hbuilt ρ hρ).sameAnswers hρ htexts⟩

/-- A type may be listed before its supertype, whose name then has another handle. -/
theorem toTable_perm_swapped :
    let a : TypeEntry := ⟨"A", ["T"], ["P"], [], [⟨some "x", 1, "B", [], 0⟩]⟩
    let b : TypeEntry := ⟨"B", [], [], ["A<any P>"], []⟩
    let e : EnvironmentEntry :=
      { traits := [⟨"P", [], []⟩], types := [a, b], literalDefaults := [("integer", "B")] }
    let e' : EnvironmentEntry := { e with types := [b, a] }
    ∃ t final t' final', e.toTable.run.run .empty = (.ok t, final) ∧
      e'.toTable.run.run .empty = (.ok t', final') ∧
      t.names.get? "B" ≠ t'.names.get? "B" ∧ t.Agrees t' := by
  intro a b e e'
  have hrun : (e.toTable.run.run .empty).1.toOption.any
      (fun t => t.names.get? "B" == some ⟨4⟩) = true := by decide +kernel
  have hrun' : (e'.toTable.run.run .empty).1.toOption.any
      (fun t => t.names.get? "B" == some ⟨2⟩) = true := by decide +kernel
  obtain ⟨t, final, hload, hname⟩ := Load.exists_loaded hrun
  obtain ⟨t', final', hload', hname'⟩ := Load.exists_loaded hrun'
  refine ⟨t, final, t', final', hload, hload', ?_, ?_⟩
  · rw [beq_iff_eq.1 hname, beq_iff_eq.1 hname']
    decide
  · exact (toTable_perm (e := e) (.swap b a []) .empty).2 t final t' final' hload hload'

end Workspace
end TypeResolution
