/-
# Loading under other names

A step of loading is steady: once the names at its end are known, it comes to the same again and
adds none (`Workspace.Steady`). So a whole run of loading can be repeated under the names of its end,
which stay as they are, and then a step does nothing but change the table.

Under other names a step follows itself: what it loads is renamed, and so is the table that it
leaves (`Workspace.Follows`). Each step of an environment does so, as it interns names, reads types
and asks the table for what is the same for a renamed table.

Key definitions: `Workspace.complete`, `Workspace.Steady`, `Workspace.Follows`.
Key theorems: `Workspace.Steady.bind`, `Workspace.Follows.bind`, `Workspace.follows_type`,
`Workspace.follows_declare`, `Workspace.follows_completeType`.
-/
import TypeResolution.Proofs.Notation.Correspondence
import TypeResolution.Proofs.Table.Operations
import TypeResolution.Proofs.Workspace.Declarations

namespace TypeResolution
namespace Workspace

open NameTable (Step)

variable {α β γ δ : Type} {names names' known : NameTable} {scope scope' : List Name}

/-! ### The parts of a type entry -/

/-- Gives a type its conformances. -/
def addConformances (head : Name) (t : Table) (texts : List String) : Load Table :=
  texts.foldlM (fun t trait => do
    Load.declare (t.addConformance head (← Load.intern trait))) t

/-- Gives a type its supertypes, in which its parameters are in scope. -/
def addSupertypes (head : Name) (params : List Name) (t : Table) (texts : List String) :
    Load Table :=
  texts.foldlM (fun t text => do
    Load.declare (t.addSupertype head (← Load.type params text))) t

/-- Gives a type a member, in which its parameters are in scope. -/
def addMember (head : Name) (params : List Name) (t : Table) (d : DeclEntry) : Load Table := do
  let member ← d.memberName
  Load.declare (t.addMember head member (← d.toCandidate params))

/-- Gives a type all that its entry lists. -/
def complete (head : Name) (params : List Name) (t : Table) (e : TypeEntry) : Load Table := do
  let t ← addConformances head t e.conforms
  let t ← addSupertypes head params t e.supertypes
  e.members.foldlM (addMember head params) t

theorem completeType_eq (t : Table) (e : TypeEntry) : completeType t e = (do
    let head ← Load.intern e.name
    let params ← Load.internAll e.params
    complete head params t e) := rfl

/-! ### Steadiness -/

/-- What is loaded is loaded again under the names at the end, and then no name is added. -/
def Steady (m : Load α) : Prop :=
  ∀ names a names', Loads m names a names' → names.texts <+: names'.texts ∧
    ∀ final : NameTable, names'.texts <+: final.texts → Loads m final a final

theorem steady_pure (a : α) : Steady (pure a : Load α) := by
  intro names a' names' h
  obtain ⟨rfl, rfl⟩ := loads_pure.1 h
  exact ⟨List.prefix_rfl, fun final _ => loads_pure.2 ⟨rfl, rfl⟩⟩

theorem Steady.bind {m : Load α} {f : α → Load β} (hm : Steady m) (hf : ∀ a, Steady (f a)) :
    Steady (m >>= f) := by
  intro names b names' h
  obtain ⟨a, names₁, hfirst, hrest⟩ := loads_bind.1 h
  obtain ⟨hadded, hagain⟩ := hm _ _ _ hfirst
  obtain ⟨hadded', hagain'⟩ := hf a _ _ _ hrest
  exact ⟨hadded.trans hadded', fun final hfinal =>
    loads_bind.2 ⟨a, final, hagain final (hadded'.trans hfinal), hagain' final hfinal⟩⟩

theorem steady_intern (text : String) : Steady (Load.intern text) := by
  intro names name names' h
  obtain ⟨hadded, hknows⟩ := knows_of_loads_intern h
  exact ⟨hadded, fun final hfinal => loads_intern.2 (hknows.mono hfinal).intern⟩

theorem steady_internAll (texts : List String) : Steady (Load.internAll texts) := by
  intro names ns names' h
  obtain ⟨hadded, hknows⟩ := knows_of_loads_internAll h
  exact ⟨hadded, fun final hfinal => loads_internAll.2 (hknows.mono hfinal).internAll⟩

theorem steady_type (scope : List Name) (text : String) : Steady (Load.type scope text) := by
  intro names type names' h
  have hread := loads_type.1 h
  exact ⟨Notation.readType_isPrefix hread, fun final hfinal =>
    loads_type.2 (Notation.readType_again hread hfinal)⟩

theorem steady_literal (keyword : String) : Steady (Load.literal keyword) := by
  unfold Load.literal
  split
  · exact steady_pure _
  · exact fun _ _ _ h => absurd h not_loads_throw

theorem steady_declare (result : Except TableError Table) : Steady (Load.declare result) := by
  intro names t names' h
  obtain ⟨hok, rfl⟩ := loads_declare.1 h
  exact ⟨List.prefix_rfl, fun final _ => loads_declare.2 ⟨hok, rfl⟩⟩

theorem steady_mapM {f : α → Load β} (hf : ∀ a, Steady (f a)) : ∀ as : List α, Steady (as.mapM f)
  | [] => steady_pure _
  | a :: as => by
    rw [List.mapM_cons]
    exact (hf a).bind fun b => (steady_mapM hf as).bind fun bs => steady_pure _

theorem steady_foldlM {step : α → β → Load α} (hstep : ∀ a b, Steady (step a b)) :
    ∀ (bs : List β) (a : α), Steady (bs.foldlM step a)
  | [], a => steady_pure a
  | b :: bs, a => by
    rw [List.foldlM_cons]
    exact (hstep a b).bind fun a' => steady_foldlM hstep bs a'

theorem steady_toParam (g : GenericEntry) : Steady g.toParam :=
  (steady_intern _).bind fun _ => (steady_internAll _).bind fun _ => steady_pure _

theorem steady_toCandidate (scope : List Name) (d : DeclEntry) : Steady (d.toCandidate scope) :=
  (steady_mapM steady_toParam _).bind fun _ => (steady_type _ _).bind fun _ => steady_pure _

theorem steady_declareTrait (t : Table) (e : TraitEntry) : Steady (declareTrait t e) :=
  (steady_internAll _).bind fun _ => (steady_intern _).bind fun _ => steady_declare _

theorem steady_declareType (t : Table) (e : TypeEntry) : Steady (declareType t e) :=
  (steady_internAll _).bind fun _ => (steady_intern _).bind fun _ => steady_declare _

theorem steady_addConformances (head : Name) (t : Table) (texts : List String) :
    Steady (addConformances head t texts) :=
  steady_foldlM (fun _ _ => (steady_intern _).bind fun _ => steady_declare _) _ _

theorem steady_addSupertypes (head : Name) (params : List Name) (t : Table) (texts : List String) :
    Steady (addSupertypes head params t texts) :=
  steady_foldlM (fun _ _ => (steady_type _ _).bind fun _ => steady_declare _) _ _

theorem steady_addMember (head : Name) (params : List Name) (t : Table) (d : DeclEntry) :
    Steady (addMember head params t d) :=
  (steady_intern _).bind fun _ => (steady_toCandidate _ _).bind fun _ => steady_declare _

theorem steady_complete (head : Name) (params : List Name) (t : Table) (e : TypeEntry) :
    Steady (complete head params t e) :=
  (steady_addConformances _ _ _).bind fun _ => (steady_addSupertypes _ _ _ _).bind fun _ =>
    steady_foldlM (steady_addMember _ _) _ _

theorem steady_completeType (t : Table) (e : TypeEntry) : Steady (completeType t e) :=
  (steady_intern _).bind fun _ => (steady_internAll _).bind fun _ => steady_complete _ _ _ _

theorem steady_completeTrait (t : Table) (e : TraitEntry) : Steady (completeTrait t e) :=
  (steady_intern _).bind fun _ => steady_foldlM (fun _ _ => (steady_toCandidate _ _).bind fun _ =>
    (steady_intern _).bind fun _ => steady_declare _) _ _

theorem steady_addDefault (t : Table) (entry : String × String) : Steady (addDefault t entry) :=
  (steady_literal _).bind fun _ => (steady_type _ _).bind fun _ => steady_pure _

/-- Steps between the same names leave these names in between. -/
theorem loads_bind_steady {m : Load α} {f : α → Load β} {b : β} (hm : Steady m)
    (hf : ∀ a, Steady (f a)) :
    Loads (m >>= f) names b names ↔ ∃ a, Loads m names a names ∧ Loads (f a) names b names := by
  rw [loads_bind]
  constructor
  · rintro ⟨a, names₁, hfirst, hrest⟩
    obtain ⟨hadded, hagain⟩ := hm _ _ _ hfirst
    obtain ⟨hadded', hagain'⟩ := hf a _ _ _ hrest
    exact ⟨a, hagain names hadded', hagain' names List.prefix_rfl⟩
  · rintro ⟨a, hfirst, hrest⟩
    exact ⟨a, names, hfirst, hrest⟩

/-! ### Following -/

/-- What the first program loads the second one loads under other names, with a value that is
related to the first one's by the renamings between the names at the end. -/
def Follows (A : (Name → Name) → α → β → Prop) (names known : NameTable) (m : Load α)
    (m' : Load β) : Prop :=
  ∀ a names', Loads m names a names' → ∃ b known', Loads m' known b known' ∧
    Step names known names' known' ∧ ∀ ρ, names'.Matches known' ρ → A ρ a b

variable {A : (Name → Name) → α → β → Prop} {B : (Name → Name) → γ → δ → Prop}

theorem follows_pure {a : α} {b : β} (h : ∀ ρ, names.Matches known ρ → A ρ a b) :
    Follows A names known (pure a) (pure b) := by
  intro a' names' hload
  obtain ⟨rfl, rfl⟩ := loads_pure.1 hload
  exact ⟨b, known, loads_pure.2 ⟨rfl, rfl⟩, .refl _ _, h⟩

theorem Follows.bind {m : Load α} {m' : Load β} {f : α → Load γ} {f' : β → Load δ}
    (h : Follows A names known m m')
    (hf : ∀ a b names₁ known₁, Step names known names₁ known₁ →
      (∀ ρ, names₁.Matches known₁ ρ → A ρ a b) → Follows B names₁ known₁ (f a) (f' b)) :
    Follows B names known (m >>= f) (m' >>= f') := by
  intro c names' hload
  obtain ⟨a, names₁, hfirst, hrest⟩ := loads_bind.1 hload
  obtain ⟨b, known₁, hfirst', hstep, hab⟩ := h a names₁ hfirst
  obtain ⟨d, known', hrest', hstep', hcd⟩ := hf a b names₁ known₁ hstep hab c names' hrest
  exact ⟨d, known', loads_bind.2 ⟨b, known₁, hfirst', hrest'⟩, hstep.trans hstep', hcd⟩

theorem follows_intern (text : String) :
    Follows (fun ρ n m => ρ n = m) names known (Load.intern text) (Load.intern text) := by
  intro name names' h
  have hintern := loads_intern.1 h
  have hstep := NameTable.step_intern names known text
  refine ⟨_, _, loads_intern.2 rfl, ?_, fun ρ hρ => ?_⟩
  · rwa [hintern] at hstep
  · have hname := fun h : (names.intern text).2.Matches (known.intern text).2 ρ => h.intern
    rw [hintern] at hname
    exact hname hρ

theorem follows_internAll : ∀ {names known : NameTable} (texts : List String),
    Follows (fun ρ ns ms => ns.map ρ = ms) names known (Load.internAll texts)
      (Load.internAll texts)
  | names, known, [] => by
    intro ns names' h
    obtain ⟨rfl, rfl⟩ := Prod.mk.inj (loads_internAll.1 h)
    exact ⟨_, _, loads_internAll.2 rfl, .refl _ _, fun _ _ => rfl⟩
  | names, known, text :: texts => by
    intro ns names' h
    obtain ⟨rfl, rfl⟩ := Prod.mk.inj (loads_internAll.1 h)
    obtain ⟨ms, known', hload, hstep, hrest⟩ :=
      @follows_internAll (names.intern text).2 (known.intern text).2 texts _ _
        (loads_internAll.2 rfl)
    have hintern := loads_internAll.1 hload
    refine ⟨(known.intern text).1 :: ms, known', loads_internAll.2 ?_,
      (NameTable.step_intern names known text).trans hstep, fun ρ hρ => ?_⟩
    · unfold NameTable.internAll
      dsimp only
      rw [hintern]
    · exact congrArg₂ List.cons (hstep.before hρ).intern (hrest ρ hρ)

theorem follows_type (text : String) (hscope : ∀ ρ, names.Matches known ρ → scope.map ρ = scope') :
    Follows (fun ρ t t' => t.rename ρ = t') names known (Load.type scope text)
      (Load.type scope' text) := by
  intro t names' h
  obtain ⟨known', hstep, hread⟩ := Notation.readType_follow (loads_type.1 h) hscope
  -- All matching renamings lead to the one type that is read; any of them tells which.
  obtain ⟨ρ₀, hρ₀⟩ := NameTable.exists_matches names' known'
  refine ⟨t.rename ρ₀, known', loads_type.2 (hread ρ₀ hρ₀), hstep, fun ρ hρ => ?_⟩
  exact Except.ok.inj (Prod.mk.inj ((hread ρ hρ).symm.trans (hread ρ₀ hρ₀))).1

theorem follows_literal (keyword : String) :
    Follows (fun _ k k' => k = k') names known (Load.literal keyword) (Load.literal keyword) := by
  unfold Load.literal
  split
  · exact follows_pure fun _ _ => rfl
  · exact fun _ _ h => absurd h not_loads_throw

theorem follows_mapM {ren : (Name → Name) → β → β} {f : α → Load β}
    (hf : ∀ a names known, Follows (fun ρ b b' => ren ρ b = b') names known (f a) (f a)) :
    ∀ {names known : NameTable} (as : List α),
      Follows (fun ρ bs bs' => bs.map (ren ρ) = bs') names known (as.mapM f) (as.mapM f)
  | names, known, [] => follows_pure fun _ _ => rfl
  | names, known, a :: as => by
    rw [List.mapM_cons]
    refine (hf a names known).bind fun b b' names₁ known₁ _ hb => ?_
    refine (follows_mapM hf as).bind fun bs bs' names₂ known₂ hstep hbs => ?_
    exact follows_pure fun ρ hρ => congrArg₂ List.cons (hb ρ (hstep.before hρ)) (hbs ρ hρ)

/-! ### Tables that follow -/

variable {t t' : Table}

/-- The second table is the first one under the new names. -/
abbrev Renamed (names known : NameTable) (t t' : Table) : Prop :=
  ∀ ρ, names.Matches known ρ → t.Renames ρ t'

theorem Renamed.step {names₁ known₁ : NameTable} (h : Renamed names known t t')
    (hstep : Step names known names₁ known₁) : Renamed names₁ known₁ t t' :=
  fun ρ hρ => h ρ (hstep.before hρ)

/-- **A declaration is let in under other names as well.** -/
theorem follows_declare (op op' : Table.Operation) (ht : Renamed names known t t')
    (hop : ∀ ρ, names.Matches known ρ → op.rename ρ = op') :
    Follows (fun ρ u u' => u.Renames ρ u') names known (Load.declare (op.on t))
      (Load.declare (op'.on t')) := by
  intro u names' h
  obtain ⟨hok, rfl⟩ := loads_declare.1 h
  obtain ⟨ρ₀, hρ₀⟩ := NameTable.exists_matches names' known
  obtain ⟨u', hok', -⟩ := (ht ρ₀ hρ₀).on hok
  rw [hop ρ₀ hρ₀] at hok'
  refine ⟨u', known, loads_declare.2 ⟨hok', rfl⟩, .refl _ _, fun ρ hρ => ?_⟩
  obtain ⟨u'', hok'', hrenames⟩ := (ht ρ hρ).on hok
  rw [hop ρ hρ, hok'] at hok''
  obtain rfl := Except.ok.inj hok''
  exact hrenames

/-- A fold over entries follows if each of its steps does. -/
theorem follows_foldlM {step step' : Table → β → Load Table} :
    ∀ {names known : NameTable} {t t' : Table} (bs : List β),
      (∀ b names₁ known₁ t t', Step names known names₁ known₁ → Renamed names₁ known₁ t t' →
        Follows (fun ρ u u' => u.Renames ρ u') names₁ known₁ (step t b) (step' t' b)) →
      Renamed names known t t' →
      Follows (fun ρ u u' => u.Renames ρ u') names known (bs.foldlM step t) (bs.foldlM step' t')
  | names, known, t, t', [], _, ht => follows_pure ht
  | names, known, t, t', b :: bs, hstep, ht => by
    rw [List.foldlM_cons, List.foldlM_cons]
    refine (hstep b names known t t' (.refl _ _) ht).bind fun u u' names₁ known₁ hstep₁ hu => ?_
    exact follows_foldlM bs (fun b names₂ known₂ t t' hstep₂ ht =>
      hstep b names₂ known₂ t t' (hstep₁.trans hstep₂) ht) hu

/-! ### Entries that follow -/

theorem follows_toParam (g : GenericEntry) (names known : NameTable) :
    Follows (fun ρ p p' => p.rename ρ = p') names known g.toParam g.toParam := by
  refine (follows_intern _).bind fun name name' names₁ known₁ _ hname => ?_
  refine (follows_internAll _).bind fun bounds bounds' names₂ known₂ hstep hbounds => ?_
  exact follows_pure fun ρ hρ =>
    congrArg₂ GenericParam.mk (hname ρ (hstep.before hρ)) (hbounds ρ hρ)

/-- A declaration is loaded as the renamed declaration. -/
theorem follows_toCandidate (d : DeclEntry)
    (hscope : ∀ ρ, names.Matches known ρ → scope.map ρ = scope') :
    Follows (fun ρ c c' => c.rename ρ = c') names known (d.toCandidate scope)
      (d.toCandidate scope') := by
  refine (follows_mapM follows_toParam _).bind fun gs gs' names₁ known₁ hstep hgs => ?_
  have hnames : ∀ ρ, names₁.Matches known₁ ρ →
      (scope ++ gs.map (·.name)).map ρ = scope' ++ gs'.map (·.name) := by
    intro ρ hρ
    rw [← hgs ρ hρ, List.map_append, hscope ρ (hstep.before hρ), List.map_map, List.map_map]
    rfl
  refine (follows_type _ hnames).bind fun type type' names₂ known₂ hstep' htype => ?_
  refine follows_pure fun ρ hρ => ?_
  rw [← htype ρ hρ, ← hgs ρ (hstep'.before hρ)]
  rfl

section Tables

variable (ht : Renamed names known t t')
include ht

theorem follows_declareTrait (e : TraitEntry) :
    Follows (fun ρ u u' => u.Renames ρ u') names known (declareTrait t e) (declareTrait t' e) := by
  refine (follows_internAll _).bind fun refines refines' names₁ known₁ hstep hrefines => ?_
  refine (follows_intern _).bind fun name name' names₂ known₂ hstep' hname => ?_
  refine follows_declare (.declareTrait name refines) (.declareTrait name' refines')
    (ht.step (hstep.trans hstep')) fun ρ hρ => ?_
  exact congrArg₂ Table.Operation.declareTrait (hname ρ hρ) (hrefines ρ (hstep'.before hρ))

theorem follows_declareType (e : TypeEntry) :
    Follows (fun ρ u u' => u.Renames ρ u') names known (declareType t e) (declareType t' e) := by
  refine (follows_internAll _).bind fun params params' names₁ known₁ hstep hparams => ?_
  refine (follows_intern _).bind fun name name' names₂ known₂ hstep' hname => ?_
  refine follows_declare (.declareType name params) (.declareType name' params')
    (ht.step (hstep.trans hstep')) fun ρ hρ => ?_
  exact congrArg₂ Table.Operation.declareType (hname ρ hρ) (hparams ρ (hstep'.before hρ))

section Parts

variable {head head' : Name} {params params' : List Name}
  (hhead : ∀ ρ, names.Matches known ρ → ρ head = head')
include hhead

theorem follows_addConformances (texts : List String) :
    Follows (fun ρ u u' => u.Renames ρ u') names known (addConformances head t texts)
      (addConformances head' t' texts) := by
  refine follows_foldlM _ ?_ ht
  intro text names₁ known₁ t t' hstep ht
  refine (follows_intern _).bind fun trait trait' names₂ known₂ hstep' htrait => ?_
  refine follows_declare (.addConformance head trait) (.addConformance head' trait')
    (ht.step hstep') fun ρ hρ => ?_
  exact congrArg₂ Table.Operation.addConformance (hhead ρ ((hstep.trans hstep').before hρ))
    (htrait ρ hρ)

variable (hparams : ∀ ρ, names.Matches known ρ → params.map ρ = params')
include hparams

theorem follows_addSupertypes (texts : List String) :
    Follows (fun ρ u u' => u.Renames ρ u') names known (addSupertypes head params t texts)
      (addSupertypes head' params' t' texts) := by
  refine follows_foldlM _ ?_ ht
  intro text names₁ known₁ t t' hstep ht
  refine (follows_type _ fun ρ hρ => hparams ρ (hstep.before hρ)).bind
    fun sup sup' names₂ known₂ hstep' hsup => ?_
  refine follows_declare (.addSupertype head sup) (.addSupertype head' sup')
    (ht.step hstep') fun ρ hρ => ?_
  exact congrArg₂ Table.Operation.addSupertype (hhead ρ ((hstep.trans hstep').before hρ))
    (hsup ρ hρ)

theorem follows_addMember (d : DeclEntry) :
    Follows (fun ρ u u' => u.Renames ρ u') names known (addMember head params t d)
      (addMember head' params' t' d) := by
  refine (follows_intern _).bind fun member member' names₁ known₁ hstep hmember => ?_
  refine (follows_toCandidate d fun ρ hρ => hparams ρ (hstep.before hρ)).bind
    fun c c' names₂ known₂ hstep' hc => ?_
  refine follows_declare (.addMember head member c) (.addMember head' member' c')
    (ht.step (hstep.trans hstep')) fun ρ hρ => ?_
  show Table.Operation.addMember (ρ head) (ρ member) (c.rename ρ) = _
  rw [hhead ρ ((hstep.trans hstep').before hρ), hmember ρ (hstep'.before hρ), hc ρ hρ]

/-- All that an entry lists is said of a renamed type under other names. -/
theorem follows_complete (e : TypeEntry) :
    Follows (fun ρ u u' => u.Renames ρ u') names known (complete head params t e)
      (complete head' params' t' e) := by
  refine (follows_addConformances ht hhead _).bind fun t₁ t₁' names₁ known₁ hstep ht₁ => ?_
  have hhead₁ := fun ρ hρ => hhead ρ (hstep.before hρ)
  have hparams₁ := fun ρ hρ => hparams ρ (hstep.before hρ)
  refine (follows_addSupertypes ht₁ hhead₁ hparams₁ _).bind
    fun t₂ t₂' names₂ known₂ hstep' ht₂ => ?_
  refine follows_foldlM _ ?_ ht₂
  intro d names₃ known₃ t t' hstep'' ht
  exact follows_addMember ht (fun ρ hρ => hhead₁ ρ ((hstep'.trans hstep'').before hρ))
    (fun ρ hρ => hparams₁ ρ ((hstep'.trans hstep'').before hρ)) d

end Parts

/-- **A type is completed under other names.** -/
theorem follows_completeType (e : TypeEntry) :
    Follows (fun ρ u u' => u.Renames ρ u') names known (completeType t e) (completeType t' e) := by
  refine (follows_intern _).bind fun head head' names₁ known₁ hstep hhead => ?_
  refine (follows_internAll _).bind fun params params' names₂ known₂ hstep' hparams => ?_
  exact follows_complete (ht.step (hstep.trans hstep')) (fun ρ hρ => hhead ρ (hstep'.before hρ))
    hparams e

/-- The requirements of a trait are declared under other names. -/
theorem follows_completeTrait (e : TraitEntry) :
    Follows (fun ρ u u' => u.Renames ρ u') names known (completeTrait t e)
      (completeTrait t' e) := by
  refine (follows_intern _).bind fun trait trait' names₁ known₁ hstep htrait => ?_
  refine follows_foldlM _ ?_ (ht.step hstep)
  intro d names₂ known₂ t t' hstep₂ ht
  have hself : ∀ ρ, names₂.Matches known₂ ρ → [t.selfName].map ρ = [t'.selfName] :=
    fun ρ hρ => congrArg (fun n => [n]) (ht ρ hρ).selfName.symm
  refine (follows_toCandidate d hself).bind fun c c' names₃ known₃ hstep₃ hc => ?_
  refine (follows_intern _).bind fun member member' names₄ known₄ hstep₄ hmember => ?_
  refine follows_declare (.addRequirement trait member c.decl c.type)
    (.addRequirement trait' member' c'.decl c'.type)
    (ht.step (hstep₃.trans hstep₄)) fun ρ hρ => ?_
  show Table.Operation.addRequirement (ρ trait) (ρ member) c.decl (c.type.rename ρ) = _
  rw [htrait ρ (((hstep₂.trans hstep₃).trans hstep₄).before hρ), hmember ρ hρ,
    ← hc ρ (hstep₄.before hρ)]
  rfl

theorem follows_addDefault (entry : String × String) :
    Follows (fun ρ u u' => u.Renames ρ u') names known (addDefault t entry)
      (addDefault t' entry) := by
  refine (follows_literal _).bind fun kind kind' names₁ known₁ hstep hkind => ?_
  obtain ⟨ρ₀, hρ₀⟩ := NameTable.exists_matches names₁ known₁
  obtain rfl := hkind ρ₀ hρ₀
  refine (follows_type _ fun _ _ => rfl).bind fun type type' names₂ known₂ hstep' htype => ?_
  refine follows_pure fun ρ hρ => ?_
  have hset : (Table.Operation.setLiteralDefault kind type).on t =
    .ok (t.setLiteralDefault kind type) := rfl
  obtain ⟨u', hok, hu⟩ := (ht.step (hstep.trans hstep') ρ hρ).on hset
  rw [← htype ρ hρ]
  obtain rfl := Except.ok.inj hok
  exact hu

end Tables

end Workspace
end TypeResolution
