/-
# Steps of loading

What each step of loading does when it succeeds: the value that it gives, and the names that it
leaves. Loading goes on from a table and from names, and both only grow (`Workspace.Advances`). A
fold over entries takes one such step for each; what a step has seen to for its entry is so at the
end too, if it is not lost by growing (`Workspace.loads_foldlM`).

Key definitions: `Workspace.Loads`, `Workspace.Advances`.
Key theorems: `Workspace.loads_bind`, `Workspace.loads_type`, `Workspace.loads_declare`,
`Workspace.loads_foldlM`, `Workspace.loads_mapM`.
-/
import TypeResolution.Proofs.Notation.Rereading
import TypeResolution.Proofs.Table.Growth
import TypeResolution.Workspace.Loading

namespace TypeResolution
namespace Workspace

variable {α β : Type} {m : Load α} {f : α → Load β} {a a' : α} {b : β}
variable {names names₁ names' names'' : NameTable} {t t' t'' : Table}

/-- The step succeeds, with a value and the names that it leaves. -/
def Loads (m : Load α) (names : NameTable) (a : α) (names' : NameTable) : Prop :=
  m.run.run names = (.ok a, names')

theorem loads_bind : Loads (m >>= f) names b names' ↔
    ∃ a names₁, Loads m names a names₁ ∧ Loads (f a) names₁ b names' := by
  unfold Loads
  rw [ExceptT.run_bind, StateT.run_bind]
  rcases m.run.run names with ⟨e | a, names₁⟩
  · constructor
    · nofun
    · rintro ⟨a, names₁, h, -⟩
      cases h
  · constructor
    · exact fun h => ⟨a, names₁, rfl, h⟩
    · rintro ⟨a', names₁', h, h'⟩
      cases h
      exact h'

theorem loads_pure : Loads (pure a) names a' names' ↔ a' = a ∧ names' = names := by
  constructor
  · intro h
    obtain ⟨ha, hnames⟩ := Prod.mk.inj h
    exact ⟨(Except.ok.inj ha).symm, hnames.symm⟩
  · rintro ⟨rfl, rfl⟩
    rfl

theorem not_loads_throw {e : LoadError} : ¬ Loads (throw e : Load α) names a names' := nofun

theorem loads_get {known : NameTable} :
    Loads get names known names' ↔ known = names ∧ names' = names := loads_pure

theorem loads_set {known : NameTable} {u : PUnit} :
    Loads (set known) names u names' ↔ names' = known := by
  constructor
  · exact fun h => (Prod.mk.inj h).2.symm
  · rintro rfl
    rfl

theorem loads_intern {text : String} {name : Name} :
    Loads (Load.intern text) names name names' ↔ names.intern text = (name, names') := by
  constructor
  · intro h
    obtain ⟨hname, hnames⟩ := Prod.mk.inj h
    exact Prod.ext (Except.ok.inj hname) hnames
  · intro h
    show (Except.ok (names.intern text).1, (names.intern text).2) = _
    rw [h]

theorem loads_internAll {texts : List String} {ns : List Name} :
    Loads (Load.internAll texts) names ns names' ↔ names.internAll texts = (ns, names') := by
  constructor
  · intro h
    obtain ⟨hname, hnames⟩ := Prod.mk.inj h
    exact Prod.ext (Except.ok.inj hname) hnames
  · intro h
    show (Except.ok (names.internAll texts).1, (names.internAll texts).2) = _
    rw [h]

/-- A text is loaded as the type that is read of it. -/
theorem loads_type {scope : List Name} {text : String} {type : Ty} :
    Loads (Load.type scope text) names type names' ↔
      Notation.readType names scope text = (.ok type, names') := by
  unfold Load.type
  rw [loads_bind]
  constructor
  · rintro ⟨known, names₁, hget, h⟩
    obtain ⟨hknown, hnames₁⟩ := loads_get.1 hget
    rw [hknown, hnames₁] at h
    rcases hread : Notation.readType names scope text with ⟨result, read⟩
    rw [hread] at h
    obtain ⟨u, names₂, hset, h⟩ := loads_bind.1 h
    obtain rfl := loads_set.1 hset
    cases result with
    | error e => exact absurd h not_loads_throw
    | ok type =>
      obtain ⟨rfl, rfl⟩ := loads_pure.1 h
      rfl
  · intro h
    refine ⟨names, names, loads_get.2 ⟨rfl, rfl⟩, ?_⟩
    rw [h]
    exact loads_bind.2 ⟨⟨⟩, names', loads_set.2 rfl, loads_pure.2 ⟨rfl, rfl⟩⟩

theorem loads_declare {result : Except TableError Table} :
    Loads (Load.declare result) names t names' ↔ result = .ok t ∧ names' = names := by
  cases result with
  | error e => exact iff_of_false not_loads_throw fun h => nomatch h.1
  | ok known =>
    refine loads_pure.trans (and_congr_left fun _ => ?_)
    exact ⟨fun h => h ▸ rfl, fun h => (Except.ok.inj h).symm⟩

theorem loads_literal {keyword : String} {kind : LiteralKind}
    (h : Loads (Load.literal keyword) names kind names') : names' = names := by
  unfold Load.literal at h
  split at h
  · exact (loads_pure.1 h).2
  · exact absurd h not_loads_throw

/-! ### Loading goes on -/

/-- Loading has gone on from one table and its names to others. -/
structure Advances (t : Table) (names : NameTable) (t' : Table) (names' : NameTable) : Prop where
  table : t.Grows t'
  names : names.texts <+: names'.texts

theorem Advances.refl (t : Table) (names : NameTable) : Advances t names t names :=
  ⟨.refl t, List.prefix_rfl⟩

theorem Advances.trans (h : Advances t names t' names') (h' : Advances t' names' t'' names'') :
    Advances t names t'' names'' := ⟨h.table.trans h'.table, h.names.trans h'.names⟩

/-- Names are added before the table is changed. -/
theorem Advances.ofNames (h : names.texts <+: names'.texts) : Advances t names t names' :=
  ⟨.refl t, h⟩

/-- A declaration that is not refused. -/
theorem advances_declare (op : Table.Operation)
    (h : Loads (Load.declare (op.on t)) names t' names') :
    op.on t = .ok t' ∧ Advances t names t' names' := by
  obtain ⟨hok, rfl⟩ := loads_declare.1 h
  exact ⟨hok, op.grows hok, List.prefix_rfl⟩

/-- **A fold over entries.** What each step sees to for its entry is so at the end. -/
theorem loads_foldlM {step : Table → β → Load Table} {P : β → Table → NameTable → Prop}
    (hmono : ∀ b t names t' names', P b t names → Advances t names t' names' → P b t' names') :
    ∀ {bs : List β} {t t' : Table} {names names' : NameTable},
      (∀ b ∈ bs, ∀ t₁ names₁ t₂ names₂, Advances t names t₁ names₁ →
        Loads (step t₁ b) names₁ t₂ names₂ → Advances t₁ names₁ t₂ names₂ ∧ P b t₂ names₂) →
      Loads (bs.foldlM step t) names t' names' →
      Advances t names t' names' ∧ ∀ b ∈ bs, P b t' names'
  | [], t, t', names, names', _, h => by
    obtain ⟨rfl, rfl⟩ := loads_pure.1 h
    exact ⟨.refl _ _, nofun⟩
  | b :: bs, t, t', names, names', hstep, h => by
    rw [List.foldlM_cons] at h
    obtain ⟨t₁, names₁, hfirst, hrest⟩ := loads_bind.1 h
    obtain ⟨hadvances, hb⟩ := hstep b List.mem_cons_self t names t₁ names₁ (.refl _ _) hfirst
    obtain ⟨hadvances', hbs⟩ := loads_foldlM hmono (fun c hc t₂ names₂ t₃ names₃ h =>
      hstep c (List.mem_cons_of_mem _ hc) t₂ names₂ t₃ names₃ (hadvances.trans h)) hrest
    exact ⟨hadvances.trans hadvances',
      List.forall_mem_cons.2 ⟨hmono _ _ _ _ _ hb hadvances', hbs⟩⟩

/-- A fold whose steps go on goes on. -/
theorem advances_foldlM {step : Table → β → Load Table}
    (hstep : ∀ b t names t' names', Loads (step t b) names t' names' → Advances t names t' names')
    {bs : List β} (h : Loads (bs.foldlM step t) names t' names') : Advances t names t' names' :=
  (loads_foldlM (P := fun _ _ _ => True) (fun _ _ _ _ _ _ _ => trivial)
    (fun b _ _ _ _ _ _ h => ⟨hstep b _ _ _ _ h, trivial⟩) h).1

/-- A list of entries is loaded one by one. What a step sees to is so with the names at the end. -/
theorem loads_mapM {f : α → Load β} {P : NameTable → α → β → Prop}
    (hmono : ∀ names names' a b, P names a b → names.texts <+: names'.texts → P names' a b)
    (hstep : ∀ names a b names', Loads (f a) names b names' →
      names.texts <+: names'.texts ∧ P names' a b) :
    ∀ {as : List α} {bs : List β} {names names' : NameTable}, Loads (as.mapM f) names bs names' →
      names.texts <+: names'.texts ∧ List.Forall₂ (P names') as bs
  | [], bs, names, names', h => by
    obtain ⟨rfl, rfl⟩ := loads_pure.1 h
    exact ⟨List.prefix_rfl, .nil⟩
  | a :: as, bs, names, names', h => by
    rw [List.mapM_cons] at h
    obtain ⟨b, names₁, hfirst, h⟩ := loads_bind.1 h
    obtain ⟨rest, names₂, hrest, h⟩ := loads_bind.1 h
    obtain ⟨rfl, rfl⟩ := loads_pure.1 h
    obtain ⟨hadded, hb⟩ := hstep _ _ _ _ hfirst
    obtain ⟨hadded', hbs⟩ := loads_mapM hmono hstep hrest
    exact ⟨hadded.trans hadded', .cons (hmono _ _ _ _ hb hadded') hbs⟩

end Workspace
end TypeResolution
