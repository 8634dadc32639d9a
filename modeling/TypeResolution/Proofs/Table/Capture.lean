/-
# Parameters of members and arguments of receivers

A signature may mention the generic parameters of its own declaration and those of the type that it
is a member of, and all of them are parameters by name. The arguments of the receiver are put in by
name too. So an argument takes the place of a parameter of the declaration if the type has one of
the same name; and a parameter that comes with an argument, from a type that was written without its
own arguments, becomes one of the declaration if the names are the same.

What should be put in does not depend on names: whatever the parameters of the declaration stand
for, and whatever all others stand for, the signature is the declared one with the arguments in
place of the parameters that are not its own (`Candidate.Instantiates`). This holds exactly where no
name stands for two parameters (`Candidate.instantiates_iff`). A requirement has no parameters of
its own, so that it always holds there (`Table.Built.plain_requirements`).

Key definitions: `Candidate.opened`, `Candidate.Instantiates`, `Candidate.Clear`, `Table.Origin`,
`Table.CaptureFree`.
Key theorems: `Ty.mapParams_eq_iff`, `Candidate.instantiates_iff`, `Table.members_instantiates`.
-/
import TypeResolution.Proofs.Table.Inheritance
import TypeResolution.Proofs.Table.Requirements

namespace TypeResolution

/-! ### Parameters -/

namespace Ty

variable {t : Ty} {g g' : Name → Ty}

/-- Two ways to replace the parameters of a type come to the same if they do for the parameters that
occur, and only then. -/
theorem mapParams_eq_iff : t.mapParams g = t.mapParams g' ↔ ∀ p ∈ t.params, g p = g' p := by
  refine ⟨fun h => ?_, fun h => subst_congr (fun _ _ => rfl) h⟩
  induction t with
  | param p => exact List.forall_mem_singleton.2 h
  | nominal n as ih =>
    rw [mapParams_nominal, mapParams_nominal] at h
    have hargs := List.map_inj_left.1 (nominal.inj h).2
    rw [params_nominal, List.forall_mem_flatMap]
    exact fun a ha => ih a ha (hargs a ha)
  | function ps r ihp ihr =>
    rw [mapParams_function, mapParams_function] at h
    obtain ⟨hps, hr⟩ := function.inj h
    have hparams := List.map_inj_left.1 hps
    rw [params_function, List.forall_mem_append, List.forall_mem_flatMap]
    exact ⟨fun p hp => ihp p hp (Prod.mk.inj (hparams p hp)).2, ihr hr⟩
  | tuple ts ih =>
    rw [mapParams_tuple, mapParams_tuple] at h
    have helements := List.map_inj_left.1 (tuple.inj h)
    rw [params_tuple, List.forall_mem_flatMap]
    exact fun a ha => ih a ha (helements a ha)
  | _ => exact nofun

theorem mapParams_mapParams (g g' : Name → Ty) (t : Ty) :
    (t.mapParams g).mapParams g' = t.mapParams fun p => (g p).mapParams g' :=
  subst_subst .var .var g g' t

end Ty

namespace Candidate

variable {c declared : Candidate} {args : List (Name × Ty)} {p : Name} {t : Ty}

/-- The name is one of the declaration's own generic parameters. -/
def Binds (c : Candidate) (p : Name) : Prop := p ∈ c.generics.map (·.name)

instance (c : Candidate) (p : Name) : Decidable (c.Binds p) :=
  inferInstanceAs (Decidable (p ∈ c.generics.map (·.name)))

/-- The signature with `own` in place of the declaration's own parameters and `outer` in place of
all others. -/
def opened (c : Candidate) (own outer : Name → Ty) : Ty :=
  c.type.mapParams fun p => if c.Binds p then own p else outer p

/-- The declaration with the arguments put in, as its parameters are bound: whatever these and all
other parameters stand for, the arguments are in the place of those that are not the declaration's
own, and no parameter that comes with an argument is the declaration's own. -/
structure Instantiates (args : List (Name × Ty)) (declared c : Candidate) : Prop where
  decl : c.decl = declared.decl
  generics : c.generics = declared.generics
  penalty : c.penalty = declared.penalty
  type : ∀ own outer : Name → Ty, c.opened own outer = declared.opened own fun p =>
    ((args.lookup p).map (Ty.mapParams outer)).getD (outer p)

/-- No name stands for two parameters where the arguments are put in by name. -/
structure Clear (args : List (Name × Ty)) (declared : Candidate) : Prop where
  own : ∀ p ∈ declared.type.params, declared.Binds p → ∀ t ∈ args.lookup p, t = .param p
  outer : ∀ p ∈ declared.type.params, ¬ declared.Binds p → ∀ t ∈ args.lookup p,
    ∀ q ∈ t.params, ¬ declared.Binds q

instance (args : List (Name × Ty)) (declared : Candidate) : Decidable (Clear args declared) :=
  decidable_of_iff
    ((∀ p ∈ declared.type.params, declared.Binds p → ∀ t ∈ args.lookup p, t = .param p) ∧
      ∀ p ∈ declared.type.params, ¬ declared.Binds p → ∀ t ∈ args.lookup p,
        ∀ q ∈ t.params, ¬ declared.Binds q)
    ⟨fun h => ⟨h.1, h.2⟩, fun h => ⟨h.own, h.outer⟩⟩

/-- The declaration with the arguments put in by name. -/
def instantiate (args : List (Name × Ty)) (declared : Candidate) : Candidate :=
  { declared with type := declared.type.instantiate args }

theorem opened_instantiate (own outer : Name → Ty) : (declared.instantiate args).opened own outer =
    declared.type.mapParams fun p => ((args.lookup p).getD (.param p)).mapParams fun q =>
      if declared.Binds q then own q else outer q :=
  Ty.mapParams_mapParams _ _ _

/-- What is put in for one of the declaration's own parameters is the parameter. -/
theorem opened_own_iff (hp : declared.Binds p) :
    (∀ own outer : Name → Ty, (t.mapParams fun q => if declared.Binds q then own q else outer q) =
      own p) ↔ t = .param p := by
  constructor
  · intro h
    have hself := h .param .param
    simp only [ite_self] at hself
    rwa [← Ty.subst_var_param t]
  · rintro rfl own outer
    exact if_pos hp

/-- What is put in for another parameter has none of the declaration's own. -/
theorem opened_outer_iff :
    (∀ own outer : Name → Ty, (t.mapParams fun q => if declared.Binds q then own q else outer q) =
      t.mapParams outer) ↔ ∀ q ∈ t.params, ¬ declared.Binds q := by
  constructor
  · intro h q hq hbinds
    have heq := Ty.mapParams_eq_iff.1 (h (fun _ => .error) fun _ => .unit) q hq
    rw [if_pos hbinds] at heq
    cases heq
  · intro h own outer
    exact Ty.mapParams_eq_iff.2 fun q hq => if_neg (h q hq)

/-- **Arguments are put in as parameters are bound** exactly if no name stands for two of them. -/
theorem instantiates_iff : Instantiates args declared (declared.instantiate args) ↔
    Clear args declared := by
  have htype : Instantiates args declared (declared.instantiate args) ↔
      ∀ p ∈ declared.type.params, ∀ own outer : Name → Ty,
        ((args.lookup p).getD (.param p)).mapParams
            (fun q => if declared.Binds q then own q else outer q) =
          if declared.Binds p then own p
          else ((args.lookup p).map (Ty.mapParams outer)).getD (outer p) := by
    constructor
    · intro h p hp own outer
      have heq := h.type own outer
      rw [opened_instantiate] at heq
      exact Ty.mapParams_eq_iff.1 heq p hp
    · intro h
      refine ⟨rfl, rfl, rfl, fun own outer => ?_⟩
      rw [opened_instantiate]
      exact Ty.mapParams_eq_iff.2 fun p hp => h p hp own outer
  rw [htype]
  constructor
  · intro h
    constructor
    · intro p hp hbinds t ht
      refine (opened_own_iff hbinds).1 fun own outer => ?_
      have heq := h p hp own outer
      rwa [ht, if_pos hbinds] at heq
    · intro p hp hbinds t ht
      refine opened_outer_iff.1 fun own outer => ?_
      have heq := h p hp own outer
      rwa [ht, if_neg hbinds] at heq
  · intro h p hp own outer
    by_cases hbinds : declared.Binds p
    · rw [if_pos hbinds]
      cases ht : args.lookup p with
      | none => exact if_pos hbinds
      | some t => exact (opened_own_iff hbinds).2 (h.own p hp hbinds t ht) own outer
    · rw [if_neg hbinds]
      cases ht : args.lookup p with
      | none => exact if_neg hbinds
      | some t => exact opened_outer_iff.2 (h.outer p hp hbinds t ht) own outer

/-- A declaration without parameters of its own is clear. -/
theorem clear_of_generics (h : declared.generics = []) : Clear args declared := by
  have hnot : ∀ p, ¬ declared.Binds p := by
    unfold Binds
    rw [h]
    exact fun _ => List.not_mem_nil
  exact ⟨fun p _ hbinds => absurd hbinds (hnot p), fun _ _ _ _ _ q _ => hnot q⟩

end Candidate

namespace Table

variable {table : Table} {a : Ty} {member : Name} {args : List (Name × Ty)} {declared : Candidate}

/-! ### Members -/

/-- A declaration that a member of the receiver is looked up to, with the arguments that are put in:
a member of the type at which the lookup ends, or a requirement of a trait of a receiver that has no
declared member of the name. -/
inductive Origin (t : Table) (receiver : Ty) (member : Name) :
    List (Name × Ty) → Candidate → Prop where
  | declared {way : List Ty} {head : Name} {as : List Ty} {d : TypeDecl} {declared : Candidate} :
    t.Lookup member way receiver (.nominal head as) → t.type? head = some d →
      (member, declared) ∈ d.members → t.Origin receiver member (d.arguments as) declared
  | required {trait : Name} {d : TraitDecl} {declared : Candidate} :
    t.declaredMembers receiver member = [] → trait ∈ t.conformances receiver →
      t.trait? trait = some d → (member, declared) ∈ d.requirements →
      t.Origin receiver member [(t.selfName, receiver)] declared

/-- Every member is a declaration with the arguments put in as its parameters are bound. -/
def CaptureFree (t : Table) (receiver : Ty) (member : Name) : Prop :=
  ∀ c ∈ t.members receiver member, ∃ args declared, t.Origin receiver member args declared ∧
    Candidate.Instantiates args declared c

/-- Where a lookup comes to an end, its members come from there. -/
theorem Origin.of_lookup (hbuilt : table.Built) (h : table.Origin a member args declared)
    {way : List Ty} {head : Name} {as : List Ty} {d : TypeDecl}
    (hlookup : table.Lookup member way a (.nominal head as)) (hd : table.type? head = some d) :
    args = d.arguments as ∧ (member, declared) ∈ d.members := by
  cases h with
  | declared hlookup' hd' hmem =>
    obtain ⟨-, heq⟩ := hlookup.unique hlookup'
    obtain ⟨rfl, rfl⟩ := Ty.nominal.inj heq
    obtain rfl := Option.some.inj (hd.symm.trans hd')
    exact ⟨rfl, hmem⟩
  | required hnil =>
    rw [hlookup.declaredMembers_eq hbuilt] at hnil
    exact absurd hnil hlookup.declares

/-- Every member of a nominal type has an origin. -/
theorem exists_origin (hbuilt : table.Built) {n : Name} {as : List Ty} {c : Candidate}
    (hc : c ∈ table.members (.nominal n as) member) :
    ∃ args declared, table.Origin (.nominal n as) member args declared ∧
      c = declared.instantiate args := by
  by_cases hsees : table.Sees member (.nominal n as)
  · obtain ⟨way, found, hlookup⟩ := hsees.exists_lookup hbuilt
    obtain ⟨head, bs, d, rfl, hd, -⟩ := declaresMember_iff.1 hlookup.declares
    rw [hlookup.members_eq hbuilt, ownMembers_of_type? hd] at hc
    obtain ⟨⟨m, declared⟩, hmem, rfl⟩ := List.mem_map.1 hc
    obtain ⟨hmem, hname⟩ := List.mem_filter.1 hmem
    exact ⟨d.arguments bs, declared, .declared hlookup hd (beq_iff_eq.1 hname ▸ hmem), rfl⟩
  · have hnil := declaredMembers_eq_nil hbuilt hsees
    obtain ⟨trait, htrait, d, hd, r, hmem, rfl⟩ := (mem_members_of_required hbuilt hnil).1 hc
    exact ⟨_, r, .required hnil htrait hd hmem, rfl⟩

/-- **Where parameters are captured.** Every member of a nominal type is a declaration with the
arguments of the receiver, or the receiver itself, put in by name. They are put in as parameters are
bound exactly if no name stands for two of them; so a requirement always is. -/
theorem members_instantiates (hbuilt : table.Built) {n : Name} {as : List Ty} {c : Candidate}
    (hc : c ∈ table.members (.nominal n as) member) :
    ∃ args declared, table.Origin (.nominal n as) member args declared ∧
      c = declared.instantiate args ∧
      (Candidate.Instantiates args declared c ↔ Candidate.Clear args declared) ∧
      (table.declaredMembers (.nominal n as) member = [] →
        Candidate.Instantiates args declared c) := by
  obtain ⟨args, declared, horigin, rfl⟩ := exists_origin hbuilt hc
  refine ⟨args, declared, horigin, rfl, Candidate.instantiates_iff, fun hnil => ?_⟩
  cases horigin with
  | declared hlookup =>
    rw [hlookup.declaredMembers_eq hbuilt] at hnil
    exact absurd hnil hlookup.declares
  | required _ _ hd hmem =>
    have hplain := hbuilt.plain_requirements _ (List.mem_of_find?_eq_some hd) _ hmem
    exact Candidate.instantiates_iff.2 (Candidate.clear_of_generics (congrArg (·.generics) hplain))

/-- A parameter of a member that the declaring type does not have stays as it is, next to the
argument of the receiver. -/
theorem members_instantiates_pair :
    let ops : List Operation := [.declareType ⟨1⟩ [⟨9⟩],
      .addMember ⟨1⟩ ⟨8⟩ ⟨⟨1⟩, .tuple [.param ⟨9⟩, .param ⟨10⟩], [⟨⟨10⟩, []⟩], 0⟩]
    let table := (Registry.run ops (.ofNames .empty)).2.table
    let c : Candidate := ⟨⟨1⟩, .tuple [.unit, .param ⟨10⟩], [⟨⟨10⟩, []⟩], 0⟩
    table.Built ∧ c ∈ table.members (.nominal ⟨1⟩ [.unit]) ⟨8⟩ ∧
      table.CaptureFree (.nominal ⟨1⟩ [.unit]) ⟨8⟩ := by
  intro ops table c
  have hbuilt : table.Built :=
    (Registry.consistent_run ops (Registry.consistent_ofNames .empty)).built
  have hmembers : table.members (.nominal ⟨1⟩ [.unit]) ⟨8⟩ = [c] := by decide +kernel
  have hc : c ∈ table.members (.nominal ⟨1⟩ [.unit]) ⟨8⟩ := hmembers ▸ List.mem_cons_self
  refine ⟨hbuilt, hc, fun c' hc' => ?_⟩
  rw [hmembers] at hc'
  obtain rfl := List.mem_singleton.1 hc'
  obtain ⟨args, declared, horigin, -, hiff, -⟩ := members_instantiates hbuilt hc
  refine ⟨args, declared, horigin, hiff.2 ?_⟩
  have hd : table.type? ⟨1⟩ = some ⟨⟨1⟩, [⟨9⟩], [], [],
    [(⟨8⟩, ⟨⟨1⟩, .tuple [.param ⟨9⟩, .param ⟨10⟩], [⟨⟨10⟩, []⟩], 0⟩)]⟩ := by decide +kernel
  have hlookup : table.Lookup ⟨8⟩ [] (.nominal ⟨1⟩ [.unit]) (.nominal ⟨1⟩ [.unit]) :=
    .own (by unfold DeclaresMember; decide +kernel)
  obtain ⟨rfl, hmem⟩ := horigin.of_lookup hbuilt hlookup hd
  obtain ⟨-, rfl⟩ := Prod.mk.inj (List.mem_singleton.1 hmem)
  decide +kernel

/-- A parameter of a member is replaced by the argument for the parameter of the same name of its
type; and the parameter that comes with a supertype of a type without its arguments becomes one of
the member. -/
theorem members_captured :
    let ops : List Operation := [.declareType ⟨1⟩ [⟨9⟩], .declareType ⟨2⟩ [⟨10⟩],
      .declareType ⟨3⟩ [⟨9⟩], .addSupertype ⟨3⟩ (.nominal ⟨2⟩ [.param ⟨9⟩]),
      .addMember ⟨1⟩ ⟨8⟩ ⟨⟨1⟩, .param ⟨9⟩, [⟨⟨9⟩, []⟩], 0⟩,
      .addMember ⟨2⟩ ⟨8⟩ ⟨⟨2⟩, .tuple [.param ⟨10⟩, .param ⟨9⟩], [⟨⟨9⟩, []⟩], 0⟩]
    let table := (Registry.run ops (.ofNames .empty)).2.table
    table.Built ∧ ¬ table.CaptureFree (.nominal ⟨1⟩ [.unit]) ⟨8⟩ ∧
      ¬ table.CaptureFree (.nominal ⟨3⟩ []) ⟨8⟩ := by
  intro ops table
  have hbuilt : table.Built :=
    (Registry.consistent_run ops (Registry.consistent_ofNames .empty)).built
  refine ⟨hbuilt, fun hfree => ?_, fun hfree => ?_⟩
  · have hmembers : table.members (.nominal ⟨1⟩ [.unit]) ⟨8⟩ =
      [⟨⟨1⟩, .unit, [⟨⟨9⟩, []⟩], 0⟩] := by decide +kernel
    have hd : table.type? ⟨1⟩ = some ⟨⟨1⟩, [⟨9⟩], [], [],
      [(⟨8⟩, ⟨⟨1⟩, .param ⟨9⟩, [⟨⟨9⟩, []⟩], 0⟩)]⟩ := by decide +kernel
    have hlookup : table.Lookup ⟨8⟩ [] (.nominal ⟨1⟩ [.unit]) (.nominal ⟨1⟩ [.unit]) :=
      .own (by unfold DeclaresMember; decide +kernel)
    obtain ⟨args, declared, horigin, hinst⟩ := hfree _ (hmembers ▸ List.mem_cons_self)
    obtain ⟨rfl, hmem⟩ := horigin.of_lookup hbuilt hlookup hd
    obtain ⟨-, rfl⟩ := Prod.mk.inj (List.mem_singleton.1 hmem)
    refine absurd (Candidate.instantiates_iff.1 hinst) ?_
    decide +kernel
  · have hmembers : table.members (.nominal ⟨3⟩ []) ⟨8⟩ =
      [⟨⟨2⟩, .tuple [.param ⟨9⟩, .param ⟨9⟩], [⟨⟨9⟩, []⟩], 0⟩] := by decide +kernel
    have hd : table.type? ⟨2⟩ = some ⟨⟨2⟩, [⟨10⟩], [], [],
      [(⟨8⟩, ⟨⟨2⟩, .tuple [.param ⟨10⟩, .param ⟨9⟩], [⟨⟨9⟩, []⟩], 0⟩)]⟩ := by decide +kernel
    have hsups : table.supertypes (.nominal ⟨3⟩ []) = [] ++ .nominal ⟨2⟩ [.param ⟨9⟩] :: [] := by
      decide +kernel
    have hlookup : table.Lookup ⟨8⟩ [.nominal ⟨3⟩ []] (.nominal ⟨3⟩ [])
        (.nominal ⟨2⟩ [.param ⟨9⟩]) :=
      .inherited (by unfold DeclaresMember; decide +kernel) hsups nofun
        (.own (by unfold DeclaresMember; decide +kernel))
    obtain ⟨args, declared, horigin, hinst⟩ := hfree _ (hmembers ▸ List.mem_cons_self)
    obtain ⟨rfl, hmem⟩ := horigin.of_lookup hbuilt hlookup hd
    obtain ⟨-, rfl⟩ := Prod.mk.inj (List.mem_singleton.1 hmem)
    refine absurd (Candidate.instantiates_iff.1 hinst) ?_
    decide +kernel

end Table
end TypeResolution
