/-
# Subtyping is a preorder

Without the error type and the types of literals, which go with types that have nothing to do with
each other, subtyping is reflexive and transitive (`Table.isSubtype_preorder`). The proof is by
induction on the type in the middle: the parts of functions and tuples are smaller, and parameters
that are compared the other way round keep the middle where it is. Between nominal types ways up are
put together. The second of them starts from an instance of what the first one leads to, and it is
the instance of a way from there (`Table.Above.exists_of_instance`), because the parameters of a type
are either all replaced in its supertypes or, where the number of arguments is wrong, all left. An
existential in the middle has its traits and what they refine, and so do the types below it
(`Table.conforms_of_below`).

Variables and generic parameters in the types that are compared do no harm.

Key definitions: `Ty.Proper`, `Table.Scoped`.
Key theorems: `Table.Above.exists_of_instance`, `Table.conforms_of_below`, `Table.Below.trans`,
`Table.isSubtype_preorder`.
-/
import TypeResolution.Proofs.Table.Conformance
import TypeResolution.Proofs.Table.Rules

open Relation (ReflTransGen)

namespace TypeResolution

variable {table : Table} {a b c : Ty} {θ : Name → Ty}

/-- A type without the error type and without the types of literals. -/
structure Ty.Proper (t : Ty) : Prop where
  errorFree : t.ErrorFree
  literalFree : ∀ kind, .literal kind ∉ t.leaves

theorem Ty.Proper.child {t c : Ty} (h : t.Proper) (hc : c ∈ t.children) : c.Proper :=
  ⟨h.errorFree.child hc, fun kind hl => h.literalFree kind (mem_leaves_of_mem_children hc hl)⟩

theorem Ty.not_proper_literal (kind : LiteralKind) : ¬ (Ty.literal kind).Proper :=
  fun h => h.literalFree kind List.mem_cons_self

namespace Table

/-- The declared supertypes are without the error type and mention no other generic parameters than
those of the type that they are declared on. -/
structure Scoped (t : Table) : Prop where
  errorFree : ∀ d ∈ t.types, ∀ sup ∈ d.supertypes, sup.ErrorFree
  params : ∀ d ∈ t.types, ∀ sup ∈ d.supertypes, ∀ p ∈ sup.params, p ∈ d.params

/-! ### Ways up from instances -/

theorem exists_lookup_arguments {d : TypeDecl} {args : List Ty} {p : Name} (hp : p ∈ d.params)
    (hlength : d.params.length = args.length) : ∃ u, (d.arguments args).lookup p = some u := by
  unfold TypeDecl.arguments
  rw [if_pos hlength, ← Option.isSome_iff_exists, List.lookup_isSome_iff]
  obtain ⟨i, hi, rfl⟩ := List.getElem_of_mem hp
  refine ⟨(d.params[i], args[i]), List.mem_reverse.2 ?_, beq_self_eq_true _⟩
  exact List.mem_iff_getElem.2 ⟨i, by simpa using ⟨hi, hlength ▸ hi⟩, List.getElem_zip⟩

/-- A supertype of an instance is an instance of a supertype. -/
theorem exists_supertype_of_instance (hscoped : table.Scoped) {n : Name} {as : List Ty}
    (h : b ∈ table.supertypes ((Ty.nominal n as).mapParams θ)) :
    ∃ sup ∈ table.supertypes (.nominal n as), ∃ θ', sup.mapParams θ' = b := by
  rw [Ty.mapParams_nominal, supertypes_nominal] at h
  rw [supertypes_nominal]
  cases hd : table.type? n with
  | none =>
    rw [hd] at h
    cases h
  | some d =>
    rw [hd] at h
    obtain ⟨sup, hsup, rfl⟩ := List.mem_map.1 h
    refine ⟨_, List.mem_map_of_mem hsup, ?_⟩
    by_cases hlength : d.params.length = as.length
    · refine ⟨θ, (Ty.subst_subst _ _ _ _ sup).trans (Ty.subst_congr (fun _ _ => rfl) fun p hp => ?_)⟩
      have hdeclared := hscoped.params d (mem_of_type? hd) sup hsup p hp
      obtain ⟨u, hu⟩ := exists_lookup_arguments hdeclared hlength
      rw [arguments_map, lookup_map_snd, hu]
      rfl
    · -- No parameter is replaced, neither here nor there.
      have hnone : d.arguments as = [] := if_neg hlength
      have hnone' : d.arguments (as.map (Ty.mapParams θ)) = [] :=
        if_neg (by rwa [List.length_map])
      rw [hnone, hnone']
      exact ⟨.param, Ty.subst_var_param _⟩

/-- What is above an instance is an instance of something above. -/
theorem Above.exists_of_instance (hnominal : table.Nominal) (hscoped : table.Scoped) {n : Name}
    {as : List Ty} (h : table.Above ((Ty.nominal n as).mapParams θ) b) :
    ∃ sup, table.Above (.nominal n as) sup ∧ ∃ θ', sup.mapParams θ' = b := by
  induction h with
  | single hb =>
    obtain ⟨sup, hsup, hinstance⟩ := exists_supertype_of_instance hscoped hb
    exact ⟨sup, .single hsup, hinstance⟩
  | tail _ hc ih =>
    obtain ⟨sup, habove, θ', rfl⟩ := ih
    obtain ⟨m, bs, rfl, -⟩ := habove.exists_nominal hnominal
    obtain ⟨sup', hsup', hinstance⟩ := exists_supertype_of_instance hscoped hc
    exact ⟨sup', habove.tail hsup', hinstance⟩

/-- The name of what is above, and of its instances, is above the name. -/
theorem way_of_above (hnominal : table.Nominal) {n m : Name} {as bs : List Ty} {sup : Ty}
    (habove : table.Above (.nominal n as) sup) (hinstance : sup.mapParams θ = .nominal m bs) :
    ReflTransGen table.Parent n m := by
  obtain ⟨k, cs, rfl, hway⟩ := habove.exists_nominal hnominal
  obtain ⟨rfl, -⟩ := Ty.nominal.inj ((Ty.mapParams_nominal θ k cs).symm.trans hinstance)
  exact hway.to_reflTransGen

/-! ### Traits of subtypes -/

theorem Declares.refines {trait refined : Name} (h : table.Declares a trait)
    (hway : ReflTransGen table.Refines trait refined) : table.Declares a refined := by
  cases h with
  | nominal hup hd hmem href => exact .nominal hup hd hmem (href.trans hway)
  | existential hmem href => exact .existential hmem (href.trans hway)

theorem Declares.inherited {n m trait : Name} {as bs : List Ty}
    (h : table.Declares (.nominal m bs) trait) (hway : ReflTransGen table.Parent n m) :
    table.Declares (.nominal n as) trait := by
  obtain ⟨k, d, declared, hup, hd, hmem, href⟩ := declares_nominal_iff.1 h
  exact .nominal (hway.trans hup) hd hmem href

theorem conforms_iff_declares (hbuilt : table.Built) (ha : a.Proper) (trait : Name) :
    table.conforms a trait = true ↔ table.Declares a trait := by
  rw [conforms_iff hbuilt]
  constructor
  · rintro (rfl | ⟨kind, rfl, -⟩ | h)
    · exact absurd rfl ha.errorFree.ne
    · exact absurd ha (Ty.not_proper_literal kind)
    · exact h
  · exact fun h => .inr (.inr h)

/-- **A subtype has the traits of the type that it is below.** -/
theorem conforms_of_below (hbuilt : table.Built) (ha : a.Proper) (hb : b.Proper) {trait : Name}
    (hab : table.Below a b) (h : table.conforms b trait = true) :
    table.conforms a trait = true := by
  have hdeclares := (conforms_iff_declares hbuilt hb trait).1 h
  cases hab with
  | refl => exact h
  | existential hall =>
    cases hdeclares with
    | existential hmem href =>
      have hdeclared := (conforms_iff_declares hbuilt ha _).1 (hall _ hmem)
      exact (conforms_iff_declares hbuilt ha trait).2 (hdeclared.refines href)
  | literal => exact absurd ha (Ty.not_proper_literal _)
  | function => cases hdeclares
  | tuple => cases hdeclares
  | inherited habove hinstance =>
    exact (conforms_iff_declares hbuilt ha trait).2
      (hdeclares.inherited (way_of_above hbuilt.nominal habove hinstance))

/-- Above an existential only the traits count. -/
theorem Below.existential_of (hbuilt : table.Built) (ha : a.Proper) (hb : b.Proper)
    (hab : table.Below a b) {traits : TraitSet}
    (hall : ∀ trait ∈ traits.names, table.conforms b trait = true) :
    table.Below a (.existential traits) :=
  .existential fun trait htrait => conforms_of_below hbuilt ha hb hab (hall trait htrait)

/-! ### Transitivity -/

/-- Items of lists of one length that stand in one place have an item between them. -/
theorem exists_between {α β γ : Type} : ∀ {xs : List α} {ys : List β} {zs : List γ} {p : α × γ},
    xs.length = ys.length → p ∈ xs.zip zs → ∃ y, (p.1, y) ∈ xs.zip ys ∧ (y, p.2) ∈ ys.zip zs
  | x :: xs, y :: ys, z :: zs, p, hlength, hp => by
    rw [List.zip_cons_cons] at hp
    rcases List.mem_cons.1 hp with rfl | hp
    · exact ⟨y, List.mem_cons_self, List.mem_cons_self⟩
    · obtain ⟨w, hleft, hright⟩ := exists_between (Nat.succ.inj hlength) hp
      exact ⟨w, List.mem_cons_of_mem _ hleft, List.mem_cons_of_mem _ hright⟩

/-- Ways up are put together. -/
theorem Below.inherits (hnominal : table.Nominal) (hscoped : table.Scoped) {n m : Name}
    {bs cs : List Ty} {sup : Ty} (ha : a.Proper) (hab : table.Below a (.nominal n bs))
    (habove : table.Above (.nominal n bs) sup) (hinstance : sup.mapParams θ = .nominal m cs) :
    table.Below a (.nominal m cs) := by
  cases hab with
  | refl => exact .inherited habove hinstance
  | literal => exact absurd ha (Ty.not_proper_literal _)
  | inherited hbelow hmiddle =>
    obtain ⟨k, ds, rfl, -⟩ := hbelow.exists_nominal hnominal
    rw [← hmiddle] at habove
    obtain ⟨sup', hsup', θ', rfl⟩ := habove.exists_of_instance hnominal hscoped
    exact .inherited (hbelow.trans hsup') ((Ty.subst_subst _ _ _ _ sup').symm.trans hinstance)

theorem below_function_iff {ps qs : List Parameter} {r u : Ty} :
    table.Below (.function ps r) (.function qs u) ↔ ps.map (·.1) = qs.map (·.1) ∧
      (∀ p ∈ ps.zip qs, p.1.1.isOneWay = true → table.Below p.2.2 p.1.2) ∧
      (∀ p ∈ ps.zip qs, p.1.1.isOneWay = false → p.1.2 = p.2.2) ∧ table.Below r u := by
  constructor
  · intro h
    cases h with
    | refl =>
      have hsame : ∀ p ∈ ps.zip ps, p.1 = p.2 := fun p hp => (mem_zip_self hp).1
      exact ⟨rfl, fun p hp _ => hsame p hp ▸ .refl _, fun p hp _ => hsame p hp ▸ rfl, .refl r⟩
    | function hconventions honeWay hboth hresult => exact ⟨hconventions, honeWay, hboth, hresult⟩
  · rintro ⟨hconventions, honeWay, hboth, hresult⟩
    exact .function hconventions honeWay hboth hresult

theorem below_tuple_iff {as bs : List Ty} : table.Below (.tuple as) (.tuple bs) ↔
    as.length = bs.length ∧ ∀ p ∈ as.zip bs, table.Below p.1 p.2 := by
  constructor
  · intro h
    cases h with
    | refl => exact ⟨rfl, fun p hp => (mem_zip_self hp).1 ▸ .refl _⟩
    | tuple hlength hparts => exact ⟨hlength, hparts⟩
  · rintro ⟨hlength, hparts⟩
    exact .tuple hlength hparts

/-- Functions are put together part by part; between parameters the way goes back. -/
theorem Below.trans_function {ps qs rs : List Parameter} {r u v : Ty}
    (hparams : ∀ p ∈ ps, ∀ q ∈ qs, ∀ p' ∈ rs, table.Below p'.2 q.2 → table.Below q.2 p.2 →
      table.Below p'.2 p.2)
    (hresult : table.Below r u → table.Below u v → table.Below r v)
    (hab : table.Below (.function ps r) (.function qs u))
    (hbc : table.Below (.function qs u) (.function rs v)) :
    table.Below (.function ps r) (.function rs v) := by
  obtain ⟨hconventions, honeWay, hboth, hru⟩ := below_function_iff.1 hab
  obtain ⟨hconventions', honeWay', hboth', huv⟩ := below_function_iff.1 hbc
  have hlength : ps.length = qs.length := by simpa using congrArg List.length hconventions
  refine .function (hconventions.trans hconventions') (fun p hp hway => ?_) (fun p hp hway => ?_)
    (hresult hru huv)
  · obtain ⟨q, hleft, hright⟩ := exists_between hlength hp
    have hq : p.1.1 = q.1 := convention_of_mem_zip hconventions hleft
    exact hparams p.1 (List.of_mem_zip hp).1 q (List.of_mem_zip hleft).2 p.2
      (List.of_mem_zip hp).2 (honeWay' _ hright (hq ▸ hway)) (honeWay _ hleft hway)
  · obtain ⟨q, hleft, hright⟩ := exists_between hlength hp
    have hq : p.1.1 = q.1 := convention_of_mem_zip hconventions hleft
    exact (hboth _ hleft hway).trans (hboth' _ hright (hq ▸ hway))

theorem Below.trans_tuple {as bs cs : List Ty}
    (hparts : ∀ a ∈ as, ∀ b ∈ bs, ∀ c ∈ cs, table.Below a b → table.Below b c → table.Below a c)
    (hab : table.Below (.tuple as) (.tuple bs)) (hbc : table.Below (.tuple bs) (.tuple cs)) :
    table.Below (.tuple as) (.tuple cs) := by
  obtain ⟨hlength, hleft⟩ := below_tuple_iff.1 hab
  obtain ⟨hlength', hright⟩ := below_tuple_iff.1 hbc
  refine .tuple (hlength.trans hlength') fun p hp => ?_
  obtain ⟨b, hab, hbc⟩ := exists_between hlength hp
  exact hparts p.1 (List.of_mem_zip hp).1 b (List.of_mem_zip hab).2 p.2 (List.of_mem_zip hp).2
    (hleft _ hab) (hright _ hbc)

theorem Below.exists_function {qs : List Parameter} {u : Ty} (ha : a.Proper)
    (h : table.Below a (.function qs u)) : ∃ ps r, a = .function ps r := by
  cases h with
  | refl => exact ⟨qs, u, rfl⟩
  | literal => exact absurd ha (Ty.not_proper_literal _)
  | function => exact ⟨_, _, rfl⟩

theorem Below.exists_tuple {bs : List Ty} (ha : a.Proper) (h : table.Below a (.tuple bs)) :
    ∃ as, a = .tuple as := by
  cases h with
  | refl => exact ⟨bs, rfl⟩
  | literal => exact absurd ha (Ty.not_proper_literal _)
  | tuple => exact ⟨_, rfl⟩

/-- **Subtyping is transitive** on types without the error type and the types of literals. -/
theorem Below.trans (hbuilt : table.Built) (hscoped : table.Scoped) (ha : a.Proper)
    (hb : b.Proper) (hc : c.Proper) (hab : table.Below a b) (hbc : table.Below b c) :
    table.Below a c := by
  induction b generalizing a c with
  | nominal n bs =>
    cases hbc with
    | refl => exact hab
    | existential hall => exact hab.existential_of hbuilt ha hb hall
    | inherited habove hinstance => exact hab.inherits hbuilt.nominal hscoped ha habove hinstance
  | function qs u ihparams ihresult =>
    cases hbc with
    | refl => exact hab
    | existential hall => exact hab.existential_of hbuilt ha hb hall
    | @function _ rs _ v hconventions honeWay hboth hresult =>
      obtain ⟨ps, r, rfl⟩ := hab.exists_function ha
      refine hab.trans_function (fun p hp q hq p' hp' => ?_) ?_
        (.function hconventions honeWay hboth hresult)
      · exact ihparams q hq (hc.child (Ty.param_mem_children v hp'))
          (hb.child (Ty.param_mem_children u hq)) (ha.child (Ty.param_mem_children r hp))
      · exact ihresult (ha.child (Ty.result_mem_children ps r))
          (hb.child (Ty.result_mem_children qs u)) (hc.child (Ty.result_mem_children rs v))
  | tuple bs ih =>
    cases hbc with
    | refl => exact hab
    | existential hall => exact hab.existential_of hbuilt ha hb hall
    | tuple hlength hparts =>
      obtain ⟨as, rfl⟩ := hab.exists_tuple ha
      exact hab.trans_tuple
        (fun x hx y hy z hz => ih y hy (ha.child hx) (hb.child hy) (hc.child hz))
        (.tuple hlength hparts)
  | literal kind => exact absurd hb (Ty.not_proper_literal kind)
  | _ =>
    cases hbc with
    | refl => exact hab
    | existential hall => exact hab.existential_of hbuilt ha hb hall

/-- **Subtyping is a preorder** on types without the error type and the types of literals, if the
declared supertypes are without the error type and mention only parameters of their type. -/
theorem isSubtype_preorder (hbuilt : table.Built) (hscoped : table.Scoped) :
    (∀ a, table.isSubtype a a = true) ∧
      ∀ a b c : Ty, a.Proper → b.Proper → c.Proper → table.isSubtype a b = true →
        table.isSubtype b c = true → table.isSubtype a c = true := by
  refine ⟨fun a => isSubtypeToward_of_agree (agree_refl a), fun a b c ha hb hc hab hbc => ?_⟩
  have hiff : ∀ {x y : Ty}, x.Proper → y.Proper → (table.isSubtype x y = true ↔ table.Below x y) :=
    fun hx hy => isSubtype_iff_below hbuilt hscoped.errorFree hx.errorFree hy.errorFree
  rw [hiff ha hb] at hab
  rw [hiff hb hc] at hbc
  rw [hiff ha hc]
  exact hab.trans hbuilt hscoped ha hb hc hbc

/-- A type whose argument is not written is below the instances of its supertype, and these are below
their trait; functions over them are compared accordingly. -/
theorem isSubtype_preorder_functions :
    let ops : List Operation :=
      [.declareTrait ⟨1⟩ [], .declareType ⟨2⟩ [], .declareType ⟨3⟩ [⟨8⟩], .declareType ⟨4⟩ [⟨9⟩],
        .addConformance ⟨3⟩ ⟨1⟩, .addSupertype ⟨4⟩ (.nominal ⟨3⟩ [.param ⟨9⟩])]
    let table := (Registry.run ops (.ofNames .empty)).2.table
    let lower : Ty := .nominal ⟨4⟩ []
    let middle : Ty := .nominal ⟨3⟩ [.nominal ⟨2⟩ []]
    let upper : Ty := .existential (.ofList [⟨1⟩])
    let low : Ty := .function [(.letting, upper)] lower
    let high : Ty := .function [(.letting, lower)] upper
    let between : Ty := .function [(.letting, middle)] middle
    table.Built ∧ table.Scoped ∧ table.isSubtype low between = true ∧
      table.isSubtype between high = true ∧ table.isSubtype low high = true := by
  intro ops table lower middle upper low high between
  have hbuilt : table.Built :=
    (Registry.consistent_run ops (Registry.consistent_ofNames .empty)).built
  have hscoped : table.Scoped := by
    refine ⟨?_, by decide +kernel⟩
    unfold Ty.ErrorFree
    decide +kernel
  have hproper : ∀ {t : Ty}, t.leaves ⊆ [upper] → t.Proper := by
    refine fun h => ⟨fun hl => ?_, fun kind hl => ?_⟩
    · exact Ty.noConfusion (List.mem_singleton.1 (h hl))
    · exact Ty.noConfusion (List.mem_singleton.1 (h hl))
  have hlow : table.isSubtype low between = true := by decide +kernel
  have hhigh : table.isSubtype between high = true := by decide +kernel
  exact ⟨hbuilt, hscoped, hlow, hhigh, (isSubtype_preorder hbuilt hscoped).2 low between high
    (hproper (by decide +kernel)) (hproper (by decide +kernel)) (hproper (by decide +kernel))
    hlow hhigh⟩

end Table
end TypeResolution
