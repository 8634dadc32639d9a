/-
# What the check accepts

A type without the error type agrees with such types only that are the same (`eq_of_agree`), and
a signature at some types in place of its generic parameters is matched by the signature
(`matchPattern_mapParams`). A way up that leads to a supertype is found, since it has no more steps
than the table is high (`Table.climbsTo_of_above`). So what is a subtype by the rules is accepted as
one, and a constraint that holds at types without the error type is satisfied
(`Solution.satisfies_of_holdsIn`).

The check asks more than the rules in three places. Where a signature has the error type, it has to
stand in the other type too; candidates are expected to have no variables; and a literal below an
existential has to conform to its traits, while the rules are content if the existential is
expressible by the literal.

Key definitions: `Table.Definite`, `Constraint.Declared`, `Solution.Reads`.
Key theorems: `eq_of_agree`, `matchPattern_mapParams`, `Table.climbsTo_of_above`,
`Table.isSubtype_of_subtypeIn`, `Solution.satisfies_of_holdsIn`.
-/
import TypeResolution.Proofs.Holding
import TypeResolution.Proofs.Operands
import TypeResolution.Proofs.Table.Declarations
import TypeResolution.Proofs.Table.Hierarchy
import Mathlib.Data.List.Zip

namespace TypeResolution

variable {table : Table} {a b : Ty} {θ : Name → Ty}

/-! ### Agreement without the error type -/

theorem eq_of_agreeAll : ∀ {as bs : List Ty}, (∀ a ∈ as, ∀ b ∈ bs, agree a b = true → a = b) →
    agreeAll as bs = true → as = bs
  | [], [], _, _ => rfl
  | a :: as, b :: bs, h, hall => by
    unfold agreeAll at hall
    obtain ⟨hab, hrest⟩ := Bool.and_eq_true_iff.1 hall
    rw [h a List.mem_cons_self b List.mem_cons_self hab, eq_of_agreeAll (fun x hx y hy =>
      h x (List.mem_cons_of_mem _ hx) y (List.mem_cons_of_mem _ hy)) hrest]
  | [], _ :: _, _, hall => by cases hall
  | _ :: _, [], _, hall => by cases hall

theorem eq_of_agreeParams : ∀ {ps qs : List Parameter},
    (∀ p ∈ ps, ∀ q ∈ qs, agree p.2 q.2 = true → p.2 = q.2) → agreeParams ps qs = true → ps = qs
  | [], [], _, _ => rfl
  | (c, a) :: ps, (d, b) :: qs, h, hall => by
    unfold agreeParams at hall
    obtain ⟨hfirst, hrest⟩ := Bool.and_eq_true_iff.1 hall
    obtain ⟨hcd, hab⟩ := Bool.and_eq_true_iff.1 hfirst
    have heq : a = b := h (c, a) List.mem_cons_self (d, b) List.mem_cons_self hab
    rw [beq_iff_eq.1 hcd, heq, eq_of_agreeParams (fun x hx y hy =>
      h x (List.mem_cons_of_mem _ hx) y (List.mem_cons_of_mem _ hy)) hrest]
  | [], _ :: _, _, hall => by cases hall
  | _ :: _, [], _, hall => by cases hall

/-- **Without the error type** types agree only if they are the same. -/
theorem eq_of_agree (ha : a.ErrorFree) (hb : b.ErrorFree) (h : agree a b = true) : a = b := by
  have hchild : ∀ {t c : Ty}, t.ErrorFree → c ∈ t.children → c.ErrorFree := fun ht hc =>
    Ty.hereditary_errorFree.child ht hc
  induction a generalizing b with
  | error => exact absurd List.mem_cons_self ha
  | nominal n as ih =>
    cases b with
    | error => exact absurd List.mem_cons_self hb
    | nominal m bs =>
      simp only [agree, Bool.and_eq_true, beq_iff_eq] at h
      have hargs : as = bs :=
        eq_of_agreeAll (fun x hx y hy => ih x hx (hchild ha hx) (hchild hb hy)) h.2
      rw [h.1, hargs]
    | _ => simp [agree] at h
  | tuple as ih =>
    cases b with
    | error => exact absurd List.mem_cons_self hb
    | tuple bs =>
      simp only [agree] at h
      have helements : as = bs :=
        eq_of_agreeAll (fun x hx y hy => ih x hx (hchild ha hx) (hchild hb hy)) h
      rw [helements]
    | _ => simp [agree] at h
  | function ps r ihp ihr =>
    cases b with
    | error => exact absurd List.mem_cons_self hb
    | function qs u =>
      have hparam : ∀ {rs : List Parameter} {w : Ty} {p : Parameter},
          (Ty.function rs w).ErrorFree → p ∈ rs → p.2.ErrorFree := fun h hp =>
        hchild h (List.mem_append_left _ (List.mem_map.2 ⟨_, hp, rfl⟩))
      have hresult : ∀ {rs : List Parameter} {w : Ty}, (Ty.function rs w).ErrorFree → w.ErrorFree :=
        fun h => hchild h (List.mem_append_right _ (List.mem_singleton.2 rfl))
      simp only [agree, Bool.and_eq_true] at h
      rw [eq_of_agreeParams (fun p hp q hq => ihp p hp (hparam ha hp) (hparam hb hq)) h.1,
        ihr (hresult ha) (hresult hb) h.2]
    | _ => simp [agree] at h
  | _ =>
    cases b with
    | error => exact absurd List.mem_cons_self hb
    | _ => simp [agree] at h ⊢ <;> exact h

/-! ### Patterns -/

/-- Parameters are assigned what they stand for. -/
def AssignedBy (θ : Name → Ty) (known : Assignment) : Prop :=
  ∀ p t, known.lookup p = some t → t = θ p

theorem matchAll_mapParams : ∀ (as : List Ty), (∀ a ∈ as, ∀ known, AssignedBy θ known →
      ∃ known', matchPattern a (a.mapParams θ) known = some known' ∧ AssignedBy θ known') →
    ∀ known, AssignedBy θ known →
      ∃ known', matchAll as (as.map (Ty.mapParams θ)) known = some known' ∧ AssignedBy θ known'
  | [], _, known, hknown => ⟨known, rfl, hknown⟩
  | a :: as, h, known, hknown => by
    obtain ⟨hfirst, hrest⟩ := List.forall_mem_cons.1 h
    obtain ⟨known₁, hmatch, hknown₁⟩ := hfirst known hknown
    obtain ⟨known', hmatch', hknown'⟩ := matchAll_mapParams as hrest known₁ hknown₁
    refine ⟨known', ?_, hknown'⟩
    rw [List.map_cons, matchAll, hmatch]
    exact hmatch'

theorem matchParams_mapParams : ∀ (ps : List Parameter),
    (∀ p ∈ ps, ∀ known, AssignedBy θ known →
      ∃ known', matchPattern p.2 (p.2.mapParams θ) known = some known' ∧ AssignedBy θ known') →
    ∀ known, AssignedBy θ known →
      ∃ known', matchParams ps (ps.map fun p => (p.1, p.2.mapParams θ)) known = some known' ∧
        AssignedBy θ known'
  | [], _, known, hknown => ⟨known, rfl, hknown⟩
  | (c, a) :: ps, h, known, hknown => by
    obtain ⟨hfirst, hrest⟩ := List.forall_mem_cons.1 h
    obtain ⟨known₁, hmatch, hknown₁⟩ := hfirst known hknown
    obtain ⟨known', hmatch', hknown'⟩ := matchParams_mapParams ps hrest known₁ hknown₁
    refine ⟨known', ?_, hknown'⟩
    rw [List.map_cons, matchParams, if_pos rfl, hmatch]
    exact hmatch'

/-- **A signature matches its instances**, with the types that were put in. -/
theorem matchPattern_mapParams (θ : Name → Ty) (pattern : Ty) : ∀ known, AssignedBy θ known →
    ∃ known', matchPattern pattern (pattern.mapParams θ) known = some known' ∧
      AssignedBy θ known' := by
  induction pattern with
  | param name =>
    intro known hknown
    show ∃ known', matchPattern (.param name) (θ name) known = some known' ∧ _
    rw [matchPattern]
    cases hlookup : known.lookup name with
    | some assigned =>
      rw [hknown name assigned hlookup]
      exact ⟨known, if_pos (agree_refl _), hknown⟩
    | none =>
      refine ⟨_, rfl, fun p t hp => ?_⟩
      rw [List.lookup_cons] at hp
      by_cases heq : p = name
      · rw [beq_iff_eq.2 heq] at hp
        rw [heq, Option.some.inj hp]
      · rw [beq_eq_false_iff_ne.2 heq] at hp
        exact hknown p t hp
  | nominal n as ih =>
    intro known hknown
    rw [Ty.mapParams_nominal, matchPattern, if_pos rfl]
    exact matchAll_mapParams as ih known hknown
  | tuple as ih =>
    intro known hknown
    rw [Ty.mapParams_tuple, matchPattern]
    exact matchAll_mapParams as ih known hknown
  | function ps r ihp ihr =>
    intro known hknown
    rw [Ty.mapParams_function, matchPattern]
    obtain ⟨known₁, hmatch, hknown₁⟩ := matchParams_mapParams ps ihp known hknown
    rw [hmatch]
    exact ihr known₁ hknown₁
  | error => exact fun known hknown => ⟨known, rfl, hknown⟩
  | _ => exact fun known hknown => ⟨known, if_pos rfl, hknown⟩

/-- What a signature is at types that satisfy the bounds is an instance of it. -/
theorem Candidate.hasInstance_mapParams {c : Candidate} (h : c.BoundsHold table θ) :
    c.hasInstance table (c.type.mapParams θ) = true := by
  obtain ⟨known, hmatch, hknown⟩ := matchPattern_mapParams θ c.type [] nofun
  unfold hasInstance
  rw [hmatch]
  refine List.all_eq_true.2 fun g hg => ?_
  split
  · rfl
  · rename_i arg hlookup
    rw [hknown _ _ hlookup]
    exact List.all_eq_true.2 (h g hg)

/-- What a type without the error type is opened to has none either. -/
theorem Ty.Opens.errorFree (h : Ty.Opens θ a b) (ha : a.ErrorFree)
    (hθ : ∀ p, (θ p).ErrorFree) : b.ErrorFree := by
  have hleaves : ∀ {t : Ty}, t.ErrorFree → t.LeavesIn (· ≠ .error) := fun h l hl heq => h (heq ▸ hl)
  obtain ⟨pattern, τ, rfl, rfl⟩ := h
  exact ((hleaves ha).subst_of_mapVars fun p _ => hleaves (hθ p)).errorFree fun h => h rfl

namespace Table

/-! ### Ways up -/

theorem climbsTo_of_agree (h : agree a b = true) : ∀ fuel, table.climbsTo fuel a b = true
  | 0 => h
  | fuel + 1 => by
    unfold climbsTo
    rw [h, Bool.true_or]

/-- A step up can be the first one of a way up, or leads to a match. -/
theorem climbsTo_succ {n m : Name} {as bs : List Ty} {sup : Ty} {fuel : Nat}
    (hsup : sup ∈ table.supertypes (.nominal n as)) (hne : n ≠ m)
    (h : (sup.hasParams && (matchPattern sup (.nominal m bs) []).isSome) = true ∨
      table.climbsTo fuel sup (.nominal m bs) = true) :
    table.climbsTo (fuel + 1) (.nominal n as) (.nominal m bs) = true := by
  unfold climbsTo
  refine Bool.or_eq_true_iff.2 (.inr (Bool.and_eq_true_iff.2 ⟨bne_iff_ne.2 hne, ?_⟩))
  exact List.any_eq_true.2 ⟨sup, hsup, Bool.or_eq_true_iff.2 h⟩

/-- **A way up is found** if it leads to a type that matches or agrees. -/
theorem climbsTo_of_above (hnominal : table.Nominal) (hacyclic : table.Acyclic) {n m : Name}
    {as bs : List Ty} {sup : Ty} (habove : table.Above (.nominal n as) sup)
    (hhead : hasHead m sup = true)
    (h : (sup.hasParams && (matchPattern sup (.nominal m bs) []).isSome) = true ∨
      agree sup (.nominal m bs) = true) :
    table.climbsTo table.height (.nominal n as) (.nominal m bs) = true := by
  obtain ⟨rank, hrank, hle⟩ := hacyclic.exists_rank
  have hne : ∀ {n as}, table.Above (.nominal n as) sup → n ≠ m := by
    rintro n as habove rfl
    obtain ⟨k, cs, rfl, hway⟩ := habove.exists_nominal hnominal
    obtain rfl : k = n := beq_iff_eq.1 hhead
    exact hacyclic k hway
  -- The steps that are left are no more than the rank of the name that has been reached.
  have hclimbs : ∀ {a : Ty}, table.Above a sup → ∀ {n as}, a = .nominal n as → ∀ fuel,
      rank n ≤ fuel → table.climbsTo fuel a (.nominal m bs) = true := by
    intro a habove
    induction habove using Relation.TransGen.head_induction_on with
    | single hstep =>
      rintro n as rfl fuel hfuel
      obtain ⟨n', as', k, cs, heq, rfl, hparent⟩ := exists_parent hnominal hstep
      obtain ⟨rfl, rfl⟩ := Ty.nominal.inj heq
      have hless := hrank n k hparent
      obtain ⟨fuel, rfl⟩ := Nat.exists_eq_add_one.2 (by omega : 0 < fuel)
      exact climbsTo_succ hstep (hne (.single hstep))
        (h.imp_right fun h => climbsTo_of_agree h fuel)
    | head hstep hrest ih =>
      rintro n as rfl fuel hfuel
      obtain ⟨n', as', k, cs, heq, rfl, hparent⟩ := exists_parent hnominal hstep
      obtain ⟨rfl, rfl⟩ := Ty.nominal.inj heq
      have hless := hrank n k hparent
      obtain ⟨fuel, rfl⟩ := Nat.exists_eq_add_one.2 (by omega : 0 < fuel)
      exact climbsTo_succ hstep (hne (.head hstep hrest)) (.inr (ih rfl fuel (by omega)))
  exact hclimbs habove rfl table.height (Nat.le_trans (hle n) (Nat.le_succ _))

/-! ### Subtyping -/

/-- A leaf that the rules and the check see alike: neither the error type nor a generic parameter,
and if it is an existential that a literal can be written for, then the literal conforms to all of
its traits. -/
structure Definite (t : Table) (l : Ty) : Prop where
  error : l ≠ .error
  param : ∀ p, l ≠ .param p
  existential : ∀ traits kind, l = .existential traits → t.isExpressible l kind = true →
    ∀ trait ∈ traits.names, t.conforms (.literal kind) trait = true

theorem errorFree_of_definite (h : a.LeavesIn (Ty.OrParam table.Definite)) : a.ErrorFree :=
  h.errorFree fun h => h.elim (fun h => h.error rfl) nofun

theorem params_of_definite (h : a.LeavesIn table.Definite) : a.params = [] :=
  List.eq_nil_iff_forall_not_mem.2 fun p hp => (h _ (Ty.mem_params_iff.1 hp)).param p rfl

theorem definite_orParam (h : a.LeavesIn table.Definite) :
    a.LeavesIn (Ty.OrParam table.Definite) := h.mono fun _ => .inl

/-- A supertype that agrees with a type at some types in place of its parameters is found. -/
theorem climbsTo_of_opens (hnominal : table.Nominal) (hacyclic : table.Acyclic)
    (htable : table.LeavesIn table.Definite) {n m : Name} {as bs : List Ty} {sup opened : Ty}
    (hsub : (Ty.nominal n as).LeavesIn table.Definite)
    (hsup : (Ty.nominal m bs).LeavesIn table.Definite)
    (habove : table.Above (.nominal n as) sup) (hhead : hasHead m sup = true)
    (hopens : Ty.Opens θ sup opened) (hθ : ∀ p, (θ p).ErrorFree)
    (hagree : agree opened (.nominal m bs) = true) :
    table.climbsTo table.height (.nominal n as) (.nominal m bs) = true := by
  have hfree := errorFree_of_definite (habove.leavesIn htable.supertypes (definite_orParam hsub))
  obtain rfl := eq_of_agree (hopens.errorFree hfree hθ)
    (errorFree_of_definite (definite_orParam hsup)) hagree
  have hinstance := hopens.eq_mapParams (params_of_definite hsup)
  refine climbsTo_of_above hnominal hacyclic habove hhead ?_
  rw [hinstance]
  cases hparams : sup.hasParams with
  | true =>
    obtain ⟨known, hmatch, -⟩ := matchPattern_mapParams θ sup [] nofun
    refine .inl ?_
    rw [hmatch]
    rfl
  | false =>
    rw [Ty.mapParams_eq_self (by simpa [Ty.hasParams] using hparams)]
    exact .inr (agree_refl sup)

variable {upward : Bool}

theorem isSubtypeToward_of_agree (h : agree a b = true) :
    table.isSubtypeToward upward a b = true := by
  unfold isSubtypeToward
  rw [h, Bool.true_or]

theorem areSubtypesToward_of_zip : ∀ {as bs : List Ty}, as.length = bs.length →
    (∀ p ∈ as.zip bs, table.isSubtypeToward upward p.1 p.2 = true) →
    table.areSubtypesToward upward as bs = true
  | [], [], _, _ => rfl
  | a :: as, b :: bs, hlength, h => by
    rw [List.zip_cons_cons] at h
    obtain ⟨hab, hrest⟩ := List.forall_mem_cons.1 h
    unfold areSubtypesToward
    rw [hab, areSubtypesToward_of_zip (Nat.succ.inj hlength) hrest]
    rfl

theorem areSubtypeParams_of_zip : ∀ {ps qs : List Parameter}, ps.map (·.1) = qs.map (·.1) →
    (∀ p ∈ ps.zip qs, p.1.1.isOneWay = true →
      table.isSubtypeToward (!upward) p.1.2 p.2.2 = true) →
    (∀ p ∈ ps.zip qs, p.1.1.isOneWay = false → agree p.1.2 p.2.2 = true) →
    table.areSubtypeParams upward ps qs = true
  | [], [], _, _, _ => rfl
  | (c, a) :: ps, (d, b) :: qs, hconventions, honeWay, hboth => by
    obtain ⟨hcd, hconventions⟩ := List.cons.inj hconventions
    rw [List.zip_cons_cons] at honeWay hboth
    obtain ⟨hway, honeWay⟩ := List.forall_mem_cons.1 honeWay
    obtain ⟨hagree, hboth⟩ := List.forall_mem_cons.1 hboth
    have hfirst :
        (if c.isOneWay then table.isSubtypeToward (!upward) a b else agree a b) = true := by
      cases hc : c.isOneWay with
      | true => exact hway hc
      | false => exact hagree hc
    unfold areSubtypeParams
    rw [hfirst, beq_iff_eq.2 hcd, areSubtypeParams_of_zip hconventions honeWay hboth]
    rfl

theorem isSubtypeToward_function {ps qs : List Parameter} {r u : Ty}
    (hparams : table.areSubtypeParams upward ps qs = true)
    (hresult : table.isSubtypeToward upward r u = true) :
    table.isSubtypeToward upward (.function ps r) (.function qs u) = true := by
  unfold isSubtypeToward
  exact Bool.or_eq_true_iff.2 (.inr (Bool.and_eq_true_iff.2 ⟨hparams, hresult⟩))

theorem isSubtypeToward_tuple {as bs : List Ty}
    (h : table.areSubtypesToward upward as bs = true) :
    table.isSubtypeToward upward (.tuple as) (.tuple bs) = true := by
  unfold isSubtypeToward
  exact Bool.or_eq_true_iff.2 (.inr h)

/-- Between other types the check is made at the top. -/
theorem isSubtypeToward_of_atTop (hfunctions : ∀ ps r qs u, a = .function ps r → b ≠ .function qs u)
    (htuples : ∀ as bs, a = .tuple as → b ≠ .tuple bs) (h : table.isSubtypeAtTop a b = true) :
    table.isSubtypeToward true a b = true ∧ table.isSubtypeToward false b a = true := by
  constructor
  · unfold isSubtypeToward
    refine Bool.or_eq_true_iff.2 (.inr ?_)
    split
    · exact absurd rfl (hfunctions _ _ _ _ rfl)
    · exact absurd rfl (htuples _ _ rfl)
    · exact h
  · unfold isSubtypeToward
    refine Bool.or_eq_true_iff.2 (.inr ?_)
    split
    · exact absurd rfl (hfunctions _ _ _ _ rfl)
    · exact absurd rfl (htuples _ _ rfl)
    · exact h

/-- A literal is accepted where the rules let it be written. -/
theorem isSubtypeAtTop_literal {kind : LiteralKind} (hb : b.LeavesIn table.Definite)
    (h : table.isExpressible b kind = true) : table.isSubtypeAtTop (.literal kind) b = true := by
  cases b with
  | existential traits =>
    exact List.all_eq_true.2 ((hb _ List.mem_cons_self).existential traits kind rfl h)
  | _ => exact h

theorem mem_zip_swap {α β : Type} {xs : List α} {ys : List β} {p : β × α} (h : p ∈ ys.zip xs) :
    p.swap ∈ xs.zip ys := by
  rw [← List.zip_swap]
  exact List.mem_map.2 ⟨p, h, rfl⟩

theorem convention_of_mem_zip {ps qs : List Parameter} (h : ps.map (·.1) = qs.map (·.1))
    {p : Parameter × Parameter} (hp : p ∈ ps.zip qs) : p.1.1 = p.2.1 := by
  have hpair : (p.1.1, p.2.1) ∈ (ps.map (·.1)).zip (qs.map (·.1)) := by
    rw [List.zip_map]
    exact List.mem_map.2 ⟨p, hp, rfl⟩
  rw [h] at hpair
  exact (mem_zip_self hpair).1

section Rules

variable (hnominal : table.Nominal) (hacyclic : table.Acyclic)
variable (htable : table.LeavesIn table.Definite) {allowed : Ty → Prop}
variable (hallowed : ∀ t, allowed t → t.ErrorFree)
include hnominal hacyclic htable hallowed

/-- What is a subtype by the rules is accepted, in whichever direction it is looked at. -/
theorem isSubtypeToward_of_subtypeIn (h : table.SubtypeIn allowed a b) :
    a.LeavesIn table.Definite → b.LeavesIn table.Definite →
      table.isSubtypeToward true a b = true ∧ table.isSubtypeToward false b a = true := by
  have hparam : ∀ {rs : List Parameter} {w : Ty} {p : Parameter},
      (Ty.function rs w).LeavesIn table.Definite → p ∈ rs → p.2.LeavesIn table.Definite :=
    fun h hp => h.of_mem_children (List.mem_append_left _ (List.mem_map.2 ⟨_, hp, rfl⟩))
  have hresult : ∀ {rs : List Parameter} {w : Ty}, (Ty.function rs w).LeavesIn table.Definite →
      w.LeavesIn table.Definite :=
    fun h => h.of_mem_children (List.mem_append_right _ (List.mem_singleton.2 rfl))
  have heq : ∀ {x y : Ty}, x.LeavesIn table.Definite → y.LeavesIn table.Definite →
      agree x y = true → x = y := fun hx hy => eq_of_agree
    (errorFree_of_definite (definite_orParam hx)) (errorFree_of_definite (definite_orParam hy))
  induction h with
  | agree h =>
    intro ha hb
    obtain rfl := heq ha hb h
    exact ⟨isSubtypeToward_of_agree h, isSubtypeToward_of_agree h⟩
  | @function ps qs r u hconventions _ hboth _ ihOneWay ihResult =>
    intro ha hb
    obtain ⟨hup, hdown⟩ := ihResult (hresult ha) (hresult hb)
    have hzip : ∀ p ∈ ps.zip qs, p.1.2.LeavesIn table.Definite ∧ p.2.2.LeavesIn table.Definite :=
      fun p hp => ⟨hparam ha (List.of_mem_zip hp).1, hparam hb (List.of_mem_zip hp).2⟩
    constructor
    · refine isSubtypeToward_function (areSubtypeParams_of_zip hconventions (fun p hp hway => ?_)
        hboth) hup
      exact (ihOneWay p hp hway (hzip p hp).2 (hzip p hp).1).2
    · refine isSubtypeToward_function (areSubtypeParams_of_zip hconventions.symm
        (fun p hp hway => ?_) fun p hp hway => ?_) hdown
      · have hp' := mem_zip_swap hp
        rw [convention_of_mem_zip hconventions.symm hp] at hway
        exact (ihOneWay _ hp' hway (hzip _ hp').2 (hzip _ hp').1).1
      · have hp' := mem_zip_swap hp
        rw [convention_of_mem_zip hconventions.symm hp] at hway
        exact agree_of_eq (heq (hzip _ hp').1 (hzip _ hp').2 (hboth _ hp' hway)).symm
  | @tuple as bs hlength _ ih =>
    intro ha hb
    have hzip : ∀ p ∈ as.zip bs, p.1.LeavesIn table.Definite ∧ p.2.LeavesIn table.Definite :=
      fun p hp => ⟨ha.of_mem_children (List.of_mem_zip hp).1,
        hb.of_mem_children (List.of_mem_zip hp).2⟩
    constructor
    · refine isSubtypeToward_tuple (areSubtypesToward_of_zip hlength fun p hp => ?_)
      exact (ih p hp (hzip p hp).1 (hzip p hp).2).1
    · refine isSubtypeToward_tuple (areSubtypesToward_of_zip hlength.symm fun p hp => ?_)
      have hp' := mem_zip_swap hp
      exact (ih _ hp' (hzip _ hp').1 (hzip _ hp').2).2
  | literal h =>
    exact fun _ hb => isSubtypeToward_of_atTop nofun nofun (isSubtypeAtTop_literal hb h)
  | existential h =>
    exact fun _ _ => isSubtypeToward_of_atTop nofun nofun (List.all_eq_true.2 h)
  | nominal habove hhead hopens hθ hagree =>
    exact fun ha hb => isSubtypeToward_of_atTop nofun nofun (climbsTo_of_opens hnominal hacyclic
      htable ha hb habove hhead hopens (fun p => hallowed _ (hθ p)) hagree)

/-- **Subtyping by the rules** is accepted. -/
theorem isSubtype_of_subtypeIn (ha : a.LeavesIn table.Definite) (hb : b.LeavesIn table.Definite)
    (h : table.SubtypeIn allowed a b) : table.isSubtype a b = true :=
  (isSubtypeToward_of_subtypeIn hnominal hacyclic htable hallowed h ha hb).1

end Rules

theorem definite_literal (kind : LiteralKind) : table.Definite (.literal kind) :=
  ⟨nofun, nofun, nofun⟩

end Table

/-! ### Constraints -/

theorem find?_decl {c : Candidate} : ∀ {cs : List Candidate}, (cs.map (·.decl)).Nodup → c ∈ cs →
    cs.find? (·.decl == c.decl) = some c
  | d :: cs, hnodup, hc => by
    obtain ⟨hd, hnodup⟩ := List.nodup_cons.1 hnodup
    rw [List.find?_cons]
    rcases List.mem_cons.1 hc with rfl | hc
    · rw [beq_self_eq_true]
    · have hne : d.decl ≠ c.decl := fun heq => hd (List.mem_map.2 ⟨c, hc, heq.symm⟩)
      rw [beq_eq_false_iff_ne.2 hne]
      exact find?_decl hnodup hc

namespace Solution

/-- The reading gives the variables the types of the solution, in which nothing is indefinite, and
has the same references and predicates. Generic parameters stand for types without the error
type. -/
structure Reads (s : Solution) (table : Table) (vars : List TyVar) (R : Reading) : Prop where
  apply : ∀ t : Ty, (∀ v ∈ t.vars, v ∈ vars) → s.apply t = t.mapVars R.types
  definite : ∀ v ∈ vars, (R.types v).LeavesIn table.Definite
  references : ∀ site, s.reference? site = R.reference? site
  predicates : s.predicates = R.predicates
  allowed : ∀ t, R.allowed t → t.ErrorFree

variable {s : Solution} {vars : List TyVar} {R : Reading} {t : Ty}

theorem Reads.definite_mapVars (h : s.Reads table vars R) (ht : t.LeavesIn table.Definite)
    (hvars : ∀ v ∈ t.vars, v ∈ vars) : (t.mapVars R.types).LeavesIn table.Definite :=
  ht.mapVars fun v hv => h.definite v (hvars v hv)

/-- A reference is accepted if its candidate has an instance of the type. -/
theorem refersTo_of_mem {cs : List Candidate} {c : Candidate} {site : NodeId}
    (hnodup : (cs.map (·.decl)).Nodup) (hc : c ∈ cs) (href : s.reference? site = some c.decl)
    (hinstance : c.hasInstance table t = true) : s.refersTo table cs site t = true := by
  unfold refersTo
  rw [href, Option.bind_some, find?_decl hnodup hc]
  exact hinstance

section Built

variable (hbuilt : table.Built) (htable : table.LeavesIn table.Definite)
include hbuilt htable

/-- A member that holds is accepted. -/
theorem refersTo_of_memberHoldsIn (h : s.Reads table vars R) {base : Ty} {member : Name}
    {site : NodeId} {c : Candidate} {opened : Ty} {θ : Name → Ty}
    (hb : base.LeavesIn table.Definite) (ht : t.LeavesIn table.Definite)
    (hc : c ∈ table.members base member) (href : R.reference? site = some c.decl)
    (hopens : Ty.Opens θ c.type opened) (hθ : ∀ p, R.allowed (θ p))
    (hagree : agree t opened = true) (hbounds : c.BoundsHold table θ) :
    s.refersTo table (table.members base member) site t = true := by
  have hfree := Table.errorFree_of_definite
    (Table.leavesIn_of_mem_members htable (Table.definite_orParam hb) hc)
  obtain rfl := eq_of_agree (Table.errorFree_of_definite (Table.definite_orParam ht))
    (hopens.errorFree hfree fun p => h.allowed _ (hθ p)) hagree
  refine refersTo_of_mem (hbuilt.nodup_members base member) hc ((h.references site).trans href) ?_
  rw [hopens.eq_mapParams (Table.params_of_definite ht)]
  exact c.hasInstance_mapParams hbounds

/-- A relation that holds is satisfied. -/
theorem satisfiesRelation_of_holdsIn (h : s.Reads table vars R) {r : Relation}
    (hr : ∀ t ∈ r.types, t.LeavesIn table.Definite ∧ ∀ v ∈ t.vars, v ∈ vars)
    (hholds : r.HoldsIn table R) : s.satisfiesRelation table r = true := by
  have happly : ∀ t ∈ r.types, s.apply t = t.mapVars R.types := fun t ht => h.apply t (hr t ht).2
  have hdefinite : ∀ t ∈ r.types, (t.mapVars R.types).LeavesIn table.Definite := fun t ht =>
    h.definite_mapVars (hr t ht).1 (hr t ht).2
  unfold satisfiesRelation
  cases r with
  | equality a b =>
    dsimp only
    rw [happly a List.mem_cons_self, happly b (List.mem_cons_of_mem _ List.mem_cons_self)]
    exact hholds
  | subtyping a b | returnBinding a b =>
    have hb : b ∈ [a, b] := List.mem_cons_of_mem _ List.mem_cons_self
    dsimp only
    rw [happly a List.mem_cons_self, happly b hb]
    exact Table.isSubtype_of_subtypeIn hbuilt.nominal hbuilt.acyclic htable h.allowed
      (hdefinite a List.mem_cons_self) (hdefinite b hb) hholds
  | conformance type traits =>
    dsimp only
    rw [happly type List.mem_cons_self]
    exact List.all_eq_true.2 hholds
  | conversion type kind =>
    dsimp only
    rw [happly type List.mem_cons_self]
    exact Bool.or_eq_true_iff.2 (hholds.imp_left beq_iff_eq.2)
  | valueMember base member type site =>
    have htype : type ∈ [base, type] := List.mem_cons_of_mem _ List.mem_cons_self
    have hb := hdefinite base List.mem_cons_self
    have ht := hdefinite type htype
    replace hholds : MemberHoldsIn table R (base.mapVars R.types) member (type.mapVars R.types)
      site := hholds
    dsimp only
    rw [happly base List.mem_cons_self, happly type htype]
    generalize base.mapVars R.types = b at hb hholds ⊢
    cases b with
    | error => rfl
    | tuple elements =>
      obtain ⟨element, helement, hagree⟩ := hholds
      dsimp only
      rw [helement]
      exact hagree
    | _ =>
      obtain ⟨c, hc, href, θ, opened, hopens, hθ, hagree, hbounds⟩ := hholds
      exact refersTo_of_memberHoldsIn hbuilt htable h hb ht hc href hopens hθ hagree hbounds
  | size predicate =>
    rw [h.predicates]
    exact List.contains_iff_mem.2 hholds

omit hbuilt htable in
theorem satisfiesAll_iff : ∀ cs : List Constraint,
    s.satisfiesAll table cs = true ↔ ∀ c ∈ cs, s.satisfies table c = true
  | [] => by simp [satisfiesAll]
  | c :: cs => by simp [satisfiesAll, satisfiesAll_iff cs]

omit hbuilt htable in
theorem satisfiesAny_iff : ∀ ms : List (Minterm Constraint), s.satisfiesAny table ms = true ↔
    ∃ m ∈ ms, ∀ c ∈ m.constraints, s.satisfies table c = true
  | [] => by simp [satisfiesAny]
  | ⟨cs, penalty⟩ :: ms => by
    simp [satisfiesAny, satisfiesAny_iff ms, satisfiesAll_iff]

/-- **A constraint that holds is satisfied**, if it holds at types without the error type. -/
theorem satisfies_of_holdsIn (h : s.Reads table vars R) {c : Constraint}
    (hholds : c.HoldsIn table R) : c.LeavesIn table.Definite → c.Declared →
      (∀ t ∈ c.types, ∀ v ∈ t.vars, v ∈ vars) → s.satisfies table c = true := by
  induction hholds with
  | relation hholds =>
    intro hleaves _ hvars
    cases hleaves with
    | relation hleaves =>
      have hdefinite := hleaves.types Table.definite_literal
      exact satisfiesRelation_of_holdsIn hbuilt htable h (fun t ht => ⟨hdefinite t ht, hvars t ht⟩)
        hholds
  | @overload o l c θ hc href hθ hagree hbounds =>
    intro hleaves hdeclared hvars
    cases hleaves with
    | overload htype hcandidates =>
      cases hdeclared with
      | overload hnodup hground =>
        have htypevars := hvars o.type List.mem_cons_self
        have hdefinite := h.definite_mapVars htype htypevars
        have hsubst : c.type.subst R.types θ = c.type.mapParams θ :=
          Ty.subst_congr (fun v hv => by rw [hground c hc] at hv; cases hv) fun _ _ => rfl
        rw [hsubst] at hagree
        have hopens : Ty.Opens θ c.type (c.type.mapParams θ) :=
          ⟨c.type, .var, (Ty.mapVars_eq_self (hground c hc)).symm, rfl⟩
        have hfree := hopens.errorFree (Table.errorFree_of_definite (hcandidates c hc))
          fun p => h.allowed _ (hθ p)
        have heq := eq_of_agree (Table.errorFree_of_definite (Table.definite_orParam hdefinite))
          hfree hagree
        show s.refersTo table o.candidates o.site (s.apply o.type) = true
        rw [h.apply o.type htypevars, heq]
        exact refersTo_of_mem hnodup hc ((h.references _).trans href)
          (c.hasInstance_mapParams hbounds)
  | @disjunction ms l m hm _ ih =>
    intro hleaves hdeclared hvars
    cases hleaves with
    | disjunction hleaves =>
      cases hdeclared with
      | disjunction hdeclared =>
        refine (satisfiesAny_iff ms).2 ⟨m, hm, fun c hc => ih c hc (hleaves m hm c hc)
          (hdeclared m hm c hc) fun t ht => hvars t ?_⟩
        rw [Constraint.types, Constraint.typesOfMinterms_eq_flatMap]
        exact List.mem_flatMap.2 ⟨m, hm, List.mem_flatMap.2 ⟨c, hc, ht⟩⟩

end Built
end Solution
end TypeResolution
