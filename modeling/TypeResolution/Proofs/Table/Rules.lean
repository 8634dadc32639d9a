/-
# Subtyping by rules

Between types without the error type, the checker's subtyping is what a handful of rules say
(`Table.Below`, `Table.isSubtype_iff_below`): a nominal type is below the instances of all that is
above it, an existential is above the types that conform to its traits, and functions and tuples are
compared by their parts, with parameters the other way round. A supertype of a type without
arguments has generic parameters left, for which any types may stand; what a pattern matches is an
instance of it (`matches_matchPattern`).

Key definitions: `Matches`, `Table.Below`.
Key theorems: `matches_matchPattern`, `Table.Below.isSubtype`, `Table.isSubtype_iff_below`.
-/
import TypeResolution.Proofs.Satisfaction
import TypeResolution.Proofs.Table.Subtyping

namespace TypeResolution

variable {table : Table} {a b t : Ty} {θ : Name → Ty} {known known' known₁ : Assignment}

/-! ### Parts of types -/

theorem Ty.param_mem_children {ps : List Parameter} (r : Ty) {p : Parameter} (hp : p ∈ ps) :
    p.2 ∈ (Ty.function ps r).children := List.mem_append_left _ (List.mem_map.2 ⟨p, hp, rfl⟩)

theorem Ty.result_mem_children (ps : List Parameter) (r : Ty) : r ∈ (Ty.function ps r).children :=
  List.mem_append_right _ (List.mem_singleton.2 rfl)

theorem Ty.ErrorFree.child {c : Ty} (h : t.ErrorFree) (hc : c ∈ t.children) : c.ErrorFree :=
  hereditary_errorFree.child h hc

theorem Ty.ErrorFree.ne (h : t.ErrorFree) : t ≠ .error := by
  rintro rfl
  exact h List.mem_cons_self

/-! ### What a match says -/

namespace Assignment

/-- All that is assigned before stays assigned, and no error type is added. -/
structure Grows (known known' : Assignment) : Prop where
  keeps : ∀ n u, known.lookup n = some u → known'.lookup n = some u
  errorFree : (∀ n u, known.lookup n = some u → u.ErrorFree) →
    ∀ n u, known'.lookup n = some u → u.ErrorFree

theorem Grows.refl (known : Assignment) : known.Grows known := ⟨fun _ _ h => h, fun h => h⟩

theorem Grows.trans (h : known.Grows known₁) (h' : known₁.Grows known') : known.Grows known' :=
  ⟨fun n u hu => h'.keeps n u (h.keeps n u hu), fun hfree => h'.errorFree (h.errorFree hfree)⟩

theorem Grows.assignedBy (hgrows : known.Grows known') (h : AssignedBy θ known') :
    AssignedBy θ known := fun p t ht => h p t (hgrows.keeps p t ht)

/-- One more parameter is assigned. -/
theorem Grows.cons {name : Name} (hname : known.lookup name = none) (ht : t.ErrorFree) :
    known.Grows ((name, t) :: known) := by
  refine ⟨fun n u hu => ?_, fun hfree n u hu => ?_⟩
  · rw [List.lookup_cons, beq_eq_false_iff_ne.2 fun heq => ?_]
    · exact hu
    · rw [heq, hname] at hu
      cases hu
  · rw [List.lookup_cons] at hu
    by_cases heq : n = name
    · rw [beq_iff_eq.2 heq] at hu
      exact Option.some.inj hu ▸ ht
    · rw [beq_eq_false_iff_ne.2 heq] at hu
      exact hfree n u hu

end Assignment

/-- The match completes the assignment, so that the pattern with it is the type. -/
def Matches (pattern t : Ty) : Prop :=
  ∀ {known known' : Assignment}, (∀ n u, known.lookup n = some u → u.ErrorFree) →
    matchPattern pattern t known = some known' →
    known.Grows known' ∧ ∀ θ, AssignedBy θ known' → pattern.mapParams θ = t

theorem matches_matchAll : ∀ {as bs : List Ty}, (∀ a ∈ as, ∀ b ∈ bs, Matches a b) →
    ∀ {known known' : Assignment}, (∀ n u, known.lookup n = some u → u.ErrorFree) →
      matchAll as bs known = some known' →
      known.Grows known' ∧ ∀ θ, AssignedBy θ known' → as.map (Ty.mapParams θ) = bs
  | [], [], _, known, known', _, hmatch => by
    obtain rfl := Option.some.inj hmatch
    exact ⟨.refl known, fun _ _ => rfl⟩
  | a :: as, b :: bs, h, known, known', hfree, hmatch => by
    rw [matchAll] at hmatch
    obtain ⟨known₁, hfirst, hrest⟩ := Option.bind_eq_some_iff.1 hmatch
    obtain ⟨hgrows, hfirst⟩ := h a List.mem_cons_self b List.mem_cons_self hfree hfirst
    obtain ⟨hgrows', hrest⟩ := matches_matchAll (fun x hx y hy =>
      h x (List.mem_cons_of_mem _ hx) y (List.mem_cons_of_mem _ hy)) (hgrows.errorFree hfree) hrest
    refine ⟨hgrows.trans hgrows', fun θ hθ => ?_⟩
    rw [List.map_cons, hfirst θ (hgrows'.assignedBy hθ), hrest θ hθ]
  | [], _ :: _, _, _, _, _, hmatch => by cases hmatch
  | _ :: _, [], _, _, _, _, hmatch => by cases hmatch

theorem matches_matchParams : ∀ {ps qs : List Parameter},
    (∀ p ∈ ps, ∀ q ∈ qs, Matches p.2 q.2) →
    ∀ {known known' : Assignment}, (∀ n u, known.lookup n = some u → u.ErrorFree) →
      matchParams ps qs known = some known' →
      known.Grows known' ∧
        ∀ θ, AssignedBy θ known' → (ps.map fun p => (p.1, p.2.mapParams θ)) = qs
  | [], [], _, known, known', _, hmatch => by
    obtain rfl := Option.some.inj hmatch
    exact ⟨.refl known, fun _ _ => rfl⟩
  | (c, a) :: ps, (d, b) :: qs, h, known, known', hfree, hmatch => by
    rw [matchParams] at hmatch
    split at hmatch
    · rename_i hcd
      obtain ⟨known₁, hfirst, hrest⟩ := Option.bind_eq_some_iff.1 hmatch
      obtain ⟨hgrows, hfirst⟩ := h (c, a) List.mem_cons_self (d, b) List.mem_cons_self hfree hfirst
      obtain ⟨hgrows', hrest⟩ := matches_matchParams (fun x hx y hy =>
        h x (List.mem_cons_of_mem _ hx) y (List.mem_cons_of_mem _ hy))
        (hgrows.errorFree hfree) hrest
      refine ⟨hgrows.trans hgrows', fun θ hθ => ?_⟩
      rw [List.map_cons, hfirst θ (hgrows'.assignedBy hθ), hrest θ hθ, hcd]
    · cases hmatch
  | [], _ :: _, _, _, _, _, hmatch => by cases hmatch
  | _ :: _, [], _, _, _, _, hmatch => by cases hmatch

/-- A parameter matches what it is assigned to already, or any type. -/
theorem matches_param (name : Name) (ht : t.ErrorFree) : Matches (.param name) t := by
  intro known known' hfree hmatch
  rw [matchPattern] at hmatch
  cases hlookup : known.lookup name with
  | some assigned =>
    rw [hlookup] at hmatch
    dsimp only at hmatch
    split at hmatch
    · rename_i hagree
      obtain rfl := Option.some.inj hmatch
      refine ⟨.refl known, fun θ hθ => ?_⟩
      rw [← eq_of_agree (hfree name assigned hlookup) ht hagree]
      exact (hθ name assigned hlookup).symm
    · cases hmatch
  | none =>
    rw [hlookup] at hmatch
    obtain rfl := Option.some.inj hmatch
    exact ⟨.cons hlookup ht, fun θ hθ => (hθ name t (by simp)).symm⟩

/-- **A pattern matches only its instances**, as far as the error type is not concerned. -/
theorem matches_matchPattern {pattern t : Ty} (hpattern : pattern.ErrorFree) (ht : t.ErrorFree) :
    Matches pattern t := by
  induction pattern generalizing t with
  | param name => exact matches_param name ht
  | nominal n as ih =>
    intro known known' hfree hmatch
    cases t with
    | error => exact absurd rfl ht.ne
    | nominal m bs =>
      rw [matchPattern] at hmatch
      split at hmatch
      · rename_i hnm
        have hparts : ∀ x ∈ as, ∀ y ∈ bs, Matches x y := fun x hx y hy =>
          ih x hx (hpattern.child hx) (ht.child hy)
        obtain ⟨hgrows, hall⟩ := matches_matchAll hparts hfree hmatch
        refine ⟨hgrows, fun θ hθ => ?_⟩
        rw [Ty.mapParams_nominal, hall θ hθ, hnm]
      · cases hmatch
    | _ => cases hmatch
  | tuple as ih =>
    intro known known' hfree hmatch
    cases t with
    | error => exact absurd rfl ht.ne
    | tuple bs =>
      rw [matchPattern] at hmatch
      have hparts : ∀ x ∈ as, ∀ y ∈ bs, Matches x y := fun x hx y hy =>
        ih x hx (hpattern.child hx) (ht.child hy)
      obtain ⟨hgrows, hall⟩ := matches_matchAll hparts hfree hmatch
      refine ⟨hgrows, fun θ hθ => ?_⟩
      rw [Ty.mapParams_tuple, hall θ hθ]
    | _ => cases hmatch
  | function ps r ihp ihr =>
    intro known known' hfree hmatch
    cases t with
    | error => exact absurd rfl ht.ne
    | function qs u =>
      rw [matchPattern] at hmatch
      obtain ⟨known₁, hparams, hmatch⟩ := Option.bind_eq_some_iff.1 hmatch
      obtain ⟨hgrows, hall⟩ := matches_matchParams (fun x hx y hy =>
        ihp x hx (hpattern.child (Ty.param_mem_children r hx))
          (ht.child (Ty.param_mem_children u hy))) hfree hparams
      obtain ⟨hgrows', hlast⟩ := ihr (hpattern.child (Ty.result_mem_children ps r))
        (ht.child (Ty.result_mem_children qs u)) (hgrows.errorFree hfree) hmatch
      refine ⟨hgrows.trans hgrows', fun θ hθ => ?_⟩
      rw [Ty.mapParams_function, hall θ (hgrows'.assignedBy hθ), hlast θ hθ]
    | _ => cases hmatch
  | error => exact (hpattern.ne rfl).elim
  | _ =>
    intro known known' hfree hmatch
    cases t with
    | error => exact absurd rfl ht.ne
    | _ =>
      obtain ⟨heq, hsame⟩ := Option.ite_none_right_eq_some.1 hmatch
      obtain rfl := Option.some.inj hsame
      rw [← heq]
      exact ⟨.refl known, fun _ _ => rfl⟩

namespace Table

/-! ### The rules -/

/-- The rules of subtyping between types without the error type. -/
inductive Below (t : Table) : Ty → Ty → Prop where
  | refl (a : Ty) : t.Below a a
  | existential {a : Ty} {traits : TraitSet} :
      (∀ trait ∈ traits.names, t.conforms a trait = true) → t.Below a (.existential traits)
  | literal {kind : LiteralKind} {b : Ty} : (∀ traits, b ≠ .existential traits) →
      t.isExpressible b kind = true → t.Below (.literal kind) b
  | function {ps qs : List Parameter} {r u : Ty} : ps.map (·.1) = qs.map (·.1) →
      (∀ p ∈ ps.zip qs, p.1.1.isOneWay = true → t.Below p.2.2 p.1.2) →
      (∀ p ∈ ps.zip qs, p.1.1.isOneWay = false → p.1.2 = p.2.2) →
      t.Below r u → t.Below (.function ps r) (.function qs u)
  | tuple {as bs : List Ty} : as.length = bs.length → (∀ p ∈ as.zip bs, t.Below p.1 p.2) →
      t.Below (.tuple as) (.tuple bs)
  | inherited {n m : Name} {as bs : List Ty} {sup : Ty} {θ : Name → Ty} :
      t.Above (.nominal n as) sup → sup.mapParams θ = .nominal m bs →
      t.Below (.nominal n as) (.nominal m bs)

/-! ### Soundness -/

theorem isSubtype_existential {traits : TraitSet}
    (h : ∀ trait ∈ traits.names, table.conforms a trait = true) :
    table.isSubtype a (.existential traits) = true := by
  refine (isSubtypeToward_of_atTop (fun _ _ _ _ _ h => ?_) (fun _ _ _ h => ?_) ?_).1
  · cases h
  · cases h
  · exact List.all_eq_true.2 h

theorem isSubtype_literal {kind : LiteralKind} (hne : ∀ traits, b ≠ .existential traits)
    (h : table.isExpressible b kind = true) : table.isSubtype (.literal kind) b = true := by
  refine (isSubtypeToward_of_atTop (fun _ _ _ _ h => ?_) (fun _ _ h => ?_) ?_).1
  · cases h
  · cases h
  · cases b with
    | existential traits => exact absurd rfl (hne traits)
    | _ => exact h

theorem isSubtype_function {ps qs : List Parameter} {r u : Ty}
    (hconventions : ps.map (·.1) = qs.map (·.1))
    (honeWay : ∀ p ∈ ps.zip qs, p.1.1.isOneWay = true → table.isSubtype p.2.2 p.1.2 = true)
    (hboth : ∀ p ∈ ps.zip qs, p.1.1.isOneWay = false → agree p.1.2 p.2.2 = true)
    (hresult : table.isSubtype r u = true) :
    table.isSubtype (.function ps r) (.function qs u) = true := by
  refine isSubtypeToward_function (areSubtypeParams_of_zip hconventions ?_ hboth) hresult
  intro p hp hway
  rw [isSubtypeToward_flip]
  exact honeWay p hp hway

theorem isSubtype_tuple {as bs : List Ty} (hlength : as.length = bs.length)
    (h : ∀ p ∈ as.zip bs, table.isSubtype p.1 p.2 = true) :
    table.isSubtype (.tuple as) (.tuple bs) = true :=
  isSubtypeToward_tuple (areSubtypesToward_of_zip hlength h)

/-- A nominal type is a subtype of the instances of all that is above it. -/
theorem isSubtype_of_above (hnominal : table.Nominal) (hacyclic : table.Acyclic) {n m : Name}
    {as bs : List Ty} {sup : Ty} (habove : table.Above (.nominal n as) sup)
    (hinstance : sup.mapParams θ = .nominal m bs) :
    table.isSubtype (.nominal n as) (.nominal m bs) = true := by
  obtain ⟨k, cs, rfl, -⟩ := habove.exists_nominal hnominal
  obtain ⟨rfl, -⟩ := Ty.nominal.inj ((Ty.mapParams_nominal θ k cs).symm.trans hinstance)
  rw [isSubtype_nominal]
  refine climbsTo_of_above hnominal hacyclic habove (beq_self_eq_true k) ?_
  rw [← hinstance]
  cases hparams : (Ty.nominal k cs).hasParams with
  | true =>
    obtain ⟨known, hmatch, -⟩ := matchPattern_mapParams θ (.nominal k cs) [] nofun
    refine .inl ?_
    rw [hmatch]
    rfl
  | false =>
    rw [Ty.mapParams_eq_self (by simpa [Ty.hasParams] using hparams)]
    exact .inr (agree_refl _)

/-- What is below another type is a subtype of it. -/
theorem Below.isSubtype (hnominal : table.Nominal) (hacyclic : table.Acyclic)
    (h : table.Below a b) : table.isSubtype a b = true := by
  induction h with
  | refl a => exact isSubtypeToward_of_agree (agree_refl a)
  | existential hall => exact isSubtype_existential hall
  | literal hne hb => exact isSubtype_literal hne hb
  | function hconventions _ hboth _ honeWay hresult =>
    exact isSubtype_function hconventions honeWay
      (fun p hp hway => agree_of_eq (hboth p hp hway)) hresult
  | tuple hlength _ ih => exact isSubtype_tuple hlength ih
  | inherited habove hinstance => exact isSubtype_of_above hnominal hacyclic habove hinstance

/-! ### Completeness -/

/-- A way up that the checker finds leads to a supertype that is the other type or matches it. -/
theorem exists_above_of_climbsTo {m : Name} {bs : List Ty} : ∀ (fuel : Nat) {a : Ty},
    table.climbsTo fuel a (.nominal m bs) = true → agree a (.nominal m bs) = true ∨
      ∃ sup, table.Above a sup ∧ (agree sup (.nominal m bs) = true ∨
        (matchPattern sup (.nominal m bs) []).isSome = true)
  | 0, a, h => .inl h
  | fuel + 1, a, h => by
    unfold climbsTo at h
    refine (Bool.or_eq_true_iff.1 h).imp_right fun h => ?_
    split at h
    · rename_i heq _
      obtain ⟨rfl, rfl⟩ := Ty.nominal.inj heq
      obtain ⟨sup, hsup, hfits⟩ := List.any_eq_true.1 (Bool.and_eq_true_iff.1 h).2
      rcases Bool.or_eq_true_iff.1 hfits with hmatch | hclimbs
      · exact ⟨sup, .single hsup, .inr (Bool.and_eq_true_iff.1 hmatch).2⟩
      · rcases exists_above_of_climbsTo fuel hclimbs with hagree | ⟨sup', habove, hfits⟩
        · exact ⟨sup, .single hsup, .inl hagree⟩
        · exact ⟨sup', .head hsup habove, hfits⟩
    · cases h

/-- Without the error type, a supertype that is the other type or matches it has it as instance. -/
theorem exists_instance {sup : Ty} {m : Name} {bs : List Ty} (hsup : sup.ErrorFree)
    (hb : (Ty.nominal m bs).ErrorFree) (h : agree sup (.nominal m bs) = true ∨
      (matchPattern sup (.nominal m bs) []).isSome = true) :
    ∃ θ, sup.mapParams θ = .nominal m bs := by
  rcases h with hagree | hmatch
  · exact ⟨.param, (Ty.subst_var_param sup).trans (eq_of_agree hsup hb hagree)⟩
  · obtain ⟨known, hmatch⟩ := Option.isSome_iff_exists.1 hmatch
    obtain ⟨-, hinstance⟩ := matches_matchPattern hsup hb (fun _ _ h => by cases h) hmatch
    refine ⟨fun p => (known.lookup p).getD (.param p), hinstance _ fun p t hp => ?_⟩
    rw [hp]
    rfl

/-- Lists that pair equal conventions have the same conventions. -/
theorem conventions_of_zip : ∀ {ps qs : List Parameter}, ps.length = qs.length →
    (∀ p ∈ ps.zip qs, p.1.1 = p.2.1) → ps.map (·.1) = qs.map (·.1)
  | [], [], _, _ => rfl
  | p :: ps, q :: qs, hlength, h => by
    rw [List.zip_cons_cons] at h
    obtain ⟨hfirst, hrest⟩ := List.forall_mem_cons.1 h
    rw [List.map_cons, List.map_cons, hfirst, conventions_of_zip (Nat.succ.inj hlength) hrest]

/-- Between types that are not both nominal: what the checker finds comes down to the parts. -/
theorem below_of_subtypeResult (ih : ∀ c ∈ table.subtypeCalls (a, b), c.1.ErrorFree →
      c.2.ErrorFree → table.isSubtype c.1 c.2 = true → table.Below c.1 c.2)
    (ha : a.ErrorFree) (hb : b.ErrorFree)
    (hnominals : ¬ ∃ n as m bs, a = .nominal n as ∧ b = .nominal m bs)
    (h : table.subtypeResult (fun p => table.isSubtype p.1 p.2) a b = true) : table.Below a b := by
  unfold subtypeResult at h
  split at h
  · exact .existential (List.all_eq_true.1 h)
  · rename_i hne
    exact .literal hne h
  · rename_i ps r qs u
    obtain ⟨hparams, hlast⟩ := Bool.and_eq_true_iff.1 h
    obtain ⟨hlength, hparams⟩ := Bool.and_eq_true_iff.1 hparams
    have hzip := List.all_eq_true.1 hparams
    have hfree : ∀ p ∈ ps.zip qs, p.1.2.ErrorFree ∧ p.2.2.ErrorFree := fun p hp =>
      ⟨ha.child (Ty.param_mem_children r (List.of_mem_zip hp).1),
        hb.child (Ty.param_mem_children u (List.of_mem_zip hp).2)⟩
    refine .function (conventions_of_zip (beq_iff_eq.1 hlength) fun p hp => ?_) ?_ ?_ ?_
    · exact beq_iff_eq.1 (Bool.and_eq_true_iff.1 (hzip p hp)).1
    · intro p hp hway
      have hpart := (Bool.and_eq_true_iff.1 (hzip p hp)).2
      rw [if_pos hway] at hpart
      refine ih (p.2.2, p.1.2) (List.mem_append_left _ ?_) (hfree p hp).2 (hfree p hp).1 hpart
      exact List.mem_map.2 ⟨p, List.mem_filter.2 ⟨hp, hway⟩, rfl⟩
    · intro p hp hway
      have hpart := (Bool.and_eq_true_iff.1 (hzip p hp)).2
      rw [if_neg (by rw [hway]; exact Bool.false_ne_true)] at hpart
      exact eq_of_agree (hfree p hp).1 (hfree p hp).2 hpart
    · exact ih (r, u) (List.mem_append_right _ List.mem_cons_self)
        (ha.child (Ty.result_mem_children ps r)) (hb.child (Ty.result_mem_children qs u)) hlast
  · rename_i as bs
    obtain ⟨hlength, hparts⟩ := Bool.and_eq_true_iff.1 h
    refine .tuple (beq_iff_eq.1 hlength) fun p hp => ?_
    obtain ⟨hleft, hright⟩ := List.of_mem_zip hp
    exact ih p hp (ha.child hleft) (hb.child hright) (List.all_eq_true.1 hparts p hp)
  · exact absurd ⟨_, _, _, _, rfl, rfl⟩ hnominals
  · cases h

/-- What is above a type without the error type is so too, if the declared supertypes are. -/
theorem Above.errorFree (hsup : ∀ d ∈ table.types, ∀ sup ∈ d.supertypes, sup.ErrorFree)
    (h : table.Above a b) (ha : a.ErrorFree) : b.ErrorFree := by
  have hleaves : ∀ {t : Ty}, t.ErrorFree → t.LeavesIn (Ty.OrParam (· ≠ .error)) :=
    fun ht l hl => .inl fun heq => ht (heq ▸ hl)
  refine (h.leavesIn (fun d hd sup hmem => hleaves (hsup d hd sup hmem)) (hleaves ha)).errorFree ?_
  exact fun h => h.elim (· rfl) nofun

/-- **The checker's subtyping is what the rules say**, between types without the error type. -/
theorem isSubtype_iff_below (hbuilt : table.Built)
    (hsup : ∀ d ∈ table.types, ∀ sup ∈ d.supertypes, sup.ErrorFree) (ha : a.ErrorFree)
    (hb : b.ErrorFree) : table.isSubtype a b = true ↔ table.Below a b := by
  refine ⟨?_, Below.isSubtype hbuilt.nominal hbuilt.acyclic⟩
  refine (subtypeRecursion_computes hbuilt.nominal hbuilt.acyclic).induct (P := fun p =>
    p.1.ErrorFree → p.2.ErrorFree → table.isSubtype p.1 p.2 = true → table.Below p.1 p.2) ?_ (a, b)
    ha hb
  rintro ⟨a, b⟩ ih ha hb h
  dsimp only at ha hb h ⊢
  by_cases hnominals : ∃ n as m bs, a = .nominal n as ∧ b = .nominal m bs
  · obtain ⟨n, as, m, bs, rfl, rfl⟩ := hnominals
    rw [isSubtype_nominal] at h
    rcases exists_above_of_climbsTo table.height h with hagree | ⟨sup, habove, hfits⟩
    · rw [eq_of_agree ha hb hagree]
      exact .refl _
    · obtain ⟨θ, hinstance⟩ := exists_instance (habove.errorFree hsup ha) hb hfits
      exact .inherited habove hinstance
  · rw [isSubtype_eq fun n as m bs ha hb => hnominals ⟨n, as, m, bs, ha, hb⟩] at h
    rcases Bool.or_eq_true_iff.1 h with hagree | hresult
    · rw [eq_of_agree ha hb hagree]
      exact .refl b
    · exact below_of_subtypeResult ih ha hb hnominals hresult

end Table
end TypeResolution
