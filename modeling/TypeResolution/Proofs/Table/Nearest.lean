/-
# Subtyping by the nearest supertype

A search settles a subtyping between types without variables by rules of its own (`Table.Fits`): of
the supertypes of a nominal type only the nearest one with the name of the other type counts, the
first of equally near ones. The checker goes all ways up. So what fits is a subtype
(`Table.Fits.isSubtype`), and the other way round if supertypes of one name that are above one type
are the same (`Table.Coherent`, `Table.fits_of_isSubtype`), for types without the error type.

The nearest supertype is found if there is any, since a search that finds nothing has gone through
all that is above (`Table.exists_findSupertype`).

Key definitions: `Table.Fits`, `Table.Coherent`.
Key theorems: `Table.Fits.isSubtype`, `Table.exists_findSupertype`, `Table.fits_of_isSubtype`.
-/
import TypeResolution.Proofs.Table.Rules

namespace TypeResolution

variable {table : Table} {a b t : Ty}

/-- A type without variables and without the error type. -/
structure Ty.Concrete (t : Ty) : Prop where
  vars : t.vars = []
  errorFree : t.ErrorFree

theorem Ty.Concrete.child {c : Ty} (h : t.Concrete) (hc : c ∈ t.children) : c.Concrete :=
  ⟨vars_of_mem_children hc h.vars, h.errorFree.child hc⟩

namespace Table

/-! ### The rules -/

/-- The rules by which a search settles a subtyping between types without variables. Types of other
names are looked for upwards, and only the nearest one of the name counts. -/
inductive Fits (t : Table) : Ty → Ty → Prop where
  | refl (a : Ty) : t.Fits a a
  | errorLeft (b : Ty) : t.Fits .error b
  | errorRight (a : Ty) : t.Fits a .error
  | existential {a : Ty} {traits : TraitSet} :
      (∀ trait ∈ traits.names, t.conforms a trait = true) → t.Fits a (.existential traits)
  | literal {kind : LiteralKind} {b : Ty} : (∀ traits, b ≠ .existential traits) →
      t.isExpressible b kind = true → t.Fits (.literal kind) b
  | function {ps qs : List Parameter} {r u : Ty} : ps.map (·.1) = qs.map (·.1) →
      (∀ p ∈ ps.zip qs, p.1.1.isOneWay = true → t.Fits p.2.2 p.1.2) →
      (∀ p ∈ ps.zip qs, p.1.1.isOneWay = false → agree p.1.2 p.2.2 = true) →
      t.Fits r u → t.Fits (.function ps r) (.function qs u)
  | tuple {as bs : List Ty} : as.length = bs.length → (∀ p ∈ as.zip bs, t.Fits p.1 p.2) →
      t.Fits (.tuple as) (.tuple bs)
  | arguments {n : Name} {as bs : List Ty} : as.length = bs.length →
      (∀ p ∈ as.zip bs, agree p.1 p.2 = true) → t.Fits (.nominal n as) (.nominal n bs)
  | nominal {n m : Name} {as bs : List Ty} {sup : Ty} {θ : Name → Ty} :
      t.findSupertype (.nominal n as) m = some sup → sup.vars = [] →
      sup.mapParams θ = .nominal m bs → t.Fits (.nominal n as) (.nominal m bs)

/-- Supertypes of one name that are above one type are the same. -/
def Coherent (t : Table) : Prop := ∀ a b c m, t.Above a b → t.Above a c →
  hasHead m b = true → hasHead m c = true → b = c

/-! ### Reading the rules backwards -/

theorem fits_existential_iff {traits : TraitSet} (hne : a ≠ .existential traits)
    (ha : a ≠ .error) : table.Fits a (.existential traits) ↔
      ∀ trait ∈ traits.names, table.conforms a trait = true := by
  refine ⟨fun h => ?_, .existential⟩
  cases h with
  | refl => exact absurd rfl hne
  | errorLeft => exact absurd rfl ha
  | existential hall => exact hall
  | literal hnot => exact absurd rfl (hnot traits)

theorem fits_literal_iff {kind : LiteralKind} (hne : .literal kind ≠ b) (hb : b ≠ .error)
    (hnot : ∀ traits, b ≠ .existential traits) :
    table.Fits (.literal kind) b ↔ table.isExpressible b kind = true := by
  refine ⟨fun h => ?_, .literal hnot⟩
  cases h with
  | refl => exact absurd rfl hne
  | errorRight => exact absurd rfl hb
  | existential => exact absurd rfl (hnot _)
  | literal _ hb => exact hb

theorem fits_function_iff {ps qs : List Parameter} {r u : Ty}
    (hne : Ty.function ps r ≠ .function qs u) :
    table.Fits (.function ps r) (.function qs u) ↔ ps.map (·.1) = qs.map (·.1) ∧
      (∀ p ∈ ps.zip qs, p.1.1.isOneWay = true → table.Fits p.2.2 p.1.2) ∧
      (∀ p ∈ ps.zip qs, p.1.1.isOneWay = false → agree p.1.2 p.2.2 = true) ∧
      table.Fits r u := by
  constructor
  · intro h
    cases h with
    | refl => exact absurd rfl hne
    | function hconventions honeWay hboth hresult => exact ⟨hconventions, honeWay, hboth, hresult⟩
  · rintro ⟨hconventions, honeWay, hboth, hresult⟩
    exact .function hconventions honeWay hboth hresult

theorem fits_tuple_iff {as bs : List Ty} (hne : Ty.tuple as ≠ .tuple bs) :
    table.Fits (.tuple as) (.tuple bs) ↔
      as.length = bs.length ∧ ∀ p ∈ as.zip bs, table.Fits p.1 p.2 := by
  constructor
  · intro h
    cases h with
    | refl => exact absurd rfl hne
    | tuple hlength hparts => exact ⟨hlength, hparts⟩
  · rintro ⟨hlength, hparts⟩
    exact .tuple hlength hparts

/-- A nominal type has no supertype of its own name. -/
theorem findSupertype_self (hnominal : table.Nominal) (hacyclic : table.Acyclic) (n : Name)
    (as : List Ty) : table.findSupertype (.nominal n as) n = none := by
  cases hfound : table.findSupertype (.nominal n as) n with
  | none => rfl
  | some sup =>
    obtain ⟨habove, hhead⟩ := above_of_findSupertype hfound
    obtain ⟨m, bs, rfl, hway⟩ := habove.exists_nominal hnominal
    obtain rfl : m = n := beq_iff_eq.1 hhead
    exact absurd hway (hacyclic m)

theorem fits_arguments_iff (hnominal : table.Nominal) (hacyclic : table.Acyclic) {n : Name}
    {as bs : List Ty} (hlength : as.length = bs.length) :
    table.Fits (.nominal n as) (.nominal n bs) ↔ ∀ p ∈ as.zip bs, agree p.1 p.2 = true := by
  refine ⟨fun h => ?_, .arguments hlength⟩
  cases h with
  | refl =>
    intro p hp
    exact agree_of_eq (mem_zip_self hp).1
  | arguments _ hall => exact hall
  | nominal hfound =>
    rw [findSupertype_self hnominal hacyclic] at hfound
    cases hfound

theorem fits_nominal_iff {n m : Name} {as bs : List Ty}
    (hdiffer : ¬ (n = m ∧ as.length = bs.length)) :
    table.Fits (.nominal n as) (.nominal m bs) ↔ ∃ sup θ,
      table.findSupertype (.nominal n as) m = some sup ∧ sup.vars = [] ∧
      sup.mapParams θ = .nominal m bs := by
  constructor
  · intro h
    cases h with
    | refl => exact absurd ⟨rfl, rfl⟩ hdiffer
    | arguments hlength => exact absurd ⟨rfl, hlength⟩ hdiffer
    | nominal hfound hvars hinstance => exact ⟨_, _, hfound, hvars, hinstance⟩
  · rintro ⟨sup, θ, hfound, hvars, hinstance⟩
    exact .nominal hfound hvars hinstance

/-! ### Soundness -/

/-- **What fits is a subtype.** -/
theorem Fits.isSubtype (hnominal : table.Nominal) (hacyclic : table.Acyclic)
    (h : table.Fits a b) : table.isSubtype a b = true := by
  induction h with
  | refl a => exact isSubtypeToward_of_agree (agree_refl a)
  | errorLeft b => exact isSubtypeToward_of_agree (agree_error_left b)
  | errorRight a => exact isSubtypeToward_of_agree (agree_error_right a)
  | existential hall => exact isSubtype_existential hall
  | literal hne hb => exact isSubtype_literal hne hb
  | function hconventions _ hboth _ honeWay hresult =>
    exact isSubtype_function hconventions honeWay hboth hresult
  | tuple hlength _ ih => exact isSubtype_tuple hlength ih
  | arguments hlength hall =>
    exact isSubtypeToward_of_agree (agree_of_children rfl hlength hall)
  | nominal hfound _ hinstance =>
    exact isSubtype_of_above hnominal hacyclic (above_of_findSupertype hfound).1 hinstance

/-! ### The nearest supertype -/

/-- A search for a name that finds nothing has seen all that is above, and nothing of the name. -/
theorem hasHead_eq_false_of_returns {target : Name} {queue seen : List Ty}
    (h : (table.supertypeSearch target).Returns (queue, seen) none)
    (hseen : ∀ x ∈ seen, hasHead target x = false ∧
      ∀ y ∈ table.supertypes x, y ∈ seen ∨ y ∈ queue) {x y : Ty} (hx : x ∈ seen ∨ x ∈ queue)
    (hxy : Relation.ReflTransGen (fun a b => b ∈ table.supertypes a) x y) :
    hasHead target y = false := by
  generalize hcall : (queue, seen) = call at h
  generalize hnone : (none : Option Ty) = found at h
  induction h generalizing queue seen x with
  | intro answer _ ih =>
    subst hcall
    cases queue with
    | nil =>
      clear ih
      have hmem : y ∈ seen := by
        induction hxy with
        | refl => exact hx.resolve_right List.not_mem_nil
        | tail _ hstep ihxy => exact ((hseen _ ihxy).2 _ hstep).resolve_right List.not_mem_nil
      exact (hseen y hmem).1
    | cons z queue =>
      simp only [supertypeSearch] at ih hnone
      by_cases hz : hasHead target z = true
      · rw [if_pos hz] at hnone
        cases hnone
      · rw [if_neg hz] at ih hnone
        by_cases hmem : z ∈ seen
        · rw [if_pos hmem] at ih hnone
          have hold : ∀ {x : Ty}, x ∈ seen ∨ x ∈ z :: queue → x ∈ seen ∨ x ∈ queue := by
            rintro x (hx | hx)
            · exact .inl hx
            · rcases List.mem_cons.1 hx with rfl | hx
              · exact .inl hmem
              · exact .inr hx
          exact ih _ List.mem_cons_self
            (fun x hx => ⟨(hseen x hx).1, fun y hy => hold ((hseen x hx).2 y hy)⟩) (hold hx) hxy rfl
            hnone
        · rw [if_neg hmem] at ih hnone
          have hnew : ∀ {x : Ty}, x ∈ seen ∨ x ∈ z :: queue →
              x ∈ z :: seen ∨ x ∈ queue ++ table.supertypes z := by
            rintro x (hx | hx)
            · exact .inl (List.mem_cons_of_mem _ hx)
            · rcases List.mem_cons.1 hx with rfl | hx
              · exact .inl List.mem_cons_self
              · exact .inr (List.mem_append_left _ hx)
          refine ih _ List.mem_cons_self (List.forall_mem_cons.2 ⟨⟨?_, fun y hy => ?_⟩, ?_⟩)
            (hnew hx) hxy rfl hnone
          · simpa using hz
          · exact .inr (List.mem_append_right _ hy)
          · exact fun x hx => ⟨(hseen x hx).1, fun y hy => hnew ((hseen x hx).2 y hy)⟩

/-- If a name is above a type, then a nearest supertype of the name is found. -/
theorem exists_findSupertype (hnominal : table.Nominal) (hacyclic : table.Acyclic) {m : Name}
    (habove : table.Above a b) (hhead : hasHead m b = true) :
    ∃ sup, table.findSupertype a m = some sup := by
  cases hfound : table.findSupertype a m with
  | some sup => exact ⟨sup, rfl⟩
  | none =>
    have hreturns := (supertypeSearch_returns hnominal hacyclic m a none).2 hfound.symm
    obtain ⟨sup, hsup, hway⟩ := Relation.TransGen.head'_iff.1 habove
    rw [hasHead_eq_false_of_returns hreturns nofun (.inr hsup) hway] at hhead
    cases hhead

/-! ### Completeness -/

section Coherent

variable (hbuilt : table.Built) (hground : table.Ground) (hcoherent : table.Coherent)
include hbuilt hground hcoherent

/-- Where no type inherits two instances of one name, the ways up are to the nearest of its name. -/
theorem Below.fits (h : table.Below a b) : a.Concrete → b.Concrete → table.Fits a b := by
  induction h with
  | refl a => exact fun _ _ => .refl a
  | existential hall => exact fun _ _ => .existential hall
  | literal hne hb => exact fun _ _ => .literal hne hb
  | @function ps qs r u hconventions _ hboth _ honeWay hresult =>
    intro ha hb
    refine .function hconventions (fun p hp hway => ?_)
      (fun p hp hway => agree_of_eq (hboth p hp hway))
      (hresult (ha.child (Ty.result_mem_children ps r)) (hb.child (Ty.result_mem_children qs u)))
    obtain ⟨hleft, hright⟩ := List.of_mem_zip hp
    exact honeWay p hp hway (hb.child (Ty.param_mem_children u hright))
      (ha.child (Ty.param_mem_children r hleft))
  | tuple hlength _ ih =>
    intro ha hb
    refine .tuple hlength fun p hp => ?_
    obtain ⟨hleft, hright⟩ := List.of_mem_zip hp
    exact ih p hp (ha.child hleft) (hb.child hright)
  | @inherited n m as bs sup θ habove hinstance =>
    intro ha _
    obtain ⟨k, cs, rfl, -⟩ := habove.exists_nominal hbuilt.nominal
    obtain ⟨rfl, -⟩ := Ty.nominal.inj ((Ty.mapParams_nominal θ k cs).symm.trans hinstance)
    have hhead : hasHead k (.nominal k cs) = true := beq_self_eq_true k
    obtain ⟨nearest, hfound⟩ := exists_findSupertype hbuilt.nominal hbuilt.acyclic habove hhead
    obtain ⟨habove', hhead'⟩ := above_of_findSupertype hfound
    rw [hcoherent _ _ _ k habove' habove hhead' hhead] at hfound
    refine .nominal hfound (List.eq_nil_iff_forall_not_mem.2 fun v hv => ?_) hinstance
    have hmem := habove.mem_vars hground hv
    rw [ha.vars] at hmem
    cases hmem

/-- **Where no type inherits two instances of one name, a subtype fits.** -/
theorem fits_of_isSubtype (htable : table.LeavesIn (· ≠ .error)) (a b : Ty) (ha : a.Concrete)
    (hb : b.Concrete) (h : table.isSubtype a b = true) : table.Fits a b := by
  refine ((isSubtype_iff_below hbuilt (fun d hd sup hsup => ?_) ha.errorFree hb.errorFree).1
    h).fits hbuilt hground hcoherent ha hb
  exact (htable.supertypes d hd sup hsup).errorFree fun h => h.elim (· rfl) nofun

end Coherent

end Table
end TypeResolution
