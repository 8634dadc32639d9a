/-
# Subtyping between types without variables

The search and the check decide a subtyping in different ways. Between types without variables and
without the error type the search settles exactly what fits (`Table.Fits`), and whatever fits is a
subtype for the check as well. The check sees more: it follows every way up through supertypes,
where the search takes the nearest supertype of the name that it looks for and no other one. A type
that inherits two instances of one generic type is a subtype of both for the check, and fits only
the one that comes first (`subtyping_settled_inherited`).

Where supertypes of one name above one type are the same there is no second one to miss, and the two
agree (`subtyping_settled_iff`). This holds in particular if no type has two supertypes
(`Table.coherent_of_single`).

Key definitions: `Ty.Fixed`.
Key theorems: `Table.coherent_of_single`, `subtyping_settled_iff`.
-/
import TypeResolution.Proofs.Search.Settling
import TypeResolution.Proofs.Table.Registry
import TypeResolution.Proofs.Validation

namespace TypeResolution

open Search

variable {table : Table} {options : SolverOptions} {a b : Ty} {r : Relation} {l : Option Locator}

/-- A type that says itself which one it is: without variables and the error type, and without
placeholders and generic parameters. -/
structure Ty.Fixed (t : Ty) : Prop where
  concrete : t.Concrete
  placeholder : .unresolved ∉ t.leaves
  params : t.params = []

/-! ### Systems of one relation -/

/-- Nothing is wrong with a relation between such types. -/
theorem validate_alone (h : ∀ t ∈ r.types, t.Fixed) :
    System.validate ⟨0, [.relation r l], []⟩ = [] := by
  have hnone : r.types.filterMap (System.operandProblem 0 false) = [] := by
    refine List.filterMap_eq_nil_iff.2 fun t ht => System.operandProblem_eq_none_iff.2 ?_
    obtain ⟨⟨hvars, -⟩, hplaceholder, hparams⟩ := h t ht
    refine ⟨hplaceholder, fun _ => hparams, fun v hv => ?_⟩
    rw [hvars] at hv
    cases hv
  simp only [System.validate, System.allErrors, System.constraintErrors, hnone]
  rfl

theorem solve_alone (h : ∀ t ∈ r.types, t.Fixed) :
    solve table options ⟨0, [.relation r l], []⟩ =
      (State.alone r l).run ⟨table, options, 0⟩ options.maxSteps :=
  System.solve_start (validate_alone h) rfl

/-! ### One supertype per name -/

/-- Supertypes of one name are the same if no type has two supertypes. -/
theorem Table.coherent_of_single (hnominal : table.Nominal) (hacyclic : table.Acyclic)
    (h : ∀ d ∈ table.types, d.supertypes.length ≤ 1) : table.Coherent := by
  have hunique : Relator.RightUnique fun x y => y ∈ table.supertypes x := by
    intro x y z hy hz
    have hlength : (table.supertypes x).length ≤ 1 := by
      unfold Table.supertypes
      split
      · split
        · exact Nat.zero_le _
        · rename_i d hd
          rw [List.length_map]
          exact h d (mem_of_type? hd)
      · exact Nat.zero_le _
    obtain ⟨i, hi, rfl⟩ := List.mem_iff_getElem.1 hy
    obtain ⟨j, hj, rfl⟩ := List.mem_iff_getElem.1 hz
    obtain rfl : i = j := by omega
    rfl
  -- One of two supertypes is above the other, and then the name is above itself.
  have hsame : ∀ {b c : Ty} {m : Name}, hasHead m b = true → hasHead m c = true →
      Relation.ReflTransGen (fun x y => y ∈ table.supertypes x) b c → b = c := by
    intro b c m hb hc hway
    rcases Relation.reflTransGen_iff_eq_or_transGen.1 hway with heq | habove
    · exact heq.symm
    · cases b with
      | nominal n bs =>
        obtain ⟨k, cs, rfl, hcycle⟩ := Table.Above.exists_nominal hnominal habove
        obtain rfl : n = m := beq_iff_eq.1 hb
        obtain rfl : k = n := beq_iff_eq.1 hc
        exact absurd hcycle (hacyclic k)
      | _ => cases hb
  intro a b c m hab hac hb hc
  rcases Relation.ReflTransGen.total_of_right_unique hunique hab.to_reflTransGen
    hac.to_reflTransGen with hway | hway
  · exact hsame hb hc hway
  · exact (hsame hc hb hway).symm

/-! ### The search and the check -/

/-- **Subtyping is settled as it is checked**, between types that say themselves which ones they
are and in a table without the error type. The search finds a solution exactly if the types fit, and
then the check accepts them. If supertypes of one name above one type are the same, then the two
agree. -/
theorem subtyping_settled_iff (hbuilt : table.Built) (hground : table.Ground)
    (htable : table.LeavesIn (· ≠ .error)) (ha : a.Fixed) (hb : b.Fixed)
    (hsteps : ¬ CutOff options.maxSteps
      (some (solve table options ⟨0, [.relation (.subtyping a b) l], []⟩))) :
    let solved := ∃ solution,
      solve table options ⟨0, [.relation (.subtyping a b) l], []⟩ = .ok solution
    (solved ↔ table.Fits a b) ∧ (solved → table.isSubtype a b = true) ∧
      (table.Coherent → (solved ↔ table.isSubtype a b = true)) := by
  have hsolve : solve table options ⟨0, [.relation (.subtyping a b) l], []⟩ =
      (State.alone (fitting .subtype a b) l).run ⟨table, options, 0⟩ options.maxSteps :=
    solve_alone (List.forall_mem_cons.2 ⟨ha, List.forall_mem_singleton.2 hb⟩)
  intro solved
  have hfits : solved ↔ table.Fits a b := by
    constructor
    · rintro ⟨solution, hsolved⟩
      rw [hsolve] at hsolved
      exact fits_of_run_alone ⟨table, options, 0⟩ hbuilt.nominal hbuilt.acyclic
        ha.concrete.vars hb.concrete.vars hground htable ha.concrete.errorFree
        hb.concrete.errorFree hsolved
    · intro hfits
      rw [hsolve] at hsteps
      have hrun := run_alone_of_fits ⟨table, options, 0⟩ hbuilt.nominal hbuilt.acyclic
        ha.concrete.vars hb.concrete.vars rfl hfits .subtype l options.maxSteps
      obtain ⟨solution, hrun⟩ := hrun.resolve_right fun hcut => hsteps hcut.2
      exact ⟨solution, hsolve.trans hrun⟩
  have hsubtype : solved → table.isSubtype a b = true := fun h =>
    (hfits.1 h).isSubtype hbuilt.nominal hbuilt.acyclic
  refine ⟨hfits, hsubtype, fun hcoherent => ⟨hsubtype, fun h => hfits.2 ?_⟩⟩
  exact Table.fits_of_isSubtype hbuilt hground hcoherent htable a b ha.concrete hb.concrete h

/-! ### Two instances of one generic type -/

/-- A type with one parameter, and one that inherits these instances of it. -/
def Table.ofInstances (args : List Ty) : Table :=
  let ops := .declareType ⟨1⟩ [⟨2⟩] :: .declareType ⟨3⟩ [] ::
    args.map fun arg => Operation.addSupertype ⟨3⟩ (.nominal ⟨1⟩ [arg])
  (Registry.run ops (.ofNames .empty)).2.table

theorem Table.built_ofInstances (args : List Ty) : (Table.ofInstances args).Built :=
  (Registry.consistent_run _ (Registry.consistent_ofNames .empty)).built

theorem Table.leavesIn_of_no_leaves {Q : Ty → Prop} (htypes : ∀ d ∈ table.types,
    (∀ sup ∈ d.supertypes, sup.leaves = []) ∧ d.members = []) (htraits : table.traits = [])
    (hdefaults : table.literalDefaults = []) : table.LeavesIn Q := by
  refine ⟨fun d hd sup hsup l hl => ?_, fun d hd m hm => ?_, fun d hd => ?_, fun p hp => ?_⟩
  · rw [(htypes d hd).1 sup hsup] at hl
    cases hl
  · rw [(htypes d hd).2] at hm
    cases hm
  · rw [htraits] at hd
    cases hd
  · rw [hdefaults] at hp
    cases hp

theorem Ty.fixed_of_no_leaves (h : a.leaves = []) : a.Fixed := by
  refine ⟨⟨?_, fun hl => ?_⟩, fun hl => ?_, ?_⟩
  · rw [vars, h]
    rfl
  · rw [h] at hl
    cases hl
  · rw [h] at hl
    cases hl
  · rw [params, h]
    rfl

/-- With one instance the search and the check agree. -/
theorem subtyping_settled_single :
    let table := Table.ofInstances [.unit]
    let a : Ty := .nominal ⟨3⟩ []
    let b : Ty := .nominal ⟨1⟩ [.unit]
    table.Built ∧ table.Coherent ∧ a.Fixed ∧ b.Fixed ∧ table.Fits a b ∧
      table.isSubtype a b = true ∧
      ∃ solution, solve table {} ⟨0, [.relation (.subtyping a b) none], []⟩ = .ok solution := by
  have hbuilt := Table.built_ofInstances [.unit]
  have hground : (Table.ofInstances [.unit]).Ground := by constructor <;> decide +kernel
  have htable : (Table.ofInstances [.unit]).LeavesIn (· ≠ .error) :=
    Table.leavesIn_of_no_leaves (by decide +kernel) (by decide +kernel)
      (by decide +kernel)
  have hcoherent : (Table.ofInstances [.unit]).Coherent :=
    Table.coherent_of_single hbuilt.nominal hbuilt.acyclic (by decide +kernel)
  have ha : (Ty.nominal ⟨3⟩ []).Fixed := Ty.fixed_of_no_leaves rfl
  have hb : (Ty.nominal ⟨1⟩ [.unit]).Fixed := Ty.fixed_of_no_leaves rfl
  have hsolve : solve (Table.ofInstances [.unit]) {}
      ⟨0, [.relation (.subtyping (.nominal ⟨3⟩ []) (.nominal ⟨1⟩ [.unit])) none], []⟩ =
        .ok ⟨[], [], [], 0, []⟩ := by cbv
  obtain ⟨hfits, hsubtype, -⟩ := @subtyping_settled_iff _ {} _ _ none hbuilt hground htable ha hb
    (by rw [hsolve]; rintro ⟨certain, hcut⟩; cases hcut)
  exact ⟨hbuilt, hcoherent, ha, hb, hfits.1 ⟨_, hsolve⟩, hsubtype ⟨_, hsolve⟩, _, hsolve⟩

/-- **The search misses an instance that the check sees**: the type inherits two instances of one
generic type, and only the one declared first is found. -/
theorem subtyping_settled_inherited :
    let table := Table.ofInstances [.unit, .tuple [.unit]]
    let a : Ty := .nominal ⟨3⟩ []
    let b : Ty := .nominal ⟨1⟩ [.tuple [.unit]]
    table.Built ∧ table.Ground ∧ table.LeavesIn (· ≠ .error) ∧ a.Fixed ∧ b.Fixed ∧
      table.isSubtype a b = true ∧
      solve table {} ⟨0, [.relation (.subtyping a b) none], []⟩ =
        .error ⟨[.mismatch .equal .unit (.tuple [.unit]) none], []⟩ := by
  have hground : (Table.ofInstances [.unit, .tuple [.unit]]).Ground := by
    constructor <;> decide +kernel
  have htable : (Table.ofInstances [.unit, .tuple [.unit]]).LeavesIn (· ≠ .error) :=
    Table.leavesIn_of_no_leaves (by decide +kernel) (by decide +kernel)
      (by decide +kernel)
  exact ⟨Table.built_ofInstances _, hground, htable, Ty.fixed_of_no_leaves rfl,
    Ty.fixed_of_no_leaves rfl, by cbv, by cbv⟩

end TypeResolution
