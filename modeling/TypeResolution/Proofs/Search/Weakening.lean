/-
# Weakening

Where no goal can be simplified, a subtyping that waits is replaced by something stronger: by a
conversion if its lower side is known to be a literal, and by an equality if not. Let variables get
types without variables that satisfy the store, and let what was put in place of the subtyping hold.
If it is an equality, then the two types agree, and types that agree fit (`Table.fits_of_agree`). If
it is a conversion, then the literal can be written for the other type, and fits it, with one
exception: an existential is measured by its traits before it is asked whether the literal can be
written for it, and a literal that does not conform to all of them is refused
(`Search.run_refused`). `weaken_strengthens` says which of the two is the case, by the search for
the subtyping alone, and `weaken_strengthens_refused` shows that the exception is met.

Key definitions: `Table.Refuses`, `System.between`.
Key theorems: `Table.fits_of_agree`, `Table.fits_of_conversion`, `Search.run_refused`,
`weaken_strengthens`.
-/
import TypeResolution.Proofs.Search.Settling
import TypeResolution.Proofs.Search.Waiting
import TypeResolution.Proofs.Table.Registry

namespace TypeResolution

open Search Store

variable {table : Table} {options : SolverOptions} {system : System} {s₀ : Store} {a b : Ty}
variable {fit : Fit} {kind : LiteralKind} {traits : TraitSet} {I : Interpretation}

/-! ### What agrees fits -/

namespace Table

/-- Types that agree fit either way. -/
theorem fits_of_agree {a b : Ty} (h : agree a b = true) : table.Fits a b ∧ table.Fits b a := by
  induction a generalizing b with
  | error => exact ⟨.errorLeft b, .errorRight b⟩
  | nominal n as ih =>
    cases b with
    | error => exact ⟨.errorRight _, .errorLeft _⟩
    | nominal m bs =>
      obtain ⟨hnm, hall⟩ := Bool.and_eq_true_iff.1 h
      obtain ⟨hlength, hzip⟩ := zip_of_agreeAll hall
      obtain rfl := beq_iff_eq.1 hnm
      refine ⟨.arguments hlength hzip, .arguments hlength.symm fun p hp => ?_⟩
      rw [agree_comm]
      exact hzip _ (mem_zip_swap hp)
    | _ => cases h
  | function ps r ihp ihr =>
    cases b with
    | error => exact ⟨.errorRight _, .errorLeft _⟩
    | function qs u =>
      obtain ⟨hparams, hresult⟩ := Bool.and_eq_true_iff.1 h
      obtain ⟨hconventions, hzip⟩ := zip_of_agreeParams hparams
      have hparts : ∀ p ∈ ps.zip qs, table.Fits p.1.2 p.2.2 ∧ table.Fits p.2.2 p.1.2 :=
        fun p hp => ihp p.1 (List.of_mem_zip hp).1 (hzip p hp)
      constructor
      · exact .function hconventions (fun p hp _ => (hparts p hp).2) (fun p hp _ => hzip p hp)
          (ihr hresult).1
      · refine .function hconventions.symm (fun p hp _ => (hparts _ (mem_zip_swap hp)).1)
          (fun p hp _ => ?_) (ihr hresult).2
        rw [agree_comm]
        exact hzip _ (mem_zip_swap hp)
    | _ => cases h
  | tuple as ih =>
    cases b with
    | error => exact ⟨.errorRight _, .errorLeft _⟩
    | tuple bs =>
      obtain ⟨hlength, hzip⟩ := zip_of_agreeAll h
      have hparts : ∀ p ∈ as.zip bs, table.Fits p.1 p.2 ∧ table.Fits p.2 p.1 :=
        fun p hp => ih p.1 (List.of_mem_zip hp).1 (hzip p hp)
      exact ⟨.tuple hlength fun p hp => (hparts p hp).1,
        .tuple hlength.symm fun p hp => (hparts _ (mem_zip_swap hp)).2⟩
    | _ => cases h
  | _ =>
    cases b with
    | error => exact ⟨.errorRight _, .errorLeft _⟩
    | _ =>
      cases eq_of_beq h
      all_goals exact ⟨.refl _, .refl _⟩

/-- The literal does not conform to all traits of the existential. -/
def Refuses (t : Table) (kind : LiteralKind) (traits : TraitSet) : Prop :=
  ∃ trait ∈ traits.names, t.conforms (.literal kind) trait = false

/-- A literal that can be written for a type fits it, unless the type is an existential that
refuses it. -/
theorem fits_of_conversion (h : b = .error ∨ table.isExpressible b kind = true)
    (hnot : ∀ traits, b = .existential traits → ¬ table.Refuses kind traits) :
    table.Fits (.literal kind) b := by
  rcases h with rfl | hexpressible
  · exact .errorRight _
  · cases b with
    | existential traits =>
      refine .existential fun trait htrait => ?_
      by_contra hconforms
      exact hnot traits rfl ⟨trait, htrait, Bool.eq_false_iff.2 hconforms⟩
    | _ => exact .literal nofun hexpressible

end Table

/-! ### A literal and an existential -/

namespace Search

variable {ctx : Context} {l : Option Locator}

/-- A literal is measured by the traits of an existential, and by nothing else. -/
theorem simplify_literal_existential (s : Store) :
    simplify table s (fitting fit (.literal kind) (.existential traits)) l =
      (.expanded [.relation (.conformance (.literal kind) traits) l], s) := by
  cases fit <;> rfl

theorem simplify_refused (h : table.Refuses kind traits) {s : Store} (hs : s.WellFormed) :
    ∃ e, simplify table s (.conformance (.literal kind) traits) l = (.violated e, s) := by
  obtain ⟨trait, htrait, hconforms⟩ := h
  have hsome : (traits.names.find? fun t => !table.conforms (.literal kind) t).isSome := by
    rw [List.find?_isSome]
    exact ⟨trait, htrait, by rw [hconforms]; rfl⟩
  obtain ⟨trait', hfind⟩ := Option.isSome_iff_exists.1 hsome
  have happly : s.apply (.literal kind) = .literal kind := apply_of_vars hs rfl
  refine ⟨.nonconforming (.literal kind) trait' l, ?_⟩
  show simplifyConformance table s (.literal kind) traits l = _
  unfold simplifyConformance
  rw [Store.shallow_of_vars rfl]
  dsimp only
  rw [happly, hfind]

/-- A literal that an existential refuses is never put where the existential is expected. -/
theorem run_refused (h : ctx.table.Refuses kind traits) (n : Nat) (solution : Solution) :
    (State.alone (fitting fit (.literal kind) (.existential traits)) l).run ctx n ≠
      .ok solution := by
  intro hrun
  -- The first step leaves the conformance, which the second one finds to be violated.
  have hopen : ∀ rest, Path.simplify ctx
      ⟨0, fitting fit (.literal kind) (.existential traits), l⟩ rest (.ofSize 0) =
        (.open (rest.discharge [.relation (.conformance (.literal kind) traits) l] none),
          .ofSize 0) := by
    intro rest
    unfold Path.simplify
    rw [simplify_literal_existential]
    rfl
  obtain ⟨m, -, hrun⟩ := (run_of_simplify (turn_of_queue rfl) (hopen _) n solution).1 hrun
  obtain ⟨e, he⟩ := simplify_refused (l := l) h (Store.wellFormed_ofSize 0)
  exact run_of_failed (turn_of_queue rfl) (pathSimplify_violated he) m solution hrun

end Search

/-! ### Weakening -/

/-- **Weakening strengthens**, but for literals and existentials. -/
theorem weaken_strengthens (hbuilt : table.Built) (hvalid : system.validate = [])
    (hseeds : System.plant (.ofSize system.varCount) system.seeds = .done s₀) :
    let ctx : Context := ⟨table, options, system.varCount⟩
    ∀ s past w r l rest, Reached ctx (system.start s₀) s past → s.path = .open w →
      weaken s.store w.deferred = some (r, l, rest) →
      ∃ d fit a b, w.deferred.Perm (d :: rest) ∧ d.goal.relation = fitting fit a b ∧
        (r = .equality a b ∨ ∃ kind, r = .conversion b kind) ∧
        ∀ I : Interpretation, s.store.SolvedBy I.types → (∀ v, (I.types v).vars = []) →
          r.Holds table I →
          let sub := a.mapVars I.types
          let sup := b.mapVars I.types
          let refused := ∃ kind traits, sub = .literal kind ∧ sup = .existential traits ∧
            table.Refuses kind traits
          (¬ refused → ∀ options l n, sub.size + sup.size ≤ n → ∃ solution,
            (State.alone (fitting fit sub sup) l).run ⟨table, options, 0⟩ n = .ok solution) ∧
          (refused → ∀ options l n solution,
            (State.alone (fitting fit sub sup) l).run ⟨table, options, 0⟩ n ≠ .ok solution) := by
  intro ctx s past w r l rest hreached hpath hweaken
  have hstart := stands_start ctx hseeds (watchful_start hvalid hseeds)
  have hwatchful := (hreached.stands (preserved_watchful ctx) hstart).path w hpath
  obtain ⟨d, fit, a, b, hperm, hrelation, rfl, -⟩ := weaken_cases hweaken
  have hwaits := hwatchful.waits d (hperm.mem_iff.2 List.mem_cons_self)
  have hhas : ∀ v, a = .var v → s.store.Has v := by
    rintro v rfl
    have howns := hwaits.owns
    rw [hrelation] at howns
    refine owns_iff.1 (List.all_eq_true.1 howns (.var v) ?_)
    cases fit <;> exact List.mem_cons_self
  have hcases := assumption_cases (b := b) hwatchful.wellFormed hhas
  refine ⟨d, fit, a, b, hperm, hrelation, hcases.imp_right fun ⟨kind, h, _⟩ => ⟨kind, h⟩,
    fun I hσ hclosed hholds => ?_⟩
  intro sub sup refused
  have hvars : ∀ t : Ty, (t.mapVars I.types).vars = [] := by
    refine fun t => List.eq_nil_iff_forall_not_mem.2 fun v hv => ?_
    obtain ⟨w, -, hw⟩ := Ty.mem_vars_mapVars.1 hv
    rw [hclosed w] at hw
    cases hw
  constructor
  · intro hnot options l n hn
    have hfits : table.Fits sub sup := by
      rcases hcases with hequality | ⟨kind, hconversion, hliteral⟩
      · rw [hequality] at hholds
        exact (Table.fits_of_agree hholds).1
      · rw [hconversion] at hholds
        have hsub : sub = .literal kind := hliteral I.types hσ
        rw [hsub]
        exact Table.fits_of_conversion hholds fun traits hsup hrefuses =>
          hnot ⟨kind, traits, hsub, hsup, hrefuses⟩
    exact (run_alone_of_fits ⟨table, options, 0⟩ hbuilt.nominal hbuilt.acyclic (hvars a) (hvars b)
      rfl hfits fit l n).resolve_right fun hcut => Nat.not_lt.2 hn hcut.1
  · rintro ⟨kind, traits, hsub, hsup, hrefuses⟩ options l n solution
    rw [hsub, hsup]
    exact run_refused hrefuses n solution

/-- A literal that waits for a variable is weakened to a conversion of the variable. If the variable
stands for the type of literals, then the subtyping that was weakened takes at most two steps. -/
theorem weaken_strengthens_literal :
    let literal : Ty := .literal .integer
    let system : System := ⟨1, [.relation (.subtyping literal (.var ⟨0⟩)) none], []⟩
    let table := Table.ofNames .empty
    let ctx : Context := ⟨table, {}, 1⟩
    let I : Interpretation := ⟨fun _ => literal, fun _ => none, []⟩
    table.Built ∧ system.validate = [] ∧
      System.plant (.ofSize 1) system.seeds = .done (.ofSize 1) ∧
      ∃ s past w, Reached ctx (system.start (.ofSize 1)) s past ∧ s.path = .open w ∧
        weaken s.store w.deferred = some (.conversion (.var ⟨0⟩) .integer, none, []) ∧
        s.store.SolvedBy I.types ∧ (Relation.conversion (.var ⟨0⟩) .integer).Holds table I ∧
        ∀ n, 2 ≤ n → ∃ solution,
          (State.alone (.subtyping literal literal) none).run ⟨table, {}, 0⟩ n = .ok solution := by
  intro literal system table ctx I
  have hvalid : system.validate = [] := by decide
  obtain ⟨s, w, hgoes, hopen, hstore, hdeferred⟩ : ∃ s w,
      Goes ctx (system.start (.ofSize 1)) s ∧ s.path = .open w ∧ s.store = .ofSize 1 ∧
        w.deferred = [⟨⟨0, .subtyping literal (.var ⟨0⟩), none⟩, [⟨0⟩]⟩] :=
    ⟨_, _, ⟨by cbv, by cbv⟩, by cbv, by cbv, by cbv⟩
  have hreached := Reached.start.step hgoes
  have hweaken : weaken s.store w.deferred = some (.conversion (.var ⟨0⟩) .integer, none, []) := by
    rw [hstore, hdeferred]
    cbv
  have hsolved : s.store.SolvedBy I.types := hstore ▸ Store.solvedBy_ofSize 1 _
  have hholds : (Relation.conversion (.var ⟨0⟩) .integer).Holds table I :=
    .inr (table.isExpressible_literal .integer)
  obtain ⟨d, fit, a, b, hperm, hrelation, -, hstrengthens⟩ :=
    @weaken_strengthens table {} system (.ofSize 1) (.ofNames .empty) hvalid rfl s _ w _ _ _
      hreached hopen hweaken
  rw [hdeferred] at hperm
  obtain rfl := List.singleton_perm_singleton.1 hperm
  obtain ⟨rfl, rfl, hfitting⟩ : a = literal ∧ b = .var ⟨0⟩ ∧
      fitting fit literal literal = .subtyping literal literal := by
    cases fit <;> cases hrelation <;> exact ⟨rfl, rfl, rfl⟩
  obtain ⟨hruns, -⟩ := hstrengthens I hsolved (fun _ => rfl) hholds
  have hsub : literal.mapVars I.types = literal := rfl
  have hsup : (Ty.var ⟨0⟩).mapVars I.types = literal := rfl
  have hsize : literal.size = 1 := by simp only [literal, Ty.size]
  rw [hsub, hsup, hfitting, hsize] at hruns
  refine ⟨.ofNames .empty, hvalid, rfl, s, _, w, hreached, hopen, hweaken, hsolved, hholds,
    hruns ?_ {} none⟩
  rintro ⟨kind, traits, -, hsup, -⟩
  have hne : Ty.literal .integer = .existential traits := hsup
  cases hne

/-- A table with the trait of integer literals and a trait of another name. -/
def Table.ofTraits : Table :=
  let names := (NameTable.empty.intern LiteralKind.integer.traitName).2
  (Registry.run [.declareTrait ⟨0⟩ [], .declareTrait ⟨2⟩ []] (.ofNames names)).2.table

/-- A variable between a literal and an existential. -/
def System.between (kind : LiteralKind) (traits : TraitSet) : System :=
  ⟨1, [.relation (.subtyping (.literal kind) (.var ⟨0⟩)) none,
    .relation (.subtyping (.var ⟨0⟩) (.existential traits)) none], []⟩

/-- Both subtypings wait for the variable, and the literal is weakened. -/
theorem reached_between (table : Table) (kind : LiteralKind) (traits : TraitSet) :
    ∃ s past w d rest,
      Reached ⟨table, {}, 1⟩ ((System.between kind traits).start (.ofSize 1)) s past ∧
      s.path = .open w ∧ w.deferred = d :: rest ∧
      d.goal.relation = .subtyping (.literal kind) (.var ⟨0⟩) ∧ s.store = .ofSize 1 ∧
      weaken s.store w.deferred = some (.conversion (.var ⟨0⟩) kind, none, rest) := by
  have hsteps : ∃ s₁ s w,
      Goes ⟨table, {}, 1⟩ ((System.between kind traits).start (.ofSize 1)) s₁ ∧
        Goes ⟨table, {}, 1⟩ s₁ s ∧ s.path = .open w ∧ s.store = .ofSize 1 ∧
        w.deferred = [⟨⟨0, .subtyping (.literal kind) (.var ⟨0⟩), none⟩, [⟨0⟩]⟩,
          ⟨⟨1, .subtyping (.var ⟨0⟩) (.existential traits), none⟩, [⟨0⟩]⟩] :=
    ⟨_, _, _, ⟨by cbv, by cbv⟩, ⟨by cbv, by cbv⟩, by cbv, by cbv, by cbv⟩
  obtain ⟨s₁, s, w, hfirst, hsecond, hopen, hstore, hdeferred⟩ := hsteps
  refine ⟨s, _, w, _, _, (Reached.start.step hfirst).step hsecond, hopen, hdeferred, rfl, hstore,
    ?_⟩
  rw [hstore, hdeferred]
  cbv

/-- **A literal is weakened to what its subtyping does not grant**: the variable may stand for an
existential that the literal can be written for, and that has a trait which the literal refuses. -/
theorem weaken_strengthens_refused :
    let traits : TraitSet := ⟨[⟨0⟩, ⟨2⟩], by decide⟩
    let system := System.between .integer traits
    let I : Interpretation := ⟨fun _ => .existential traits, fun _ => none, []⟩
    Table.ofTraits.Built ∧ system.validate = [] ∧
      System.plant (.ofSize 1) system.seeds = .done (.ofSize 1) ∧
      ∃ s past w d rest, Reached ⟨Table.ofTraits, {}, 1⟩ (system.start (.ofSize 1)) s past ∧
        s.path = .open w ∧ w.deferred = d :: rest ∧
        d.goal.relation = .subtyping (.literal .integer) (.var ⟨0⟩) ∧
        weaken s.store w.deferred = some (.conversion (.var ⟨0⟩) .integer, none, rest) ∧
        s.store.SolvedBy I.types ∧
        (Relation.conversion (.var ⟨0⟩) .integer).Holds Table.ofTraits I ∧
        ∀ options l n solution,
          (State.alone (.subtyping (.literal .integer) (.existential traits)) l).run
            ⟨Table.ofTraits, options, 0⟩ n ≠ .ok solution := by
  intro traits system I
  have hbuilt : Table.ofTraits.Built :=
    (Registry.consistent_run _ (Registry.consistent_ofNames _)).built
  have hwritten : Table.ofTraits.isExpressible (.existential ⟨[⟨0⟩, ⟨2⟩], by decide⟩) .integer =
      true := by decide +kernel
  have hrefuses : Table.ofTraits.Refuses .integer ⟨[⟨0⟩, ⟨2⟩], by decide⟩ :=
    ⟨⟨2⟩, by decide, by decide +kernel⟩
  obtain ⟨s, past, w, d, rest, hreached, hopen, hdeferred, hgoal, hstore, hweaken⟩ :=
    reached_between Table.ofTraits .integer traits
  refine ⟨hbuilt, by decide, rfl, s, past, w, d, rest, hreached, hopen, hdeferred, hgoal, hweaken,
    hstore ▸ Store.solvedBy_ofSize 1 _, .inr hwritten, fun options l n => ?_⟩
  exact @run_refused .subtype _ _ ⟨Table.ofTraits, options, 0⟩ l hrefuses n

end TypeResolution
