/-
# Goals without variables

A subtyping, a conformance or a conversion between types without variables is decided where it
stands: it is violated, or it comes down to relations between parts of its types, and to equalities
with variables that were opened for the parameters of a supertype. `Concludes` says this of what a
goal is simplified to, and `concludes_simplify` proves it of every goal that is closed in this sense
(`Relation.Closed`).

What a relation says is `Relation.Passes`: types fit by the rules of the search (`Table.Fits`), and
an equality reconciles its types under an assignment. The relations that a goal comes down to pass
if it does, with some types for the variables that were opened. The way back is open where the error
type is nowhere, since an equality with it passes whatever the other type is. And they take fewer
steps than the goal, with all that they come down to (`Relation.cost`).

Key definitions: `Relation.Closed`, `Relation.Passes`, `Relation.cost`, `Search.Replaces`,
`Search.Concludes`.
Key theorems: `Search.concludes_equality`, `Search.replaces_opened`, `Search.concludes_subtyping`,
`Search.concludes_simplify`.
-/
import TypeResolution.Proofs.Search.Confinement
import TypeResolution.Proofs.Search.Straight
import TypeResolution.Proofs.Store.Reconciling
import TypeResolution.Proofs.Table.Nearest

namespace TypeResolution

variable {table : Table} {σ τ : TyVar → Ty} {a b : Ty} {s s' : Store} {r : Relation}

/-! ### Sizes -/

namespace Ty

mutual
/-- The number of parts of a type, with itself. -/
def size : Ty → Nat
  | .nominal _ args => sizeAll args + 1
  | .function ps r => sizeParams ps + r.size + 1
  | .tuple as => sizeAll as + 1
  | _ => 1

def sizeAll : List Ty → Nat
  | [] => 0
  | a :: as => a.size + sizeAll as

def sizeParams : List Parameter → Nat
  | [] => 0
  | (_, a) :: ps => a.size + sizeParams ps
end

theorem size_pos (a : Ty) : 0 < a.size := by
  cases a <;> exact Nat.succ_pos _

end Ty

namespace Relation

/-- The types of the relation have no variables, except that an equality may have variables of the
store. Members and predicates are left out. -/
def Closed (s : Store) : Relation → Prop
  | .equality a b => s.Covers a ∧ s.Covers b
  | .subtyping a b | .returnBinding a b => a.vars = [] ∧ b.vars = []
  | .conformance a _ | .conversion a _ => a.vars = []
  | .valueMember .. | .size _ => False

/-- The relation can be settled: an equality if the assignment reconciles its types, and another
one if the types fit. -/
def Passes (table : Table) (σ : TyVar → Ty) : Relation → Prop
  | .equality a b => Reconciles σ a b
  | .subtyping a b | .returnBinding a b => table.Fits a b
  | .conformance a traits => ∀ trait ∈ traits.names, table.conforms a trait = true
  | .conversion a kind => a = .error ∨ table.isExpressible a kind = true
  | .valueMember .. | .size _ => False

/-- The number of steps that the relation takes at most, with all that it comes down to. -/
def cost : Relation → Nat
  | .subtyping a b | .returnBinding a b => a.size + b.size
  | _ => 1

theorem Closed.moves (h : r.Closed s) (hm : Store.Moves s s') : r.Closed s' := by
  cases r with
  | equality a b => exact ⟨hm.covers h.1, hm.covers h.2⟩
  | _ => exact h

/-- Only the variables of the store make a difference. -/
theorem Passes.congr (h : r.Passes table σ) (hr : r.Closed s) (hτ : ∀ v, s.Has v → τ v = σ v) :
    r.Passes table τ := by
  cases r with
  | equality a b =>
    refine Or.imp_left (fun heq => ?_) h
    rw [Ty.mapVars_congr fun v hv => hτ v (hr.1 v hv), heq]
    exact Ty.mapVars_congr fun v hv => (hτ v (hr.2 v hv)).symm
  | _ => exact h

theorem passes_equality_iff (ha : a.vars = []) (hb : b.vars = []) :
    (Relation.equality a b).Passes table σ ↔ agree a b = true := by
  constructor
  · rintro (heq | ⟨-, -, hagree⟩)
    · rw [Ty.mapVars_eq_self ha, Ty.mapVars_eq_self hb] at heq
      exact agree_of_eq heq
    · exact hagree
  · exact fun hagree => .inr ⟨ha, hb, hagree⟩

theorem cost_pos (r : Relation) : 0 < r.cost := by
  cases r with
  | subtyping a b => exact Nat.add_pos_left a.size_pos _
  | returnBinding a b => exact Nat.add_pos_left a.size_pos _
  | _ => exact Nat.one_pos

end Relation

theorem covers_of_vars (h : a.vars = []) : s.Covers a := by
  intro v hv
  rw [h] at hv
  cases hv

namespace Search

variable {fit : Fit} {l : Option Locator} {rs rs' : List Relation}
variable {children children' : List Constraint}

theorem passes_fitting : (fitting fit a b).Passes table σ ↔ table.Fits a b := by
  cases fit <;> exact Iff.rfl

theorem closed_fitting (ha : a.vars = []) (hb : b.vars = []) : (fitting fit a b).Closed s := by
  cases fit <;> exact ⟨ha, hb⟩

theorem cost_fitting : (fitting fit a b).cost = a.size + b.size := by cases fit <;> rfl

/-! ### Constraints as relations -/

/-- The constraints are these relations. -/
def Relates (children : List Constraint) (rs : List Relation) : Prop :=
  List.Forall₂ (fun c r => ∃ l, c = .relation r l) children rs

theorem relates_singleton (r : Relation) (l : Option Locator) : Relates [.relation r l] [r] :=
  .cons ⟨l, rfl⟩ .nil

theorem Relates.append (h : Relates children rs) (h' : Relates children' rs') :
    Relates (children ++ children') (rs ++ rs') := by
  induction h with
  | nil => exact h'
  | cons hc _ ih => exact .cons hc ih

theorem relates_mapIdx {α : Type} {f : Nat → α → Constraint} {g : α → Relation}
    (h : ∀ i x, ∃ l, f i x = .relation (g x) l) : ∀ xs : List α, Relates (xs.mapIdx f) (xs.map g)
  | [] => .nil
  | x :: xs => by
    rw [List.mapIdx_cons]
    exact .cons (h 0 x) (relates_mapIdx (fun i x => h (i + 1) x) xs)

theorem relates_pairwise {α : Type} {step : Nat → PathStep} {relate : α → α → Relation}
    {as bs : List α} :
    Relates (pairwise l step relate as bs) ((as.zip bs).map fun p => relate p.1 p.2) :=
  relates_mapIdx (fun i _ => ⟨extended l (step i), rfl⟩) (as.zip bs)

/-! ### Costs of parts -/

theorem cost_elements (fit : Fit) : ∀ as bs : List Ty,
    (((as.zip bs).map fun p => fitting fit p.1 p.2).map Relation.cost).sum ≤
      Ty.sizeAll as + Ty.sizeAll bs
  | [], _ => Nat.zero_le _
  | _ :: _, [] => Nat.zero_le _
  | a :: as, b :: bs => by
    have hrest := cost_elements fit as bs
    simp only [List.zip_cons_cons, List.map_cons, List.sum_cons, cost_fitting, Ty.sizeAll]
    omega

theorem cost_arguments : ∀ as bs : List Ty,
    (((as.zip bs).map fun p => Relation.equality p.1 p.2).map Relation.cost).sum ≤ Ty.sizeAll as
  | [], _ => Nat.zero_le _
  | _ :: _, [] => Nat.zero_le _
  | a :: as, b :: bs => by
    have hrest := cost_arguments as bs
    have hpos := a.size_pos
    simp only [List.zip_cons_cons, List.map_cons, List.sum_cons, Relation.cost, Ty.sizeAll]
    omega

theorem cost_parameterRelation (p q : Parameter) :
    (parameterRelation p q).cost ≤ p.2.size + q.2.size := by
  have hpos := p.2.size_pos
  unfold parameterRelation
  split
  · exact Nat.le_of_eq (Nat.add_comm _ _)
  · exact Nat.le_add_right_of_le hpos

theorem cost_parameters : ∀ ps qs : List Parameter,
    (((ps.zip qs).map fun p => parameterRelation p.1 p.2).map Relation.cost).sum ≤
      Ty.sizeParams ps + Ty.sizeParams qs
  | [], _ => Nat.zero_le _
  | _ :: _, [] => Nat.zero_le _
  | (c, a) :: ps, (d, b) :: qs => by
    have hrest := cost_parameters ps qs
    have hfirst := cost_parameterRelation (c, a) (d, b)
    simp only [List.zip_cons_cons, List.map_cons, List.sum_cons, Ty.sizeParams] at hfirst ⊢
    omega

theorem closed_parameters {ps qs : List Parameter} {r u : Ty}
    (ha : (Ty.function ps r).vars = []) (hb : (Ty.function qs u).vars = []) :
    ∀ r' ∈ (ps.zip qs).map (fun p => parameterRelation p.1 p.2), r'.Closed s := by
  refine List.forall_mem_map.2 fun p hp => ?_
  have hfirst := Ty.vars_of_mem_children (Ty.param_mem_children r (List.of_mem_zip hp).1) ha
  have hsecond := Ty.vars_of_mem_children (Ty.param_mem_children u (List.of_mem_zip hp).2) hb
  unfold parameterRelation
  split
  · exact ⟨hsecond, hfirst⟩
  · exact ⟨covers_of_vars hfirst, covers_of_vars hsecond⟩

theorem passes_parameters {ps qs : List Parameter} {r u : Ty}
    (ha : (Ty.function ps r).vars = []) (hb : (Ty.function qs u).vars = []) :
    (∀ r' ∈ (ps.zip qs).map (fun p => parameterRelation p.1 p.2), r'.Passes table σ) ↔
      (∀ p ∈ ps.zip qs, p.1.1.isOneWay = true → table.Fits p.2.2 p.1.2) ∧
        ∀ p ∈ ps.zip qs, p.1.1.isOneWay = false → agree p.1.2 p.2.2 = true := by
  have hparts : ∀ p ∈ ps.zip qs, (parameterRelation p.1 p.2).Passes table σ ↔
      (p.1.1.isOneWay = true → table.Fits p.2.2 p.1.2) ∧
        (p.1.1.isOneWay = false → agree p.1.2 p.2.2 = true) := by
    intro p hp
    have hfirst := Ty.vars_of_mem_children (Ty.param_mem_children r (List.of_mem_zip hp).1) ha
    have hsecond := Ty.vars_of_mem_children (Ty.param_mem_children u (List.of_mem_zip hp).2) hb
    unfold parameterRelation
    cases p.1.1.isOneWay with
    | true => exact ⟨fun h => ⟨fun _ => h, nofun⟩, fun h => h.1 rfl⟩
    | false =>
      exact (Relation.passes_equality_iff hfirst hsecond).trans
        ⟨fun h => ⟨nofun, fun _ => h⟩, fun h => h.2 rfl⟩
  rw [List.forall_mem_map]
  exact (forall₂_congr hparts).trans
    ⟨fun h => ⟨fun p hp => (h p hp).1, fun p hp => (h p hp).2⟩,
      fun h p hp => ⟨h.1 p hp, h.2 p hp⟩⟩

/-! ### What a goal comes down to -/

/-- The relations replace a relation that has been simplified: they pass if it does, with the same
types for the variables that there were, and without the error type it passes if they do. -/
structure Replaces (table : Table) (s : Store) (r : Relation) (s' : Store) (rs : List Relation) :
    Prop where
  moves : Store.Moves s s'
  closed : ∀ r' ∈ rs, r'.Closed s'
  cost : (rs.map Relation.cost).sum < r.cost
  passes : ∀ σ, s.SolvedBy σ → r.Passes table σ → ∃ τ, s'.SolvedBy τ ∧
    (∀ v, s.Has v → τ v = σ v) ∧ ∀ r' ∈ rs, r'.Passes table τ
  passed : table.LeavesIn (· ≠ .error) → s.BindsOnly Ty.ErrorFree →
    (∀ t ∈ r.types, t.ErrorFree) → ∀ τ, s'.SolvedBy τ → (∀ r' ∈ rs, r'.Passes table τ) →
    r.Passes table τ

/-- Where the store stays as it is, passing does not depend on the assignment. -/
theorem replaces_of_iff (hclosed : ∀ r' ∈ rs, r'.Closed s)
    (hcost : (rs.map Relation.cost).sum < r.cost)
    (h : ∀ σ, (∀ r' ∈ rs, r'.Passes table σ) ↔ r.Passes table σ) : Replaces table s r s rs where
  moves := .refl
  closed := hclosed
  cost := hcost
  passes σ hσ hr := ⟨σ, hσ, fun _ _ => rfl, (h σ).2 hr⟩
  passed _ _ _ τ _ hrs := (h τ).1 hrs

theorem replaces_nil (h : ∀ σ, r.Passes table σ) : Replaces table s r s [] :=
  replaces_of_iff nofun r.cost_pos fun σ => iff_of_true nofun (h σ)

/-- Simplifying a relation leaves relations that replace it, or finds that it cannot pass. -/
inductive Concludes (table : Table) (s : Store) (r : Relation) : Simplified × Store → Prop where
  | discharged {children : List Constraint} {entry : Option Entry} {s' : Store}
      {rs : List Relation} : Relates children rs → Replaces table s r s' rs →
      Concludes table s r (.discharged children entry, s')
  | violated {e : TypeError} {s' : Store} : (∀ σ, s.SolvedBy σ → ¬ r.Passes table σ) →
      Concludes table s r (.violated e, s')

section Closed

variable (hnominal : table.Nominal) (hacyclic : table.Acyclic) (hs : s.WellFormed)

/-! ### Looking up types without variables -/

theorem apply_of_vars (hs : s.WellFormed) (ha : a.vars = []) : s.apply a = a := by
  rw [hs.apply_eq_mapVars (covers_of_vars ha), Ty.mapVars_eq_self ha]

theorem leavesIn_ne_error (ha : a.ErrorFree) : a.LeavesIn (Ty.OrParam (· ≠ .error)) :=
  fun _ hl => .inl fun heq => ha (heq ▸ hl)

/-! ### Equalities -/

include hs in
/-- An equality is settled if the assignment reconciles its types; without the error type only
then. -/
theorem concludes_equality (ha : s.Covers a) (hb : s.Covers b) :
    Concludes table s (.equality a b) (simplify table s (.equality a b) l) := by
  have hmoves := Store.moves_unify hs ha hb
  have hpasses := fun (σ : TyVar → Ty) (hσ : s.SolvedBy σ) =>
    Store.unify_of_reconciles (a := a) (b := b) hs ha hb hσ
  have hpassed := fun (τ : TyVar → Ty) hbinds => Store.unifier_iff τ hs ha hb hbinds
  unfold simplify
  dsimp only
  rcases hunify : s.unify a b with ⟨s', _ | conflict⟩ <;> rw [hunify] at hmoves hpasses hpassed
  · have hreplaces : Replaces table s (.equality a b) s' [] := by
      refine ⟨hmoves, nofun, Nat.one_pos, fun σ hσ h => ?_, fun _ hbinds hfree τ hτ _ => ?_⟩
      · exact ⟨σ, (hpasses σ hσ h).2, fun _ _ => rfl, nofun⟩
      · obtain ⟨hfa, hfb⟩ := List.forall_mem_cons.1 hfree
        exact .inl ((hpassed τ hbinds hfa (List.forall_mem_singleton.1 hfb)).2 ⟨rfl, hτ⟩).equal
    exact .discharged .nil hreplaces
  · exact .violated fun σ hσ h => nomatch (hpasses σ hσ h).1

/-! ### Supertypes -/

/-- The variables of opened parameters can be given the types that the parameters stand for. -/
theorem exists_assigned (θ : Name → Ty) : ∀ (names : List Name) {s : Store} {opened : Opened}
    {σ : TyVar → Ty}, s.WellFormed → s.SolvedBy σ → opened.HasAll s →
    (∀ n v, opened.lookup n = some v → σ v = θ n) →
    ∃ τ, (openMissing s opened names).2.SolvedBy τ ∧ (∀ v, s.Has v → τ v = σ v) ∧
      ∀ n v, (openMissing s opened names).1.lookup n = some v → τ v = θ n
  | [], s, opened, σ, _, hσ, _, hθ => ⟨σ, hσ, fun _ _ => rfl, hθ⟩
  | name :: names, s, opened, σ, hs, hσ, hall, hθ => by
    unfold openMissing
    cases hname : opened.lookup name with
    | some v => exact exists_assigned θ names hs hσ hall hθ
    | none =>
      -- The new variable is none of the store, so that nothing else changes.
      let σ₁ : TyVar → Ty := Function.update σ s.fresh.1 (θ name)
      have hold : ∀ v, s.Has v → σ₁ v = σ v := fun v hv =>
        Function.update_of_ne (by rintro rfl; exact Nat.lt_irrefl _ hv) _ _
      have hall' : Opened.HasAll ((name, s.fresh.1) :: opened) s.fresh.2 :=
        List.forall_mem_cons.2 ⟨Store.has_iff.2 ⟨_, (Store.slot?_fresh s _).trans (if_pos rfl)⟩,
          fun p hp => (hall p hp).fresh⟩
      have hθ' : ∀ n v, List.lookup n ((name, s.fresh.1) :: opened) = some v → σ₁ v = θ n := by
        intro n v hn
        rw [List.lookup_cons] at hn
        by_cases heq : n = name
        · rw [beq_iff_eq.2 heq] at hn
          rw [← Option.some.inj hn, heq]
          exact Function.update_self _ _ _
        · rw [beq_eq_false_iff_ne.2 heq] at hn
          rw [hold v (hall _ (Table.mem_of_lookup_eq_some hn)), hθ n v hn]
      obtain ⟨τ, hτ, hkeeps, hassigned⟩ := exists_assigned θ names (Store.wellFormed_fresh hs)
        (hσ.congr hs hold).fresh hall' hθ'
      exact ⟨τ, hτ, fun v hv => (hkeeps v hv.fresh).trans (hold v hv), hassigned⟩

include hs in
/-- The nearest supertype is opened, and has to be equal to the other type. -/
theorem replaces_opened {n m : Name} {as bs : List Ty} {sup : Ty}
    (hb : (Ty.nominal m bs).vars = []) (hdiffer : ¬ (n = m ∧ as.length = bs.length))
    (hfound : table.findSupertype (.nominal n as) m = some sup) (hsup : sup.vars = []) :
    Replaces table s (fitting fit (.nominal n as) (.nominal m bs)) (openParams s [] sup).2.2
      [.equality (openParams s [] sup).1 (.nominal m bs)] := by
  have hall : Opened.HasAll [] s := nofun
  obtain ⟨hextends, hcovers, hopened⟩ := openParams_spec hall (covers_of_vars hsup)
  have hinstance : ∀ τ, (openParams s [] sup).1.mapVars τ =
      sup.mapParams (assigned τ (openParams s [] sup).2.1) := by
    intro τ
    rw [hopened]
    refine Ty.subst_congr (fun v hv => ?_) fun p _ => rfl
    rw [hsup] at hv
    cases hv
  refine ⟨hextends.moves, List.forall_mem_singleton.2 ⟨hcovers, covers_of_vars hb⟩, ?_, ?_, ?_⟩
  · have hpos := (Ty.nominal n as).size_pos
    have hpos' := (Ty.nominal m bs).size_pos
    rw [cost_fitting]
    show 1 + 0 < _
    omega
  · intro σ hσ hfits
    obtain ⟨sup', θ, hfound', -, hθ⟩ := (Table.fits_nominal_iff hdiffer).1 (passes_fitting.1 hfits)
    obtain rfl := Option.some.inj (hfound.symm.trans hfound')
    have hnone : ∀ n v, List.lookup n ([] : Opened) = some v → σ v = θ n := by
      intro _ _ h
      cases h
    obtain ⟨τ, hτ, hkeeps, hassigned⟩ := exists_assigned θ sup.params hs hσ hall hnone
    refine ⟨τ, hτ, hkeeps, List.forall_mem_singleton.2 (.inl ?_)⟩
    rw [hinstance, Ty.mapVars_eq_self hb, ← hθ]
    refine Ty.subst_congr (fun _ _ => rfl) fun p hp => ?_
    obtain ⟨v, hv⟩ := Option.isSome_iff_exists.1 (hextends.names p hp)
    unfold assigned
    rw [hv]
    exact hassigned p v hv
  · intro htable hbinds hfree τ hτ hpasses
    rw [types_fitting] at hfree
    obtain ⟨hfa, hfb⟩ := List.forall_mem_cons.1 hfree
    have hs : s.Keeps (· ≠ .error) :=
      .of_vars (fun _ => nofun) fun v t ht l hl heq => hbinds v t ht (heq ▸ hl)
    refine passes_fitting.2 ((Table.fits_nominal_iff hdiffer).2
      ⟨sup, assigned τ (openParams s [] sup).2.1, hfound, hsup, ?_⟩)
    rw [← hinstance]
    rcases List.forall_mem_singleton.1 hpasses with heq | ⟨hvars, -, hagree⟩
    · rwa [Ty.mapVars_eq_self hb] at heq
    · have hleaves := (Table.above_of_findSupertype hfound).1.leavesIn htable.supertypes
        (leavesIn_ne_error hfa)
      have hfree' : (openParams s [] sup).1.ErrorFree :=
        (leavesIn_openParams (keepsOpened_nil hs) hleaves).1.errorFree fun h => h rfl
      rw [Ty.mapVars_eq_self hvars]
      exact eq_of_agree hfree' (List.forall_mem_singleton.1 hfb) hagree

/-- A supertype that is found has no variables if the table has none, or if the types fit. -/
theorem vars_of_found {n m : Name} {as bs : List Ty} {sup : Ty} (ha : (Ty.nominal n as).vars = [])
    (hdiffer : ¬ (n = m ∧ as.length = bs.length))
    (hdecided : table.Ground ∨ table.Fits (.nominal n as) (.nominal m bs))
    (hfound : table.findSupertype (.nominal n as) m = some sup) : sup.vars = [] := by
  rcases hdecided with hground | hfits
  · refine List.eq_nil_iff_forall_not_mem.2 fun v hv => ?_
    have hmem := (Table.above_of_findSupertype hfound).1.mem_vars hground hv
    rw [ha] at hmem
    cases hmem
  · obtain ⟨sup', -, hsome, hvars, -⟩ := (Table.fits_nominal_iff hdiffer).1 hfits
    exact Option.some.inj (hfound.symm.trans hsome) ▸ hvars

/-! ### Subtyping -/

section Parts

variable {ps qs : List Parameter} {as bs : List Ty} {u v : Ty}

theorem replaces_function (hne : Ty.function ps u ≠ .function qs v)
    (ha : (Ty.function ps u).vars = []) (hb : (Ty.function qs v).vars = [])
    (hconventions : ps.map (·.1) = qs.map (·.1)) :
    Replaces table s (fitting fit (.function ps u) (.function qs v)) s
      ((ps.zip qs).map (fun p => parameterRelation p.1 p.2) ++ [fitting fit u v]) := by
  refine replaces_of_iff (List.forall_mem_append.2 ⟨closed_parameters ha hb,
    List.forall_mem_singleton.2 (closed_fitting ?_ ?_)⟩) ?_ fun σ => ?_
  · exact Ty.vars_of_mem_children (Ty.result_mem_children ps u) ha
  · exact Ty.vars_of_mem_children (Ty.result_mem_children qs v) hb
  · have hparams := cost_parameters ps qs
    simp only [List.map_append, List.sum_append, List.map_singleton, List.sum_singleton,
      cost_fitting, Ty.size]
    omega
  · rw [passes_fitting, Table.fits_function_iff hne, List.forall_mem_append,
      passes_parameters ha hb, List.forall_mem_singleton, passes_fitting, and_assoc,
      and_iff_right hconventions]

theorem replaces_tuple (hne : Ty.tuple as ≠ .tuple bs) (ha : (Ty.tuple as).vars = [])
    (hb : (Ty.tuple bs).vars = []) (hlength : as.length = bs.length) :
    Replaces table s (fitting fit (.tuple as) (.tuple bs)) s
      ((as.zip bs).map fun p => fitting fit p.1 p.2) := by
  refine replaces_of_iff (List.forall_mem_map.2 fun p hp => closed_fitting ?_ ?_) ?_ fun σ => ?_
  · exact Ty.vars_of_mem_children (t := .tuple as) (List.of_mem_zip hp).1 ha
  · exact Ty.vars_of_mem_children (t := .tuple bs) (List.of_mem_zip hp).2 hb
  · have helements := cost_elements fit as bs
    rw [cost_fitting]
    simp only [Ty.size]
    omega
  · rw [passes_fitting, Table.fits_tuple_iff hne, and_iff_right hlength, List.forall_mem_map]
    exact forall₂_congr fun p _ => passes_fitting

include hnominal hacyclic in
theorem replaces_arguments {n : Name} (ha : (Ty.nominal n as).vars = [])
    (hb : (Ty.nominal n bs).vars = []) (hlength : as.length = bs.length) :
    Replaces table s (fitting fit (.nominal n as) (.nominal n bs)) s
      ((as.zip bs).map fun p => .equality p.1 p.2) := by
  have hparts : ∀ p ∈ as.zip bs, p.1.vars = [] ∧ p.2.vars = [] := fun p hp =>
    ⟨Ty.vars_of_mem_children (t := .nominal n as) (List.of_mem_zip hp).1 ha,
      Ty.vars_of_mem_children (t := .nominal n bs) (List.of_mem_zip hp).2 hb⟩
  refine replaces_of_iff (List.forall_mem_map.2 fun p hp => ?_) ?_ fun σ => ?_
  · exact ⟨covers_of_vars (hparts p hp).1, covers_of_vars (hparts p hp).2⟩
  · have harguments := cost_arguments as bs
    rw [cost_fitting]
    simp only [Ty.size]
    omega
  · rw [passes_fitting, Table.fits_arguments_iff hnominal hacyclic hlength, List.forall_mem_map]
    exact forall₂_congr fun p hp =>
      Relation.passes_equality_iff (hparts p hp).1 (hparts p hp).2

end Parts

include hnominal hacyclic hs in
/-- Two different types come down to their parts, or to what their shapes ask of each other. A
supertype without variables is found if the table has none, or if the types fit. -/
theorem concludes_shapes (ha : a.vars = []) (hb : b.vars = []) (hne : a ≠ b) (hea : a ≠ .error)
    (heb : b ≠ .error) (hdecided : table.Ground ∨ table.Fits a b) :
    Concludes table s (fitting fit a b) (simplifyShapes table s fit a b l) := by
  have hcost : 1 < (fitting fit a b).cost := by
    have hpos := a.size_pos
    have hpos' := b.size_pos
    rw [cost_fitting]
    omega
  have hviolated : ∀ {e : TypeError}, ¬ table.Fits a b →
      Concludes table s (fitting fit a b) (.violated e, s) := fun h =>
    .violated fun σ _ hpasses => h (passes_fitting.1 hpasses)
  unfold simplifyShapes
  dsimp only
  split
  · rename_i traits
    refine .discharged (relates_singleton _ l) (replaces_of_iff ?_ hcost fun σ => ?_)
    · exact List.forall_mem_singleton.2 ha
    · rw [passes_fitting, Table.fits_existential_iff hne hea]
      exact List.forall_mem_singleton
  · rename_i kind hnot
    refine .discharged (relates_singleton _ l) (replaces_of_iff ?_ hcost fun σ => ?_)
    · exact List.forall_mem_singleton.2 hb
    · rw [passes_fitting, Table.fits_literal_iff hne heb hnot]
      exact List.forall_mem_singleton.trans (or_iff_right heb)
  · split
    · rename_i hconventions
      exact .discharged (relates_pairwise.append
        (relates_singleton _ _)) (replaces_function hne ha hb hconventions)
    · rename_i hconventions
      exact hviolated fun h => hconventions ((Table.fits_function_iff hne).1 h).1
  · split
    · rename_i hlength
      exact .discharged relates_pairwise (replaces_tuple hne ha hb hlength)
    · rename_i hlength
      exact hviolated fun h => hlength ((Table.fits_tuple_iff hne).1 h).1
  · rename_i n as m bs
    split
    · rename_i hsame
      obtain ⟨rfl, hlength⟩ := hsame
      exact .discharged relates_pairwise (replaces_arguments hnominal hacyclic ha hb hlength)
    · rename_i hdiffer
      rw [apply_of_vars hs ha]
      split
      · rename_i hfound
        refine hviolated fun h => ?_
        obtain ⟨sup, -, hsome, -⟩ := (Table.fits_nominal_iff hdiffer).1 h
        rw [hfound] at hsome
        cases hsome
      · rename_i sup hfound
        exact .discharged (relates_singleton _ l)
          (replaces_opened hs hb hdiffer hfound (vars_of_found ha hdiffer hdecided hfound))
  · rename_i hliteral hexistential hfunction htuple hnamed
    refine hviolated fun h => ?_
    cases h with
    | refl => exact hne rfl
    | errorLeft => exact hea rfl
    | errorRight => exact heb rfl
    | existential => exact hexistential _ rfl
    | literal => exact hliteral _ rfl
    | function => exact hfunction _ _ _ _ rfl rfl
    | tuple => exact htuple _ _ rfl rfl
    | arguments => exact hnamed _ _ _ _ rfl rfl
    | nominal => exact hnamed _ _ _ _ rfl rfl

include hnominal hacyclic hs in
theorem concludes_subtyping (fit : Fit) (ha : a.vars = []) (hb : b.vars = [])
    (hdecided : table.Ground ∨ table.Fits a b) :
    Concludes table s (fitting fit a b) (simplifySubtyping table s fit a b l) := by
  unfold simplifySubtyping
  rw [Store.shallow_of_vars ha]
  dsimp only
  rw [Store.shallow_of_vars hb]
  dsimp only
  split
  · rename_i heq
    exact .discharged .nil (replaces_nil fun σ => passes_fitting.2 (heq ▸ .refl a))
  · rename_i hne
    split
    · exact .discharged .nil (replaces_nil fun σ => passes_fitting.2 (.errorLeft b))
    · exact .discharged .nil (replaces_nil fun σ => passes_fitting.2 (.errorRight a))
    · cases ha
    · cases ha
    · cases hb
    · rename_i hea _ heb _ _
      exact concludes_shapes hnominal hacyclic hs ha hb hne hea heb hdecided

/-! ### Traits and literals -/

theorem concludes_conformance {traits : TraitSet} (hs : s.WellFormed) (ha : a.vars = []) :
    Concludes table s (.conformance a traits) (simplifyConformance table s a traits l) := by
  unfold simplifyConformance
  rw [Store.shallow_of_vars ha]
  dsimp only
  split
  · cases ha
  · exact .discharged .nil (replaces_nil fun σ _ _ => rfl)
  · rw [apply_of_vars hs ha]
    split
    · rename_i trait hfind
      refine .violated fun σ _ hpasses => ?_
      have hnot := List.find?_some hfind
      rw [hpasses trait (List.mem_of_find?_eq_some hfind)] at hnot
      cases hnot
    · rename_i hfind
      refine .discharged .nil (replaces_nil fun σ trait htrait => ?_)
      have hconforms := List.find?_eq_none.1 hfind trait htrait
      rwa [Bool.not_eq_true, Bool.not_eq_false'] at hconforms

theorem concludes_conversion {kind : LiteralKind} (hs : s.WellFormed) (ha : a.vars = []) :
    Concludes table s (.conversion a kind) (simplifyConversion table s a kind l) := by
  unfold simplifyConversion
  rw [Store.shallow_of_vars ha]
  dsimp only
  split
  · cases ha
  · exact .discharged .nil (replaces_nil fun σ => .inl rfl)
  · rename_i hne
    rw [apply_of_vars hs ha]
    split
    · rename_i heq
      exact .discharged .nil (replaces_nil fun σ => .inr (heq ▸ table.isExpressible_literal kind))
    · split
      · rename_i hexpressible
        exact .discharged .nil (replaces_nil fun σ => .inr hexpressible)
      · rename_i hnot
        exact .violated fun σ _ hpasses => hpasses.elim hne hnot

include hnominal hacyclic hs in
/-- **A step on a closed relation** leaves relations that replace it, or finds that it cannot
pass. -/
theorem concludes_simplify (hr : r.Closed s)
    (hdecided : table.Ground ∨ ∃ σ, r.Passes table σ) :
    Concludes table s r (simplify table s r l) := by
  cases r with
  | equality a b => exact concludes_equality hs hr.1 hr.2
  | subtyping a b =>
    exact concludes_subtyping hnominal hacyclic hs .subtype hr.1 hr.2
      (hdecided.imp_right fun ⟨_, h⟩ => h)
  | returnBinding a b =>
    exact concludes_subtyping hnominal hacyclic hs .returned hr.1 hr.2
      (hdecided.imp_right fun ⟨_, h⟩ => h)
  | conformance a traits => exact concludes_conformance hs hr
  | conversion a kind => exact concludes_conversion hs hr
  | valueMember base member type site => exact hr.elim
  | size predicate => exact hr.elim

end Closed

end Search
end TypeResolution
