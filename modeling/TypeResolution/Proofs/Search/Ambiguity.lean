/-
# What is told of an ambiguity

The report of an ambiguity is made from the best solutions without those that agree with an earlier
one. It goes through the references of the first of them only, and names the first one about which
another solution differs, with the declarations that any of the solutions chose there
(`Search.describes_ambiguity`). So if it names a reference, then the declarations are those that the
best solutions chose at this reference, each once; and if it names none, then every best solution
made all the choices of the first one (`Search.Describes`).

This is the choice that the solutions differ in as long as they settle the same references
(`Search.SameSites`). If they come from different alternatives of a disjunction, they need not: where
the first solution has no choice to make, the others may differ in a reference that is not told
(`solve_ambiguous_unnamed`), and where another solution does not settle the reference that is named,
only one declaration may be listed.

Key definitions: `Search.ListsChoices`, `Search.Describes`, `Search.SameSites`.
Key theorems: `Search.listsChoices_candidatesAt`, `Search.exists_mem_distinct`,
`Search.describes_ambiguity`, `solve_ambiguous`.
-/
import Mathlib
import TypeResolution.Proofs.Search.Exhaustive
import TypeResolution.Proofs.Table.Instances

namespace TypeResolution
namespace Search

variable {L : Leaves} {P Q : List Nat} {f g first : Found} {found : List Found} {site : NodeId}

/-! ### The candidates of a reference -/

/-- The list has the declarations that solutions chose at a reference, each once and with the
signature that one of them chose it with. -/
structure ListsChoices (site : NodeId) (chosen : Found → Prop) (candidates : List (DeclId × Ty)) :
    Prop where
  nodup : (candidates.map (·.1)).Nodup
  decls : ∀ d, d ∈ candidates.map (·.1) ↔ ∃ f, chosen f ∧ f.decl? site = some d
  signatures : ∀ p ∈ candidates, ∃ f c, chosen f ∧ f.choices.lookup site = some c ∧
    p = (c.decl, c.signature)

theorem candidatesAt_concat (site : NodeId) (found : List Found) (f : Found) :
    candidatesAt site (found ++ [f]) = match f.choices.lookup site with
      | some c => if (candidatesAt site found).any (·.1 == c.decl) then candidatesAt site found
        else candidatesAt site found ++ [(c.decl, c.signature)]
      | none => candidatesAt site found := by
  unfold candidatesAt
  rw [List.foldl_append]
  rfl

theorem any_decl_iff {candidates : List (DeclId × Ty)} {d : DeclId} :
    candidates.any (·.1 == d) = true ↔ d ∈ candidates.map (·.1) := by
  rw [List.any_eq_true, List.mem_map]
  exact exists_congr fun p => and_congr_right fun _ => beq_iff_eq

theorem exists_mem_concat {p : Found → Prop} :
    (∃ g, g ∈ found ++ [f] ∧ p g) ↔ (∃ g, g ∈ found ∧ p g) ∨ p f := by
  simp [or_and_right, exists_or]

/-- What is listed for a reference is what the solutions chose there. -/
theorem listsChoices_candidatesAt (site : NodeId) (found : List Found) :
    ListsChoices site (· ∈ found) (candidatesAt site found) := by
  induction found using List.reverseRecOn with
  | nil => exact ⟨List.nodup_nil, by simp [candidatesAt], nofun⟩
  | append_singleton found f ih =>
    have hmore : ∀ {p}, p ∈ candidatesAt site found → ∃ g c, g ∈ found ++ [f] ∧
        g.choices.lookup site = some c ∧ p = (c.decl, c.signature) := by
      intro p hp
      obtain ⟨g, c, hg, hc⟩ := ih.signatures p hp
      exact ⟨g, c, List.mem_append_left _ hg, hc⟩
    rw [candidatesAt_concat]
    cases hlookup : f.choices.lookup site with
    | none =>
      refine ⟨ih.nodup, fun d => ?_, fun p => hmore⟩
      rw [ih.decls, exists_mem_concat]
      simp [Found.decl?, hlookup]
    | some c =>
      have hdecl : f.decl? site = some c.decl := by simp [Found.decl?, hlookup]
      dsimp only
      split
      · rename_i hany
        refine ⟨ih.nodup, fun d => ?_, fun p => hmore⟩
        rw [ih.decls, exists_mem_concat, hdecl]
        refine (or_iff_left_of_imp ?_).symm
        rintro ⟨⟩
        exact (ih.decls _).1 (any_decl_iff.1 hany)
      · rename_i hany
        refine ⟨?_, fun d => ?_, fun p hp => ?_⟩
        · rw [List.map_append, List.map_singleton, ← List.concat_eq_append]
          exact ih.nodup.concat fun h => hany (any_decl_iff.2 h)
        · rw [List.map_append, List.mem_append, ih.decls, exists_mem_concat, hdecl]
          simp [eq_comm]
        · rcases List.mem_append.1 hp with hp | hp
          · exact hmore hp
          · exact ⟨f, c, List.mem_append_right _ List.mem_cons_self, hlookup,
              List.mem_singleton.1 hp⟩

/-! ### Solutions that agree -/

theorem mem_foldl_dropAgreeing : ∀ (found : List Found) {kept : List Found},
    f ∈ kept ∨ f ∈ found → ∃ g ∈ found.foldl dropAgreeing kept, g = f ∨ g.sameAssignment f = true
  | [], kept, h => ⟨f, h.resolve_right List.not_mem_nil, .inl rfl⟩
  | k :: found, kept, h => by
    have hkept : ∀ {g}, g ∈ dropAgreeing kept k →
        g ∈ found.foldl dropAgreeing (dropAgreeing kept k) :=
      fun hg => (prefix_foldl_dropAgreeing found _).subset hg
    rw [List.foldl_cons]
    rcases h with h | h
    · refine mem_foldl_dropAgreeing found (.inl ?_)
      unfold dropAgreeing
      split
      · exact h
      · exact List.mem_append_left _ h
    · rcases List.mem_cons.1 h with rfl | h
      · by_cases hany : kept.any (·.sameAssignment f) = true
        · obtain ⟨g, hg, hsame⟩ := List.any_eq_true.1 hany
          exact ⟨g, hkept (by rwa [dropAgreeing, if_pos hany]), .inr hsame⟩
        · exact ⟨f, hkept (by simp [dropAgreeing, hany]), .inl rfl⟩
      · exact mem_foldl_dropAgreeing found (.inr h)

/-- Every solution agrees with one that is left. -/
theorem exists_mem_distinct (hnodup : ∀ g ∈ found, g.NodupChoices) (h : f ∈ found) :
    ∃ g ∈ distinct found, SameAssignment g f := by
  obtain ⟨g, hg, rfl | hsame⟩ : ∃ g ∈ found.foldl dropAgreeing [],
      g = f ∨ g.sameAssignment f = true := mem_foldl_dropAgreeing found (.inr h)
  · exact ⟨g, hg, rfl, fun _ => rfl⟩
  · exact ⟨g, hg, (sameAssignment_iff (hnodup g (mem_of_mem_distinct hg)) (hnodup f h)).1 hsame⟩

/-! ### The report -/

/-- What the report of an ambiguity tells about the best leaves. -/
inductive Describes (L : Leaves) : TypeError → Prop where
  /-- Some of them differ from the first one about a reference of it. -/
  | reference {P Q : List Nat} {first g : Found} {site : NodeId} {c : Choice}
      {candidates : List (DeclId × Ty)} : First L P first → first.choices.lookup site = some c →
      Best L Q g → g.decl? site ≠ some c.decl →
      ListsChoices site (fun f => ∃ P, Best L P f) candidates →
      Describes L (.ambiguous (some c.name) candidates (c.locator.map Locator.dropCandidate))
  /-- All of them make the choices of the first one. -/
  | bindings {P : List Nat} {first : Found} : First L P first →
      (∀ Q g, Best L Q g → ∀ site d, first.decl? site = some d → g.decl? site = some d) →
      Describes L (.ambiguous none [] none)

/-- What is listed of solutions is listed of more of them that agree with these. -/
theorem ListsChoices.extend {chosen chosen' : Found → Prop} {candidates : List (DeclId × Ty)}
    (h : ListsChoices site chosen candidates) (hsub : ∀ f, chosen f → chosen' f)
    (hagree : ∀ f, chosen' f → ∃ g, chosen g ∧ SameAssignment g f) :
    ListsChoices site chosen' candidates := by
  refine ⟨h.nodup, fun d => (h.decls d).trans ⟨?_, ?_⟩, fun p hp => ?_⟩
  · rintro ⟨f, hf, hd⟩
    exact ⟨f, hsub f hf, hd⟩
  · rintro ⟨f, hf, hd⟩
    obtain ⟨g, hg, hsame⟩ := hagree f hf
    exact ⟨g, hg, (hsame.2 site).trans hd⟩
  · obtain ⟨f, c, hf, hc⟩ := h.signatures p hp
    exact ⟨f, c, hsub f hf, hc⟩

/-- **What is told of an ambiguity describes the best leaves**, if it is made from some of them that
the others agree with, beginning with the first one. -/
theorem describes_ambiguity {P : List Nat} (hfirst : First L P first)
    (hnodup : first.NodupChoices) (hbest : ∀ f ∈ found, ∃ Q, Best L Q f)
    (hagree : ∀ f, (∃ Q, Best L Q f) → ∃ g ∈ found, SameAssignment g f) :
    Describes L (ambiguity first found) := by
  unfold ambiguity
  split
  · rename_i site c hfind
    have hmem : (site, c) ∈ first.choices := List.mem_of_find?_eq_some hfind
    have hany := List.find?_some hfind
    obtain ⟨g, hg, hdiffer⟩ := List.any_eq_true.1 hany
    obtain ⟨Q, hQ⟩ := hbest g hg
    exact .reference hfirst (lookup_eq_some_of_mem hnodup hmem) hQ (by simpa using hdiffer)
      ((listsChoices_candidatesAt site found).extend hbest hagree)
  · rename_i hnone
    refine .bindings hfirst fun Q g hg site d hd => ?_
    obtain ⟨k, hk, hsame⟩ := hagree g ⟨Q, hg⟩
    obtain ⟨c, hc, rfl⟩ := Option.map_eq_some_iff.1 hd
    have hall := List.find?_eq_none.1 hnone _ (Table.mem_of_lookup_eq_some hc)
    have hk' : k.decl? site = some c.decl := by
      by_contra hne
      exact hall (List.any_eq_true.2 ⟨k, hk, by simpa using hne⟩)
    exact (hsame.2 site).symm.trans hk'

/-- **An answer that is an ambiguity describes the best leaves**, and they differ. -/
theorem AnswersBest.describes {ctx : Context} {e : TypeError} {u : Unsolved}
    (h : AnswersBest ctx L (.error u)) (hL : ∀ P f, L P f → f.NodupChoices) (he : e ∈ u.errors)
    (hambiguity : IsAmbiguity e) :
    Describes L e ∧ ∃ P Q f g, Best L P f ∧ Best L Q g ∧ ¬ SameAssignment f g := by
  have hsettles := h.settles hL
  obtain ⟨store, found, pruned, certain, failure, hkeeps, hfailure, hanswer⟩ := h
  obtain ⟨P, Q, f, g, hf, hg, hdiffer⟩ : ∃ P Q f g, Best L P f ∧ Best L Q g ∧
      ¬ SameAssignment f g := by
    cases hsettles with
    | ambiguous hf hg hdiffer _ => exact ⟨_, _, _, _, hf, hg, hdiffer⟩
    | unsolved _ hnot =>
      obtain rfl := List.mem_singleton.1 he
      exact absurd hambiguity hnot
  refine ⟨?_, P, Q, f, g, hf, hg, hdiffer⟩
  have hne : found ≠ [] := fun hnil => hkeeps.eq_nil_iff.1 hnil P f hf.1
  obtain ⟨best, hsorted, hnil, heq, hbest⟩ := hkeeps.exists_best hne
  cases best with
  | nil => exact absurd rfl hnil
  | cons first ties =>
    obtain ⟨R, first⟩ := first
    have hfirst : First L R first := first_of_sorted hsorted hbest
    have hties : ∀ k, k ∈ first :: ties.map (·.2) ↔ ∃ Q, Best L Q k := by
      intro k
      show k ∈ ((R, first) :: ties).map (·.2) ↔ _
      rw [List.mem_map]
      constructor
      · rintro ⟨⟨Q, k⟩, hmem, rfl⟩
        exact ⟨Q, (hbest Q k).1 hmem⟩
      · rintro ⟨Q, hk⟩
        exact ⟨(Q, k), (hbest Q k).2 hk, rfl⟩
    have hnodup : ∀ k ∈ first :: ties.map (·.2), k.NodupChoices := fun k hk => by
      obtain ⟨Q, hk⟩ := (hties k).1 hk
      exact hL Q k hk.1
    rw [List.map_cons] at heq
    unfold answer at hanswer
    rw [heq] at hanswer
    obtain ⟨others, hothers⟩ := prefix_foldl_dropAgreeing (ties.map (·.2)) [first]
    have hdistinct : distinct (first :: ties.map (·.2)) = first :: others := hothers.symm
    have hdescribes : Describes L (ambiguity first (first :: others)) :=
      describes_ambiguity hfirst (hL R first hfirst.1.1)
        (fun k hk => (hties k).1 (mem_of_mem_distinct (hdistinct ▸ hk)))
        fun k hk => hdistinct ▸ exists_mem_distinct hnodup ((hties k).2 hk)
    rw [hdistinct] at hanswer
    cases others with
    | nil => cases hanswer
    | cons second others =>
      obtain rfl := Except.error.inj hanswer
      obtain rfl := List.mem_singleton.1 he
      exact hdescribes

/-! ### Solutions that settle the same references -/

/-- The best leaves settle the same references. -/
def SameSites (L : Leaves) : Prop :=
  ∀ P Q f g, Best L P f → Best L Q g → ∀ site, f.decl? site = none → g.decl? site = none

theorem two_le_length {α : Type} {xs : List α} {x y : α} (hx : x ∈ xs) (hy : y ∈ xs)
    (hne : x ≠ y) : 2 ≤ xs.length := by
  match xs, hx, hy with
  | [z], hx, hy => exact absurd ((List.mem_singleton.1 hx).trans (List.mem_singleton.1 hy).symm) hne
  | _ :: _ :: _, _, _ => exact Nat.le_add_left 2 _

/-- A reference that is named is one that the best leaves differ in. -/
theorem Describes.exists_choice {name : Name} {candidates : List (DeclId × Ty)}
    {l : Option Locator} (h : Describes L (.ambiguous (some name) candidates l))
    (hsites : SameSites L) :
    ∃ site, ListsChoices site (fun f => ∃ P, Best L P f) candidates ∧ 2 ≤ candidates.length := by
  cases h with
  | @reference P Q first g site c _ hfirst hlookup hg hdiffer hlists =>
    refine ⟨site, hlists, ?_⟩
    have hdecl : first.decl? site = some c.decl := by simp [Found.decl?, hlookup]
    cases hother : g.decl? site with
    | none =>
      rw [hsites _ _ _ _ hg hfirst.1 site hother] at hdecl
      cases hdecl
    | some d =>
      have htwo := two_le_length ((hlists.decls _).2 ⟨first, ⟨P, hfirst.1⟩, hdecl⟩)
        ((hlists.decls d).2 ⟨g, ⟨Q, hg⟩, hother⟩) fun heq => hdiffer (heq ▸ hother)
      rwa [List.length_map] at htwo

/-- If no reference is named, then the best leaves do not differ in any. -/
theorem Describes.same_choices {candidates : List (DeclId × Ty)} {l : Option Locator}
    (h : Describes L (.ambiguous none candidates l)) (hsites : SameSites L) (hf : Best L P f)
    (hg : Best L Q g) (site : NodeId) : f.decl? site = g.decl? site := by
  cases h with
  | @bindings R first hfirst hall =>
    have hsame : ∀ {P : List Nat} {k : Found}, Best L P k → k.decl? site = first.decl? site := by
      intro P k hk
      cases hdecl : first.decl? site with
      | none => exact hsites _ _ _ _ hfirst.1 hk site hdecl
      | some d => exact hall P k hk site d hdecl
    exact (hsame hf).trans (hsame hg).symm

end Search

open Search

variable {table : Table} {options : SolverOptions} {system : System}

/-- An ambiguity comes from a search that has concluded. -/
theorem exists_answersBest {u : Unsolved} {e : TypeError}
    (h : solve table options system = .error u) (he : e ∈ u.errors) (hambiguity : IsAmbiguity e) :
    ∃ s₀, System.plant (.ofSize system.varCount) system.seeds = .done s₀ ∧
      AnswersBest ⟨table, options, system.varCount⟩
        (Admitted ⟨table, options, system.varCount⟩ (system.leaves table options s₀))
        (.error u) := by
  by_cases hvalid : system.validate = []
  · rcases hseeds : System.plant (.ofSize system.varCount) system.seeds with ⟨s₀, _ | conflict⟩
    · refine ⟨s₀, rfl, ?_⟩
      rcases @solve_answersBest table options system s₀ hvalid hseeds with
        hanswers | ⟨certain, hsteps⟩
      · rwa [h] at hanswers
      · rw [h] at hsteps
        obtain rfl := Except.error.inj hsteps
        obtain rfl := List.mem_singleton.1 he
        exact hambiguity.elim
    · obtain ⟨certain, heq⟩ := System.exists_solve_of_conflict table options hvalid hseeds
      rw [h] at heq
      obtain rfl := Except.error.inj heq
      obtain rfl := List.mem_singleton.1 he
      exact absurd hambiguity (endsPath_toTypeError conflict .equal none).not_isAmbiguity
  · obtain ⟨certain, heq⟩ := System.exists_solve_of_invalid table options hvalid
    rw [h] at heq
    obtain rfl := Except.error.inj heq
    exact absurd hambiguity (endsPath_of_mem_validate he).not_isAmbiguity

/-- **What is told of an ambiguity.** If a reference is named, then the declarations that are listed
are those that the best solutions chose at it, each once, and a best solution made another choice
there than the first one; if none is named, then all best solutions made the choices of the first
one. If the best solutions settle the same references, then at least two declarations are listed of
a reference that is named, and if none is named the solutions differ in their types only. -/
theorem solve_ambiguous {u : Unsolved} {name : Option Name} {candidates : List (DeclId × Ty)}
    {l : Option Locator} (h : solve table options system = .error u)
    (he : .ambiguous name candidates l ∈ u.errors) :
    ∃ s₀, System.plant (.ofSize system.varCount) system.seeds = .done s₀ ∧
      let L := Admitted ⟨table, options, system.varCount⟩ (system.leaves table options s₀)
      Describes L (.ambiguous name candidates l) ∧
      (SameSites L →
        (∀ n, name = some n → ∃ site, ListsChoices site (fun f => ∃ P, Best L P f) candidates ∧
          2 ≤ candidates.length) ∧
        (name = none →
          (∀ P Q f g, Best L P f → Best L Q g → ∀ site, f.decl? site = g.decl? site) ∧
          ∃ P Q f g, Best L P f ∧ Best L Q g ∧ f.types ≠ g.types)) := by
  obtain ⟨s₀, hseeds, hanswers⟩ := exists_answersBest h he trivial
  refine ⟨s₀, hseeds, ?_⟩
  intro L
  obtain ⟨hdescribes, P, Q, f, g, hf, hg, hdiffer⟩ :=
    hanswers.describes (fun P f hf => nodupChoices_leaves hf.1) he trivial
  refine ⟨hdescribes, fun hsites => ⟨?_, ?_⟩⟩
  · rintro n rfl
    exact hdescribes.exists_choice hsites
  · rintro rfl
    refine ⟨fun P Q f g hf hg => hdescribes.same_choices hsites hf hg, P, Q, f, g, hf, hg, ?_⟩
    exact fun htypes => hdiffer ⟨htypes, hdescribes.same_choices hsites hf hg⟩

/-- A reference with two candidates that are equally good is named, with both of them. -/
theorem solve_ambiguous_tied :
    let candidate (decl : Nat) : Candidate := .plain ⟨decl⟩ .unit
    let reference : Constraint := .overload ⟨.unit, ⟨5⟩, ⟨7⟩, [candidate 1, candidate 2]⟩ none
    let system : System := ⟨0, [reference], []⟩
    let table := Table.ofNames .empty
    let told : TypeError := .ambiguous (some ⟨5⟩) [(⟨1⟩, .unit), (⟨2⟩, .unit)] none
    solve table {} system = .error ⟨[told], []⟩ ∧ ∃ s₀,
      Describes (Admitted ⟨table, {}, 0⟩ (system.leaves table {} s₀)) told := by
  intro candidate reference system table told
  have hsolve : solve table {} system = .error ⟨[told], []⟩ := by cbv
  obtain ⟨s₀, -, hdescribes, -⟩ := solve_ambiguous hsolve List.mem_cons_self
  exact ⟨hsolve, s₀, hdescribes⟩

/-- If the first alternative of a disjunction has no choice to make, then a reference in the other
one is not told, though best solutions differ in it. -/
theorem solve_ambiguous_unnamed :
    let candidate (decl : Nat) : Candidate := .plain ⟨decl⟩ .unit
    let reference : Constraint := .overload ⟨.unit, ⟨5⟩, ⟨7⟩, [candidate 1, candidate 2]⟩ none
    let system : System := ⟨0, [.disjunction [⟨[], 0⟩, ⟨[reference], 0⟩] none], []⟩
    let table := Table.ofNames .empty
    let L := Admitted ⟨table, {}, 0⟩ (system.leaves table {} (.ofSize 0))
    solve table {} system = .error ⟨[.ambiguous none [] none], []⟩ ∧
      ∃ P Q f g, Best L P f ∧ Best L Q g ∧ ∃ site, f.decl? site ≠ g.decl? site := by
  intro candidate reference system table L
  have hsolve : solve table {} system = .error ⟨[.ambiguous none [] none], []⟩ := by cbv
  have hsettles : Settles L (solve table {} system) :=
    (@solve_settles table {} system (.ofSize 0) rfl rfl).resolve_right (by
      rw [hsolve]
      rintro ⟨certain, ⟨⟩⟩)
  obtain ⟨P, Q, f, g, hf, hg, hdiffer⟩ :=
    hsettles.ambiguous_iff.1 ⟨_, [], hsolve, trivial⟩
  -- There are no variables that the solutions could differ in.
  have htypes : ∀ {P : List Nat} {f : Found}, L P f → f.types = [] := by
    rintro P f ⟨⟨t, v, -, rfl⟩, -⟩
    rfl
  refine ⟨hsolve, P, Q, f, g, hf, hg, ?_⟩
  by_contra hsame
  exact hdiffer ⟨(htypes hf.1).trans (htypes hg.1).symm, fun site =>
    by_contra fun h => hsame ⟨site, h⟩⟩

end TypeResolution
