/-
# Goals that are put aside

A goal is put aside when it comes down to unbound variables, and waits for these
(`Relation.waitsFor`). What it comes down to depends on the tops of its types only. A step keeps the
tops, except those of a variable that it binds or joins to another one; and a goal that waits for
such a variable is queued again, unless the version has stayed the same. In this case nothing was
bound, since every write raises the version (`Store.Edits.later`). So a goal stays put aside as long
as it would be put aside again, for the same variables (`search_waiting`).

This holds for any declarations, also for those that bring in variables that the store does not
have, as long as none of these is looked up.

Key definitions: `Relation.waitsFor`, `Search.Waiting`, `Search.Deferred.Waits`.
Key theorems: `Search.simplify_of_waits`, `Search.waits_of_undecided`, `Search.preserved_watchful`,
`search_waiting`.
-/
import TypeResolution.Proofs.Search.Reached
import TypeResolution.Proofs.Search.Solutions

open Relation (ReflTransGen)

namespace TypeResolution

namespace Relation

variable {top top' : Ty → Ty} {r : Relation} {a b t : Ty} {v : TyVar}

/-- The variable that a type is waited for to be known, if it is not. -/
def unknown : Ty → List TyVar
  | .var v => [v]
  | _ => []

/-- The variables that a subtyping between two tops waits for. -/
def undecided (a b : Ty) : List TyVar :=
  if a = b ∨ a = .error ∨ b = .error then [] else unknown a ++ unknown b

/-- The variables that a relation waits for, if its types come down to these tops. -/
def waitsFor (top : Ty → Ty) : Relation → List TyVar
  | .subtyping a b | .returnBinding a b => undecided (top a) (top b)
  | .conformance t _ | .conversion t _ | .valueMember t _ _ _ => unknown (top t)
  | .equality _ _ | .size _ => []

theorem mem_unknown : v ∈ unknown t ↔ t = .var v := by
  cases t with
  | var w => simp [unknown, eq_comm]
  | _ => simp [unknown]

theorem waitsFor_congr (h : ∀ t ∈ r.decisive, top t = top' t) :
    r.waitsFor top = r.waitsFor top' := by
  cases r with
  | subtyping a b =>
    exact congrArg₂ undecided (h a List.mem_cons_self)
      (h b (List.mem_cons_of_mem _ List.mem_cons_self))
  | returnBinding a b =>
    exact congrArg₂ undecided (h a List.mem_cons_self)
      (h b (List.mem_cons_of_mem _ List.mem_cons_self))
  | conformance type traits => exact congrArg unknown (h type List.mem_cons_self)
  | conversion type kind => exact congrArg unknown (h type List.mem_cons_self)
  | valueMember base member type site => exact congrArg unknown (h base List.mem_cons_self)
  | _ => rfl

theorem mem_undecided (hne : undecided a b ≠ []) :
    v ∈ undecided a b ↔ a = .var v ∨ b = .var v := by
  unfold undecided at hne ⊢
  split at hne
  · exact absurd rfl hne
  · rename_i h
    rw [if_neg h, List.mem_append, mem_unknown, mem_unknown]

/-- A relation that waits does so for all tops that are variables. -/
theorem mem_waitsFor (hne : r.waitsFor top ≠ []) :
    v ∈ r.waitsFor top ↔ ∃ t ∈ r.decisive, top t = .var v := by
  cases r with
  | subtyping a b => exact (mem_undecided hne).trans (by simp [decisive])
  | returnBinding a b => exact (mem_undecided hne).trans (by simp [decisive])
  | conformance type traits => exact mem_unknown.trans (by simp [decisive])
  | conversion type kind => exact mem_unknown.trans (by simp [decisive])
  | valueMember base member type site => exact mem_unknown.trans (by simp [decisive])
  | equality a b => exact absurd rfl hne
  | size predicate => exact absurd rfl hne

end Relation

namespace Search

open Store

variable {ctx : Context} {table : Table} {s s' : Store} {w w' rest : Work} {goal : Goal}
variable {a b type base : Ty} {fit : Fit} {l : Option Locator} {r : Relation}
variable {watch : List TyVar} {d : Deferred} {v : TyVar} {member : Name} {site : NodeId}

/-! ### What is put aside -/

theorem simplifySubtyping_of_waits (hs : s.WellFormed) (ha : s.ownsTop a = true)
    (hb : s.ownsTop b = true) (hwaits : Relation.undecided (s.top a) (s.top b) ≠ []) :
    simplifySubtypingOwns table s a b = true ∧
      (simplifySubtyping table s fit a b l).1 =
        .undecided (Relation.undecided (s.top a) (s.top b)) ∧
      Tidies s (simplifySubtyping table s fit a b l).2 := by
  obtain ⟨s₁, htops, htidy⟩ := tops_eq_top hs ha hb
  rw [simplifySubtypingOwns_eq table htops, simplifySubtyping_eq table fit l htops]
  generalize s.top a = a' at hwaits ⊢
  generalize s.top b = b' at hwaits ⊢
  unfold Relation.undecided at hwaits ⊢
  split at hwaits
  · exact absurd rfl hwaits
  · rename_i h
    obtain ⟨hne, ha', hb'⟩ : a' ≠ b' ∧ a' ≠ .error ∧ b' ≠ .error := by
      simpa only [not_or] using h
    rw [if_neg h, if_neg hne, if_neg hne]
    cases a' <;> cases b' <;> first
      | exact ⟨rfl, rfl, htidy⟩
      | exact absurd rfl ha'
      | exact absurd rfl hb'
      | exact absurd rfl hwaits

theorem eq_var_of_unknown {t : Ty} (h : Relation.unknown t ≠ []) : ∃ v, t = .var v := by
  obtain ⟨v, hv⟩ := List.exists_mem_of_ne_nil _ h
  exact ⟨v, Relation.mem_unknown.1 hv⟩

/-- **A relation that waits is put aside**: nothing but the tops of its types is looked up, and
nothing is bound. -/
theorem simplify_of_waits (table : Table) (l : Option Locator) (hs : s.WellFormed)
    (howns : r.decisive.all s.ownsTop = true) (hwaits : r.waitsFor s.top ≠ []) :
    simplifyOwns table s r = true ∧
      (simplify table s r l).1 = .undecided (r.waitsFor s.top) ∧
      Tidies s (simplify table s r l).2 := by
  unfold simplifyOwns
  rw [howns, Bool.true_and]
  rw [List.all_eq_true] at howns
  cases r with
  | equality a b => exact absurd rfl hwaits
  | subtyping a b =>
    exact simplifySubtyping_of_waits hs (howns a List.mem_cons_self)
      (howns b (List.mem_cons_of_mem _ List.mem_cons_self)) hwaits
  | returnBinding a b =>
    exact simplifySubtyping_of_waits hs (howns a List.mem_cons_self)
      (howns b (List.mem_cons_of_mem _ List.mem_cons_self)) hwaits
  | conformance type traits =>
    have htype := howns type List.mem_cons_self
    obtain ⟨v, hv⟩ := eq_var_of_unknown hwaits
    have hshallow := (shallow_eq_top hs htype).trans hv
    have htidy := tidies_shallow_of_ownsTop hs htype
    simp only [simplify, simplifyConformance, simplifyTypeOwns, Relation.waitsFor,
      Relation.unknown, hshallow, hv]
    exact ⟨trivial, trivial, htidy⟩
  | conversion type kind =>
    have htype := howns type List.mem_cons_self
    obtain ⟨v, hv⟩ := eq_var_of_unknown hwaits
    have hshallow := (shallow_eq_top hs htype).trans hv
    have htidy := tidies_shallow_of_ownsTop hs htype
    simp only [simplify, simplifyConversion, simplifyTypeOwns, Relation.waitsFor,
      Relation.unknown, hshallow, hv]
    exact ⟨trivial, trivial, htidy⟩
  | valueMember base member type site =>
    have hbase := howns base List.mem_cons_self
    obtain ⟨v, hv⟩ := eq_var_of_unknown hwaits
    have hshallow := (shallow_eq_top hs hbase).trans hv
    have htidy := tidies_shallow_of_ownsTop hs hbase
    simp only [simplify, simplifyMember, simplifyMemberOwns, Relation.waitsFor,
      Relation.unknown, hshallow, hv]
    exact ⟨trivial, trivial, htidy⟩
  | size predicate => exact absurd rfl hwaits

theorem isVar_of_unknown_eq_nil {t : Ty} (h : Relation.unknown t = []) (v : TyVar) :
    t ≠ .var v := by
  rintro rfl
  cases h

theorem not_undecided_simplifySubtyping (hs : s.WellFormed) (ha : s.ownsTop a = true)
    (hb : s.ownsTop b = true) (h : Relation.undecided (s.top a) (s.top b) = []) :
    (simplifySubtyping table s fit a b l).1 ≠ .undecided watch := by
  obtain ⟨s₁, htops, -⟩ := tops_eq_top hs ha hb
  rw [simplifySubtyping_eq table fit l htops]
  generalize s.top a = a' at h ⊢
  generalize s.top b = b' at h ⊢
  split
  · nofun
  · rename_i hne
    -- Where one of the tops is a variable, it would be waited for.
    have hknown : a' = .error ∨ b' = .error ∨ ∀ v, a' ≠ .var v ∧ b' ≠ .var v := by
      by_contra hnot
      simp only [not_or] at hnot
      obtain ⟨ha', hb', hvar⟩ := hnot
      unfold Relation.undecided at h
      rw [if_neg (by simp [hne, ha', hb']), List.append_eq_nil_iff] at h
      exact hvar fun v => ⟨isVar_of_unknown_eq_nil h.1 v, isVar_of_unknown_eq_nil h.2 v⟩
    split
    · nofun
    · nofun
    · rename_i v w
      rcases hknown with h | h | h
      · cases h
      · cases h
      · exact absurd rfl (h v).1
    · rename_i v hb' _
      rcases hknown with h | h | h
      · cases h
      · exact absurd h hb'
      · exact absurd rfl (h v).1
    · rename_i v ha' _
      rcases hknown with h | h | h
      · exact absurd h ha'
      · cases h
      · exact absurd rfl (h v).2
    · exact not_undecided_simplifyShapes

/-- **What is put aside waits** for the variables that it is put aside with. -/
theorem waits_of_undecided (hs : s.WellFormed) (howns : r.decisive.all s.ownsTop = true)
    (h : (simplify table s r l).1 = .undecided watch) :
    watch = r.waitsFor s.top ∧ watch ≠ [] := by
  by_cases hwaits : r.waitsFor s.top = []
  · exfalso
    rw [List.all_eq_true] at howns
    cases r with
    | equality a b =>
      unfold simplify at h
      dsimp only at h
      split at h <;> cases h
    | subtyping a b =>
      exact not_undecided_simplifySubtyping hs (howns a List.mem_cons_self)
        (howns b (List.mem_cons_of_mem _ List.mem_cons_self)) hwaits h
    | returnBinding a b =>
      exact not_undecided_simplifySubtyping hs (howns a List.mem_cons_self)
        (howns b (List.mem_cons_of_mem _ List.mem_cons_self)) hwaits h
    | conformance type traits =>
      replace h : (simplifyConformance table s type traits l).1 = .undecided watch := h
      have htype := shallow_eq_top hs (howns type List.mem_cons_self)
      have hknown := isVar_of_unknown_eq_nil hwaits
      unfold simplifyConformance at h
      dsimp only at h
      split at h
      · rename_i v hv
        exact hknown v (htype.symm.trans hv)
      · cases h
      · split at h <;> cases h
    | conversion type kind =>
      replace h : (simplifyConversion table s type kind l).1 = .undecided watch := h
      have htype := shallow_eq_top hs (howns type List.mem_cons_self)
      have hknown := isVar_of_unknown_eq_nil hwaits
      unfold simplifyConversion at h
      dsimp only at h
      split at h
      · rename_i v hv
        exact hknown v (htype.symm.trans hv)
      · cases h
      · split at h
        · cases h
        · split at h <;> cases h
    | valueMember base member type site =>
      replace h : (simplifyMember table s base member type site l).1 = .undecided watch := h
      have hbase := shallow_eq_top hs (howns base List.mem_cons_self)
      have hknown := isVar_of_unknown_eq_nil hwaits
      unfold simplifyMember at h
      dsimp only at h
      split at h
      · rename_i v hv
        exact hknown v (hbase.symm.trans hv)
      · cases h
      · split at h <;> cases h
      · split at h <;> cases h
    | size predicate => cases h
  · obtain ⟨-, hundecided, -⟩ := simplify_of_waits table l hs howns hwaits
    obtain rfl := Simplified.undecided.inj (h.symm.trans hundecided)
    exact ⟨rfl, hwaits⟩

/-! ### Goals that wait -/

/-- A goal that was put aside waits for unbound classes, and would be put aside again for the same
ones. -/
structure Waiting (table : Table) (s : Store) (d : Deferred) : Prop where
  nonempty : d.watch ≠ []
  unbound : ∀ v ∈ d.watch, ∃ k, s.slot? v = some (.root k)
  owned : simplifyOwns table s d.goal.relation = true
  again : (simplify table s d.goal.relation d.goal.locator).1 = .undecided d.watch

/-- The same, read off the tops of the types. -/
structure Deferred.Waits (d : Deferred) (s : Store) : Prop where
  nonempty : d.watch ≠ []
  watch_eq : d.watch = d.goal.relation.waitsFor s.top
  owns : d.goal.relation.decisive.all s.ownsTop = true

namespace Deferred.Waits

theorem unbound (h : d.Waits s) (hs : s.WellFormed) (hv : v ∈ d.watch) :
    ∃ k, s.slot? v = some (.root k) := by
  have hne := h.nonempty
  rw [h.watch_eq] at hv hne
  obtain ⟨t, ht, htop⟩ := (Relation.mem_waitsFor hne).1 hv
  exact root_of_top hs (List.all_eq_true.1 h.owns t ht) htop

theorem waiting (h : d.Waits s) (hs : s.WellFormed) (table : Table) : Waiting table s d := by
  obtain ⟨howned, hagain, -⟩ :=
    simplify_of_waits table d.goal.locator hs h.owns (h.watch_eq ▸ h.nonempty)
  exact ⟨h.nonempty, fun v hv => h.unbound hs hv, howned, h.watch_eq ▸ hagain⟩

theorem congr (h : d.Waits s) (hslots : s.slots = s'.slots) : d.Waits s' :=
  ⟨h.nonempty, top_congr hslots ▸ h.watch_eq, ownsTop_congr hslots ▸ h.owns⟩

theorem ownsTop_moves (h : d.Waits s) (hm : Moves s s') :
    d.goal.relation.decisive.all s'.ownsTop = true :=
  List.all_eq_true.2 fun t ht => Store.ownsTop_moves hm (List.all_eq_true.1 h.owns t ht)

/-- A goal waits on until one of the variables is bound or joined to another one. -/
theorem moves (h : d.Waits s) (hs : s.WellFormed) (hm : Moves s s')
    (hready : d.isReady s' = false) : d.Waits s' := by
  have hprobe : ∀ v ∈ d.watch, s'.probe v = .var v := by
    intro v hv
    have hnot := List.any_eq_false.1 hready v hv
    simpa using hnot
  have htops : ∀ t ∈ d.goal.relation.decisive, s.top t = s'.top t := by
    intro t ht
    refine (hm.top_eq hs (List.all_eq_true.1 h.owns t ht) fun v hv => hprobe v ?_).symm
    have hne := h.nonempty
    rw [h.watch_eq] at hne ⊢
    exact (Relation.mem_waitsFor hne).2 ⟨t, ht, hv⟩
  exact ⟨h.nonempty, h.watch_eq.trans (Relation.waitsFor_congr htops), h.ownsTop_moves hm⟩

/-- As long as no slot is touched, no goal becomes ready. -/
theorem not_isReady (h : d.Waits s) (hs : s.WellFormed) (hm : Moves s s')
    (hslot : ∀ v c, s.slot? v = some c → s'.slot? v = some c) : d.isReady s' = false := by
  refine List.any_eq_false.2 fun v hv => ?_
  obtain ⟨k, hk⟩ := h.unbound hs hv
  have hprobe := probe_of_root (hslot v _ hk) (hm.wellFormed hs)
  simp [hprobe]

end Deferred.Waits

/-- A goal that is put aside waits in the store that it leaves. -/
theorem waits_of_simplify (hs : s.WellFormed)
    (howns : simplifyOwns table s goal.relation = true)
    (h : simplify table s goal.relation goal.locator = (.undecided watch, s')) :
    Deferred.Waits ⟨goal, watch⟩ s' := by
  have hdecisive := (Bool.and_eq_true_iff.1 howns).1
  obtain ⟨rfl, hne⟩ := waits_of_undecided hs hdecisive (congrArg Prod.fst h)
  obtain ⟨-, -, htidy⟩ := simplify_of_waits table goal.locator hs hdecisive hne
  rw [h] at htidy
  have howned := List.all_eq_true.1 hdecisive
  exact ⟨hne, Relation.waitsFor_congr fun t ht => (htidy.top_eq hs (howned t ht)).symm,
    List.all_eq_true.2 fun t ht => Store.ownsTop_moves htidy.moves (howned t ht)⟩

/-! ### The goals that are put aside on a path -/

@[simp] theorem Work.deferred_push (w : Work) (c : Constraint) :
    (w.push c).deferred = w.deferred := by
  cases c <;> rfl

@[simp] theorem Work.deferred_pushAll : ∀ (cs : List Constraint) (w : Work),
    (w.pushAll cs).deferred = w.deferred
  | [], _ => rfl
  | c :: cs, w => (deferred_pushAll cs (w.push c)).trans (w.deferred_push c)

@[simp] theorem Work.deferred_record (w : Work) (e : Entry) :
    (w.record e).deferred = w.deferred := by
  cases e <;> rfl

@[simp] theorem Work.deferred_discharge (w : Work) (cs : List Constraint) (e : Option Entry) :
    (w.discharge cs e).deferred = w.deferred := by
  cases e <;> simp [discharge]

theorem Alternative.deferred_enter (a : Alternative) (l : Option Locator) (w : Work) (s : Store) :
    (a.enter l w s).1.deferred = w.deferred := by
  cases a with
  | candidate o c => simp [enter]
  | minterm i m => simp [enter]

/-- Nothing is put aside by what comes next on a path. -/
theorem mem_deferred_of_turn (h : w.turn ctx s = .simplify goal rest) (hd : d ∈ rest.deferred) :
    d ∈ w.deferred := by
  have hnext := w.next_turn ctx s
  rw [h] at hnext
  cases hnext with
  | goal => exact hd
  | weakened _ _ hweaken =>
    obtain ⟨d', fit, a, b, hperm, -, -, -⟩ := weaken_cases hweaken
    exact hperm.mem_iff.2 (List.mem_cons_of_mem _ hd)
  | literal => exact hd

theorem deferred_of_choose {point : BranchPoint} (h : w.turn ctx s = .choose point rest) :
    rest.deferred = w.deferred := by
  obtain ⟨-, -, hrest⟩ := Work.turn_choose h
  rw [hrest]

/-- What is put aside after a step was so before, or is the goal of the step. Unless the version
has stayed the same, it is not ready. -/
theorem mem_deferred_of_pathSimplify (h : Path.simplify ctx goal rest s = (.open w', s'))
    (hd : d ∈ w'.deferred) :
    (d ∈ rest.deferred ∨ ∃ watch, d = ⟨goal, watch⟩ ∧
      simplify ctx.table s goal.relation goal.locator = (.undecided watch, s')) ∧
    (s'.version = s.version ∨ d.isReady s' = false) := by
  unfold Path.simplify at h
  rcases hsimp : simplify ctx.table s goal.relation goal.locator with ⟨result, after⟩
  rw [hsimp] at h
  have hgo : ∀ w₁ : Work, d ∈ (if after.version = s.version then w₁ else w₁.wake after).deferred →
      d ∈ w₁.deferred ∧ (after.version = s.version ∨ d.isReady after = false) := by
    intro w₁ hd
    split at hd
    · rename_i hversion
      exact ⟨hd, .inl hversion⟩
    · unfold Work.wake at hd
      dsimp only at hd
      rw [List.partition_eq_filter_filter, List.mem_filter] at hd
      exact ⟨hd.1, .inr (by simpa using hd.2)⟩
  cases result with
  | discharged children entry =>
    obtain ⟨hpath, rfl⟩ := Prod.mk.inj h
    obtain rfl := Path.open.inj hpath
    obtain ⟨hmem, hready⟩ := hgo _ hd
    rw [Work.deferred_discharge] at hmem
    exact ⟨.inl hmem, hready⟩
  | undecided watch =>
    obtain ⟨hpath, rfl⟩ := Prod.mk.inj h
    obtain rfl := Path.open.inj hpath
    obtain ⟨hmem, hready⟩ := hgo _ hd
    rcases mem_insertBefore.1 hmem with rfl | hmem
    · exact ⟨.inr ⟨watch, rfl, rfl⟩, hready⟩
    · exact ⟨.inl hmem, hready⟩
  | violated e => cases (Prod.mk.inj h).1

/-! ### Opening touches no slot -/

theorem slot?_openEach {c : Slot} : ∀ (names : List Name) {s : Store} (opened : Opened),
    s.slot? v = some c → (openEach s opened names).2.slot? v = some c
  | [], _, _, h => h
  | _ :: names, _, _, h =>
    slot?_openEach names _ ((slot?_fresh_of_has (has_of_slot? h)).trans h)

theorem slot?_openMissing {c : Slot} : ∀ (names : List Name) {s : Store} (opened : Opened),
    s.slot? v = some c → (openMissing s opened names).2.slot? v = some c
  | [], _, _, h => h
  | name :: names, s, opened, h => by
    unfold openMissing
    split
    · exact slot?_openMissing names opened h
    · exact slot?_openMissing names _ ((slot?_fresh_of_has (has_of_slot? h)).trans h)

theorem slot?_openCandidate {k : Slot} (type : Ty) (name : Name) (c : Candidate)
    (l : Option Locator) (h : s.slot? v = some k) :
    (openCandidate s type name c l).store.slot? v = some k :=
  slot?_openMissing c.type.params _ (slot?_openEach (c.generics.map (·.name)) [] h)

/-- Entering an alternative adds variables and does nothing else to the store. -/
theorem moves_enter (a : Alternative) (l : Option Locator) (w : Work) :
    Moves s (a.enter l w s).2 := by
  cases a with
  | candidate o c =>
    exact moves_openCandidate o.type o.name c (l.map (·.extend (.candidate c.decl)))
  | minterm i m => exact .refl

theorem slot?_enter {k : Slot} (a : Alternative) (l : Option Locator) (w : Work)
    (h : s.slot? v = some k) : (a.enter l w s).2.slot? v = some k := by
  cases a with
  | candidate o c =>
    exact slot?_openCandidate o.type o.name c (l.map (·.extend (.candidate c.decl))) h
  | minterm i m => exact h

/-! ### The search -/

/-- Every goal that was put aside on the path waits. -/
structure Watchful (s : Store) (w : Work) : Prop where
  wellFormed : s.WellFormed
  waits : ∀ d ∈ w.deferred, d.Waits s

theorem Watchful.simplify (h : Watchful s w) (hturn : w.turn ctx s = .simplify goal rest)
    (howns : simplifyOwns ctx.table s goal.relation = true)
    (hsimp : Path.simplify ctx goal rest s = (.open w', s')) : Watchful s' w' := by
  have hs := h.wellFormed
  have hedits := edits_pathSimplify (s := s) ctx goal rest
  have hmoves := moves_simplify (l := goal.locator) hs howns
  rw [← store_pathSimplify ctx goal rest, hsimp] at hmoves
  rw [hsimp] at hedits
  refine ⟨hmoves.wellFormed hs, fun d hd => ?_⟩
  obtain ⟨hd | ⟨watch, rfl, hgoal⟩, hready⟩ := mem_deferred_of_pathSimplify hsimp hd
  · have hwaits := h.waits d (mem_deferred_of_turn hturn hd)
    refine hwaits.moves hs hmoves (hready.elim (fun hversion => ?_) id)
    exact hwaits.not_isReady hs hmoves (hedits.later.slot hversion)
  · exact waits_of_simplify hs howns hgoal

theorem Watchful.enter (h : Watchful s w) {point : BranchPoint}
    (hturn : w.turn ctx s = .choose point rest) (a : Alternative) :
    Watchful (a.enter point.locator rest s).2 (a.enter point.locator rest s).1 := by
  have hs := h.wellFormed
  have hmoves := moves_enter (s := s) a point.locator rest
  refine ⟨hmoves.wellFormed hs, fun d hd => ?_⟩
  rw [a.deferred_enter, deferred_of_choose hturn] at hd
  have hwaits := h.waits d hd
  exact hwaits.moves hs hmoves (hwaits.not_isReady hs hmoves fun v c hc => slot?_enter a _ _ hc)

/-- **No step loses a goal that waits.** -/
theorem preserved_watchful (ctx : Context) : Preserved ctx Watchful where
  congr hslots h :=
    ⟨h.wellFormed.of_slots_eq hslots, fun d hd => (h.waits d hd).congr hslots⟩
  simplify h hturn howns hsimp := h.simplify hturn howns hsimp
  enter h hturn _ := h.enter hturn _

end Search

open Search Store

variable {table : Table} {options : SolverOptions} {system : System} {s₀ : Store}
variable {s : State} {past : List Store}

theorem watchful_start (hvalid : system.validate = [])
    (hseeds : System.plant (.ofSize system.varCount) system.seeds = .done s₀) :
    Watchful s₀ (Work.pushAll {} system.constraints) := by
  have hs := (System.moves_plant system.seeds (wellFormed_ofSize _)
    (System.plantable_seeds hvalid) hseeds).wellFormed (wellFormed_ofSize _)
  refine ⟨hs, fun d hd => ?_⟩
  rw [Work.deferred_pushAll] at hd
  cases hd

/-- **No wakeup is lost.** In every state that the search reaches, each goal that is put aside waits
for unbound classes and would be put aside again for the same ones. So it did where an open branch
was met, and so it does when an alternative of the branch is entered. Whatever happens to the store
comes down to edits, and between two moments with the same version no slot is touched. -/
theorem search_waiting (hvalid : system.validate = [])
    (hseeds : System.plant (.ofSize system.varCount) system.seeds = .done s₀) :
    let ctx : Context := ⟨table, options, system.varCount⟩
    ∀ s past, Reached ctx (system.start s₀) s past →
      (∀ w, s.path = .open w → ∀ d ∈ w.deferred, Waiting table s.store d) ∧
      List.Forall₂ (fun b g => b.snapshot = mark g ∧ ∀ d ∈ b.base.deferred, Waiting table g d)
        s.branches past ∧
      (∀ s', Goes ctx s s' → ∃ past', Reached ctx (system.start s₀) s' past' ∧
        Onward ctx s past s' past' ∧
        ∀ b a g restored, past'.head? = some g → Enters b a g restored s' →
          ∀ d ∈ b.base.deferred, Waiting table restored d) ∧
      (∀ s', ReflTransGen (Goes ctx) s s' → Edits s.store s'.store) ∧
      ∀ t u, Edits s.store t → Edits t u → Later t u := by
  intro ctx s past h
  have hI := preserved_watchful ctx
  have hstart := stands_start ctx hseeds (watchful_start hvalid hseeds)
  have hstands := h.stands hI hstart
  have hmet : ∀ b g, Met ctx Watchful b g → g.WellFormed ∧ ∀ d ∈ b.base.deferred, d.Waits g := by
    intro b g hb
    obtain ⟨w, hturn, hw⟩ := hb.work
    exact ⟨hw.wellFormed, fun d hd => hw.waits d (deferred_of_choose hturn ▸ hd)⟩
  refine ⟨?_, ?_, ?_, fun s' hgoes => (h.edits hI hstart hgoes).1, fun t u _ hu => hu.later⟩
  · intro w hw d hd
    exact ((hstands.path w hw).waits d hd).waiting (hstands.path w hw).wellFormed table
  · refine hstands.branches.imp fun b g hb => ⟨hb.snapshot, fun d hd => ?_⟩
    obtain ⟨hg, hwaits⟩ := hmet b g hb
    exact (hwaits d hd).waiting hg table
  · intro s' hgoes
    obtain ⟨past', hreached, honward, hstands'⟩ := h.next hI hstands hgoes
    refine ⟨past', hreached, honward, fun b a g restored hhead henters d hd => ?_⟩
    obtain ⟨hg, hwaits⟩ := hmet b g (met_innermost hstands'.branches henters.branch hhead)
    have hslots := henters.slots.symm
    exact ((hwaits d hd).congr hslots).waiting (hg.of_slots_eq hslots) table

/-- A conversion of an unknown type waits while the alternatives of a choice are entered. -/
theorem search_waiting_literal :
    let choose (type : Ty) : Minterm Constraint :=
      ⟨[.relation (.equality (.var ⟨0⟩) type) none], 0⟩
    let literal : Relation := .conversion (.var ⟨0⟩) .integer
    let system : System :=
      ⟨1, [.relation literal none, .disjunction [choose .error, choose (.tuple [])] none], []⟩
    let table := Table.ofNames .empty
    let ctx : Context := ⟨table, {}, 1⟩
    let d : Deferred := ⟨⟨0, literal, none⟩, [⟨0⟩]⟩
    system.validate = [] ∧ System.plant (.ofSize 1) system.seeds = .done (.ofSize 1) ∧
      ∃ s w g, Reached ctx (system.start (.ofSize 1)) s [g] ∧ s.path = .open w ∧
        w.deferred = [d] ∧ Waiting table s.store d ∧ Waiting table g d := by
  intro choose literal system table ctx d
  have hvalid : system.validate = [] := by decide
  obtain ⟨s₁, s, w, hfirst, hsecond, hopen, hdeferred, hbranches⟩ : ∃ s₁ s w,
      Goes ctx (system.start (.ofSize 1)) s₁ ∧ Goes ctx s₁ s ∧ s.path = .open w ∧
      w.deferred = [d] ∧ s.branches.map (·.base.deferred) = [[d]] :=
    ⟨_, _, _, ⟨by cbv, by cbv⟩, ⟨by cbv, by cbv⟩, by cbv, by cbv, by cbv⟩
  have hreached := (Reached.start.step hfirst).step hsecond
  obtain ⟨hpath, hmet, -, -, -⟩ :=
    @search_waiting table {} system (.ofSize 1) hvalid rfl s _ hreached
  obtain ⟨b, hb, hbase⟩ := List.map_eq_singleton_iff.1 hbranches
  generalize (s₁.met ctx _).rtake s.branches.length = past at hreached hmet
  rw [hb] at hmet
  cases hmet with
  | @cons _ g _ _ hmet hnil =>
    cases hnil
    have hd : d ∈ [d] := List.mem_cons_self
    exact ⟨hvalid, rfl, s, w, g, hreached, hopen, hdeferred, hpath w hopen d (hdeferred ▸ hd),
      hmet.2 d (hbase ▸ hd)⟩

end TypeResolution
