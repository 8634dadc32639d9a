/-
# Lookups of a step

A step on a goal moves the store if the store has what is looked up (`Search.moves_simplify`). It
has all of this if it has the variables of the goal (`Search.simplifyOwns_of_covers`), and then
it has those of the constraints that the goal comes down to, provided that declared types bring
in no others (`Search.coversAll_of_simplify`).

Key definitions: `Store.HasLeaf`.
Key theorems: `Search.moves_simplify`, `Search.simplifyOwns_of_covers`,
`Search.coversAll_of_simplify`.
-/
import TypeResolution.Proofs.Search.Confinement
import TypeResolution.Proofs.Store.Lookup
import TypeResolution.Search.Lookup

namespace TypeResolution

/-- A leaf that is a variable is one of the store. -/
def Store.HasLeaf (s : Store) (l : Ty) : Prop := ∀ v, l = .var v → s.Has v

namespace Search

open Store

variable {table : Table} {s s' s₁ : Store} {a b a' b' t type base : Ty} {fit : Fit}
variable {l : Option Locator} {r : Relation} {children : List Constraint} {entry : Option Entry}
variable {member : Name} {site : NodeId}

/-! ### Variables and leaves -/

theorem covers_iff_leavesIn : s.Covers t ↔ t.LeavesIn s.HasLeaf :=
  ⟨fun h _ hl v hv => h v (Ty.mem_vars_iff.2 (hv ▸ hl)), fun h v hv =>
    h _ (Ty.mem_vars_iff.1 hv) v rfl⟩

theorem covers_of_orParam (h : t.LeavesIn (Ty.OrParam s.HasLeaf)) : s.Covers t := fun v hv =>
  (h _ (Ty.mem_vars_iff.1 hv)).resolve_right nofun v rfl

theorem hasLeaf_literal (kind : LiteralKind) : s.HasLeaf (.literal kind) := nofun

/-- The types of a constraint with such leaves have variables of the store only. -/
theorem covers_of_leavesIn {c : Constraint} (h : c.LeavesIn s.HasLeaf) :
    ∀ t ∈ c.types, s.Covers t := by
  induction h with
  | relation hr => exact fun t ht => covers_iff_leavesIn.2 (hr.types hasLeaf_literal t ht)
  | overload htype hcandidates =>
    refine List.forall_mem_cons.2 ⟨covers_iff_leavesIn.2 htype, fun t ht => ?_⟩
    obtain ⟨c, hc, rfl⟩ := List.mem_map.1 ht
    exact covers_of_orParam (hcandidates c hc)
  | disjunction _ ih =>
    intro t ht
    rw [Constraint.types, Constraint.typesOfMinterms_eq_flatMap] at ht
    obtain ⟨m, hm, ht⟩ := List.mem_flatMap.1 ht
    obtain ⟨c, hc, ht⟩ := List.mem_flatMap.1 ht
    exact ih m hm c hc t ht

theorem coversAll_of_leavesIn {cs : List Constraint} (h : ∀ c ∈ cs, c.LeavesIn s.HasLeaf) :
    CoversAll s cs := fun c hc => covers_of_leavesIn (h c hc)

/-! ### A step moves the store -/

theorem moves_openParams (opened : Opened) : Moves s (openParams s opened t).2.2 :=
  (extends_openMissing t.params s opened).moves

theorem moves_openCandidate (type : Ty) (name : Name) (c : Candidate) (l : Option Locator) :
    Moves s (openCandidate s type name c l).store :=
  (extends_openEach (c.generics.map (·.name)) s []).moves.trans (moves_openParams _)

/-- Two types are compared by their tops. -/
theorem simplifySubtyping_eq (table : Table) (fit : Fit) (l : Option Locator) :
    s.tops a b = ((a', b'), s₁) → simplifySubtyping table s fit a b l =
      if a' = b' then (.settled, s₁)
      else
        match a', b' with
        | .error, _ | _, .error => (.settled, s₁)
        | .var v, .var w => (.undecided [v, w], s₁)
        | .var v, _ | _, .var v => (.undecided [v], s₁)
        | a, b => simplifyShapes table s₁ fit a b l := by
  intro htops
  obtain ⟨hpair, rfl⟩ := Prod.mk.inj htops
  obtain ⟨rfl, rfl⟩ := Prod.mk.inj hpair
  rfl

theorem simplifySubtypingOwns_eq (table : Table) :
    s.tops a b = ((a', b'), s₁) → simplifySubtypingOwns table s a b =
      if a' = b' then true
      else
        match a', b' with
        | .error, _ | _, .error => true
        | .var _, _ | _, .var _ => true
        | a, b => simplifyShapesOwns table s₁ a b := by
  intro htops
  obtain ⟨hpair, rfl⟩ := Prod.mk.inj htops
  obtain ⟨rfl, rfl⟩ := Prod.mk.inj hpair
  rfl

theorem moves_simplifyShapes : Moves s (simplifyShapes table s fit a b l).2 := by
  unfold simplifyShapes
  dsimp only
  split
  · exact .refl
  · exact .refl
  · split <;> exact .refl
  · split <;> exact .refl
  · split
    · exact .refl
    · split
      · exact .refl
      · exact moves_openParams []
  · exact .refl

theorem moves_simplifySubtyping (hs : s.WellFormed) (ha : s.ownsTop a = true)
    (hb : s.ownsTop b = true) : Moves s (simplifySubtyping table s fit a b l).2 := by
  rcases htops : s.tops a b with ⟨⟨a', b'⟩, s₁⟩
  have hmoves := (tidies_tops_of_ownsTop hs ha hb htops).1.moves
  rw [simplifySubtyping_eq table fit l htops]
  split
  · exact hmoves
  · split
    · exact hmoves
    · exact hmoves
    · exact hmoves
    · exact hmoves
    · exact hmoves
    · exact hmoves.trans moves_simplifyShapes

theorem moves_simplifyMember (hs : s.WellFormed) (hb : s.ownsTop base = true) :
    Moves s (simplifyMember table s base member type site l).2 := by
  have hmoves := (tidies_shallow_of_ownsTop hs hb).moves
  unfold simplifyMember
  dsimp only
  split
  · exact hmoves
  · exact hmoves
  · split <;> exact hmoves
  · split
    · exact hmoves
    · rename_i c _
      exact hmoves.trans (moves_openCandidate type member c (extended l (.member member)))
    · exact hmoves

/-- **A step on a goal moves the store** if the store has what is looked up. -/
theorem moves_simplify (hs : s.WellFormed) (h : simplifyOwns table s r = true) :
    Moves s (simplify table s r l).2 := by
  obtain ⟨htops, hrest⟩ := Bool.and_eq_true_iff.1 h
  rw [List.all_eq_true] at htops
  cases r with
  | equality a b =>
    have hmoves := moves_of_unifyOwns hs hrest
    unfold simplify
    dsimp only
    split
    · rename_i heq
      rw [heq] at hmoves
      exact hmoves
    · rename_i heq
      rw [heq] at hmoves
      exact hmoves
  | subtyping a b =>
    exact moves_simplifySubtyping hs (htops a List.mem_cons_self)
      (htops b (List.mem_cons_of_mem _ List.mem_cons_self))
  | returnBinding a b =>
    exact moves_simplifySubtyping hs (htops a List.mem_cons_self)
      (htops b (List.mem_cons_of_mem _ List.mem_cons_self))
  | conformance type traits =>
    have hmoves := (tidies_shallow_of_ownsTop hs (htops type List.mem_cons_self)).moves
    show Moves s (simplifyConformance table s type traits l).2
    unfold simplifyConformance
    dsimp only
    split
    · exact hmoves
    · exact hmoves
    · split <;> exact hmoves
  | conversion type kind =>
    have hmoves := (tidies_shallow_of_ownsTop hs (htops type List.mem_cons_self)).moves
    show Moves s (simplifyConversion table s type kind l).2
    unfold simplifyConversion
    dsimp only
    split
    · exact hmoves
    · exact hmoves
    · split
      · exact hmoves
      · split <;> exact hmoves
  | valueMember base member type site =>
    exact moves_simplifyMember hs (htops base List.mem_cons_self)
  | size predicate => exact .refl

/-! ### What is looked up -/

theorem simplifyShapesOwns_of_covers (ha : s.Covers a) (hb : s.Covers b) :
    simplifyShapesOwns table s a b = true := by
  unfold simplifyShapesOwns
  rw [ownsAll_iff.2 ha, ownsAll_iff.2 hb]
  dsimp only
  split <;> simp

theorem simplifySubtypingOwns_of_covers (hs : s.WellFormed) (ha : s.Covers a) (hb : s.Covers b) :
    simplifySubtypingOwns table s a b = true := by
  rcases htops : s.tops a b with ⟨⟨a', b'⟩, s₁⟩
  obtain ⟨-, hca, hcb, -, -⟩ := tops_spec hs ha hb htops
  rw [simplifySubtypingOwns_eq table htops]
  split
  · rfl
  · split
    · rfl
    · rfl
    · rfl
    · rfl
    · exact simplifyShapesOwns_of_covers hca hcb

/-- What a type that the store has the variables of is looked up to, is of the same kind. -/
theorem ownsAll_shallow (hs : s.WellFormed) (ht : s.Covers t) :
    (s.shallow t).2.ownsAll (s.shallow t).1 = true :=
  ownsAll_iff.2 ((tidies_shallow hs ht).moves.covers (covers_shallow hs ht))

theorem simplifyTypeOwns_of_covers (hs : s.WellFormed) (ht : s.Covers type) :
    simplifyTypeOwns s type = true := by
  have howns := ownsAll_shallow hs ht
  unfold simplifyTypeOwns
  dsimp only
  split
  · rfl
  · rfl
  · exact howns

theorem simplifyMemberOwns_of_covers (hs : s.WellFormed) (hb : s.Covers base) :
    simplifyMemberOwns table s base member = true := by
  have howns := ownsAll_shallow hs hb
  unfold simplifyMemberOwns
  dsimp only
  split
  · rfl
  · rfl
  · rw [howns, Bool.or_true]
  · exact howns

/-- The types that are looked at first are types of the relation. -/
theorem Relation.mem_types_of_mem_decisive (h : t ∈ r.decisive) : t ∈ r.types := by
  cases r with
  | valueMember base member type site =>
    rw [List.mem_singleton.1 h]
    exact List.mem_cons_self
  | _ => exact h

theorem ownsTop_of_covers (hr : ∀ t ∈ r.types, s.Covers t) :
    r.decisive.all s.ownsTop = true :=
  List.all_eq_true.2 fun t ht => (hr t (Relation.mem_types_of_mem_decisive ht)).ownsTop

/-- **Nothing is looked up that the store does not have** when it has the variables of a goal. -/
theorem simplifyOwns_of_covers (hs : s.WellFormed) (hr : ∀ t ∈ r.types, s.Covers t) :
    simplifyOwns table s r = true := by
  refine Bool.and_eq_true_iff.2 ⟨ownsTop_of_covers hr, ?_⟩
  cases r with
  | equality a b =>
    exact unifyOwns_of_covers hs (hr a List.mem_cons_self)
      (hr b (List.mem_cons_of_mem _ List.mem_cons_self))
  | subtyping a b =>
    exact simplifySubtypingOwns_of_covers hs (hr a List.mem_cons_self)
      (hr b (List.mem_cons_of_mem _ List.mem_cons_self))
  | returnBinding a b =>
    exact simplifySubtypingOwns_of_covers hs (hr a List.mem_cons_self)
      (hr b (List.mem_cons_of_mem _ List.mem_cons_self))
  | conformance type traits => exact simplifyTypeOwns_of_covers hs (hr type List.mem_cons_self)
  | conversion type kind => exact simplifyTypeOwns_of_covers hs (hr type List.mem_cons_self)
  | valueMember base member type site =>
    exact simplifyMemberOwns_of_covers hs (hr base List.mem_cons_self)
  | size predicate => rfl

/-! ### What a goal comes down to -/

section Children

variable (htable : table.LeavesIn s.HasLeaf)

theorem hasLeaf_moves (htable : table.LeavesIn s.HasLeaf) (hm : Moves s s') :
    table.LeavesIn s'.HasLeaf := htable.mono fun _ hl v hv => hm.has (hl v hv)

include htable in
theorem coversAll_of_simplifyShapes (hs : s.WellFormed) (ha : s.Covers a) (hb : s.Covers b)
    (h : simplifyShapes table s fit a b l = (.discharged children entry, s')) :
    CoversAll s' children := by
  have hla := covers_iff_leavesIn.1 ha
  have hlb := covers_iff_leavesIn.1 hb
  unfold simplifyShapes at h
  dsimp only at h
  split at h
  · obtain ⟨rfl, rfl, rfl⟩ := discharged_inj h
    exact coversAll_relation (List.forall_mem_singleton.2 ha)
  · obtain ⟨rfl, rfl, rfl⟩ := discharged_inj h
    exact coversAll_relation (List.forall_mem_singleton.2 hb)
  · split at h
    · obtain ⟨rfl, rfl, rfl⟩ := discharged_inj h
      exact coversAll_of_leavesIn (leavesIn_function hla hlb)
    · cases (Prod.mk.inj h).1
  · split at h
    · obtain ⟨rfl, rfl, rfl⟩ := discharged_inj h
      refine coversAll_of_leavesIn (leavesIn_pairwise fun p hp => ?_)
      obtain ⟨hp₁, hp₂⟩ := List.of_mem_zip hp
      exact leavesIn_fitting (.inr (hla.of_mem_children hp₁)) (hlb.of_mem_children hp₂)
    · cases (Prod.mk.inj h).1
  · split at h
    · obtain ⟨rfl, rfl, rfl⟩ := discharged_inj h
      refine coversAll_of_leavesIn (leavesIn_pairwise fun p hp => ?_)
      obtain ⟨hp₁, hp₂⟩ := List.of_mem_zip hp
      exact ⟨hla.of_mem_children hp₁, hlb.of_mem_children hp₂⟩
    · split at h
      · cases (Prod.mk.inj h).1
      · rename_i sup hsup
        obtain ⟨rfl, rfl, rfl⟩ := discharged_inj h
        obtain ⟨habove, -⟩ := Table.above_of_findSupertype hsup
        have happly := covers_iff_leavesIn.1 (covers_apply hs ha)
        have hsup' := covers_of_orParam
          (habove.leavesIn htable.supertypes (happly.mono fun l => .inl))
        have hnone : Opened.HasAll [] s := fun p hp => by cases hp
        obtain ⟨hopen, hcovers, -⟩ := openParams_spec hnone hsup'
        exact coversAll_relation (forall_mem_pair hcovers (hopen.moves.covers hb))
  · cases (Prod.mk.inj h).1

include htable in
/-- The members of a type have its variables, and those of declared types. -/
theorem coversAll_of_simplifyMember (hs : s.WellFormed) (hb : s.Covers base) (ht : s.Covers type)
    (h : simplifyMember table s base member type site l = (.discharged children entry, s')) :
    CoversAll s' children := by
  have hmoves := (tidies_shallow hs hb).moves
  have hb' := hmoves.covers (covers_shallow hs hb)
  have ht' := hmoves.covers ht
  have hs' := hmoves.wellFormed hs
  have htable' := hasLeaf_moves htable hmoves
  unfold simplifyMember at h
  dsimp only at h
  generalize s.shallow base = p at *
  obtain ⟨known, s₁⟩ := p
  dsimp only at *
  split at h
  · cases (Prod.mk.inj h).1
  · obtain ⟨rfl, rfl, rfl⟩ := discharged_inj h
    exact coversAll_relation (forall_mem_pair ht' hb')
  · split at h
    · rename_i helement
      obtain ⟨rfl, rfl, rfl⟩ := discharged_inj h
      exact coversAll_relation
        (forall_mem_pair (hb'.of_mem_children (mem_of_element? helement)) ht')
    · cases (Prod.mk.inj h).1
  · have hreceiver := covers_iff_leavesIn.1 (covers_apply hs' hb')
    have hmembers : ∀ c ∈ table.members (s₁.apply known) member, s₁.Covers c.type := fun c hc =>
      covers_of_orParam (Table.leavesIn_of_mem_members htable' (hreceiver.mono fun l => .inl) hc)
    split at h
    · cases (Prod.mk.inj h).1
    · rename_i c hone
      obtain ⟨rfl, rfl, rfl⟩ := discharged_inj h
      rw [hone] at hmembers
      obtain ⟨-, hconstraints, -⟩ := openCandidate_spec table ht' (hmembers c List.mem_cons_self)
        member (extended l (.member member))
      exact fun d hd => (hconstraints d hd).2
    · obtain ⟨rfl, rfl, rfl⟩ := discharged_inj h
      intro d hd t htype
      rw [List.mem_singleton.1 hd] at htype
      rcases List.mem_cons.1 htype with rfl | htype
      · exact ht'
      · obtain ⟨c, hc, rfl⟩ := List.mem_map.1 htype
        exact hmembers c hc

include htable in
theorem coversAll_of_simplifySubtyping (hs : s.WellFormed) (ha : s.Covers a) (hb : s.Covers b)
    (h : simplifySubtyping table s fit a b l = (.discharged children entry, s')) :
    CoversAll s' children := by
  rcases htops : s.tops a b with ⟨⟨a', b'⟩, s₁⟩
  obtain ⟨htidy, hca, hcb, -, -⟩ := tops_spec hs ha hb htops
  obtain ⟨rfl, -, -, -⟩ | h := discharged_simplifySubtyping htops h
  · exact coversAll_nil
  · exact coversAll_of_simplifyShapes (hasLeaf_moves htable htidy.moves)
      (htidy.moves.wellFormed hs) hca hcb h

include htable in
/-- **What a goal comes down to** has variables of the store only, if the goal and the declared
types do. -/
theorem coversAll_of_simplify (hs : s.WellFormed) (hr : ∀ t ∈ r.types, s.Covers t)
    (h : simplify table s r l = (.discharged children entry, s')) : CoversAll s' children := by
  cases r with
  | equality a b =>
    unfold simplify at h
    dsimp only at h
    split at h
    · obtain ⟨rfl, -, -⟩ := discharged_inj h
      exact coversAll_nil
    · cases (Prod.mk.inj h).1
  | subtyping a b =>
    exact coversAll_of_simplifySubtyping htable hs (hr a List.mem_cons_self)
      (hr b (List.mem_cons_of_mem _ List.mem_cons_self)) h
  | returnBinding a b =>
    exact coversAll_of_simplifySubtyping htable hs (hr a List.mem_cons_self)
      (hr b (List.mem_cons_of_mem _ List.mem_cons_self)) h
  | conformance type traits =>
    replace h : simplifyConformance table s type traits l = (.discharged children entry, s') := h
    unfold simplifyConformance at h
    dsimp only at h
    split at h
    · cases (Prod.mk.inj h).1
    · obtain ⟨rfl, -, -⟩ := discharged_inj h
      exact coversAll_nil
    · split at h
      · cases (Prod.mk.inj h).1
      · obtain ⟨rfl, -, -⟩ := discharged_inj h
        exact coversAll_nil
  | conversion type kind =>
    replace h : simplifyConversion table s type kind l = (.discharged children entry, s') := h
    unfold simplifyConversion at h
    dsimp only at h
    split at h
    · cases (Prod.mk.inj h).1
    · obtain ⟨rfl, -, -⟩ := discharged_inj h
      exact coversAll_nil
    · split at h
      · obtain ⟨rfl, -, -⟩ := discharged_inj h
        exact coversAll_nil
      · split at h
        · obtain ⟨rfl, -, -⟩ := discharged_inj h
          exact coversAll_nil
        · cases (Prod.mk.inj h).1
  | valueMember base member type site =>
    exact coversAll_of_simplifyMember htable hs (hr base List.mem_cons_self)
      (hr type (List.mem_cons_of_mem _ List.mem_cons_self)) h
  | size predicate =>
    obtain ⟨rfl, -, -⟩ := discharged_inj h
    exact coversAll_nil

end Children
end Search
end TypeResolution
