/-
# Where errors point

Every constraint that a search works on descends from one constraint of its system
(`Search.Descends`): it is this constraint, a part of one that descends from it, what a candidate
of a reference asks for, or a constraint in an alternative of a disjunction. On the way the search
goes by the nearest ancestor in the system that has a locator: a constraint in an alternative has
its own locator, or goes by that of the disjunction. The locator of the constraint is that of this
ancestor, with the steps in between at the end of its path, and there is none if no ancestor has
one (`Search.Traced`).

An error is told with the locator of a constraint, and so is a warning. An ambiguous reference is
told with the locator of its candidate, without the step to the candidate. So each of them points
at the node of a constraint of the system, with a path that goes on from the path of that
constraint (`search_traced`).

The stores in which relations are taken apart are those of the states that the search visits. In
which store a candidate is opened is left out; only the names of the variables that it is opened
with depend on it.

Key definitions: `Constraint.Encloses`, `Locator.Continues`, `Search.Descends`, `Search.Traced`,
`Search.Anchored`, `Search.Sourced`, `Search.Blames`, `Search.Points`.
Key theorems: `Search.Descends.encloses`, `Search.Traced.anchored`, `Search.upheld_sourced`,
`points_solve`, `search_traced`.
-/
import TypeResolution.Proofs.Search.Explanations

namespace TypeResolution

/-- The other constraint is this one, or is inside of it. -/
inductive Constraint.Encloses : Constraint → Constraint → Prop where
  | self (c : Constraint) : Encloses c c
  | inner {ms : List (Minterm Constraint)} {l : Option Locator} {m : Minterm Constraint}
      {c c' : Constraint} : m ∈ ms → c ∈ m.constraints → Encloses c c' →
      Encloses (.disjunction ms l) c'

theorem Constraint.Encloses.trans {c d e : Constraint} (h : c.Encloses d) (h' : d.Encloses e) :
    c.Encloses e := by
  induction h with
  | self => exact h'
  | inner hm hc _ ih => exact .inner hm hc (ih h')

@[simp] theorem Constraint.content_orLocator (c : Constraint) (l : Option Locator) :
    (c.orLocator l).content = c.content := by
  unfold orLocator
  split <;> rfl

theorem Constraint.locator_orLocator (c : Constraint) (l : Option Locator) :
    (c.orLocator l).locator = c.locator.or l := by
  cases c with
  | relation r m => cases m <;> rfl
  | overload o m => cases m <;> rfl
  | disjunction ms m => cases m <;> rfl

/-- The locator is of the same node, and its path goes on from that of the other one. -/
structure Locator.Continues (l l₀ : Locator) : Prop where
  anchor : l.anchor = l₀.anchor
  span : l.span = l₀.span
  path : l₀.path <+: l.path

namespace Locator

theorem continues_refl (l : Locator) : l.Continues l := ⟨rfl, rfl, List.prefix_rfl⟩

theorem Continues.extendAll {l l₀ : Locator} (h : l.Continues l₀) (steps : List PathStep) :
    (l.extendAll steps).Continues l₀ :=
  ⟨h.anchor, h.span, h.path.trans (List.prefix_append _ _)⟩

theorem dropCandidate_extend_candidate (l : Locator) (decl : DeclId) :
    (l.extend (.candidate decl)).dropCandidate = l := by
  unfold dropCandidate extend
  simp

theorem dropCandidate_extend_member (l : Locator) (member : Name) :
    (l.extend (.member member)).dropCandidate = l.extend (.member member) := by
  unfold dropCandidate extend
  simp

end Locator

namespace Search

open Store

variable {table : Table} {stores : Store → Prop} {cs : List Constraint} {origin c d : Constraint}
variable {nearest : Option Locator} {steps : List PathStep} {content : Content}
variable {ctx : Context} {s s' : Store} {w w' rest : Work} {goal : Goal} {point : BranchPoint}
variable {l : Option Locator} {r : Relation}

/-- The store is that of a state that the search comes to. -/
def Visited (ctx : Context) (start : State) (t : Store) : Prop :=
  ∃ s, Visits ctx start s ∧ s.store = t

/-! ### Descent -/

/-- What is said descends from the constraint. The locator is that of the nearest ancestor in the
system that has one, and the steps are those that lead on from this ancestor. -/
inductive Descends (table : Table) (stores : Store → Prop) (origin : Constraint) :
    Content → Option Locator → List PathStep → Prop where
  | origin : Descends table stores origin origin.content origin.locator []
  | part {r : Relation} {nearest : Option Locator} {steps more : List PathStep} {s : Store}
      {content : Content} : Descends table stores origin (.relation r) nearest steps → stores s →
      Decomposes table s r more content →
      Descends table stores origin content nearest (steps ++ more)
  | candidate {o : Overload} {nearest : Option Locator} {steps : List PathStep} {c : Candidate}
      {s : Store} {l : Option Locator} {d : Constraint} :
      Descends table stores origin (.overload o) nearest steps → c ∈ o.candidates →
      d ∈ (openCandidate s o.type o.name c l).constraints →
      Descends table stores origin d.content nearest (steps ++ [.candidate c.decl])
  | written {ms : List (Minterm Constraint)} {nearest : Option Locator} {steps : List PathStep}
      {i : Nat} {m : Minterm Constraint} {c : Constraint} {l : Locator} :
      Descends table stores origin (.disjunction ms) nearest steps → ms[i]? = some m →
      c ∈ m.constraints → c.locator = some l →
      Descends table stores origin c.content (some l) []
  | inherited {ms : List (Minterm Constraint)} {nearest : Option Locator} {steps : List PathStep}
      {i : Nat} {m : Minterm Constraint} {c : Constraint} :
      Descends table stores origin (.disjunction ms) nearest steps → ms[i]? = some m →
      c ∈ m.constraints → c.locator = none →
      Descends table stores origin c.content nearest (steps ++ [.minterm i])

/-- What a relation is taken apart into is not a disjunction. -/
theorem Decomposes.ne_disjunction (h : Decomposes table s r steps content)
    (ms : List (Minterm Constraint)) : content ≠ .disjunction ms := by
  cases h with
  | candidate _ hd =>
    obtain ⟨r', rfl⟩ := relation_of_openCandidate _ hd
    nofun
  | _ => nofun

/-- The locator is that of a constraint in the system, and a disjunction is there as it is. -/
theorem Descends.encloses (h : Descends table stores origin content nearest steps) :
    (∀ l, nearest = some l → ∃ c, origin.Encloses c ∧ c.locator = some l) ∧
      ∀ ms, content = .disjunction ms → ∃ l, origin.Encloses (.disjunction ms l) := by
  -- An alternative of a disjunction is inside of this one, and so is a disjunction in there.
  have hinner : ∀ {ms : List (Minterm Constraint)} {i : Nat} {m : Minterm Constraint}
      {c : Constraint}, (∃ l, origin.Encloses (.disjunction ms l)) → ms[i]? = some m →
      c ∈ m.constraints → origin.Encloses c := by
    rintro ms i m c ⟨l, hencloses⟩ hm hc
    exact hencloses.trans (.inner (List.mem_of_getElem? hm) hc (.self c))
  have hnested : ∀ {c : Constraint}, origin.Encloses c → ∀ ms, c.content = .disjunction ms →
      ∃ l, origin.Encloses (.disjunction ms l) := by
    intro c hc ms hms
    cases c with
    | disjunction ms' l =>
      obtain rfl := Content.disjunction.inj hms
      exact ⟨l, hc⟩
    | _ => cases hms
  induction h with
  | origin => exact ⟨fun l hl => ⟨origin, .self _, hl⟩, hnested (.self _)⟩
  | part _ _ hdecomposes ih =>
    exact ⟨ih.1, fun ms hms => absurd hms (hdecomposes.ne_disjunction ms)⟩
  | candidate _ _ hd ih =>
    obtain ⟨r', rfl⟩ := relation_of_openCandidate _ hd
    exact ⟨ih.1, nofun⟩
  | written _ hm hc hl ih =>
    have hin := hinner (ih.2 _ rfl) hm hc
    exact ⟨fun l' hl' => ⟨_, hin, hl.trans hl'⟩, hnested hin⟩
  | inherited _ hm hc _ ih => exact ⟨ih.1, hnested (hinner (ih.2 _ rfl) hm hc)⟩

/-- The constraint descends from one of the system. Its locator is that of the nearest ancestor in
the system that has one, with the steps that lead on from there. -/
def Traced (table : Table) (stores : Store → Prop) (cs : List Constraint) (c : Constraint) : Prop :=
  ∃ origin ∈ cs, ∃ nearest steps, Descends table stores origin c.content nearest steps ∧
    c.locator = nearest.map (·.extendAll steps)

/-- The locator, if there is one, goes on from that of a constraint in the system. -/
def Anchored (cs : List Constraint) (l : Option Locator) : Prop :=
  ∀ l', l = some l' → ∃ origin ∈ cs, ∃ c, origin.Encloses c ∧
    ∃ l₀, c.locator = some l₀ ∧ l'.Continues l₀

theorem anchored_none : Anchored cs none := nofun

theorem anchored_of_encloses (horigin : origin ∈ cs) (h : origin.Encloses c) :
    Anchored cs c.locator := fun l hl => ⟨origin, horigin, c, h, l, hl, l.continues_refl⟩

theorem Anchored.extendAll (h : Anchored cs l) (steps : List PathStep) :
    Anchored cs (l.map (·.extendAll steps)) := by
  intro l' hl'
  obtain ⟨m, hm, rfl⟩ := Option.map_eq_some_iff.1 hl'
  obtain ⟨origin, horigin, c, hencloses, l₀, hl₀, hcontinues⟩ := h m hm
  exact ⟨origin, horigin, c, hencloses, l₀, hl₀, hcontinues.extendAll steps⟩

/-- A member is a step like others. -/
theorem Anchored.dropCandidate_member (h : Anchored cs l) (member : Name) :
    Anchored cs ((extended l (.member member)).map Locator.dropCandidate) := by
  have hdrop : (extended l (.member member)).map Locator.dropCandidate =
      l.map (·.extendAll [.member member]) := by
    rw [extended, Option.map_map]
    exact Option.map_congr fun l _ => l.dropCandidate_extend_member member
  rw [hdrop]
  exact h.extendAll _

/-- The step to a candidate is dropped. -/
theorem Anchored.dropCandidate_candidate (h : Anchored cs l) (decl : DeclId) :
    Anchored cs ((extended l (.candidate decl)).map Locator.dropCandidate) := by
  have hdrop : (extended l (.candidate decl)).map Locator.dropCandidate = l := by
    rw [extended, Option.map_map]
    exact (Option.map_congr fun l _ => l.dropCandidate_extend_candidate decl).trans Option.map_id'
  rw [hdrop]
  exact h

theorem Traced.anchored (h : Traced table stores cs c) : Anchored cs c.locator := by
  obtain ⟨origin, horigin, nearest, steps, hdescends, hlocator⟩ := h
  have hnearest : Anchored cs nearest := by
    rintro l rfl
    obtain ⟨d, hencloses, hd⟩ := hdescends.encloses.1 l rfl
    exact anchored_of_encloses horigin hencloses l hd
  rw [hlocator]
  exact hnearest.extendAll steps

theorem traced_of_mem (h : c ∈ cs) : Traced table stores cs c :=
  ⟨c, h, c.locator, [], .origin, by simp⟩

/-- Further steps from the nearest ancestor go to the end of the path. -/
theorem map_extendAll_append (nearest : Option Locator) (steps more : List PathStep) :
    (nearest.map (·.extendAll steps)).map (·.extendAll more) =
      nearest.map (·.extendAll (steps ++ more)) := by
  cases nearest with
  | none => rfl
  | some l => exact congrArg some (l.extendAll_append steps more).symm

/-- **What a relation is taken apart into** is traced as the relation is. -/
theorem Traced.handed (h : Traced table stores cs (.relation r l)) (hs : stores s)
    (hc : Handed table s r l c) : Traced table stores cs c := by
  obtain ⟨origin, horigin, nearest, steps, hdescends, hlocator⟩ := h
  obtain ⟨more, hdecomposes, hmore⟩ := hc
  refine ⟨origin, horigin, nearest, steps ++ more, hdescends.part hs hdecomposes, ?_⟩
  rw [hmore, ← map_extendAll_append, ← hlocator]
  rfl

/-- **What a candidate asks for** is traced as its reference is. -/
theorem Traced.candidate {o : Overload} {x : Candidate} (h : Traced table stores cs (.overload o l))
    (hx : x ∈ o.candidates) (hd : d ∈ (openCandidate s o.type o.name x
      (l.map (·.extend (.candidate x.decl)))).constraints) : Traced table stores cs d := by
  obtain ⟨origin, horigin, nearest, steps, hdescends, hlocator⟩ := h
  refine ⟨origin, horigin, nearest, _, hdescends.candidate hx hd, ?_⟩
  obtain ⟨r', rfl⟩ := relation_of_openCandidate d hd
  rw [← map_extendAll_append, ← hlocator]
  rfl

/-- **A constraint in an alternative** has its own locator, or it is traced as the disjunction is.
-/
theorem Traced.minterm {ms : List (Minterm Constraint)} {m : Minterm Constraint} {i : Nat}
    (h : Traced table stores cs (.disjunction ms l)) (hm : ms[i]? = some m)
    (hc : c ∈ m.constraints) :
    Traced table stores cs (c.orLocator (l.map (·.extend (.minterm i)))) := by
  obtain ⟨origin, horigin, nearest, steps, hdescends, hlocator⟩ := h
  rw [Traced, Constraint.content_orLocator, Constraint.locator_orLocator]
  cases hwritten : c.locator with
  | some l' => exact ⟨origin, horigin, some l', [], hdescends.written hm hc hwritten, by simp⟩
  | none =>
    refine ⟨origin, horigin, nearest, _, hdescends.inherited hm hc hwritten, ?_⟩
    rw [Option.none_or, ← map_extendAll_append, ← hlocator]
    rfl

/-! ### Warnings and settled references -/

@[simp] theorem Work.warnings_push (w : Work) (c : Constraint) :
    (w.push c).warnings = w.warnings := by
  cases c <;> rfl

@[simp] theorem Work.warnings_pushAll : ∀ (cs : List Constraint) (w : Work),
    (w.pushAll cs).warnings = w.warnings
  | [], _ => rfl
  | c :: cs, w => (warnings_pushAll cs (w.push c)).trans (warnings_push w c)

@[simp] theorem Work.warnings_record (w : Work) (e : Entry) :
    (w.record e).warnings = w.warnings := by
  cases e <;> rfl

@[simp] theorem Work.warnings_discharge (w : Work) (cs : List Constraint) (e : Option Entry) :
    (w.discharge cs e).warnings = w.warnings := by
  cases e <;> simp [discharge]

/-- A reference was settled before, or it is settled by the entry. -/
theorem Work.mem_choices_record {entry : Entry} {p : NodeId × Choice}
    (h : p ∈ (w.record entry).choices) :
    p ∈ w.choices ∨ ∃ generic, entry = .choice p.1 p.2 generic := by
  cases entry with
  | choice site choice generic =>
    rcases mem_of_mem_setKey h with rfl | h
    · exact .inr ⟨generic, rfl⟩
    · exact .inl h
  | _ => exact .inl h

/-- A step on a goal gives no warning, and settles a reference only if the goal does so. -/
theorem recorded_of_pathSimplify (h : Path.simplify ctx goal rest s = (.open w', s')) :
    w'.warnings = rest.warnings ∧ ∀ p ∈ w'.choices, p ∈ rest.choices ∨ ∃ children generic,
      simplify ctx.table s goal.relation goal.locator =
        (.discharged children (some (.choice p.1 p.2 generic)), s') := by
  obtain ⟨w, hw, hcases⟩ := pathSimplify_cases h
  have hsame : w'.warnings = w.warnings ∧ w'.choices = w.choices := by
    rcases hw with rfl | rfl
    · exact ⟨rfl, rfl⟩
    · exact ⟨rfl, rfl⟩
  rw [hsame.1, hsame.2]
  rcases hcases with ⟨children, entry, hsimp, rfl⟩ | ⟨watch, -, rfl⟩
  · refine ⟨Work.warnings_discharge _ _ _, fun p hp => ?_⟩
    rw [(recorded_discharge rest children entry).choices] at hp
    cases entry with
    | none => exact .inl hp
    | some entry =>
      rcases Work.mem_choices_record hp with hp | ⟨generic, rfl⟩
      · exact .inl hp
      · exact .inr ⟨children, generic, hsimp⟩
  · exact ⟨rfl, fun p hp => .inl hp⟩

/-! ### Paths -/

/-- What is left to do is traced to the system, and the warnings and the choices of the path point
there. -/
structure Sourced (table : Table) (stores : Store → Prop) (cs : List Constraint) (w : Work) :
    Prop where
  pending : ∀ c ∈ w.pending, Traced table stores cs c
  warnings : ∀ d ∈ w.warnings, Anchored cs d.locator
  choices : ∀ p ∈ w.choices, Anchored cs (p.2.locator.map Locator.dropCandidate)

theorem sourced_start (cs : List Constraint) : Sourced table stores cs (Work.pushAll {} cs) where
  pending c hc := traced_of_mem ((Work.pending_start cs).mem_iff.1 hc)
  warnings := by
    rw [Work.warnings_pushAll]
    nofun
  choices := by
    rw [Work.choices_pushAll]
    nofun

namespace Sourced

/-- A goal that is taken up is traced, also one that is assumed in place of another one. -/
theorem traced_goal (h : Sourced ctx.table stores cs w) (hs : stores s)
    (hturn : w.turn ctx s = .simplify goal rest) :
    Traced ctx.table stores cs goal.constraint := by
  rcases handed_turn hturn with hmem | ⟨d, hd, hhanded⟩
  · exact h.pending _ hmem
  · exact (h.pending _ (Work.mem_pending_of_deferred hd)).handed hs hhanded

theorem simplify (h : Sourced ctx.table stores cs w) (hs : stores s)
    (hturn : w.turn ctx s = .simplify goal rest)
    (hsimp : Path.simplify ctx goal rest s = (.open w', s')) : Sourced ctx.table stores cs w' := by
  have hgoal := h.traced_goal hs hturn
  have habides := abides_simplify ctx.table s goal.relation goal.locator
  obtain ⟨-, hrest⟩ := mem_pending_of_simplify hturn
  obtain ⟨hwarnings, hchoices⟩ := recorded_of_pathSimplify hsimp
  refine ⟨fun c hc => ?_, fun d hd => ?_, fun p hp => ?_⟩
  · rcases mem_pending_of_pathSimplify hsimp hc with hc | ⟨rfl, -⟩ | ⟨children, entry, heq, hc⟩
    · exact h.pending c (hrest c hc)
    · exact hgoal
    · rw [heq] at habides
      exact hgoal.handed hs (habides.1 c hc)
  · rcases warnings_of_turn hturn d (hwarnings ▸ hd) with hd | hlocator
    · exact h.warnings d hd
    · rw [hlocator]
      exact hgoal.anchored
  · rcases hchoices p hp with hp | ⟨children, generic, heq⟩
    · exact h.choices p ((Work.sameRecord_simplify hturn).choices ▸ hp)
    · rw [heq] at habides
      obtain ⟨member, hmember⟩ := habides.2 _ _ _ rfl
      rw [hmember]
      exact hgoal.anchored.dropCandidate_member member

/-- A choice that is made is traced, and what is left then keeps to the system. -/
theorem choose (h : Sourced table stores cs w) (hturn : w.turn ctx s = .choose point rest) :
    Traced table stores cs point.constraint ∧ Sourced table stores cs rest := by
  obtain ⟨hmem, hleft⟩ := Work.mem_pending_of_choose hturn
  obtain ⟨-, -, hrest⟩ := Work.turn_choose hturn
  refine ⟨h.pending _ hmem, fun c hc => h.pending c (hleft c hc), ?_, ?_⟩
  · rw [hrest]
    exact h.warnings
  · rw [hrest]
    exact h.choices

theorem candidate (h : Sourced table stores cs w) {o : Overload} {x : Candidate}
    (ho : Traced table stores cs (.overload o l)) (hx : x ∈ o.candidates) (t : Store) :
    Sourced table stores cs ((Alternative.candidate o x).enter l w t).1 where
  pending c hc := by
    rcases List.mem_append.1 ((Work.pending_pushAll _ _).mem_iff.1 hc) with hc | hc
    · exact ho.candidate hx hc
    · exact h.pending c hc
  warnings := by
    simp only [Alternative.enter, Work.warnings_pushAll, Work.warnings_record]
    exact h.warnings
  choices p hp := by
    simp only [Alternative.enter, Work.choices_pushAll] at hp
    rcases Work.mem_choices_record hp with hp | ⟨generic, heq⟩
    · exact h.choices p hp
    · obtain ⟨-, hchoice, -⟩ := Entry.choice.inj heq
      rw [← hchoice]
      exact ho.anchored.dropCandidate_candidate x.decl

theorem minterm (h : Sourced table stores cs w) {ms : List (Minterm Constraint)}
    {m : Minterm Constraint} {i : Nat} (hms : Traced table stores cs (.disjunction ms l))
    (hm : ms[i]? = some m) (t : Store) :
    Sourced table stores cs ((Alternative.minterm i m).enter l w t).1 where
  pending c hc := by
    rcases List.mem_append.1 ((Work.pending_pushAll _ _).mem_iff.1 hc) with hc | hc
    · obtain ⟨d, hd, rfl⟩ := List.mem_map.1 hc
      exact hms.minterm hm hd
    · exact h.pending c hc
  warnings := by
    simp only [Alternative.enter, Work.warnings_pushAll]
    exact h.warnings
  choices := by
    simp only [Alternative.enter, Work.choices_pushAll]
    exact h.choices

theorem enter (h : Sourced table stores cs w) (hturn : w.turn ctx s = .choose point rest)
    {a : Alternative} (ha : a ∈ point.offer.alternatives) (t : Store) :
    Sourced table stores cs (a.enter point.locator rest t).1 := by
  obtain ⟨hpoint, hrest⟩ := h.choose hturn
  have hlisted := point.offer.alternatives_perm.mem_iff.1 ha
  obtain ⟨ordinal, offer, l⟩ := point
  cases offer with
  | overload o =>
    obtain ⟨x, hx, rfl⟩ := List.mem_map.1 hlisted
    exact hrest.candidate hpoint hx t
  | disjunction ms =>
    obtain ⟨i, hi, rfl⟩ := List.mem_mapIdx.1 hlisted
    exact hrest.minterm hpoint (List.getElem?_eq_getElem hi) t

end Sourced

/-! ### Errors -/

/-- The error points at the system, and so do the ones inside it. -/
def Blames (cs : List Constraint) (e : TypeError) : Prop :=
  ∀ e', e.Contains e' → Anchored cs e'.locator

theorem blames_of_ne {e : TypeError}
    (hne : ∀ name rejected l, e ≠ .noViableCandidate name rejected l)
    (hl : Anchored cs e.locator) : Blames cs e := by
  intro e' hin
  rw [hin.eq hne]
  exact hl

theorem Sourced.blames_fail {e : TypeError} (h : Sourced table stores cs w)
    (hturn : w.turn ctx s = .fail e) : Blames cs e := by
  have hnext := w.next_turn ctx s
  rw [hturn] at hnext
  cases hnext with
  | unviable =>
    obtain ⟨-, ⟨ordinal, offer, l⟩, o, -, hhead, rfl, rfl, -⟩ := unviable_of_turn hturn
    have hpoint := h.pending _ (Work.mem_pending_of_branch (List.mem_of_mem_head? hhead))
    exact TypeError.forall_contains (Traced.anchored hpoint) nofun
  | incomplete hincomplete =>
    unfold incomplete at hincomplete
    dsimp only at hincomplete
    split at hincomplete
    · cases hincomplete
    · obtain rfl := Option.some.inj hincomplete
      refine blames_of_ne nofun fun l hl => ?_
      obtain ⟨d, hd, hlocator⟩ := Option.bind_eq_some_iff.1 hl
      have hmem := Work.mem_pending_of_deferred (List.mem_of_mem_head? hd)
      exact (h.pending _ hmem).anchored l hlocator

/-- **Paths keep to the system**: what is left to do is traced, and what they fail with points
there. -/
theorem upheld_sourced (ctx : Context) (stores : Store → Prop) (cs : List Constraint) :
    Upheld ctx stores (Sourced ctx.table stores cs) (Blames cs) where
  simplify hs h hturn hsimp := h.simplify hs hturn hsimp
  violated {s w rest goal e} hs h hturn hviolated := by
    have habides := abides_simplify ctx.table s goal.relation goal.locator
    have hblamed := blamed_simplify ctx.table s goal.relation goal.locator
    rw [hviolated] at habides hblamed
    refine blames_of_ne ?_ ?_
    · rintro name rejected l rfl
      exact hblamed
    · rw [show e.locator = goal.locator from habides]
      exact (h.traced_goal hs hturn).anchored
  fail h hturn := h.blames_fail hturn
  enter h hturn ha := h.enter hturn ha _
  reject {s w rest point o rejected} h hturn hoffer hrejected := by
    have hpoint := (h.choose hturn).1
    obtain ⟨ordinal, offer, l⟩ := point
    obtain rfl : offer = .overload o := hoffer
    exact TypeError.forall_contains (Traced.anchored hpoint) hrejected

/-- An ambiguous reference is told without the step to its candidate. -/
theorem Completes.blames_ambiguity {first : Found} (found : List Found)
    (h : Completes ctx (Sourced table stores cs) first) : Blames cs (ambiguity first found) := by
  obtain ⟨t, w, -, hw, rfl⟩ := h
  unfold ambiguity
  split
  · rename_i site c hfind
    exact blames_of_ne nofun (hw.choices _ (List.mem_of_find?_eq_some hfind))
  · exact blames_of_ne nofun anchored_none

end Search

open Search

variable {table : Table} {options : SolverOptions} {system : System} {unsolved : Unsolved}
variable {cs : List Constraint}

/-- What is wrong with a constraint is told of this constraint, or of one inside it. -/
theorem System.locator_of_mem_constraintErrors {count : Nat} {c : Constraint} {e : TypeError}
    (h : e ∈ constraintErrors count c) : ∃ d, c.Encloses d ∧ e.locator = d.locator := by
  induction c with
  | relation r l =>
    unfold constraintErrors at h
    obtain ⟨problem, -, rfl⟩ := List.mem_map.1 h
    exact ⟨_, .self _, rfl⟩
  | overload o l =>
    unfold constraintErrors at h
    obtain ⟨problem, -, rfl⟩ := List.mem_map.1 h
    exact ⟨_, .self _, rfl⟩
  | disjunction ms l ih =>
    unfold constraintErrors at h
    rw [mintermErrors_eq_flatMap] at h
    rcases List.mem_append.1 h with h | h
    · split at h
      · obtain rfl := List.mem_singleton.1 h
        exact ⟨_, .self _, rfl⟩
      · cases h
    · obtain ⟨m, hm, h⟩ := List.mem_flatMap.1 h
      obtain ⟨c, hc, h⟩ := List.mem_flatMap.1 h
      obtain ⟨d, hencloses, hd⟩ := ih m hm c hc h
      exact ⟨d, .inner hm hc hencloses, hd⟩

theorem System.anchored_of_mem_validate {e : TypeError} (h : e ∈ system.validate) :
    Anchored system.constraints e.locator := by
  unfold validate at h
  rw [allErrors_eq_flatMap] at h
  rcases List.mem_append.1 h with h | h
  · obtain ⟨c, hc, h⟩ := List.mem_flatMap.1 h
    obtain ⟨d, hencloses, hd⟩ := locator_of_mem_constraintErrors h
    rw [hd]
    exact anchored_of_encloses hc hencloses
  · obtain ⟨problem, -, rfl⟩ := List.mem_map.1 h
    exact anchored_none

/-- The errors of the answer, or the warnings of the solution, point at the system. -/
def Search.Points (cs : List Constraint) : Except Unsolved Solution → Prop
  | .error unsolved => ∀ e ∈ unsolved.errors, Blames cs e
  | .ok solution => ∀ d ∈ solution.warnings, Anchored cs d.locator

/-- **Every answer** points at its system. -/
theorem points_solve : Points system.constraints (solve table options system) := by
  have hanswered := solve_answered
    (upheld_sourced ⟨table, options, system.varCount⟩ (fun _ => True) system.constraints)
    (sourced_start system.constraints)
  generalize solve table options system = result at hanswered
  cases hanswered with
  | malformed =>
    intro e he
    refine blames_of_ne ?_ (System.anchored_of_mem_validate he)
    rintro name rejected l rfl
    obtain ⟨_, _, heq⟩ := System.malformed_of_mem_validate he
    cases heq
  | @conflict conflict =>
    refine List.forall_mem_singleton.2 ?_
    cases conflict <;> exact blames_of_ne nofun anchored_none
  | steps => exact List.forall_mem_singleton.2 (blames_of_ne nofun anchored_none)
  | searched _ _ hreturns =>
    cases hreturns with
    | solved hcompletes =>
      intro d hd
      obtain ⟨t, w, -, hw, rfl⟩ := hcompletes
      exact hw.warnings d (List.mem_reverse.1 hd)
    | ambiguous _ hcompletes =>
      exact List.forall_mem_singleton.2 ((hcompletes _ List.mem_cons_self).blames_ambiguity _)
    | failed he => exact List.forall_mem_singleton.2 he
    | bounded => exact List.forall_mem_singleton.2 (blames_of_ne nofun anchored_none)

/-- **Errors point at their origin.** In every state of a search the constraints that are left to
do are traced to the system, and so is each relation that is simplified, also when it is assumed in
place of another one. Every error of a system without a solution points at a constraint of the
system, and so do the errors inside it, and every warning of a solution. -/
theorem search_traced :
    let ctx : Context := ⟨table, options, system.varCount⟩
    (∀ s₀, system.validate = [] →
      System.plant (.ofSize system.varCount) system.seeds = .done s₀ →
      ∀ s, Visits ctx (system.start s₀) s → ∀ w, s.path = .open w →
        (∀ c ∈ w.pending, Traced table (Visited ctx (system.start s₀)) system.constraints c) ∧
        ∀ goal rest, w.turn ctx s.store = .simplify goal rest →
          Traced table (Visited ctx (system.start s₀)) system.constraints goal.constraint) ∧
    (∀ unsolved, solve table options system = .error unsolved →
      ∀ e ∈ unsolved.errors, ∀ e', e.Contains e' → Anchored system.constraints e'.locator) ∧
    ∀ solution, solve table options system = .ok solution →
      ∀ d ∈ solution.warnings, Anchored system.constraints d.locator := by
  intro ctx
  have hpoints := @points_solve table options system
  refine ⟨fun s₀ hvalid hplant s hvisits w hw => ?_, fun unsolved h => ?_, fun solution h => ?_⟩
  · have hstores : ∀ t, Visits ctx (system.start s₀) t → Visited ctx (system.start s₀) t.store :=
      fun t ht => ⟨t, ht, rfl⟩
    have hs := (upholds_start options hvalid (sourced_start system.constraints)).visits
      (upheld_sourced ctx _ system.constraints) hvisits hstores
    have hsourced := (hs.path w hw).2
    exact ⟨hsourced.pending, fun goal rest hturn => hsourced.traced_goal (hstores s hvisits) hturn⟩
  · rw [h] at hpoints
    exact hpoints
  · rw [h] at hpoints
    exact hpoints

/-- The constraints in the alternatives have no locators, so that a mismatch in there is told with
the locator of the disjunction. -/
theorem search_traced_minterm :
    let unit : Ty := .tuple []
    let fits (a b : Ty) : Minterm Constraint := ⟨[.relation (.subtyping a b) none], 0⟩
    let system : System := ⟨0, [.disjunction [fits (.tuple [unit]) (.tuple [.error, unit]),
      fits (.tuple [unit, unit]) (.tuple [unit, .tuple [unit]])] (some ⟨⟨3⟩, none, [.result]⟩)], []⟩
    let table := Table.ofNames .empty
    let ctx : Context := ⟨table, {}, 0⟩
    let told : TypeError := .mismatch .subtype unit (.tuple [unit])
      (some ⟨⟨3⟩, none, [.result, .minterm 1, .element 1]⟩)
    (∃ s w goal rest, Visits ctx (system.start (.ofSize 0)) s ∧ s.path = .open w ∧
      w.turn ctx s.store = .simplify goal rest ∧
      goal.locator = some ⟨⟨3⟩, none, [.result, .minterm 0]⟩ ∧
      Traced table (Visited ctx (system.start (.ofSize 0))) system.constraints goal.constraint) ∧
    solve table {} system = .error ⟨[told], []⟩ ∧
      Anchored system.constraints told.locator := by
  intro unit fits system table ctx told
  obtain ⟨hstates, herrors, -⟩ := @search_traced table {} system
  refine ⟨?_, ?_⟩
  · obtain ⟨s, w, goal, rest, hstep, hpath, hturn, hlocator⟩ : ∃ s w goal rest,
        (system.start (.ofSize 0)).step ctx = .next s ∧ s.path = .open w ∧
        w.turn ctx s.store = .simplify goal rest ∧
        goal.locator = some ⟨⟨3⟩, none, [.result, .minterm 0]⟩ :=
      ⟨_, _, _, _, by cbv, by cbv, by cbv, by cbv⟩
    have hvisits : Visits ctx (system.start (.ofSize 0)) s := .single hstep
    exact ⟨s, w, goal, rest, hvisits, hpath, hturn, hlocator,
      (hstates (.ofSize 0) (by decide) rfl s hvisits w hpath).2 goal rest hturn⟩
  · have hsolve : solve table {} system = .error ⟨[told], []⟩ := by cbv
    exact ⟨hsolve, herrors _ hsolve told List.mem_cons_self told (.self _)⟩

end TypeResolution
