/-
# What a relation is taken apart into

The rules by which a relation comes down to parts of its types, each with the steps into the types
that lead from the relation to the part (`Search.Decomposes`). What two types that are to fit come
down to depends on what they are known to be in the store (`Search.Compares`): parameters, results,
elements and arguments have a step of their own, whereas a conversion, a conformance and the
equality with a supertype are about the types themselves. A member is a step of its own, whatever
it turns into. What is assumed for a relation, when nothing else is left to do, takes the place of
the relation.

Simplifying a relation keeps to these rules, and hands its locator on with the steps of the rule; a
relation that is violated is told with its own locator, and one that is put aside watches a variable
(`Search.abides_simplify`). A warning that a literal takes its default type is told with the locator
of the literal (`Search.warnings_of_turn`).

Key definitions: `Content`, `Constraint.content`, `Locator.extendAll`, `Search.Compares`,
`Search.Decomposes`, `Search.Handed`, `Search.Simplified.Abides`.
Key theorems: `Search.abides_simplify`, `Search.handed_turn`, `Search.warnings_of_turn`.
-/
import TypeResolution.Proofs.Search.Turns

namespace TypeResolution

/-- What a constraint says, apart from where it comes from. -/
inductive Content where
  | relation (relation : Relation)
  | overload (overload : Overload)
  | disjunction (minterms : List (Minterm Constraint))

def Constraint.content : Constraint → Content
  | .relation r _ => .relation r
  | .overload o _ => .overload o
  | .disjunction ms _ => .disjunction ms

namespace Locator

/-- Several steps further into the located type. -/
def extendAll (l : Locator) (steps : List PathStep) : Locator :=
  { l with path := l.path ++ steps }

@[simp] theorem extendAll_nil (l : Locator) : l.extendAll [] = l := by simp [extendAll]

theorem extendAll_append (l : Locator) (steps more : List PathStep) :
    l.extendAll (steps ++ more) = (l.extendAll steps).extendAll more := by simp [extendAll]

end Locator

namespace Search

open Store

variable {table : Table} {s s' : Store} {fit : Fit} {a b type base : Ty} {l : Option Locator}
variable {r : Relation} {children : List Constraint} {entry : Option Entry} {c : Constraint}
variable {result : Simplified} {e : TypeError} {steps : List PathStep}

/-! ### The rules -/

/-- What two types that are known and are to fit come down to, with the steps into the types. -/
inductive Compares (table : Table) (s : Store) (fit : Fit) :
    Ty → Ty → List PathStep → Relation → Prop where
  | existential {a : Ty} {traits : TraitSet} :
      Compares table s fit a (.existential traits) [] (.conformance a traits)
  | literal {kind : LiteralKind} {b : Ty} :
      Compares table s fit (.literal kind) b [] (.conversion b kind)
  | argument {ps qs : List Parameter} {t u : Ty} {i : Nat} {p q : Parameter} :
      ps.map (·.1) = qs.map (·.1) → ps[i]? = some p → qs[i]? = some q →
      Compares table s fit (.function ps t) (.function qs u) [.argument i] (parameterRelation p q)
  | result {ps qs : List Parameter} {t u : Ty} : ps.map (·.1) = qs.map (·.1) →
      Compares table s fit (.function ps t) (.function qs u) [.result] (fitting fit t u)
  | element {as bs : List Ty} {i : Nat} {a b : Ty} : as.length = bs.length →
      as[i]? = some a → bs[i]? = some b →
      Compares table s fit (.tuple as) (.tuple bs) [.element i] (fitting fit a b)
  | generic {n : Name} {as bs : List Ty} {i : Nat} {a b : Ty} : as.length = bs.length →
      as[i]? = some a → bs[i]? = some b →
      Compares table s fit (.nominal n as) (.nominal n bs) [.generic i] (.equality a b)
  | supertype {n m : Name} {as bs : List Ty} {supertype : Ty} :
      table.findSupertype (s.apply (.nominal n as)) m = some supertype →
      Compares table s fit (.nominal n as) (.nominal m bs) []
        (.equality (openParams s [] supertype).1 (.nominal m bs))

/-- What a relation is taken apart into in a store, with the steps that lead there: what its types
come down to, what a member of its type turns into, or what is assumed in its place. -/
inductive Decomposes (table : Table) (s : Store) : Relation → List PathStep → Content → Prop where
  | compared {fit : Fit} {a b : Ty} {steps : List PathStep} {r : Relation} :
      Compares table ((s.shallow a).2.shallow b).2 fit (s.shallow a).1
        ((s.shallow a).2.shallow b).1 steps r →
      Decomposes table s (fitting fit a b) steps (.relation r)
  | unknownMember {base : Ty} {member : Name} {type : Ty} {site : NodeId} :
      (s.shallow base).1 = .error →
      Decomposes table s (.valueMember base member type site) [.member member]
        (.relation (.equality type .error))
  | element {base : Ty} {member : Name} {type element : Ty} {site : NodeId} {elements : List Ty} :
      (s.shallow base).1 = .tuple elements → table.element? elements member = some element →
      Decomposes table s (.valueMember base member type site) [.member member]
        (.relation (.equality element type))
  | candidate {base : Ty} {member : Name} {type : Ty} {site : NodeId} {c : Candidate}
      {l : Option Locator} {d : Constraint} :
      table.members ((s.shallow base).2.apply (s.shallow base).1) member = [c] →
      d ∈ (openCandidate (s.shallow base).2 type member c l).constraints →
      Decomposes table s (.valueMember base member type site) [.member member] d.content
  | reference {base : Ty} {member : Name} {type : Ty} {site : NodeId} :
      Decomposes table s (.valueMember base member type site) [.member member]
        (.overload ⟨type, member, site,
          table.members ((s.shallow base).2.apply (s.shallow base).1) member⟩)
  | weakened {fit : Fit} {a b : Ty} :
      Decomposes table s (fitting fit a b) [] (.relation (assumption s a b))
  | defaulted {v : TyVar} {kind : LiteralKind} {type : Ty} :
      table.literalDefault kind = some type →
      Decomposes table s (.conversion (.var v) kind) []
        (.relation (.equality (.var (s.root v)) type))

/-- The constraint is what the relation is taken apart into, and has its locator with the steps that
lead there. -/
def Handed (table : Table) (s : Store) (r : Relation) (l : Option Locator) (c : Constraint) :
    Prop :=
  ∃ steps, Decomposes table s r steps c.content ∧ c.locator = l.map (·.extendAll steps)

/-! ### Simplification -/

theorem exists_of_mem_pairwise {α : Type} {step : Nat → PathStep} {relate : α → α → Relation}
    {as bs : List α} (h : c ∈ pairwise l step relate as bs) :
    ∃ i a b, as[i]? = some a ∧ bs[i]? = some b ∧
      c = .relation (relate a b) (l.map (·.extendAll [step i])) := by
  obtain ⟨i, hi, rfl⟩ := List.mem_mapIdx.1 h
  obtain ⟨ha, hb⟩ := List.getElem?_zip_eq_some.1 (List.getElem?_eq_getElem hi)
  exact ⟨i, _, _, ha, hb, rfl⟩

/-- What a candidate asks for are relations, with the locator that it is opened with. -/
theorem relation_of_openCandidate {name : Name} {x : Candidate} :
    ∀ d ∈ (openCandidate s type name x l).constraints, ∃ r, d = .relation r l := by
  refine List.forall_mem_cons.2 ⟨⟨_, rfl⟩, fun d hd => ?_⟩
  obtain ⟨g, -, hd⟩ := List.mem_filterMap.1 hd
  obtain ⟨v, -, rfl⟩ := Option.map_eq_some_iff.1 hd
  exact ⟨_, rfl⟩

/-- What a relation comes to keeps to the rules. It is told and handed on with the locator of the
relation, and the reference that is settled by a member has the locator of the member. What is put
aside watches a variable. -/
def Simplified.Abides (table : Table) (s : Store) (r : Relation) (l : Option Locator) :
    Simplified → Prop
  | .discharged children entry => (∀ c ∈ children, Handed table s r l c) ∧
      ∀ site choice generic, entry = some (.choice site choice generic) →
        ∃ member, choice.locator = extended l (.member member)
  | .undecided watch => watch ≠ []
  | .violated e => e.locator = l

/-- What is compared is handed on without steps, or with the step of its part. -/
theorem abides_compared {compared : List Constraint} (h : ∀ c ∈ compared, ∃ steps r',
    Compares table ((s.shallow a).2.shallow b).2 fit (s.shallow a).1
      ((s.shallow a).2.shallow b).1 steps r' ∧
    c = .relation r' (l.map (·.extendAll steps))) :
    (Simplified.expanded compared).Abides table s (fitting fit a b) l := by
  refine ⟨fun c hc => ?_, nofun⟩
  obtain ⟨steps, r', hcompares, rfl⟩ := h c hc
  exact ⟨steps, .compared hcompares, rfl⟩

theorem abides_settled : Simplified.settled.Abides table s r l := ⟨nofun, nofun⟩

theorem abides_simplifyShapes :
    (simplifyShapes table ((s.shallow a).2.shallow b).2 fit (s.shallow a).1
      ((s.shallow a).2.shallow b).1 l).1.Abides table s (fitting fit a b) l := by
  have hcompared := @abides_compared table s fit a b l
  generalize ((s.shallow a).2.shallow b).2 = t at hcompared ⊢
  generalize (s.shallow a).1 = a' at hcompared ⊢
  generalize ((s.shallow a).2.shallow b).1 = b' at hcompared ⊢
  -- What has no step of its own keeps the locator.
  have hsame : l.map (·.extendAll []) = l := by simp
  have hone : ∀ {r'}, Compares table t fit a' b' [] r' →
      (Simplified.expanded [.relation r' l]).Abides table s (fitting fit a b) l := fun h =>
    hcompared (List.forall_mem_singleton.2 ⟨[], _, h, by rw [hsame]⟩)
  unfold simplifyShapes
  dsimp only
  split
  · exact hone .existential
  · exact hone .literal
  · split
    · rename_i ps r qs u hconventions
      refine hcompared (List.forall_mem_append.2 ⟨fun c hc => ?_,
        List.forall_mem_singleton.2 ⟨_, _, .result hconventions, rfl⟩⟩)
      obtain ⟨i, p, q, hp, hq, rfl⟩ := exists_of_mem_pairwise hc
      exact ⟨_, _, .argument hconventions hp hq, rfl⟩
    · rfl
  · split
    · rename_i as bs hlength
      refine hcompared fun c hc => ?_
      obtain ⟨i, x, y, hx, hy, rfl⟩ := exists_of_mem_pairwise hc
      exact ⟨_, _, .element hlength hx hy, rfl⟩
    · rfl
  · split
    · rename_i n as m bs hsame
      obtain ⟨rfl, hlength⟩ := hsame
      refine hcompared fun c hc => ?_
      obtain ⟨i, x, y, hx, hy, rfl⟩ := exists_of_mem_pairwise hc
      exact ⟨_, _, .generic hlength hx hy, rfl⟩
    · split
      · rfl
      · rename_i hsup
        exact hone (.supertype hsup)
  · rfl

theorem abides_simplifySubtyping :
    (simplifySubtyping table s fit a b l).1.Abides table s (fitting fit a b) l := by
  have hshapes := @abides_simplifyShapes table s fit a b l
  unfold simplifySubtyping
  dsimp only
  split
  · exact abides_settled
  · split
    · exact abides_settled
    · exact abides_settled
    · exact List.cons_ne_nil _ _
    · exact List.cons_ne_nil _ _
    · exact List.cons_ne_nil _ _
    · exact hshapes

theorem abides_simplifyMember (base : Ty) (member : Name) (type : Ty) (site : NodeId) :
    (simplifyMember table s base member type site l).1.Abides table s
      (.valueMember base member type site) l := by
  unfold simplifyMember
  dsimp only
  split
  · exact List.cons_ne_nil _ _
  · rename_i hbase
    exact ⟨List.forall_mem_singleton.2 ⟨_, .unknownMember hbase, rfl⟩, nofun⟩
  · rename_i elements hbase
    split
    · rename_i element helement
      exact ⟨List.forall_mem_singleton.2 ⟨_, .element hbase helement, rfl⟩, nofun⟩
    · rfl
  · split
    · rfl
    · rename_i c hone
      refine ⟨fun d hd => ⟨_, .candidate hone hd, ?_⟩, ?_⟩
      · obtain ⟨r', rfl⟩ := relation_of_openCandidate d hd
        rfl
      rintro _ _ _ ⟨⟩
      exact ⟨member, rfl⟩
    · exact ⟨List.forall_mem_singleton.2 ⟨_, .reference, rfl⟩, nofun⟩

/-- **Simplifying a relation** keeps to the rules. -/
theorem abides_simplify (table : Table) (s : Store) (r : Relation) (l : Option Locator) :
    (simplify table s r l).1.Abides table s r l := by
  cases r with
  | equality a b =>
    dsimp only [simplify]
    split
    · exact abides_settled
    · rename_i conflict _
      cases conflict <;> rfl
  | subtyping a b =>
    show (simplifySubtyping table s .subtype a b l).1.Abides table s (fitting .subtype a b) l
    exact abides_simplifySubtyping
  | returnBinding a b =>
    show (simplifySubtyping table s .returned a b l).1.Abides table s (fitting .returned a b) l
    exact abides_simplifySubtyping
  | conformance type traits =>
    show (simplifyConformance table s type traits l).1.Abides table s _ l
    unfold simplifyConformance
    dsimp only
    split
    · exact List.cons_ne_nil _ _
    · exact abides_settled
    · split
      · rfl
      · exact abides_settled
  | conversion type literal =>
    show (simplifyConversion table s type literal l).1.Abides table s _ l
    unfold simplifyConversion
    dsimp only
    split
    · exact List.cons_ne_nil _ _
    · exact abides_settled
    · split
      · exact abides_settled
      · split
        · exact ⟨nofun, nofun⟩
        · rfl
  | valueMember base member type site => exact abides_simplifyMember base member type site
  | size predicate => exact ⟨nofun, nofun⟩

/-- A goal that is taken up was left to see to, or it is assumed in place of one that was put
aside. -/
theorem handed_turn {ctx : Context} {w rest : Work} {goal : Goal}
    (h : w.turn ctx s = .simplify goal rest) :
    goal.constraint ∈ w.pending ∨
      ∃ d ∈ w.deferred, Handed ctx.table s d.goal.relation d.goal.locator goal.constraint := by
  have hnext := w.next_turn ctx s
  rw [h] at hnext
  cases hnext with
  | goal hqueue =>
    refine .inl (List.mem_append_left _ (List.mem_append_left _ ?_))
    exact List.mem_map_of_mem (hqueue ▸ List.mem_cons_self)
  | weakened _ _ hweaken =>
    obtain ⟨d, fit, a, b, hperm, hrelation, rfl, rfl⟩ := weaken_cases hweaken
    refine .inr ⟨d, hperm.mem_iff.2 List.mem_cons_self, [], ?_, by simp [Goal.constraint,
      Constraint.locator]⟩
    rw [hrelation]
    exact .weakened
  | literal _ _ hliteral =>
    obtain ⟨d, hd, u, kind, hrelation, rfl, hdefault, rfl⟩ := defaultLiteral_cases hliteral
    refine .inr ⟨d, hd, [], ?_, by simp [Goal.constraint, Constraint.locator]⟩
    rw [hrelation]
    exact .defaulted hdefault

/-- The only warning that a path adds is about the goal that it takes up. -/
theorem warnings_of_turn {ctx : Context} {w rest : Work} {goal : Goal}
    (h : w.turn ctx s = .simplify goal rest) :
    ∀ d ∈ rest.warnings, d ∈ w.warnings ∨ d.locator = goal.locator := by
  intro d hd
  unfold Work.turn at h
  split at h
  · obtain ⟨-, rfl⟩ := Turn.simplify.inj h
    exact .inl hd
  · split at h <;> cases h
  · unfold Work.assume at h
    dsimp only at h
    split at h
    · obtain ⟨-, rfl⟩ := Turn.simplify.inj h
      exact .inl hd
    · split at h
      · obtain ⟨rfl, rfl⟩ := Turn.simplify.inj h
        rcases List.mem_cons.1 hd with rfl | hd
        · exact .inr rfl
        · exact .inl hd
      · split at h <;> cases h

end Search
end TypeResolution
