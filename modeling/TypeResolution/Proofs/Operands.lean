/-
# Types in constraints

What is said about all types of a constraint, and about those of the constraints inside it. Where
two types are only compared, the lower one may be that of a literal, which no variable is bound to
there. Signatures of candidates belong to declarations, and may have generic parameters.

Key definitions: `Ty.LiteralOrIn`, `Relation.LeavesIn`, `Constraint.LeavesIn`,
`Constraint.Declared`.
-/
import TypeResolution.Constraint
import TypeResolution.Proofs.Ty.Substitution

namespace TypeResolution

/-- The type of a literal, or a type with leaves of the kind. -/
def Ty.LiteralOrIn (Q : Ty → Prop) (t : Ty) : Prop := (∃ kind, t = .literal kind) ∨ t.LeavesIn Q

/-- The types in the relation have leaves of the kind. Where a type is only compared, it may be
that of a literal. -/
def Relation.LeavesIn (Q : Ty → Prop) : Relation → Prop
  | .equality a b => a.LeavesIn Q ∧ b.LeavesIn Q
  | .subtyping a b | .returnBinding a b => a.LiteralOrIn Q ∧ b.LeavesIn Q
  | .conformance type _ => type.LiteralOrIn Q
  | .conversion type _ => type.LeavesIn Q
  | .valueMember base _ type _ => base.LeavesIn Q ∧ type.LeavesIn Q
  | .size _ => True

/-- The types in the constraint have leaves of the kind, and signatures of candidates also generic
parameters. -/
inductive Constraint.LeavesIn (Q : Ty → Prop) : Constraint → Prop where
  | relation {r : Relation} {l : Option Locator} : r.LeavesIn Q → LeavesIn Q (.relation r l)
  | overload {o : Overload} {l : Option Locator} : o.type.LeavesIn Q →
      (∀ c ∈ o.candidates, c.type.LeavesIn (Ty.OrParam Q)) → LeavesIn Q (.overload o l)
  | disjunction {ms : List (Minterm Constraint)} {l : Option Locator} :
      (∀ m ∈ ms, ∀ c ∈ m.constraints, LeavesIn Q c) → LeavesIn Q (.disjunction ms l)

/-- The candidates of each overload are different declarations, and their signatures have no
variables. -/
inductive Constraint.Declared : Constraint → Prop where
  | relation (r : Relation) (l : Option Locator) : Declared (.relation r l)
  | overload {o : Overload} {l : Option Locator} : (o.candidates.map (·.decl)).Nodup →
      (∀ c ∈ o.candidates, c.type.vars = []) → Declared (.overload o l)
  | disjunction {ms : List (Minterm Constraint)} {l : Option Locator} :
      (∀ m ∈ ms, ∀ c ∈ m.constraints, Declared c) → Declared (.disjunction ms l)

variable {Q : Ty → Prop}

/-- If the types of literals are of the kind too, then all types have leaves of it. -/
theorem Relation.LeavesIn.types {r : Relation} (h : r.LeavesIn Q)
    (hliteral : ∀ kind, Q (.literal kind)) : ∀ t ∈ r.types, t.LeavesIn Q := by
  have hlower : ∀ {t : Ty}, t.LiteralOrIn Q → t.LeavesIn Q := by
    rintro t (⟨kind, rfl⟩ | ht)
    · exact Ty.leavesIn_singleton rfl (hliteral kind)
    · exact ht
  cases r with
  | equality a b => exact List.forall_mem_cons.2 ⟨h.1, List.forall_mem_singleton.2 h.2⟩
  | subtyping a b => exact List.forall_mem_cons.2 ⟨hlower h.1, List.forall_mem_singleton.2 h.2⟩
  | returnBinding a b =>
    exact List.forall_mem_cons.2 ⟨hlower h.1, List.forall_mem_singleton.2 h.2⟩
  | conformance type traits => exact List.forall_mem_singleton.2 (hlower h)
  | conversion type kind => exact List.forall_mem_singleton.2 h
  | valueMember base member type site =>
    exact List.forall_mem_cons.2 ⟨h.1, List.forall_mem_singleton.2 h.2⟩
  | size predicate => exact nofun

/-- It is enough that the types have such leaves. -/
theorem Relation.LeavesIn.of_types {r : Relation} (h : ∀ t ∈ r.types, t.LeavesIn Q) :
    r.LeavesIn Q := by
  have hfirst : ∀ {t : Ty} {ts : List Ty}, r.types = t :: ts → t.LeavesIn Q := fun heq =>
    h _ (heq ▸ List.mem_cons_self)
  have hsecond : ∀ {t u : Ty} {ts : List Ty}, r.types = t :: u :: ts → u.LeavesIn Q := fun heq =>
    h _ (heq ▸ List.mem_cons_of_mem _ List.mem_cons_self)
  cases r with
  | equality a b => exact ⟨hfirst rfl, hsecond rfl⟩
  | subtyping a b => exact ⟨.inr (hfirst rfl), hsecond rfl⟩
  | returnBinding a b => exact ⟨.inr (hfirst rfl), hsecond rfl⟩
  | conformance type traits => exact .inr (hfirst rfl)
  | conversion type kind => exact hfirst rfl
  | valueMember base member type site => exact ⟨hfirst rfl, hsecond rfl⟩
  | size predicate => trivial

theorem Constraint.LeavesIn.of_types {c : Constraint} (h : ∀ t ∈ c.types, t.LeavesIn Q) :
    c.LeavesIn Q := by
  induction c with
  | relation r l => exact .relation (.of_types h)
  | overload o l =>
    obtain ⟨htype, hcandidates⟩ := List.forall_mem_cons.1 h
    exact .overload htype fun c hc =>
      (hcandidates c.type (List.mem_map_of_mem hc)).mono fun _ => .inl
  | disjunction ms l ih =>
    rw [Constraint.types, Constraint.typesOfMinterms_eq_flatMap] at h
    exact .disjunction fun m hm c hc => ih m hm c hc fun t ht =>
      h t (List.mem_flatMap.2 ⟨m, hm, List.mem_flatMap.2 ⟨c, hc, ht⟩⟩)

theorem Constraint.LeavesIn.orLocator {c : Constraint} (h : c.LeavesIn Q) (l : Option Locator) :
    (c.orLocator l).LeavesIn Q := by
  unfold Constraint.orLocator
  split
  · cases h with
    | relation h => exact .relation h
  · cases h with
    | overload htype hcandidates => exact .overload htype hcandidates
  · cases h with
    | disjunction h => exact .disjunction h
  · exact h

end TypeResolution
