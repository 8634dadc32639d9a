/-
# Conformance as a declared closure

Which traits a type has is said by the declarations alone (`Table.Declares`): a nominal type has the
traits that are declared on its head or on the head of a type above it, and all that these refine;
its arguments, and how many there are, make no difference. The lookup takes the traits of each
supertype together with those declared below it, closes them under refinement, and goes on like this
down to the type asked about. So the traits it finds are closed at every level, and a way up through
supertypes comes before the way along refinements; several ways may lead to one trait
(`Table.mem_conformances_iff`, `Table.conforms_iff`).

Key definitions: `Table.Declares`.
Key theorems: `Table.mem_conformances_iff`, `Table.conforms_iff`.
-/
import TypeResolution.Proofs.Table.Registry

open Relation (ReflTransGen)

namespace TypeResolution
namespace Table

variable {table : Table} {type : Ty} {trait : Name}

/-- The declarations say that the type has the trait. -/
inductive Declares (t : Table) : Ty → Name → Prop where
  | nominal {head ancestor declared trait : Name} {args : List Ty} {d : TypeDecl} :
    ReflTransGen t.Parent head ancestor → t.type? ancestor = some d → declared ∈ d.conformances →
      ReflTransGen t.Refines declared trait → t.Declares (.nominal head args) trait
  | existential {traits : TraitSet} {declared trait : Name} :
    declared ∈ traits.names → ReflTransGen t.Refines declared trait →
      t.Declares (.existential traits) trait

/-- The declarations of the head and of all above it count, with all that is refined. -/
theorem declares_nominal_iff {n : Name} {args : List Ty} :
    table.Declares (.nominal n args) trait ↔ ∃ m d declared, ReflTransGen table.Parent n m ∧
      table.type? m = some d ∧ declared ∈ d.conformances ∧
      ReflTransGen table.Refines declared trait := by
  constructor
  · rintro (⟨hup, hd, hmem, href⟩ | _)
    exact ⟨_, _, _, hup, hd, hmem, href⟩
  · rintro ⟨m, d, declared, hup, hd, hmem, href⟩
    exact .nominal hup hd hmem href

/-! ### The lookup -/

theorem mem_appendNew {names more : List Name} {n : Name} :
    n ∈ appendNew names more ↔ n ∈ names ∨ n ∈ more := by
  unfold appendNew
  induction more generalizing names with
  | nil => simp
  | cons m more ih =>
    rw [List.foldl_cons, ih, List.mem_cons]
    split
    · rename_i hm
      constructor
      · exact fun h => h.imp_right .inr
      · rintro (h | rfl | h)
        · exact .inl h
        · exact .inl hm
        · exact .inr h
    · rw [List.mem_append, List.mem_singleton, or_assoc]

theorem mem_reach_refinementGraph {names : List Name} :
    trait ∈ reach table.refinementGraph names ↔
      ∃ n ∈ names, ReflTransGen table.Refines n trait := by
  rw [mem_reach]
  exact exists_congr fun n => and_congr_right fun _ => way_iff

/-- A parent heads a supertype, whatever the arguments are. -/
theorem exists_mem_supertypes {n m : Name} (h : table.Parent n m) (args : List Ty) :
    ∃ bs, .nominal m bs ∈ table.supertypes (.nominal n args) := by
  obtain ⟨d, bs, hd, hmem⟩ := parent_iff.1 h
  rw [supertypes_nominal, hd]
  exact ⟨_, List.mem_map.2 ⟨_, hmem, Ty.mapParams_nominal _ m bs⟩⟩

/-- The traits of a nominal type come from its declaration or from a supertype, by refinement. -/
theorem mem_conformances_nominal (hbuilt : Built table) {n : Name} {args : List Ty} :
    trait ∈ table.conformances (.nominal n args) ↔ ∃ d, table.type? n = some d ∧
      ∃ declared, (declared ∈ d.conformances ∨
        ∃ sup ∈ table.supertypes (.nominal n args), declared ∈ table.conformances sup) ∧
      ReflTransGen table.Refines declared trait := by
  rw [(conformanceRecursion_computes hbuilt.nominal hbuilt.acyclic).eq]
  unfold conformanceRecursion
  dsimp only
  cases table.type? n with
  | none => simp
  | some d => simp [mem_reach_refinementGraph, mem_appendNew]

/-- What is found is declared: at the type itself, or at a supertype and so above the type. -/
theorem declares_of_mem_conformances (hbuilt : Built table)
    (h : trait ∈ table.conformances type) : table.Declares type trait := by
  obtain ⟨height, hlt, -⟩ := exists_height hbuilt.nominal hbuilt.acyclic
  -- The induction goes up, since each step up leads to a lower type.
  induction hheight : height type using Nat.strongRecOn generalizing type trait with
  | ind k ih =>
    cases type with
    | nominal n args =>
      obtain ⟨d, hd, declared, hfrom, href⟩ := (mem_conformances_nominal hbuilt).1 h
      rcases hfrom with hmem | ⟨sup, hsup, hmem⟩
      · exact .nominal .refl hd hmem href
      · have hlower := hlt _ sup hsup
        have hdeclares := ih (height sup) (hheight ▸ hlower) hmem rfl
        obtain ⟨_, _, m, bs, heq, rfl, hparent⟩ := exists_parent hbuilt.nominal hsup
        obtain ⟨rfl, -⟩ := Ty.nominal.inj heq
        obtain ⟨ancestor, d', declared', hup, hd', hmem', href'⟩ :=
          declares_nominal_iff.1 hdeclares
        exact .nominal (.head hparent hup) hd' hmem' (href'.trans href)
    | existential traits =>
      obtain ⟨declared, hmem, href⟩ := mem_reach_refinementGraph.1 h
      exact .existential hmem href
    | _ => cases h

/-- What is declared above a name is found for all types of the name. -/
theorem mem_conformances_of_declared (hbuilt : Built table) {n m declared : Name} {d : TypeDecl}
    (hup : ReflTransGen table.Parent n m) (hd : table.type? m = some d)
    (hmem : declared ∈ d.conformances) (href : ReflTransGen table.Refines declared trait)
    (args : List Ty) : trait ∈ table.conformances (.nominal n args) := by
  induction hup using ReflTransGen.head_induction_on generalizing args with
  | refl => exact (mem_conformances_nominal hbuilt).2 ⟨d, hd, declared, .inl hmem, href⟩
  | head hparent _ ih =>
    obtain ⟨bs, hsup⟩ := exists_mem_supertypes hparent args
    obtain ⟨d', -, hd', -⟩ := parent_iff.1 hparent
    exact (mem_conformances_nominal hbuilt).2 ⟨d', hd', trait, .inr ⟨_, hsup, ih bs⟩, .refl⟩

/-- **The lookup finds the traits that the declarations give the type.** -/
theorem mem_conformances_iff (hbuilt : Built table) :
    trait ∈ table.conformances type ↔ table.Declares type trait := by
  constructor
  · exact declares_of_mem_conformances hbuilt
  · rintro (⟨hup, hd, hmem, href⟩ | ⟨hmem, href⟩)
    · exact mem_conformances_of_declared hbuilt hup hd hmem href _
    · exact mem_reach_refinementGraph.2 ⟨_, hmem, href⟩

/-- **Conformance is the declared closure**: the error type satisfies every trait, a literal the
trait of its literals, and any other type the traits that the declarations give it. -/
theorem conforms_iff (hbuilt : Built table) (type : Ty) (trait : Name) :
    table.conforms type trait = true ↔ type = .error ∨
      (∃ kind, type = .literal kind ∧ table.names.get? kind.traitName = some trait) ∨
      table.Declares type trait := by
  cases type with
  | error => exact iff_of_true rfl (.inl rfl)
  | literal kind =>
    show (table.names.get? kind.traitName == some trait) = true ↔ _
    rw [beq_iff_eq]
    constructor
    · exact fun h => .inr (.inl ⟨kind, rfl, h⟩)
    · rintro (h | ⟨kind', h, htrait⟩ | h)
      · cases h
      · cases h
        exact htrait
      · cases h
  | _ =>
    show (table.conformances _).contains trait = true ↔ _
    rw [List.contains_iff_mem, mem_conformances_iff hbuilt]
    simp

/-- The bottom of a diamond has the trait that the trait declared at its top refines, and no other
one; it makes no difference that the bottom is given an argument that it does not take. -/
theorem conforms_iff_diamond :
    let ops : List Operation :=
      [.declareTrait ⟨1⟩ [], .declareTrait ⟨2⟩ [⟨1⟩], .declareTrait ⟨3⟩ [],
        .declareType ⟨4⟩ [⟨9⟩], .declareType ⟨5⟩ [], .declareType ⟨6⟩ [], .declareType ⟨7⟩ [],
        .addConformance ⟨4⟩ ⟨2⟩, .addSupertype ⟨5⟩ (.nominal ⟨4⟩ [.nominal ⟨5⟩ []]),
        .addSupertype ⟨6⟩ (.nominal ⟨4⟩ []), .addSupertype ⟨7⟩ (.nominal ⟨5⟩ []),
        .addSupertype ⟨7⟩ (.nominal ⟨6⟩ [])]
    let table := (Registry.run ops (.ofNames .empty)).2.table
    table.Built ∧ table.Declares (.nominal ⟨7⟩ [.error]) ⟨1⟩ ∧
      ¬ table.Declares (.nominal ⟨7⟩ [.error]) ⟨3⟩ := by
  intro ops table
  have hbuilt : table.Built :=
    (Registry.consistent_run ops (Registry.consistent_ofNames .empty)).built
  have hyes : table.conforms (.nominal ⟨7⟩ [.error]) ⟨1⟩ = true := by decide +kernel
  have hno : ¬ table.conforms (.nominal ⟨7⟩ [.error]) ⟨3⟩ = true := by decide +kernel
  refine ⟨hbuilt, ?_, fun h => hno ((conforms_iff hbuilt _ _).2 (.inr (.inr h)))⟩
  rcases (conforms_iff hbuilt _ _).1 hyes with h | ⟨kind, h, -⟩ | h
  · cases h
  · cases h
  · exact h

end Table
end TypeResolution
