/-
# Requirements as members

A nominal type on which no member of a name is declared, nor above it, has the requirements of the
name instead, those of all traits that it conforms to. Each declaration is taken once; since it is
registered once, no requirement is lost by that (`Table.mem_requirements_iff`). The requirements of
a table have no generic parameters of their own and no penalty, whatever a declaration of them has
said (`Table.Built.plain_requirements`).

Key theorems: `Table.Built.plain_requirements`, `Table.mem_requirements_iff`,
`Table.mem_members_of_required`.
-/
import Mathlib.Data.List.Nodup
import TypeResolution.Proofs.Table.Declarations

namespace TypeResolution
namespace Table

variable {table : Table} {a : Ty} {member : Name} {traits : List Name} {c : Candidate}

/-- A change to one trait leaves the requirements with a property that it gives to the new ones. -/
theorem forall_requirements_modifyTrait {P : Name × Candidate → Prop} {n : Name}
    {f : TraitDecl → TraitDecl} (h : ∀ d ∈ table.traits, ∀ r ∈ d.requirements, P r)
    (hf : ∀ d ∈ table.traits, ∀ r ∈ (f d).requirements, P r) :
    ∀ d ∈ (table.modifyTrait n f).traits, ∀ r ∈ d.requirements, P r := by
  intro d hd
  obtain ⟨d', hd', rfl⟩ := List.mem_map.1 hd
  split
  · exact hf d' hd'
  · exact h d' hd'

/-- **Requirements are plain.** -/
theorem Built.plain_requirements (h : Built table) : ∀ d ∈ table.traits, ∀ r ∈ d.requirements,
    r.2 = .plain r.2.decl r.2.type := by
  induction h with
  | ofNames names => exact nofun
  | declareTrait name refines _ hok ih =>
    obtain ⟨-, -, rfl⟩ := of_declareTrait hok
    intro d hd
    rcases List.mem_append.1 hd with hd | hd
    · exact ih d hd
    · rw [List.mem_singleton.1 hd]
      exact nofun
  | declareType name params _ hok ih =>
    obtain ⟨-, rfl⟩ := of_declareType hok
    exact ih
  | addConformance type trait _ hok ih =>
    obtain ⟨-, -, rfl⟩ := of_addConformance hok
    exact ih
  | addSupertype type supertype _ hok ih =>
    obtain ⟨head, args, -, -, -, -, -, rfl⟩ := of_addSupertype hok
    exact ih
  | addMember type member c _ hok ih =>
    obtain ⟨-, -, -, rfl⟩ := of_addMember hok
    exact ih
  | addRequirement trait member decl type _ hok ih =>
    obtain ⟨-, -, rfl⟩ := of_addRequirement hok
    refine forall_requirements_modifyTrait ih fun d hd r hr => ?_
    rcases List.mem_append.1 hr with hr | hr
    · exact ih d hd r hr
    · rw [List.mem_singleton.1 hr]
      rfl
  | setLiteralDefault kind type _ ih => exact ih

/-- A declaration is that of one requirement only. -/
theorem Built.eq_of_requirement_decl (h : Built table) {d d' : TraitDecl} {r r' : Name × Candidate}
    (hd : d ∈ table.traits) (hr : r ∈ d.requirements) (hd' : d' ∈ table.traits)
    (hr' : r' ∈ d'.requirements) (hdecl : r.2.decl = r'.2.decl) : r = r' := by
  have hnodup : ((table.traits.flatMap (·.requirements)).map (·.2.decl)).Nodup := by
    rw [List.map_flatMap]
    exact (List.nodup_append.1 h.nodup_decls).2.1
  exact List.inj_on_of_nodup_map hnodup (List.mem_flatMap.2 ⟨d, hd, hr⟩)
    (List.mem_flatMap.2 ⟨d', hd', hr'⟩) hdecl

/-- Of each declaration one is taken. -/
theorem exists_mem_foldl_decl : ∀ {cs found : List Candidate} {c : Candidate},
    c ∈ found ∨ c ∈ cs → ∃ c' ∈ cs.foldl (fun found c =>
      if found.any (·.decl == c.decl) then found else found ++ [c]) found, c'.decl = c.decl
  | [], _, c, h => ⟨c, h.resolve_right List.not_mem_nil, rfl⟩
  | b :: cs, found, c, h => by
    rw [List.foldl_cons]
    split
    · rename_i hany
      rcases h with h | h
      · exact exists_mem_foldl_decl (.inl h)
      · rcases List.mem_cons.1 h with rfl | h
        · obtain ⟨b, hb, heq⟩ := List.any_eq_true.1 hany
          rw [← beq_iff_eq.1 heq]
          exact exists_mem_foldl_decl (.inl hb)
        · exact exists_mem_foldl_decl (.inr h)
    · refine exists_mem_foldl_decl ?_
      rw [List.mem_append, List.mem_singleton, or_assoc]
      exact h.imp_right List.mem_cons.1

/-- The requirements of a name that some traits have. -/
theorem mem_flatMap_requirements : (c ∈ traits.flatMap fun trait =>
    match table.trait? trait with
    | none => []
    | some d => (d.requirements.filter (·.1 == member)).map (·.2)) ↔
      ∃ trait ∈ traits, ∃ d, table.trait? trait = some d ∧ (member, c) ∈ d.requirements := by
  rw [List.mem_flatMap]
  refine exists_congr fun trait => and_congr_right fun _ => ?_
  cases table.trait? trait with
  | none => simp
  | some d => simp

/-- **No requirement is lost**, though each declaration is taken once. -/
theorem mem_requirements_iff (h : Built table) : c ∈ table.requirements a traits member ↔
    ∃ trait ∈ traits, ∃ d, table.trait? trait = some d ∧ ∃ r, (member, r) ∈ d.requirements ∧
      c = { r with type := r.type.instantiate [(table.selfName, a)] } := by
  unfold requirements
  dsimp only
  constructor
  · intro hc
    obtain ⟨r, hr, rfl⟩ := List.mem_map.1 hc
    obtain ⟨trait, htrait, d, hd, hmem⟩ :=
      mem_flatMap_requirements.1 ((mem_foldl_decl hr).resolve_left List.not_mem_nil)
    exact ⟨trait, htrait, d, hd, r, hmem, rfl⟩
  · rintro ⟨trait, htrait, d, hd, r, hmem, rfl⟩
    have hcandidate := mem_flatMap_requirements.2 ⟨trait, htrait, d, hd, hmem⟩
    obtain ⟨r', hr', hdecl⟩ :=
      exists_mem_foldl_decl (.inr hcandidate : r ∈ ([] : List Candidate) ∨ _)
    obtain ⟨trait', -, d', hd', hmem'⟩ :=
      mem_flatMap_requirements.1 ((mem_foldl_decl hr').resolve_left List.not_mem_nil)
    obtain ⟨-, rfl⟩ := Prod.mk.inj (h.eq_of_requirement_decl (List.mem_of_find?_eq_some hd') hmem'
      (List.mem_of_find?_eq_some hd) hmem hdecl)
    exact List.mem_map.2 ⟨r', hr', rfl⟩

/-- A nominal type without a declared member of the name has the requirements of its traits. -/
theorem mem_members_of_required (h : Built table) {n : Name} {as : List Ty}
    (hnil : table.declaredMembers (.nominal n as) member = []) :
    c ∈ table.members (.nominal n as) member ↔
      ∃ trait ∈ table.conformances (.nominal n as), ∃ d, table.trait? trait = some d ∧
        ∃ r, (member, r) ∈ d.requirements ∧
          c = { r with type := r.type.instantiate [(table.selfName, .nominal n as)] } := by
  rw [← mem_requirements_iff h]
  unfold members
  rw [hnil]

end Table
end TypeResolution
