/-
# Declarations are registered once

No two types and no two traits of a table that has been built have the same name
(`Table.Built.nodup_names`), and no two members or requirements are of the same declaration
(`Table.Built.nodup_decls`). So the declarations that a member of a type can be are distinct
(`Table.Built.nodup_members`), and each of them is found by its number.

Key theorems: `Table.Built.nodup_names`, `Table.Built.nodup_decls`, `Table.Built.nodup_members`.
-/
import TypeResolution.Proofs.Table.Instances

namespace TypeResolution
namespace Table

variable {table : Table} {a : Ty} {n member : Name}

/-! ### Names -/

/-- Changing the declarations of one name changes no names. -/
theorem map_key_modify {α κ : Type} [DecidableEq κ] {key : α → κ} {f : α → α}
    (hf : ∀ x, key (f x) = key x) (k : κ) (xs : List α) :
    (xs.map fun x => if key x = k then f x else x).map key = xs.map key := by
  rw [List.map_map]
  refine List.map_congr_left fun x _ => ?_
  show key (if key x = k then f x else x) = key x
  split
  · exact hf x
  · rfl

theorem nodup_snoc {κ : Type} {xs : List κ} {x : κ} (h : xs.Nodup) (hx : x ∉ xs) :
    (xs ++ [x]).Nodup :=
  List.nodup_append.2 ⟨h, List.pairwise_singleton _ x, fun y hy z hz => by
    rw [List.mem_singleton.1 hz]
    exact fun heq => hx (heq ▸ hy)⟩

theorem name_mem_types_iff : (table.type? n).isSome = true ↔ n ∈ table.types.map (·.name) := by
  unfold type?
  rw [List.find?_isSome, List.mem_map]
  simp only [beq_iff_eq]

theorem name_mem_traits_iff : (table.trait? n).isSome = true ↔ n ∈ table.traits.map (·.name) := by
  unfold trait?
  rw [List.find?_isSome, List.mem_map]
  simp only [beq_iff_eq]

/-- Types and traits are declared once. -/
theorem Built.nodup_names (h : Built table) :
    (table.types.map (·.name)).Nodup ∧ (table.traits.map (·.name)).Nodup := by
  induction h with
  | ofNames names => exact ⟨.nil, .nil⟩
  | declareTrait name refines _ hok ih =>
    obtain ⟨hnew, -, rfl⟩ := of_declareTrait hok
    refine ⟨ih.1, ?_⟩
    rw [List.map_append]
    exact nodup_snoc ih.2 (mt name_mem_traits_iff.2 (Bool.eq_false_iff.1 hnew))
  | declareType name params _ hok ih =>
    obtain ⟨hnew, rfl⟩ := of_declareType hok
    refine ⟨?_, ih.2⟩
    rw [List.map_append]
    exact nodup_snoc ih.1 (mt name_mem_types_iff.2 (Bool.eq_false_iff.1 hnew))
  | addConformance type trait _ hok ih =>
    obtain ⟨-, -, rfl⟩ := of_addConformance hok
    unfold modifyType
    rw [map_key_modify fun d => by split <;> rfl]
    exact ih
  | addSupertype type supertype _ hok ih =>
    obtain ⟨head, args, -, -, -, -, -, rfl⟩ := of_addSupertype hok
    unfold modifyType
    rw [map_key_modify fun d => by rfl]
    exact ih
  | addMember type member c _ hok ih =>
    obtain ⟨-, -, -, rfl⟩ := of_addMember hok
    unfold modifyType
    rw [map_key_modify fun d => by rfl]
    exact ih
  | addRequirement trait member decl type _ hok ih =>
    obtain ⟨-, -, rfl⟩ := of_addRequirement hok
    unfold modifyTrait
    rw [map_key_modify fun d => by rfl]
    exact ih
  | setLiteralDefault kind type _ ih => exact ih

/-! ### Declarations -/

section Modify

variable {α κ β : Type} [DecidableEq κ] {key : α → κ} {f : α → α} {g : α → List β} {k : κ}

/-- A change at one key that leaves the items as they are leaves all items as they are. -/
theorem flatMap_modify (hf : ∀ x, g (f x) = g x) (xs : List α) :
    (xs.map fun x => if key x = k then f x else x).flatMap g = xs.flatMap g := by
  rw [List.flatMap_map]
  refine List.flatMap_congr fun x _ => ?_
  split
  · exact hf x
  · rfl

/-- One more item at a key that occurs once is one more item. -/
theorem flatMap_modify_perm {new : β} (hf : ∀ x, g (f x) = g x ++ [new]) : ∀ {xs : List α},
    (xs.map key).Nodup → k ∈ xs.map key →
    ((xs.map fun x => if key x = k then f x else x).flatMap g).Perm (new :: xs.flatMap g)
  | x :: xs, hnodup, hk => by
    obtain ⟨hx, hnodup⟩ := List.nodup_cons.1 hnodup
    rw [List.map_cons, List.flatMap_cons, List.flatMap_cons]
    by_cases hkey : key x = k
    · have hrest : (xs.map fun x => if key x = k then f x else x) = xs := by
        refine (List.map_congr_left fun y hy => if_neg fun hy' => hx ?_).trans (List.map_id _)
        exact hkey ▸ hy' ▸ List.mem_map.2 ⟨y, hy, rfl⟩
      rw [if_pos hkey, hrest, hf, List.append_assoc]
      exact List.perm_middle
    · rw [if_neg hkey]
      have hk : k ∈ xs.map key := (List.mem_cons.1 hk).resolve_left (Ne.symm hkey)
      exact ((flatMap_modify_perm hf hnodup hk).append_left _).trans List.perm_middle

end Modify

theorem decls_declareTrait {refines : List Name} {table' : Table}
    (h : table.declareTrait n refines = .ok table') : table'.decls = table.decls := by
  obtain ⟨-, -, rfl⟩ := of_declareTrait h
  unfold decls
  simp

theorem decls_declareType {params : List Name} {table' : Table}
    (h : table.declareType n params = .ok table') : table'.decls = table.decls := by
  obtain ⟨-, rfl⟩ := of_declareType h
  unfold decls
  simp

theorem decls_addConformance {type trait : Name} {table' : Table}
    (h : table.addConformance type trait = .ok table') : table'.decls = table.decls := by
  obtain ⟨-, -, rfl⟩ := of_addConformance h
  unfold decls modifyType
  rw [flatMap_modify fun d => by split <;> rfl]

theorem decls_addSupertype {type : Name} {supertype : Ty} {table' : Table}
    (h : table.addSupertype type supertype = .ok table') : table'.decls = table.decls := by
  obtain ⟨head, args, rfl, -, -, -, -, rfl⟩ := of_addSupertype h
  unfold decls modifyType
  rw [flatMap_modify fun d => by rfl]

theorem perm_decls_addMember (hnames : (table.types.map (·.name)).Nodup) {type : Name}
    {c : Candidate} {table' : Table} (h : table.addMember type member c = .ok table') :
    table'.decls.Perm (c.decl :: table.decls) := by
  obtain ⟨htype, -, -, rfl⟩ := of_addMember h
  exact (flatMap_modify_perm (fun d => by simp) hnames (name_mem_types_iff.1 htype)).append_right _

theorem perm_decls_addRequirement (hnames : (table.traits.map (·.name)).Nodup) {trait : Name}
    {decl : DeclId} {type : Ty} {table' : Table}
    (h : table.addRequirement trait member decl type = .ok table') :
    table'.decls.Perm (decl :: table.decls) := by
  obtain ⟨htrait, -, rfl⟩ := of_addRequirement h
  exact ((flatMap_modify_perm (fun d => by simp [Candidate.plain]) hnames
    (name_mem_traits_iff.1 htrait)).append_left _).trans List.perm_middle

/-- **No declaration is registered twice.** -/
theorem Built.nodup_decls (h : Built table) : table.decls.Nodup := by
  induction h with
  | ofNames names => exact .nil
  | declareTrait name refines _ hok ih => rwa [decls_declareTrait hok]
  | declareType name params _ hok ih => rwa [decls_declareType hok]
  | addConformance type trait _ hok ih => rwa [decls_addConformance hok]
  | addSupertype type supertype _ hok ih => rwa [decls_addSupertype hok]
  | addMember type member c hbuilt hok ih =>
    obtain ⟨-, -, hnew, -⟩ := of_addMember hok
    exact (perm_decls_addMember hbuilt.nodup_names.1 hok).nodup_iff.2 (List.nodup_cons.2 ⟨hnew, ih⟩)
  | addRequirement trait member decl type hbuilt hok ih =>
    obtain ⟨-, hnew, -⟩ := of_addRequirement hok
    exact (perm_decls_addRequirement hbuilt.nodup_names.2 hok).nodup_iff.2
      (List.nodup_cons.2 ⟨hnew, ih⟩)
  | setLiteralDefault kind type _ ih => exact ih

/-! ### Members -/

theorem nodup_ownMembers (h : table.decls.Nodup) (a : Ty) (member : Name) :
    ((table.ownMembers a member).map (·.decl)).Nodup := by
  cases a with
  | nominal name args =>
    rw [ownMembers_nominal]
    cases hd : table.type? name with
    | none => exact .nil
    | some d =>
      have hmem : d.members.map (·.2.decl) ∈ table.types.map fun d => d.members.map (·.2.decl) :=
        List.mem_map.2 ⟨d, mem_of_type? hd, rfl⟩
      have hsublist : ((d.members.filter (·.1 == member)).map (·.2.decl)).Sublist table.decls :=
        ((List.filter_sublist.map _).trans (List.sublist_flatten_of_mem hmem)).trans
          (List.sublist_append_left _ _)
      dsimp only
      rw [List.map_map, List.map_map]
      exact hsublist.nodup h
  | _ => exact .nil

theorem firstNonempty_mem {α : Type} : ∀ lists : List (List α),
    firstNonempty lists = [] ∨ firstNonempty lists ∈ lists
  | [] => .inl rfl
  | [] :: rest => (firstNonempty_mem rest).imp_right (List.mem_cons_of_mem _)
  | (_ :: _) :: _ => .inr List.mem_cons_self

theorem nodup_declaredMembersWithin (h : table.decls.Nodup) (member : Name) :
    ∀ (fuel : Nat) (a : Ty), ((table.declaredMembersWithin fuel a member).map (·.decl)).Nodup
  | 0, _ => .nil
  | fuel + 1, a => by
    unfold declaredMembersWithin
    split
    · rcases firstNonempty_mem ((table.supertypes a).map fun sup =>
        table.declaredMembersWithin fuel sup member) with hnil | hmem
      · rw [hnil]
        exact .nil
      · obtain ⟨sup, -, heq⟩ := List.mem_map.1 hmem
        rw [← heq]
        exact nodup_declaredMembersWithin h member fuel sup
    · exact nodup_ownMembers h a member

/-- Those that are taken once each are distinct. -/
theorem nodup_foldl_decl : ∀ (cs found : List Candidate), (found.map (·.decl)).Nodup →
    ((cs.foldl (fun found c =>
      if found.any (·.decl == c.decl) then found else found ++ [c]) found).map (·.decl)).Nodup
  | [], _, h => h
  | c :: cs, found, h => by
    rw [List.foldl_cons]
    refine nodup_foldl_decl cs _ ?_
    split
    · exact h
    · rename_i hnew
      rw [List.map_append]
      refine nodup_snoc h fun hmem => hnew ?_
      obtain ⟨d, hd, heq⟩ := List.mem_map.1 hmem
      exact List.any_eq_true.2 ⟨d, hd, beq_iff_eq.2 heq⟩

theorem nodup_requirements (receiver : Ty) (traits : List Name) (member : Name) :
    ((table.requirements receiver traits member).map (·.decl)).Nodup := by
  unfold requirements
  dsimp only
  rw [List.map_map]
  exact nodup_foldl_decl _ [] .nil

/-- **The declarations that a member can be are distinct.** -/
theorem Built.nodup_members (h : Built table) (a : Ty) (member : Name) :
    ((table.members a member).map (·.decl)).Nodup := by
  unfold members
  split
  · split
    · exact nodup_requirements _ _ _
    · exact nodup_requirements _ _ _
    · exact .nil
  · exact nodup_declaredMembersWithin h.nodup_decls member _ a

end Table
end TypeResolution
