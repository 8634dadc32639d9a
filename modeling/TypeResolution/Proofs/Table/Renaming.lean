/-
# The table under other names

Names are handles, and a program that is loaded in another order has other ones. An injective change
of names takes types and declarations to those that are written with the new names; a set of traits
stays sorted by handle, so its list may come in another order. If a table has the renamed
declarations of another one, with its types in any order, the answers of the two are the same up to
the names (`Table.Renames.members_nominal`): where a type is declared is of no account, since no two
have the same name.

Only the order of what an existential conforms to is not the same, since its traits are gone through
in the order of their handles; which traits it conforms to is (`Table.Renames.conforms`).

Key definitions: `Ty.rename`, `Candidate.rename`, `TypeDecl.rename`, `Table.Renames`.
Key theorems: `Ty.rename_instantiate`, `Table.reach_map`, `Table.Renames.supertypes`,
`Table.Renames.conforms`, `Table.Renames.members_nominal`.
-/
import TypeResolution.Proofs.Table.Capture
import TypeResolution.Proofs.Table.Growth

open Function (Injective)

namespace TypeResolution

variable {ρ : Name → Name} {n m : Name} {t : Ty}

/-! ### Types -/

theorem TraitSet.ext_mem {s s' : TraitSet} (h : ∀ n, n ∈ s.names ↔ n ∈ s'.names) : s = s' := by
  have hnodup : ∀ s : TraitSet, s.names.Nodup := fun s => s.ascending.imp <| by
    rintro n _ hlt rfl
    exact Nat.lt_irrefl n.index hlt
  have hperm := (List.perm_ext_iff_of_nodup (hnodup s) (hnodup s')).2 h
  have hnames := hperm.eq_of_pairwise
    (fun a b _ _ hab hba => absurd hab (Nat.lt_asymm hba)) s.ascending s'.ascending
  cases s
  cases s'
  cases hnames
  rfl

/-- The set of the traits by their new names. -/
def TraitSet.rename (ρ : Name → Name) (s : TraitSet) : TraitSet := .ofList (s.names.map ρ)

theorem TraitSet.rename_ofList (ρ : Name → Name) (names : List Name) :
    (TraitSet.ofList names).rename ρ = .ofList (names.map ρ) :=
  TraitSet.ext_mem fun n => by
    unfold TraitSet.rename
    rw [TraitSet.mem_ofList, TraitSet.mem_ofList, List.mem_map, List.mem_map]
    simp only [TraitSet.mem_ofList]

namespace Ty

mutual
/-- The type with new names. -/
def rename (ρ : Name → Name) : Ty → Ty
  | .var v => .var v
  | .param name => .param (ρ name)
  | .nominal name args => .nominal (ρ name) (renameAll ρ args)
  | .function params result => .function (renameParams ρ params) (result.rename ρ)
  | .tuple elements => .tuple (renameAll ρ elements)
  | .existential traits => .existential (traits.rename ρ)
  | .literal kind => .literal kind
  | .error => .error
  | .unresolved => .unresolved

def renameAll (ρ : Name → Name) : List Ty → List Ty
  | [] => []
  | t :: ts => t.rename ρ :: renameAll ρ ts

def renameParams (ρ : Name → Name) : List Parameter → List Parameter
  | [] => []
  | (c, t) :: ps => (c, t.rename ρ) :: renameParams ρ ps
end

theorem renameAll_eq_map (ρ : Name → Name) : ∀ ts, renameAll ρ ts = ts.map (rename ρ)
  | [] => rfl
  | _ :: ts => by rw [renameAll, renameAll_eq_map ρ ts, List.map_cons]

theorem renameParams_eq_map (ρ : Name → Name) :
    ∀ ps, renameParams ρ ps = ps.map fun p => (p.1, p.2.rename ρ)
  | [] => rfl
  | _ :: ps => by rw [renameParams, renameParams_eq_map ρ ps, List.map_cons]

theorem rename_nominal (ρ : Name → Name) (name : Name) (args : List Ty) :
    (nominal name args).rename ρ = .nominal (ρ name) (args.map (rename ρ)) := by
  rw [rename, renameAll_eq_map]

theorem rename_tuple (ρ : Name → Name) (elements : List Ty) :
    (tuple elements).rename ρ = .tuple (elements.map (rename ρ)) := by
  rw [rename, renameAll_eq_map]

theorem rename_function (ρ : Name → Name) (params : List Parameter) (result : Ty) :
    (function params result).rename ρ =
      .function (params.map fun p => (p.1, p.2.rename ρ)) (result.rename ρ) := by
  rw [rename, renameParams_eq_map]

end Ty

/-- Renamed keys find what the keys find. -/
theorem lookup_map_keys {α β : Type} (hρ : Injective ρ) (f : α → β) (n : Name) :
    ∀ items : List (Name × α),
      (items.map fun p => (ρ p.1, f p.2)).lookup (ρ n) = (items.lookup n).map f
  | [] => rfl
  | (m, x) :: items => by
    rw [List.map_cons, List.lookup_cons, List.lookup_cons, lookup_map_keys hρ f n items]
    by_cases h : n = m
    · rw [beq_iff_eq.2 h, beq_iff_eq.2 (congrArg ρ h)]
      rfl
    · rw [beq_eq_false_iff_ne.2 h, beq_eq_false_iff_ne.2 (hρ.ne h)]

/-- Arguments are put in under the new names as under the old ones. -/
theorem Ty.rename_instantiate (hρ : Injective ρ) (args : List (Name × Ty)) (t : Ty) :
    (t.instantiate args).rename ρ =
      (t.rename ρ).instantiate (args.map fun p => (ρ p.1, p.2.rename ρ)) := by
  unfold instantiate mapParams
  induction t with
  | var v => rfl
  | param name =>
    show ((args.lookup name).getD (.param name)).rename ρ = (List.lookup (ρ name) _).getD _
    rw [lookup_map_keys hρ]
    cases args.lookup name <;> rfl
  | nominal name as ih =>
    rw [subst, substAll_eq_map, rename_nominal, rename_nominal, subst, substAll_eq_map,
      List.map_map, List.map_map]
    exact congrArg _ (List.map_congr_left ih)
  | function ps result ih ihr =>
    rw [subst, substParams_eq_map, rename_function, rename_function, subst, substParams_eq_map,
      List.map_map, List.map_map, ihr]
    exact congrArg (function · _) (List.map_congr_left fun p hp => congrArg (p.1, ·) (ih p hp))
  | tuple as ih =>
    rw [subst, substAll_eq_map, rename_tuple, rename_tuple, subst, substAll_eq_map, List.map_map,
      List.map_map]
    exact congrArg _ (List.map_congr_left ih)
  | existential traits => rfl
  | literal kind => rfl
  | error => rfl
  | unresolved => rfl

/-! ### Declarations -/

def GenericParam.rename (ρ : Name → Name) (g : GenericParam) : GenericParam :=
  ⟨ρ g.name, g.bounds.map ρ⟩

/-- The declaration with the new names. -/
def Candidate.rename (ρ : Name → Name) (c : Candidate) : Candidate :=
  { c with type := c.type.rename ρ, generics := c.generics.map (GenericParam.rename ρ) }

/-- The declaration of a member with the new names. -/
def renameMember (ρ : Name → Name) (member : Name × Candidate) : Name × Candidate :=
  (ρ member.1, member.2.rename ρ)

def TraitDecl.rename (ρ : Name → Name) (d : TraitDecl) : TraitDecl :=
  ⟨ρ d.name, d.refines.map ρ, d.requirements.map (renameMember ρ)⟩

def TypeDecl.rename (ρ : Name → Name) (d : TypeDecl) : TypeDecl :=
  ⟨ρ d.name, d.params.map ρ, d.conformances.map ρ, d.supertypes.map (Ty.rename ρ),
    d.members.map (renameMember ρ)⟩

theorem Candidate.rename_instantiate (hρ : Injective ρ) (args : List (Name × Ty)) (c : Candidate) :
    (c.instantiate args).rename ρ =
      (c.rename ρ).instantiate (args.map fun p => (ρ p.1, p.2.rename ρ)) := by
  unfold Candidate.instantiate Candidate.rename
  rw [Ty.rename_instantiate hρ]

theorem TypeDecl.rename_arguments (ρ : Name → Name) (d : TypeDecl) (args : List Ty) :
    (d.rename ρ).arguments (args.map (Ty.rename ρ)) =
      (d.arguments args).map fun p => (ρ p.1, p.2.rename ρ) := by
  unfold TypeDecl.arguments TypeDecl.rename
  rw [List.length_map, List.length_map]
  split
  · rw [List.zip_map, List.map_reverse]
    rfl
  · rfl

/-- The members of a name are those of the renamed one. -/
theorem filter_map_renameMember (hρ : Injective ρ) (n : Name) (members : List (Name × Candidate)) :
    ((members.map (renameMember ρ)).filter (·.1 == ρ n)).map (·.2) =
      ((members.filter (·.1 == n)).map (·.2)).map (Candidate.rename ρ) := by
  rw [List.filter_map, List.map_map, List.map_map]
  have hsame : ((fun p : Name × Candidate => p.1 == ρ n) ∘ renameMember ρ) = (·.1 == n) := by
    funext p
    exact Bool.eq_iff_iff.2 (by simp [renameMember, hρ.eq_iff])
  rw [hsame]
  rfl

namespace Table

/-! ### Reachable names -/

section Reach

variable {graph graph' : Reach.Graph}
  (hgraph : ∀ n, Reach.successors graph' (ρ n) = (Reach.successors graph n).map ρ)
include hgraph

/-- **What can be reached is reached in the same order** in the renamed graph. -/
theorem reach_map (hρ : Injective ρ) (roots : List Name) :
    reach graph' (roots.map ρ) = (reach graph roots).map ρ := by
  suffices h : ∀ pending reached : List Name,
      Reach.reachFrom graph' (pending.map ρ) (reached.map ρ) =
        (Reach.reachFrom graph pending reached).map ρ from h roots []
  intro pending reached
  fun_induction Reach.reachFrom graph pending reached with
  | case1 reached => rw [List.map_nil, Reach.reachFrom]
  | case2 reached name rest hmem ih =>
    rw [List.map_cons, Reach.reachFrom, if_pos (List.mem_map_of_mem hmem), ih]
  | case3 reached name rest hmem ih =>
    have hnew : ρ name ∉ reached.map ρ := fun h => hmem ((List.mem_map_of_injective hρ).1 h)
    rw [List.map_cons, Reach.reachFrom, if_neg hnew, hgraph, ← ih, List.map_append, List.map_append]
    rfl

end Reach

theorem appendNew_map (hρ : Injective ρ) (more : List Name) : ∀ names : List Name,
    appendNew (names.map ρ) (more.map ρ) = (appendNew names more).map ρ := by
  induction more with
  | nil => exact fun _ => rfl
  | cons n more ih =>
    intro names
    unfold appendNew at ih ⊢
    rw [List.map_cons, List.foldl_cons, List.foldl_cons, ← ih]
    congr 1
    by_cases h : n ∈ names
    · rw [if_pos h, if_pos (List.mem_map_of_mem h)]
    · rw [if_neg h, if_neg fun hmem => h ((List.mem_map_of_injective hρ).1 hmem), List.map_append]
      rfl

/-- The requirements of a name that a trait has. -/
def requirementsOf (t : Table) (member trait : Name) : List Candidate :=
  match t.trait? trait with
  | none => []
  | some d => (d.requirements.filter (·.1 == member)).map (·.2)

theorem requirements_eq (t : Table) (receiver : Ty) (traits : List Name) (member : Name) :
    t.requirements receiver traits member =
      ((traits.flatMap (t.requirementsOf member)).foldl
        (fun found c => if found.any (·.decl == c.decl) then found else found ++ [c]) []).map
          (Candidate.instantiate [(t.selfName, receiver)]) := rfl

/-- Of one declaration the first is taken, whatever its names. -/
theorem foldl_decl_map (required : List Candidate) : ∀ found : List Candidate,
    (required.map (Candidate.rename ρ)).foldl
        (fun found c => if found.any (·.decl == c.decl) then found else found ++ [c])
        (found.map (Candidate.rename ρ)) =
      (required.foldl
        (fun found c => if found.any (·.decl == c.decl) then found else found ++ [c])
        found).map (Candidate.rename ρ) := by
  induction required with
  | nil => exact fun _ => rfl
  | cons c required ih =>
    intro found
    have hany : (found.map (Candidate.rename ρ)).any (·.decl == (c.rename ρ).decl) =
        found.any (·.decl == c.decl) := List.any_map
    rw [List.map_cons, List.foldl_cons, List.foldl_cons, hany, ← ih]
    congr 1
    split
    · rfl
    · rw [List.map_append]
      rfl

/-! ### Renamed tables -/

/-- The second table has the declarations of the first one under their new names, and its types in
any order. -/
structure Renames (ρ : Name → Name) (t t' : Table) : Prop where
  injective : Injective ρ
  built : t.Built
  selfName : t'.selfName = ρ t.selfName
  traits : t'.traits = t.traits.map (TraitDecl.rename ρ)
  types : t'.types.Perm (t.types.map (TypeDecl.rename ρ))
  literalDefaults : t'.literalDefaults = t.literalDefaults.map fun p => (p.1, p.2.rename ρ)

/-- Where the keys are different, an item is found by its key. -/
theorem find?_key_eq_some {α : Type} {key : α → Name} {xs : List α} {x : α}
    (hnodup : (xs.map key).Nodup) : xs.find? (key · == n) = some x ↔ x ∈ xs ∧ key x = n := by
  constructor
  · intro h
    have hkey := List.find?_some h
    exact ⟨List.mem_of_find?_eq_some h, beq_iff_eq.1 hkey⟩
  · rintro ⟨hx, rfl⟩
    have hsome : (xs.find? (key · == key x)).isSome = true :=
      List.find?_isSome.2 ⟨x, hx, beq_self_eq_true _⟩
    obtain ⟨y, hy⟩ := Option.isSome_iff_exists.1 hsome
    have hkey := List.find?_some hy
    rw [hy, List.inj_on_of_nodup_map hnodup (List.mem_of_find?_eq_some hy) hx (beq_iff_eq.1 hkey)]

theorem find?_key_of_perm {α : Type} {key : α → Name} {xs ys : List α} (h : xs.Perm ys)
    (hnodup : (xs.map key).Nodup) : xs.find? (key · == n) = ys.find? (key · == n) :=
  Option.ext fun x => by
    rw [find?_key_eq_some hnodup, find?_key_eq_some ((h.map key).nodup_iff.1 hnodup), h.mem_iff]

theorem find?_key_map {α : Type} (key : α → Name) {f : α → α} (hρ : Injective ρ)
    (hf : ∀ x, key (f x) = ρ (key x)) (xs : List α) :
    (xs.map f).find? (key · == ρ n) = (xs.find? (key · == n)).map f := by
  rw [List.find?_map]
  congr 2
  funext x
  exact Bool.eq_iff_iff.2 (by simp [hf, hρ.eq_iff])

namespace Renames

variable {t t' : Table} (h : t.Renames ρ t')
include h

theorem nodup_types : (t'.types.map (·.name)).Nodup := by
  refine (h.types.map _).nodup_iff.2 ?_
  rw [List.map_map]
  have hnames : (TypeDecl.name ∘ TypeDecl.rename ρ) = ρ ∘ TypeDecl.name := rfl
  rw [hnames, ← List.map_map]
  exact h.built.nodup_names.1.map h.injective

theorem type? (n : Name) : t'.type? (ρ n) = (t.type? n).map (TypeDecl.rename ρ) :=
  (find?_key_of_perm h.types h.nodup_types).trans
    (find?_key_map TypeDecl.name h.injective (fun _ => rfl) _)

theorem trait? (n : Name) : t'.trait? (ρ n) = (t.trait? n).map (TraitDecl.rename ρ) := by
  unfold Table.trait?
  rw [h.traits]
  exact find?_key_map TraitDecl.name h.injective (fun _ => rfl) _

theorem height : t'.height = t.height := by
  unfold Table.height
  rw [h.types.length_eq, List.length_map]

theorem literalDefault (kind : LiteralKind) :
    t'.literalDefault kind = (t.literalDefault kind).map (Ty.rename ρ) := by
  unfold Table.literalDefault
  rw [h.literalDefaults]
  induction t.literalDefaults with
  | nil => rfl
  | cons p rest ih =>
    rw [List.map_cons, List.lookup_cons, List.lookup_cons, ih]
    cases kind == p.1 <;> rfl

/-! ### Supertypes and traits -/

theorem supertypes (a : Ty) :
    t'.supertypes (a.rename ρ) = (t.supertypes a).map (Ty.rename ρ) := by
  cases a with
  | nominal name args =>
    rw [Ty.rename_nominal, supertypes_nominal, supertypes_nominal, h.type?]
    cases t.type? name with
    | none => rfl
    | some d =>
      show ((d.rename ρ).supertypes).map _ = List.map _ (List.map _ _)
      rw [TypeDecl.rename_arguments, TypeDecl.rename, List.map_map, List.map_map]
      exact List.map_congr_left fun sup _ => (Ty.rename_instantiate h.injective _ sup).symm
  | _ => rfl

theorem successors_supertypeGraph (n : Name) :
    Reach.successors t'.supertypeGraph (ρ n) = (Reach.successors t.supertypeGraph n).map ρ := by
  rw [Table.successors_supertypeGraph, Table.successors_supertypeGraph, h.type?]
  cases t.type? n with
  | none => rfl
  | some d =>
    show ((d.supertypes.map (Ty.rename ρ)).filterMap head?) = (d.supertypes.filterMap head?).map ρ
    rw [List.filterMap_map, List.map_filterMap]
    refine List.filterMap_congr fun sup _ => ?_
    cases sup <;> rfl

theorem inheritsFrom (n m : Name) : t'.inheritsFrom (ρ n) (ρ m) = t.inheritsFrom n m := by
  unfold Table.inheritsFrom
  rw [h.successors_supertypeGraph, reach_map h.successors_supertypeGraph h.injective]
  exact Bool.eq_iff_iff.2 (by simp [List.mem_map_of_injective h.injective])

theorem successors_refinementGraph (n : Name) :
    Reach.successors t'.refinementGraph (ρ n) = (Reach.successors t.refinementGraph n).map ρ := by
  unfold Table.refinementGraph
  rw [successors_map, successors_map]
  show ((t'.trait? (ρ n)).map _).getD [] = List.map ρ (((t.trait? n).map _).getD [])
  rw [h.trait?]
  cases t.trait? n <;> rfl

/-- The traits of a nominal type come in the same order. -/
theorem conformancesWithin : ∀ (fuel : Nat) (head : Name) (args : List Ty),
    t'.conformancesWithin fuel ((Ty.nominal head args).rename ρ) =
      (t.conformancesWithin fuel (.nominal head args)).map ρ
  | 0, _, _ => rfl
  | fuel + 1, head, args => by
    have hall : (t'.supertypes ((Ty.nominal head args).rename ρ)).flatMap
        (t'.conformancesWithin fuel) =
          ((t.supertypes (.nominal head args)).flatMap (t.conformancesWithin fuel)).map ρ := by
      rw [h.supertypes, List.flatMap_map, List.map_flatMap]
      refine List.flatMap_congr fun sup hsup => ?_
      obtain ⟨-, -, head', args', -, rfl, -⟩ := exists_parent h.built.nominal hsup
      exact conformancesWithin fuel head' args'
    unfold Table.conformancesWithin
    rw [hall, Ty.rename_nominal]
    dsimp only
    rw [h.type?]
    cases t.type? head with
    | none => rfl
    | some d =>
      show reach _ (appendNew (d.conformances.map ρ) _) = _
      rw [appendNew_map h.injective, reach_map h.successors_refinementGraph h.injective]

/-- What a type conforms to is the same, with literals apart, whose traits go by their text. -/
theorem mem_conformances (a : Ty) (n : Name) :
    ρ n ∈ t'.conformances (a.rename ρ) ↔ n ∈ t.conformances a := by
  unfold Table.conformances
  rw [h.height]
  cases a with
  | nominal head args =>
    rw [h.conformancesWithin, List.mem_map_of_injective h.injective]
  | existential traits =>
    -- The roots are sorted by handle, so they may come in another order.
    have hroots : ∀ graph, ρ n ∈ reach graph (traits.rename ρ).names ↔
        ρ n ∈ reach graph (traits.names.map ρ) := fun graph => by
      rw [mem_reach, mem_reach]
      exact exists_congr fun r => and_congr_left fun _ => TraitSet.mem_ofList
    refine (hroots _).trans ?_
    rw [reach_map h.successors_refinementGraph h.injective, List.mem_map_of_injective h.injective]
    rfl
  | _ => exact iff_of_false List.not_mem_nil List.not_mem_nil

/-- **The same types conform to the same traits**, if the names known besides are the same. -/
theorem conforms {names known : NameTable}
    (hliteral : ∀ kind n, known.get? (LiteralKind.traitName kind) = some (ρ n) ↔
      names.get? kind.traitName = some n) (a : Ty) (n : Name) :
    ({ t' with names := known } : Table).conforms (a.rename ρ) (ρ n) =
      ({ t with names := names } : Table).conforms a n := by
  rw [Bool.eq_iff_iff]
  cases a with
  | error => exact Iff.rfl
  | literal kind =>
    show (_ == _) = true ↔ (_ == _) = true
    rw [beq_iff_eq, beq_iff_eq]
    exact hliteral kind n
  | _ =>
    unfold Table.conforms
    rw [conformances_unread known t'.literalDefaults, conformances_unread names t.literalDefaults]
    exact List.contains_iff_mem.trans ((h.mem_conformances _ n).trans List.contains_iff_mem.symm)

/-! ### Members -/

theorem ownMembers (a : Ty) (member : Name) :
    t'.ownMembers (a.rename ρ) (ρ member) =
      (t.ownMembers a member).map (Candidate.rename ρ) := by
  cases a with
  | nominal name args =>
    rw [Ty.rename_nominal, ownMembers_nominal, ownMembers_nominal, h.type?]
    cases t.type? name with
    | none => rfl
    | some d =>
      show ((((d.members.map (renameMember ρ)).filter _).map _).map _) = List.map _ (List.map _ _)
      rw [filter_map_renameMember h.injective, TypeDecl.rename_arguments]
      generalize (d.members.filter (·.1 == member)).map (·.2) = declared
      rw [List.map_map, List.map_map]
      exact List.map_congr_left fun c _ => (Candidate.rename_instantiate h.injective _ c).symm
  | _ => rfl

theorem declaredMembersWithin (member : Name) : ∀ (fuel : Nat) (a : Ty),
    t'.declaredMembersWithin fuel (a.rename ρ) (ρ member) =
      (t.declaredMembersWithin fuel a member).map (Candidate.rename ρ)
  | 0, _ => rfl
  | fuel + 1, a => by
    unfold Table.declaredMembersWithin
    rw [h.ownMembers]
    cases t.ownMembers a member with
    | nil =>
      show firstNonempty ((t'.supertypes (a.rename ρ)).map _) = _
      rw [h.supertypes, ← firstNonempty_map, List.map_map, List.map_map]
      congr 1
      exact List.map_congr_left fun sup _ => declaredMembersWithin member fuel sup
    | cons c rest => rfl

theorem requirementsOf (member trait : Name) : t'.requirementsOf (ρ member) (ρ trait) =
    (t.requirementsOf member trait).map (Candidate.rename ρ) := by
  unfold Table.requirementsOf
  rw [h.trait?]
  cases t.trait? trait with
  | none => rfl
  | some d => exact filter_map_renameMember h.injective member d.requirements

theorem requirements (receiver : Ty) (traits : List Name) (member : Name) :
    t'.requirements (receiver.rename ρ) (traits.map ρ) (ρ member) =
      (t.requirements receiver traits member).map (Candidate.rename ρ) := by
  have hrequired : (traits.map ρ).flatMap (t'.requirementsOf (ρ member)) =
      (traits.flatMap (t.requirementsOf member)).map (Candidate.rename ρ) := by
    rw [List.flatMap_map, List.map_flatMap]
    exact List.flatMap_congr fun trait _ => h.requirementsOf member trait
  have hdistinct := foldl_decl_map (ρ := ρ) (traits.flatMap (t.requirementsOf member)) []
  rw [List.map_nil] at hdistinct
  rw [requirements_eq, requirements_eq, hrequired, hdistinct, List.map_map, List.map_map,
    h.selfName]
  refine List.map_congr_left fun c _ => ?_
  exact (Candidate.rename_instantiate h.injective [(t.selfName, receiver)] c).symm

/-- **The members of nominal types are the same**, in the same order. -/
theorem members_nominal (head : Name) (args : List Ty) (member : Name) :
    t'.members (.nominal (ρ head) (args.map (Ty.rename ρ))) (ρ member) =
      (t.members (.nominal head args) member).map (Candidate.rename ρ) := by
  have hdeclared := h.declaredMembersWithin member t.height (.nominal head args)
  have hrequired := h.requirements (.nominal head args)
    (t.conformances (.nominal head args)) member
  unfold Table.conformances at hrequired
  rw [← h.conformancesWithin] at hrequired
  unfold Table.members Table.declaredMembers Table.conformances
  rw [← Ty.rename_nominal, h.height, hdeclared]
  cases t.declaredMembersWithin t.height (.nominal head args) member with
  | cons c rest => rfl
  | nil =>
    rw [List.map_nil]
    dsimp only
    rw [← hrequired, Ty.rename_nominal]

end Renames
end Table
end TypeResolution
