/-
# Substitution in types

How replacing the variables and the parameters of a type acts on its parts. Two replacements
make one (`Ty.subst_subst`), only the leaves that occur matter (`Ty.subst_congr`), a type that
is not a variable keeps its shape (`Ty.shape_mapVars`), and the variables of the result are
those of what is put in (`Ty.mem_vars_subst`). The children of a type are of smaller depth.

Key definitions: `Ty.Hereditary`, `Ty.ErrorFree`, `Ty.LeavesIn`.
Key theorems: `Ty.subst_subst`, `Ty.subst_congr`, `Ty.mem_vars_subst`, `Ty.children_mapVars`,
`Ty.depth_lt_of_mem_children`, `Ty.leavesIn_subst`.
-/
import TypeResolution.Ty.Basic
import Mathlib.Data.List.Basic

namespace TypeResolution
namespace Ty

/-! ### Leaves -/

theorem leaves_nominal (n : Name) (as : List Ty) :
    (Ty.nominal n as).leaves = as.flatMap leaves := leavesAll_eq_flatMap as

theorem leaves_function (ps : List Parameter) (r : Ty) :
    (Ty.function ps r).leaves = ps.flatMap (fun p => p.2.leaves) ++ r.leaves :=
  congrArg (· ++ r.leaves) (leavesParams_eq_flatMap ps)

theorem leaves_tuple (ts : List Ty) : (Ty.tuple ts).leaves = ts.flatMap leaves :=
  leavesAll_eq_flatMap ts

@[simp] theorem vars_var (v : TyVar) : (Ty.var v).vars = [v] := rfl

@[simp] theorem vars_param (n : Name) : (Ty.param n).vars = [] := rfl

@[simp] theorem vars_nominal (n : Name) (as : List Ty) :
    (Ty.nominal n as).vars = as.flatMap vars := by
  rw [vars, leaves_nominal, List.filterMap_flatMap]
  rfl

@[simp] theorem vars_function (ps : List Parameter) (r : Ty) :
    (Ty.function ps r).vars = ps.flatMap (fun p => p.2.vars) ++ r.vars := by
  rw [vars, leaves_function, List.filterMap_append, List.filterMap_flatMap]
  rfl

@[simp] theorem vars_tuple (ts : List Ty) : (Ty.tuple ts).vars = ts.flatMap vars := by
  rw [vars, leaves_tuple, List.filterMap_flatMap]
  rfl

@[simp] theorem vars_existential (s : TraitSet) : (Ty.existential s).vars = [] := rfl

@[simp] theorem vars_literal (k : LiteralKind) : (Ty.literal k).vars = [] := rfl

@[simp] theorem vars_error : Ty.error.vars = [] := rfl

@[simp] theorem vars_unresolved : Ty.unresolved.vars = [] := rfl

@[simp] theorem params_var (v : TyVar) : (Ty.var v).params = [] := rfl

@[simp] theorem params_param (n : Name) : (Ty.param n).params = [n] := rfl

@[simp] theorem params_nominal (n : Name) (as : List Ty) :
    (Ty.nominal n as).params = as.flatMap params := by
  rw [params, leaves_nominal, List.filterMap_flatMap]
  rfl

@[simp] theorem params_function (ps : List Parameter) (r : Ty) :
    (Ty.function ps r).params = ps.flatMap (fun p => p.2.params) ++ r.params := by
  rw [params, leaves_function, List.filterMap_append, List.filterMap_flatMap]
  rfl

@[simp] theorem params_tuple (ts : List Ty) : (Ty.tuple ts).params = ts.flatMap params := by
  rw [params, leaves_tuple, List.filterMap_flatMap]
  rfl

/-- The leaves of a child are leaves of the type. -/
theorem mem_leaves_of_mem_children {t c l : Ty} (hc : c ∈ t.children) (hl : l ∈ c.leaves) :
    l ∈ t.leaves := by
  cases t with
  | nominal n as => exact leaves_nominal n as ▸ List.mem_flatMap.2 ⟨c, hc, hl⟩
  | function ps r =>
    simp only [children, List.mem_append, List.mem_map, List.mem_singleton] at hc
    simp only [leaves_function, List.mem_append, List.mem_flatMap]
    rcases hc with ⟨p, hp, rfl⟩ | rfl
    · exact .inl ⟨p, hp, hl⟩
    · exact .inr hl
  | tuple ts => exact leaves_tuple ts ▸ List.mem_flatMap.2 ⟨c, hc, hl⟩
  | _ => cases hc

/-- The variables of a type are those leaves that are variables. -/
theorem mem_vars_iff {t : Ty} {v : TyVar} : v ∈ t.vars ↔ .var v ∈ t.leaves := by
  rw [vars, List.mem_filterMap]
  constructor
  · rintro ⟨l, hl, hv⟩
    cases l with
    | var w => exact Option.some.inj hv ▸ hl
    | _ => cases hv
  · exact fun hl => ⟨.var v, hl, rfl⟩

/-- The variables of a child are variables of the type. -/
theorem mem_vars_of_mem_children {t c : Ty} {v : TyVar} (hc : c ∈ t.children)
    (hv : v ∈ c.vars) : v ∈ t.vars :=
  mem_vars_iff.2 (mem_leaves_of_mem_children hc (mem_vars_iff.1 hv))

/-- A type without variables has parts without variables. -/
theorem vars_of_mem_children {t c : Ty} (hc : c ∈ t.children) (h : t.vars = []) : c.vars = [] :=
  List.eq_nil_iff_forall_not_mem.2 fun v hv => by
    have hmem := mem_vars_of_mem_children hc hv
    rw [h] at hmem
    cases hmem

/-! ### Replacing leaves -/

@[simp] theorem mapVars_var (f : TyVar → Ty) (v : TyVar) : (Ty.var v).mapVars f = f v := rfl

theorem mapVars_nominal (f : TyVar → Ty) (name : Name) (args : List Ty) :
    (Ty.nominal name args).mapVars f = .nominal name (args.map (mapVars f)) :=
  congrArg (Ty.nominal name) (substAll_eq_map f .param args)

theorem mapVars_function (f : TyVar → Ty) (ps : List Parameter) (r : Ty) :
    (Ty.function ps r).mapVars f = .function (ps.map fun p => (p.1, p.2.mapVars f))
      (r.mapVars f) :=
  congrArg (Ty.function · (r.mapVars f)) (substParams_eq_map f .param ps)

theorem mapVars_tuple (f : TyVar → Ty) (ts : List Ty) :
    (Ty.tuple ts).mapVars f = .tuple (ts.map (mapVars f)) :=
  congrArg Ty.tuple (substAll_eq_map f .param ts)

theorem mapParams_nominal (g : Name → Ty) (name : Name) (args : List Ty) :
    (Ty.nominal name args).mapParams g = .nominal name (args.map (mapParams g)) :=
  congrArg (Ty.nominal name) (substAll_eq_map .var g args)

theorem mapParams_function (g : Name → Ty) (ps : List Parameter) (r : Ty) :
    (Ty.function ps r).mapParams g = .function (ps.map fun p => (p.1, p.2.mapParams g))
      (r.mapParams g) :=
  congrArg (Ty.function · (r.mapParams g)) (substParams_eq_map .var g ps)

theorem mapParams_tuple (g : Name → Ty) (ts : List Ty) :
    (Ty.tuple ts).mapParams g = .tuple (ts.map (mapParams g)) :=
  congrArg Ty.tuple (substAll_eq_map .var g ts)

/-- The type that replacing gives depends on the leaves that occur only. -/
theorem subst_congr {f f' : TyVar → Ty} {g g' : Name → Ty} {t : Ty}
    (hv : ∀ v ∈ t.vars, f v = f' v) (hp : ∀ p ∈ t.params, g p = g' p) :
    t.subst f g = t.subst f' g' := by
  induction t with
  | var v => exact hv v (by simp)
  | param n => exact hp n (by simp)
  | nominal n as ih =>
    simp only [vars_nominal, params_nominal, List.mem_flatMap] at hv hp
    simp only [subst, substAll_eq_map]
    congr 1
    exact List.map_congr_left fun a ha =>
      ih a ha (fun v h => hv v ⟨a, ha, h⟩) fun p h => hp p ⟨a, ha, h⟩
  | function ps r ihp ihr =>
    simp only [vars_function, params_function, List.mem_append, List.mem_flatMap] at hv hp
    simp only [subst, substParams_eq_map]
    rw [ihr (fun v h => hv v (.inr h)) fun p h => hp p (.inr h)]
    congr 1
    exact List.map_congr_left fun p h =>
      congrArg (p.1, ·) (ihp p h (fun v h' => hv v (.inl ⟨p, h, h'⟩)) fun q h' =>
        hp q (.inl ⟨p, h, h'⟩))
  | tuple ts ih =>
    simp only [vars_tuple, params_tuple, List.mem_flatMap] at hv hp
    simp only [subst, substAll_eq_map]
    congr 1
    exact List.map_congr_left fun a ha =>
      ih a ha (fun v h => hv v ⟨a, ha, h⟩) fun p h => hp p ⟨a, ha, h⟩
  | _ => rfl

theorem mapVars_congr {f g : TyVar → Ty} {t : Ty} (h : ∀ v ∈ t.vars, f v = g v) :
    t.mapVars f = t.mapVars g :=
  subst_congr h fun _ _ => rfl

/-- A type without variables is kept. -/
theorem mapVars_eq_self {f : TyVar → Ty} {t : Ty} (h : t.vars = []) : t.mapVars f = t := by
  rw [mapVars_congr (g := .var) fun v hv => by rw [h] at hv; cases hv]
  exact subst_var_param t

/-- Replacing twice is replacing once by what the second time makes of the first one. -/
theorem subst_subst (f f' : TyVar → Ty) (g g' : Name → Ty) (t : Ty) :
    (t.subst f g).subst f' g' =
      t.subst (fun v => (f v).subst f' g') fun p => (g p).subst f' g' := by
  induction t with
  | nominal n as ih =>
    simp only [subst, substAll_eq_map, List.map_map]
    congr 1
    exact List.map_congr_left fun a ha => ih a ha
  | function ps r ihp ihr =>
    simp only [subst, substParams_eq_map, List.map_map, ihr]
    congr 1
    exact List.map_congr_left fun p hp => congrArg (p.1, ·) (ihp p hp)
  | tuple ts ih =>
    simp only [subst, substAll_eq_map, List.map_map]
    congr 1
    exact List.map_congr_left fun a ha => ih a ha
  | _ => rfl

theorem mapVars_mapVars (f g : TyVar → Ty) (t : Ty) :
    (t.mapVars f).mapVars g = t.mapVars fun v => (f v).mapVars g :=
  subst_subst f g .param .param t

theorem mem_flatMap_iff_or {α β γ δ : Type} {xs : List α} {F : α → List β} {V : α → List γ}
    {N : α → List δ} {P : γ → Prop} {Q : δ → Prop} {w : β}
    (h : ∀ x ∈ xs, w ∈ F x ↔ (∃ v ∈ V x, P v) ∨ ∃ p ∈ N x, Q p) :
    w ∈ xs.flatMap F ↔ (∃ v ∈ xs.flatMap V, P v) ∨ ∃ p ∈ xs.flatMap N, Q p := by
  simp only [List.mem_flatMap]
  constructor
  · rintro ⟨x, hx, hw⟩
    rcases (h x hx).1 hw with ⟨v, hv, hP⟩ | ⟨p, hp, hQ⟩
    · exact .inl ⟨v, ⟨x, hx, hv⟩, hP⟩
    · exact .inr ⟨p, ⟨x, hx, hp⟩, hQ⟩
  · rintro (⟨v, ⟨x, hx, hv⟩, hP⟩ | ⟨p, ⟨x, hx, hp⟩, hQ⟩)
    · exact ⟨x, hx, (h x hx).2 (.inl ⟨v, hv, hP⟩)⟩
    · exact ⟨x, hx, (h x hx).2 (.inr ⟨p, hp, hQ⟩)⟩

/-- The variables of the result are those of the types put in. -/
theorem mem_vars_subst {f : TyVar → Ty} {g : Name → Ty} {t : Ty} {w : TyVar} :
    w ∈ (t.subst f g).vars ↔
      (∃ v ∈ t.vars, w ∈ (f v).vars) ∨ ∃ p ∈ t.params, w ∈ (g p).vars := by
  induction t with
  | var v => simp [subst]
  | param n => simp [subst]
  | nominal n as ih =>
    simp only [subst, substAll_eq_map, vars_nominal, params_nominal, List.flatMap_map]
    exact mem_flatMap_iff_or ih
  | function ps r ihp ihr =>
    simp only [subst, substParams_eq_map, vars_function, params_function, List.mem_append,
      List.flatMap_map, ihr, mem_flatMap_iff_or ihp, or_and_right, exists_or]
    exact or_or_or_comm
  | tuple ts ih =>
    simp only [subst, substAll_eq_map, vars_tuple, params_tuple, List.flatMap_map]
    exact mem_flatMap_iff_or ih
  | _ => simp [subst, params, leaves]

theorem mem_vars_mapVars {f : TyVar → Ty} {t : Ty} {w : TyVar} :
    w ∈ (t.mapVars f).vars ↔ ∃ v ∈ t.vars, w ∈ (f v).vars := by
  simp [mapVars, mem_vars_subst]

/-! ### Shapes and children -/

theorem eq_var_of_isVar {t : Ty} (h : t.isVar = true) : ∃ v, t = .var v := by
  cases t with
  | var v => exact ⟨v, rfl⟩
  | _ => cases h

theorem isVar_eq_false {t : Ty} (h : ∀ v, t ≠ .var v) : t.isVar = false := by
  cases t with
  | var v => exact absurd rfl (h v)
  | _ => rfl

theorem isVar_of_vars_eq_nil {t : Ty} (h : t.vars = []) : t.isVar = false :=
  isVar_eq_false fun v hv => by
    rw [hv] at h
    cases h

/-- Replacing variables keeps the shape of a type that is none. -/
theorem shape_mapVars {f : TyVar → Ty} {t : Ty} (h : t.isVar = false) :
    (t.mapVars f).shape = t.shape := by
  cases t with
  | var v => cases h
  | function ps r => simp [mapVars, subst, shape, substParams_eq_map]
  | _ => rfl

theorem children_mapVars {f : TyVar → Ty} {t : Ty} (h : t.isVar = false) :
    (t.mapVars f).children = t.children.map (mapVars f) := by
  cases t with
  | var v => cases h
  | nominal n as => simp [mapVars, subst, children, substAll_eq_map]
  | function ps r => simp [mapVars, subst, children, substParams_eq_map]
  | tuple ts => simp [mapVars, subst, children, substAll_eq_map]
  | _ => rfl

theorem isVar_mapVars {f : TyVar → Ty} {t : Ty} (h : t.isVar = false) :
    (t.mapVars f).isVar = false := by
  cases t with
  | var v => cases h
  | _ => rfl

/-- A type is its shape and its children. -/
theorem eq_of_children {a b : Ty} (hshape : a.shape = b.shape) (h : a.children = b.children) :
    a = b := by
  cases a with
  | function ps r =>
    cases b with
    | function qs u =>
      obtain ⟨hparams, hresult⟩ := List.append_inj' h rfl
      have hps : ps = qs :=
        calc
          ps = (ps.map (·.1)).zip (ps.map (·.2)) := List.zip_of_prod rfl rfl
          _ = (qs.map (·.1)).zip (qs.map (·.2)) := by rw [Shape.function.inj hshape, hparams]
          _ = qs := (List.zip_of_prod rfl rfl).symm
      rw [hps, List.singleton_inj.1 hresult]
    | _ => cases hshape
  | _ =>
    cases b <;> cases hshape
    all_goals first | rfl | exact congrArg _ h

/-- Types that are no variables become equal if they have one shape and their children become
equal one by one. -/
theorem mapVars_eq_iff {f : TyVar → Ty} {a b : Ty} (ha : a.isVar = false)
    (hb : b.isVar = false) :
    a.mapVars f = b.mapVars f ↔ (a.shape = b.shape ∧ a.children.length = b.children.length) ∧
      ∀ p ∈ a.children.zip b.children, p.1.mapVars f = p.2.mapVars f := by
  rw [← shape_mapVars (f := f) ha, ← shape_mapVars (f := f) hb]
  constructor
  · intro h
    have hchildren : a.children.map (mapVars f) = b.children.map (mapVars f) := by
      rw [← children_mapVars ha, ← children_mapVars hb, h]
    have hlength : a.children.length = b.children.length := by
      simpa using congrArg List.length hchildren
    refine ⟨⟨congrArg shape h, hlength⟩, fun p hp => ?_⟩
    obtain ⟨i, hi, rfl⟩ := List.mem_iff_getElem.1 hp
    rw [List.length_zip] at hi
    have hget := List.getElem_of_eq hchildren (i := i) (by simp; omega)
    simpa using hget
  · rintro ⟨⟨hshape, hlength⟩, h⟩
    refine eq_of_children hshape ?_
    rw [children_mapVars ha, children_mapVars hb]
    refine List.ext_getElem (by simpa using hlength) fun i hi hi' => ?_
    rw [List.length_map] at hi hi'
    have hp := h (a.children[i], b.children[i])
      (List.mem_iff_getElem.2 ⟨i, by rw [List.length_zip]; omega, by simp⟩)
    simpa using hp

/-! ### Depth -/

theorem depth_lt_depthAll {ts : List Ty} {t : Ty} (h : t ∈ ts) : t.depth < depthAll ts := by
  induction ts with
  | nil => cases h
  | cons a ts ih =>
    simp only [depthAll]
    rcases List.mem_cons.1 h with rfl | h
    · omega
    · have := ih h
      omega

theorem depth_lt_depthParams {ps : List Parameter} {p : Parameter} (h : p ∈ ps) :
    p.2.depth < depthParams ps := by
  induction ps with
  | nil => cases h
  | cons q ps ih =>
    obtain ⟨c, t⟩ := q
    simp only [depthParams]
    rcases List.mem_cons.1 h with rfl | h
    · show t.depth < _
      omega
    · have := ih h
      omega

/-- A child has fewer levels than the type. -/
theorem depth_lt_of_mem_children {t c : Ty} (h : c ∈ t.children) : c.depth < t.depth := by
  cases t with
  | nominal n as => exact depth_lt_depthAll h
  | function ps r =>
    simp only [children, List.mem_append, List.mem_map, List.mem_singleton] at h
    simp only [depth]
    rcases h with ⟨p, hp, rfl⟩ | rfl
    · have := depth_lt_depthParams hp
      omega
    · omega
  | tuple ts => exact depth_lt_depthAll h
  | _ => cases h

/-- A variable of a type that is no variable is one of a child. -/
theorem exists_mem_children_of_mem_vars {t : Ty} {v : TyVar} (h : t.isVar = false)
    (hv : v ∈ t.vars) : ∃ c ∈ t.children, v ∈ c.vars := by
  cases t with
  | var v => cases h
  | nominal n as => exact List.mem_flatMap.1 (vars_nominal n as ▸ hv)
  | function ps r =>
    rw [vars_function, List.mem_append, List.mem_flatMap] at hv
    rcases hv with ⟨p, hp, hv⟩ | hv
    · exact ⟨p.2, List.mem_append_left _ (List.mem_map.2 ⟨p, hp, rfl⟩), hv⟩
    · exact ⟨r, List.mem_append_right _ (List.mem_singleton.2 rfl), hv⟩
  | tuple ts => exact List.mem_flatMap.1 (vars_tuple ts ▸ hv)
  | _ => cases hv

theorem mapVars_mem_children {f : TyVar → Ty} {t c : Ty} (h : t.isVar = false)
    (hc : c ∈ t.children) : c.mapVars f ∈ (t.mapVars f).children := by
  rw [children_mapVars h]
  exact List.mem_map.2 ⟨c, hc, rfl⟩

/-- What is put in for a variable has no more levels than the result. -/
theorem depth_le_mapVars {f : TyVar → Ty} {v : TyVar} (t : Ty) (hv : v ∈ t.vars) :
    (f v).depth ≤ (t.mapVars f).depth := by
  cases hvar : t.isVar with
  | true =>
    obtain ⟨w, rfl⟩ := eq_var_of_isVar hvar
    rw [List.mem_singleton.1 hv]
    exact Nat.le_refl _
  | false =>
    obtain ⟨c, hc, hv⟩ := exists_mem_children_of_mem_vars hvar hv
    have hlt := depth_lt_of_mem_children hc
    have hlt' := depth_lt_of_mem_children (mapVars_mem_children (f := f) hvar hc)
    have hle := depth_le_mapVars (f := f) c hv
    omega
termination_by t.depth

/-- What is put in for a variable has fewer levels than the result, unless it is the result. -/
theorem depth_lt_mapVars {f : TyVar → Ty} {v : TyVar} {t : Ty} (h : t.isVar = false)
    (hv : v ∈ t.vars) : (f v).depth < (t.mapVars f).depth := by
  obtain ⟨c, hc, hv⟩ := exists_mem_children_of_mem_vars h hv
  have hlt := depth_lt_of_mem_children (mapVars_mem_children (f := f) h hc)
  have hle := depth_le_mapVars (f := f) c hv
  omega

/-! ### Properties of parts -/

/-- The property holds of every variable, and of the children of a type if it does of the
type. -/
structure Hereditary (P : Ty → Prop) : Prop where
  var : ∀ v, P (.var v)
  child : ∀ {t c : Ty}, P t → c ∈ t.children → P c

theorem hereditary_depth_le (levels : Nat) : Hereditary fun t => t.depth ≤ levels where
  var _ := Nat.zero_le _
  child ht hc := Nat.le_trans (Nat.le_of_lt (depth_lt_of_mem_children hc)) ht

/-- No part is of the error type. -/
def ErrorFree (t : Ty) : Prop := .error ∉ t.leaves

instance (t : Ty) : Decidable t.ErrorFree := inferInstanceAs (Decidable (¬ .error ∈ t.leaves))

theorem hereditary_errorFree : Hereditary ErrorFree where
  var v h := by cases List.mem_singleton.1 h
  child ht hc h := ht (mem_leaves_of_mem_children hc h)

/-! ### Leaves of a kind -/

/-- Every leaf is of the kind. -/
def LeavesIn (Q : Ty → Prop) (t : Ty) : Prop := ∀ l ∈ t.leaves, Q l

/-- A generic parameter, or a leaf of the kind. -/
def OrParam (Q : Ty → Prop) (l : Ty) : Prop := Q l ∨ ∃ name, l = .param name

variable {Q Q' : Ty → Prop} {t : Ty} {f : TyVar → Ty} {g : Name → Ty}

theorem LeavesIn.mono (h : t.LeavesIn Q) (hQ : ∀ l, Q l → Q' l) : t.LeavesIn Q' :=
  fun l hl => hQ l (h l hl)

theorem LeavesIn.of_mem_children {c : Ty} (h : t.LeavesIn Q) (hc : c ∈ t.children) :
    c.LeavesIn Q := fun l hl => h l (mem_leaves_of_mem_children hc hl)

/-- A type without parts is its only leaf. -/
theorem leavesIn_singleton {l : Ty} (hl : l.leaves = [l]) (h : Q l) : l.LeavesIn Q :=
  fun x hx => by
    rw [hl, List.mem_singleton] at hx
    exact hx ▸ h

theorem hereditary_leavesIn (hvar : ∀ v, Q (.var v)) : Hereditary (LeavesIn Q) where
  var v := leavesIn_singleton rfl (hvar v)
  child h hc := h.of_mem_children hc

theorem LeavesIn.errorFree (h : t.LeavesIn Q) (hQ : ¬ Q .error) : t.ErrorFree :=
  fun hl => hQ (h _ hl)

theorem mem_params_iff {p : Name} : p ∈ t.params ↔ .param p ∈ t.leaves := by
  rw [params, List.mem_filterMap]
  constructor
  · rintro ⟨l, hl, hp⟩
    cases l with
    | param n => exact Option.some.inj hp ▸ hl
    | _ => cases hp
  · exact fun hl => ⟨.param p, hl, rfl⟩

/-- The leaves of the result are those that come of the leaves. -/
theorem leaves_subst (f : TyVar → Ty) (g : Name → Ty) (t : Ty) :
    (t.subst f g).leaves = t.leaves.flatMap fun l => (l.subst f g).leaves := by
  induction t with
  | nominal n as ih =>
    rw [subst, substAll_eq_map, leaves_nominal, leaves_nominal, List.flatMap_map,
      List.flatMap_assoc]
    exact List.flatMap_congr ih
  | function ps r ihp ihr =>
    rw [subst, substParams_eq_map, leaves_function, leaves_function, List.flatMap_map,
      List.flatMap_append, List.flatMap_assoc, ihr]
    congr 1
    exact List.flatMap_congr ihp
  | tuple ts ih =>
    rw [subst, substAll_eq_map, leaves_tuple, leaves_tuple, List.flatMap_map, List.flatMap_assoc]
    exact List.flatMap_congr ih
  | _ => exact (List.flatMap_singleton _ _).symm

/-- A leaf that is not replaced stays as it is, and is its only leaf. -/
theorem subst_leaf {l : Ty} (h : l ∈ t.leaves) (hvar : ∀ v, l ≠ .var v) (hparam : ∀ p, l ≠ .param p)
    (f : TyVar → Ty) (g : Name → Ty) : l.subst f g = l ∧ l.leaves = [l] := by
  induction t with
  | nominal n as ih =>
    rw [leaves_nominal] at h
    obtain ⟨a, ha, h⟩ := List.mem_flatMap.1 h
    exact ih a ha h
  | function ps r ihp ihr =>
    rw [leaves_function] at h
    rcases List.mem_append.1 h with h | h
    · obtain ⟨p, hp, h⟩ := List.mem_flatMap.1 h
      exact ihp p hp h
    · exact ihr h
  | tuple ts ih =>
    rw [leaves_tuple] at h
    obtain ⟨a, ha, h⟩ := List.mem_flatMap.1 h
    exact ih a ha h
  | var v => exact absurd (List.mem_singleton.1 h) (hvar v)
  | param p => exact absurd (List.mem_singleton.1 h) (hparam p)
  | _ =>
    rw [List.mem_singleton.1 h]
    exact ⟨rfl, rfl⟩

/-- The leaves of the result are those of the types put in, and those that were kept. -/
theorem leavesIn_subst (h : ∀ l ∈ t.leaves, l.isVar = false → (∀ p, l ≠ .param p) → Q l)
    (hf : ∀ v ∈ t.vars, (f v).LeavesIn Q) (hg : ∀ p ∈ t.params, (g p).LeavesIn Q) :
    (t.subst f g).LeavesIn Q := by
  intro l hl
  rw [leaves_subst] at hl
  obtain ⟨x, hx, hl⟩ := List.mem_flatMap.1 hl
  by_cases hvar : ∃ v, x = .var v
  · obtain ⟨v, rfl⟩ := hvar
    exact hf v (mem_vars_iff.2 hx) l hl
  by_cases hparam : ∃ p, x = .param p
  · obtain ⟨p, rfl⟩ := hparam
    exact hg p (mem_params_iff.2 hx) l hl
  · rw [not_exists] at hvar hparam
    obtain ⟨hsame, hleaves⟩ := subst_leaf hx hvar hparam f g
    rw [hsame, hleaves, List.mem_singleton] at hl
    exact hl ▸ h x hx (isVar_eq_false hvar) hparam

/-- What is put in for parameters instead of variables makes no other leaves. -/
theorem LeavesIn.subst_of_mapVars (h : (t.mapVars f).LeavesIn Q)
    (hg : ∀ p ∈ t.params, (g p).LeavesIn Q) : (t.subst f g).LeavesIn Q := by
  have hmem : ∀ x ∈ t.leaves, ∀ l ∈ (x.mapVars f).leaves, Q l := fun x hx l hl => by
    refine h l ?_
    unfold mapVars
    rw [leaves_subst]
    exact List.mem_flatMap.2 ⟨x, hx, hl⟩
  refine leavesIn_subst (fun l hl hvar hparam => ?_) (fun v hv => hmem _ (mem_vars_iff.1 hv)) hg
  have hvar : ∀ v, l ≠ .var v := fun v heq => by
    rw [heq] at hvar
    cases hvar
  obtain ⟨hsame, hleaves⟩ := subst_leaf hl hvar hparam f .param
  refine hmem l hl l ?_
  show l ∈ (l.subst f .param).leaves
  rw [hsame, hleaves]
  exact List.mem_singleton.2 rfl

theorem LeavesIn.mapVars (h : t.LeavesIn Q) (hf : ∀ v ∈ t.vars, (f v).LeavesIn Q) :
    (t.mapVars f).LeavesIn Q :=
  leavesIn_subst (fun l hl _ _ => h l hl) hf fun _ hp =>
    leavesIn_singleton rfl (h _ (mem_params_iff.1 hp))

/-- No parameter is left if all of them are replaced. -/
theorem LeavesIn.mapParams (h : t.LeavesIn (OrParam Q)) (hg : ∀ p ∈ t.params, (g p).LeavesIn Q) :
    (t.mapParams g).LeavesIn Q :=
  leavesIn_subst (fun l hl _ hparam => (h l hl).resolve_right fun ⟨p, hp⟩ => hparam p hp)
    (fun _ hv => leavesIn_singleton rfl ((h _ (mem_vars_iff.1 hv)).resolve_right nofun)) hg

end Ty
end TypeResolution
