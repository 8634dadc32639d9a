/-
# Building a table in place

The operations that build a table change it where it is: each goes through its checks, takes the
declaration that it registers, and then changes one entry. The declarations that are taken are kept
beside the table. An operation that is refused has changed nothing, since nothing is taken before
the last check that can fail; and in place or not, the operations come to the same
(`Registry.perform_eq`). So what is refused may as well not have been asked for
(`Registry.run_refused`).

Key definitions: `Registry`, `Table.Operation`, `Table.Operation.on`, `Registry.perform`,
`Registry.run`, `Registry.Consistent`.
Key theorems: `Registry.perform_eq`, `Registry.consistent_run`, `Registry.run_refused`,
`Registry.integrity_run`.
-/
import TypeResolution.Proofs.Table.Integrity
import TypeResolution.Proofs.Table.Subtyping

namespace TypeResolution

/-- A table that is being built, and the declarations that are taken. -/
structure Registry where
  table : Table
  claimed : List DeclId

/-- A step of building, which may be refused. -/
abbrev Build := ExceptT TableError (StateM Registry)

/-! ### Operations -/

namespace Table

/-- What a table can be asked to do while it is built. -/
inductive Operation where
  | declareTrait (name : Name) (refines : List Name)
  | declareType (name : Name) (params : List Name)
  | addConformance (type trait : Name)
  | addSupertype (type : Name) (supertype : Ty)
  | addMember (type member : Name) (c : Candidate)
  | addRequirement (trait member : Name) (decl : DeclId) (type : Ty)
  | setLiteralDefault (kind : LiteralKind) (type : Ty)

namespace Operation

/-- The table after the operation, or why it is refused. -/
def on (t : Table) : Operation → Except TableError Table
  | declareTrait name refines => t.declareTrait name refines
  | declareType name params => t.declareType name params
  | addConformance type trait => t.addConformance type trait
  | addSupertype type supertype => t.addSupertype type supertype
  | addMember type member c => t.addMember type member c
  | addRequirement trait member decl type => t.addRequirement trait member decl type
  | setLiteralDefault kind type => .ok (t.setLiteralDefault kind type)

/-- The declarations that the operation registers. -/
def claims : Operation → List DeclId
  | addMember _ _ c => [c.decl]
  | addRequirement _ _ decl _ => [decl]
  | _ => []

end Operation

variable {table table' : Table} {op : Operation}

theorem Built.on (h : Built table) (hok : op.on table = .ok table') : Built table' := by
  cases op with
  | declareTrait name refines => exact h.declareTrait name refines hok
  | declareType name params => exact h.declareType name params hok
  | addConformance type trait => exact h.addConformance type trait hok
  | addSupertype type supertype => exact h.addSupertype type supertype hok
  | addMember type member c => exact h.addMember type member c hok
  | addRequirement trait member decl type => exact h.addRequirement trait member decl type hok
  | setLiteralDefault kind type =>
    obtain rfl := Except.ok.inj hok
    exact h.setLiteralDefault kind type

/-- An operation registers its own declarations and no others. -/
theorem Built.mem_decls_on (h : Built table) (hok : op.on table = .ok table') {d : DeclId} :
    d ∈ table'.decls ↔ d ∈ op.claims ++ table.decls := by
  cases op with
  | declareTrait name refines => rw [decls_declareTrait hok]; rfl
  | declareType name params => rw [decls_declareType hok]; rfl
  | addConformance type trait => rw [decls_addConformance hok]; rfl
  | addSupertype type supertype => rw [decls_addSupertype hok]; rfl
  | addMember type member c => exact (perm_decls_addMember h.nodup_names.1 hok).mem_iff
  | addRequirement trait member decl type =>
    exact (perm_decls_addRequirement h.nodup_names.2 hok).mem_iff
  | setLiteralDefault kind type =>
    obtain rfl := Except.ok.inj hok
    rfl

end Table

namespace Registry

/-- The registry without declarations. -/
def ofNames (names : NameTable) : Registry := ⟨.ofNames names, []⟩

/-! ### Steps in place -/

/-- Refuses to go on from some registries. -/
def refuse (p : Registry → Bool) (e : TableError) : Build Unit := do
  let r ← get
  if p r then throw e

def change (f : Table → Table) : Build Unit := modify fun r => { r with table := f r.table }

def checkTrait (name : Name) : Build Unit :=
  refuse (fun r => (r.table.trait? name).isNone) (.unknownTrait name)

def checkTraits : List Name → Build Unit
  | [] => pure ()
  | name :: rest => do
    checkTrait name
    checkTraits rest

def checkType (name : Name) : Build Unit :=
  refuse (fun r => (r.table.type? name).isNone) (.unknownType name)

/-- Takes a declaration that is not taken. -/
def claim (decl : DeclId) : Build Unit := do
  refuse (fun r => decl ∈ r.claimed) (.duplicateDecl decl)
  modify fun r => { r with claimed := decl :: r.claimed }

/-- Changes a type that is declared. -/
def changeType (name : Name) (f : TypeDecl → TypeDecl) : Build Unit := do
  checkType name
  change fun t => t.modifyType name f

def declareTrait (name : Name) (refines : List Name) : Build Unit := do
  refuse (fun r => (r.table.trait? name).isSome) (.duplicateTrait name)
  checkTraits refines
  change fun t => { t with traits := t.traits ++ [⟨name, refines, []⟩] }

def declareType (name : Name) (params : List Name) : Build Unit := do
  refuse (fun r => (r.table.type? name).isSome) (.duplicateType name)
  change fun t => { t with types := t.types ++ [⟨name, params, [], [], []⟩] }

def addConformance (type trait : Name) : Build Unit := do
  checkTrait trait
  changeType type fun d =>
    if trait ∈ d.conformances then d else { d with conformances := d.conformances ++ [trait] }

def addSupertype (type : Name) (supertype : Ty) : Build Unit :=
  match supertype with
  | .nominal head args => do
    refuse (fun r => (r.table.type? head).isNone) (.invalidSupertype type)
    refuse (fun r => head = type ∨ r.table.inheritsFrom head type) (.cyclicSupertype type head)
    changeType type fun d => { d with supertypes := d.supertypes ++ [.nominal head args] }
  | _ => throw (.invalidSupertype type)

def addMember (type member : Name) (c : Candidate) : Build Unit := do
  checkType type
  checkTraits (c.generics.flatMap (·.bounds))
  claim c.decl
  changeType type fun d => { d with members := d.members ++ [(member, c)] }

def addRequirement (trait member : Name) (decl : DeclId) (type : Ty) : Build Unit := do
  checkTrait trait
  claim decl
  change fun t => t.modifyTrait trait fun d =>
    { d with requirements := d.requirements ++ [(member, .plain decl type)] }

/-- The operation in place. -/
def build : Table.Operation → Build Unit
  | .declareTrait name refines => declareTrait name refines
  | .declareType name params => declareType name params
  | .addConformance type trait => addConformance type trait
  | .addSupertype type supertype => addSupertype type supertype
  | .addMember type member c => addMember type member c
  | .addRequirement trait member decl type => addRequirement trait member decl type
  | .setLiteralDefault kind type => change fun t => t.setLiteralDefault kind type

/-- The answer to an operation, and the registry that it leaves. -/
def perform (op : Table.Operation) (r : Registry) : Except TableError Unit × Registry :=
  (build op).run.run r

/-- The answers to operations one after the other, whether or not they are refused, and the
registry that they leave. -/
def run : List Table.Operation → Registry → List (Except TableError Unit) × Registry
  | [], r => ([], r)
  | op :: ops, r =>
    let (answer, r) := perform op r
    let (answers, r) := run ops r
    (answer :: answers, r)

/-! ### In place and not -/

variable {r : Registry} {x : Build Unit} {rest : Unit → Build Unit} {claims : List DeclId}
variable {e : TableError} {op : Table.Operation} {names : NameTable}

/-- The step in place leaves the table that is the outcome, with these declarations taken, or is
refused and leaves everything as it was. -/
def Agrees (r : Registry) (claims : List DeclId) (x : Build Unit)
    (outcome : Except TableError Table) : Prop :=
  x.run.run r = match outcome with
    | .ok t => (.ok (), ⟨t, claims ++ r.claimed⟩)
    | .error e => (.error e, r)

theorem run_bind : (x >>= rest).run.run r = match x.run.run r with
    | (.ok _, r') => (rest ()).run.run r'
    | (.error e, r') => (.error e, r') := by
  rw [ExceptT.run_bind, StateT.run_bind]
  rcases x.run.run r with ⟨e | _, r'⟩ <;> rfl

theorem run_refuse (p : Registry → Bool) (e : TableError) (r : Registry) :
    (refuse p e).run.run r = (if p r then .error e else .ok (), r) := by
  show (if p r then throw e else pure () : Build Unit).run.run r = _
  split <;> rfl

theorem run_checkTrait (name : Name) (r : Registry) :
    (checkTrait name).run.run r = (r.table.checkTraits [name], r) := by
  unfold checkTrait Table.checkTraits
  rw [run_refuse]
  cases r.table.trait? name <;> rfl

theorem run_checkTraits : ∀ (names : List Name) (r : Registry),
    (checkTraits names).run.run r = (r.table.checkTraits names, r)
  | [], r => rfl
  | name :: names, r => by
    unfold checkTraits Table.checkTraits checkTrait
    rw [run_bind, run_refuse]
    cases r.table.trait? name with
    | none => rfl
    | some d => exact run_checkTraits names r

theorem run_claim (decl : DeclId) (r : Registry) :
    (claim decl).run.run r = if decl ∈ r.claimed then (.error (.duplicateDecl decl), r)
      else (.ok (), ⟨r.table, decl :: r.claimed⟩) := by
  unfold claim
  rw [run_bind, run_refuse]
  by_cases h : decl ∈ r.claimed
  · rw [if_pos h, decide_eq_true h]
    rfl
  · rw [if_neg h, decide_eq_false h]
    rfl

theorem agrees_change (f : Table → Table) : Agrees r [] (change f) (.ok (f r.table)) := rfl

theorem agrees_refuse {p : Registry → Bool} {q : Prop} [Decidable q] {e : TableError}
    {rest' : PUnit → Except TableError Table} (hp : p r = true ↔ q)
    (h : ¬ q → Agrees r claims (rest ()) (rest' ())) :
    Agrees r claims (refuse p e >>= rest) (if q then throw e >>= rest' else rest' ()) := by
  unfold Agrees
  rw [run_bind, run_refuse]
  by_cases hq : q
  · rw [if_pos (hp.2 hq), if_pos hq]
    rfl
  · rw [if_neg (mt hp.1 hq), if_neg hq]
    exact h hq

theorem agrees_check {check : Build Unit} {check' : Except TableError Unit}
    {rest' : Unit → Except TableError Table} (hcheck : check.run.run r = (check', r))
    (h : Agrees r claims (rest ()) (rest' ())) :
    Agrees r claims (check >>= rest) (check' >>= rest') := by
  unfold Agrees
  rw [run_bind, hcheck]
  cases check' with
  | error e => rfl
  | ok _ => exact h

/-- A declaration is taken after all checks. -/
theorem agrees_claim {decl : DeclId} {rest' : PUnit → Except TableError Table} {t : Table}
    (hclaimed : decl ∈ r.claimed ↔ decl ∈ r.table.decls) (ht : rest' () = .ok t)
    (h : Agrees ⟨r.table, decl :: r.claimed⟩ [] (rest ()) (.ok t)) :
    Agrees r [decl] (claim decl >>= rest)
      (if decl ∈ r.table.decls then throw (.duplicateDecl decl) >>= rest' else rest' ()) := by
  unfold Agrees
  rw [run_bind, run_claim]
  by_cases hdecl : decl ∈ r.table.decls
  · rw [if_pos (hclaimed.2 hdecl), if_pos hdecl]
    rfl
  · rw [if_neg (mt hclaimed.1 hdecl), if_neg hdecl, ht]
    exact h

theorem agrees_changeType {name : Name} {f : TypeDecl → TypeDecl}
    (h : (r.table.type? name).isSome = true) :
    Agrees r [] (changeType name f) (.ok (r.table.modifyType name f)) := by
  unfold Agrees changeType checkType
  rw [run_bind, run_refuse, if_neg (by simpa using Option.isSome_iff_ne_none.1 h)]
  rfl

/-- A registry in which the declarations that are taken are those of a table that was built. -/
structure Consistent (r : Registry) : Prop where
  built : r.table.Built
  mem_claimed : ∀ d, d ∈ r.claimed ↔ d ∈ r.table.decls

theorem consistent_ofNames (names : NameTable) : (ofNames names).Consistent where
  built := .ofNames names
  mem_claimed _ := Iff.rfl

theorem agrees_declareTrait (name : Name) (refines : List Name) :
    Agrees r [] (declareTrait name refines) (r.table.declareTrait name refines) := by
  unfold declareTrait Table.declareTrait
  refine agrees_refuse Iff.rfl fun _ => ?_
  refine agrees_check (run_checkTraits _ r) ?_
  exact agrees_change _

theorem agrees_declareType (name : Name) (params : List Name) :
    Agrees r [] (declareType name params) (r.table.declareType name params) := by
  unfold declareType Table.declareType
  refine agrees_refuse Iff.rfl fun _ => ?_
  exact agrees_change _

theorem agrees_addConformance (type trait : Name) :
    Agrees r [] (addConformance type trait) (r.table.addConformance type trait) := by
  unfold addConformance Table.addConformance changeType checkType
  refine agrees_check (run_checkTrait trait r) ?_
  refine agrees_refuse Iff.rfl fun _ => ?_
  exact agrees_change _

theorem agrees_addSupertype (type : Name) (supertype : Ty) :
    Agrees r [] (addSupertype type supertype) (r.table.addSupertype type supertype) := by
  unfold addSupertype Table.addSupertype
  cases supertype with
  | nominal head args =>
    refine agrees_refuse Iff.rfl fun _ => ?_
    refine agrees_refuse decide_eq_true_iff fun _ => ?_
    unfold changeType checkType
    refine agrees_refuse Iff.rfl fun _ => ?_
    exact agrees_change _
  | _ => rfl

theorem agrees_addMember (type member : Name) (c : Candidate)
    (hclaimed : c.decl ∈ r.claimed ↔ c.decl ∈ r.table.decls) :
    Agrees r [c.decl] (addMember type member c) (r.table.addMember type member c) := by
  unfold addMember Table.addMember checkType
  refine agrees_refuse Iff.rfl fun htype => ?_
  rw [Bool.not_eq_true, Option.isNone_eq_false_iff] at htype
  refine agrees_check (run_checkTraits _ r) ?_
  refine agrees_claim hclaimed rfl ?_
  exact agrees_changeType htype

theorem agrees_addRequirement (trait member : Name) (decl : DeclId) (type : Ty)
    (hclaimed : decl ∈ r.claimed ↔ decl ∈ r.table.decls) :
    Agrees r [decl] (addRequirement trait member decl type)
      (r.table.addRequirement trait member decl type) := by
  unfold addRequirement Table.addRequirement
  refine agrees_check (run_checkTrait trait r) ?_
  refine agrees_claim hclaimed rfl ?_
  exact agrees_change _

/-- **In place or not, the operations come to the same.** An operation that is refused leaves the
registry as it was. -/
theorem perform_eq (h : r.Consistent) (op : Table.Operation) :
    perform op r = match op.on r.table with
      | .ok t => (.ok (), ⟨t, op.claims ++ r.claimed⟩)
      | .error e => (.error e, r) := by
  show Agrees r op.claims (build op) (op.on r.table)
  cases op with
  | declareTrait name refines => exact agrees_declareTrait name refines
  | declareType name params => exact agrees_declareType name params
  | addConformance type trait => exact agrees_addConformance type trait
  | addSupertype type supertype => exact agrees_addSupertype type supertype
  | addMember type member c => exact agrees_addMember type member c (h.mem_claimed _)
  | addRequirement trait member decl type =>
    exact agrees_addRequirement trait member decl type (h.mem_claimed _)
  | setLiteralDefault kind type => rfl

theorem Consistent.perform (h : r.Consistent) (op : Table.Operation) :
    (perform op r).2.Consistent := by
  rw [perform_eq h]
  cases hon : op.on r.table with
  | error e => exact h
  | ok t =>
    refine ⟨h.built.on hon, fun d => ?_⟩
    rw [h.built.mem_decls_on hon, List.mem_append, List.mem_append, h.mem_claimed]

/-- Every registry that is built is consistent. -/
theorem consistent_run : ∀ (ops : List Table.Operation) {r : Registry}, r.Consistent →
    (run ops r).2.Consistent
  | [], _, h => h
  | op :: ops, _, h => consistent_run ops (h.perform op)

/-- An operation that is refused changes nothing, neither the registry nor what is answered later. -/
theorem run_refused (h : r.Consistent) (hrefused : (perform op r).1 = .error e)
    (later : List Table.Operation) :
    run (op :: later) r = (.error e :: (run later r).1, (run later r).2) := by
  have hperform : Registry.perform op r = (.error e, r) := by
    rw [perform_eq h] at hrefused ⊢
    cases hon : op.on r.table with
    | error e' =>
      rw [hon] at hrefused
      rw [Except.error.inj hrefused]
    | ok t =>
      rw [hon] at hrefused
      cases hrefused
  rw [run, hperform]

/-- **A table keeps its integrity while it is built**, whatever it is asked to do. Each operation
comes to what it comes to on tables; if it is refused, then the registry is as it was, and whatever
is asked for later is answered as if the operation had not been asked for. The recursive questions
to the table come to an end on every type. -/
theorem integrity_run (names : NameTable) (ops : List Table.Operation) :
    let r := (run ops (ofNames names)).2
    r.table.Integrity ∧
    (∀ op, perform op r = match op.on r.table with
      | .ok t => (.ok (), ⟨t, op.claims ++ r.claimed⟩)
      | .error e => (.error e, r)) ∧
    (∀ op e, (perform op r).1 = .error e → (perform op r).2 = r ∧
      ∀ later, run (op :: later) r = (.error e :: (run later r).1, (run later r).2)) ∧
    r.table.conformanceRecursion.Computes r.table.conformances ∧
    (∀ member, (r.table.memberRecursion member).Computes (r.table.declaredMembers · member)) ∧
    (∀ type target found, (r.table.supertypeSearch target).Returns (r.table.supertypes type, []) found ↔
      found = r.table.findSupertype type target) ∧
    r.table.subtypeRecursion.Computes fun p => r.table.isSubtype p.1 p.2 := by
  intro r
  have h : r.Consistent := consistent_run ops (consistent_ofNames names)
  have hnominal := h.built.nominal
  have hacyclic := h.built.acyclic
  refine ⟨h.built.integrity, perform_eq h, fun op e hrefused => ⟨?_, run_refused h hrefused⟩,
    Table.conformanceRecursion_computes hnominal hacyclic,
    Table.memberRecursion_computes hnominal hacyclic,
    fun type target => Table.supertypeSearch_returns hnominal hacyclic target type,
    Table.subtypeRecursion_computes hnominal hacyclic⟩
  have hnone := run_refused h hrefused []
  exact congrArg Prod.snd hnone

/-- A type is not made a supertype of its own supertype, and nothing comes of the attempt. -/
theorem integrity_run_cycle :
    let ops : List Table.Operation :=
      [.declareType ⟨1⟩ [], .declareType ⟨2⟩ [], .addSupertype ⟨1⟩ (.nominal ⟨2⟩ [])]
    let r := (run ops (ofNames .empty)).2
    let circle : Table.Operation := .addSupertype ⟨2⟩ (.nominal ⟨1⟩ [])
    (perform circle r).1 = .error (.cyclicSupertype ⟨2⟩ ⟨1⟩) ∧ (perform circle r).2 = r := by
  intro ops r circle
  obtain ⟨-, -, hrefused, -⟩ := integrity_run .empty ops
  have hcircle : (perform circle r).1 = .error (.cyclicSupertype ⟨2⟩ ⟨1⟩) := by decide +kernel
  exact ⟨hcircle, (hrefused circle _ hcircle).1⟩

end Registry
end TypeResolution
