/-
# The store of variables

A store says what each variable stands for. Variables form classes; every variable of a class
leads by links to the root of the class, which is unbound and has a rank, or bound to a type
that is no variable. Looking a variable up shortens the links on its way.

Every change that is made while a snapshot is open goes to the log, the newest change first.
Restoring a snapshot takes back the changes made since and leaves the snapshot open;
committing it keeps them, but leaves them in the log while another snapshot is open. The
version counts the writes and the restores, so that an unchanged version means unchanged
slots.

Reachable stores have no cycles: a way along links is shorter than the number of variables,
and so is a way from a binding to the bindings of the variables in it. This is the bound that
`root` and `apply` take for their recursion.

Key definitions: `Slot`, `Store`, `Store.root`, `Store.find`, `Store.probe`, `Store.apply`,
`Store.occurs`, `Store.snapshot`, `Store.restore`, `Store.commit`.
Key theorems: `Store.slot?_fresh`, `Store.slot?_write`, `Store.undo_write`, `Store.undo_fresh`.
-/
import TypeResolution.Ty.Basic

namespace TypeResolution

/-- What a store holds for one variable. -/
inductive Slot where
  /-- An unbound root. -/
  | root (rank : Nat)
  /-- The next variable on the way to the root. -/
  | link (next : TyVar)
  /-- A bound root. -/
  | bound (type : Ty)
deriving DecidableEq, Inhabited

/-- A change that can be taken back. -/
inductive Change where
  /-- The slot of `var` was overwritten; it held `old`. -/
  | wrote (var : TyVar) (old : Slot)
  /-- A variable was added. -/
  | added
deriving DecidableEq, Inhabited

/-- The meanings of the variables, and what is needed to go back to earlier ones. -/
structure Store where
  slots : Array Slot
  log : List Change
  openSnapshots : Nat
  version : Nat
deriving DecidableEq, Inhabited

/-- A moment of a store that can be returned to. -/
structure Snapshot where
  logLength : Nat
  depth : Nat
deriving DecidableEq, Inhabited

namespace Store

/-- A store of unbound variables. -/
def ofSize (count : Nat) : Store := ⟨Array.replicate count (.root 0), [], 0, 0⟩

/-- The number of variables. -/
def size (s : Store) : Nat := s.slots.size

/-- The slot of a variable, if the store has it. -/
def slot? (s : Store) (v : TyVar) : Option Slot := s.slots[v.index]?

/-- Adds an unbound variable. -/
def fresh (s : Store) : TyVar × Store :=
  (⟨s.slots.size⟩,
    { s with
      slots := s.slots.push (.root 0)
      log := if 0 < s.openSnapshots then .added :: s.log else s.log })

/-- Overwrites the slot of a variable of the store. -/
def write (s : Store) (v : TyVar) (slot : Slot) : Store :=
  match s.slot? v with
  | none => s
  | some old =>
    { s with
      slots := s.slots.setIfInBounds v.index slot
      log := if 0 < s.openSnapshots then .wrote v old :: s.log else s.log
      version := s.version + 1 }

/-! ### Classes -/

/-- Follows at most `fuel` links. -/
def rootWithin (s : Store) : Nat → TyVar → TyVar
  | 0, v => v
  | fuel + 1, v =>
    match s.slot? v with
    | some (.link next) => rootWithin s fuel next
    | _ => v

/-- The root of the class of a variable. -/
def root (s : Store) (v : TyVar) : TyVar := s.rootWithin s.size v

/-- Links the variables on the way from `v`, of which there are at most `fuel`, to `root`. -/
def compressWithin (root : TyVar) : Nat → Store → TyVar → Store
  | 0, s, _ => s
  | fuel + 1, s, v =>
    if v = root then s
    else
      match s.slot? v with
      | some (.link next) =>
        compressWithin root fuel (if next = root then s else s.write v (.link root)) next
      | _ => s

/-- The root of the class of a variable, to which the variables on the way to it are linked. -/
def find (s : Store) (v : TyVar) : TyVar × Store :=
  let root := s.root v
  (root, compressWithin root s.size s v)

/-- The meaning of a root. -/
def content (s : Store) (root : TyVar) : Ty :=
  match s.slot? root with
  | some (.bound type) => type
  | _ => .var root

/-- The type that the class of a variable is bound to, or else its root. -/
def probe (s : Store) (v : TyVar) : Ty := s.content (s.root v)

/-- Like `probe`, with the links on the way shortened. -/
def resolve (s : Store) (v : TyVar) : Ty × Store :=
  let (root, s) := s.find v
  (s.content root, s)

/-- Whether the class of a variable is bound. -/
def isBound (s : Store) (v : TyVar) : Bool :=
  match s.slot? (s.root v) with
  | some (.bound _) => true
  | _ => false

/-- A type with the meaning of the variable that it is, if it is one. -/
def shallow (s : Store) : Ty → Ty × Store
  | .var v => s.resolve v
  | t => (t, s)

/-! ### Meanings of types -/

/-- Replaces variables by their meanings, going into at most `fuel` bindings within each
other. -/
def applyWithin (s : Store) : Nat → Ty → Ty
  | 0, t => t
  | fuel + 1, t =>
    t.mapVars fun v =>
      match s.probe v with
      | .var root => .var root
      | bound => applyWithin s fuel bound

/-- The meaning of a type: bound variables are replaced by the meanings of their bindings, and
unbound ones by their roots. -/
def apply (s : Store) (t : Ty) : Ty := s.applyWithin (s.size + 1) t

/-- Whether `root` is met in a type, going into at most `fuel` bindings within each other. -/
def occursWithin (s : Store) (root : TyVar) : Nat → Ty → Bool
  | 0, _ => false
  | fuel + 1, t =>
    t.vars.any fun v =>
      match s.probe v with
      | .var r => r == root
      | bound => occursWithin s root fuel bound

/-- Whether the class of a variable occurs in the meaning of a type. -/
def occurs (s : Store) (v : TyVar) (t : Ty) : Bool := s.occursWithin (s.root v) (s.size + 1) t

/-! ### Snapshots -/

/-- Opens a snapshot. -/
def snapshot (s : Store) : Snapshot × Store :=
  (⟨s.log.length, s.openSnapshots + 1⟩, { s with openSnapshots := s.openSnapshots + 1 })

/-- Takes back the newest change of the log. -/
def undo (s : Store) : Store :=
  match s.log with
  | [] => s
  | .wrote v old :: log => { s with slots := s.slots.setIfInBounds v.index old, log }
  | .added :: log => { s with slots := s.slots.pop, log }

/-- Takes back the newest `count` changes. -/
def rollback : Nat → Store → Store
  | 0, s => s
  | count + 1, s => rollback count s.undo

/-- Takes back every change made since the snapshot was taken. -/
def restore (s : Store) (snapshot : Snapshot) : Store :=
  let s := rollback (s.log.length - snapshot.logLength) s
  { s with version := s.version + 1 }

/-- Closes the innermost snapshot and keeps the changes made since it was taken. -/
def commit (s : Store) : Store :=
  { s with
    openSnapshots := s.openSnapshots - 1
    log := if s.openSnapshots - 1 = 0 then [] else s.log }

/-! ### Laws -/

@[simp] theorem slot?_ofSize (count : Nat) (v : TyVar) :
    (ofSize count).slot? v = if v.index < count then some (.root 0) else none := by
  simp [ofSize, slot?, Array.getElem?_replicate]

@[simp] theorem size_ofSize (count : Nat) : (ofSize count).size = count := by
  simp [ofSize, size]

theorem slot?_fresh (s : Store) (v : TyVar) :
    s.fresh.2.slot? v = if v = s.fresh.1 then some (.root 0) else s.slot? v := by
  obtain ⟨i⟩ := v
  by_cases h : i = s.slots.size
  · subst h
    simp [fresh, slot?]
  · simp [fresh, slot?, Array.getElem?_push, h]

@[simp] theorem size_fresh (s : Store) : s.fresh.2.size = s.size + 1 := by simp [fresh, size]

@[simp] theorem size_write (s : Store) (v : TyVar) (c : Slot) : (s.write v c).size = s.size := by
  unfold write
  split <;> simp [size]

/-- A write changes one slot, if the store has it. -/
theorem slot?_write (s : Store) (v w : TyVar) (c : Slot) :
    (s.write v c).slot? w = if w = v ∧ v.index < s.size then some c else s.slot? w := by
  obtain ⟨i⟩ := v
  obtain ⟨j⟩ := w
  unfold write
  split
  · rename_i h
    have hi : ¬ i < s.size := by simpa [slot?, size] using h
    simp [hi]
  · rename_i old h
    obtain ⟨hi, -⟩ := Array.getElem?_eq_some_iff.1 h
    by_cases hij : j = i
    · subst hij
      have hj : j < s.slots.size := hi
      simp [slot?, size, hj]
    · have hij' : i ≠ j := fun e => hij e.symm
      simp [slot?, hij, hij']

/-- Taking back a write leads back to the slots and the log before it. -/
theorem undo_write (s : Store) (v : TyVar) (c : Slot) (hv : v.index < s.size)
    (ho : 0 < s.openSnapshots) :
    (s.write v c).undo = { s with version := s.version + 1 } := by
  obtain ⟨i⟩ := v
  have hi : i < s.slots.size := hv
  have h : s.slot? ⟨i⟩ = some s.slots[i] := by simp [slot?, hi]
  simp only [write, h, ho, if_true, undo]
  congr
  refine Array.ext_getElem? fun j => ?_
  by_cases hj : i = j
  · subst hj
    simp [hi]
  · simp [hj]

/-- Taking back an added variable leads back to the store before it. -/
theorem undo_fresh (s : Store) (ho : 0 < s.openSnapshots) : s.fresh.2.undo = s := by
  simp [fresh, ho, undo]

@[simp] theorem slots_snapshot (s : Store) : s.snapshot.2.slots = s.slots := rfl

/-- Committing keeps every slot. -/
@[simp] theorem slots_commit (s : Store) : s.commit.slots = s.slots := rfl

@[simp] theorem size_compressWithin (root : TyVar) :
    ∀ (fuel : Nat) (s : Store) (v : TyVar), (compressWithin root fuel s v).size = s.size
  | 0, _, _ => rfl
  | fuel + 1, s, v => by
    unfold compressWithin
    split
    · rfl
    · split
      · rw [size_compressWithin root fuel]
        split <;> simp
      · rfl

@[simp] theorem size_find (s : Store) (v : TyVar) : (s.find v).2.size = s.size := by
  simp [find]

theorem fst_find (s : Store) (v : TyVar) : (s.find v).1 = s.root v := rfl

end Store
end TypeResolution
