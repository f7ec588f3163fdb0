import ChainBase.Container.UndoMultiIndex
import ChainBase.Container.PlainRefinement

/-! The entries of a journal, and `apply_recover`: what recovery does to a
container for each of them. -/

namespace ChainBase

/-- Why recovery does not end: undefined behaviour, or an exception. -/
inductive Failure where
  | fault
  | thrown (thrown : Thrown)
deriving DecidableEq, Repr

/-- The operations of the undo stack that are journaled, each with a revision. -/
inductive LevelOp where
  | startUndo
  | commit
  | undo
  | undoAll
  | revision
deriving DecidableEq, Repr

inductive Entry (T : Type) where
  | insert (obj : T)
  | modify (id : Nat) (obj : T)
  | remove (id : Nat)
  | level (op : LevelOp) (revision : Int)
deriving DecidableEq, Repr

/-- What recovery uses of a container with an undo stack. -/
structure UndoTarget (σ : Type) where
  revision : σ → Int
  startUndo : σ → Int × σ
  setRevision : σ → Nat → Except Thrown σ
  commit : σ → Int → Int × σ
  undo : σ → Option σ
  undoAll : σ → Option σ

/-- What recovery uses of a container. -/
structure Target (σ T : Type) where
  nextId : σ → Nat
  find : σ → Nat → Option Addr
  value : σ → Addr → T
  emplace : σ → (Nat → Option T) → Except Thrown Addr × σ
  modify : σ → Addr → (T → T × Bool) → Option (Option Thrown × σ)
  remove : σ → Addr → σ
  /-- `is_undo_multi_index_v`. -/
  undo : Option (UndoTarget σ)

section Containers
variable {T : Type} [Object T]

def MultiIndex.target : Target (MultiIndex T Unit) T where
  nextId s := s.nextId
  find s id := s.find id
  value s a := s.value a
  emplace s constructor := s.emplace constructor
  modify s a modifier := some (s.modify a modifier)
  remove s a := s.remove a
  undo := none

def UndoMultiIndex.undoTarget : UndoTarget (UndoMultiIndex T) where
  revision s := s.revision
  startUndo s := s.startUndo
  setRevision s revision := s.setRevision revision
  commit s revision := s.commit revision
  undo s := s.undo
  undoAll s := s.undoAll

def UndoMultiIndex.target : Target (UndoMultiIndex T) T where
  nextId s := s.nextId
  find s id := s.find id
  value s a := s.value a
  emplace s constructor := s.emplace constructor
  modify s a modifier := s.modify a modifier
  remove s a := s.remove a
  undo := some UndoMultiIndex.undoTarget

end Containers

namespace Target
variable {σ T : Type} (c : Target σ T) (s : σ)

/-- The case `insert` of `apply_recover`. -/
def recoverInsert (constructor : Nat → Option T) : Except Failure σ :=
  match c.emplace s constructor with
  | (.ok _, after) => .ok after
  | (.error thrown, _) => .error (.thrown thrown)

def recoverModify (id : Nat) (modifier : T → T × Bool) : Except Failure σ :=
  match c.find s id with
  | some a =>
    match c.modify s a modifier with
    | some (none, after) => .ok after
    | some (some thrown, _) => .error (.thrown thrown)
    | none => .error .fault
  | none => .error (.thrown (.runtimeError ("journal recover modify of non existing id " ++ toString id)))

def recoverRemove (id : Nat) : Except Failure σ :=
  match c.find s id with
  | some a => .ok (c.remove s a)
  | none => .error (.thrown (.runtimeError ("journal recover delete of non existing id " ++ toString id)))

end Target

/-- `int64_t` to `uint64_t`. -/
def toUnsigned (revision : Int) : Nat := (revision % 2 ^ 64).toNat

namespace UndoTarget
variable {σ : Type} (c : UndoTarget σ)

def missmatch (revision expected : Int) : Failure :=
  .thrown (.runtimeError
    ("journal start undo revision missmatch " ++ toString revision ++ " with expected " ++ toString expected))

def setRevisionOrThrow (s : σ) (revision : Int) : Except Failure σ :=
  match c.setRevision s (toUnsigned revision) with
  | .ok after => .ok after
  | .error thrown => .error (.thrown thrown)

/-- A call that would use a disposed node is undefined. -/
def defined (result : Option σ) : Except Failure σ :=
  match result with
  | some after => .ok after
  | none => .error .fault

def expect (after : σ) (revision expected : Int) : Except Failure σ :=
  if revision = expected then .ok after else .error (missmatch revision expected)

/-- `apply_recover_undo`, when the revision has been read. -/
def recoverLevel (s : σ) (op : LevelOp) (revision : Int) : Except Failure σ :=
  match op with
  | .startUndo =>
    -- `revision - 1` overflows, or `++_revision`: no number that is read is beyond the largest
    if revision = -2 ^ 63 ∨ c.revision s = UndoMultiIndex.int64Max ∧ revision ≤ UndoMultiIndex.int64Max then .error .fault
    else do
      let s ← if c.revision s < revision - 1 then c.setRevisionOrThrow s (revision - 1) else .ok s
      expect (c.startUndo s).2 (c.startUndo s).1 revision
  | .commit =>
    -- `_revision - revision` overflows
    if revision < c.revision s - UndoMultiIndex.int64Max then .error .fault
    else expect (c.commit s revision).2 (c.commit s revision).1 revision
  | .undo => do
    let s ← defined (c.undo s)
    expect s (c.revision s) revision
  | .undoAll => do
    let s ← defined (c.undoAll s)
    expect s (c.revision s) revision
  | .revision => c.setRevisionOrThrow s revision

theorem recoverLevel_startUndo {s : σ} {revision : Int} (least : revision ≠ -2 ^ 63)
    (fits : c.revision s = UndoMultiIndex.int64Max → UndoMultiIndex.int64Max < revision) :
    c.recoverLevel s .startUndo revision =
      (if c.revision s < revision - 1 then c.setRevisionOrThrow s (revision - 1) else .ok s).bind fun middle =>
        expect (c.startUndo middle).2 (c.startUndo middle).1 revision := by
  rw [recoverLevel, if_neg (by omega)]
  split <;> rfl

theorem recoverLevel_started {s : σ} {revision : Int} (kept : ¬ c.revision s < revision - 1) (least : revision ≠ -2 ^ 63)
    (fits : c.revision s = UndoMultiIndex.int64Max → UndoMultiIndex.int64Max < revision) :
    c.recoverLevel s .startUndo revision = expect (c.startUndo s).2 (c.startUndo s).1 revision := by
  rw [recoverLevel_startUndo c least fits, if_neg kept]
  rfl

theorem recoverLevel_raised {s : σ} {revision : Int} (lower : c.revision s < revision - 1) (least : revision ≠ -2 ^ 63) :
    c.recoverLevel s .startUndo revision = (c.setRevisionOrThrow s (revision - 1)).bind fun middle =>
      expect (c.startUndo middle).2 (c.startUndo middle).1 revision := by
  rw [recoverLevel_startUndo c least (by omega), if_pos lower]

theorem recoverLevel_commit {s : σ} {revision : Int} (fits : c.revision s - UndoMultiIndex.int64Max ≤ revision) :
    c.recoverLevel s .commit revision = expect (c.commit s revision).2 (c.commit s revision).1 revision :=
  if_neg (Int.not_lt.mpr fits)

theorem expect_same {after : σ} {revision expected : Int} (same : revision = expected) :
    expect after revision expected = .ok after := if_pos same

theorem expect_other {after : σ} {revision expected : Int} (other : revision ≠ expected) :
    expect after revision expected = .error (missmatch revision expected) := if_neg other

end UndoTarget

/-- `apply_recover` on an entry that has been read whole. A container without an
undo stack skips what it does not know. -/
def Entry.applyRecover {σ T : Type} (c : Target σ T) (s : σ) : Entry T → Except Failure σ
  | insert obj => c.recoverInsert s fun _ => some obj
  | modify id obj => c.recoverModify s id fun _ => (obj, false)
  | remove id => c.recoverRemove s id
  | level op revision =>
    match c.undo with
    | some u => u.recoverLevel s op revision
    | none => .ok s

/-- The contract of `emplace`, for the id that an insertion brings. -/
def Entry.Asserts {σ T : Type} [Object T] (c : Target σ T) (s : σ) : Entry T → Prop
  | insert obj => Object.Follows (c.nextId s) obj
  | _ => True

def replay {σ T : Type} (c : Target σ T) (s : σ) (entries : List (Entry T)) : Except Failure σ :=
  entries.foldlM (Entry.applyRecover c) s

theorem replay_append {σ T : Type} (c : Target σ T) (s : σ) (first second : List (Entry T)) :
    replay c s (first ++ second) = (replay c s first).bind fun middle => replay c middle second :=
  List.foldlM_append

theorem replay_front {σ T : Type} {c : Target σ T} {s last : σ} {first second : List (Entry T)}
    (ran : replay c s (first ++ second) = .ok last) : ∃ middle, replay c s first = .ok middle := by
  rw [replay_append] at ran
  cases front : replay c s first with
  | error failure =>
    rw [front] at ran
    cases ran
  | ok middle => exact ⟨middle, rfl⟩

end ChainBase
