import ChainBase.Container.MultiIndex
import ChainBase.Library.CutList

/-! `basic_undo_multi_index`: the container with an undo stack. The stack keeps
no copies; its levels point into two shared singly linked lists, one of values
overwritten and one of nodes removed. A function is undefined (`none`) where the
code would use a disposed node or break one of its own assertions on a result. -/

namespace ChainBase

structure UndoNodeExtra where
  mtime : Nat

instance : Inhabited UndoNodeExtra := ⟨⟨0⟩⟩

/-- `old_node`: a backup, at its own address, of the object and stamp of a node. -/
structure OldNode (T : Type) where
  self : Addr
  item : T
  mtime : Nat
  current : Addr

structure UndoState where
  oldValuesEnd : Option Addr
  removedValuesEnd : Option Addr
  oldNextId : Nat
  ctime : Nat

/-- The undo stack is listed from its back, and both lists from their head. The revision is
an integer: where an `int64_t` would not hold it, the source has no meaning. -/
structure UndoMultiIndex (T : Type) extends MultiIndex T UndoNodeExtra where
  undoStack : List UndoState
  oldValues : List (OldNode T)
  removedValues : List Addr
  freshOld : Addr
  revision : Int
  monotonicRevision : Nat

namespace MultiIndex
variable {T : Type}

def mtime (s : MultiIndex T UndoNodeExtra) (a : Addr) : Nat := (s.nodes a).extra.mtime

def setMtime (s : MultiIndex T UndoNodeExtra) (a : Addr) (mtime : Nat) : MultiIndex T UndoNodeExtra :=
  { s with nodes := Function.update s.nodes a { s.nodes a with extra := ⟨mtime⟩ } }

/-- The value of the balance field that marks a removed node. -/
def erasedFlag : Int := 2

def setRemovedField (s : MultiIndex T UndoNodeExtra) (a : Addr) (color : Int) : MultiIndex T UndoNodeExtra :=
  { s with nodes := Function.update s.nodes a { s.nodes a with color } }

def isRemoved (s : MultiIndex T UndoNodeExtra) (a : Addr) : Bool := (s.nodes a).color == erasedFlag

/-- The node takes back the object and the stamp of its backup. -/
def takeBack (s : MultiIndex T UndoNodeExtra) (old : OldNode T) : MultiIndex T UndoNodeExtra :=
  (s.setItem old.current old.item).setMtime old.current old.mtime

def disposeNodes {E : Type} (s : MultiIndex T E) (l : List Addr) : MultiIndex T E := l.foldl disposeNode s

end MultiIndex

namespace UndoMultiIndex
variable {T : Type} [Object T]

def empty [Inhabited T] (keys : List (OrderedSequence.Comparator T)) : UndoMultiIndex T where
  toMultiIndex := MultiIndex.empty keys
  undoStack := []
  oldValues := []
  removedValues := []
  freshOld := 0
  revision := 0
  monotonicRevision := 0

/-- The part of `_old_values` in front of the end a level remembers. -/
def oldValuesOf (s : UndoMultiIndex T) (info : UndoState) : List (OldNode T) :=
  CutList.above OldNode.self info.oldValuesEnd s.oldValues

/-- The part of `_removed_values` in front of the end a level remembers. -/
def removedValuesOf (s : UndoMultiIndex T) (info : UndoState) : List Addr :=
  CutList.above (fun a => a) info.removedValuesEnd s.removedValues

/-! ## Data operations -/

def onCreate (s : UndoMultiIndex T) (a : Addr) : UndoMultiIndex T :=
  match s.undoStack with
  | [] => s
  | _ :: _ => { s with toMultiIndex := s.setMtime a s.monotonicRevision }

def emplace (s : UndoMultiIndex T) (constructor : Nat → Option T) : Except Thrown Addr × UndoMultiIndex T :=
  match s.toMultiIndex.emplace constructor with
  | (.ok a, base) => (.ok a, { s with toMultiIndex := base }.onCreate a)
  | (.error thrown, base) => (.error thrown, { s with toMultiIndex := base })

/-- `on_modify`: the value backed up, if the top level has none of this node yet. -/
def onModify (s : UndoMultiIndex T) (a : Addr) : Option T × UndoMultiIndex T :=
  match s.undoStack with
  | [] => (none, s)
  | info :: _ =>
    if info.ctime ≤ s.mtime a then (none, s)
    else
      (some (s.value a),
        { s with
          toMultiIndex := s.setMtime a s.monotonicRevision
          oldValues := ⟨s.freshOld, s.value a, s.mtime a, a⟩ :: s.oldValues
          freshOld := s.freshOld + 1 })

/-- `modify`. A reverting modify drops the backup it took from the list. -/
def modify (s : UndoMultiIndex T) (a : Addr) (modifier : T → T × Bool) : Option (Option Thrown × UndoMultiIndex T) :=
  let (backup, prepared) := s.onModify a
  let (item, threw) := modifier (s.value a)
  let (outcome, base) := prepared.toMultiIndex.modifyWithRevert a item backup
  let after := { prepared with toMultiIndex := base }
  match outcome with
  | .kept | .erased => some (MultiIndex.modifyThrows threw outcome, after)
  | .reverted true => some (MultiIndex.modifyThrows threw outcome, { after with oldValues := after.oldValues.tail })
  -- assert(post_modify_must_succeed)
  | .reverted false => none

/-- `on_remove`: whether the node should be destroyed. -/
def onRemove (s : UndoMultiIndex T) (a : Addr) : Bool × UndoMultiIndex T :=
  match s.undoStack with
  | [] => (true, s)
  | info :: _ =>
    if info.oldNextId ≤ s.id a then (true, s)
    else
      (false,
        { s with
          toMultiIndex := s.setRemovedField a MultiIndex.erasedFlag
          removedValues := a :: s.removedValues })

def remove (s : UndoMultiIndex T) (a : Addr) : UndoMultiIndex T :=
  match { s with toMultiIndex := s.eraseImpl a }.onRemove a with
  | (true, after) => { after with toMultiIndex := after.disposeNode a }
  | (false, after) => after

/-! ## The undo stack -/

def startUndo (s : UndoMultiIndex T) : Int × UndoMultiIndex T :=
  let info : UndoState :=
    { oldValuesEnd := CutList.head OldNode.self s.oldValues
      removedValuesEnd := CutList.head (fun a => a) s.removedValues
      oldNextId := s.nextId
      ctime := s.monotonicRevision + 1 }
  (s.revision + 1,
    { s with
      undoStack := info :: s.undoStack
      monotonicRevision := s.monotonicRevision + 1
      revision := s.revision + 1 })

def int64Max : Int := 2 ^ 63 - 1

def setRevision (s : UndoMultiIndex T) (revision : Nat) : Except Thrown (UndoMultiIndex T) :=
  if s.undoStack.length ≠ 0 then
    .error (.logicError "cannot set revision while there is an existing undo stack")
  else if (revision : Int) > int64Max then
    .error (.logicError "revision to set is too high")
  else if (revision : Int) < s.revision then
    .error (.logicError "revision cannot decrease")
  else .ok { s with revision }

def disposeUndo (s : UndoMultiIndex T) : UndoMultiIndex T :=
  { s with toMultiIndex := s.disposeNodes s.removedValues, oldValues := [], removedValues := [] }

/-- `dispose`: everything behind the ends of a level, but for the one element in
each list that the ends point to. -/
def dispose (s : UndoMultiIndex T) (info : UndoState) : UndoMultiIndex T :=
  let oldStart := CutList.below OldNode.self info.oldValuesEnd s.oldValues
  let removedStart := CutList.below (fun a => a) info.removedValuesEnd s.removedValues
  { s with
    toMultiIndex := s.disposeNodes (removedStart.drop 1)
    oldValues := s.oldValuesOf info ++ oldStart.take 1
    removedValues := s.removedValuesOf info ++ removedStart.take 1 }

/-- `commit`: keep the levels above `revision`. -/
def commit (s : UndoMultiIndex T) (revision : Int) : Int × UndoMultiIndex T :=
  let revision := min revision s.revision
  let kept := s.undoStack.take (s.revision - revision).toNat
  if revision = s.revision then
    (s.revision, { s.disposeUndo with undoStack := [] })
  else if (s.revision - revision).toNat < s.undoStack.length then
    match kept.getLast? with
    | some info => (s.revision, { s.dispose info with undoStack := kept })
    | none => (s.revision, s)
  else (s.revision, s)

/-- The first loop of `undo`: restore every value backed up before the level was
opened, and skip later duplicates. -/
def restoreOldValues (ctime : Nat) : List (OldNode T) → MultiIndex T UndoNodeExtra → Option (MultiIndex T UndoNodeExtra)
  | [], base => some base
  | old :: rest, base =>
    if old.mtime < ctime then
      if base.disposed old.current ≠ 0 then none
      else
        let restored := base.takeBack old
        if restored.isRemoved old.current then restoreOldValues ctime rest restored
        else restoreOldValues ctime rest (restored.postModify false old.current).2
    else restoreOldValues ctime rest base

/-- The second loop of `undo`: link the removed nodes again, and dispose those the
level itself created. -/
def insertRemovedValues (oldNextId : Nat) : List Addr → MultiIndex T UndoNodeExtra → Option (MultiIndex T UndoNodeExtra)
  | [], base => some base
  | a :: rest, base =>
    if base.id a < oldNextId then
      match (base.setRemovedField a 0).insert a with
      | (true, inserted) => insertRemovedValues oldNextId rest inserted
      -- assert(insert_must_succeed)
      | (false, _) => none
    else insertRemovedValues oldNextId rest (base.disposeNode a)

def undo (s : UndoMultiIndex T) : Option (UndoMultiIndex T) :=
  match s.undoStack with
  | [] => some s
  | info :: rest => do
    let restored ← restoreOldValues info.ctime (s.oldValuesOf info) (s.eraseNewIds info.oldNextId)
    let inserted ← insertRemovedValues info.oldNextId (s.removedValuesOf info) restored
    some
      { s with
        toMultiIndex := { inserted with nextId := info.oldNextId }
        undoStack := rest
        oldValues := CutList.below OldNode.self info.oldValuesEnd s.oldValues
        removedValues := CutList.below (fun a => a) info.removedValuesEnd s.removedValues
        revision := s.revision - 1 }

/-- The loop of `undo_all`; every round of it pops one level. -/
def undoTimes : Nat → UndoMultiIndex T → Option (UndoMultiIndex T)
  | 0, s => some s
  | n + 1, s => do undoTimes n (← s.undo)

def undoAll (s : UndoMultiIndex T) : Option (UndoMultiIndex T) := undoTimes s.undoStack.length s

/-- The first loop of `compress_impl`: drop backups younger than the session, and
move those of removed nodes into the node. -/
def compressOldValues (sessionStart : Nat) :
    List (OldNode T) → MultiIndex T UndoNodeExtra → Option (List (OldNode T) × MultiIndex T UndoNodeExtra)
  | [], base => some ([], base)
  | old :: rest, base =>
    if sessionStart ≤ old.mtime then compressOldValues sessionStart rest base
    else if base.disposed old.current ≠ 0 then none
    else if base.isRemoved old.current then compressOldValues sessionStart rest (base.takeBack old)
    else do
      let (kept, after) ← compressOldValues sessionStart rest base
      some (old :: kept, after)

/-- `compress_impl`, on the entries of the last level. -/
def compressImpl (s : UndoMultiIndex T) (last session : UndoState) : Option (UndoMultiIndex T) := do
  let (kept, base) ← compressOldValues session.ctime (s.oldValuesOf last) s.toMultiIndex
  let removed := s.removedValuesOf last
  some
    { s with
      toMultiIndex := base.disposeNodes (removed.filter fun a => session.oldNextId ≤ base.id a)
      oldValues := kept ++ CutList.below OldNode.self last.oldValuesEnd s.oldValues
      removedValues := removed.filter (fun a => base.id a < session.oldNextId) ++
        CutList.below (fun a => a) last.removedValuesEnd s.removedValues }

def squashFast (s : UndoMultiIndex T) : UndoMultiIndex T :=
  match s.undoStack with
  | [] => s
  | [_] => { s.disposeUndo with undoStack := [], revision := s.revision - 1 }
  | _ :: rest => { s with undoStack := rest, revision := s.revision - 1 }

/-- `squash_and_compress`, which `squash` calls. -/
def squash (s : UndoMultiIndex T) : Option (UndoMultiIndex T) :=
  match s.undoStack with
  | last :: session :: _ => (s.compressImpl last session).map squashFast
  | _ => some s.squashFast

/-- `compress_last_undo_session`, which `last_undo_session` calls. The back of an
empty stack does not exist. -/
def compressLastUndoSession (s : UndoMultiIndex T) : Option (UndoMultiIndex T) :=
  match s.undoStack with
  | [] => none
  | last :: _ => s.compressImpl last last

/-- `delta`: the three ranges of nodes a level has made a difference to. -/
structure Delta (T : Type) where
  newValues : List Addr
  oldValues : List (OldNode T)
  removedValues : List Addr

def lastUndoSession (s : UndoMultiIndex T) : Option (Delta T × UndoMultiIndex T) :=
  match s.undoStack with
  | [] => some (⟨[], [], []⟩, s)
  | info :: _ => do
    let after ← s.compressLastUndoSession
    -- from the lower bound of the old next id to the end
    let newValues := after.byId.dropWhile fun a => after.id a < info.oldNextId
    some (⟨newValues, after.oldValuesOf info, after.removedValuesOf info⟩, after)

end UndoMultiIndex
end ChainBase
