import ChainBase.Container.UndoRefinement

/-! Who owns a node. An object node is linked in every index, or listed as removed, or
has been disposed of; a backup is listed or has been disposed of. Every call hands
nodes on from one owner to another, and at the end each one has been disposed of
exactly once. -/

namespace ChainBase
open OrderedSequence

namespace UndoMultiIndex
variable {T : Type} [Object T]

/-! ## What is handed to `dispose_old` -/

/-- `modify`: the backup, when it goes back into the object. -/
def modifyDisposes (s : UndoMultiIndex T) (a : Addr) (modifier : T → T × Bool) : List (OldNode T) :=
  let (backup, prepared) := s.onModify a
  let (item, _) := modifier (s.value a)
  match (prepared.toMultiIndex.modifyWithRevert a item backup).1 with
  | .reverted true => prepared.oldValues.take 1
  | .reverted false | .kept | .erased => []

def disposeDisposes (s : UndoMultiIndex T) (info : UndoState) : List (OldNode T) :=
  (CutList.below OldNode.self info.oldValuesEnd s.oldValues).drop 1

def commitDisposes (s : UndoMultiIndex T) (revision : Int) : List (OldNode T) :=
  let revision := min revision s.revision
  if revision = s.revision then s.oldValues
  else if (s.revision - revision).toNat < s.undoStack.length then
    match (s.undoStack.take (s.revision - revision).toNat).getLast? with
    | some info => s.disposeDisposes info
    | none => []
  else []

/-- `undo`: every backup of the level, whether it is restored or skipped. -/
def undoDisposes (s : UndoMultiIndex T) : List (OldNode T) :=
  match s.undoStack with
  | [] => []
  | info :: _ => s.oldValuesOf info

def undoTimesDisposes : Nat → UndoMultiIndex T → List (OldNode T)
  | 0, _ => []
  | n + 1, s =>
    match s.undo with
    | some after => s.undoDisposes ++ undoTimesDisposes n after
    | none => []

/-- The predicate of `compress_impl` on the old values, which moves the backup of a
removed object into its node. -/
def redundantOld (sessionStart : Nat) (base : MultiIndex T UndoNodeExtra) (old : OldNode T) :
    Option (Bool × MultiIndex T UndoNodeExtra) :=
  if sessionStart ≤ old.mtime then some (true, base)
  else if base.disposed old.current ≠ 0 then none
  else if base.isRemoved old.current then some (true, base.takeBack old)
  else some (false, base)

omit [Object T] in
theorem compressOldValues_removeIf (start : Nat) (entries : List (OldNode T)) (base : MultiIndex T UndoNodeExtra) :
    compressOldValues start entries base =
      (CutList.removeIf (redundantOld start) base entries).map fun result => (result.1, result.2.2) := by
  induction entries generalizing base with
  | nil => rfl
  | cons old rest ih =>
    rw [compressOldValues, CutList.removeIf, redundantOld]
    split
    · simp only [ih, Option.bind_some]
      cases CutList.removeIf (redundantOld start) base rest <;> rfl
    · split
      · rfl
      · split
        · simp only [ih, Option.bind_some]
          cases CutList.removeIf (redundantOld start) (base.takeBack old) rest <;> rfl
        · simp only [ih, Option.bind_some]
          cases CutList.removeIf (redundantOld start) base rest <;> rfl

def compressDisposes (s : UndoMultiIndex T) (last session : UndoState) : List (OldNode T) :=
  match CutList.removeIf (redundantOld session.ctime) s.toMultiIndex (s.oldValuesOf last) with
  | some (_, removed, _) => removed
  | none => []

def compressLastDisposes (s : UndoMultiIndex T) : List (OldNode T) :=
  match s.undoStack with
  | [] => []
  | last :: _ => s.compressDisposes last last

def squashFastDisposes (s : UndoMultiIndex T) : List (OldNode T) :=
  match s.undoStack with
  | [_] => s.oldValues
  | [] | _ :: _ :: _ => []

def squashDisposes (s : UndoMultiIndex T) : List (OldNode T) :=
  match s.undoStack with
  | last :: session :: _ =>
    match s.compressImpl last session with
    | some after => s.compressDisposes last session ++ after.squashFastDisposes
    | none => []
  | [] | [_] => s.squashFastDisposes

/-! ## Every backup is handed on -/

/-- Backups are listed, or handed over as `gone`; new ones take the next addresses. -/
structure Conserves (s after : UndoMultiIndex T) (gone : List (OldNode T)) : Prop where
  grows : s.freshOld ≤ after.freshOld
  balance : ∀ b, (after.oldValues.map OldNode.self).count b + (gone.map OldNode.self).count b =
    (s.oldValues.map OldNode.self).count b + if s.freshOld ≤ b ∧ b < after.freshOld then 1 else 0

namespace Conserves
variable {s middle after : UndoMultiIndex T} {gone : List (OldNode T)} {a : Addr}

omit [Object T] in
theorem of_perm (fresh : after.freshOld = s.freshOld) (perm : s.oldValues.Perm (after.oldValues ++ gone)) :
    s.Conserves after gone := by
  refine ⟨Nat.le_of_eq fresh.symm, fun b => ?_⟩
  have none : ¬ (s.freshOld ≤ b ∧ b < s.freshOld) := fun both => Nat.lt_irrefl _ (Nat.lt_of_le_of_lt both.1 both.2)
  rw [fresh, if_neg none, (perm.map OldNode.self).count_eq, List.map_append, List.count_append, Nat.add_zero]

omit [Object T] in
theorem of_same (fresh : after.freshOld = s.freshOld) (same : after.oldValues = s.oldValues) : s.Conserves after [] :=
  of_perm fresh (by rw [same, List.append_nil])

omit [Object T] in
theorem trans {others : List (OldNode T)} (first : s.Conserves middle gone) (second : middle.Conserves after others) :
    s.Conserves after (gone ++ others) := by
  refine ⟨Nat.le_trans first.grows second.grows, fun b => ?_⟩
  have early := first.balance b
  have late := second.balance b
  have before : s.freshOld ≤ middle.freshOld := first.grows
  have behind : middle.freshOld ≤ after.freshOld := second.grows
  rw [List.map_append, List.count_append]
  split at early <;> split at late <;> split <;> lia

omit [Object T] in
theorem onModify : s.Conserves (s.onModify a).2 [] := by
  unfold UndoMultiIndex.onModify
  split
  · exact of_same rfl rfl
  · split
    · exact of_same rfl rfl
    · refine ⟨Nat.le_succ _, fun b => ?_⟩
      simp only [List.map_cons, List.map_nil, List.count_nil, List.count_cons, beq_iff_eq]
      split <;> split <;> lia

theorem modify {modifier : T → T × Bool} {thrown : Option Thrown} (ran : s.modify a modifier = some (thrown, after)) :
    s.Conserves after (s.modifyDisposes a modifier) := by
  unfold UndoMultiIndex.modify at ran
  unfold modifyDisposes
  have taken : s.Conserves (s.onModify a).2 [] := onModify
  generalize s.onModify a = result at *
  obtain ⟨backup, prepared⟩ := result
  simp only at ran taken ⊢
  cases outcome : prepared.toMultiIndex.modifyWithRevert a (modifier (s.value a)).1 backup with
  | mk modified base =>
    simp only [outcome] at ran ⊢
    cases modified with
    | kept | erased =>
      cases ran
      exact taken.trans (of_same rfl rfl)
    | reverted placed =>
      cases placed with
      | true =>
        cases ran
        refine taken.trans (of_perm rfl ?_)
        change prepared.oldValues.Perm (prepared.oldValues.tail ++ prepared.oldValues.take 1)
        rw [← List.drop_one]
        exact (List.Perm.of_eq (List.take_append_drop 1 _).symm).trans List.perm_append_comm
      | false => cases ran

theorem emplace {constructor : Nat → Option T} : s.Conserves (s.emplace constructor).2 [] := by
  unfold UndoMultiIndex.emplace
  split
  · unfold onCreate
    split <;> exact of_same rfl rfl
  · exact of_same rfl rfl

theorem remove : s.Conserves (s.remove a) [] := by
  unfold UndoMultiIndex.remove UndoMultiIndex.onRemove
  split
  next result =>
    split at result
    · cases result
      exact of_same rfl rfl
    · split at result <;> cases result
      exact of_same rfl rfl
  next result =>
    split at result
    · cases result
    · split at result <;> cases result
      exact of_same rfl rfl

omit [Object T] in
theorem disposeUndo {stack : List UndoState} {revision : Int} :
    s.Conserves { s.disposeUndo with undoStack := stack, revision } s.oldValues :=
  of_perm rfl (.refl _)

omit [Object T] in
theorem squashFast : s.Conserves s.squashFast s.squashFastDisposes := by
  match stack : s.undoStack with
  | [] =>
    simp only [UndoMultiIndex.squashFast, squashFastDisposes, stack]
    exact of_same rfl rfl
  | [_] =>
    simp only [UndoMultiIndex.squashFast, squashFastDisposes, stack]
    exact disposeUndo
  | _ :: _ :: _ =>
    simp only [UndoMultiIndex.squashFast, squashFastDisposes, stack]
    exact of_same rfl rfl

omit [Object T] in
theorem dispose {info : UndoState} {kept : List UndoState} :
    s.Conserves { s.dispose info with undoStack := kept } (s.disposeDisposes info) := by
  refine of_perm rfl (.of_eq ?_)
  simp only [UndoMultiIndex.dispose, disposeDisposes, List.append_assoc, List.take_append_drop, oldValuesOf,
    CutList.above_append_below]

omit [Object T] in
theorem commit (revision : Int) : s.Conserves (s.commit revision).2 (s.commitDisposes revision) := by
  unfold UndoMultiIndex.commit commitDisposes
  simp only
  split
  · exact disposeUndo
  · split
    · cases (s.undoStack.take (s.revision - min revision s.revision).toNat).getLast? with
      | none => exact of_same rfl rfl
      | some info => exact dispose
    · exact of_same rfl rfl

theorem undo (ran : s.undo = some after) : s.Conserves after s.undoDisposes := by
  unfold UndoMultiIndex.undo at ran
  split at ran
  next stack =>
    cases ran
    simp only [undoDisposes, stack]
    exact of_same rfl rfl
  next info rest stack =>
    obtain ⟨restored, -, others⟩ := Option.bind_eq_some_iff.mp ran
    obtain ⟨inserted, -, result⟩ := Option.bind_eq_some_iff.mp others
    cases result
    simp only [undoDisposes, stack]
    refine of_perm rfl ?_
    have whole := CutList.above_append_below OldNode.self info.oldValuesEnd s.oldValues
    exact (List.Perm.of_eq whole.symm).trans List.perm_append_comm

theorem undoTimes {n : Nat} (ran : s.undoTimes n = some after) : s.Conserves after (s.undoTimesDisposes n) := by
  induction n generalizing s with
  | zero =>
    cases ran
    exact of_same rfl rfl
  | succ n ih =>
    obtain ⟨middle, first, rest⟩ := Option.bind_eq_some_iff.mp ran
    rw [undoTimesDisposes, first]
    exact (undo first).trans (ih rest)

theorem compressImpl {last session : UndoState} (ran : s.compressImpl last session = some after) :
    s.Conserves after (s.compressDisposes last session) := by
  obtain ⟨⟨kept, base⟩, visited, result⟩ := Option.bind_eq_some_iff.mp ran
  cases result
  rw [compressOldValues_removeIf] at visited
  obtain ⟨⟨left, removed, final⟩, walked, same⟩ := Option.map_eq_some_iff.mp visited
  cases same
  simp only [compressDisposes, walked]
  refine of_perm rfl ?_
  have whole := CutList.above_append_below OldNode.self last.oldValuesEnd s.oldValues
  have parts := (CutList.removeIf_perm walked).append_right (CutList.below OldNode.self last.oldValuesEnd s.oldValues)
  refine (List.Perm.of_eq whole.symm).trans (parts.trans ?_)
  simp only [List.append_assoc]
  exact List.perm_append_comm.append_left left

theorem compressLast (ran : s.compressLastUndoSession = some after) : s.Conserves after s.compressLastDisposes := by
  unfold compressLastUndoSession at ran
  split at ran
  · cases ran
  next last rest stack =>
    simp only [compressLastDisposes, stack]
    exact compressImpl ran

theorem squash (ran : s.squash = some after) : s.Conserves after s.squashDisposes := by
  match stack : s.undoStack with
  | last :: session :: rest =>
    simp only [UndoMultiIndex.squash, stack] at ran
    obtain ⟨middle, compressed, rfl⟩ := Option.map_eq_some_iff.mp ran
    simp only [squashDisposes, stack, compressed]
    exact (compressImpl compressed).trans squashFast
  | [] | [_] =>
    simp only [UndoMultiIndex.squash, stack, Option.some.injEq] at ran
    subst ran
    simp only [squashDisposes, stack]
    exact squashFast

end Conserves
end UndoMultiIndex

namespace UndoOp
variable {T : Type} [Object T] {s after : UndoMultiIndex T} {op : UndoOp T} {reply : Reply}

/-- The backups a call hands to `dispose_old`. -/
def disposes (s : UndoMultiIndex T) : UndoOp T → List (OldNode T)
  | modify id modifier =>
    match s.named id with
    | none => []
    | some a => s.modifyDisposes a modifier
  | undo => s.undoDisposes
  | undoAll => s.undoTimesDisposes s.undoStack.length
  | squash => s.squashDisposes
  | squashFast => s.squashFastDisposes
  | compressLastUndoSession | lastUndoSession => s.compressLastDisposes
  | commit revision => s.commitDisposes revision
  | emplace _ | remove _ | startUndo | setRevision _ => []

theorem conserves (ran : step s op = some (reply, after)) : s.Conserves after (op.disposes s) := by
  cases performs ran with
  | emplace constructor => exact .emplace
  | modify found modified =>
    simp only [disposes, found]
    exact .modify modified
  | remove found => exact .remove
  | startUndo => exact .of_same rfl rfl
  | undo undone => exact .undo undone
  | undoAll undone => exact .undoTimes undone
  | squash squashed => exact .squash squashed
  | squashFast => exact .squashFast
  | compress compressed | lastUndoSession compressed => exact .compressLast compressed
  | commit revision => exact .commit revision
  | setRevision set =>
    rw [UndoMultiIndex.setRevision_ok set]
    exact .of_same rfl rfl
  | modifyMissing missing =>
    simp only [disposes, missing]
    exact .of_same rfl rfl
  | noSession stack =>
    simp only [disposes, UndoMultiIndex.compressLastDisposes, stack]
    exact .of_same rfl rfl
  | removeMissing | refused => exact .of_same rfl rfl

end UndoOp

/-- A container together with the number of times each backup has been disposed of. -/
structure Ledger (T : Type) extends UndoMultiIndex T where
  disposedOld : Addr → Nat

namespace MultiIndex
variable {T E : Type}

/-- The destructor: the nodes leave every index and are disposed of. -/
def clear (s : MultiIndex T E) : MultiIndex T E :=
  disposeNodes { s with byId := [], indices := s.indices.map fun I => { I with tree := [] } } s.byId

end MultiIndex

namespace Ledger
variable {T : Type} [Object T]

def empty [Inhabited T] (keys : List (Comparator T)) : Ledger T where
  toUndoMultiIndex := UndoMultiIndex.empty keys
  disposedOld _ := 0

/-- A call, and `dispose_old` for the backups it hands over. -/
def step (s : Ledger T) (op : UndoOp T) : Option (Reply × Ledger T) :=
  (UndoOp.step s.toUndoMultiIndex op).map fun (reply, after) =>
    (reply, ⟨after, fun b => s.disposedOld b + ((op.disposes s.toUndoMultiIndex).map OldNode.self).count b⟩)

/-- The destructors: `dispose_undo` first, then that of the base. -/
def destroy (s : Ledger T) : Ledger T where
  toUndoMultiIndex := { s.disposeUndo with toMultiIndex := s.disposeUndo.clear, undoStack := [] }
  disposedOld b := s.disposedOld b + (s.oldValues.map OldNode.self).count b

/-- Every node that has been allocated has one owner, and the undo log can be followed
without coming across a disposed node. -/
structure OwnedOnce (s : Ledger T) : Prop where
  nodes : ∀ a, s.byId.count a + s.removedValues.count a + s.disposed a = if a < s.fresh then 1 else 0
  linked : ∀ I ∈ s.indices, ∀ a, I.tree.count a = s.byId.count a
  backups : ∀ b, (s.oldValues.map OldNode.self).count b + s.disposedOld b = if b < s.freshOld then 1 else 0
  oldEnds : CutList.Layers OldNode.self s.oldValues (s.undoStack.map UndoState.oldValuesEnd)
  removedEnds : CutList.Layers (fun a => a) s.removedValues (s.undoStack.map UndoState.removedValuesEnd)
  undone : ∀ top ∈ s.undoStack.head?, s.Live top
  compressed : ∀ top ∈ s.undoStack.head?, ∀ session ∈ s.undoStack, s.LiveSince top session

end Ledger

namespace UndoMultiIndex
variable {T : Type} [Object T] {keys : List (Comparator T)} {s : UndoMultiIndex T} {v : Versioned (Table T keys)}

theorem Sound.owner (sound : s.Sound) (a : Addr) :
    s.byId.count a + s.removedValues.count a + s.disposed a = if a < s.fresh then 1 else 0 := by
  rw [sound.housed.linked.nodup.count, sound.housed.nodup.count]
  by_cases allocated : a < s.fresh
  · rw [if_pos allocated]
    rcases sound.housed.accounted a allocated with (linked | removed) | disposed
    · rw [if_pos linked, if_neg (sound.housed.apart linked), (sound.housed.linked.owned a linked).2]
    · have unlinked : a ∉ s.byId := fun linked => sound.housed.apart linked removed
      rw [if_neg unlinked, if_pos removed, (sound.housed.owned a removed).2]
    · have gone : ∀ inside : s.Kept s.removedValues a, False := fun inside => by
        have live := (sound.housed.live inside).2
        omega
      rw [if_neg fun linked => gone (.inl linked), if_neg fun removed => gone (.inr removed), disposed]
  · have outside : ∀ inside : s.Kept s.removedValues a, False := fun inside => allocated (sound.housed.live inside).1
    rw [if_neg allocated, if_neg fun linked => outside (.inl linked), if_neg fun removed => outside (.inr removed),
      sound.housed.linked.unused a (Nat.not_lt.mp allocated)]

theorem Refines.undone (refines : s.Refines v) {top : UndoState} (first : top ∈ s.undoStack.head?) : s.Live top := by
  obtain ⟨rest, stack⟩ := List.head?_eq_some_iff.mp first
  have saved := refines.saved
  rw [stack] at saved
  obtain ⟨t, older, saves, -, -⟩ := List.forall₂_cons_left_iff.mp saved
  exact saves.undo_live refines.sound

theorem Refines.compressed (refines : s.Refines v) {top session : UndoState} (first : top ∈ s.undoStack.head?)
    (level : session ∈ s.undoStack) : s.LiveSince top session := by
  obtain ⟨rest, stack⟩ := List.head?_eq_some_iff.mp first
  obtain ⟨t, saves⟩ : ∃ t : Table T keys, s.Saves session t := by
    obtain ⟨depth, inside, rfl⟩ := List.getElem_of_mem level
    exact ⟨_, (List.forall₂_iff_get.mp refines.saved).2 depth inside (refines.saved.length_eq ▸ inside)⟩
  intro e member counted
  refine (saves.live refines.sound ?_ counted).2.2.1
  rw [(refines.sound.outer_parts stack level).1]
  exact List.mem_append_left _ member

end UndoMultiIndex

namespace Ledger
variable {T : Type} [Object T] {keys : List (Comparator T)} {s after : Ledger T} {v : Versioned (Table T keys)}

structure Balanced (s : Ledger T) (v : Versioned (Table T keys)) : Prop where
  refines : s.Refines v
  backups : ∀ b, (s.oldValues.map OldNode.self).count b + s.disposedOld b = if b < s.freshOld then 1 else 0

theorem Balanced.ownedOnce (balanced : s.Balanced v) : s.OwnedOnce where
  nodes := balanced.refines.sound.owner
  linked I index := (balanced.refines.sound.housed.linked.placed I index).perm.count_eq
  backups := balanced.backups
  oldEnds := balanced.refines.sound.oldLayers
  removedEnds := balanced.refines.sound.removedLayers
  undone _ first := balanced.refines.undone first
  compressed _ first _ level := balanced.refines.compressed first level

theorem simulated (s : Ledger T) (v : Versioned (Table T keys)) (op : UndoOp T) (balanced : s.Balanced v)
    (legal : UndoOp.Legal s.toUndoMultiIndex op) :
    ∃ after, step s op = some ((UndoOp.spec v op).1, after) ∧ after.Balanced (UndoOp.spec v op).2 := by
  obtain ⟨after, ran, refines⟩ := UndoOp.simulated s.toUndoMultiIndex v op balanced.refines legal
  refine ⟨⟨after, fun b => s.disposedOld b + ((op.disposes s.toUndoMultiIndex).map OldNode.self).count b⟩, ?_, refines,
    fun b => ?_⟩
  · simp only [step, ran, Option.map_some]
  have conserves := UndoOp.conserves ran
  have balance := conserves.balance b
  have before := balanced.backups b
  have grows := conserves.grows
  split at before <;> split at balance <;> split <;> lia

theorem OwnedOnce.destroy (owned : s.OwnedOnce) :
    (∀ a, s.destroy.disposed a = if a < s.fresh then 1 else 0) ∧
    ∀ b, s.destroy.disposedOld b = if b < s.freshOld then 1 else 0 := by
  constructor
  · intro a
    rw [← owned.nodes a]
    simp only [Ledger.destroy, MultiIndex.clear, UndoMultiIndex.disposeUndo, MultiIndex.disposeNodes_eq]
    omega
  · intro b
    rw [← owned.backups b]
    exact Nat.add_comm _ _

/-- Every legal run from an empty container meets no disposed node, leaves every node
with one owner, and after it destruction has disposed of every node exactly once. -/
theorem nodes_owned_once [Inhabited T] (keys : List (Comparator T)) (ops : List (UndoOp T))
    (legal : Run.Permitted step (fun s op => UndoOp.Legal s.toUndoMultiIndex op) (Ledger.empty keys) ops) :
    ∃ replies s, Run.run step (Ledger.empty keys) ops = some (replies, s) ∧ s.OwnedOnce ∧
      (∀ a, s.destroy.disposed a = if a < s.fresh then 1 else 0) ∧
      ∀ b, s.destroy.disposedOld b = if b < s.freshOld then 1 else 0 := by
  obtain ⟨s, ran, balanced⟩ := Run.simulates simulated
    (⟨UndoMultiIndex.Refines.empty keys, fun b => by simp [Ledger.empty, UndoMultiIndex.empty]⟩ :
      (Ledger.empty keys : Ledger T).Balanced ⟨Table.empty keys, [], 0⟩) legal
  exact ⟨_, s, ran, balanced.ownedOnce, balanced.ownedOnce.destroy⟩

/-- A book whose backup is folded into its removed node, one that cannot be made, one
that is lost with its level, and a commit that leaves an element of each list behind. -/
theorem nodes_owned_once_books :
    let ops : List (UndoOp Book) :=
      [.emplace fun id => some ⟨id, 1, 1⟩, .emplace fun id => some ⟨id, 2, 2⟩, .startUndo, .startUndo,
        .modify 0 fun book => ({ book with a := 3 }, false), .remove 0, .squash, .emplace fun id => some ⟨id, 2, 3⟩,
        .modify 1 fun book => ({ book with a := 4 }, true), .startUndo, .modify 1 fun book => ({ book with a := 5 }, false),
        .commit 1, .emplace fun id => some ⟨id, 6, 6⟩, .undo]
    ∃ replies s, Run.run step (Ledger.empty bookKeys) ops = some (replies, s) ∧ s.OwnedOnce ∧
      (∀ a, s.destroy.disposed a = if a < s.fresh then 1 else 0) ∧
      ∀ b, s.destroy.disposedOld b = if b < s.freshOld then 1 else 0 := by
  intro ops
  exact nodes_owned_once bookKeys ops (by decide)

/-- Behind the largest id, undoing a level disposes of the node of the book that was
there before, and then comes across it in the backup. -/
theorem largest_id_disposed :
    let ops : List (UndoOp Book) :=
      [.emplace fun _ => some lastBook, .startUndo, .modify lastBook.id fun book => ({ book with a := 2 }, false)]
    (Run.run step (Ledger.empty bookKeys) ops).map Prod.fst = some [.returned, .revision 1, .returned] ∧
      Run.run step (Ledger.empty bookKeys) (ops ++ [.undo]) = none := ⟨rfl, rfl⟩

end Ledger
end ChainBase
