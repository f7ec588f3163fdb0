import ChainBase.Container.FailedModify

/-! How much history a container keeps: what its open levels go back to, and nothing
else but one element at the end of each list, which the next cut takes away. -/

namespace ChainBase
open OrderedSequence

namespace UndoMultiIndex
variable {T : Type} [Object T]

omit [Object T] in
/-- The backups that no open level goes back to. -/
def leftoverOld (s : UndoMultiIndex T) : List (OldNode T) :=
  CutList.leftover OldNode.self (s.undoStack.map UndoState.oldValuesEnd) s.oldValues

omit [Object T] in
/-- The removed nodes that no open level takes back. -/
def leftoverRemoved (s : UndoMultiIndex T) : List Addr :=
  CutList.leftover (fun a => a) (s.undoStack.map UndoState.removedValuesEnd) s.removedValues

structure Trimmed (s : UndoMultiIndex T) : Prop where
  old : s.leftoverOld.length ≤ 1
  removed : s.leftoverRemoved.length ≤ 1

variable {s after : UndoMultiIndex T} {a : Addr} {modifier : T → T × Bool}

omit [Object T] in
theorem Trimmed.congr (trimmed : s.Trimmed) (stack : after.undoStack = s.undoStack) (old : after.oldValues = s.oldValues)
    (removed : after.removedValues = s.removedValues) : after.Trimmed where
  old := by
    unfold leftoverOld
    rw [stack, old]
    exact trimmed.old
  removed := by
    unfold leftoverRemoved
    rw [stack, removed]
    exact trimmed.removed

theorem Trimmed.emplace (trimmed : s.Trimmed) (sound : s.Sound) (constructor : Nat → Option T) :
    (s.emplace constructor).2.Trimmed := by
  cases constructs : constructor s.nextId with
  | none =>
    rw [emplace_threw constructs]
    exact trimmed.congr rfl rfl rfl
  | some item =>
    by_cases clear : s.Clear s.fresh item
    · rw [emplace_accepted sound constructs clear]
      unfold UndoMultiIndex.onCreate
      split <;> exact trimmed.congr rfl rfl rfl
    · rw [emplace_refused sound constructs clear]
      exact trimmed.congr rfl rfl rfl

/-- A backup is taken only for an open level. -/
theorem Trimmed.prepared (trimmed : s.Trimmed) (sound : s.Sound) (a : Addr) : (s.prepared a).Trimmed := by
  unfold UndoMultiIndex.prepared
  split
  · rename_i old
    have opened : s.undoStack.map UndoState.oldValuesEnd ≠ [] := by
      intro none
      simp [stale, List.map_eq_nil_iff.mp none] at old
    refine ⟨?_, trimmed.removed⟩
    have new : s.freshOld ∉ s.oldValues.map OldNode.self := by
      intro inside
      obtain ⟨e, listed, same⟩ := List.mem_map.mp inside
      exact absurd (same ▸ sound.allocated e listed) (Nat.lt_irrefl _)
    have same := sound.oldLayers.leftover_push (a := (⟨s.freshOld, s.value a, s.mtime a, a⟩ : OldNode T)) new opened
    exact (congrArg List.length same).trans_le trimmed.old
  · exact trimmed

theorem Trimmed.modify (trimmed : s.Trimmed) (sound : s.Sound) (member : a ∈ s.byId) {thrown : Option Thrown}
    (ran : s.modify a modifier = some (thrown, after)) : after.Trimmed := by
  by_cases accepts : s.Accepts a (modifier (s.value a)).1
  · rw [modify_kept sound member accepts] at ran
    cases ran
    exact (trimmed.prepared sound a).congr rfl rfl rfl
  · cases old : s.stale a with
    | false =>
      rw [modify_erased sound member accepts old] at ran
      cases ran
      exact trimmed.congr rfl rfl rfl
    | true =>
      obtain reverts | ⟨fails, -⟩ := modify_reverted sound member accepts old
      · rw [reverts] at ran
        cases ran
        exact trimmed.congr rfl rfl rfl
      · rw [fails] at ran
        cases ran

theorem Trimmed.remove (trimmed : s.Trimmed) (sound : s.Sound) (member : a ∈ s.byId) : (s.remove a).Trimmed := by
  by_cases older : s.Older a
  · rw [remove_older older]
    have opened : s.undoStack.map UndoState.removedValuesEnd ≠ [] := by
      obtain ⟨info, top, -⟩ := older
      intro none
      simp [List.map_eq_nil_iff.mp none] at top
    have new : a ∉ s.removedValues.map (fun a => a) := by simpa using sound.housed.apart member
    have same := sound.removedLayers.leftover_push (a := a) new opened
    exact ⟨trimmed.old, (congrArg List.length same).trans_le trimmed.removed⟩
  · rw [remove_newer older]
    exact trimmed.congr rfl rfl rfl

omit [Object T] in
theorem Trimmed.startUndo (trimmed : s.Trimmed) : s.startUndo.2.Trimmed := by
  constructor
  · have same := CutList.leftover_opened OldNode.self s.oldValues (s.undoStack.map UndoState.oldValuesEnd)
    exact (congrArg List.length same).trans_le trimmed.old
  · have same := CutList.leftover_opened (fun a => a) s.removedValues (s.undoStack.map UndoState.removedValuesEnd)
    exact (congrArg List.length same).trans_le trimmed.removed

omit [Object T] in
/-- What no level goes back to is all there is when there are none. -/
theorem trimmed_of_nil (old : s.oldValues = []) (removed : s.removedValues = []) (stack : s.undoStack = []) : s.Trimmed := by
  constructor <;> simp [leftoverOld, leftoverRemoved, CutList.leftover, stack, old, removed]

omit [Object T] in
theorem Trimmed.squashFast (trimmed : s.Trimmed) : s.squashFast.Trimmed := by
  unfold UndoMultiIndex.squashFast
  split
  · exact trimmed
  · exact trimmed_of_nil rfl rfl rfl
  next top rest single stack =>
    have opened : rest ≠ [] := by
      rintro rfl
      exact single rfl
    obtain ⟨old, removed⟩ := trimmed
    simp only [leftoverOld, leftoverRemoved, stack, List.map_cons] at old removed
    rw [CutList.leftover_outer (by simpa using opened)] at old removed
    exact ⟨old, removed⟩

theorem Trimmed.commit (trimmed : s.Trimmed) (sound : s.Sound) (revision : Int) : (s.commit revision).2.Trimmed := by
  obtain same | ⟨kept, dropped, info, stack, last, same⟩ | same := s.commit_cases revision
  · exact same ▸ trimmed_of_nil rfl rfl rfl
  · have older := sound.oldLayers
    have removed := sound.removedLayers
    rw [stack, List.map_append] at older removed
    rw [same]
    exact ⟨older.leftover_cut (by simp [last]), removed.leftover_cut (by simp [last])⟩
  · rwa [same]

theorem Trimmed.undo (trimmed : s.Trimmed) (sound : s.Sound) (undone : s.undo = some after) : after.Trimmed := by
  obtain ⟨-, rfl⟩ | ⟨info, rest, base, stack, -, -, rfl⟩ := sound.undo_cases undone
  · exact trimmed
  · have older := sound.oldLayers
    have removed := sound.removedLayers
    obtain ⟨few, less⟩ := trimmed
    simp only [leftoverOld, leftoverRemoved, stack, List.map_cons] at older removed few less
    exact ⟨(congrArg List.length older.leftover_closed).trans_le few,
      (congrArg List.length removed.leftover_closed).trans_le less⟩

theorem Trimmed.undoTimes {n : Nat} (trimmed : s.Trimmed) (sound : s.Sound) (undone : s.undoTimes n = some after) :
    after.Trimmed := by
  induction n generalizing s with
  | zero =>
    cases undone
    exact trimmed
  | succ n ih =>
    obtain ⟨middle, first, rest⟩ := Option.bind_eq_some_iff.mp undone
    exact ih (trimmed.undo sound first) (sound.undo first) rest

theorem Trimmed.compressImpl (trimmed : s.Trimmed) (sound : s.Sound) {last session : UndoState} {rest : List UndoState}
    (stack : s.undoStack = last :: rest) (ran : s.compressImpl last session = some after) : after.Trimmed := by
  obtain ⟨-, rfl⟩ := (compressImpl_iff sound).mp ran
  have older := sound.oldLayers
  have removed := sound.removedLayers
  obtain ⟨few, less⟩ := trimmed
  simp only [leftoverOld, leftoverRemoved, stack, List.map_cons] at older removed few less
  constructor
  · have same := older.leftover_replace
      ((s.oldValuesOf last).filter fun e => e.mtime < session.ctime && !s.isRemoved e.current)
      fun e member => List.mem_of_mem_filter member
    simpa only [leftoverOld, compressed, stack, List.map_cons, same] using few
  · have same := removed.leftover_replace ((s.removedValuesOf last).filter fun a => s.id a < session.oldNextId)
      fun a member => List.mem_of_mem_filter member
    simpa only [leftoverRemoved, compressed, stack, List.map_cons, same] using less

theorem Trimmed.squash (trimmed : s.Trimmed) (sound : s.Sound) (squashed : s.squash = some after) : after.Trimmed := by
  obtain ⟨last, session, rest, middle, stack, first, rfl⟩ | rfl := squash_cases squashed
  · exact (trimmed.compressImpl sound stack first).squashFast
  · exact trimmed.squashFast

theorem Trimmed.compressLast (trimmed : s.Trimmed) (sound : s.Sound) (compressed : s.compressLastUndoSession = some after) :
    after.Trimmed := by
  unfold compressLastUndoSession at compressed
  split at compressed
  · cases compressed
  next last rest stack => exact trimmed.compressImpl sound stack compressed

end UndoMultiIndex

namespace UndoOp
variable {T : Type} [Object T] {keys : List (Comparator T)}

theorem trimmed_step (s : UndoMultiIndex T) (op : UndoOp T) (reply : Reply) (after : UndoMultiIndex T) (sound : s.Sound)
    (trimmed : s.Trimmed) (ran : step s op = some (reply, after)) : after.Trimmed := by
  cases performs ran with
  | emplace constructor => exact trimmed.emplace sound constructor
  | modify found modified => exact trimmed.modify sound (MultiIndex.mem_of_named found).1 modified
  | remove found => exact trimmed.remove sound (MultiIndex.mem_of_named found).1
  | startUndo => exact trimmed.startUndo
  | undo undone => exact trimmed.undo sound undone
  | undoAll undone => exact trimmed.undoTimes sound undone
  | squash squashed => exact trimmed.squash sound squashed
  | squashFast => exact trimmed.squashFast
  | compress compressed | lastUndoSession compressed => exact trimmed.compressLast sound compressed
  | commit revision => exact trimmed.commit sound revision
  | setRevision set =>
    rw [UndoMultiIndex.setRevision_ok set]
    exact trimmed.congr rfl rfl rfl
  | modifyMissing | removeMissing | noSession | refused => exact trimmed

/-- In every state that calls lead to, failing ones included, each list holds what the open
levels go back to and one element more at most; without levels that is all there is. -/
theorem history_trimmed [Inhabited T] (keys : List (Comparator T)) (s : UndoMultiIndex T) (reachable : Reachable keys s) :
    s.Trimmed ∧ (s.undoStack = [] → s.oldValues.length ≤ 1 ∧ s.removedValues.length ≤ 1) := by
  have preserved : ∀ (s : UndoMultiIndex T) op reply after, s.Sound ∧ s.Trimmed → Contract s op →
      step s op = some (reply, after) → after.Sound ∧ after.Trimmed := by
    intro s op reply after ⟨sound, trimmed⟩ contract ran
    exact ⟨sound_step s op reply after sound contract ran, trimmed_step s op reply after sound trimmed ran⟩
  have initial : (UndoMultiIndex.empty keys).Trimmed := UndoMultiIndex.trimmed_of_nil rfl rfl rfl
  obtain ⟨-, trimmed⟩ := Run.Reachable.invariant reachable preserved ⟨UndoMultiIndex.sound_empty keys, initial⟩
  refine ⟨trimmed, fun stack => ?_⟩
  obtain ⟨few, less⟩ := trimmed
  simp only [UndoMultiIndex.leftoverOld, UndoMultiIndex.leftoverRemoved, stack] at few less
  exact ⟨few, less⟩

theorem history_trimmed_books :
    let ops : List (UndoOp Book) :=
      [.emplace fun id => some ⟨id, 1, 1⟩, .emplace fun id => some ⟨id, 2, 2⟩, .startUndo,
        .modify 0 fun book => ({ book with a := 3 }, false), .remove 1, .startUndo,
        .modify 0 fun book => ({ book with b := 3 }, false), .commit 1, .undo]
    let s := UndoMultiIndex.afterCalls ops
    s.Trimmed ∧ (s.undoStack = [] → s.oldValues.length ≤ 1 ∧ s.removedValues.length ≤ 1) := by
  intro ops s
  have reachable : Reachable bookKeys s :=
    ⟨ops, [.returned, .returned, .revision 1, .returned, .returned, .revision 2, .returned, .revision 2, .returned],
      by decide, rfl⟩
  exact history_trimmed bookKeys s reachable

end UndoOp
end ChainBase
