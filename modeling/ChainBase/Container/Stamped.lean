import ChainBase.Container.Recovery

/-! No stamp, of a node or of a backup, is ahead of the counter that stamps are taken
from, whatever calls fail. -/

namespace ChainBase
open OrderedSequence

namespace UndoMultiIndex
variable {T : Type}

structure Stamped (s : UndoMultiIndex T) : Prop where
  nodes : ∀ a, s.mtime a ≤ s.monotonicRevision
  backups : ∀ e ∈ s.oldValues, e.mtime ≤ s.monotonicRevision

variable {s after : UndoMultiIndex T} {a : Addr} {item : T}

theorem Stamped.rebase (stamped : s.Stamped) {base : MultiIndex T UndoNodeExtra}
    (nodes : ∀ a, base.mtime a ≤ s.monotonicRevision) : { s with toMultiIndex := base }.Stamped :=
  ⟨nodes, stamped.backups⟩

theorem Stamped.stampNow (stamped : s.Stamped) (a : Addr) :
    { s with toMultiIndex := s.setMtime a s.monotonicRevision }.Stamped := by
  apply stamped.rebase
  intro b
  rw [MultiIndex.setMtime_mtime]
  by_cases own : b = a
  · rw [own, Function.update_self]
  · rw [Function.update_of_ne own]
    exact stamped.nodes b

theorem Stamped.newNode (stamped : s.Stamped) (item : T) (a : Addr) :
    ((Function.update s.nodes s.fresh ⟨item, default, 0⟩ : Addr → Node T UndoNodeExtra) a).extra.mtime ≤
      s.monotonicRevision := by
  by_cases new : a = s.fresh
  · rw [new, Function.update_self]
    exact Nat.zero_le _
  · rw [Function.update_of_ne new]
    exact stamped.nodes a

theorem Stamped.onCreate (stamped : s.Stamped) (a : Addr) : (s.onCreate a).Stamped := by
  unfold UndoMultiIndex.onCreate
  split
  · exact stamped
  · exact stamped.stampNow a

theorem Stamped.startUndo (stamped : s.Stamped) : s.startUndo.2.Stamped where
  nodes a := (stamped.nodes a).trans (Nat.le_succ _)
  backups e member := (stamped.backups e member).trans (Nat.le_succ _)

theorem Stamped.setRevision (stamped : s.Stamped) {revision : Nat} (ran : s.setRevision revision = .ok after) :
    after.Stamped := by
  rw [setRevision_ok ran]
  exact { stamped with }

theorem Stamped.disposeUndo (stamped : s.Stamped) {revision : Int} :
    { s.disposeUndo with undoStack := [], revision }.Stamped where
  nodes a := by
    simp only [UndoMultiIndex.disposeUndo, MultiIndex.disposeNodes_eq]
    exact stamped.nodes a
  backups := by simp [UndoMultiIndex.disposeUndo]

theorem Stamped.squashFast (stamped : s.Stamped) : s.squashFast.Stamped := by
  unfold UndoMultiIndex.squashFast
  split
  · exact stamped
  · exact stamped.disposeUndo
  · exact ⟨stamped.nodes, stamped.backups⟩

theorem Stamped.dispose (stamped : s.Stamped) (info : UndoState) (kept : List UndoState) :
    { s.dispose info with undoStack := kept }.Stamped where
  nodes a := by
    simp only [UndoMultiIndex.dispose, MultiIndex.disposeNodes_eq]
    exact stamped.nodes a
  backups e member := stamped.backups e (CutList.cut_subset member)

theorem Stamped.commit (stamped : s.Stamped) (revision : Int) : (s.commit revision).2.Stamped := by
  obtain same | ⟨kept, -, info, -, -, same⟩ | same := s.commit_cases revision
  · exact same ▸ stamped.disposeUndo
  · exact same ▸ stamped.dispose info kept
  · rwa [same]

theorem Stamped.prepared (stamped : s.Stamped) (a : Addr) : (s.prepared a).Stamped := by
  unfold UndoMultiIndex.prepared
  split
  · refine ⟨(stamped.stampNow a).nodes, ?_⟩
    intro e member
    rcases List.mem_cons.mp member with rfl | old
    · exact stamped.nodes a
    · exact stamped.backups e old
  · exact stamped

theorem Stamped.settle (stamped : s.Stamped) (a : Addr) (item : T) :
    { s with toMultiIndex := s.settle a item }.Stamped := by
  apply stamped.rebase
  intro b
  have same : (s.settle a item).mtime b = s.mtime b := congrFun (MultiIndex.setItem_mtime s.toMultiIndex a item) b
  rw [same]
  exact stamped.nodes b

theorem Stamped.destroy (stamped : s.Stamped) (a : Addr) (item : T) :
    { s with toMultiIndex := (s.setItem a item).remove a }.Stamped := by
  apply stamped.rebase
  intro b
  have same : ((s.setItem a item).remove a).mtime b = s.mtime b :=
    congrFun (MultiIndex.setItem_mtime s.toMultiIndex a item) b
  rw [same]
  exact stamped.nodes b

variable [Object T]

theorem Stamped.emplace (stamped : s.Stamped) (sound : s.Sound) (constructor : Nat → Option T) :
    (s.emplace constructor).2.Stamped := by
  cases constructs : constructor s.nextId with
  | none =>
    rw [emplace_threw constructs]
    exact stamped.rebase stamped.nodes
  | some item =>
    have new : { s with toMultiIndex := s.linkNew item }.Stamped := stamped.rebase (stamped.newNode item)
    by_cases clear : s.Clear s.fresh item
    · rw [emplace_accepted sound constructs clear]
      exact new.onCreate _
    · rw [emplace_refused sound constructs clear]
      exact stamped.rebase (stamped.newNode item)

theorem Stamped.modify (stamped : s.Stamped) (sound : s.Sound) (member : a ∈ s.byId) {modifier : T → T × Bool}
    {thrown : Option Thrown} (ran : s.modify a modifier = some (thrown, after)) : after.Stamped := by
  by_cases accepts : s.Accepts a (modifier (s.value a)).1
  · rw [modify_kept sound member accepts] at ran
    cases ran
    exact (stamped.prepared a).settle a _
  · cases old : s.stale a with
    | false =>
      rw [modify_erased sound member accepts old] at ran
      cases ran
      exact stamped.destroy a _
    | true =>
      obtain reverts | ⟨fails, -⟩ := modify_reverted sound member accepts old
      · rw [reverts] at ran
        cases ran
        have stampedNow := stamped.stampNow a
        exact ⟨stampedNow.nodes, stamped.backups⟩
      · rw [fails] at ran
        cases ran

theorem Stamped.remove (stamped : s.Stamped) (a : Addr) : (s.remove a).Stamped := by
  by_cases older : s.Older a
  · rw [remove_older older]
    refine ⟨?_, stamped.backups⟩
    intro b
    have same : (s.retired a).mtime b = s.mtime b := congrFun (MultiIndex.setRemovedField_mtime (s.eraseImpl a) a _) b
    rw [same]
    exact stamped.nodes b
  · rw [remove_newer older]
    exact stamped.destroy a _

theorem Stamped.restored (stamped : s.Stamped) (sound : s.Sound) (info : UndoState) (a : Addr) :
    (s.restored info).mtime a ≤ s.monotonicRevision := by
  obtain ⟨indices, cut, -, -⟩ := MultiIndex.eraseNewIds_eq sound.housed.linked info.oldNextId
  apply MultiIndex.restoreAll_mtime_le
  · intro e member
    exact stamped.backups e (mem_oldValuesOf (List.mem_of_mem_filter member))
  · intro b
    rw [cut]
    exact stamped.nodes b

theorem Stamped.undo (stamped : s.Stamped) (sound : s.Sound) (undone : s.undo = some after) : after.Stamped := by
  obtain ⟨-, rfl⟩ | ⟨info, rest, base, -, live, inserted, rfl⟩ := sound.undo_cases undone
  · exact stamped
  · obtain ⟨-, reinserted⟩ := sound.reinserted live inserted
    constructor
    · intro a
      have same : (s.popped info rest base).mtime a = (s.restored info).mtime a := congrFun reinserted.mtime a
      rw [same]
      exact stamped.restored sound info a
    · exact fun e member => stamped.backups e (CutList.below_subset member)

theorem Stamped.undoTimes {n : Nat} (stamped : s.Stamped) (sound : s.Sound) (undone : s.undoTimes n = some after) :
    after.Stamped := by
  induction n generalizing s with
  | zero =>
    cases undone
    exact stamped
  | succ n ih =>
    obtain ⟨middle, first, rest⟩ := Option.bind_eq_some_iff.mp undone
    exact ih (stamped.undo sound first) (sound.undo first) rest

theorem Stamped.compressed (stamped : s.Stamped) (last session : UndoState) : (s.compressed last session).Stamped where
  nodes a := by
    simp only [UndoMultiIndex.compressed, MultiIndex.disposeNodes_eq]
    refine MultiIndex.restoreAll_mtime_le (fun e member => ?_) stamped.nodes a
    exact stamped.backups e (mem_oldValuesOf (List.mem_of_mem_filter member))
  backups e member := stamped.backups e (CutList.replaced_subset (fun _ inside => List.mem_of_mem_filter inside) member)

theorem Stamped.compressImpl (stamped : s.Stamped) (sound : s.Sound) {last session : UndoState}
    (ran : s.compressImpl last session = some after) : after.Stamped := by
  obtain ⟨-, rfl⟩ := (compressImpl_iff sound).mp ran
  exact stamped.compressed last session

theorem Stamped.squash (stamped : s.Stamped) (sound : s.Sound) (ran : s.squash = some after) : after.Stamped := by
  obtain ⟨last, session, rest, middle, -, first, rfl⟩ | rfl := squash_cases ran
  · exact (stamped.compressImpl sound first).squashFast
  · exact stamped.squashFast

theorem Stamped.compressLastUndoSession (stamped : s.Stamped) (sound : s.Sound)
    (ran : s.compressLastUndoSession = some after) : after.Stamped := by
  unfold UndoMultiIndex.compressLastUndoSession at ran
  split at ran
  · cases ran
  · exact stamped.compressImpl sound ran

end UndoMultiIndex
end ChainBase
