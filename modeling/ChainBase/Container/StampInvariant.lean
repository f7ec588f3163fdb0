import ChainBase.Container.UndoRefinement

/-! What the stamps of an undo container tell. From the stamp of a node alone it is
known for every open level whether the log or the node itself has the value that the
object had when the level was started. -/

namespace ChainBase
open OrderedSequence Snapshot StampLog

namespace UndoMultiIndex
variable {T : Type} [Object T] {keys : List (Comparator T)} {s : UndoMultiIndex T} {u : UndoState}

/-- The backups of an object that a level has in its part of the log and that are
older than the level. -/
def backupsOf (s : UndoMultiIndex T) (u : UndoState) (id : Nat) : List (OldNode T) :=
  (s.oldValuesOf u).filter fun e => Object.id e.item = id ∧ e.mtime < u.ctime

def Remembers (s : UndoMultiIndex T) (u : UndoState) (a : Addr) (v : T) : Prop :=
  if u.ctime ≤ s.mtime a then ∃ e, s.backupsOf u (s.id a) = [e] ∧ e.item = v
  else s.backupsOf u (s.id a) = [] ∧ s.value a = v

/-- The stamps of levels and nodes, and what they tell of the tables that were
current when the levels were started. -/
structure StampInvariant (s : UndoMultiIndex T) (started : List (Table T keys)) : Prop where
  increasing : s.undoStack.Pairwise fun inner outer => outer.ctime < inner.ctime
  levelStamps : ∀ u ∈ s.undoStack, u.ctime ≤ s.monotonicRevision
  nodeStamps : ∀ a, s.mtime a ≤ s.monotonicRevision
  values : List.Forall₂ (fun u t => ∀ i v, t.objects i = some v →
    ∃ a, s.Kept s.removedValues a ∧ s.id a = i ∧ (∀ b, s.Kept s.removedValues b → s.id b = i → b = a) ∧ s.Remembers u a v)
    s.undoStack started

theorem Saves.backupsOf_eq {t : Table T keys} (saves : s.Saves u t) (sound : s.Sound) {a : Addr}
    (inside : s.Kept s.removedValues a) :
    (s.backupsOf u (s.id a)).map OldNode.entry = counted u.ctime ((s.oldValuesOf u).map OldNode.entry) a := by
  rw [counted, List.filter_map, backupsOf]
  refine congrArg _ (List.filter_congr fun e member => decide_eq_decide.mpr (and_congr_left fun older => ?_))
  obtain ⟨kept, -, -, keyed⟩ := saves.live sound member older
  rw [keyed]
  exact ⟨fun same => sound.housed.ids _ _ (kept.imp_right mem_removedValuesOf) inside same, fun same => congrArg s.id same⟩

theorem Saves.remembers {t : Table T keys} (saves : s.Saves u t) (sound : s.Sound) {i : Nat} {v : T}
    (found : t.objects i = some v) :
    ∃ a, s.Kept s.removedValues a ∧ s.id a = i ∧ (∀ b, s.Kept s.removedValues b → s.id b = i → b = a) ∧ s.Remembers u a v := by
  obtain ⟨low, a, present, keyed⟩ := saves.recovers.complete i v found
  have inside : s.Kept s.removedValues a := present.imp_right mem_removedValuesOf
  have sameId : s.id a = i := keyed
  obtain ⟨w, original, holds⟩ := saves.recovers.holds a present (keyed ▸ low)
  obtain rfl : v = w := Option.some.inj (found.symm.trans (keyed ▸ original))
  refine ⟨a, inside, sameId, fun b other same => sound.housed.ids b a other inside (same.trans sameId.symm), ?_⟩
  unfold Holds at holds
  rw [← saves.backupsOf_eq sound inside] at holds
  unfold Remembers
  by_cases later : u.ctime ≤ s.mtime a
  · rw [if_pos later]
    rw [if_pos (show u.ctime ≤ s.cells.stamp a from later)] at holds
    obtain ⟨entry, single, same⟩ := holds
    obtain ⟨e, only, rfl⟩ := List.map_eq_singleton_iff.mp single
    exact ⟨e, only, same⟩
  · rw [if_neg later]
    rw [if_neg (show ¬ u.ctime ≤ s.cells.stamp a from later)] at holds
    exact ⟨List.map_eq_nil_iff.mp holds.1, holds.2⟩

theorem Refines.stampInvariant {v : Versioned (Table T keys)} (refines : s.Refines v) : s.StampInvariant v.saved where
  increasing := refines.sound.ordered.imp And.left
  levelStamps u level := (refines.sound.bounded u level).1
  nodeStamps := refines.stamps
  values := refines.saved.imp fun _ _ saves _ _ => saves.remembers refines.sound

end UndoMultiIndex

namespace UndoOp
variable {T : Type} [Object T]

/-- Every container that a run without conflicting modifications reaches has the
invariant, for the tables that its open levels go back to. -/
theorem stamps_tell_started_values [Inhabited T] (keys : List (Comparator T)) (ops : List (UndoOp T))
    (legal : Run.Permitted step Legal (UndoMultiIndex.empty keys) ops) :
    ∃ s, Run.run step (UndoMultiIndex.empty keys) ops = some ((Run.follow spec ⟨Table.empty keys, [], 0⟩ ops).1, s) ∧
      s.StampInvariant (Run.follow spec ⟨Table.empty keys, [], 0⟩ ops).2.saved := by
  obtain ⟨s, ran, refines⟩ := Run.simulates simulated (UndoMultiIndex.Refines.empty keys) legal
  exact ⟨s, ran, refines.stampInvariant⟩

theorem stamps_tell_started_values_books :
    let ops : List (UndoOp Book) :=
      [.emplace fun id => some ⟨id, 1, 1⟩, .emplace fun id => some ⟨id, 2, 2⟩, .startUndo,
        .modify 0 fun book => ({ book with a := 3 }, false), .startUndo, .modify 0 fun book => ({ book with a := 4 }, false),
        .remove 1, .startUndo, .emplace fun id => some ⟨id, 2, 5⟩, .squashFast, .commit 2]
    ∃ s, Run.run step (UndoMultiIndex.empty bookKeys) ops =
        some ((Run.follow spec ⟨Table.empty bookKeys, [], 0⟩ ops).1, s) ∧
      s.StampInvariant (Run.follow spec ⟨Table.empty bookKeys, [], 0⟩ ops).2.saved := by
  intro ops
  exact stamps_tell_started_values bookKeys ops (by decide)

/-- Behind the largest id, a book from before the level is removed for good: neither a
node nor a backup has the value it had when the level was started. -/
theorem largest_id_not_kept :
    let ops : List (UndoOp Book) := [.emplace fun _ => some lastBook, .startUndo, .remove lastBook.id]
    ∃ s, Run.run step (UndoMultiIndex.empty bookKeys) ops = some ([.returned, .revision 1, .returned], s) ∧
      ¬ s.StampInvariant (Run.follow spec ⟨Table.empty bookKeys, [], 0⟩ ops).2.saved := by
  refine ⟨_, rfl, ?_⟩
  rintro ⟨-, -, -, values⟩
  obtain ⟨started, -⟩ := List.forall₂_cons.mp values
  obtain ⟨a, linked | listed, -⟩ := started (Object.id lastBook) lastBook (Table.emplace_first lastBook)
  · cases linked
  · cases listed

end UndoOp
end ChainBase
