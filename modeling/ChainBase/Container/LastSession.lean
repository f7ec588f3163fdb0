import ChainBase.Container.UndoRefinement
import ChainBase.Library.Difference

/-! `last_undo_session`. Once the last session has been compressed, its parts of both
lists and the new ids are the difference between the table it goes back to and the
current one. -/

namespace ChainBase
open OrderedSequence Snapshot StampLog

namespace UndoMultiIndex
variable {T : Type} [Object T] {keys : List (Comparator T)} {s : UndoMultiIndex T} {info : UndoState} {rest : List UndoState}

/-- What compression leaves of the last session: one backup for a linked node at most,
and removed nodes that the session did not make itself. -/
structure Compact (s : UndoMultiIndex T) (info : UndoState) : Prop where
  backups : ∀ e ∈ s.oldValuesOf info, e.mtime < info.ctime ∧ e.current ∈ s.byId
  removals : ∀ a ∈ s.removedValuesOf info, s.id a < info.oldNextId

theorem Saves.compact {t : Table T keys} (saves : s.Saves info t) (sound : s.Sound) (stack : s.undoStack = info :: rest) :
    (s.compressed info info).Compact info := by
  have level : info ∈ s.undoStack := by simp [stack]
  have live : s.LiveSince info info := fun e inside counted => (saves.live sound inside counted).2.2.1
  have byId : (s.compressed info info).byId = s.byId := by
    simp only [compressed, MultiIndex.disposeNodes_eq]
    exact (MultiIndex.restoreAll_frame _ _).1
  constructor
  · intro e member
    rw [sound.compressed_oldValuesOf stack level, CutList.above_below, List.append_nil, List.mem_filter,
      Bool.and_eq_true, decide_eq_true_eq, Bool.not_eq_true'] at member
    obtain ⟨inside, counted, present⟩ := member
    refine ⟨counted, ?_⟩
    rw [byId]
    rcases (saves.live sound inside counted).1 with linked | removed
    · exact linked
    · rw [sound.housed.flagged _ (mem_removedValuesOf removed)] at present
      cases present
  · intro a member
    rw [sound.compressed_removedValuesOf stack level, CutList.above_below, List.append_nil, List.mem_filter,
      decide_eq_true_eq] at member
    rw [compressed_id sound live]
    exact member.2

namespace Compact
variable {before : Table T keys} {a : Addr} {e : OldNode T}

theorem logged (compact : s.Compact info) {entry : StampLog.Entry Addr T}
    (counts : entry ∈ counted info.ctime ((s.oldValuesOf info).map OldNode.entry) a) :
    a ∈ s.byId ∧ ∃ e ∈ s.oldValuesOf info, e.current = a ∧ e.entry = entry := by
  obtain ⟨listed, cell, -⟩ := mem_counted.mp counts
  obtain ⟨e, member, rfl⟩ := List.mem_map.mp listed
  obtain rfl : e.current = a := cell
  exact ⟨(compact.backups e member).2, e, member, rfl, rfl⟩

theorem removed_value (compact : s.Compact info) (saves : s.Saves info before) (sound : s.Sound)
    (member : a ∈ s.removedValuesOf info) : before.objects (s.id a) = some (s.value a) := by
  obtain ⟨v, found, holds⟩ := saves.recovers.holds a (.inr member) (compact.removals a member)
  unfold Holds at holds
  split at holds
  · obtain ⟨entry, single, -⟩ := holds
    have linked := (compact.logged (by rw [single]; exact List.mem_singleton_self entry)).1
    exact absurd (mem_removedValuesOf member) (sound.housed.apart linked)
  · exact found.trans (congrArg some holds.2.symm)

theorem backup_value (compact : s.Compact info) (saves : s.Saves info before) (sound : s.Sound)
    (member : e ∈ s.oldValuesOf info) : Object.id e.item = s.id e.current ∧ s.id e.current < info.oldNextId ∧
      before.objects (s.id e.current) = some e.item := by
  obtain ⟨counted, -⟩ := compact.backups e member
  obtain ⟨present, low, -, keyed⟩ := saves.live sound member counted
  obtain ⟨v, found, holds⟩ := saves.recovers.holds e.current present low
  have own : e.entry ∈ StampLog.counted info.ctime ((s.oldValuesOf info).map OldNode.entry) e.current :=
    mem_counted.mpr ⟨List.mem_map_of_mem member, rfl, counted⟩
  refine ⟨keyed, low, found.trans (congrArg some ?_)⟩
  unfold Holds at holds
  split at holds
  · obtain ⟨entry, single, same⟩ := holds
    rw [single, List.mem_singleton] at own
    rw [← same, ← own]
    rfl
  · rw [holds.1] at own
    cases own

theorem kept_value (compact : s.Compact info) (saves : s.Saves info before) (sound : s.Sound) (member : a ∈ s.byId)
    (low : s.id a < info.oldNextId) (unlogged : s.id a ∉ ((s.oldValuesOf info).map OldNode.item).map Object.id) :
    before.objects (s.id a) = some (s.value a) := by
  obtain ⟨v, found, holds⟩ := saves.recovers.holds a (.inl member) low
  unfold Holds at holds
  split at holds
  · obtain ⟨entry, single, -⟩ := holds
    obtain ⟨-, e, inside, same, -⟩ := compact.logged (a := a) (by rw [single]; exact List.mem_singleton_self entry)
    refine absurd ?_ unlogged
    rw [← same, ← (compact.backup_value saves sound inside).1]
    exact List.mem_map_of_mem (List.mem_map_of_mem inside)
  · exact found.trans (congrArg some holds.2.symm)

theorem backups_nodup (compact : s.Compact info) (saves : s.Saves info before) : ((s.oldValuesOf info).map OldNode.current).Nodup := by
  have nodup := StampLog.cells_nodup (fun a => (saves.recovers.guarded a).once) (by
    intro entry listed
    obtain ⟨e, member, rfl⟩ := List.mem_map.mp listed
    exact (compact.backups e member).1)
  rwa [List.map_map] at nodup

theorem apart (compact : s.Compact info) (saves : s.Saves info before) (sound : s.Sound) :
    (s.byId.filter (info.oldNextId ≤ s.id ·) ++ (s.oldValuesOf info).map OldNode.current ++ s.removedValuesOf info).Nodup ∧
    ∀ a ∈ s.byId.filter (info.oldNextId ≤ s.id ·) ++ (s.oldValuesOf info).map OldNode.current ++ s.removedValuesOf info,
      s.Kept s.removedValues a := by
  have removedOnce : (s.removedValuesOf info).Nodup := sound.housed.nodup.sublist (CutList.above_initial _ _).sublist
  have linked : ∀ a ∈ s.byId.filter (info.oldNextId ≤ s.id ·) ++ (s.oldValuesOf info).map OldNode.current, a ∈ s.byId := by
    intro a member
    rcases List.mem_append.mp member with new | old
    · exact List.mem_of_mem_filter new
    · obtain ⟨e, inside, rfl⟩ := List.mem_map.mp old
      exact (compact.backups e inside).2
  constructor
  · rw [List.nodup_append', List.nodup_append']
    refine ⟨⟨sound.housed.linked.nodup.filter _, compact.backups_nodup saves, ?_⟩, removedOnce, ?_⟩
    · intro a new old
      obtain ⟨e, inside, rfl⟩ := List.mem_map.mp old
      have low := (compact.backup_value saves sound inside).2.1
      have high := of_decide_eq_true (List.mem_filter.mp new).2
      omega
    · intro a member removed
      exact sound.housed.apart (linked a member) (mem_removedValuesOf removed)
  · intro a member
    rcases List.mem_append.mp member with member | removed
    · exact .inl (linked a member)
    · exact .inr (mem_removedValuesOf removed)

theorem difference {now : Table T keys} (compact : s.Compact info) (saves : s.Saves info before) (sound : s.Sound)
    (current : s.Represents now) :
    Difference.Exact Object.id before.objects now.objects ((s.byId.filter (info.oldNextId ≤ s.id ·)).map s.value)
      ((s.oldValuesOf info).map OldNode.item) ((s.removedValuesOf info).map s.value) := by
  have older : ∀ {i v}, before.objects i = some v → i < info.oldNextId := fun found => (saves.recovers.complete _ _ found).1
  refine Difference.exact_of before.keyed now.keyed (fun v => ⟨?_, ?_⟩) (fun v => ⟨?_, ?_⟩) (fun v changed => ?_) ?_ ?_
  · intro added
    obtain ⟨a, member, rfl⟩ := List.mem_map.mp added
    obtain ⟨linked, high⟩ := List.mem_filter.mp member
    refine ⟨current.object linked, Option.eq_none_iff_forall_ne_some.mpr fun w found => ?_⟩
    exact absurd (older found) (Nat.not_lt.mpr (of_decide_eq_true high))
  · rintro ⟨present, absent⟩
    obtain ⟨a, linked, same, rfl⟩ := current.node present
    refine List.mem_map_of_mem (List.mem_filter.mpr ⟨linked, decide_eq_true ?_⟩)
    by_contra low
    obtain ⟨w, found, -⟩ := saves.recovers.holds a (.inl linked) (Nat.not_le.mp low)
    exact Option.some_ne_none w (found.symm.trans absent)
  · intro removed
    obtain ⟨a, member, rfl⟩ := List.mem_map.mp removed
    refine ⟨compact.removed_value saves sound member, Option.eq_none_iff_forall_ne_some.mpr fun w found => ?_⟩
    obtain ⟨b, linked, same, -⟩ := current.node found
    have inside := mem_removedValuesOf member
    obtain rfl := sound.housed.ids b a (.inl linked) (.inr inside) same
    exact sound.housed.apart linked inside
  · rintro ⟨past, gone⟩
    obtain ⟨-, a, present, same⟩ := saves.recovers.complete _ _ past
    rcases present with linked | removed
    · have found := current.object linked
      rw [show s.id a = Object.id v from same, gone] at found
      cases found
    · have found := compact.removed_value saves sound removed
      rw [show s.id a = Object.id v from same, past] at found
      cases found
      exact List.mem_map_of_mem removed
  · obtain ⟨e, member, rfl⟩ := List.mem_map.mp changed
    obtain ⟨same, -, found⟩ := compact.backup_value saves sound member
    rw [same]
    exact ⟨found, Option.isSome_iff_exists.mpr ⟨_, current.object (compact.backups e member).2⟩⟩
  · obtain ⟨nodup, kept⟩ := compact.apart saves sound
    have ids := nodup.map_on fun a first b second same => sound.housed.ids a b (kept a first) (kept b second) same
    have keyed : ((s.oldValuesOf info).map OldNode.item).map Object.id = ((s.oldValuesOf info).map OldNode.current).map s.id := by
      rw [List.map_map, List.map_map]
      exact List.map_congr_left fun e member => (compact.backup_value saves sound member).1
    have values : ∀ l : List Addr, (l.map s.value).map Object.id = l.map s.id := fun l => List.map_map
    rw [List.map_append, List.map_append, keyed, values, values]
    rwa [List.map_append, List.map_append] at ids
  · intro i v w past present unchanged
    obtain ⟨a, linked, rfl, rfl⟩ := current.node present
    have kept := compact.kept_value saves sound linked (older past) unchanged
    exact Option.some.inj (kept.symm.trans past)

end Compact

/-- `last_undo_session` compresses the level, which leaves everything else as it
stands for the same table, and returns the difference that the level has made. -/
theorem Refines.lastUndoSession {v : Versioned (Table T keys)} {before : Table T keys} {older : List (Table T keys)}
    (refines : s.Refines v) (copies : v.saved = before :: older) :
    ∃ delta after, s.lastUndoSession = some (delta, after) ∧ after.Refines v ∧
      Difference.Exact Object.id before.objects v.current.objects (delta.newValues.map after.value)
        (delta.oldValues.map OldNode.item) (delta.removedValues.map after.value) := by
  have saved := refines.saved
  rw [copies] at saved
  obtain ⟨info, rest, saves, -, stack⟩ := List.forall₂_cons_right_iff.mp saved
  obtain ⟨after, ran, kept⟩ := refines.compressLast (by simp [stack])
  have live : s.LiveSince info info := fun e inside counted => (saves.live refines.sound inside counted).2.2.1
  have state : s.compressLastUndoSession = some (s.compressed info info) := by
    simp only [compressLastUndoSession, stack]
    exact (compressImpl_iff refines.sound).mpr ⟨live, rfl⟩
  obtain rfl : s.compressed info info = after := Option.some.inj (state.symm.trans ran)
  have again := kept.saved
  rw [copies, show (s.compressed info info).undoStack = info :: rest from stack] at again
  have later := (List.forall₂_cons.mp again).1
  obtain ⟨delta, parts, returned⟩ : ∃ delta : Delta T, delta = ⟨(s.compressed info info).byId.filter
      (info.oldNextId ≤ (s.compressed info info).id ·), (s.compressed info info).oldValuesOf info,
        (s.compressed info info).removedValuesOf info⟩ ∧ s.lastUndoSession = some (delta, s.compressed info info) := by
    refine ⟨_, rfl, ?_⟩
    rw [← (MultiIndex.cut_eq kept.sound.housed.linked.sorted info.oldNextId).2]
    simp only [UndoMultiIndex.lastUndoSession, stack, state, Option.bind_eq_bind, Option.bind_some]
  refine ⟨delta, _, returned, kept, ?_⟩
  rw [parts]
  exact (saves.compact refines.sound stack).difference later kept.sound kept.current

end UndoMultiIndex

namespace UndoOp
variable {T : Type} [Object T] {keys : List (Comparator T)}

/-- In every container with an open level that a legal run reaches,
`last_undo_session` returns the exact difference between the table the level goes
back to and the current one. -/
theorem last_undo_session_exact [Inhabited T] (keys : List (Comparator T)) (ops : List (UndoOp T))
    (legal : Run.Permitted step Legal (UndoMultiIndex.empty keys) ops) :
    ∃ s, Run.run step (UndoMultiIndex.empty keys) ops = some ((Run.follow spec ⟨Table.empty keys, [], 0⟩ ops).1, s) ∧
      s.Shows (Run.follow spec ⟨Table.empty keys, [], 0⟩ ops).2 ∧
      ∀ before older, (Run.follow spec ⟨Table.empty keys, [], 0⟩ ops).2.saved = before :: older →
        ∃ delta after, s.lastUndoSession = some (delta, after) ∧
          Difference.Exact Object.id before.objects (Run.follow spec ⟨Table.empty keys, [], 0⟩ ops).2.current.objects
            (delta.newValues.map after.value) (delta.oldValues.map OldNode.item) (delta.removedValues.map after.value) := by
  obtain ⟨s, ran, refines⟩ := Run.simulates simulated (UndoMultiIndex.Refines.empty keys) legal
  refine ⟨s, ran, refines.stands.shows, fun before older copies => ?_⟩
  obtain ⟨delta, after, returned, -, exact⟩ := refines.lastUndoSession copies
  exact ⟨delta, after, returned, exact⟩

theorem last_undo_session_exact_books :
    let ops : List (UndoOp Book) :=
      [.emplace fun id => some ⟨id, 1, 1⟩, .emplace fun id => some ⟨id, 2, 2⟩, .startUndo,
        .modify 0 fun book => ({ book with a := 3 }, false), .startUndo, .emplace fun id => some ⟨id, 1, 5⟩,
        .modify 0 fun book => ({ book with a := 4 }, false), .modify 1 fun book => ({ book with b := 7 }, true),
        .squashFast, .remove 0]
    ∃ s, Run.run step (UndoMultiIndex.empty bookKeys) ops =
        some ((Run.follow spec ⟨Table.empty bookKeys, [], 0⟩ ops).1, s) ∧
      s.Shows (Run.follow spec ⟨Table.empty bookKeys, [], 0⟩ ops).2 ∧
      ∀ before older, (Run.follow spec ⟨Table.empty bookKeys, [], 0⟩ ops).2.saved = before :: older →
        ∃ delta after, s.lastUndoSession = some (delta, after) ∧
          Difference.Exact Object.id before.objects (Run.follow spec ⟨Table.empty bookKeys, [], 0⟩ ops).2.current.objects
            (delta.newValues.map after.value) (delta.oldValues.map OldNode.item) (delta.removedValues.map after.value) := by
  intro ops
  exact last_undo_session_exact bookKeys ops (by decide)

/-- Behind the largest id, a book from before the session is told as a new one. -/
theorem largest_id_told_new :
    let ops : List (UndoOp Book) := [.emplace fun _ => some lastBook, .startUndo]
    let v := (Run.follow spec ⟨Table.empty bookKeys, [], 0⟩ ops).2
    ∃ s before delta after, Run.run step (UndoMultiIndex.empty bookKeys) ops = some ([.returned, .revision 1], s) ∧
      v.saved = [before] ∧ s.lastUndoSession = some (delta, after) ∧
      ¬ Difference.Exact Object.id before.objects v.current.objects
        (delta.newValues.map after.value) (delta.oldValues.map OldNode.item) (delta.removedValues.map after.value) := by
  refine ⟨_, _, _, _, rfl, rfl, rfl, fun exact => ?_⟩
  obtain ⟨-, absent⟩ := (exact.additions lastBook).mp (by decide)
  change ((Table.empty bookKeys).emplace fun _ => some lastBook).2.objects _ = none at absent
  rw [Table.emplace_first] at absent
  cases absent

end UndoOp
end ChainBase
