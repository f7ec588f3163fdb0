import ChainBase.Container.Sound
import ChainBase.Container.Represents
import ChainBase.Library.Snapshot

/-! What a level of the undo stack remembers: the table at the time it was opened,
as its parts of the two lists and the present nodes tell. -/

namespace ChainBase
open OrderedSequence Snapshot

/-- A backup as an entry of a stamped log. -/
def OldNode.entry {T : Type} (e : OldNode T) : StampLog.Entry Addr T := ⟨e.current, e.item, e.mtime⟩

namespace MultiIndex
variable {T : Type}

def cells (s : MultiIndex T UndoNodeExtra) : StampLog.Cells Addr T := ⟨s.value, s.mtime⟩

theorem restoreAll_cells (entries : List (OldNode T)) (s : MultiIndex T UndoNodeExtra) :
    (entries.foldl restoreOne s).cells = (entries.map OldNode.entry).foldl StampLog.Cells.fold s.cells := by
  induction entries generalizing s with
  | nil => rfl
  | cons e rest ih =>
    rw [List.foldl_cons, ih, List.map_cons, List.foldl_cons]
    congr 1
    simp [cells, StampLog.Cells.fold, OldNode.entry]

end MultiIndex

namespace UndoMultiIndex
variable {T : Type} [Object T] {keys : List (Comparator T)}

/-- The level goes back to this table. -/
structure Saves (s : UndoMultiIndex T) (u : UndoState) (t : Table T keys) : Prop where
  nextId : u.oldNextId = t.nextId
  recovers : Recovers Object.id s.cells (s.Kept (s.removedValuesOf u)) ((s.oldValuesOf u).map OldNode.entry)
    u.ctime u.oldNextId t.objects

variable {s after : UndoMultiIndex T} {u top session : UndoState} {t : Table T keys} {a : Addr} {item : T}

omit [Object T] in
theorem mem_removedValuesOf (member : a ∈ s.removedValuesOf u) : a ∈ s.removedValues := CutList.above_subset member

theorem Sound.kept (sound : s.Sound) (inside : s.Kept (s.removedValuesOf u) a) : a < s.fresh ∧ s.disposed a = 0 :=
  sound.housed.live (inside.imp_right mem_removedValuesOf)

theorem Sound.newest (sound : s.Sound) (top : UndoState) (first : top ∈ s.undoStack.head?) (member : u ∈ s.undoStack) :
    u.ctime ≤ top.ctime ∧ u.oldNextId ≤ top.oldNextId := by
  cases stack : s.undoStack with
  | nil => simp [stack] at first
  | cons info rest =>
    obtain rfl : info = top := by simpa [stack] using first
    have order := sound.ordered
    rw [stack] at order member
    rcases List.mem_cons.mp member with rfl | member
    · exact ⟨Nat.le_refl _, Nat.le_refl _⟩
    · have older := (List.pairwise_cons.mp order).1 u member
      exact ⟨Nat.le_of_lt older.1, older.2⟩

/-! ## Data operations -/

theorem Saves.wasteNode (saves : s.Saves u t) (sound : s.Sound) {nodes : Addr → Node T UndoNodeExtra}
    (same : ∀ a, a ≠ s.fresh → nodes a = s.nodes a) : { s with toMultiIndex := s.wasteNode nodes }.Saves u t := by
  have old : ∀ a, s.Kept (s.removedValuesOf u) a → nodes a = s.nodes a := fun a inside =>
    same a fun equal => absurd (equal ▸ (sound.kept inside).1) (Nat.lt_irrefl _)
  refine ⟨saves.nextId, saves.recovers.congr ?_ ?_⟩
  · exact fun a inside => congrArg Node.item (old a inside)
  · exact fun a inside => congrArg (fun node : Node T UndoNodeExtra => node.extra.mtime) (old a inside)

theorem Saves.emplaced (saves : s.Saves u t) (sound : s.Sound) (member : u ∈ s.undoStack)
    (ascending : s.nextId ≤ Object.id item) :
    ({ s with toMultiIndex := s.linkNew item }.onCreate s.fresh).Saves u t := by
  obtain ⟨info, rest, stack⟩ := List.exists_cons_of_ne_nil (List.ne_nil_of_mem member)
  have state : ({ s with toMultiIndex := s.linkNew item }.onCreate s.fresh) =
      { s with toMultiIndex := (s.linkNew item).setMtime s.fresh s.monotonicRevision } := by
    simp only [onCreate, stack]
  have bounds := sound.bounded u member
  have other : ∀ a, s.Kept (s.removedValuesOf u) a → a ≠ s.fresh := fun a inside equal =>
    absurd (equal ▸ (sound.kept inside).1) (Nat.lt_irrefl _)
  rw [state]
  have moved : Recovers Object.id ((s.linkNew item).setMtime s.fresh s.monotonicRevision).cells
      (s.Kept (s.removedValuesOf u)) ((s.oldValuesOf u).map OldNode.entry) u.ctime u.oldNextId t.objects := by
    refine saves.recovers.congr (fun a inside => ?_) (fun a inside => ?_)
    · simp only [MultiIndex.cells, MultiIndex.setMtime_value]
      exact MultiIndex.linkNew_value_other (other a inside)
    · simp only [MultiIndex.cells, MultiIndex.setMtime_mtime, Function.update_of_ne (other a inside)]
      simp [MultiIndex.mtime, MultiIndex.linkNew, other a inside]
  refine ⟨saves.nextId, moved.renode ?_ ?_⟩
  · exact fun a inside _ => inside.imp_left fun linked => List.mem_append_left _ linked
  · rintro a (linked | listed)
    · rcases List.mem_append.mp linked with linked | last
      · exact Or.inl (Or.inl linked)
      · obtain rfl : a = s.fresh := by simpa using last
        refine Or.inr ⟨?_, ?_⟩
        · simp only [MultiIndex.cells, MultiIndex.setMtime_value, MultiIndex.linkNew_value_self]
          exact bounds.2.trans ascending
        · simpa [MultiIndex.cells] using bounds.1
    · exact Or.inl (Or.inr listed)

omit [Object T] in
private theorem new_oldValue (allocated : ∀ e ∈ s.oldValues, e.self < s.freshOld) :
    s.freshOld ∉ s.oldValues.map OldNode.self := by
  intro inside
  obtain ⟨e, listed, same⟩ := List.mem_map.mp inside
  exact absurd (same ▸ allocated e listed) (Nat.lt_irrefl _)

theorem Sound.backedUp_oldValuesOf (sound : s.Sound) (level : u ∈ s.undoStack) (a : Addr) :
    (s.backedUp a).oldValuesOf u = ⟨s.freshOld, s.value a, s.mtime a, a⟩ :: s.oldValuesOf u :=
  sound.oldLayers.above_push (a := (⟨s.freshOld, s.value a, s.mtime a, a⟩ : OldNode T)) (new_oldValue sound.allocated)
    (List.mem_map_of_mem level)

theorem Sound.retired_removedValuesOf (sound : s.Sound) (level : u ∈ s.undoStack) (member : a ∈ s.byId) :
    (s.retired a).removedValuesOf u = a :: s.removedValuesOf u := by
  have new : a ∉ s.removedValues.map (fun a => a) := by simpa using sound.housed.apart member
  exact sound.removedLayers.above_push (a := a) new (List.mem_map_of_mem level)

theorem Saves.modified (saves : s.Saves u t) (sound : s.Sound) (level : u ∈ s.undoStack) (member : a ∈ s.byId)
    (keyed : Object.id item = s.id a) :
    { s.prepared a with toMultiIndex := (s.prepared a).settle a item }.Saves u t := by
  have bounds := sound.bounded u level
  cases old : s.stale a with
  | true =>
    have state : s.prepared a = s.backedUp a := by simp [prepared, old]
    rw [state]
    refine ⟨saves.nextId, ?_⟩
    change Recovers _ _ _ (((s.backedUp a).oldValuesOf u).map OldNode.entry) _ _ _
    rw [sound.backedUp_oldValuesOf level, List.map_cons]
    have same : (s.backedUp a).value = s.value := MultiIndex.setMtime_value s.toMultiIndex a s.monotonicRevision
    have values : ((s.backedUp a).settle a item).value = Function.update s.value a item :=
      (MultiIndex.setItem_value_eq (s.backedUp a).toMultiIndex a item).trans (by rw [same])
    have stamps : ((s.backedUp a).settle a item).mtime = Function.update s.mtime a s.monotonicRevision :=
      (MultiIndex.setItem_mtime (s.backedUp a).toMultiIndex a item).trans
        (MultiIndex.setMtime_mtime s.toMultiIndex a s.monotonicRevision)
    refine saves.recovers.backup (a := a) (Or.inl member) ?_ ?_ ?_ ?_
    · simp only [MultiIndex.cells, values, Function.update_self]
      exact keyed
    · intro b other
      simp only [MultiIndex.cells, values, Function.update_of_ne other]
    · intro b other
      simp only [MultiIndex.cells, stamps, Function.update_of_ne other]
    · simp only [MultiIndex.cells, stamps, Function.update_self]
      exact bounds.1
  | false =>
    have state : s.prepared a = s := by simp [prepared, old]
    have stamped : u.ctime ≤ s.mtime a := by
      obtain ⟨info, rest, stack⟩ := List.exists_cons_of_ne_nil (List.ne_nil_of_mem level)
      have newest := sound.newest info (by simp [stack]) level
      simp only [stale, stack, decide_eq_false_iff_not, Nat.not_lt] at old
      exact newest.1.trans old
    rw [state]
    have values : (s.settle a item).value = Function.update s.value a item := MultiIndex.setItem_value_eq s.toMultiIndex a item
    have stamps : (s.settle a item).mtime = s.mtime := MultiIndex.setItem_mtime s.toMultiIndex a item
    refine ⟨saves.nextId, saves.recovers.overwrite (a := a) ?_ ?_ ?_ stamped ?_⟩
    · simp only [MultiIndex.cells, values, Function.update_self]
      exact keyed
    · intro b other
      simp only [MultiIndex.cells, values, Function.update_of_ne other]
    · intro b _
      simp only [MultiIndex.cells, stamps]
    · simpa only [MultiIndex.cells, stamps] using stamped

theorem Saves.removed (saves : s.Saves u t) (sound : s.Sound) (level : u ∈ s.undoStack) (member : a ∈ s.byId) :
    (s.remove a).Saves u t := by
  have unlinked : ∀ b, b ∈ s.byId.erase a ↔ b ≠ a ∧ b ∈ s.byId := fun b => sound.housed.linked.nodup.mem_erase_iff
  by_cases older : s.Older a
  · rw [remove_older older]
    have same : (s.retired a).cells = s.cells := by
      simp only [MultiIndex.cells, retired, MultiIndex.setRemovedField_value, MultiIndex.setRemovedField_mtime]
      rfl
    have nodes : ∀ b, (s.retired a).Kept ((s.retired a).removedValuesOf u) b ↔ s.Kept (s.removedValuesOf u) b := by
      intro b
      rw [sound.retired_removedValuesOf level member]
      change b ∈ s.byId.erase a ∨ b ∈ a :: s.removedValuesOf u ↔ b ∈ s.byId ∨ b ∈ s.removedValuesOf u
      rw [unlinked, List.mem_cons]
      by_cases equal : b = a
      · simp [equal, member]
      · tauto
    refine ⟨saves.nextId, ?_⟩
    rw [same]
    exact saves.recovers.renode (fun b inside _ => (nodes b).mpr inside) fun b inside => Or.inl ((nodes b).mp inside)
  · rw [remove_newer older, MultiIndex.setItem_value]
    have high : u.oldNextId ≤ s.id a := by
      obtain ⟨info, rest, stack⟩ := List.exists_cons_of_ne_nil (List.ne_nil_of_mem level)
      have newest := sound.newest info (by simp [stack]) level
      by_contra low
      exact older ⟨info, by simp [stack], by omega⟩
    refine ⟨saves.nextId, saves.recovers.renode ?_ ?_⟩
    · rintro b (linked | listed) low
      · refine Or.inl ((unlinked b).mpr ⟨?_, linked⟩)
        rintro rfl
        exact absurd low (Nat.not_lt.mpr high)
      · exact Or.inr listed
    · rintro b (linked | listed)
      · exact Or.inl (Or.inl ((unlinked b).mp linked).2)
      · exact Or.inl (Or.inr listed)

/-! ## Levels -/

def opened (s : UndoMultiIndex T) : UndoState where
  oldValuesEnd := CutList.head OldNode.self s.oldValues
  removedValuesEnd := CutList.head (fun a => a) s.removedValues
  oldNextId := s.nextId
  ctime := s.monotonicRevision + 1

theorem saves_opened (sound : s.Sound) (represents : s.Represents t) (stamps : ∀ a, s.mtime a ≤ s.monotonicRevision) :
    s.startUndo.2.Saves s.opened t := by
  refine ⟨represents.nextId, ?_⟩
  have noOld : s.startUndo.2.oldValuesOf s.opened = [] := CutList.above_head OldNode.self s.oldValues
  have noRemoved : s.startUndo.2.removedValuesOf s.opened = [] :=
    CutList.above_head (fun a => a) s.removedValues
  rw [noOld, noRemoved]
  refine recovers_opened ?_ ?_ ?_
  · exact fun a _ => Nat.lt_succ_of_le (stamps a)
  · rintro a (linked | impossible)
    · exact sound.housed.linked.below a linked
    · cases impossible
  · intro i v
    rw [represents.objects]
    constructor
    · rintro ⟨a, linked, same⟩
      exact ⟨a, Or.inl linked, same⟩
    · rintro ⟨a, linked | impossible, same⟩
      · exact ⟨a, linked, same⟩
      · cases impossible

/-- A level survives while the lists keep its parts and the nodes stay. -/
theorem Saves.congr (saves : s.Saves u t) (cells : after.cells = s.cells) (byId : after.byId = s.byId)
    (old : after.oldValuesOf u = s.oldValuesOf u) (removed : after.removedValuesOf u = s.removedValuesOf u) :
    after.Saves u t := by
  refine ⟨saves.nextId, ?_⟩
  rw [cells, old, removed]
  unfold MultiIndex.Kept
  rw [byId]
  exact saves.recovers

theorem Saves.live (saves : s.Saves u t) (sound : s.Sound) {e : OldNode T} (member : e ∈ s.oldValuesOf u)
    (counted : e.mtime < u.ctime) :
    s.Kept (s.removedValuesOf u) e.current ∧ s.id e.current < u.oldNextId ∧ s.disposed e.current = 0 ∧
      Object.id e.item = s.id e.current := by
  obtain ⟨inside, low⟩ := saves.recovers.backed e.entry (List.mem_map_of_mem member) counted
  have alive := (sound.kept inside).2
  exact ⟨inside, low, alive, (sound.housed.entries e (mem_oldValuesOf member)).2 alive⟩

theorem Sound.disposed_parts (sound : s.Sound) {kept dropped : List UndoState} {info : UndoState}
    (stack : s.undoStack = kept ++ dropped) (last : kept.getLast? = some info) (level : u ∈ kept) :
    (s.dispose info).oldValuesOf u = s.oldValuesOf u ∧ (s.dispose info).removedValuesOf u = s.removedValuesOf u := by
  have older := sound.oldLayers
  have removed := sound.removedLayers
  rw [stack, List.map_append] at older removed
  exact ⟨older.above_cut (by simp [last]) (List.mem_map_of_mem level),
    removed.above_cut (by simp [last]) (List.mem_map_of_mem level)⟩

theorem Saves.disposed (saves : s.Saves u t) (sound : s.Sound) {kept dropped : List UndoState} {info : UndoState}
    (stack : s.undoStack = kept ++ dropped) (last : kept.getLast? = some info) (level : u ∈ kept) :
    { s.dispose info with undoStack := kept }.Saves u t := by
  obtain ⟨old, removed⟩ := sound.disposed_parts stack last level
  refine saves.congr ?_ ?_ old removed
  · simp only [dispose, MultiIndex.disposeNodes_eq]
    rfl
  · simp only [dispose, MultiIndex.disposeNodes_eq]

/-! ## Undoing -/

/-- Undoing brings back only nodes the container still keeps, under their ids. -/
theorem Sound.undo_kept (sound : s.Sound) (undone : s.undo = some after) :
    after.fresh = s.fresh ∧ ∀ a, after.Kept after.removedValues a → s.Kept s.removedValues a ∧ after.id a = s.id a := by
  obtain ⟨-, rfl⟩ | ⟨info, rest, base, -, live, inserted, rfl⟩ := sound.undo_cases undone
  · exact ⟨rfl, fun _ inside => ⟨inside, rfl⟩⟩
  · obtain ⟨-, reinserted⟩ := sound.reinserted live inserted
    refine ⟨?_, fun a inside => ⟨?_, reinserted_id sound live reinserted a⟩⟩
    · obtain ⟨indices, cut, -, -⟩ := MultiIndex.eraseNewIds_eq sound.housed.linked info.oldNextId
      change base.fresh = s.fresh
      rw [reinserted.fresh, restored, (MultiIndex.restoreAll_frame _ _).2.2.1, cut]
    · rcases inside with linked | listed
      · exact ((reinserted_byId sound live reinserted a).mp linked).1.imp_right mem_removedValuesOf
      · exact .inr (CutList.below_subset listed)

theorem Sound.outer_parts (sound : s.Sound) {info : UndoState} {rest : List UndoState} (stack : s.undoStack = info :: rest)
    (level : u ∈ s.undoStack) :
    s.oldValuesOf u = s.oldValuesOf info ++
      CutList.above OldNode.self u.oldValuesEnd (CutList.below OldNode.self info.oldValuesEnd s.oldValues) ∧
    s.removedValuesOf u = s.removedValuesOf info ++
      CutList.above (fun a => a) u.removedValuesEnd (CutList.below (fun a => a) info.removedValuesEnd s.removedValues) := by
  have older := sound.oldLayers
  have removed := sound.removedLayers
  rw [stack] at older removed level
  exact ⟨older.split (List.mem_map_of_mem (f := UndoState.oldValuesEnd) level),
    removed.split (List.mem_map_of_mem (f := UndoState.removedValuesEnd) level)⟩

/-- A level that can be undone does not depend on disposed nodes. -/
theorem Saves.undo_live (saves : s.Saves top t) (sound : s.Sound) : s.Live top := by
  intro e member counted
  obtain ⟨inside, low, alive, -⟩ := saves.live sound member counted
  obtain ⟨indices, cut, -, -⟩ := MultiIndex.eraseNewIds_eq sound.housed.linked top.oldNextId
  rw [cut]
  change s.disposed e.current + (if e.current ∈ s.byId ∧ top.oldNextId ≤ s.id e.current then 1 else 0) = 0
  rw [if_neg (fun both => absurd low (Nat.not_lt.mpr both.2)), alive]

theorem Sound.restored_cells (sound : s.Sound) (top : UndoState) :
    (s.restored top).cells =
      (((s.oldValuesOf top).filter (fun e => e.mtime < top.ctime)).map OldNode.entry).foldl StampLog.Cells.fold s.cells := by
  have cutCells : (s.eraseNewIds top.oldNextId).cells = s.cells := by
    obtain ⟨indices, cut, -, -⟩ := MultiIndex.eraseNewIds_eq sound.housed.linked top.oldNextId
    rw [cut]
    rfl
  rw [restored, MultiIndex.restoreAll_cells, cutCells]

/-- After the loop over the old values every open level recovers the same table
from what is left of its log. -/
private theorem restored_recovers (saves : s.Saves top t) (sound : s.Sound) {rest : List UndoState}
    (stack : s.undoStack = top :: rest) {w : Table T keys} (level : u ∈ s.undoStack) (earlier : s.Saves u w) :
    Recovers Object.id (s.restored top).cells
      (fun a => (a ∈ s.byId ∧ s.id a < top.oldNextId) ∨ a ∈ s.removedValuesOf u)
      ((CutList.above OldNode.self u.oldValuesEnd
        (CutList.below OldNode.self top.oldValuesEnd s.oldValues)).map OldNode.entry) u.ctime u.oldNextId w.objects := by
  have newest := sound.newest top (by simp [stack]) level
  have first : top ∈ s.undoStack := by simp [stack]
  have cells : (s.restored top).cells = (((s.oldValuesOf top).map OldNode.entry).filter
      (fun entry => entry.stamp < top.ctime && !(fun _ => false) entry)).foldl StampLog.Cells.fold s.cells := by
    rw [sound.restored_cells, List.filter_map]
    simp only [Bool.not_false, Bool.and_true]
    rfl
  have whole := earlier.recovers
  rw [(sound.outer_parts stack level).1, List.map_append] at whole
  have session := saves.recovers
  have absorbed := Recovers.absorb [] [] (fun _ => false) ((s.oldValuesOf top).map OldNode.entry)
    (by
      intro entry member counted
      obtain ⟨e, inside, rfl⟩ := List.mem_map.mp member
      exact (saves.live sound inside counted).2.2.2)
    (by simpa using session) whole newest.1
  rw [← cells] at absorbed
  simp only [Bool.and_false, List.filter_false, List.nil_append] at absorbed
  have ids := restored_id sound (saves.undo_live sound)
  refine absorbed.renode ?_ ?_
  · rintro a (linked | listed) low
    · have older : s.id a < u.oldNextId := by
        rw [← ids]
        exact low
      exact Or.inl ⟨linked, older.trans_le newest.2⟩
    · exact Or.inr listed
  · rintro a (⟨linked, -⟩ | listed)
    · exact Or.inl (Or.inl linked)
    · exact Or.inl (Or.inr listed)

/-- Removed nodes are linked again if no two nodes to be linked share a key. -/
private theorem insertRemovedValues_total {base : MultiIndex T UndoNodeExtra} (oldNextId : Nat) {front back : List Addr}
    {old : List (OldNode T)} (housed : base.Housed (front ++ back) old)
    (distinct : ∀ a b, (a ∈ base.byId ∨ a ∈ front ∧ base.id a < oldNextId) →
      (b ∈ base.byId ∨ b ∈ front ∧ base.id b < oldNextId) → a ≠ b →
        ∀ I ∈ base.indices, ¬ I.keys.Same (base.value a) (base.value b)) :
    ∃ after, insertRemovedValues oldNextId front base = some after := by
  induction front generalizing base with
  | nil => exact ⟨base, rfl⟩
  | cons a rest ih =>
    rw [insertRemovedValues]
    by_cases low : base.id a < oldNextId
    · have unlinked : a ∉ base.byId := fun member => housed.apart member (by simp)
      have marked : (base.setRemovedField a 0).Linked :=
        housed.linked.congr rfl rfl rfl (by simp) housed.linked.owned housed.linked.unused
      have newId : ∀ b ∈ (base.setRemovedField a 0).byId,
          (base.setRemovedField a 0).id a ≠ (base.setRemovedField a 0).id b := by
        intro b member same
        rw [MultiIndex.setRemovedField_id] at same
        exact unlinked (housed.ids a b (Or.inr (by simp)) (Or.inl member) same ▸ member)
      have clear : (base.setRemovedField a 0).Clear a ((base.setRemovedField a 0).value a) := by
        intro I index b member other same
        simp only [MultiIndex.setRemovedField_value] at same
        exact distinct a b (Or.inr ⟨by simp, low⟩) (Or.inl member) (Ne.symm other) I index same
      simp only [low, if_true, MultiIndex.insert_clear marked unlinked clear newId]
      refine ih housed.relink ?_
      have ids : ((base.setRemovedField a 0).link a).id = base.id := MultiIndex.setRemovedField_id base a 0
      have values : ((base.setRemovedField a 0).link a).value = base.value := MultiIndex.setRemovedField_value base a 0
      intro b c first second different J index
      have back : ∀ d, (d ∈ ((base.setRemovedField a 0).link a).byId ∨ d ∈ rest ∧ base.id d < oldNextId) →
          (d ∈ base.byId ∨ d ∈ a :: rest ∧ base.id d < oldNextId) := by
        rintro d (linked | listed)
        · rcases MultiIndex.mem_link.mp linked with rfl | linked
          · exact Or.inr ⟨by simp, low⟩
          · exact Or.inl linked
        · exact Or.inr ⟨by simp [listed.1], listed.2⟩
      obtain ⟨I, original, rfl⟩ := List.mem_map.mp index
      rw [ids] at first second
      rw [values]
      exact distinct b c (back b first) (back c second) different I original
    · simp only [low, if_false]
      refine ih housed.disposeFirst fun b c first second => ?_
      exact distinct b c (first.imp_right fun listed => ⟨by simp [listed.1], listed.2⟩)
        (second.imp_right fun listed => ⟨by simp [listed.1], listed.2⟩)

section Undone
variable {base : MultiIndex T UndoNodeExtra} {rest : List UndoState}

private theorem restored_object (saves : s.Saves top t) (sound : s.Sound) (stack : s.undoStack = top :: rest)
    (inside : a ∈ s.byId ∨ a ∈ s.removedValuesOf top) (low : s.id a < top.oldNextId) :
    t.objects (s.id a) = some ((s.restored top).value a) := by
  have ids := restored_id sound (saves.undo_live sound)
  have own := restored_recovers saves sound stack (by simp [stack]) saves
  have noLog : CutList.above OldNode.self top.oldValuesEnd (CutList.below OldNode.self top.oldValuesEnd s.oldValues) = [] :=
    CutList.above_below _ _
  rw [noLog, List.map_nil] at own
  have found := own.closed (a := a) (inside.imp_left fun linked => ⟨linked, low⟩) (by
    change (s.restored top).id a < _
    rwa [ids])
  rw [← ids]
  exact found

private theorem restored_keys (sound : s.Sound) (top : UndoState) :
    (s.restored top).indices.map SetIndex.keys = s.indices.map SetIndex.keys := by
  obtain ⟨indices, cut, same, -⟩ := MultiIndex.eraseNewIds_eq sound.housed.linked top.oldNextId
  rw [restored, (MultiIndex.restoreAll_frame _ _).2.2.2.2, cut]
  exact same

private theorem reinserted_total (saves : s.Saves top t) (sound : s.Sound) (represented : s.indices.map SetIndex.keys = keys)
    (stack : s.undoStack = top :: rest) :
    ∃ base, insertRemovedValues top.oldNextId (s.removedValuesOf top) (s.restored top) = some base := by
  have live := saves.undo_live sound
  have start := restored_housed sound live
  rw [← removed_split s top] at start
  have linkable : ∀ a, (a ∈ (s.restored top).byId ∨ a ∈ s.removedValuesOf top ∧ (s.restored top).id a < top.oldNextId) →
      (a ∈ s.byId ∨ a ∈ s.removedValuesOf top) ∧ s.id a < top.oldNextId := by
    intro a inside
    rw [restored_byId sound, List.mem_filter, decide_eq_true_eq, restored_id sound live] at inside
    tauto
  refine insertRemovedValues_total top.oldNextId start fun a b left right different I index same => ?_
  obtain ⟨left, leftLow⟩ := linkable a left
  obtain ⟨right, rightLow⟩ := linkable b right
  have key : I.keys ∈ keys := represented ▸ restored_keys sound top ▸ List.mem_map_of_mem index
  have equal := t.unique I.keys key _ _ _ _ (restored_object saves sound stack left leftLow)
    (restored_object saves sound stack right rightLow) same
  have keptOf : ∀ c, (c ∈ s.byId ∨ c ∈ s.removedValuesOf top) → s.Kept s.removedValues c := fun c inside =>
    inside.imp_right mem_removedValuesOf
  exact different (sound.housed.ids a b (keptOf a left) (keptOf b right) equal)

private theorem popped_represents (saves : s.Saves top t) (sound : s.Sound) (represented : s.indices.map SetIndex.keys = keys)
    (stack : s.undoStack = top :: rest)
    (inserted : insertRemovedValues top.oldNextId (s.removedValuesOf top) (s.restored top) = some base)
    (reinserted : MultiIndex.Reinserted (s.restored top) base top.oldNextId (s.removedValuesOf top)) :
    (s.popped top rest base).Represents t := by
  have live := saves.undo_live sound
  have linked := reinserted_byId sound live reinserted
  have newIds := reinserted_id sound live reinserted
  refine ⟨(sound.popped stack live inserted).housed.linked, (reinserted.keys.trans (restored_keys sound top)).trans represented,
    saves.nextId, fun i v => ⟨fun found => ?_, ?_⟩⟩
  · obtain ⟨low, a, inside, same⟩ := saves.recovers.complete i v found
    have sameId : s.id a = i := same
    refine ⟨a, (linked a).mpr ⟨inside, sameId.symm ▸ low⟩, (newIds a).trans sameId, ?_⟩
    have held := restored_object saves sound stack inside (sameId.symm ▸ low)
    rw [sameId, found] at held
    exact (congrFun reinserted.value a).trans (Option.some.inj held).symm
  · rintro ⟨a, member, rfl, rfl⟩
    obtain ⟨inside, low⟩ := (linked a).mp member
    have held := restored_object saves sound stack inside low
    rw [← newIds a] at held
    exact held.trans (congrArg some (congrFun reinserted.value a).symm)

private theorem popped_saves (saves : s.Saves top t) (sound : s.Sound) (stack : s.undoStack = top :: rest)
    (reinserted : MultiIndex.Reinserted (s.restored top) base top.oldNextId (s.removedValuesOf top)) (level : u ∈ rest)
    {w : Table T keys} (earlier : s.Saves u w) : (s.popped top rest base).Saves u w := by
  have live := saves.undo_live sound
  have linked := reinserted_byId sound live reinserted
  have member : u ∈ s.undoStack := by simp [stack, level]
  have newest := sound.newest top (by simp [stack]) member
  have remains := restored_recovers saves sound stack member earlier
  have cells : (s.popped top rest base).cells = (s.restored top).cells := by
    simp only [MultiIndex.cells]
    exact congrArg₂ StampLog.Cells.mk reinserted.value reinserted.mtime
  refine ⟨earlier.nextId, ?_⟩
  rw [cells]
  refine remains.renode (fun a inside low => ?_) (fun a inside => Or.inl ?_)
  · have older : s.id a < top.oldNextId := by
      rw [← restored_id sound live]
      exact Nat.lt_of_lt_of_le low newest.2
    rw [(sound.outer_parts stack member).2, List.mem_append] at inside
    rcases inside with ⟨member, -⟩ | member | member
    · exact Or.inl ((linked a).mpr ⟨Or.inl member, older⟩)
    · exact Or.inl ((linked a).mpr ⟨Or.inr member, older⟩)
    · exact Or.inr member
  · rw [(sound.outer_parts stack member).2, List.mem_append]
    rcases inside with member | member
    · obtain ⟨member | member, low⟩ := (linked a).mp member
      · exact Or.inl ⟨member, low⟩
      · exact Or.inr (Or.inl member)
    · exact Or.inr (Or.inr member)

end Undone

/-- Undoing a level succeeds and brings back its table; every level below it
goes back to the same table as before. -/
theorem Saves.undo (saves : s.Saves top t) (sound : s.Sound) (represented : s.indices.map SetIndex.keys = keys)
    {rest : List UndoState} (stack : s.undoStack = top :: rest) :
    ∃ after, s.undo = some after ∧ after.undoStack = rest ∧ after.revision = s.revision - 1 ∧ after.Represents t ∧
      ∀ u ∈ rest, ∀ w : Table T keys, s.Saves u w → after.Saves u w := by
  classical
  have live := saves.undo_live sound
  obtain ⟨base, inserted⟩ := reinserted_total saves sound represented stack
  obtain ⟨-, reinserted⟩ := sound.reinserted live inserted
  refine ⟨s.popped top rest base, ?_, rfl, rfl, popped_represents saves sound represented stack inserted reinserted,
    fun u level w earlier => popped_saves saves sound stack reinserted level earlier⟩
  rw [undo_eq sound stack, if_pos live, inserted]
  rfl

/-! ## Compression -/

theorem Sound.compressed_oldValuesOf (sound : s.Sound) {last : UndoState} {rest : List UndoState}
    (stack : s.undoStack = last :: rest) (level : u ∈ s.undoStack) : (s.compressed last session).oldValuesOf u =
      (s.oldValuesOf last).filter (fun e => e.mtime < session.ctime && !s.isRemoved e.current) ++
        CutList.above OldNode.self u.oldValuesEnd (CutList.below OldNode.self last.oldValuesEnd s.oldValues) := by
  have older := sound.oldLayers
  rw [stack] at older level
  exact older.above_replace _ (fun e member => List.mem_of_mem_filter member) (List.mem_map_of_mem level)

theorem Sound.compressed_removedValuesOf (sound : s.Sound) {last : UndoState} {rest : List UndoState}
    (stack : s.undoStack = last :: rest) (level : u ∈ s.undoStack) : (s.compressed last session).removedValuesOf u =
      (s.removedValuesOf last).filter (fun a => s.id a < session.oldNextId) ++
        CutList.above (fun a => a) u.removedValuesEnd (CutList.below (fun a => a) last.removedValuesEnd s.removedValues) := by
  have removed := sound.removedLayers
  rw [stack] at removed level
  exact removed.above_replace _ (fun a member => List.mem_of_mem_filter member) (List.mem_map_of_mem level)

theorem compressed_id (sound : s.Sound) {last : UndoState} (live : s.LiveSince last session) (a : Addr) :
    (s.compressed last session).id a = s.id a := by
  simp only [compressed, MultiIndex.disposeNodes_eq]
  exact taken_id sound live a

/-- Of what the session goes back to, removed nodes take theirs back at once. -/
theorem compressed_cells (s : UndoMultiIndex T) (last session : UndoState) :
    (s.compressed last session).cells =
      (((s.oldValuesOf last).filter (fun e => e.mtime < session.ctime && s.isRemoved e.current)).map
        OldNode.entry).foldl StampLog.Cells.fold s.cells := by
  rw [← MultiIndex.restoreAll_cells]
  simp only [compressed, MultiIndex.disposeNodes_eq]
  rfl

/-- Compressing for a session keeps what that session and every level below it
go back to. -/
theorem Saves.compress (saves : s.Saves session t) (sound : s.Sound) {last : UndoState} {rest : List UndoState}
    (stack : s.undoStack = last :: rest) (member : session ∈ s.undoStack) (level : u ∈ s.undoStack)
    (outer : u.ctime ≤ session.ctime) (bounded : u.oldNextId ≤ session.oldNextId) {w : Table T keys}
    (earlier : s.Saves u w) : (s.compressed last session).Saves u w := by
  have parts := sound.outer_parts stack level
  have sessionParts := sound.outer_parts stack member
  have removedPart := @Sound.compressed_removedValuesOf T _ s u session sound last rest stack level
  have cells : (s.compressed last session).cells = (((s.oldValuesOf last).map OldNode.entry).filter
      (fun entry => entry.stamp < session.ctime && !(fun entry => !s.isRemoved entry.cell) entry)).foldl
        StampLog.Cells.fold s.cells := by
    rw [compressed_cells, List.filter_map]
    simp only [Bool.not_not]
    rfl
  have whole := earlier.recovers
  have wholeSession := saves.recovers
  rw [parts.1, List.map_append] at whole
  rw [sessionParts.1, List.map_append] at wholeSession
  have inSession : ∀ e ∈ s.oldValuesOf last, e ∈ s.oldValuesOf session := by
    intro e inside
    rw [sessionParts.1]
    exact List.mem_append_left _ inside
  have absorbed := Recovers.absorb [] _ (fun entry => !s.isRemoved entry.cell)
    ((s.oldValuesOf last).map OldNode.entry)
    (by
      intro entry member counted
      obtain ⟨e, inside, rfl⟩ := List.mem_map.mp member
      exact (saves.live sound (inSession e inside) counted).2.2.2)
    wholeSession whole outer
  rw [← cells] at absorbed
  have live : s.LiveSince last session := fun e inside counted => (saves.live sound (inSession e inside) counted).2.2.1
  have ids : ∀ a, Object.id ((s.compressed last session).cells.value a) = s.id a := compressed_id sound live
  have byId : (s.compressed last session).byId = s.byId := by
    simp only [compressed, MultiIndex.disposeNodes_eq]
    exact (MultiIndex.restoreAll_frame _ _).1
  refine ⟨earlier.nextId, ?_⟩
  rw [sound.compressed_oldValuesOf stack level, List.map_append]
  have log : ((s.oldValuesOf last).filter (fun e => e.mtime < session.ctime && !s.isRemoved e.current)).map OldNode.entry =
      ((s.oldValuesOf last).map OldNode.entry).filter
        (fun entry => entry.stamp < session.ctime && !s.isRemoved entry.cell) := by
    rw [List.filter_map]
    rfl
  rw [log]
  refine absorbed.renode ?_ ?_
  · rintro a (linked | listed) low
    · exact Or.inl (byId.symm ▸ linked)
    · refine Or.inr ?_
      rw [parts.2, List.mem_append] at listed
      rw [removedPart, List.mem_append, List.mem_filter, decide_eq_true_eq]
      rw [ids] at low
      exact listed.imp_left fun inside => ⟨inside, low.trans_le bounded⟩
  · rintro a (linked | listed)
    · exact Or.inl (Or.inl (byId ▸ linked))
    · refine Or.inl (Or.inr ?_)
      rw [removedPart, List.mem_append, List.mem_filter] at listed
      rw [parts.2, List.mem_append]
      exact listed.imp_left And.left

end UndoMultiIndex
end ChainBase
