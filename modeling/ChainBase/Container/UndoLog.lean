import ChainBase.Container.UndoRefinement

/-! The undo log without addresses. An id stands for its node, and stamps up to a
floor count as one: every level is younger than the floor, so that nothing tells such
stamps apart. -/

namespace ChainBase
open OrderedSequence

/-- What a level has in front of the ends it remembers: objects with their stamps, and ids. -/
structure LogLevel (T : Type) where
  oldValues : List (T × Nat)
  removedValues : List Nat
  oldNextId : Nat
  ctime : Nat

structure UndoLog (T : Type) where
  /-- The object and the stamp that are kept for an id. -/
  cells : Nat → Option (T × Nat)
  levels : List (LogLevel T)
  monotonicRevision : Nat
  floor : Nat

namespace LogLevel
variable {T : Type}

def log (entry : T × Nat) (level : LogLevel T) : LogLevel T :=
  { level with oldValues := entry :: level.oldValues }

def retire (i : Nat) (level : LogLevel T) : LogLevel T :=
  { level with removedValues := i :: level.removedValues }

/-- The front of both lists, which is the part of the last level, is replaced. -/
def refront (last : LogLevel T) (oldValues : List (T × Nat)) (removedValues : List Nat) (level : LogLevel T) :
    LogLevel T :=
  { level with
    oldValues := oldValues ++ level.oldValues.drop last.oldValues.length
    removedValues := removedValues ++ level.removedValues.drop last.removedValues.length }

end LogLevel

namespace UndoLog
variable {T : Type}

def put (w : UndoLog T) (i : Nat) (cell : T × Nat) : UndoLog T :=
  { w with cells := Function.update w.cells i (some cell) }

def assign (w : UndoLog T) (i : Nat) (item : T) : UndoLog T :=
  match w.cells i with
  | some (_, stamp) => w.put i (item, stamp)
  | none => w

def restamp (w : UndoLog T) (i : Nat) : UndoLog T :=
  match w.cells i with
  | some (item, _) => w.put i (item, w.monotonicRevision)
  | none => w

def backUp (w : UndoLog T) (i : Nat) : UndoLog T :=
  match w.levels, w.cells i with
  | top :: _, some entry =>
    if entry.2 < top.ctime then { w.restamp i with levels := w.levels.map (LogLevel.log entry) } else w
  | _, _ => w

def remove (w : UndoLog T) (i : Nat) : UndoLog T :=
  match w.levels with
  | top :: _ => if i < top.oldNextId then { w with levels := w.levels.map (LogLevel.retire i) } else w
  | [] => w

def start (w : UndoLog T) (nextId : Nat) : UndoLog T :=
  { w with
    levels := ⟨[], [], nextId, w.monotonicRevision + 1⟩ :: w.levels
    monotonicRevision := w.monotonicRevision + 1 }

def keep (w : UndoLog T) (depth : Nat) : UndoLog T := { w with levels := w.levels.take depth }

def squashFast (w : UndoLog T) : UndoLog T := { w with levels := w.levels.tail }

variable [Object T]

def create (w : UndoLog T) (item : T) : UndoLog T :=
  let linked := w.put (Object.id item) (item, w.floor)
  match w.levels with
  | [] => linked
  | _ :: _ => linked.restamp (Object.id item)

/-- What is kept for an id when some entries have been put back one after another. -/
def takenBack (entries : List (T × Nat)) (i : Nat) (cell : T × Nat) : T × Nat :=
  entries.foldl (fun cell entry => if Object.id entry.1 = i then entry else cell) cell

def takeBack (w : UndoLog T) (entries : List (T × Nat)) : UndoLog T :=
  { w with cells := fun i => (w.cells i).map (takenBack entries i) }

def undo (w : UndoLog T) : UndoLog T :=
  match w.levels with
  | [] => w
  | top :: rest =>
    { w.takeBack (top.oldValues.filter (·.2 < top.ctime)) with levels := rest.map (top.refront [] []) }

/-- Compression for a session that was started at a time and with a next id. -/
def compress (w : UndoLog T) (linked : Nat → Bool) (start bound : Nat) : UndoLog T :=
  match w.levels with
  | [] => w
  | last :: _ =>
    { w.takeBack (last.oldValues.filter fun entry => entry.2 < start && !linked (Object.id entry.1)) with
      levels := w.levels.map (last.refront
        (last.oldValues.filter fun entry => entry.2 < start && linked (Object.id entry.1))
        (last.removedValues.filter (· < bound))) }

theorem takenBack_cells {entries : List (OldNode T)} {cells : StampLog.Cells Addr T} {a : Addr} {i floor : Nat}
    (own : ∀ e ∈ entries, e.current = a ↔ Object.id e.item = i) :
    (((entries.map OldNode.entry).foldl StampLog.Cells.fold cells).value a,
        max (((entries.map OldNode.entry).foldl StampLog.Cells.fold cells).stamp a) floor) =
      takenBack (entries.map fun e => (e.item, max e.mtime floor)) i (cells.value a, max (cells.stamp a) floor) := by
  induction entries generalizing cells with
  | nil => rfl
  | cons e rest ih =>
    have first := own e (by simp)
    rw [List.map_cons, List.foldl_cons, ih fun e member => own e (by simp [member]), List.map_cons, takenBack, takenBack,
      List.foldl_cons]
    congr 1
    by_cases same : e.current = a
    · subst same
      simp [first.mp rfl, StampLog.Cells.fold, OldNode.entry]
    · have kept := StampLog.Cells.fold_other cells e.entry (a := a) fun equal => same equal.symm
      rw [if_neg fun equal => same (first.mpr equal), kept.1, kept.2]

end UndoLog

namespace UndoMultiIndex
variable {T : Type} [Object T] {keys : List (Comparator T)}

def levelOf (s : UndoMultiIndex T) (floor : Nat) (u : UndoState) : LogLevel T where
  oldValues := (s.oldValuesOf u).map fun e => (e.item, max e.mtime floor)
  removedValues := (s.removedValuesOf u).map s.id
  oldNextId := u.oldNextId
  ctime := u.ctime

/-- The container keeps this log. -/
structure Keeps (s : UndoMultiIndex T) (w : UndoLog T) : Prop where
  cells : ∀ a, s.Kept s.removedValues a → w.cells (s.id a) = some (s.value a, max (s.mtime a) w.floor)
  levels : s.undoStack.map (s.levelOf w.floor) = w.levels
  monotonic : s.monotonicRevision = w.monotonicRevision
  recent : ∀ u ∈ s.undoStack, w.floor < u.ctime
  reached : w.floor ≤ s.monotonicRevision

namespace Keeps
variable {s after : UndoMultiIndex T} {w : UndoLog T} {a : Addr} {item : T} {u top : UndoState} {rest : List UndoState}

omit [Object T] in
theorem older_iff {floor ctime stamp : Nat} (recent : floor < ctime) : max stamp floor < ctime ↔ stamp < ctime := by
  omega

theorem cell_other (sound : s.Sound) (inside : s.Kept s.removedValues a) {b : Addr} (kept : s.Kept s.removedValues b)
    (other : b ≠ a) : s.id b ≠ s.id a :=
  fun same => other (sound.housed.ids b a kept inside same)

theorem levels_nil (keeps : s.Keeps w) : s.undoStack = [] ↔ w.levels = [] := by
  rw [← keeps.levels, List.map_eq_nil_iff]

theorem levels_cons (keeps : s.Keeps w) (stack : s.undoStack = top :: rest) :
    w.levels = s.levelOf w.floor top :: rest.map (s.levelOf w.floor) := by
  rw [← keeps.levels, stack, List.map_cons]

theorem levelOf_congr {floor : Nat} (old : after.oldValuesOf u = s.oldValuesOf u)
    (removed : after.removedValuesOf u = s.removedValuesOf u) (ids : ∀ a ∈ s.removedValues, after.id a = s.id a) :
    after.levelOf floor u = s.levelOf floor u := by
  simp only [levelOf, old, removed, LogLevel.mk.injEq, true_and, and_true]
  exact List.map_congr_left fun a member => ids a (mem_removedValuesOf member)

theorem rebase (keeps : s.Keeps w) {base : MultiIndex T UndoNodeExtra}
    (kept : ∀ a, base.Kept s.removedValues a → s.Kept s.removedValues a ∧ base.value a = s.value a ∧ base.mtime a = s.mtime a) :
    { s with toMultiIndex := base }.Keeps w where
  cells a inside := by
    obtain ⟨before, value, mtime⟩ := kept a inside
    have same : base.id a = s.id a := congrArg Object.id value
    change w.cells (base.id a) = some (base.value a, max (base.mtime a) w.floor)
    rw [same, value, mtime]
    exact keeps.cells a before
  levels := by
    rw [← keeps.levels]
    refine List.map_congr_left fun u _ => levelOf_congr rfl rfl fun a member => ?_
    exact congrArg Object.id (kept a (.inr member)).2.1
  monotonic := keeps.monotonic
  recent := keeps.recent
  reached := keeps.reached

theorem put (keeps : s.Keeps w) (base : MultiIndex T UndoNodeExtra) (a : Addr)
    (others : ∀ b, base.Kept s.removedValues b → b ≠ a → s.Kept s.removedValues b ∧ base.value b = s.value b ∧
      base.mtime b = s.mtime b ∧ s.id b ≠ base.id a)
    (ids : ∀ b ∈ s.removedValues, base.id b = s.id b) :
    { s with toMultiIndex := base }.Keeps (w.put (base.id a) (base.value a, max (base.mtime a) w.floor)) where
  cells b inside := by
    change Function.update w.cells (base.id a) _ (base.id b) = some (base.value b, max (base.mtime b) w.floor)
    by_cases own : b = a
    · subst own
      rw [Function.update_self]
    · obtain ⟨before, value, mtime, apart⟩ := others b inside own
      have same : base.id b = s.id b := congrArg Object.id value
      rw [same, Function.update_of_ne apart, value, mtime]
      exact keeps.cells b before
  levels := by
    change _ = w.levels
    rw [← keeps.levels]
    exact List.map_congr_left fun u _ => levelOf_congr rfl rfl ids
  monotonic := keeps.monotonic
  recent := keeps.recent
  reached := keeps.reached

theorem wasteNode (keeps : s.Keeps w) (sound : s.Sound) {nodes : Addr → Node T UndoNodeExtra}
    (same : ∀ a, a ≠ s.fresh → nodes a = s.nodes a) : { s with toMultiIndex := s.wasteNode nodes }.Keeps w := by
  apply keeps.rebase
  intro a inside
  have old := same a fun equal => absurd (equal ▸ (sound.housed.live inside).1) (Nat.lt_irrefl _)
  exact ⟨inside, congrArg Node.item old, congrArg (fun node : Node T UndoNodeExtra => node.extra.mtime) old⟩

theorem restamp (keeps : s.Keeps w) (sound : s.Sound) (inside : s.Kept s.removedValues a) :
    { s with toMultiIndex := s.setMtime a s.monotonicRevision }.Keeps (w.restamp (s.id a)) := by
  have stamped := keeps.put (s.setMtime a s.monotonicRevision) a ?_ (by simp)
  · have now : max s.monotonicRevision w.floor = w.monotonicRevision := by
      rw [← keeps.monotonic]
      exact max_eq_left keeps.reached
    simp only [MultiIndex.setMtime_id, MultiIndex.setMtime_value, MultiIndex.setMtime_mtime, Function.update_self, now]
      at stamped
    simpa only [UndoLog.restamp, keeps.cells a inside] using stamped
  · intro b before other
    refine ⟨before, by simp, by simp [other], ?_⟩
    rw [MultiIndex.setMtime_id]
    exact cell_other sound inside before other

theorem emplaced (keeps : s.Keeps w) (sound : s.Sound) (follows : Object.Follows s.nextId item) :
    ({ s with toMultiIndex := s.linkNew item }.onCreate s.fresh).Keeps (w.create item) := by
  have old : ∀ b, s.Kept s.removedValues b → b ≠ s.fresh := fun b inside equal =>
    absurd (equal ▸ (sound.housed.live inside).1) (Nat.lt_irrefl _)
  have values : ∀ b, b ≠ s.fresh → (s.linkNew item).value b = s.value b ∧ (s.linkNew item).mtime b = s.mtime b := by
    intro b other
    exact ⟨MultiIndex.linkNew_value_other other, by simp [MultiIndex.mtime, MultiIndex.linkNew, other]⟩
  have before : ∀ b, (s.linkNew item).Kept s.removedValues b → b ≠ s.fresh → s.Kept s.removedValues b := by
    rintro b (linked | removed) other
    · rcases List.mem_append.mp linked with linked | new
      · exact .inl linked
      · exact absurd (List.mem_singleton.mp new) other
    · exact .inr removed
  have own : (s.linkNew item).id s.fresh = Object.id item := congrArg Object.id MultiIndex.linkNew_value_self
  have linked : { s with toMultiIndex := s.linkNew item }.Keeps (w.put (Object.id item) (item, w.floor)) := by
    have new := keeps.put (s.linkNew item) s.fresh ?_ ?_
    · have zero : (s.linkNew item).mtime s.fresh = 0 := by
        simp only [MultiIndex.mtime, MultiIndex.linkNew, Function.update_self]
        rfl
      rwa [own, MultiIndex.linkNew_value_self, zero, Nat.zero_max] at new
    · intro b inside other
      have kept := before b inside other
      refine ⟨kept, (values b other).1, (values b other).2, ?_⟩
      have low := sound.housed.id_below kept
      rw [own]
      exact Nat.ne_of_lt (low.trans_le follows.1)
    · intro b member
      exact congrArg Object.id (values b (old b (.inr member))).1
  have housed := sound.linkNew follows
  cases stack : s.undoStack with
  | nil =>
    have none := keeps.levels_nil.mp stack
    simpa only [onCreate, stack, UndoLog.create, none] using linked
  | cons top rest =>
    have stamped := linked.restamp (a := s.fresh) housed (.inl (by simp [MultiIndex.linkNew]))
    change UndoMultiIndex.Keeps _ (UndoLog.restamp _ ((s.linkNew item).id s.fresh)) at stamped
    rw [own] at stamped
    simpa only [onCreate, stack, UndoLog.create, keeps.levels_cons stack] using stamped

/-! ## Modifying and removing -/

theorem backedUp (keeps : s.Keeps w) (sound : s.Sound) (member : a ∈ s.byId) :
    (s.backedUp a).Keeps { w.restamp (s.id a) with
      levels := w.levels.map (LogLevel.log (s.value a, max (s.mtime a) w.floor)) } := by
  have stamped := keeps.restamp sound (.inl member)
  have own : w.restamp (s.id a) = w.put (s.id a) (s.value a, w.monotonicRevision) := by
    simp only [UndoLog.restamp, keeps.cells a (.inl member)]
  rw [own] at stamped ⊢
  refine ⟨stamped.cells, ?_, keeps.monotonic, keeps.recent, keeps.reached⟩
  change s.undoStack.map ((s.backedUp a).levelOf w.floor) = _
  rw [← keeps.levels, List.map_map]
  refine List.map_congr_left fun u level => ?_
  have ids : (s.backedUp a).id = s.id := MultiIndex.setMtime_id s.toMultiIndex a s.monotonicRevision
  simp only [levelOf, Function.comp_apply, LogLevel.log, sound.backedUp_oldValuesOf level, List.map_cons, ids]
  rfl

theorem prepared (keeps : s.Keeps w) (sound : s.Sound) (member : a ∈ s.byId) :
    (s.prepared a).Keeps (w.backUp (s.id a)) := by
  have own := keeps.cells a (.inl member)
  cases stack : s.undoStack with
  | nil =>
    have none := keeps.levels_nil.mp stack
    simpa [UndoMultiIndex.prepared, stale, stack, UndoLog.backUp, none] using keeps
  | cons top rest =>
    have recent := keeps.recent top (by simp [stack])
    have same : max (s.mtime a) w.floor < top.ctime ↔ s.mtime a < top.ctime := older_iff recent
    by_cases older : s.mtime a < top.ctime
    · have backed := keeps.backedUp sound member
      have logged : max (s.mtime a) w.floor < (s.levelOf w.floor top).ctime := same.mpr older
      simpa only [UndoMultiIndex.prepared, stale, stack, older, decide_true, if_true, UndoLog.backUp,
        keeps.levels_cons stack, own, logged] using backed
    · have kept : ¬ max (s.mtime a) w.floor < (s.levelOf w.floor top).ctime := fun lower => older (same.mp lower)
      simpa only [UndoMultiIndex.prepared, stale, stack, older, decide_false, Bool.false_eq_true, if_false, UndoLog.backUp,
        keeps.levels_cons stack, own, kept] using keeps

theorem settled (keeps : s.Keeps w) (sound : s.Sound) (member : a ∈ s.byId) (keyed : Object.id item = s.id a) :
    { s with toMultiIndex := s.settle a item }.Keeps (w.assign (s.id a) item) := by
  have ids : ∀ b, (s.settle a item).id b = s.id b := MultiIndex.settle_id keyed
  have stamps : (s.settle a item).mtime = s.mtime := MultiIndex.setItem_mtime s.toMultiIndex a item
  have changed := keeps.put (s.settle a item) a ?_ fun b _ => ids b
  · rw [ids, stamps, MultiIndex.settle_value_self] at changed
    simpa only [UndoLog.assign, keeps.cells a (.inl member)] using changed
  · intro b inside other
    refine ⟨inside, MultiIndex.settle_value_other other, congrFun stamps b, ?_⟩
    rw [ids]
    exact cell_other sound (.inl member) inside other

theorem removed (keeps : s.Keeps w) (sound : s.Sound) (member : a ∈ s.byId) : (s.remove a).Keeps (w.remove (s.id a)) := by
  by_cases older : s.Older a
  · obtain ⟨top, first, low⟩ := older
    obtain ⟨info, rest, stack⟩ := List.exists_cons_of_ne_nil (l := s.undoStack) fun none => by simp [none] at first
    obtain rfl : info = top := by simpa [stack] using first
    have log : w.remove (s.id a) = { w with levels := w.levels.map (LogLevel.retire (s.id a)) } := by
      simp only [UndoLog.remove, keeps.levels_cons stack]
      exact if_pos low
    rw [remove_older ⟨info, first, low⟩, log]
    have values : (s.retired a).value = s.value := MultiIndex.setRemovedField_value (s.eraseImpl a) a _
    have stamps : (s.retired a).mtime = s.mtime := MultiIndex.setRemovedField_mtime (s.eraseImpl a) a _
    have ids : (s.retired a).id = s.id := MultiIndex.setRemovedField_id (s.eraseImpl a) a _
    refine ⟨?_, ?_, keeps.monotonic, keeps.recent, keeps.reached⟩
    · intro b inside
      rw [ids, values, stamps]
      refine keeps.cells b ?_
      rcases inside with linked | retired
      · exact .inl (List.mem_of_mem_erase linked)
      · rcases List.mem_cons.mp retired with rfl | before
        · exact .inl member
        · exact .inr before
    · change s.undoStack.map ((s.retired a).levelOf w.floor) = _
      rw [← keeps.levels, List.map_map]
      refine List.map_congr_left fun u level => ?_
      simp only [levelOf, Function.comp_apply, LogLevel.retire, sound.retired_removedValuesOf level member, List.map_cons, ids]
      rfl
  · have log : w.remove (s.id a) = w := by
      cases stack : s.undoStack with
      | nil => simp only [UndoLog.remove, keeps.levels_nil.mp stack]
      | cons top rest =>
        simp only [UndoLog.remove, keeps.levels_cons stack]
        exact if_neg fun low => older ⟨top, by simp [stack], low⟩
    rw [remove_newer older, log]
    apply keeps.rebase
    intro b inside
    rw [MultiIndex.setItem_value] at inside ⊢
    exact ⟨inside.imp_left List.mem_of_mem_erase, rfl, rfl⟩

/-! ## Levels -/

theorem startUndo (keeps : s.Keeps w) : s.startUndo.2.Keeps (w.start s.nextId) where
  cells := keeps.cells
  levels := by
    have opened : s.startUndo.2.levelOf w.floor s.opened = ⟨[], [], s.nextId, w.monotonicRevision + 1⟩ := by
      have noOld : s.startUndo.2.oldValuesOf s.opened = [] := CutList.above_head OldNode.self s.oldValues
      have noRemoved : s.startUndo.2.removedValuesOf s.opened = [] := CutList.above_head (fun a => a) s.removedValues
      rw [levelOf, noOld, noRemoved, ← keeps.monotonic]
      rfl
    change s.startUndo.2.levelOf w.floor s.opened :: s.undoStack.map (s.levelOf w.floor) = _
    rw [opened, keeps.levels]
    rfl
  monotonic := congrArg (· + 1) keeps.monotonic
  recent u member := by
    rcases List.mem_cons.mp member with rfl | member
    · exact Nat.lt_succ_of_le keeps.reached
    · exact keeps.recent u member
  reached := keeps.reached.trans (Nat.le_succ _)

theorem disposeUndo (keeps : s.Keeps w) {revision : Int} :
    { s.disposeUndo with undoStack := [], revision }.Keeps { w with levels := [] } where
  cells a inside := by
    simp only [UndoMultiIndex.disposeUndo, MultiIndex.disposeNodes_eq] at inside ⊢
    rcases inside with linked | removed
    · exact keeps.cells a (.inl linked)
    · cases removed
  levels := rfl
  monotonic := keeps.monotonic
  recent := by simp
  reached := keeps.reached

theorem squashFast (keeps : s.Keeps w) : s.squashFast.Keeps w.squashFast := by
  unfold UndoMultiIndex.squashFast UndoLog.squashFast
  split
  next stack =>
    have none := keeps.levels_nil.mp stack
    have same : ({ w with levels := w.levels.tail } : UndoLog T) = w := by rw [none, List.tail_nil, ← none]
    rw [same]
    exact keeps
  next top stack =>
    rw [keeps.levels_cons stack]
    exact keeps.disposeUndo
  next top session rest stack =>
    rw [keeps.levels_cons stack]
    refine ⟨keeps.cells, rfl, keeps.monotonic, ?_, keeps.reached⟩
    intro u member
    exact keeps.recent u (by rw [stack]; exact List.mem_cons_of_mem _ member)

theorem dispose (keeps : s.Keeps w) (sound : s.Sound) {kept dropped : List UndoState} {info : UndoState}
    (stack : s.undoStack = kept ++ dropped) (last : kept.getLast? = some info) :
    { s.dispose info with undoStack := kept }.Keeps { w with levels := kept.map (s.levelOf w.floor) } where
  cells a inside := by
    simp only [UndoMultiIndex.dispose, MultiIndex.disposeNodes_eq] at inside ⊢
    exact keeps.cells a (inside.imp_right fun member => CutList.cut_subset member)
  levels := by
    refine List.map_congr_left fun u level => ?_
    obtain ⟨old, removed⟩ := sound.disposed_parts stack last level
    refine levelOf_congr old removed fun a _ => ?_
    simp only [UndoMultiIndex.dispose, MultiIndex.disposeNodes_eq]
    rfl
  monotonic := keeps.monotonic
  recent u member := keeps.recent u (by rw [stack]; exact List.mem_append_left _ member)
  reached := keeps.reached

theorem commit (keeps : s.Keeps w) (sound : s.Sound) (revision : Int) :
    (s.commit revision).2.Keeps (w.keep (s.revision - min revision s.revision).toNat) := by
  have taken : ∀ n, (s.undoStack.take n).map (s.levelOf w.floor) = w.levels.take n := fun n => by
    rw [List.map_take, keeps.levels]
  unfold UndoMultiIndex.commit UndoLog.keep
  simp only
  split
  next all =>
    rw [all, Int.sub_self, Int.toNat_zero, List.take_zero]
    exact keeps.disposeUndo
  next newer =>
    split
    next inside =>
      split
      next info last =>
        rw [← taken]
        exact keeps.dispose sound (List.take_append_drop _ _).symm last
      next none =>
        have empty := List.getLast?_eq_none_iff.mp none
        rw [List.take_eq_nil_iff] at empty
        rcases empty with zero | zero
        · omega
        · simp [zero] at inside
    next enough =>
      have depth : w.levels.length ≤ (s.revision - min revision s.revision).toNat := by
        rw [← keeps.levels, List.length_map]
        exact Nat.not_lt.mp enough
      rw [List.take_of_length_le depth]
      exact keeps

/-! ## Putting objects back -/

/-- A backup of a live node is told by its object as well as by its address. -/
theorem own_iff (sound : s.Sound) (inside : s.Kept s.removedValues a) {e : OldNode T} (listed : e ∈ s.oldValues)
    (alive : s.disposed e.current = 0) : e.current = a ↔ Object.id e.item = s.id a := by
  obtain ⟨allocated, copy⟩ := sound.housed.entries e listed
  rw [copy alive]
  have kept := sound.housed.kept_of_live allocated alive
  exact ⟨fun same => congrArg s.id same, fun same => sound.housed.ids _ _ kept inside same⟩

theorem takeBack_cell (keeps : s.Keeps w) (sound : s.Sound) (inside : s.Kept s.removedValues a) {entries : List (OldNode T)}
    (listed : ∀ e ∈ entries, e ∈ s.oldValues ∧ s.disposed e.current = 0) {cells : StampLog.Cells Addr T}
    (final : cells = (entries.map OldNode.entry).foldl StampLog.Cells.fold s.cells) :
    (w.takeBack (entries.map fun e => (e.item, max e.mtime w.floor))).cells (s.id a) =
      some (cells.value a, max (cells.stamp a) w.floor) := by
  have own : ∀ e ∈ entries, e.current = a ↔ Object.id e.item = s.id a := fun e member =>
    own_iff sound inside (listed e member).1 (listed e member).2
  rw [final, UndoLog.takenBack_cells own]
  simp only [UndoLog.takeBack, keeps.cells a inside, Option.map_some]
  rfl

/-- Entries are told apart by their rounded stamps as they are by their own. -/
theorem filter_levelOf (s : UndoMultiIndex T) (floor : Nat) (u : UndoState) {chosen : T × Nat → Bool} {picked : OldNode T → Bool}
    (same : ∀ e ∈ s.oldValuesOf u, chosen (e.item, max e.mtime floor) = picked e) :
    (s.levelOf floor u).oldValues.filter chosen =
      ((s.oldValuesOf u).filter picked).map fun e => (e.item, max e.mtime floor) := by
  rw [levelOf, List.filter_map]
  exact congrArg _ (List.filter_congr same)

theorem undo (keeps : s.Keeps w) (sound : s.Sound) (undone : s.undo = some after) : after.Keeps w.undo := by
  have kept := (sound.undo_kept undone).2
  obtain ⟨stack, rfl⟩ | ⟨top, rest, base, stack, live, inserted, rfl⟩ := sound.undo_cases undone
  · simpa only [UndoLog.undo, keeps.levels_nil.mp stack] using keeps
  · obtain ⟨-, reinserted⟩ := sound.reinserted live inserted
    have recent := keeps.recent top (by simp [stack])
    have counted : (s.levelOf w.floor top).oldValues.filter (·.2 < top.ctime) =
        ((s.oldValuesOf top).filter (fun e => e.mtime < top.ctime)).map fun e => (e.item, max e.mtime w.floor) := by
      refine filter_levelOf s w.floor top fun e _ => ?_
      exact decide_eq_decide.mpr (older_iff recent)
    have log : w.undo = { w.takeBack (((s.oldValuesOf top).filter (fun e => e.mtime < top.ctime)).map
          fun e => (e.item, max e.mtime w.floor)) with
        levels := (rest.map (s.levelOf w.floor)).map ((s.levelOf w.floor top).refront [] []) } := by
      rw [← counted]
      simp only [UndoLog.undo, keeps.levels_cons stack]
      rfl
    rw [log]
    refine ⟨?_, ?_, keeps.monotonic, ?_, keeps.reached⟩
    · intro a inside
      obtain ⟨before, sameId⟩ := kept a inside
      have cells : (s.popped top rest base).cells = (s.restored top).cells :=
        congrArg₂ StampLog.Cells.mk reinserted.value reinserted.mtime
      rw [sameId]
      refine keeps.takeBack_cell sound before ?_ (cells.trans (sound.restored_cells top))
      intro e member
      obtain ⟨listed, older⟩ := List.mem_filter.mp member
      have alive := live e listed (of_decide_eq_true older)
      obtain ⟨indices, cut, -, -⟩ := MultiIndex.eraseNewIds_eq sound.housed.linked top.oldNextId
      rw [cut] at alive
      exact ⟨mem_oldValuesOf listed, Nat.eq_zero_of_add_eq_zero_right alive⟩
    · change rest.map ((s.popped top rest base).levelOf w.floor) = _
      rw [List.map_map]
      refine List.map_congr_left fun u level => ?_
      have parts := sound.outer_parts stack (u := u) (by simp [stack, level])
      have baseIds : base.id = s.id := funext fun a => reinserted_id sound live reinserted a
      have ids : (s.popped top rest base).id = s.id := baseIds
      have oldPart : (s.popped top rest base).oldValuesOf u =
          CutList.above OldNode.self u.oldValuesEnd (CutList.below OldNode.self top.oldValuesEnd s.oldValues) := rfl
      have removedPart : (s.popped top rest base).removedValuesOf u =
          CutList.above (fun a => a) u.removedValuesEnd (CutList.below (fun a => a) top.removedValuesEnd s.removedValues) := rfl
      simp only [levelOf, Function.comp_apply, LogLevel.refront, parts.1, parts.2, ids, oldPart, removedPart, List.map_append,
        List.nil_append, List.drop_left]
    · intro u member
      exact keeps.recent u (by rw [stack]; exact List.mem_cons_of_mem _ member)

/-- An id is linked if its node has not been removed. -/
def Tells (s : UndoMultiIndex T) (linked : Nat → Bool) : Prop :=
  ∀ a, s.Kept s.removedValues a → linked (s.id a) = !s.isRemoved a

theorem compressed (keeps : s.Keeps w) (sound : s.Sound) {last session : UndoState} (stack : s.undoStack = last :: rest)
    (member : session ∈ s.undoStack) (live : s.LiveSince last session) {linked : Nat → Bool} (tells : Tells s linked) :
    (s.compressed last session).Keeps (w.compress linked session.ctime session.oldNextId) := by
  have recent := keeps.recent session member
  have ids := compressed_id sound live
  have tell : ∀ e ∈ s.oldValuesOf last, e.mtime < session.ctime → linked (Object.id e.item) = !s.isRemoved e.current := by
    intro e listed older
    obtain ⟨allocated, copy⟩ := sound.housed.entries e (mem_oldValuesOf listed)
    have alive := live e listed older
    rw [copy alive]
    exact tells e.current (sound.housed.kept_of_live allocated alive)
  have gone : (s.levelOf w.floor last).oldValues.filter (fun entry => entry.2 < session.ctime && !linked (Object.id entry.1)) =
      ((s.oldValuesOf last).filter (fun e => e.mtime < session.ctime && s.isRemoved e.current)).map
        fun e => (e.item, max e.mtime w.floor) := by
    refine filter_levelOf s w.floor last fun e listed => ?_
    by_cases older : e.mtime < session.ctime
    · simp [older, recent, tell e listed older]
    · simp [older]
  have left : (s.levelOf w.floor last).oldValues.filter (fun entry => entry.2 < session.ctime && linked (Object.id entry.1)) =
      ((s.oldValuesOf last).filter (fun e => e.mtime < session.ctime && !s.isRemoved e.current)).map
        fun e => (e.item, max e.mtime w.floor) := by
    refine filter_levelOf s w.floor last fun e listed => ?_
    by_cases older : e.mtime < session.ctime
    · simp [older, recent, tell e listed older]
    · simp [older]
  have removals : (s.levelOf w.floor last).removedValues.filter (· < session.oldNextId) =
      ((s.removedValuesOf last).filter (fun a => s.id a < session.oldNextId)).map s.id := by
    rw [levelOf, List.filter_map]
    rfl
  have log : w.compress linked session.ctime session.oldNextId =
      { w.takeBack (((s.oldValuesOf last).filter (fun e => e.mtime < session.ctime && s.isRemoved e.current)).map
          fun e => (e.item, max e.mtime w.floor)) with
        levels := w.levels.map ((s.levelOf w.floor last).refront
          (((s.oldValuesOf last).filter (fun e => e.mtime < session.ctime && !s.isRemoved e.current)).map
            fun e => (e.item, max e.mtime w.floor))
          (((s.removedValuesOf last).filter (fun a => s.id a < session.oldNextId)).map s.id)) } := by
    rw [← gone, ← left, ← removals]
    simp only [UndoLog.compress, keeps.levels_cons stack]
  rw [log]
  refine ⟨?_, ?_, keeps.monotonic, keeps.recent, keeps.reached⟩
  · intro a inside
    rw [ids]
    have before : s.Kept s.removedValues a := by
      rcases inside with present | removed
      · simp only [UndoMultiIndex.compressed, MultiIndex.disposeNodes_eq] at present
        rw [(MultiIndex.restoreAll_frame _ _).1] at present
        exact .inl present
      · exact .inr (CutList.replaced_subset (fun _ member => List.mem_of_mem_filter member) removed)
    refine keeps.takeBack_cell sound before ?_ (compressed_cells s last session)
    intro e member
    obtain ⟨listed, older⟩ := List.mem_filter.mp member
    exact ⟨mem_oldValuesOf listed, live e listed (of_decide_eq_true (Bool.and_eq_true_iff.mp older).1)⟩
  · change s.undoStack.map ((s.compressed last session).levelOf w.floor) = _
    rw [← keeps.levels, List.map_map]
    refine List.map_congr_left fun u level => ?_
    have parts := sound.outer_parts stack level
    have sameIds : (s.compressed last session).id = s.id := funext ids
    simp only [levelOf, Function.comp_apply, LogLevel.refront, sound.compressed_oldValuesOf stack level,
      sound.compressed_removedValuesOf stack level, parts.1, parts.2, sameIds, List.map_append, List.drop_left]

theorem undoTimes {n : Nat} (keeps : s.Keeps w) (sound : s.Sound) (undone : s.undoTimes n = some after) :
    after.Keeps (UndoLog.undo^[n] w) := by
  induction n generalizing s w with
  | zero =>
    cases undone
    exact keeps
  | succ n ih =>
    obtain ⟨middle, first, rest⟩ := Option.bind_eq_some_iff.mp undone
    exact ih (keeps.undo sound first) (sound.undo first) rest

theorem compressImpl (keeps : s.Keeps w) (sound : s.Sound) {last session : UndoState} (stack : s.undoStack = last :: rest)
    (member : session ∈ s.undoStack) {linked : Nat → Bool} (tells : Tells s linked)
    (ran : s.compressImpl last session = some after) : after.Keeps (w.compress linked session.ctime session.oldNextId) := by
  obtain ⟨live, rfl⟩ := (compressImpl_iff sound).mp ran
  exact keeps.compressed sound stack member live tells

end Keeps

/-- The present table tells which ids are linked. -/
theorem Refines.tells {s : UndoMultiIndex T} {v : Versioned (Table T keys)} (refines : s.Refines v) :
    Keeps.Tells s fun i => (v.current.objects i).isSome := by
  rintro a (linked | removed)
  · simp only [refines.current.object linked, refines.sound.housed.present a linked]
    rfl
  · rw [refines.sound.housed.flagged a removed]
    cases found : v.current.objects (s.id a) with
    | none => exact congrArg Option.isSome found
    | some item =>
      obtain ⟨b, member, same, -⟩ := refines.current.node found
      obtain rfl := refines.sound.housed.ids b a (.inl member) (.inr removed) same
      exact absurd removed (refines.sound.housed.apart member)

end UndoMultiIndex

namespace UndoOp
variable {T : Type} [Object T] {keys : List (Comparator T)}

/-- What a call does to the log. -/
noncomputable def log (v : Versioned (Table T keys)) (w : UndoLog T) : UndoOp T → UndoLog T
  | emplace constructor =>
    match constructor v.current.nextId with
    | some item => if (v.current.emplace constructor).1 then w.create item else w
    | none => w
  | modify id modifier =>
    match v.current.objects id with
    | some item => (w.backUp id).assign id (modifier item).1
    | none => w
  | remove id => if (v.current.objects id).isSome then w.remove id else w
  | startUndo => w.start v.current.nextId
  | undo => w.undo
  | undoAll => UndoLog.undo^[w.levels.length] w
  | squash =>
    match w.levels with
    | _ :: session :: _ =>
      (w.compress (fun i => (v.current.objects i).isSome) session.ctime session.oldNextId).squashFast
    | _ => w.squashFast
  | squashFast => w.squashFast
  | compressLastUndoSession | lastUndoSession =>
    match w.levels with
    | last :: _ => w.compress (fun i => (v.current.objects i).isSome) last.ctime last.oldNextId
    | [] => w
  | commit revision => w.keep (v.revision - min revision v.revision).toNat
  | setRevision _ => w

variable {s after : UndoMultiIndex T} {v : Versioned (Table T keys)} {w : UndoLog T}

private theorem emplace_kept (refines : s.Refines v) (keeps : s.Keeps w) {constructor : Nat → Option T}
    (contract : ∀ item, constructor s.nextId = some item → Object.Follows s.nextId item) :
    (s.emplace constructor).2.Keeps (log v w (emplace constructor)) := by
  have sameNext := refines.current.nextId
  cases constructs : constructor s.nextId with
  | none =>
    rw [UndoMultiIndex.emplace_threw constructs]
    simp only [log, ← sameNext, constructs]
    exact keeps.wasteNode refines.sound fun _ _ => rfl
  | some item =>
    have follows := contract item constructs
    have low : v.current.nextId ≤ Object.id item := sameNext ▸ follows.1
    by_cases free : v.current.Free (Object.id item) item
    · have clear := (refines.current.clear_fresh low).mpr free
      rw [UndoMultiIndex.emplace_accepted refines.sound constructs clear]
      simp only [log, Table.emplace_accepted (sameNext ▸ constructs) low free, ← sameNext, constructs, if_true]
      exact keeps.emplaced refines.sound follows
    · have taken := fun clear => free ((refines.current.clear_fresh low).mp clear)
      rw [UndoMultiIndex.emplace_refused refines.sound constructs taken]
      simp only [log, Table.emplace_refused (sameNext ▸ constructs) free, ← sameNext, constructs, Bool.false_eq_true, if_false]
      exact keeps.wasteNode refines.sound fun a other => Function.update_of_ne other _ _

private theorem modify_kept (refines : s.Refines v) (keeps : s.Keeps w) {id : Nat} {a : Addr} (found : s.named id = some a)
    {modifier : T → T × Bool} (accepts : s.Accepts a (modifier (s.value a)).1) {thrown : Option Thrown}
    (modified : s.modify a modifier = some (thrown, after)) : after.Keeps (log v w (modify id modifier)) := by
  obtain ⟨member, rfl⟩ := refines.current.named_some found
  rw [UndoMultiIndex.modify_kept refines.sound member accepts] at modified
  cases modified
  have settled := (keeps.prepared refines.sound member).settled (refines.sound.prepared member) (by simpa using member)
    (by simpa using accepts.1)
  simpa only [log, refines.current.object member, UndoMultiIndex.prepared_id] using settled

private theorem squash_kept (refines : s.Refines v) (keeps : s.Keeps w) (squashed : s.squash = some after) :
    after.Keeps (log v w squash) := by
  unfold UndoMultiIndex.squash at squashed
  split at squashed
  next last session rest stack =>
    obtain ⟨middle, compressed, rfl⟩ := Option.map_eq_some_iff.mp squashed
    have kept := keeps.compressImpl refines.sound stack (by simp [stack]) refines.tells compressed
    simp only [log, keeps.levels_cons stack, List.map_cons]
    exact kept.squashFast
  next short =>
    cases squashed
    have kept := keeps.squashFast
    cases stack : s.undoStack with
    | nil => simpa only [log, keeps.levels_nil.mp stack] using kept
    | cons top rest =>
      cases rest with
      | nil => simpa only [log, keeps.levels_cons stack, List.map_nil] using kept
      | cons session rest => exact absurd stack (short top session rest)

private theorem compress_kept (refines : s.Refines v) (keeps : s.Keeps w)
    (compressed : s.compressLastUndoSession = some after) :
    after.Keeps (log v w compressLastUndoSession) ∧ after.Keeps (log v w lastUndoSession) := by
  unfold UndoMultiIndex.compressLastUndoSession at compressed
  split at compressed
  · cases compressed
  next last rest stack =>
    have kept := keeps.compressImpl refines.sound stack (by simp [stack]) refines.tells compressed
    simp only [log, keeps.levels_cons stack]
    exact ⟨kept, kept⟩

/-- Every call does to the log what it does to the container. -/
theorem keeps_step (refines : s.Refines v) (keeps : s.Keeps w) {op : UndoOp T} (legal : Legal s op) {reply : Reply}
    (ran : step s op = some (reply, after)) : after.Keeps (log v w op) := by
  cases performs ran with
  | emplace constructor => exact emplace_kept refines keeps legal
  | modify found modified => exact modify_kept refines keeps found (legal _ found) modified
  | modifyMissing missing => simpa only [log, refines.current.named_none missing] using keeps
  | remove found =>
    obtain ⟨member, rfl⟩ := refines.current.named_some found
    simpa only [log, refines.current.object member, Option.isSome_some, if_true] using keeps.removed refines.sound member
  | removeMissing missing =>
    simpa only [log, refines.current.named_none missing, Option.isSome_none, Bool.false_eq_true, if_false] using keeps
  | startUndo =>
    rw [log, ← refines.current.nextId]
    exact keeps.startUndo
  | undo undone => exact keeps.undo refines.sound undone
  | undoAll undone =>
    rw [log, ← keeps.levels, List.length_map]
    exact keeps.undoTimes refines.sound undone
  | squash squashed => exact squash_kept refines keeps squashed
  | squashFast => exact keeps.squashFast
  | compress compressed => exact (compress_kept refines keeps compressed).1
  | lastUndoSession compressed => exact (compress_kept refines keeps compressed).2
  | noSession stack => simpa only [log, keeps.levels_nil.mp stack] using keeps
  | commit revision =>
    rw [log, ← refines.revision]
    exact keeps.commit refines.sound revision
  | setRevision set =>
    rw [UndoMultiIndex.setRevision_ok set]
    exact { keeps with }
  | refused => exact keeps

end UndoOp
end ChainBase
