import ChainBase.Container.Loops

/-! The invariant of `basic_undo_multi_index` that every call keeps, also one that
fails: the nodes are accounted for, and the levels of the undo stack cut both
lists into nested parts. -/

namespace ChainBase
open OrderedSequence

namespace UndoMultiIndex
variable {T : Type} [Object T]

structure Sound (s : UndoMultiIndex T) : Prop where
  housed : s.Housed s.removedValues s.oldValues
  allocated : ∀ e ∈ s.oldValues, e.self < s.freshOld
  oldLayers : CutList.Layers OldNode.self s.oldValues (s.undoStack.map UndoState.oldValuesEnd)
  removedLayers : CutList.Layers (fun a => a) s.removedValues (s.undoStack.map UndoState.removedValuesEnd)
  bounded : ∀ u ∈ s.undoStack, u.ctime ≤ s.monotonicRevision ∧ u.oldNextId ≤ s.nextId
  ordered : s.undoStack.Pairwise (fun inner outer => outer.ctime < inner.ctime ∧ outer.oldNextId ≤ inner.oldNextId)
  /-- What was removed before a level was opened has an older id. -/
  beyond : ∀ u ∈ s.undoStack, ∀ a ∈ CutList.below (fun a => a) u.removedValuesEnd s.removedValues, s.id a < u.oldNextId

variable {s after : UndoMultiIndex T} {a : Addr} {item : T}

theorem sound_empty [Inhabited T] (keys : List (Comparator T)) : (empty keys : UndoMultiIndex T).Sound where
  housed := by
    constructor
    · refine ⟨.nil, ?_, by simp [empty, MultiIndex.empty], by simp [empty, MultiIndex.empty], fun _ _ => rfl⟩
      intro I index
      obtain ⟨k, -, rfl⟩ := List.mem_map.mp index
      exact ⟨List.Perm.refl _, .nil⟩
    all_goals simp [empty, MultiIndex.empty, MultiIndex.Kept]
  allocated := by simp [empty]
  oldLayers := CutList.layers_nil _
  removedLayers := CutList.layers_nil _
  bounded := by simp [empty]
  ordered := .nil
  beyond := by simp [empty]

/-- The nodes may change under the lists as long as the removed ones keep their ids. -/
theorem Sound.rebase (sound : s.Sound) {base : MultiIndex T UndoNodeExtra}
    (housed : base.Housed s.removedValues s.oldValues) (grows : s.nextId ≤ base.nextId)
    (ids : ∀ a ∈ s.removedValues, base.id a = s.id a) : { s with toMultiIndex := base }.Sound where
  __ := sound
  housed := housed
  bounded u member := ⟨(sound.bounded u member).1, (sound.bounded u member).2.trans grows⟩
  beyond u member a inside := by
    have listed : a ∈ s.removedValues := CutList.below_subset inside
    exact (ids a listed).symm ▸ sound.beyond u member a inside

/-! ## Emplacing -/

theorem emplace_threw {constructor : Nat → Option T} (throws : constructor s.nextId = none) :
    s.emplace constructor = (.error .user, { s with toMultiIndex := s.wasteNode s.nodes }) := by
  simp [emplace, MultiIndex.emplace_threw throws]

theorem emplace_refused (sound : s.Sound) {constructor : Nat → Option T} (constructs : constructor s.nextId = some item)
    (taken : ¬ s.Clear s.fresh item) : s.emplace constructor =
      (.error MultiIndex.couldNotInsert,
        { s with toMultiIndex := s.wasteNode (Function.update s.nodes s.fresh ⟨item, default, 0⟩) }) := by
  simp [emplace, MultiIndex.emplace_refused sound.housed.linked constructs taken]

theorem emplace_accepted (sound : s.Sound) {constructor : Nat → Option T} (constructs : constructor s.nextId = some item)
    (clear : s.Clear s.fresh item) :
    s.emplace constructor = (.ok s.fresh, { s with toMultiIndex := s.linkNew item }.onCreate s.fresh) := by
  simp [emplace, MultiIndex.emplace_accepted sound.housed.linked constructs clear]

theorem Sound.onCreate (sound : s.Sound) (a : Addr) : (s.onCreate a).Sound := by
  unfold UndoMultiIndex.onCreate
  split
  · exact sound
  · exact sound.rebase (sound.housed.setMtime _ _) (Nat.le_refl _) (by simp)

theorem Sound.wasteNode (sound : s.Sound) {nodes : Addr → Node T UndoNodeExtra}
    (same : ∀ a, a ≠ s.fresh → nodes a = s.nodes a) : { s with toMultiIndex := s.wasteNode nodes }.Sound := by
  refine sound.rebase (sound.housed.wasteNode same) (Nat.le_refl _) ?_
  intro a member
  have live := (sound.housed.owned a member).1
  exact congrArg (fun node : Node T UndoNodeExtra => Object.id node.item) (same a (by lia))

theorem Sound.linkNew (sound : s.Sound) (follows : Object.Follows s.nextId item) :
    { s with toMultiIndex := s.linkNew item }.Sound := by
  have grows : s.nextId ≤ (s.linkNew item).nextId := by
    rw [MultiIndex.linkNew_nextId follows]
    exact follows.1.trans (Nat.le_succ _)
  refine sound.rebase (sound.housed.linkNew follows) grows ?_
  intro a member
  have live := (sound.housed.owned a member).1
  exact congrArg Object.id (MultiIndex.linkNew_value_other (by lia))

theorem Sound.emplace (sound : s.Sound) {constructor : Nat → Option T}
    (contract : ∀ v, constructor s.nextId = some v → Object.Follows s.nextId v) : (s.emplace constructor).2.Sound := by
  cases constructs : constructor s.nextId with
  | none =>
    rw [emplace_threw constructs]
    exact sound.wasteNode fun _ _ => rfl
  | some v =>
    by_cases clear : s.Clear s.fresh v
    · rw [emplace_accepted sound constructs clear]
      exact (sound.linkNew (contract v constructs)).onCreate _
    · rw [emplace_refused sound constructs clear]
      exact sound.wasteNode fun a other => Function.update_of_ne other _ _

/-! ## Modifying -/

/-- The node has not been stamped since the top level was opened, so that a
backup is due before it changes. -/
def stale (s : UndoMultiIndex T) (a : Addr) : Bool :=
  match s.undoStack with
  | [] => false
  | info :: _ => s.mtime a < info.ctime

def backedUp (s : UndoMultiIndex T) (a : Addr) : UndoMultiIndex T :=
  { s with
    toMultiIndex := s.setMtime a s.monotonicRevision
    oldValues := ⟨s.freshOld, s.value a, s.mtime a, a⟩ :: s.oldValues
    freshOld := s.freshOld + 1 }

omit [Object T] in
theorem onModify_stale (old : s.stale a = true) : s.onModify a = (some (s.value a), s.backedUp a) := by
  unfold stale at old
  unfold onModify
  split at old
  · cases old
  next info rest stack =>
    simp only [stack, backedUp]
    rw [if_neg (by simpa using old)]

omit [Object T] in
theorem onModify_recent (recent : s.stale a = false) : s.onModify a = (none, s) := by
  unfold stale at recent
  unfold onModify
  cases stack : s.undoStack with
  | nil => rfl
  | cons info rest =>
    rw [stack] at recent
    exact if_pos (by simpa using recent)

/-- Whether the modified object would stay. -/
def Accepts (s : UndoMultiIndex T) (a : Addr) (item : T) : Prop := Object.id item = s.id a ∧ s.Clear a item

instance (s : UndoMultiIndex T) (a : Addr) (item : T) : Decidable (s.Accepts a item) :=
  inferInstanceAs (Decidable (Object.id item = s.id a ∧ s.Clear a item))

theorem Sound.backedUp (sound : s.Sound) (member : a ∈ s.byId) : (s.backedUp a).Sound where
  housed := (sound.housed.setMtime a _).log (Or.inl member) rfl (by simp [MultiIndex.id])
  allocated e inside := by
    rcases List.mem_cons.mp inside with rfl | inside
    · exact Nat.lt_succ_self _
    · exact Nat.lt_succ_of_lt (sound.allocated e inside)
  oldLayers := by
    refine sound.oldLayers.push fun inside => ?_
    obtain ⟨e, member, same⟩ := List.mem_map.mp inside
    have lower := sound.allocated e member
    rw [same] at lower
    exact absurd lower (Nat.lt_irrefl _)
  removedLayers := sound.removedLayers
  bounded := sound.bounded
  ordered := sound.ordered
  beyond u inside b below := by
    have lower := sound.beyond u inside b below
    simpa [UndoMultiIndex.backedUp] using lower

variable {modifier : T → T × Bool}

/-- What `modify` throws when the object stays. -/
def thrownBy (threw : Bool) : Option Thrown := if threw then some .user else none

/-- What `modify` throws when the object does not stay. -/
def failedBy (threw : Bool) : Thrown := if threw then .user else MultiIndex.couldNotModify

omit [Object T] in
theorem clear_backedUp {p : Addr} : (s.backedUp a).Clear p item ↔ s.Clear p item := by
  simp only [MultiIndex.Clear, backedUp, MultiIndex.setMtime_value]
  rfl

theorem accepts_backedUp : (s.backedUp a).Accepts a item ↔ s.Accepts a item := by
  unfold Accepts
  rw [clear_backedUp]
  simp [backedUp]

/-- The state in which the new object settles. -/
def prepared (s : UndoMultiIndex T) (a : Addr) : UndoMultiIndex T := if s.stale a then s.backedUp a else s

theorem modify_kept (sound : s.Sound) (member : a ∈ s.byId) (accepts : s.Accepts a (modifier (s.value a)).1) :
    s.modify a modifier = some (thrownBy (modifier (s.value a)).2,
      { s.prepared a with toMultiIndex := (s.prepared a).settle a (modifier (s.value a)).1 }) := by
  cases old : s.stale a with
  | true =>
    have kept := accepts_backedUp.mpr accepts
    have settles := MultiIndex.modifyWithRevert_kept (sound.backedUp member).housed.linked kept.1 kept.2 (some (s.value a))
    simp [modify, onModify_stale old, settles, prepared, old, thrownBy, MultiIndex.modifyThrows]
  | false =>
    have settles := MultiIndex.modifyWithRevert_kept sound.housed.linked accepts.1 accepts.2 none
    simp [modify, onModify_recent old, settles, prepared, old, thrownBy, MultiIndex.modifyThrows]

/-- Without a new backup a rejected object is lost. -/
theorem modify_erased (sound : s.Sound) (member : a ∈ s.byId) (rejects : ¬ s.Accepts a (modifier (s.value a)).1)
    (recent : s.stale a = false) :
    s.modify a modifier = some (some (failedBy (modifier (s.value a)).2),
      { s with toMultiIndex := (s.setItem a (modifier (s.value a)).1).remove a }) := by
  have erases := MultiIndex.modifyWithRevert_erased sound.housed.linked member rejects
  cases threw : (modifier (s.value a)).2 <;>
    simp [modify, onModify_recent recent, erases, threw, failedBy, MultiIndex.modifyThrows]

def reverted (s : UndoMultiIndex T) (a : Addr) : UndoMultiIndex T :=
  { s with toMultiIndex := s.setMtime a s.monotonicRevision, freshOld := s.freshOld + 1 }

/-- With a new backup the old object comes back, and only its stamp has changed;
unless the old object conflicts itself. -/
theorem modify_reverted (sound : s.Sound) (member : a ∈ s.byId) (rejects : ¬ s.Accepts a (modifier (s.value a)).1)
    (old : s.stale a = true) :
    s.modify a modifier = some (some (failedBy (modifier (s.value a)).2), s.reverted a) ∨
    (s.modify a modifier = none ∧ ¬ s.Clear a (s.value a)) := by
  have backed := sound.backedUp member
  have value : (s.backedUp a).value a = s.value a := by simp [backedUp]
  have rejected : ¬ (s.backedUp a).Accepts a (modifier (s.value a)).1 := fun kept => rejects (accepts_backedUp.mp kept)
  obtain reverts | ⟨fails, conflicts⟩ := MultiIndex.modifyWithRevert_reverted backed.housed.linked member rejected
  · rw [value] at reverts
    refine Or.inl ?_
    simp only [UndoMultiIndex.modify, onModify_stale old, reverts]
    cases threw : (modifier (s.value a)).2 <;> simp [failedBy, MultiIndex.modifyThrows, UndoMultiIndex.backedUp, reverted]
  · rw [value] at fails conflicts
    refine Or.inr ⟨?_, fun clear => conflicts (clear_backedUp.mpr clear)⟩
    simp only [modify, onModify_stale old, fails]

theorem Sound.prepared (sound : s.Sound) (member : a ∈ s.byId) : (s.prepared a).Sound := by
  unfold UndoMultiIndex.prepared
  split
  · exact sound.backedUp member
  · exact sound

omit [Object T] in
@[simp] theorem prepared_byId : (s.prepared a).byId = s.byId := by unfold prepared; split <;> rfl

@[simp] theorem prepared_id (b : Addr) : (s.prepared a).id b = s.id b := by
  unfold prepared
  split <;> simp [backedUp]

theorem Sound.settle (sound : s.Sound) (member : a ∈ s.byId) (keyed : Object.id item = s.id a) :
    { s with toMultiIndex := s.settle a item }.Sound :=
  sound.rebase (sound.housed.settle member keyed) (Nat.le_refl _) fun b _ => MultiIndex.settle_id keyed b

theorem Sound.destroy (sound : s.Sound) (member : a ∈ s.byId) (item : T) :
    { s with toMultiIndex := (s.setItem a item).remove a }.Sound := by
  refine sound.rebase (sound.housed.remove member item) (Nat.le_refl _) ?_
  intro b listed
  have other : b ≠ a := by
    rintro rfl
    exact sound.housed.apart member listed
  exact congrArg Object.id (MultiIndex.setItem_value_other s.toMultiIndex item other)

theorem Sound.modify (sound : s.Sound) (member : a ∈ s.byId) {thrown : Option Thrown}
    (ran : s.modify a modifier = some (thrown, after)) : after.Sound := by
  by_cases accepts : s.Accepts a (modifier (s.value a)).1
  · rw [modify_kept sound member accepts] at ran
    cases ran
    exact (sound.prepared member).settle (by simpa using member) (by simpa using accepts.1)
  · cases old : s.stale a with
    | false =>
      rw [modify_erased sound member accepts old] at ran
      cases ran
      exact sound.destroy member _
    | true =>
      obtain reverted | ⟨fails, -⟩ := modify_reverted sound member accepts old
      · rw [reverted] at ran
        cases ran
        have stamped := sound.rebase (sound.housed.setMtime a s.monotonicRevision) (Nat.le_refl _) (by simp)
        exact { stamped with allocated := fun e inside => Nat.lt_succ_of_lt (sound.allocated e inside) }
      · rw [fails] at ran
        cases ran

/-! ## Removing -/

/-- The node existed when the top level was opened. -/
def Older (s : UndoMultiIndex T) (a : Addr) : Prop := ∃ info ∈ s.undoStack.head?, s.id a < info.oldNextId

/-- The node moved to the front of the removed ones. -/
def retired (s : UndoMultiIndex T) (a : Addr) : UndoMultiIndex T :=
  { s with
    toMultiIndex := (s.eraseImpl a).setRemovedField a MultiIndex.erasedFlag
    removedValues := a :: s.removedValues }

theorem remove_older (older : s.Older a) : s.remove a = s.retired a := by
  obtain ⟨info, top, low⟩ := older
  have same : ({ s with toMultiIndex := s.eraseImpl a } : UndoMultiIndex T).id a = s.id a := rfl
  cases stack : s.undoStack with
  | nil => simp [stack] at top
  | cons first rest =>
    obtain rfl : first = info := by simpa [stack] using top
    simp only [remove, onRemove, stack, same, if_neg (Nat.not_le.mpr low), retired]

theorem remove_newer (newer : ¬ s.Older a) :
    s.remove a = { s with toMultiIndex := (s.setItem a (s.value a)).remove a } := by
  have same : ({ s with toMultiIndex := s.eraseImpl a } : UndoMultiIndex T).id a = s.id a := rfl
  rw [MultiIndex.setItem_value]
  cases stack : s.undoStack with
  | nil =>
    simp only [remove, onRemove, stack]
    rfl
  | cons info rest =>
    have high : info.oldNextId ≤ s.id a := by
      by_contra low
      exact newer ⟨info, by simp [stack], Nat.not_le.mp low⟩
    simp only [remove, onRemove, stack, same, if_pos high]
    rfl

theorem Sound.retired (sound : s.Sound) (member : a ∈ s.byId) : (s.retired a).Sound := by
  have new : a ∉ s.removedValues.map (fun a => a) := by simpa using sound.housed.apart member
  have ids : (s.retired a).id = s.id := MultiIndex.setRemovedField_id (s.eraseImpl a) a _
  exact
    { housed := sound.housed.retire member
      allocated := sound.allocated
      oldLayers := sound.oldLayers
      removedLayers := sound.removedLayers.push new
      bounded := sound.bounded
      ordered := sound.ordered
      beyond := by
        intro u inside b below
        rw [ids]
        refine sound.beyond u inside b ?_
        have part := sound.removedLayers.below_push new (List.mem_map_of_mem (f := UndoState.removedValuesEnd) inside)
        rw [← part]
        exact below }

theorem Sound.remove (sound : s.Sound) (member : a ∈ s.byId) : (s.remove a).Sound := by
  by_cases older : s.Older a
  · rw [remove_older older]
    exact sound.retired member
  · rw [remove_newer older]
    exact sound.destroy member _

/-! ## The undo stack -/

theorem Sound.startUndo (sound : s.Sound) : s.startUndo.2.Sound where
  housed := sound.housed
  allocated := sound.allocated
  oldLayers := sound.oldLayers.opened
  removedLayers := sound.removedLayers.opened
  bounded u member := by
    rcases List.mem_cons.mp member with rfl | member
    · exact ⟨Nat.le_refl _, Nat.le_refl _⟩
    · exact ⟨(sound.bounded u member).1.trans (Nat.le_succ _), (sound.bounded u member).2⟩
  ordered := by
    refine List.pairwise_cons.mpr ⟨fun u member => ?_, sound.ordered⟩
    exact ⟨Nat.lt_succ_of_le (sound.bounded u member).1, (sound.bounded u member).2⟩
  beyond u member b below := by
    rcases List.mem_cons.mp member with rfl | member
    · exact sound.housed.below b (CutList.below_subset below)
    · exact sound.beyond u member b below

omit [Object T] in
theorem setRevision_ok {revision : Nat} (ran : s.setRevision revision = .ok after) : after = { s with revision } := by
  unfold UndoMultiIndex.setRevision at ran
  split at ran
  · cases ran
  · split at ran
    · cases ran
    · split at ran <;> cases ran
      rfl

theorem Sound.setRevision (sound : s.Sound) {revision : Nat} (ran : s.setRevision revision = .ok after) : after.Sound := by
  rw [setRevision_ok ran]
  exact { sound with }

theorem Sound.disposeUndo (sound : s.Sound) {revision : Int} : { s.disposeUndo with undoStack := [], revision }.Sound where
  housed := (sound.housed.disposeNodes (List.append_nil _ ▸ List.Perm.refl _)).forget (by simp [UndoMultiIndex.disposeUndo])
  allocated := by simp [UndoMultiIndex.disposeUndo]
  oldLayers := CutList.layers_nil _
  removedLayers := CutList.layers_nil _
  bounded := by simp
  ordered := .nil
  beyond := by simp

theorem Sound.squashFast (sound : s.Sound) : s.squashFast.Sound := by
  unfold UndoMultiIndex.squashFast
  split
  · exact sound
  · exact sound.disposeUndo
  next top session _ stack =>
    have inner : ∀ u ∈ session, u ∈ s.undoStack := fun u member => by simp [stack, member]
    have parts := sound.ordered
    have older := sound.oldLayers
    have removed := sound.removedLayers
    rw [stack] at parts older removed
    exact
      { housed := sound.housed
        allocated := sound.allocated
        oldLayers := older.closed
        removedLayers := removed.closed
        bounded := fun u member => sound.bounded u (inner u member)
        ordered := (List.pairwise_cons.mp parts).2
        beyond := fun u member => sound.beyond u (inner u member) }

/-- Levels at the far end of the stack are given up; the innermost of those that
remain decides what is left of the lists. -/
theorem Sound.dispose (sound : s.Sound) {kept dropped : List UndoState} {info : UndoState}
    (stack : s.undoStack = kept ++ dropped) (last : kept.getLast? = some info) :
    { s.dispose info with undoStack := kept }.Sound := by
  have older := sound.oldLayers
  have removed := sound.removedLayers
  rw [stack, List.map_append] at older removed
  have olderLast : (kept.map UndoState.oldValuesEnd).getLast? = some info.oldValuesEnd := by simp [last]
  have removedLast : (kept.map UndoState.removedValuesEnd).getLast? = some info.removedValuesEnd := by simp [last]
  have inner : ∀ u ∈ kept, u ∈ s.undoStack := fun u member => by simp [stack, member]
  have removedParts := CutList.above_append_below (fun a => a) info.removedValuesEnd s.removedValues
  have split : s.removedValues.Perm ((CutList.below (fun a => a) info.removedValuesEnd s.removedValues).drop 1 ++
      (s.removedValuesOf info ++ (CutList.below (fun a => a) info.removedValuesEnd s.removedValues).take 1)) := by
    have whole := List.take_append_drop 1 (CutList.below (fun a => a) info.removedValuesEnd s.removedValues)
    have parts : s.removedValues = s.removedValuesOf info ++
        ((CutList.below (fun a => a) info.removedValuesEnd s.removedValues).take 1 ++
          (CutList.below (fun a => a) info.removedValuesEnd s.removedValues).drop 1) := by
      rw [whole]
      exact removedParts.symm
    rw [← List.append_assoc] at parts
    exact (List.Perm.of_eq parts).trans List.perm_append_comm
  have nodes := MultiIndex.disposeNodes_eq s.toMultiIndex
    ((CutList.below (fun a => a) info.removedValuesEnd s.removedValues).drop 1)
  constructor
  · exact (sound.housed.disposeNodes split).forget fun e member => CutList.cut_subset member
  · exact fun e member => sound.allocated e (CutList.cut_subset member)
  · exact older.cut olderLast
  · exact removed.cut removedLast
  · intro u member
    have bounds := sound.bounded u (inner u member)
    simpa only [UndoMultiIndex.dispose, nodes] using bounds
  · have order := sound.ordered
    rw [stack] at order
    exact (List.pairwise_append.mp order).1
  · intro u member b below
    have part := removed.below_cut removedLast (List.mem_map_of_mem (f := UndoState.removedValuesEnd) member)
    have low := sound.beyond u (inner u member) b (part.subset below)
    simp only [UndoMultiIndex.dispose, nodes]
    exact low

omit [Object T] in
theorem commit_cases (s : UndoMultiIndex T) (revision : Int) :
    (s.commit revision).2 = { s.disposeUndo with undoStack := [] } ∨
    (∃ kept dropped info, s.undoStack = kept ++ dropped ∧ kept.getLast? = some info ∧
      (s.commit revision).2 = { s.dispose info with undoStack := kept }) ∨
    (s.commit revision).2 = s := by
  unfold commit
  simp only
  split
  · exact .inl rfl
  · split
    · split
      next info last => exact .inr (.inl ⟨_, _, info, (List.take_append_drop _ _).symm, last, rfl⟩)
      next => exact .inr (.inr rfl)
    · exact .inr (.inr rfl)

theorem Sound.commit (sound : s.Sound) (revision : Int) : (s.commit revision).2.Sound := by
  obtain same | ⟨kept, dropped, info, stack, last, same⟩ | same := s.commit_cases revision
  · exact same ▸ sound.disposeUndo
  · exact same ▸ sound.dispose stack last
  · rwa [same]

/-! ## Undoing -/

/-- The nodes when the loop over the old values is done. -/
def restored (s : UndoMultiIndex T) (info : UndoState) : MultiIndex T UndoNodeExtra :=
  ((s.oldValuesOf info).filter (fun e => e.mtime < info.ctime)).foldl MultiIndex.restoreOne (s.eraseNewIds info.oldNextId)

/-- None of the old values belongs to a node that has been disposed of. -/
def Live (s : UndoMultiIndex T) (info : UndoState) : Prop :=
  ∀ e ∈ s.oldValuesOf info, e.mtime < info.ctime → (s.eraseNewIds info.oldNextId).disposed e.current = 0

def popped (s : UndoMultiIndex T) (info : UndoState) (rest : List UndoState) (base : MultiIndex T UndoNodeExtra) :
    UndoMultiIndex T :=
  { s with
    toMultiIndex := { base with nextId := info.oldNextId }
    undoStack := rest
    oldValues := CutList.below OldNode.self info.oldValuesEnd s.oldValues
    removedValues := CutList.below (fun a => a) info.removedValuesEnd s.removedValues
    revision := s.revision - 1 }

omit [Object T] in
theorem mem_oldValuesOf {info : UndoState} {e : OldNode T} (member : e ∈ s.oldValuesOf info) : e ∈ s.oldValues :=
  CutList.above_subset member

theorem undo_eq (sound : s.Sound) {info : UndoState} {rest : List UndoState} (stack : s.undoStack = info :: rest)
    [Decidable (s.Live info)] :
    s.undo = if s.Live info then
      (insertRemovedValues info.oldNextId (s.removedValuesOf info) (s.restored info)).map (s.popped info rest)
    else none := by
  have cut := sound.housed.eraseNewIds info.oldNextId
  have loop := MultiIndex.restoreOldValues_eq info.ctime cut fun e (member : e ∈ s.oldValuesOf info) => mem_oldValuesOf member
  have unfolded : s.undo = (restoreOldValues info.ctime (s.oldValuesOf info) (s.eraseNewIds info.oldNextId)).bind
      fun base => (insertRemovedValues info.oldNextId (s.removedValuesOf info) base).map (s.popped info rest) := by
    simp only [undo, stack]
    cases restoreOldValues info.ctime (s.oldValuesOf info) (s.eraseNewIds info.oldNextId) with
    | none => rfl
    | some base =>
      cases inserted : insertRemovedValues info.oldNextId (s.removedValuesOf info) base <;>
        simp [inserted, popped]
  rw [unfolded]
  by_cases live : s.Live info
  · rw [if_pos live, loop.trans (if_pos live)]
    rfl
  · rw [if_neg live, loop.trans (if_neg live)]
    rfl

theorem live_filter {info : UndoState} (live : s.Live info) :
    ∀ e ∈ (s.oldValuesOf info).filter (fun e => e.mtime < info.ctime),
      (s.eraseNewIds info.oldNextId).disposed e.current = 0 := by
  intro e member
  obtain ⟨inside, older⟩ := List.mem_filter.mp member
  exact live e inside (of_decide_eq_true older)

theorem restored_housed (sound : s.Sound) {info : UndoState} (live : s.Live info) :
    (s.restored info).Housed s.removedValues s.oldValues :=
  (sound.housed.eraseNewIds info.oldNextId).restoreAll _
    (fun _ member => mem_oldValuesOf (List.mem_of_mem_filter member)) (live_filter live)

theorem eraseNewIds_id (sound : s.Sound) (bound : Nat) : (s.eraseNewIds bound).id = s.id := by
  obtain ⟨indices, cut, -, -⟩ := MultiIndex.eraseNewIds_eq sound.housed.linked bound
  rw [cut]
  rfl

theorem restored_id (sound : s.Sound) {info : UndoState} (live : s.Live info) (a : Addr) :
    (s.restored info).id a = s.id a := by
  have ids := (sound.housed.eraseNewIds info.oldNextId).restoreAll_id
    (fun _ member => mem_oldValuesOf (List.mem_of_mem_filter member)) (live_filter live) a
  rw [eraseNewIds_id sound] at ids
  exact ids

theorem restored_byId (sound : s.Sound) (info : UndoState) :
    (s.restored info).byId = s.byId.filter (fun a => s.id a < info.oldNextId) := by
  obtain ⟨indices, cut, -, -⟩ := MultiIndex.eraseNewIds_eq sound.housed.linked info.oldNextId
  rw [restored, (MultiIndex.restoreAll_frame _ _).1, cut]

/-- A node is linked after the undo if it was linked or removed in the level, and
its id is older. -/
theorem reinserted_byId (sound : s.Sound) {info : UndoState} (live : s.Live info) {base : MultiIndex T UndoNodeExtra}
    (reinserted : MultiIndex.Reinserted (s.restored info) base info.oldNextId (s.removedValuesOf info)) (a : Addr) :
    a ∈ base.byId ↔ (a ∈ s.byId ∨ a ∈ s.removedValuesOf info) ∧ s.id a < info.oldNextId := by
  rw [reinserted.byId, restored_byId sound, restored_id sound live, List.mem_filter, decide_eq_true_eq]
  tauto

theorem reinserted_id (sound : s.Sound) {info : UndoState} (live : s.Live info) {base : MultiIndex T UndoNodeExtra}
    (reinserted : MultiIndex.Reinserted (s.restored info) base info.oldNextId (s.removedValuesOf info)) (a : Addr) :
    base.id a = s.id a :=
  (congrArg Object.id (congrFun reinserted.value a)).trans (restored_id sound live a)

omit [Object T] in
theorem removed_split (s : UndoMultiIndex T) (info : UndoState) :
    s.removedValuesOf info ++ CutList.below (fun a => a) info.removedValuesEnd s.removedValues = s.removedValues :=
  CutList.above_append_below _ _ _

theorem Sound.reinserted (sound : s.Sound) {info : UndoState} (live : s.Live info) {base : MultiIndex T UndoNodeExtra}
    (inserted : insertRemovedValues info.oldNextId (s.removedValuesOf info) (s.restored info) = some base) :
    base.Housed (CutList.below (fun a => a) info.removedValuesEnd s.removedValues) s.oldValues ∧
      MultiIndex.Reinserted (s.restored info) base info.oldNextId (s.removedValuesOf info) := by
  have start := restored_housed sound live
  rw [← removed_split s info] at start
  exact start.insertRemovedValues inserted

theorem Sound.undo_cases (sound : s.Sound) (undone : s.undo = some after) :
    (s.undoStack = [] ∧ s = after) ∨ ∃ info rest base, s.undoStack = info :: rest ∧ s.Live info ∧
      insertRemovedValues info.oldNextId (s.removedValuesOf info) (s.restored info) = some base ∧
      s.popped info rest base = after := by
  classical
  cases stack : s.undoStack with
  | nil =>
    simp only [UndoMultiIndex.undo, stack, Option.some.injEq] at undone
    exact .inl ⟨rfl, undone⟩
  | cons info rest =>
    rw [undo_eq sound stack] at undone
    split at undone
    next live =>
      obtain ⟨base, inserted, same⟩ := Option.map_eq_some_iff.mp undone
      exact .inr ⟨info, rest, base, rfl, live, inserted, same⟩
    next => cases undone

theorem Sound.popped (sound : s.Sound) {info : UndoState} {rest : List UndoState} (stack : s.undoStack = info :: rest)
    (live : s.Live info) {base : MultiIndex T UndoNodeExtra}
    (inserted : insertRemovedValues info.oldNextId (s.removedValuesOf info) (s.restored info) = some base) :
    (s.popped info rest base).Sound := by
  have top : info ∈ s.undoStack := by simp [stack]
  obtain ⟨housed, reinserted⟩ := sound.reinserted live inserted
  have ids := reinserted_id sound live reinserted
  have inner : ∀ u ∈ rest, u ∈ s.undoStack := fun u member => by simp [stack, member]
  have order := sound.ordered
  have older := sound.oldLayers
  have removed := sound.removedLayers
  rw [stack] at order older removed
  have oldPart : ∀ e ∈ CutList.below OldNode.self info.oldValuesEnd s.oldValues, e ∈ s.oldValues :=
    fun e member => CutList.below_subset member
  constructor
  · refine (housed.forget oldPart).rewindNextId ?_
    rintro a (member | member)
    · rw [ids]
      exact ((reinserted_byId sound live reinserted a).mp member).2
    · rw [ids]
      exact sound.beyond info top a member
  · exact fun e member => sound.allocated e (oldPart e member)
  · exact (older.replace [] (by simp)).closed
  · exact (removed.replace [] (by simp)).closed
  · intro u member
    exact ⟨(sound.bounded u (inner u member)).1, ((List.pairwise_cons.mp order).1 u member).2⟩
  · exact (List.pairwise_cons.mp order).2
  · intro u member b below
    have part := removed.below_replace [] (by simp)
      (List.mem_cons_of_mem _ (List.mem_map_of_mem (f := UndoState.removedValuesEnd) member))
    rw [List.nil_append] at part
    have low := sound.beyond u (inner u member) b (part ▸ below)
    exact (ids b).symm ▸ low

theorem Sound.undo (sound : s.Sound) (ran : s.undo = some after) : after.Sound := by
  obtain ⟨-, rfl⟩ | ⟨info, rest, base, stack, live, inserted, rfl⟩ := sound.undo_cases ran
  · exact sound
  · exact sound.popped stack live inserted

theorem Sound.undoTimes {n : Nat} (sound : s.Sound) (ran : s.undoTimes n = some after) : after.Sound := by
  induction n generalizing s with
  | zero =>
    simp only [UndoMultiIndex.undoTimes, Option.some.injEq] at ran
    exact ran ▸ sound
  | succ n ih =>
    obtain ⟨middle, first, rest⟩ := Option.bind_eq_some_iff.mp ran
    exact ih (sound.undo first) rest

/-! ## Compression -/

def compressed (s : UndoMultiIndex T) (last session : UndoState) : UndoMultiIndex T :=
  { s with
    toMultiIndex := (((s.oldValuesOf last).filter (fun e => e.mtime < session.ctime && s.isRemoved e.current)).foldl
      MultiIndex.restoreOne s.toMultiIndex).disposeNodes
        ((s.removedValuesOf last).filter fun a => session.oldNextId ≤ s.id a)
    oldValues := (s.oldValuesOf last).filter (fun e => e.mtime < session.ctime && !s.isRemoved e.current) ++
      CutList.below OldNode.self last.oldValuesEnd s.oldValues
    removedValues := (s.removedValuesOf last).filter (fun a => s.id a < session.oldNextId) ++
      CutList.below (fun a => a) last.removedValuesEnd s.removedValues }

/-- None of the entries the compression looks at belongs to a disposed node. -/
def LiveSince (s : UndoMultiIndex T) (last session : UndoState) : Prop :=
  ∀ e ∈ s.oldValuesOf last, e.mtime < session.ctime → s.disposed e.current = 0

omit [Object T] in
theorem liveSince_filter {last session : UndoState} (live : s.LiveSince last session) :
    ∀ e ∈ (s.oldValuesOf last).filter (fun e => e.mtime < session.ctime && s.isRemoved e.current),
      s.disposed e.current = 0 := by
  intro e member
  obtain ⟨inside, counted⟩ := List.mem_filter.mp member
  exact live e inside (of_decide_eq_true (Bool.and_eq_true_iff.mp counted).1)

theorem taken_id (sound : s.Sound) {last session : UndoState} (live : s.LiveSince last session) (a : Addr) :
    (((s.oldValuesOf last).filter (fun e => e.mtime < session.ctime && s.isRemoved e.current)).foldl
      MultiIndex.restoreOne s.toMultiIndex).id a = s.id a :=
  sound.housed.restoreAll_id (fun _ member => mem_oldValuesOf (List.mem_of_mem_filter member)) (liveSince_filter live) a

theorem compressImpl_eq (sound : s.Sound) {last session : UndoState} [Decidable (s.LiveSince last session)] :
    s.compressImpl last session = if s.LiveSince last session then some (s.compressed last session) else none := by
  have loop := MultiIndex.compressOldValues_eq session.ctime (s.oldValuesOf last) s.toMultiIndex
  by_cases live : s.LiveSince last session
  · rw [if_pos live]
    simp only [compressImpl, loop.trans (if_pos live), Option.bind_eq_bind, Option.bind_some, compressed, taken_id sound live]
  · rw [if_neg live]
    simp only [compressImpl, loop.trans (if_neg live), Option.bind_eq_bind, Option.bind_none]

theorem compressImpl_iff (sound : s.Sound) {last session : UndoState} :
    s.compressImpl last session = some after ↔ s.LiveSince last session ∧ s.compressed last session = after := by
  classical
  rw [compressImpl_eq sound, Option.ite_none_right_eq_some, Option.some.injEq]

theorem Sound.compressed (sound : s.Sound) {last session : UndoState} {rest : List UndoState}
    (stack : s.undoStack = last :: rest) (live : s.LiveSince last session) : (s.compressed last session).Sound := by
  have taken := sound.housed.restoreAll
    ((s.oldValuesOf last).filter (fun e => e.mtime < session.ctime && s.isRemoved e.current))
    (fun _ member => mem_oldValuesOf (List.mem_of_mem_filter member)) (liveSince_filter live)
  have ids := taken_id sound live
  have nextId := (MultiIndex.restoreAll_frame
    ((s.oldValuesOf last).filter (fun e => e.mtime < session.ctime && s.isRemoved e.current)) s.toMultiIndex).2.1
  have older := sound.oldLayers
  have removed := sound.removedLayers
  rw [stack] at older removed
  have oldPart : ∀ e ∈ (s.compressed last session).oldValues, e ∈ s.oldValues :=
    fun e member => CutList.replaced_subset (fun _ inside => List.mem_of_mem_filter inside) member
  have split : s.removedValues.Perm ((s.removedValuesOf last).filter (fun a => session.oldNextId ≤ s.id a) ++
      (s.compressed last session).removedValues) := by
    have parts := List.filter_append_perm (fun a => decide (session.oldNextId ≤ s.id a)) (s.removedValuesOf last)
    have other : (s.removedValuesOf last).filter (fun a => !decide (session.oldNextId ≤ s.id a)) =
        (s.removedValuesOf last).filter (fun a => s.id a < session.oldNextId) := by
      refine List.filter_congr fun a _ => ?_
      rw [← decide_not]
      exact decide_eq_decide.mpr Nat.not_le
    rw [other] at parts
    have whole := (parts.append_right (CutList.below (fun a => a) last.removedValuesEnd s.removedValues)).symm
    rw [removed_split, List.append_assoc] at whole
    exact whole
  constructor
  · exact (taken.disposeNodes split).forget oldPart
  · exact fun e member => sound.allocated e (oldPart e member)
  · have layers := older.replace ((s.oldValuesOf last).filter (fun e => e.mtime < session.ctime && !s.isRemoved e.current))
      fun e member => List.mem_of_mem_filter member
    rw [← List.map_cons, ← stack] at layers
    exact layers
  · have layers := removed.replace ((s.removedValuesOf last).filter (fun a => s.id a < session.oldNextId))
      fun a member => List.mem_of_mem_filter member
    rw [← List.map_cons, ← stack] at layers
    exact layers
  · intro u member
    have bounds := sound.bounded u member
    rw [← nextId] at bounds
    simpa only [UndoMultiIndex.compressed, MultiIndex.disposeNodes_eq] using bounds
  · exact sound.ordered
  · intro u member b below
    have inside : u.removedValuesEnd ∈ (last :: rest).map UndoState.removedValuesEnd := by
      have listed : u ∈ s.undoStack := member
      rw [stack] at listed
      exact List.mem_map_of_mem listed
    have part := removed.below_replace ((s.removedValuesOf last).filter (fun a => s.id a < session.oldNextId))
      (fun a member => List.mem_of_mem_filter member) inside
    have low := sound.beyond u member b (part ▸ below)
    simp only [UndoMultiIndex.compressed, MultiIndex.disposeNodes_eq]
    rw [← ids] at low
    exact low

theorem Sound.compressImpl (sound : s.Sound) {last session : UndoState} {rest : List UndoState}
    (stack : s.undoStack = last :: rest) (ran : s.compressImpl last session = some after) : after.Sound := by
  obtain ⟨live, rfl⟩ := (compressImpl_iff sound).mp ran
  exact sound.compressed stack live

theorem squash_cases (ran : s.squash = some after) :
    (∃ last session rest middle, s.undoStack = last :: session :: rest ∧ s.compressImpl last session = some middle ∧
      middle.squashFast = after) ∨ s.squashFast = after := by
  unfold squash at ran
  split at ran
  next last session rest stack =>
    obtain ⟨middle, first, same⟩ := Option.map_eq_some_iff.mp ran
    exact .inl ⟨last, session, rest, middle, stack, first, same⟩
  next => exact .inr (Option.some.inj ran)

theorem Sound.squash (sound : s.Sound) (ran : s.squash = some after) : after.Sound := by
  obtain ⟨last, session, rest, middle, stack, first, rfl⟩ | rfl := squash_cases ran
  · exact (sound.compressImpl stack first).squashFast
  · exact sound.squashFast

theorem Sound.compressLastUndoSession (sound : s.Sound) (ran : s.compressLastUndoSession = some after) : after.Sound := by
  unfold UndoMultiIndex.compressLastUndoSession at ran
  split at ran
  · cases ran
  next last rest stack => exact sound.compressImpl stack ran

end UndoMultiIndex
end ChainBase
