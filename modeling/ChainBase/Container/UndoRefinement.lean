import ChainBase.Container.PlainRefinement
import ChainBase.Container.Stamped
import ChainBase.Library.Versioned

/-! Runs of `basic_undo_multi_index` refine runs of a versioned table: the undo
log amounts to saved copies of the whole table. -/

namespace ChainBase
open OrderedSequence

/-- The calls of an undo container; ids name objects as they do for a plain one. -/
inductive UndoOp (T : Type) where
  | emplace (constructor : Nat → Option T)
  | modify (id : Nat) (modifier : T → T × Bool)
  | remove (id : Nat)
  | startUndo
  | undo
  | undoAll
  | squash
  | squashFast
  | compressLastUndoSession
  | lastUndoSession
  | commit (revision : Int)
  | setRevision (revision : Nat)

/-- What a caller sees of one call. -/
inductive Reply where
  | returned
  | threw
  | revision (revision : Int)
deriving DecidableEq, Repr

def Reply.ofBool (ok : Bool) : Reply := if ok then .returned else .threw

namespace UndoOp
variable {T : Type} [Object T] {keys : List (Comparator T)}

def step (s : UndoMultiIndex T) : UndoOp T → Option (Reply × UndoMultiIndex T)
  | emplace constructor =>
    match s.emplace constructor with
    | (.ok _, after) => some (.returned, after)
    | (.error _, after) => some (.threw, after)
  | modify id modifier =>
    match s.named id with
    | none => some (.returned, s)
    | some a => (s.modify a modifier).map fun (thrown, after) => (.ofBool thrown.isNone, after)
  | remove id =>
    match s.named id with
    | none => some (.returned, s)
    | some a => some (.returned, s.remove a)
  | startUndo => some (.revision s.startUndo.1, s.startUndo.2)
  | undo => s.undo.map (.returned, ·)
  | undoAll => s.undoAll.map (.returned, ·)
  | squash => s.squash.map (.returned, ·)
  | squashFast => some (.returned, s.squashFast)
  | compressLastUndoSession => s.compressLastUndoSession.map (.returned, ·)
  | lastUndoSession => s.lastUndoSession.map fun (_, after) => (.returned, after)
  | commit revision => some (.revision (s.commit revision).1, (s.commit revision).2)
  | setRevision revision =>
    match s.setRevision revision with
    | .ok after => some (.returned, after)
    | .error _ => some (.threw, s)

/-- Everything that a call can do. -/
inductive Performs (s : UndoMultiIndex T) : UndoOp T → UndoMultiIndex T → Prop where
  | emplace (constructor : Nat → Option T) : Performs s (emplace constructor) (s.emplace constructor).2
  | modify {id : Nat} {a : Addr} {modifier : T → T × Bool} {thrown : Option Thrown} {after : UndoMultiIndex T}
    (found : s.named id = some a) (modified : s.modify a modifier = some (thrown, after)) : Performs s (modify id modifier) after
  | modifyMissing {id : Nat} {modifier : T → T × Bool} (missing : s.named id = none) : Performs s (modify id modifier) s
  | remove {id : Nat} {a : Addr} (found : s.named id = some a) : Performs s (remove id) (s.remove a)
  | removeMissing {id : Nat} (missing : s.named id = none) : Performs s (remove id) s
  | startUndo : Performs s startUndo s.startUndo.2
  | undo {after : UndoMultiIndex T} (undone : s.undo = some after) : Performs s undo after
  | undoAll {after : UndoMultiIndex T} (undone : s.undoAll = some after) : Performs s undoAll after
  | squash {after : UndoMultiIndex T} (squashed : s.squash = some after) : Performs s squash after
  | squashFast : Performs s squashFast s.squashFast
  | compress {after : UndoMultiIndex T} (compressed : s.compressLastUndoSession = some after) :
    Performs s compressLastUndoSession after
  | lastUndoSession {after : UndoMultiIndex T} (compressed : s.compressLastUndoSession = some after) :
    Performs s lastUndoSession after
  | noSession (stack : s.undoStack = []) : Performs s lastUndoSession s
  | commit (revision : Int) : Performs s (commit revision) (s.commit revision).2
  | setRevision {revision : Nat} {after : UndoMultiIndex T} (set : s.setRevision revision = .ok after) :
    Performs s (setRevision revision) after
  | refused {revision : Nat} : Performs s (setRevision revision) s

theorem performs {s after : UndoMultiIndex T} {op : UndoOp T} {reply : Reply} (ran : step s op = some (reply, after)) :
    Performs s op after := by
  cases op with
  | emplace constructor =>
    have emplaced := Performs.emplace (s := s) constructor
    simp only [step] at ran
    split at ran <;>
    · next result =>
      rw [result] at emplaced
      cases ran
      exact emplaced
  | modify id modifier =>
    simp only [step] at ran
    split at ran
    next missing =>
      cases ran
      exact .modifyMissing missing
    next a found =>
      obtain ⟨⟨thrown, state⟩, modified, same⟩ := Option.map_eq_some_iff.mp ran
      cases same
      exact .modify found modified
  | remove id =>
    simp only [step] at ran
    split at ran <;> cases ran
    next missing => exact .removeMissing missing
    next a found => exact .remove found
  | startUndo =>
    cases ran
    exact .startUndo
  | undo =>
    obtain ⟨state, undone, same⟩ := Option.map_eq_some_iff.mp ran
    cases same
    exact .undo undone
  | undoAll =>
    obtain ⟨state, undone, same⟩ := Option.map_eq_some_iff.mp ran
    cases same
    exact .undoAll undone
  | squash =>
    obtain ⟨state, squashed, same⟩ := Option.map_eq_some_iff.mp ran
    cases same
    exact .squash squashed
  | squashFast =>
    cases ran
    exact .squashFast
  | compressLastUndoSession =>
    obtain ⟨state, compressed, same⟩ := Option.map_eq_some_iff.mp ran
    cases same
    exact .compress compressed
  | lastUndoSession =>
    obtain ⟨⟨delta, state⟩, shown, same⟩ := Option.map_eq_some_iff.mp ran
    cases same
    simp only [UndoMultiIndex.lastUndoSession] at shown
    split at shown
    next stack =>
      cases shown
      exact .noSession stack
    · obtain ⟨middle, compressed, result⟩ := Option.bind_eq_some_iff.mp shown
      cases result
      exact .lastUndoSession compressed
  | commit revision =>
    cases ran
    exact .commit revision
  | setRevision revision =>
    simp only [step] at ran
    split at ran
    next state set =>
      cases ran
      exact .setRevision set
    · cases ran
      exact .refused

/-- The same call on a versioned table. -/
noncomputable def spec (v : Versioned (Table T keys)) : UndoOp T → Reply × Versioned (Table T keys)
  | emplace constructor =>
    (.ofBool (v.current.emplace constructor).1, { v with current := (v.current.emplace constructor).2 })
  | modify id modifier => (.ofBool (v.current.modify id modifier).1, { v with current := (v.current.modify id modifier).2 })
  | remove id => (.returned, { v with current := v.current.remove id })
  | startUndo => (.revision (v.revision + 1), v.start)
  | undo => (.returned, v.undo)
  | undoAll => (.returned, v.undoAll)
  | squash | squashFast => (.returned, v.squash)
  | compressLastUndoSession | lastUndoSession => (.returned, v)
  | commit revision => (.revision v.revision, v.commit revision)
  | setRevision revision =>
    if v.saved ≠ [] ∨ UndoMultiIndex.int64Max < revision ∨ revision < v.revision then (.threw, v)
    else (.returned, { v with revision })

/-- What the calls of a run are asked to observe: constructors keep or raise the
id they are given, no modification ends in a conflict or changes the id, and only
an open session is compressed. -/
def Legal (s : UndoMultiIndex T) : UndoOp T → Prop
  | emplace constructor => ∀ v, constructor s.nextId = some v → Object.Follows s.nextId v
  | modify id modifier => ∀ a, s.named id = some a → s.Accepts a (modifier (s.value a)).1
  | compressLastUndoSession => s.undoStack ≠ []
  | _ => True

instance (s : UndoMultiIndex T) : ∀ op, Decidable (Legal s op)
  | emplace constructor => inferInstanceAs (Decidable (∀ v ∈ constructor s.nextId, Object.Follows s.nextId v))
  | modify id modifier => inferInstanceAs (Decidable (∀ a ∈ s.named id, s.Accepts a (modifier (s.value a)).1))
  | compressLastUndoSession => inferInstanceAs (Decidable (s.undoStack ≠ []))
  | remove _ | startUndo | undo | undoAll | squash | squashFast | lastUndoSession | commit _ | setRevision _ =>
    inferInstanceAs (Decidable True)

/-- No signed arithmetic of the call overflows: there is a revision left for a new level,
and a commit does not go back further than the largest `int64_t`. -/
def Fits (s : UndoMultiIndex T) : UndoOp T → Prop
  | startUndo => s.revision < UndoMultiIndex.int64Max
  | commit revision => s.revision - UndoMultiIndex.int64Max ≤ revision
  | _ => True

instance (s : UndoMultiIndex T) : ∀ op, Decidable (Fits s op)
  | startUndo => inferInstanceAs (Decidable (s.revision < UndoMultiIndex.int64Max))
  | commit revision => inferInstanceAs (Decidable (s.revision - UndoMultiIndex.int64Max ≤ revision))
  | emplace _ | modify _ _ | remove _ | undo | undoAll | squash | squashFast | compressLastUndoSession | lastUndoSession
  | setRevision _ => inferInstanceAs (Decidable True)

end UndoOp

namespace UndoMultiIndex
variable {T : Type} [Object T] {keys : List (Comparator T)}

/-- The container shows the current table of the versioned one, and as many open
levels; what these levels go back to is left open. -/
structure Stands (s : UndoMultiIndex T) (v : Versioned (Table T keys)) : Prop where
  sound : s.Sound
  current : s.Represents v.current
  revision : s.revision = v.revision
  depth : s.undoStack.length = v.saved.length

namespace Stands
variable {s : UndoMultiIndex T} {v : Versioned (Table T keys)} {a : Addr} {item : T}

theorem wasteNode (stands : s.Stands v) {nodes : Addr → Node T UndoNodeExtra}
    (same : ∀ a, a ≠ s.fresh → nodes a = s.nodes a) : { s with toMultiIndex := s.wasteNode nodes }.Stands v :=
  ⟨stands.sound.wasteNode same, stands.current.wasteNode same, stands.revision, stands.depth⟩

theorem stamped (stands : s.Stands v) (a : Addr) (time : Nat) : { s with toMultiIndex := s.setMtime a time }.Stands v := by
  have sound := stands.sound.rebase (stands.sound.housed.setMtime a time) (Nat.le_refl _) (by simp)
  exact ⟨sound, stands.current.congr sound.housed.linked rfl rfl rfl (by simp), stands.revision, stands.depth⟩

theorem onCreate (stands : s.Stands v) (a : Addr) : (s.onCreate a).Stands v := by
  unfold UndoMultiIndex.onCreate
  split
  · exact stands
  · exact stands.stamped a _

theorem emplaced (stands : s.Stands v) (follows : Object.Follows v.current.nextId item)
    (free : v.current.Free (Object.id item) item) :
    ({ s with toMultiIndex := s.linkNew item }.onCreate s.fresh).Stands
      { v with current := v.current.insert item follows.1 free } := by
  have above : Object.Follows s.nextId item := stands.current.nextId ▸ follows
  have linked : { s with toMultiIndex := s.linkNew item }.Stands { v with current := v.current.insert item follows.1 free } :=
    ⟨stands.sound.linkNew above, stands.current.linkNew follows free, stands.revision, stands.depth⟩
  exact linked.onCreate s.fresh

theorem prepared (stands : s.Stands v) (member : a ∈ s.byId) : (s.prepared a).Stands v := by
  unfold UndoMultiIndex.prepared
  split
  · have sound := stands.sound.backedUp member
    exact ⟨sound, stands.current.congr sound.housed.linked rfl rfl rfl (by simp [backedUp]), stands.revision, stands.depth⟩
  · exact stands

theorem settle (stands : s.Stands v) (member : a ∈ s.byId) (keyed : Object.id item = s.id a)
    (free : v.current.Free (s.id a) item) :
    { s with toMultiIndex := s.settle a item }.Stands
      { v with current := v.current.replace (s.id a) item keyed (v.current.below _ _ (stands.current.object member)) free } :=
  ⟨stands.sound.settle member keyed, stands.current.settle member keyed free, stands.revision, stands.depth⟩

theorem modified (stands : s.Stands v) (member : a ∈ s.byId) (keyed : Object.id item = s.id a)
    (free : v.current.Free (s.id a) item) :
    { s.prepared a with toMultiIndex := (s.prepared a).settle a item }.Stands
      { v with current := v.current.replace (s.id a) item keyed (v.current.below _ _ (stands.current.object member)) free } := by
  have same : (s.prepared a).id a = s.id a := prepared_id a
  have keyed' : Object.id item = (s.prepared a).id a := same ▸ keyed
  have free' : v.current.Free ((s.prepared a).id a) item := same ▸ free
  have settled := (stands.prepared member).settle (by simpa using member) keyed' free'
  simpa only [same] using settled

theorem reverted (stands : s.Stands v) (a : Addr) : (s.reverted a).Stands v := by
  have stamped := stands.stamped a s.monotonicRevision
  have allocated : ∀ e ∈ s.oldValues, e.self < s.freshOld + 1 := fun e member =>
    Nat.lt_succ_of_lt (stands.sound.allocated e member)
  exact ⟨{ stamped.sound with allocated }, stamped.current, stamped.revision, stamped.depth⟩

theorem removed (stands : s.Stands v) (member : a ∈ s.byId) :
    (s.remove a).Stands { v with current := v.current.erase (s.id a) } := by
  have sound := stands.sound.remove member
  by_cases older : s.Older a
  · rw [remove_older older] at sound ⊢
    refine ⟨sound, ?_, stands.revision, stands.depth⟩
    refine stands.current.unlink member sound.housed.linked rfl ?_ rfl ?_
    · simp [retired, MultiIndex.setRemovedField, MultiIndex.eraseImpl, SetIndex.eraseImpl]
    · intro b _ _
      exact congrFun (MultiIndex.setRemovedField_value (s.eraseImpl a) a _) b
  · rw [remove_newer older] at sound ⊢
    exact ⟨sound, stands.current.remove member _, stands.revision, stands.depth⟩

theorem startUndo (stands : s.Stands v) : s.startUndo.2.Stands v.start :=
  ⟨stands.sound.startUndo, stands.current, congrArg (· + 1) stands.revision, congrArg (· + 1) stands.depth⟩

end Stands

/-- The container stands for the versioned table in full: every level goes back to
the copy saved for it. -/
structure Refines (s : UndoMultiIndex T) (v : Versioned (Table T keys)) : Prop where
  sound : s.Sound
  current : s.Represents v.current
  revision : s.revision = v.revision
  stamps : ∀ a, s.mtime a ≤ s.monotonicRevision
  oldStamps : ∀ e ∈ s.oldValues, e.mtime ≤ s.monotonicRevision
  saved : List.Forall₂ s.Saves s.undoStack v.saved

namespace Refines
variable {s after : UndoMultiIndex T} {v : Versioned (Table T keys)} {a : Addr} {item : T}

theorem empty [Inhabited T] (keys : List (Comparator T)) :
    (UndoMultiIndex.empty keys : UndoMultiIndex T).Refines ⟨Table.empty keys, [], 0⟩ where
  sound := sound_empty keys
  current := MultiIndex.Represents.empty keys
  revision := rfl
  stamps _ := Nat.le_refl _
  oldStamps := by simp [UndoMultiIndex.empty]
  saved := .nil

theorem unique {w : Versioned (Table T keys)} (refines : s.Refines v) (again : s.Refines w) : v = w := by
  have saved : v.saved = w.saved := by
    refine List.right_unique_forall₂' (fun info t u saves others => ?_) refines.saved again.saved
    exact Table.ext (saves.recovers.unique others.recovers) (saves.nextId.symm.trans others.nextId)
  obtain ⟨current, older, revision⟩ := v
  obtain ⟨other, others, number⟩ := w
  simp only [Versioned.mk.injEq]
  exact ⟨refines.current.unique again.current, saved, refines.revision.symm.trans again.revision⟩

theorem stands (refines : s.Refines v) : s.Stands v :=
  ⟨refines.sound, refines.current, refines.revision, refines.saved.length_eq⟩

/-- A container that stands for a table refines it if its stamps and levels do. -/
theorem of_stands (stands : s.Stands v) (stamped : s.Stamped) (saved : List.Forall₂ s.Saves s.undoStack v.saved) :
    s.Refines v :=
  ⟨stands.sound, stands.current, stands.revision, stamped.nodes, stamped.backups, saved⟩

theorem stamped (refines : s.Refines v) : s.Stamped := ⟨refines.stamps, refines.oldStamps⟩

theorem levels (refines : s.Refines v)
    (kept : ∀ u ∈ s.undoStack, ∀ t : Table T keys, s.Saves u t → after.Saves u t) :
    List.Forall₂ after.Saves s.undoStack v.saved :=
  ((List.forall₂_and_left _ _).mpr ⟨fun _ member => member, refines.saved⟩).imp fun u t both => kept u both.1 t both.2

theorem saved_nil (refines : s.Refines v) : s.undoStack = [] ↔ v.saved = [] := by
  rw [← List.length_eq_zero_iff, refines.saved.length_eq, List.length_eq_zero_iff]

/-! ## Data operations -/

theorem wasteNode (refines : s.Refines v) {nodes : Addr → Node T UndoNodeExtra}
    (same : ∀ a, a ≠ s.fresh → nodes a = s.nodes a) (stamps : ∀ a, (nodes a).extra.mtime ≤ s.monotonicRevision) :
    { s with toMultiIndex := s.wasteNode nodes }.Refines v :=
  of_stands (refines.stands.wasteNode same) (refines.stamped.rebase stamps)
    (refines.levels fun _ _ _ saves => saves.wasteNode refines.sound same)

omit [Object T] in
private theorem onCreate_undoStack (s : UndoMultiIndex T) (a : Addr) : (s.onCreate a).undoStack = s.undoStack := by
  unfold onCreate
  split <;> rfl

theorem emplaced (refines : s.Refines v) (follows : Object.Follows v.current.nextId item)
    (free : v.current.Free (Object.id item) item) :
    ({ s with toMultiIndex := s.linkNew item }.onCreate s.fresh).Refines
      { v with current := v.current.insert item follows.1 free } := by
  have above : s.nextId ≤ Object.id item := refines.current.nextId ▸ follows.1
  have new : { s with toMultiIndex := s.linkNew item }.Stamped := refines.stamped.rebase (refines.stamped.newNode item)
  refine of_stands (refines.stands.emplaced follows free) (new.onCreate s.fresh) ?_
  rw [onCreate_undoStack]
  exact refines.levels fun u level t saves => saves.emplaced refines.sound level above

omit [Object T] in
private theorem prepared_undoStack (s : UndoMultiIndex T) (a : Addr) : (s.prepared a).undoStack = s.undoStack := by
  unfold prepared
  split <;> rfl

theorem modified (refines : s.Refines v) (member : a ∈ s.byId) (keyed : Object.id item = s.id a)
    (free : v.current.Free (s.id a) item) :
    { s.prepared a with toMultiIndex := (s.prepared a).settle a item }.Refines
      { v with current := v.current.replace (s.id a) item keyed (v.current.below _ _ (refines.current.object member)) free } := by
  have stamped := (refines.stamped.prepared a).settle a item
  refine of_stands (refines.stands.modified member keyed free) stamped ?_
  change List.Forall₂ _ (s.prepared a).undoStack _
  rw [prepared_undoStack]
  exact refines.levels fun u level t saves => saves.modified refines.sound level member keyed

private theorem remove_undoStack (s : UndoMultiIndex T) (a : Addr) : (s.remove a).undoStack = s.undoStack := by
  by_cases older : s.Older a
  · rw [remove_older older]
    rfl
  · rw [remove_newer older]

theorem removed (refines : s.Refines v) (member : a ∈ s.byId) :
    (s.remove a).Refines { v with current := v.current.erase (s.id a) } := by
  refine of_stands (refines.stands.removed member) (refines.stamped.remove a) ?_
  rw [remove_undoStack]
  exact refines.levels fun u level t saves => saves.removed refines.sound level member

/-! ## Levels -/

theorem startUndo (refines : s.Refines v) : s.startUndo.2.Refines v.start := by
  refine of_stands refines.stands.startUndo refines.stamped.startUndo ?_
  refine .cons (saves_opened refines.sound refines.current refines.stamps) ?_
  exact refines.levels fun u _ t saves => saves.congr rfl rfl rfl rfl

theorem undo (refines : s.Refines v) : ∃ after, s.undo = some after ∧ after.Refines v.undo := by
  cases stack : s.undoStack with
  | nil =>
    have none := refines.saved_nil.mp stack
    refine ⟨s, by simp [UndoMultiIndex.undo, stack], ?_⟩
    simpa [Versioned.undo, none] using refines
  | cons top rest =>
    have saved := refines.saved
    rw [stack] at saved
    obtain ⟨t, older, saves, others, copies⟩ := List.forall₂_cons_left_iff.mp saved
    obtain ⟨after, ran, remaining, revision, represents, kept⟩ := saves.undo refines.sound refines.current.keys stack
    have stamped := refines.stamped.undo refines.sound ran
    refine ⟨after, ran, ?_⟩
    rw [Versioned.undo_cons copies]
    refine ⟨refines.sound.undo ran, represents, by rw [revision, refines.revision], stamped.nodes, stamped.backups, ?_⟩
    rw [remaining]
    exact ((List.forall₂_and_left _ _).mpr ⟨fun _ member => member, others⟩).imp fun u w both => kept u both.1 w both.2

theorem undoTimes (n : Nat) (refines : s.Refines v) (depth : s.undoStack.length = n) :
    ∃ after, s.undoTimes n = some after ∧ after.Refines v.undoAll := by
  induction n generalizing s v with
  | zero =>
    have none := refines.saved_nil.mp (List.length_eq_zero_iff.mp depth)
    exact ⟨s, rfl, by rwa [Versioned.undoAll_nil none]⟩
  | succ n ih =>
    obtain ⟨middle, first, agrees⟩ := refines.undo
    have copies := refines.saved.length_eq
    rw [depth] at copies
    obtain ⟨t, older, stack⟩ := List.exists_cons_of_length_eq_add_one copies.symm
    have remaining : middle.undoStack.length = n := by
      rw [agrees.saved.length_eq, Versioned.undo_cons stack]
      simpa [stack] using copies.symm
    obtain ⟨after, ran, final⟩ := ih agrees remaining
    refine ⟨after, ?_, ?_⟩
    · simp only [UndoMultiIndex.undoTimes, first, Option.bind_eq_bind, Option.bind_some, ran]
    · rwa [Versioned.undoAll_undo stack]

theorem disposeUndo (refines : s.Refines v) {revision number : Int} (same : revision = number) :
    { s.disposeUndo with undoStack := [], revision }.Refines { v with saved := [], revision := number } where
  sound := refines.sound.disposeUndo
  current := by
    refine refines.current.congr refines.sound.disposeUndo.housed.linked ?_ ?_ ?_ ?_ <;>
      simp only [UndoMultiIndex.disposeUndo, MultiIndex.disposeNodes_eq]
    exact fun _ _ => rfl
  revision := same
  stamps := refines.stamped.disposeUndo.nodes
  oldStamps := refines.stamped.disposeUndo.backups
  saved := .nil

theorem squashFast (refines : s.Refines v) : s.squashFast.Refines v.squash := by
  have sound := refines.sound.squashFast
  have saved := refines.saved
  match stack : s.undoStack with
  | [] =>
    have none := refines.saved_nil.mp stack
    simpa [UndoMultiIndex.squashFast, stack, Versioned.squash, none] using refines
  | [top] =>
    rw [stack] at saved
    obtain ⟨t, older, -, others, copies⟩ := List.forall₂_cons_left_iff.mp saved
    obtain rfl := List.forall₂_nil_left_iff.mp others
    rw [Versioned.squash_cons copies]
    simp only [UndoMultiIndex.squashFast, stack]
    exact refines.disposeUndo (congrArg (· - 1) refines.revision)
  | top :: session :: rest =>
    rw [stack] at saved
    obtain ⟨t, older, -, others, copies⟩ := List.forall₂_cons_left_iff.mp saved
    simp only [UndoMultiIndex.squashFast, stack] at sound ⊢
    rw [Versioned.squash_cons copies]
    exact ⟨sound, refines.current, congrArg (· - 1) refines.revision, refines.stamps, refines.oldStamps,
      others.imp fun u t saves => saves.congr rfl rfl rfl rfl⟩

theorem commit (refines : s.Refines v) (revision : Int) :
    (s.commit revision).1 = v.revision ∧ (s.commit revision).2.Refines (v.commit revision) := by
  have same := refines.revision
  have depth := refines.saved.length_eq
  unfold UndoMultiIndex.commit Versioned.commit
  rw [Versioned.keepAbove_eq]
  simp only
  split
  next all =>
    have none : (v.revision - revision).toNat = 0 := by omega
    rw [none, List.take_zero]
    exact ⟨same, refines.disposeUndo same⟩
  next newer =>
    have count : (s.revision - min revision s.revision).toNat = (v.revision - revision).toNat := by omega
    rw [count]
    split
    next some =>
      split
      next info last =>
        have stamped := refines.stamped.dispose info (s.undoStack.take (v.revision - revision).toNat)
        refine ⟨same, refines.sound.dispose (List.take_append_drop _ _).symm last, ?_, same, stamped.nodes, stamped.backups, ?_⟩
        · refine refines.current.congr (refines.sound.dispose (List.take_append_drop _ _).symm last).housed.linked ?_ ?_ ?_ ?_ <;>
            simp only [UndoMultiIndex.dispose, MultiIndex.disposeNodes_eq]
          exact fun _ _ => rfl
        · have taken := List.forall₂_take (v.revision - revision).toNat refines.saved
          refine ((List.forall₂_and_left _ _).mpr ⟨fun _ member => member, taken⟩).imp fun u t both => ?_
          exact both.2.disposed refines.sound (List.take_append_drop _ _).symm last both.1
      next last =>
        have positive : 0 < (v.revision - revision).toNat := by omega
        have empty := List.getLast?_eq_none_iff.mp last
        rw [List.take_eq_nil_iff] at empty
        rcases empty with zero | zero
        · omega
        · simp [zero] at some
    next enough =>
      rw [List.take_of_length_le (by omega)]
      exact ⟨same, refines⟩

/-! ## Compression -/

private theorem compressed_current (refines : s.Refines v) {last session : UndoState} {rest : List UndoState}
    (stack : s.undoStack = last :: rest) (live : s.LiveSince last session) :
    (s.compressed last session).Represents v.current := by
  have sound := refines.sound.compressed stack live
  have frame := MultiIndex.restoreAll_frame
    ((s.oldValuesOf last).filter (fun e => e.mtime < session.ctime && s.isRemoved e.current)) s.toMultiIndex
  have gone : ∀ e ∈ (s.oldValuesOf last).filter (fun e => e.mtime < session.ctime && s.isRemoved e.current),
      s.isRemoved e.current = true := by
    intro e member
    exact (Bool.and_eq_true_iff.mp (List.mem_filter.mp member).2).2
  refine refines.current.congr sound.housed.linked ?_ ?_ ?_ ?_ <;>
    simp only [UndoMultiIndex.compressed, MultiIndex.disposeNodes_eq]
  · exact frame.1
  · exact MultiIndex.restoreAll_indices gone
  · exact frame.2.1
  · intro a member
    refine MultiIndex.restoreAll_value_other fun e listed same => ?_
    have flag := gone e listed
    rw [← same, refines.sound.housed.present a member] at flag
    cases flag

/-- Compressing for a level keeps the table and what that level and those below it
go back to; the levels above it are squashed away afterwards. -/
private theorem compressed_levels (refines : s.Refines v) (last : UndoState) (above : List UndoState)
    (newer : List (Table T keys)) {session : UndoState} {below : List UndoState} {t : Table T keys} {older : List (Table T keys)}
    (stack : s.undoStack = above ++ session :: below) (first : s.undoStack.head? = some last)
    (copies : v.saved = newer ++ t :: older) (depth : above.length = newer.length) :
    s.compressImpl last session = some (s.compressed last session) ∧
      List.Forall₂ (s.compressed last session).Saves (session :: below) (t :: older) := by
  classical
  obtain ⟨last, rest, whole⟩ := List.exists_cons_of_ne_nil (l := s.undoStack) (by simp [stack])
  obtain rfl : last = _ := by simpa [whole] using first
  have saved := refines.saved
  rw [stack, copies] at saved
  have levels := List.forall₂_drop above.length saved
  rw [List.drop_left, depth, List.drop_left] at levels
  have saves := (List.forall₂_cons.mp levels).1
  have inside : ∀ u ∈ session :: below, u ∈ s.undoStack := fun u member => by
    rw [stack]
    exact List.mem_append_right _ member
  have order := refines.sound.ordered
  rw [stack] at order
  have outer : ∀ u ∈ session :: below, u.ctime ≤ session.ctime ∧ u.oldNextId ≤ session.oldNextId := by
    intro u member
    rcases List.mem_cons.mp member with rfl | member
    · exact ⟨Nat.le_refl _, Nat.le_refl _⟩
    · have earlier := (List.pairwise_cons.mp (List.pairwise_append.mp order).2.1).1 u member
      exact ⟨Nat.le_of_lt earlier.1, earlier.2⟩
  have member := inside session (by simp)
  have live : s.LiveSince last session := by
    intro e listed counted
    refine (saves.live refines.sound ?_ counted).2.2.1
    rw [(refines.sound.outer_parts whole member).1]
    exact List.mem_append_left _ listed
  refine ⟨(compressImpl_iff refines.sound).mpr ⟨live, rfl⟩, ?_⟩
  refine ((List.forall₂_and_left _ _).mpr ⟨fun _ level => level, levels⟩).imp fun u w both => ?_
  exact saves.compress refines.sound whole member (inside u both.1) (outer u both.1).1 (outer u both.1).2 both.2

theorem compressLast (refines : s.Refines v) (opened : s.undoStack ≠ []) :
    ∃ after, s.compressLastUndoSession = some after ∧ after.Refines v := by
  obtain ⟨last, rest, stack⟩ := List.exists_cons_of_ne_nil opened
  have saved := refines.saved
  rw [stack] at saved
  obtain ⟨t, older, -, -, copies⟩ := List.forall₂_cons_left_iff.mp saved
  obtain ⟨ran, levels⟩ := refines.compressed_levels last [] [] stack (by simp [stack]) copies rfl
  refine ⟨s.compressed last last, by simp only [compressLastUndoSession, stack, ran], ?_⟩
  have live := ((compressImpl_iff refines.sound).mp ran).1
  have stamped := refines.stamped.compressed last last
  refine ⟨refines.sound.compressed stack live, refines.compressed_current stack live, refines.revision, stamped.nodes, stamped.backups, ?_⟩
  rw [copies]
  exact stack.symm ▸ levels

theorem squash (refines : s.Refines v) : ∃ after, s.squash = some after ∧ after.Refines v.squash := by
  match stack : s.undoStack with
  | [] => exact ⟨s.squashFast, by simp [UndoMultiIndex.squash, stack], refines.squashFast⟩
  | [top] => exact ⟨s.squashFast, by simp [UndoMultiIndex.squash, stack], refines.squashFast⟩
  | last :: session :: rest =>
    have saved := refines.saved
    rw [stack] at saved
    obtain ⟨newest, others, -, inner, copies⟩ := List.forall₂_cons_left_iff.mp saved
    obtain ⟨t, older, -, -, rfl⟩ := List.forall₂_cons_left_iff.mp inner
    obtain ⟨ran, levels⟩ := refines.compressed_levels last [last] [newest] stack
      (by simp [stack]) copies rfl
    have live := ((compressImpl_iff refines.sound).mp ran).1
    have kept : (s.compressed last session).undoStack = last :: session :: rest := stack
    refine ⟨(s.compressed last session).squashFast, by simp only [UndoMultiIndex.squash, stack, ran, Option.map_some], ?_⟩
    have sound := (refines.sound.compressed stack live).squashFast
    have stamped := refines.stamped.compressed last session
    simp only [UndoMultiIndex.squashFast, kept] at sound ⊢
    rw [Versioned.squash_cons copies]
    exact ⟨sound, refines.compressed_current stack live, congrArg (· - 1) refines.revision, stamped.nodes, stamped.backups,
      levels.imp fun u t saves => saves.congr rfl rfl rfl rfl⟩

theorem setRevision (refines : s.Refines v) (revision : Nat) :
    if v.saved ≠ [] ∨ int64Max < revision ∨ revision < v.revision then ∃ thrown, s.setRevision revision = .error thrown
    else ∃ after, s.setRevision revision = .ok after ∧ after.Refines { v with revision } := by
  have depth : s.undoStack.length ≠ 0 ↔ v.saved ≠ [] := by
    rw [refines.saved.length_eq, ne_eq, List.length_eq_zero_iff]
  unfold UndoMultiIndex.setRevision
  simp only [depth, refines.revision]
  split
  next throws =>
    by_cases opened : v.saved = []
    · by_cases high : int64Max < revision
      · simp [opened, high]
      · have low : (revision : Int) < v.revision := by tauto
        simp [opened, high, low]
    · simp [opened]
  next accepted =>
    simp only [not_or] at accepted
    rw [if_neg accepted.1, if_neg (by simpa using accepted.2.1), if_neg accepted.2.2]
    exact ⟨_, rfl, { refines.sound with }, refines.current, rfl, refines.stamps, refines.oldStamps,
      refines.saved.imp fun u t saves => saves.congr rfl rfl rfl rfl⟩

end Refines

/-- A container and a versioned table show the same: the same table in the same
order in every index, the same revision and the same number of open levels. -/
structure Shows (s : UndoMultiIndex T) (v : Versioned (Table T keys)) : Prop where
  table : s.Agrees v.current
  revision : s.revision = v.revision
  depth : s.undoStack.length = v.saved.length

theorem Stands.shows {s : UndoMultiIndex T} {v : Versioned (Table T keys)} (stands : s.Stands v) : s.Shows v :=
  ⟨stands.current.agrees, stands.revision, stands.depth⟩

end UndoMultiIndex

namespace UndoOp
variable {T : Type} [Object T] {keys : List (Comparator T)}

private theorem emplace_simulated {s : UndoMultiIndex T} {v : Versioned (Table T keys)} (refines : s.Refines v)
    {constructor : Nat → Option T} (contract : ∀ v, constructor s.nextId = some v → Object.Follows s.nextId v) :
    ∃ after, step s (emplace constructor) = some ((spec v (emplace constructor)).1, after) ∧
      after.Refines (spec v (emplace constructor)).2 := by
  have sameNext := refines.current.nextId
  cases constructs : constructor s.nextId with
  | none =>
    refine ⟨{ s with toMultiIndex := s.wasteNode s.nodes }, ?_, ?_⟩
    · simp [step, spec, UndoMultiIndex.emplace_threw constructs, Table.emplace_threw (sameNext ▸ constructs), Reply.ofBool]
    · simp only [spec, Table.emplace_threw (sameNext ▸ constructs)]
      exact refines.wasteNode (fun _ _ => rfl) refines.stamps
  | some item =>
    have follows : Object.Follows v.current.nextId item := sameNext ▸ contract item constructs
    have ascending : v.current.nextId ≤ Object.id item := follows.1
    by_cases free : v.current.Free (Object.id item) item
    · have clear := (refines.current.clear_fresh ascending).mpr free
      refine ⟨{ s with toMultiIndex := s.linkNew item }.onCreate s.fresh, ?_, ?_⟩
      · simp [step, spec, UndoMultiIndex.emplace_accepted refines.sound constructs clear,
          Table.emplace_accepted (sameNext ▸ constructs) ascending free, Reply.ofBool]
      · simp only [spec, Table.emplace_accepted (sameNext ▸ constructs) ascending free]
        exact refines.emplaced follows free
    · have taken := fun clear => free ((refines.current.clear_fresh ascending).mp clear)
      refine ⟨{ s with toMultiIndex := s.wasteNode (Function.update s.nodes s.fresh ⟨item, default, 0⟩) }, ?_, ?_⟩
      · simp [step, spec, UndoMultiIndex.emplace_refused refines.sound constructs taken,
          Table.emplace_refused (sameNext ▸ constructs) free, Reply.ofBool]
      · simp only [spec, Table.emplace_refused (sameNext ▸ constructs) free]
        refine refines.wasteNode (fun a other => Function.update_of_ne other _ _) fun a => ?_
        by_cases new : a = s.fresh
        · subst new
          rw [Function.update_self]
          exact Nat.zero_le _
        · rw [Function.update_of_ne new]
          exact refines.stamps a

private theorem modify_simulated {s : UndoMultiIndex T} {v : Versioned (Table T keys)} (refines : s.Refines v) {id : Nat}
    {modifier : T → T × Bool} (legal : ∀ a, s.named id = some a → s.Accepts a (modifier (s.value a)).1) :
    ∃ after, step s (modify id modifier) = some ((spec v (modify id modifier)).1, after) ∧
      after.Refines (spec v (modify id modifier)).2 := by
  cases found : s.named id with
  | none =>
    have missing := refines.current.named_none found
    exact ⟨s, by simp [step, spec, found, Table.modify_missing missing, Reply.ofBool],
      by simpa [spec, Table.modify_missing missing] using refines⟩
  | some a =>
    obtain ⟨member, rfl⟩ := refines.current.named_some found
    have object := refines.current.object member
    have accepts := legal a found
    have free := (refines.current.clear_member member).mp accepts.2
    refine ⟨{ s.prepared a with toMultiIndex := (s.prepared a).settle a (modifier (s.value a)).1 }, ?_, ?_⟩
    · simp only [step, spec, found, UndoMultiIndex.modify_kept refines.sound member accepts,
        Table.modify_kept object accepts.1 free]
      cases (modifier (s.value a)).2 <;> rfl
    · simp only [spec, Table.modify_kept object accepts.1 free]
      exact refines.modified member accepts.1 free

private theorem remove_simulated {s : UndoMultiIndex T} {v : Versioned (Table T keys)} (refines : s.Refines v) (id : Nat) :
    ∃ after, step s (remove id) = some ((spec v (remove id)).1, after) ∧ after.Refines (spec v (remove id)).2 := by
  cases found : s.named id with
  | none =>
    have missing := refines.current.named_none found
    refine ⟨s, by simp [step, spec, found], ?_⟩
    have same : v.current.remove id = v.current := by
      refine Table.ext (funext fun j => ?_) rfl
      by_cases own : j = id <;> simp [Table.remove, Table.erase, own, missing]
    simpa [spec, same] using refines
  | some a =>
    obtain ⟨member, rfl⟩ := refines.current.named_some found
    exact ⟨s.remove a, by simp [step, spec, found], refines.removed member⟩

theorem simulated (s : UndoMultiIndex T) (v : Versioned (Table T keys)) (op : UndoOp T) (refines : s.Refines v)
    (legal : Legal s op) : ∃ after, step s op = some ((spec v op).1, after) ∧ after.Refines (spec v op).2 := by
  cases op with
  | emplace constructor => exact emplace_simulated refines legal
  | modify id modifier => exact modify_simulated refines legal
  | remove id => exact remove_simulated refines id
  | startUndo =>
    refine ⟨s.startUndo.2, ?_, refines.startUndo⟩
    simp [step, spec, UndoMultiIndex.startUndo, refines.revision]
  | undo =>
    obtain ⟨after, ran, agrees⟩ := refines.undo
    exact ⟨after, by simp [step, spec, ran], agrees⟩
  | undoAll =>
    obtain ⟨after, ran, agrees⟩ := refines.undoTimes _ rfl
    exact ⟨after, by simp [step, spec, UndoMultiIndex.undoAll, ran], agrees⟩
  | squash =>
    obtain ⟨after, ran, agrees⟩ := refines.squash
    exact ⟨after, by simp [step, spec, ran], agrees⟩
  | squashFast => exact ⟨s.squashFast, rfl, refines.squashFast⟩
  | compressLastUndoSession =>
    obtain ⟨after, ran, agrees⟩ := refines.compressLast legal
    exact ⟨after, by simp [step, spec, ran], agrees⟩
  | lastUndoSession =>
    by_cases opened : s.undoStack = []
    · exact ⟨s, by simp [step, spec, UndoMultiIndex.lastUndoSession, opened], refines⟩
    · obtain ⟨after, ran, agrees⟩ := refines.compressLast opened
      obtain ⟨info, rest, stack⟩ := List.exists_cons_of_ne_nil opened
      exact ⟨after, by simp [step, spec, UndoMultiIndex.lastUndoSession, stack, ran], agrees⟩
  | commit revision =>
    obtain ⟨reply, agrees⟩ := refines.commit revision
    exact ⟨(s.commit revision).2, by simp [step, spec, reply], agrees⟩
  | setRevision revision =>
    have result := refines.setRevision revision
    split at result
    next throws =>
      obtain ⟨thrown, ran⟩ := result
      exact ⟨s, by simp [step, spec, ran, throws], by simpa [spec, throws] using refines⟩
    next accepted =>
      obtain ⟨after, ran, agrees⟩ := result
      exact ⟨after, by simp [step, spec, ran, accepted], by simpa [spec, accepted] using agrees⟩

theorem reached [Inhabited T] {ops : List (UndoOp T)} (legal : Run.Permitted step Legal (UndoMultiIndex.empty keys) ops)
    {replies : List Reply} {s : UndoMultiIndex T} (ran : Run.run step (UndoMultiIndex.empty keys) ops = some (replies, s)) :
    s.Refines (Run.follow spec ⟨Table.empty keys, [], 0⟩ ops).2 := by
  obtain ⟨last, again, refines⟩ := Run.simulates simulated (UndoMultiIndex.Refines.empty keys) legal
  rw [ran, Option.some.injEq, Prod.mk.injEq] at again
  exact again.2 ▸ refines

/-- Every legal run from an empty container is a run of the versioned table, with
the same replies, for any secondary keys, as long as the revisions fit. -/
theorem undoMultiIndex_refines_versioned [Inhabited T] (keys : List (Comparator T)) (ops : List (UndoOp T))
    (permitted : Run.Permitted step (fun s op => Legal s op ∧ Fits s op) (UndoMultiIndex.empty keys) ops) :
    ∃ s, Run.run step (UndoMultiIndex.empty keys) ops =
        some ((Run.follow spec ⟨Table.empty keys, [], 0⟩ ops).1, s) ∧
      s.Shows (Run.follow spec ⟨Table.empty keys, [], 0⟩ ops).2 := by
  have stepped : ∀ (s : UndoMultiIndex T) (v : Versioned (Table T keys)) op, s.Refines v → Legal s op ∧ Fits s op →
      ∃ after, step s op = some ((spec v op).1, after) ∧ after.Refines (spec v op).2 := by
    intro s v op refines both
    exact simulated s v op refines both.1
  obtain ⟨s, ran, refines⟩ := Run.simulates stepped (UndoMultiIndex.Refines.empty keys) permitted
  exact ⟨s, ran, refines.stands.shows⟩

/-- Two levels over two books that swap a key on the way, one level squashed and
compressed, one undone. -/
theorem undoMultiIndex_refines_versioned_books :
    let ops : List (UndoOp Book) :=
      [.emplace fun id => some ⟨id, 1, 1⟩, .emplace fun id => some ⟨id, 2, 2⟩, .startUndo,
        .modify 0 fun book => ({ book with a := 3 }, false), .startUndo, .modify 1 fun book => ({ book with a := 1 }, true),
        .modify 0 fun book => ({ book with a := 2 }, false), .remove 0, .squash, .compressLastUndoSession, .undo]
    ∃ s, Run.run step (UndoMultiIndex.empty bookKeys) ops = some ((Run.follow spec ⟨Table.empty bookKeys, [], 0⟩ ops).1, s) ∧
      s.Shows (Run.follow spec ⟨Table.empty bookKeys, [], 0⟩ ops).2 := by
  intro ops
  exact undoMultiIndex_refines_versioned bookKeys ops (by decide)

/-- Behind the largest id all ids are new to a level, so undoing it erases the book that
was there before; and a level on top of the largest revision has none. -/
theorem largest_id_undone :
    let ops : List (UndoOp Book) := [.emplace fun _ => some lastBook, .startUndo, .undo]
    (∃ s, Run.run step (UndoMultiIndex.empty bookKeys) ops = some ([.returned, .revision 1, .returned], s) ∧
      ¬ s.Shows (Run.follow spec ⟨Table.empty bookKeys, [], 0⟩ ops).2) ∧
    ∃ s, Run.run step (UndoMultiIndex.empty bookKeys) [.setRevision (2 ^ 63 - 1)] = some ([.returned], s) ∧
      ¬ Fits s .startUndo := by
  intro ops
  refine ⟨?_, ⟨_, rfl, by decide⟩⟩
  obtain ⟨s, ran, gone⟩ : ∃ s, Run.run step (UndoMultiIndex.empty bookKeys) ops =
      some ([.returned, .revision 1, .returned], s) ∧ s.find (Object.id lastBook) = none := ⟨_, rfl, rfl⟩
  refine ⟨s, ran, fun shows => ?_⟩
  have found := shows.table.found (Object.id lastBook)
  change (s.find _).map s.value = ((Table.empty bookKeys).emplace fun _ => some lastBook).2.objects _ at found
  rw [gone, Table.emplace_first] at found
  cases found

end UndoOp
end ChainBase
