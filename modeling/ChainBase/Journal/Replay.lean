import ChainBase.Journal.Recover
import ChainBase.Container.Observation
import ChainBase.Library.Recording

/-! What the entries of a journal mean for tables and versioned tables, and that
recovery does this to a container, and fails where it cannot. -/

namespace Versioned
open ChainBase

/-- An entry records the revision the container had after the operation. The
revision is set first where the calls that did so are missing. -/
def replay {σ : Type} (v : Versioned σ) (revision : Int) : LevelOp → Option (Versioned σ)
  | .startUndo =>
    if v.revision + 1 = revision then some v.start
    else if v.revision < revision - 1 ∧ v.saved = [] ∧ 0 < revision ∧ revision - 1 ≤ UndoMultiIndex.int64Max then
      some { v with revision := revision - 1 }.start
    else none
  | .commit => if v.revision = revision then some (v.commit revision) else none
  | .undo => if v.undo.revision = revision then some v.undo else none
  | .undoAll => if v.undoAll.revision = revision then some v.undoAll else none
  | .revision =>
    if v.saved = [] ∧ v.revision ≤ revision ∧ 0 ≤ revision ∧ revision ≤ UndoMultiIndex.int64Max then
      some { v with revision }
    else none

variable {σ : Type} {v w : Versioned σ} {revision : Int}

theorem replay_startUndo : v.replay revision .startUndo = some w ↔ (v.revision + 1 = revision ∨
    v.revision + 1 < revision ∧ v.saved = [] ∧ 0 < revision ∧ revision - 1 ≤ UndoMultiIndex.int64Max) ∧
      w = ⟨v.current, v.current :: v.saved, revision⟩ := by
  simp only [replay]
  split
  next next =>
    subst next
    simp [start, eq_comm]
  next other =>
    have lower : v.revision < revision - 1 ↔ v.revision + 1 < revision := by omega
    simp only [lower]
    split
    next raised => simp [start, raised, eq_comm]
    next refused => exact iff_of_false (by simp) fun both => both.1.elim other refused

theorem replay_commit : v.replay revision .commit = some w ↔ v.revision = revision ∧ w = ⟨v.current, [], revision⟩ := by
  simp only [replay]
  split
  next same =>
    subst same
    simp [commit, keepAbove_eq, eq_comm]
  next other => simp [other]

theorem replay_revision : v.replay revision .revision = some w ↔ (v.saved = [] ∧ v.revision ≤ revision ∧
    0 ≤ revision ∧ revision ≤ UndoMultiIndex.int64Max) ∧ w = ⟨v.current, [], revision⟩ := by
  simp only [replay]
  split
  next set => simp [set, eq_comm]
  next refused => simp [refused]

theorem replay_undo : v.replay revision .undo = some w ↔ v.undo.revision = revision ∧ w = v.undo := by
  simp only [replay]
  split <;> simp_all [eq_comm]

theorem replay_undoAll : v.replay revision .undoAll = some w ↔ v.undoAll.revision = revision ∧ w = v.undoAll := by
  simp only [replay]
  split <;> simp_all [eq_comm]

/-- No level has a negative revision. -/
def Grounded (v : Versioned σ) : Prop := (v.saved.length : Int) ≤ v.revision

theorem Grounded.fresh {t : σ} : (⟨t, [], 0⟩ : Versioned σ).Grounded := by
  simp [Grounded]

theorem Grounded.nonneg (grounded : v.Grounded) : 0 ≤ v.revision :=
  (Int.natCast_nonneg _).trans grounded

theorem Grounded.undo (grounded : v.Grounded) : v.undo.Grounded := by
  unfold Grounded at *
  cases stack : v.saved with
  | nil => simpa [Versioned.undo, stack] using grounded
  | cons t rest =>
    simp only [stack, List.length_cons, undo_cons stack] at *
    omega

theorem Grounded.undoAll (grounded : v.Grounded) : v.undoAll.Grounded := by
  unfold Grounded at *
  simp only [Versioned.undoAll, List.length_nil]
  omega

theorem Grounded.replay (grounded : v.Grounded) {op : LevelOp} (applied : v.replay revision op = some w) :
    w.Grounded := by
  unfold Grounded at *
  cases op with
  | startUndo =>
    obtain ⟨number, rfl⟩ := replay_startUndo.mp applied
    simp only [List.length_cons]
    rcases number with next | raised
    · omega
    · simp only [raised.2.1, List.length_nil]
      omega
  | commit =>
    obtain ⟨rfl, rfl⟩ := replay_commit.mp applied
    simp only [List.length_nil]
    omega
  | undo => exact (replay_undo.mp applied).2 ▸ Grounded.undo grounded
  | undoAll => exact (replay_undoAll.mp applied).2 ▸ Grounded.undoAll grounded
  | revision =>
    obtain ⟨set, rfl⟩ := replay_revision.mp applied
    simpa using set.2.2.1

end Versioned

namespace ChainBase
open OrderedSequence

namespace Entry
variable {T : Type} [Object T] {keys : List (Comparator T)}

/-- The contract of `emplace` is kept wherever a replay comes. -/
def Ascending {σ : Type} (c : Target σ T) (s : σ) (entries : List (Entry T)) : Prop :=
  Recording.Follows (fun s entry => (entry.applyRecover c s).toOption) (Asserts c) s entries

/-- The table after a call that returned normally. -/
def accepted (result : Bool × Table T keys) : Option (Table T keys) := if result.1 then some result.2 else none

noncomputable def onTable (t : Table T keys) : Entry T → Option (Table T keys)
  -- a table has no place for the last id of its type
  | insert obj => if Object.id obj + 1 < Object.ids T then accepted (t.emplace fun _ => some obj) else none
  | modify id obj => if t.objects id = none then none else accepted (t.modify id fun _ => (obj, false))
  | remove id => if t.objects id = none then none else some (t.remove id)
  | level _ _ => some t

noncomputable def onVersioned (v : Versioned (Table T keys)) : Entry T → Option (Versioned (Table T keys))
  | level op revision => v.replay revision op
  | data => (data.onTable v.current).map fun t => { v with current := t }

/-- Entries that a journal can hold at this point: ids keep to the contract of `emplace`,
and revisions are in the range of the source's counter. -/
def Good (t : Table T keys) : Entry T → Prop
  | insert obj => Object.Follows t.nextId obj
  | level _ revision => 0 ≤ revision ∧ revision ≤ UndoMultiIndex.int64Max
  | _ => True

theorem onTable_insert {t : Table T keys} {obj : T} (follows : Object.Follows t.nextId obj) (free : t.Free (Object.id obj) obj) :
    onTable t (insert obj) = some (t.insert obj follows.1 free) := by
  simp [onTable, accepted, @Table.emplace_accepted _ _ _ _ (fun _ => some obj) _ rfl follows.1 free, follows.2]

/-- An insertion that breaks the contract of `emplace`, or shares a key, has no meaning. -/
theorem onTable_insert_bad {t : Table T keys} {obj : T} (bad : ¬ (Object.Follows t.nextId obj ∧ t.Free (Object.id obj) obj)) :
    onTable t (insert obj) = none := by
  simp only [onTable, accepted, Table.emplace, ite_eq_right_iff]
  intro room
  have refused : ¬ (t.nextId ≤ Object.id obj ∧ t.Free (Object.id obj) obj) := fun both => bad ⟨⟨both.1, room⟩, both.2⟩
  simp [refused]

theorem onTable_modify {t : Table T keys} {id : Nat} {obj old : T} (found : t.objects id = some old)
    (keyed : Object.id obj = id) (free : t.Free id obj) :
    onTable t (modify id obj) = some (t.replace id obj keyed (t.below id old found) free) := by
  simp [onTable, accepted, found, @Table.modify_kept _ _ _ _ _ (fun _ => (obj, false)) _ found keyed free]

theorem onTable_modify_bad {t : Table T keys} {id : Nat} {obj old : T} (found : t.objects id = some old)
    (bad : ¬ (Object.id obj = id ∧ t.Free id obj)) : onTable t (modify id obj) = none := by
  simp [onTable, accepted, found, @Table.modify_erased _ _ _ _ _ (fun _ => (obj, false)) _ found bad]

theorem onTable_remove {t : Table T keys} {id : Nat} {old : T} (found : t.objects id = some old) :
    onTable t (remove id) = some (t.erase id) := by
  simp [onTable, found, Table.remove]

theorem onTable_missing {t : Table T keys} {id : Nat} (missing : t.objects id = none) :
    (∀ obj, onTable t (modify id obj) = none) ∧ onTable t (remove id) = none := by
  simp [onTable, missing]

theorem onVersioned_grounded {v w : Versioned (Table T keys)} {entry : Entry T} (grounded : v.Grounded)
    (applied : entry.onVersioned v = some w) : w.Grounded := by
  cases entry with
  | level op revision => exact grounded.replay applied
  | _ =>
    obtain ⟨t, -, rfl⟩ := Option.map_eq_some_iff.mp applied
    exact grounded

theorem foldlM_grounded {v w : Versioned (Table T keys)} {entries : List (Entry T)} (grounded : v.Grounded)
    (reached : entries.foldlM onVersioned v = some w) : w.Grounded := by
  induction entries generalizing v with
  | nil =>
    cases reached
    exact grounded
  | cons entry entries ih =>
    rw [List.foldlM_cons, Option.bind_eq_bind, Option.bind_eq_some_iff] at reached
    obtain ⟨middle, applied, rest⟩ := reached
    exact ih (onVersioned_grounded grounded applied) rest

end Entry

/-! ## Recovery of a plain container -/

namespace MultiIndex
variable {T : Type} [Object T] {keys : List (Comparator T)} {s : MultiIndex T Unit} {t after : Table T keys}

theorem recover_applied (represents : s.Represents t) (entry : Entry T) (applied : entry.onTable t = some after) :
    ∃ last, entry.applyRecover target s = .ok last ∧ last.Represents after := by
  cases entry with
  | insert obj =>
    by_cases both : Object.Follows t.nextId obj ∧ t.Free (Object.id obj) obj
    · obtain ⟨follows, free⟩ := both
      have clear := (represents.clear_fresh follows.1).mpr free
      rw [Entry.onTable_insert follows free] at applied
      cases applied
      refine ⟨s.linkNew obj, ?_, represents.linkNew follows free⟩
      simp [Entry.applyRecover, Target.recoverInsert, target,
        @emplace_accepted _ _ _ _ s (fun _ => some obj) obj represents.linked rfl clear]
    · cases (Entry.onTable_insert_bad both).symm.trans applied
  | modify id obj =>
    cases found : s.find id with
    | none => simp [(Entry.onTable_missing (represents.find_none found)).1] at applied
    | some a =>
      obtain ⟨member, rfl⟩ := represents.find_some found
      have object := represents.object member
      by_cases both : Object.id obj = s.id a ∧ t.Free (s.id a) obj
      · obtain ⟨keyed, free⟩ := both
        have clear := (represents.clear_member member).mpr free
        rw [Entry.onTable_modify object keyed free] at applied
        cases applied
        refine ⟨s.settle a obj, ?_, represents.settle member keyed free⟩
        simp [Entry.applyRecover, Target.recoverModify, target, found, MultiIndex.modify,
          modifyWithRevert_kept represents.linked keyed clear, modifyThrows]
      · simp [Entry.onTable_modify_bad object both] at applied
  | remove id =>
    cases found : s.find id with
    | none => simp [(Entry.onTable_missing (represents.find_none found)).2] at applied
    | some a =>
      obtain ⟨member, rfl⟩ := represents.find_some found
      rw [Entry.onTable_remove (represents.object member)] at applied
      cases applied
      have removed := represents.remove member (s.value a)
      rw [setItem_value] at removed
      exact ⟨s.remove a, by simp [Entry.applyRecover, Target.recoverRemove, target, found], removed⟩
  | level op revision =>
    cases applied
    exact ⟨s, by simp [Entry.applyRecover, target], represents⟩

theorem recover_stopped (represents : s.Represents t) (entry : Entry T) (good : entry.Good t)
    (stopped : entry.onTable t = none) : ∃ failure, entry.applyRecover target s = .error failure := by
  cases entry with
  | insert obj =>
    by_cases free : t.Free (Object.id obj) obj
    · simp [Entry.onTable_insert good free] at stopped
    · have taken := fun clear => free ((represents.clear_fresh good.1).mp clear)
      exact ⟨_, by
        simp [Entry.applyRecover, Target.recoverInsert, target,
        @emplace_refused _ _ _ _ s (fun _ => some obj) obj represents.linked rfl taken]
        rfl⟩
  | modify id obj =>
    cases found : s.find id with
    | none => exact ⟨_, by simp [Entry.applyRecover, Target.recoverModify, target, found]; rfl⟩
    | some a =>
      obtain ⟨member, rfl⟩ := represents.find_some found
      by_cases both : Object.id obj = s.id a ∧ t.Free (s.id a) obj
      · simp [Entry.onTable_modify (represents.object member) both.1 both.2] at stopped
      · have bad : ¬ (Object.id obj = s.id a ∧ s.Clear a obj) :=
          fun clear => both ⟨clear.1, (represents.clear_member member).mp clear.2⟩
        exact ⟨_, by
          simp [Entry.applyRecover, Target.recoverModify, target, found, MultiIndex.modify,
          modifyWithRevert_erased represents.linked member bad, modifyThrows]
          rfl⟩
  | remove id =>
    cases found : s.find id with
    | none => exact ⟨_, by simp [Entry.applyRecover, Target.recoverRemove, target, found]; rfl⟩
    | some a =>
      obtain ⟨member, rfl⟩ := represents.find_some found
      simp [Entry.onTable_remove (represents.object member)] at stopped
  | level op revision => cases stopped

theorem replay_applied (represents : s.Represents t) {entries : List (Entry T)} (applied : entries.foldlM Entry.onTable t = some after) :
    ∃ last, replay target s entries = .ok last ∧ last.Represents after :=
  Recording.replay_applied Represents (fun _ _ entry _ represents => recover_applied represents entry) represents applied

end MultiIndex

/-! ## Recovery of a container with an undo stack -/

namespace UndoMultiIndex
variable {T : Type} [Object T] {keys : List (Comparator T)} {s : UndoMultiIndex T} {v after : Versioned (Table T keys)}

theorem toUnsigned_of_nonneg {revision : Int} (nonneg : 0 ≤ revision) (bounded : revision ≤ int64Max) :
    (toUnsigned revision : Int) = revision := by
  simp only [toUnsigned, int64Max] at *
  omega

private theorem setRevision_applied (refines : s.Refines v) {revision : Int} (closed : v.saved = [])
    (rises : v.revision ≤ revision) (nonneg : 0 ≤ revision) (bounded : revision ≤ int64Max) :
    ∃ last, undoTarget.setRevisionOrThrow s revision = .ok last ∧ last.Refines { v with revision } := by
  have same := toUnsigned_of_nonneg nonneg bounded
  have result := refines.setRevision (toUnsigned revision)
  rw [if_neg (by simp [closed, same]; omega)] at result
  obtain ⟨last, ran, agrees⟩ := result
  exact ⟨last, by simp [UndoTarget.setRevisionOrThrow, undoTarget, ran], same ▸ agrees⟩

private theorem setRevision_stopped (refines : s.Refines v) {revision : Int} (least : -1 ≤ revision)
    (bounded : revision ≤ int64Max) (refused : ¬ (v.saved = [] ∧ v.revision ≤ revision ∧ 0 ≤ revision)) :
    ∃ failure, undoTarget.setRevisionOrThrow s revision = .error failure := by
  have result := refines.setRevision (toUnsigned revision)
  rw [if_pos] at result
  · obtain ⟨thrown, ran⟩ := result
    exact ⟨_, by simp [UndoTarget.setRevisionOrThrow, undoTarget, ran]; rfl⟩
  · by_cases nonneg : 0 ≤ revision
    · have same := toUnsigned_of_nonneg nonneg bounded
      rw [same]
      by_cases closed : v.saved = []
      · exact Or.inr (Or.inr (Int.not_le.mp fun rises => refused ⟨closed, rises, nonneg⟩))
      · exact Or.inl closed
    · obtain rfl : revision = -1 := by omega
      exact Or.inr (Or.inl (by decide))

theorem recoverLevel_applied (refines : s.Refines v) (grounded : v.Grounded) {op : LevelOp} {revision : Int}
    (applied : v.replay revision op = some after) :
    ∃ last, undoTarget.recoverLevel s op revision = .ok last ∧ last.Refines after := by
  have current := refines.revision
  have nonneg : 0 ≤ s.revision := current ▸ grounded.nonneg
  cases op with
  | startUndo =>
    simp only [Versioned.replay] at applied
    split at applied
    next next =>
      cases applied
      have kept : ¬ undoTarget.revision s < revision - 1 := by
        change ¬ s.revision < revision - 1
        omega
      have number : s.revision + 1 = revision := current ▸ next
      have fits : undoTarget.revision s = int64Max → int64Max < revision := by
        intro largest
        change s.revision = int64Max at largest
        omega
      exact ⟨s.startUndo.2, (undoTarget.recoverLevel_started kept (by omega) fits).trans (UndoTarget.expect_same number),
        refines.startUndo⟩
    · split at applied
      next raised =>
        cases applied
        obtain ⟨middle, set, agrees⟩ := setRevision_applied refines raised.2.1 (Int.le_of_lt raised.1) (by omega) raised.2.2.2
        have lower : s.revision < revision - 1 := current ▸ raised.1
        have number : middle.revision + 1 = revision := by
          rw [agrees.revision]
          exact Int.sub_add_cancel revision 1
        refine ⟨middle.startUndo.2, ?_, agrees.startUndo⟩
        rw [undoTarget.recoverLevel_raised lower (by omega), set]
        exact UndoTarget.expect_same number
      · cases applied
  | commit =>
    obtain ⟨reply, agrees⟩ := refines.commit revision
    simp only [Versioned.replay] at applied
    split at applied
    next same =>
      cases applied
      have fits : undoTarget.revision s - int64Max ≤ revision := by
        change s.revision - int64Max ≤ revision
        simp only [int64Max]
        omega
      exact ⟨_, (undoTarget.recoverLevel_commit fits).trans (UndoTarget.expect_same (reply.trans (by omega))), agrees⟩
    · cases applied
  | undo =>
    obtain ⟨last, ran, agrees⟩ := refines.undo
    simp only [Versioned.replay] at applied
    split at applied
    next same =>
      cases applied
      exact ⟨last, by simp [UndoTarget.recoverLevel, undoTarget, ran, UndoTarget.defined, UndoTarget.expect, bind, Except.bind,
        agrees.revision, same], agrees⟩
    · cases applied
  | undoAll =>
    obtain ⟨last, ran, agrees⟩ := refines.undoTimes _ rfl
    simp only [Versioned.replay] at applied
    split at applied
    next same =>
      cases applied
      exact ⟨last, by simp [UndoTarget.recoverLevel, undoTarget, undoAll, ran, UndoTarget.defined, UndoTarget.expect, bind,
        Except.bind, agrees.revision, same], agrees⟩
    · cases applied
  | revision =>
    simp only [Versioned.replay] at applied
    split at applied
    next set =>
      cases applied
      exact setRevision_applied refines set.1 set.2.1 set.2.2.1 set.2.2.2
    · cases applied

theorem recoverLevel_stopped (refines : s.Refines v) {op : LevelOp} {revision : Int} (nonneg : 0 ≤ revision)
    (bounded : revision ≤ int64Max) (stopped : v.replay revision op = none) :
    ∃ failure, undoTarget.recoverLevel s op revision = .error failure := by
  have current := refines.revision
  cases op with
  | startUndo =>
    simp only [Versioned.replay] at stopped
    split at stopped
    · cases stopped
    next other =>
      simp only [ite_eq_right_iff, reduceCtorEq, imp_false] at stopped
      by_cases lower : v.revision < revision - 1
      · have refused : ¬ (v.saved = [] ∧ v.revision ≤ revision - 1 ∧ 0 ≤ revision - 1) := fun set =>
          stopped ⟨lower, set.1, by omega, by omega⟩
        obtain ⟨failure, fails⟩ := setRevision_stopped refines (by omega) (by omega) refused
        have below : s.revision < revision - 1 := current ▸ lower
        refine ⟨failure, ?_⟩
        rw [undoTarget.recoverLevel_raised below (by omega), fails]
        rfl
      · have kept : ¬ undoTarget.revision s < revision - 1 := by
          change ¬ s.revision < revision - 1
          omega
        have number : s.revision + 1 ≠ revision := current ▸ other
        by_cases largest : s.revision = int64Max
        · exact ⟨.fault, by simp [UndoTarget.recoverLevel, undoTarget, largest, bounded]⟩
        · have fits : undoTarget.revision s = int64Max → int64Max < revision := fun is => absurd is largest
          exact ⟨_, (undoTarget.recoverLevel_started kept (by omega) fits).trans (UndoTarget.expect_other number)⟩
  | commit =>
    have reply := (refines.commit revision).1
    simp only [Versioned.replay, ite_eq_right_iff, reduceCtorEq, imp_false] at stopped
    have number : (s.commit revision).1 ≠ revision := reply ▸ stopped
    by_cases fits : undoTarget.revision s - int64Max ≤ revision
    · exact ⟨_, (undoTarget.recoverLevel_commit fits).trans (UndoTarget.expect_other number)⟩
    · exact ⟨.fault, if_pos (Int.not_le.mp fits)⟩
  | undo =>
    obtain ⟨last, ran, agrees⟩ := refines.undo
    simp only [Versioned.replay, ite_eq_right_iff, reduceCtorEq, imp_false] at stopped
    exact ⟨_, by
      simp [UndoTarget.recoverLevel, undoTarget, ran, UndoTarget.defined, UndoTarget.expect, bind, Except.bind,
        agrees.revision, stopped]
      rfl⟩
  | undoAll =>
    obtain ⟨last, ran, agrees⟩ := refines.undoTimes _ rfl
    simp only [Versioned.replay, ite_eq_right_iff, reduceCtorEq, imp_false] at stopped
    exact ⟨_, by
      simp [UndoTarget.recoverLevel, undoTarget, undoAll, ran, UndoTarget.defined, UndoTarget.expect, bind, Except.bind,
        agrees.revision, stopped]
      rfl⟩
  | revision =>
    simp only [Versioned.replay, ite_eq_right_iff, reduceCtorEq, imp_false] at stopped
    exact setRevision_stopped refines (by omega) bounded fun set => stopped ⟨set.1, set.2.1, set.2.2, bounded⟩

/-- A modification that is not accepted does not return, with a backup or without. -/
theorem recoverModify_rejected (sound : s.Sound) {id : Nat} {a : Addr} {modifier : T → T × Bool}
    (found : s.find id = some a) (member : a ∈ s.byId) (rejects : ¬ s.Accepts a (modifier (s.value a)).1) :
    ∃ failure, target.recoverModify s id modifier = .error failure := by
  cases old : s.stale a with
  | false => exact ⟨_, by simp [Target.recoverModify, target, found, modify_erased sound member rejects old]; rfl⟩
  | true =>
    obtain reverted | ⟨fails, -⟩ := modify_reverted sound member rejects old
    · exact ⟨_, by simp [Target.recoverModify, target, found, reverted]; rfl⟩
    · exact ⟨_, by simp [Target.recoverModify, target, found, fails]; rfl⟩

theorem recover_applied (refines : s.Refines v) (grounded : v.Grounded) (entry : Entry T)
    (applied : entry.onVersioned v = some after) : ∃ last, entry.applyRecover target s = .ok last ∧ last.Refines after := by
  cases entry with
  | insert obj =>
    obtain ⟨t, inserted, rfl⟩ := Option.map_eq_some_iff.mp applied
    by_cases both : Object.Follows v.current.nextId obj ∧ v.current.Free (Object.id obj) obj
    · obtain ⟨follows, free⟩ := both
      have clear := (refines.current.clear_fresh follows.1).mpr free
      rw [Entry.onTable_insert follows free] at inserted
      cases inserted
      refine ⟨{ s with toMultiIndex := s.linkNew obj }.onCreate s.fresh, ?_, refines.emplaced follows free⟩
      simp [Entry.applyRecover, Target.recoverInsert, target,
        @emplace_accepted _ _ s obj refines.sound (fun _ => some obj) rfl clear]
    · cases (Entry.onTable_insert_bad both).symm.trans inserted
  | modify id obj =>
    obtain ⟨t, modified, rfl⟩ := Option.map_eq_some_iff.mp applied
    cases found : s.find id with
    | none => simp [(Entry.onTable_missing (refines.current.find_none found)).1] at modified
    | some a =>
      obtain ⟨member, rfl⟩ := refines.current.find_some found
      have object := refines.current.object member
      by_cases both : Object.id obj = s.id a ∧ v.current.Free (s.id a) obj
      · obtain ⟨keyed, free⟩ := both
        have accepts : s.Accepts a obj := ⟨keyed, (refines.current.clear_member member).mpr free⟩
        rw [Entry.onTable_modify object keyed free] at modified
        cases modified
        refine ⟨{ s.prepared a with toMultiIndex := (s.prepared a).settle a obj }, ?_, refines.modified member keyed free⟩
        simp [Entry.applyRecover, Target.recoverModify, target, found,
          @modify_kept _ _ s a (fun _ => (obj, false)) refines.sound member accepts, thrownBy]
      · simp [Entry.onTable_modify_bad object both] at modified
  | remove id =>
    obtain ⟨t, removed, rfl⟩ := Option.map_eq_some_iff.mp applied
    cases found : s.find id with
    | none => simp [(Entry.onTable_missing (refines.current.find_none found)).2] at removed
    | some a =>
      obtain ⟨member, rfl⟩ := refines.current.find_some found
      rw [Entry.onTable_remove (refines.current.object member)] at removed
      cases removed
      exact ⟨s.remove a, by simp [Entry.applyRecover, Target.recoverRemove, target, found], refines.removed member⟩
  | level op revision => exact recoverLevel_applied refines grounded applied

theorem recover_stopped (refines : s.Refines v) (entry : Entry T) (good : entry.Good v.current)
    (stopped : entry.onVersioned v = none) : ∃ failure, entry.applyRecover target s = .error failure := by
  cases entry with
  | insert obj =>
    have refused := Option.map_eq_none_iff.mp stopped
    by_cases free : v.current.Free (Object.id obj) obj
    · simp [Entry.onTable_insert good free] at refused
    · have taken := fun clear => free ((refines.current.clear_fresh good.1).mp clear)
      exact ⟨_, by
        simp [Entry.applyRecover, Target.recoverInsert, target,
          @emplace_refused _ _ s obj refines.sound (fun _ => some obj) rfl taken]
        rfl⟩
  | modify id obj =>
    have refused := Option.map_eq_none_iff.mp stopped
    cases found : s.find id with
    | none => exact ⟨_, by simp [Entry.applyRecover, Target.recoverModify, target, found]; rfl⟩
    | some a =>
      obtain ⟨member, rfl⟩ := refines.current.find_some found
      by_cases both : Object.id obj = s.id a ∧ v.current.Free (s.id a) obj
      · simp [Entry.onTable_modify (refines.current.object member) both.1 both.2] at refused
      · have rejects : ¬ s.Accepts a obj := fun accepts =>
          both ⟨accepts.1, (refines.current.clear_member member).mp accepts.2⟩
        exact @recoverModify_rejected _ _ s refines.sound _ a (fun _ => (obj, false)) found member rejects
  | remove id =>
    have refused := Option.map_eq_none_iff.mp stopped
    cases found : s.find id with
    | none => exact ⟨_, by simp [Entry.applyRecover, Target.recoverRemove, target, found]; rfl⟩
    | some a =>
      obtain ⟨member, rfl⟩ := refines.current.find_some found
      simp [Entry.onTable_remove (refines.current.object member)] at refused
  | level op revision => exact recoverLevel_stopped refines good.1 good.2 stopped

private theorem recover_agrees (s : UndoMultiIndex T) (v : Versioned (Table T keys)) (entry : Entry T)
    (after : Versioned (Table T keys)) (agrees : s.Refines v ∧ v.Grounded) (applied : entry.onVersioned v = some after) :
    ∃ last, entry.applyRecover target s = .ok last ∧ last.Refines after ∧ after.Grounded := by
  obtain ⟨last, ran, refines⟩ := recover_applied agrees.1 agrees.2 entry applied
  exact ⟨last, ran, refines, Entry.onVersioned_grounded agrees.2 applied⟩

theorem replay_applied (refines : s.Refines v) (grounded : v.Grounded) {entries : List (Entry T)}
    (applied : entries.foldlM Entry.onVersioned v = some after) :
    ∃ last, replay target s entries = .ok last ∧ last.Refines after := by
  obtain ⟨last, ran, refines, -⟩ := Recording.replay_applied _ recover_agrees ⟨refines, grounded⟩ applied
  exact ⟨last, ran, refines⟩

/-- A journal that is good as far as it goes fails where it cannot be applied. -/
theorem replay_stopped (refines : s.Refines v) (grounded : v.Grounded) {entries : List (Entry T)}
    (follows : Recording.Follows Entry.onVersioned (fun v entry => entry.Good v.current) v entries)
    (stops : entries.foldlM Entry.onVersioned v = none) : ∃ failure, replay target s entries = .error failure :=
  Recording.replay_stopped _ recover_agrees (fun _ _ entry agrees => recover_stopped agrees.1 entry) ⟨refines, grounded⟩
    follows stops

end UndoMultiIndex
end ChainBase
