import ChainBase.Journal.Journaled

/-! Which entries leave no trace in a container: every insertion and removal can be
seen, and of the others all that change something. -/

namespace Versioned
open ChainBase

/-- An operation on levels shows in their number or in the revision. -/
theorem replay_unseen {σ : Type} {v w : Versioned σ} {op : LevelOp} {revision : Int}
    (applied : v.replay revision op = some w) (depth : w.saved.length = v.saved.length) (number : w.revision = v.revision) :
    op ≠ .startUndo ∧ v.saved = [] ∧ revision = v.revision := by
  cases op with
  | startUndo =>
    obtain ⟨-, rfl⟩ := replay_startUndo.mp applied
    simp at depth
  | commit =>
    obtain ⟨same, rfl⟩ := replay_commit.mp applied
    exact ⟨by simp, List.length_eq_zero_iff.mp depth.symm, same.symm⟩
  | undo =>
    obtain ⟨same, rfl⟩ := replay_undo.mp applied
    refine ⟨by simp, ?_, same.symm.trans number⟩
    cases stack : v.saved with
    | nil => rfl
    | cons t rest => simp [stack, undo] at depth
  | undoAll =>
    obtain ⟨same, rfl⟩ := replay_undoAll.mp applied
    exact ⟨by simp, List.length_eq_zero_iff.mp depth.symm, same.symm.trans number⟩
  | revision =>
    obtain ⟨-, rfl⟩ := replay_revision.mp applied
    exact ⟨by simp, List.length_eq_zero_iff.mp depth.symm, number⟩

theorem replay_idle {σ : Type} {v : Versioned σ} {op : LevelOp} (other : op ≠ .startUndo) (closed : v.saved = [])
    (grounded : v.Grounded) (bounded : v.revision ≤ UndoMultiIndex.int64Max) : v.replay v.revision op = some v := by
  have nonneg := grounded.nonneg
  have same : v = ⟨v.current, [], v.revision⟩ := by rw [← closed]
  cases op with
  | startUndo => exact absurd rfl other
  | commit => exact replay_commit.mpr ⟨rfl, same⟩
  | undo =>
    have undone : v.undo = v := by simp [undo, closed]
    exact replay_undo.mpr ⟨congrArg Versioned.revision undone, undone.symm⟩
  | undoAll =>
    have undone : v.undoAll = v := by rw [same]; simp [undoAll]
    exact replay_undoAll.mpr ⟨congrArg Versioned.revision undone, undone.symm⟩
  | revision => exact replay_revision.mpr ⟨⟨closed, Int.le_refl _, nonneg, bounded⟩, same⟩

end Versioned

namespace ChainBase
open OrderedSequence

/-- What recovery does to a container in one state can be seen, but for modifications
that change nothing and operations on levels that are idle there. -/
structure Target.Visible {σ T : Type} {ω : Type} (c : Target σ T) (view : σ → ω) (idle : LevelOp → Int → Prop) (s : σ) : Prop where
  insert {constructor : Nat → Option T} {after : σ} : c.recoverInsert s constructor = .ok after → view after ≠ view s
  remove {id : Nat} {after : σ} : c.recoverRemove s id = .ok after → view after ≠ view s
  modify {id : Nat} {modifier : T → T × Bool} : (∀ old, (modifier old).2 = false) →
    ((∃ after, c.recoverModify s id modifier = .ok after ∧ view after = view s) ↔
      ∃ a, c.find s id = some a ∧ (modifier (c.value s a)).1 = c.value s a)
  level {undo : UndoTarget σ} {op : LevelOp} {revision : Int} : c.undo = some undo →
    -2 ^ 63 ≤ revision → revision ≤ UndoMultiIndex.int64Max →
    ((∃ after, undo.recoverLevel s op revision = .ok after ∧ view after = view s) ↔ idle op revision)

namespace MultiIndex
variable {T E : Type} [Object T] {keys : List (Comparator T)}

omit [Object T] in
theorem contents_length {s after : MultiIndex T E} (same : after.contents = s.contents) :
    after.byId.length = s.byId.length := by
  have first := (List.cons.inj same).1
  simpa using congrArg List.length first

omit [Object T] in
theorem contents_value {s after : MultiIndex T E} (same : after.contents = s.contents) (byId : after.byId = s.byId)
    {a : Addr} (member : a ∈ s.byId) : after.value a = s.value a := by
  have first := (List.cons.inj same).1
  rw [byId] at first
  exact List.map_inj_left.mp first a member

theorem emplace_length [Inhabited E] {s after : MultiIndex T E} {constructor : Nat → Option T} {a : Addr}
    (emplaced : s.emplace constructor = (.ok a, after)) : after.byId.length = s.byId.length + 1 := by
  simp only [emplace] at emplaced
  split at emplaced
  · cases emplaced
  · split at emplaced
    · cases emplaced
    · cases emplaced
      simp

omit [Object T] in
theorem remove_length {s : MultiIndex T E} {a : Addr} (member : a ∈ s.byId) :
    (s.remove a).byId.length + 1 = s.byId.length := by
  have positive := List.length_pos_of_mem member
  simp only [remove, disposeNode, eraseImpl, List.length_erase_of_mem member]
  omega

/-- The contents and the next id. -/
def observe (s : MultiIndex T E) : List (List T) × Nat := (s.contents, s.nextId)

omit [Object T] in
private theorem observe_length {s after : MultiIndex T E} (same : after.observe = s.observe) :
    after.byId.length = s.byId.length := contents_length (congrArg Prod.fst same)

private theorem Represents.settled {s : MultiIndex T E} {t : Table T keys} (represents : s.Represents t) {a : Addr}
    (member : a ∈ s.byId) {item : T} (same : item = s.value a) : (s.settle a item).Represents t := by
  subst same
  have object := represents.object member
  have free := (represents.clear_member member).mp (represents.distinct a member)
  have settled := represents.settle member rfl free
  rwa [Table.replace_same object rfl _ free] at settled

private theorem Represents.modify_seen {s : MultiIndex T Unit} {t : Table T keys} (represents : s.Represents t) {id : Nat}
    {modifier : T → T × Bool} (returns : ∀ old, (modifier old).2 = false) :
    (∃ after, target.recoverModify s id modifier = .ok after ∧ after.observe = s.observe) ↔
      ∃ a, s.find id = some a ∧ (modifier (s.value a)).1 = s.value a := by
  cases found : s.find id with
  | none => simp [Target.recoverModify, target, found]
  | some a =>
    obtain ⟨member, -⟩ := represents.find_some found
    by_cases accepts : Object.id (modifier (s.value a)).1 = s.id a ∧ s.Clear a (modifier (s.value a)).1
    · have ran : target.recoverModify s id modifier = .ok (s.settle a (modifier (s.value a)).1) := by
        simp [Target.recoverModify, target, found, MultiIndex.modify, returns,
          modifyWithRevert_kept represents.linked accepts.1 accepts.2, modifyThrows]
      simp only [ran, Except.ok.injEq, exists_eq_left', Option.some.injEq]
      constructor
      · intro same
        have value := contents_value (congrArg Prod.fst same) rfl member
        rwa [settle_value_self] at value
      · intro same
        have settled := represents.settled member same
        exact Prod.ext (settled.agrees.contents_eq represents.agrees) rfl
    · have other : (modifier (s.value a)).1 ≠ s.value a := fun same =>
        accepts (by rw [same]; exact ⟨rfl, represents.distinct a member⟩)
      simp [Target.recoverModify, target, found, MultiIndex.modify, returns, other,
        modifyWithRevert_erased represents.linked member accepts, modifyThrows]

theorem Represents.visible {s : MultiIndex T Unit} {t : Table T keys} (represents : s.Represents t) :
    target.Visible observe (fun _ _ => True) s where
  insert inserted same := by
    simp only [Target.recoverInsert, target] at inserted
    split at inserted
    next a after emplaced =>
      cases inserted
      have equal := observe_length same
      have more := emplace_length emplaced
      omega
    · cases inserted
  remove removed same := by
    simp only [Target.recoverRemove, target] at removed
    split at removed
    next a found =>
      cases removed
      have equal := observe_length same
      have less := remove_length (represents.find_some found).1
      omega
    · cases removed
  modify returns := represents.modify_seen returns
  level none := nomatch none

theorem Represents.replayed {s last : MultiIndex T Unit} {t : Table T keys} (represents : s.Represents t) {entries : List (Entry T)}
    (ascending : Entry.Ascending target s entries)
    (ran : replay target s entries = .ok last) : ∃ t : Table T keys, last.Represents t := by
  refine Recording.replay_invariant (fun s => ∃ t : Table T keys, s.Represents t) ?_ ⟨t, represents⟩ ascending ran
  rintro s entry after - ⟨t, represents⟩ asserts ran
  cases applied : entry.onTable t with
  | some later =>
    obtain ⟨last, again, represents⟩ := recover_applied represents entry applied
    exact ⟨later, Except.ok.inj (again.symm.trans ran) ▸ represents⟩
  | none =>
    have good : entry.Good t := by
      cases entry with
      | insert obj =>
        have follows : Object.Follows s.nextId obj := asserts
        rwa [represents.nextId] at follows
      | level op revision => cases applied
      | _ => trivial
    obtain ⟨failure, fails⟩ := recover_stopped represents entry good applied
    rw [fails] at ran
    cases ran

end MultiIndex

namespace UndoMultiIndex
variable {T : Type} [Object T] {keys : List (Comparator T)} {s : UndoMultiIndex T} {v : Versioned (Table T keys)}

omit [Object T] in
private theorem observe_length {after : UndoMultiIndex T} (same : after.observe = s.observe) :
    after.byId.length = s.byId.length := MultiIndex.contents_length (congrArg Observation.contents same)

omit [Object T] in
private theorem onCreate_byId (s : UndoMultiIndex T) (a : Addr) : (s.onCreate a).byId = s.byId := by
  unfold onCreate
  split <;> rfl

private theorem remove_length {a : Addr} (member : a ∈ s.byId) : (s.remove a).byId.length + 1 = s.byId.length := by
  by_cases older : s.Older a
  · rw [remove_older older]
    exact MultiIndex.remove_length member
  · rw [remove_newer older, MultiIndex.setItem_value]
    exact MultiIndex.remove_length member

private theorem Refines.modify_seen (refines : s.Refines v) {id : Nat} {modifier : T → T × Bool}
    (returns : ∀ old, (modifier old).2 = false) :
    (∃ after, target.recoverModify s id modifier = .ok after ∧ after.observe = s.observe) ↔
      ∃ a, s.find id = some a ∧ (modifier (s.value a)).1 = s.value a := by
  cases found : s.find id with
  | none => simp [Target.recoverModify, target, found]
  | some a =>
    obtain ⟨member, -⟩ := refines.current.find_some found
    by_cases accepts : s.Accepts a (modifier (s.value a)).1
    · have free := (refines.current.clear_member member).mp accepts.2
      have modified := refines.modified member accepts.1 free
      have ran : target.recoverModify s id modifier =
          .ok { s.prepared a with toMultiIndex := (s.prepared a).settle a (modifier (s.value a)).1 } := by
        simp [Target.recoverModify, target, found, modify_kept refines.sound member accepts, returns, thrownBy]
      simp only [ran, Except.ok.injEq, exists_eq_left', Option.some.injEq]
      constructor
      · intro same
        have value := MultiIndex.contents_value (congrArg Observation.contents same) prepared_byId member
        rwa [MultiIndex.settle_value_self] at value
      · intro same
        have object := refines.current.object member
        rw [← same] at object
        rw [Table.replace_same object accepts.1 _ free] at modified
        exact modified.stands.shows.observe_eq refines.stands.shows
    · have other : (modifier (s.value a)).1 ≠ s.value a := fun same =>
        accepts (by rw [same]; exact ⟨rfl, refines.current.distinct a member⟩)
      have rejected := recoverModify_rejected refines.sound found member accepts
      obtain ⟨failure, fails⟩ := rejected
      simp [fails, other]

/-- Levels of which an operation leaves nothing to be seen. -/
def Idle (s : UndoMultiIndex T) (op : LevelOp) (revision : Int) : Prop :=
  op ≠ .startUndo ∧ s.undoStack = [] ∧ revision = s.revision

omit [Object T] in
private theorem expect_ok {after last : UndoMultiIndex T} {revision expected : Int}
    (ran : UndoTarget.expect after revision expected = .ok last) : revision = expected := by
  by_contra other
  rw [UndoTarget.expect_other other] at ran
  cases ran

/-- Recovery ends with no entry of a negative revision. -/
theorem Refines.recoverLevel_nonneg (refines : s.Refines v) (grounded : v.Grounded) {op : LevelOp} {revision : Int}
    {after : UndoMultiIndex T} (least : -2 ^ 63 ≤ revision) (ran : undoTarget.recoverLevel s op revision = .ok after) :
    0 ≤ revision := by
  have current : 0 ≤ s.revision := refines.revision ▸ grounded.nonneg
  cases op with
  | startUndo =>
    simp only [UndoTarget.recoverLevel] at ran
    split at ran
    · cases ran
    · by_cases lower : undoTarget.revision s < revision - 1
      · change s.revision < revision - 1 at lower
        omega
      · rw [if_neg lower] at ran
        have number : s.revision + 1 = revision := expect_ok ran
        omega
  | commit =>
    simp only [UndoTarget.recoverLevel] at ran
    split at ran
    · cases ran
    · have number : (s.commit revision).1 = revision := expect_ok ran
      rw [(refines.commit revision).1, ← refines.revision] at number
      omega
  | undo =>
    obtain ⟨last, undone, agrees⟩ := refines.undo
    have least := grounded.undo.nonneg
    simp only [UndoTarget.recoverLevel, undoTarget, undone, UndoTarget.defined, bind, Except.bind] at ran
    have number : last.revision = revision := expect_ok ran
    rw [agrees.revision] at number
    omega
  | undoAll =>
    obtain ⟨last, undone, agrees⟩ := refines.undoTimes _ rfl
    have least := grounded.undoAll.nonneg
    simp only [UndoTarget.recoverLevel, undoTarget, undoAll, undone, UndoTarget.defined, bind, Except.bind] at ran
    have number : last.revision = revision := expect_ok ran
    rw [agrees.revision] at number
    omega
  | revision =>
    by_contra negative
    have high : int64Max < (toUnsigned revision : Int) := by
      simp only [toUnsigned, int64Max]
      omega
    have result := refines.setRevision (toUnsigned revision)
    rw [if_pos (Or.inr (Or.inl high))] at result
    obtain ⟨thrown, throws⟩ := result
    simp [UndoTarget.recoverLevel, UndoTarget.setRevisionOrThrow, undoTarget, throws] at ran

private theorem Refines.level_seen (refines : s.Refines v) (grounded : v.Grounded) {op : LevelOp} {revision : Int}
    (least : -2 ^ 63 ≤ revision) (bounded : revision ≤ int64Max) :
    (∃ after, undoTarget.recoverLevel s op revision = .ok after ∧ after.observe = s.observe) ↔ s.Idle op revision := by
  constructor
  · rintro ⟨after, ran, same⟩
    have nonneg := refines.recoverLevel_nonneg grounded least ran
    cases applied : v.replay revision op with
    | none =>
      obtain ⟨failure, fails⟩ := recoverLevel_stopped refines nonneg bounded applied
      rw [fails] at ran
      cases ran
    | some w =>
      obtain ⟨last, again, agrees⟩ := recoverLevel_applied refines grounded applied
      obtain rfl := Except.ok.inj (again.symm.trans ran)
      have number : w.revision = v.revision := by
        rw [← agrees.revision, ← refines.revision]
        exact congrArg Observation.revision same
      have depth : w.saved.length = v.saved.length := by
        rw [← agrees.stands.depth, ← refines.stands.depth]
        exact congrArg Observation.depth same
      have idle := Versioned.replay_unseen applied depth number
      exact ⟨idle.1, refines.saved_nil.mpr idle.2.1, idle.2.2.trans refines.revision.symm⟩
  · rintro ⟨other, closed, rfl⟩
    have applied := Versioned.replay_idle other (refines.saved_nil.mp closed) grounded (refines.revision ▸ bounded)
    rw [← refines.revision] at applied
    obtain ⟨last, ran, agrees⟩ := recoverLevel_applied refines grounded applied
    exact ⟨last, ran, agrees.stands.shows.observe_eq refines.stands.shows⟩

theorem Refines.visible (refines : s.Refines v) (grounded : v.Grounded) : target.Visible observe s.Idle s where
  insert inserted same := by
    simp only [Target.recoverInsert, target, emplace] at inserted
    split at inserted
    next a after emplaced =>
      cases inserted
      have equal := observe_length same
      split at emplaced
      next a base linked =>
        cases emplaced
        have more : base.byId.length = s.byId.length + 1 := MultiIndex.emplace_length linked
        rw [onCreate_byId] at equal
        exact absurd (equal.symm.trans more) (Nat.succ_ne_self _).symm
      · cases emplaced
    · cases inserted
  remove removed same := by
    simp only [Target.recoverRemove, target] at removed
    split at removed
    next a found =>
      cases removed
      have equal := observe_length same
      have less := remove_length (refines.current.find_some found).1
      omega
    · cases removed
  modify returns := refines.modify_seen returns
  level undo least bounded := by
    cases undo
    exact refines.level_seen grounded least bounded

theorem Refines.replayed {last : UndoMultiIndex T} (refines : s.Refines v) (grounded : v.Grounded) {entries : List (Entry T)}
    (range : ∀ op revision, .level op revision ∈ entries → -2 ^ 63 ≤ revision ∧ revision ≤ int64Max)
    (ascending : Entry.Ascending target s entries)
    (ran : replay target s entries = .ok last) : ∃ v : Versioned (Table T keys), last.Refines v ∧ v.Grounded := by
  refine Recording.replay_invariant (fun s => ∃ v : Versioned (Table T keys), s.Refines v ∧ v.Grounded) ?_
    ⟨v, refines, grounded⟩ ascending ran
  rintro s entry after member ⟨v, refines, grounded⟩ asserts ran
  cases applied : entry.onVersioned v with
  | some later =>
    obtain ⟨last, again, refines⟩ := recover_applied refines grounded entry applied
    exact ⟨later, Except.ok.inj (again.symm.trans ran) ▸ refines, Entry.onVersioned_grounded grounded applied⟩
  | none =>
    have good : entry.Good v.current := by
      cases entry with
      | insert obj =>
        have follows : Object.Follows s.nextId obj := asserts
        rwa [refines.current.nextId] at follows
      | level op revision =>
        obtain ⟨least, bounded⟩ := range op revision member
        exact ⟨refines.recoverLevel_nonneg grounded least ran, bounded⟩
      | _ => trivial
    obtain ⟨failure, fails⟩ := recover_stopped refines entry good applied
    rw [fails] at ran
    cases ran

/-- Entries that are good for a versioned table break no assertion. -/
theorem Refines.ascending (refines : s.Refines v) (grounded : v.Grounded) {entries : List (Entry T)}
    (good : Recording.Follows Entry.onVersioned (fun v entry => Entry.Good v.current entry) v entries) :
    Entry.Ascending target s entries := by
  induction entries generalizing s v with
  | nil => trivial
  | cons entry entries ih =>
    refine ⟨?_, fun after (ran : (entry.applyRecover target s).toOption = some after) => ?_⟩
    · cases entry with
      | insert obj =>
        have follows : Object.Follows v.current.nextId obj := good.1
        rwa [← refines.current.nextId] at follows
      | _ => trivial
    · cases applied : entry.onVersioned v with
      | none =>
        obtain ⟨failure, fails⟩ := recover_stopped refines entry good.1 applied
        rw [fails] at ran
        cases ran
      | some w =>
        obtain ⟨last, again, agrees⟩ := recover_applied refines grounded entry applied
        rw [again] at ran
        cases ran
        exact ih agrees (Entry.onVersioned_grounded grounded applied) (good.2 w applied)

end UndoMultiIndex
end ChainBase
