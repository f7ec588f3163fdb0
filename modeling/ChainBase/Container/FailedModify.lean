import ChainBase.Container.Observation

/-! What a modification of an undo container leaves behind when it ends in a
conflict. Without a backup the object is removed behind the back of the undo
log, so that the session cannot be undone any more; with a backup the object is
put back, but its stamp is not, so that its next change takes no backup. -/

namespace ChainBase
open OrderedSequence

namespace UndoOp
variable {T : Type} [Object T]

/-- All a run is asked for when calls may fail: that constructors keep or raise the id. -/
def Contract (s : UndoMultiIndex T) : UndoOp T → Prop
  | emplace constructor => ∀ v, constructor s.nextId = some v → Object.Follows s.nextId v
  | _ => True

instance (s : UndoMultiIndex T) : ∀ op, Decidable (Contract s op)
  | emplace constructor => inferInstanceAs (Decidable (∀ v ∈ constructor s.nextId, Object.Follows s.nextId v))
  | modify _ _ | remove _ | startUndo | undo | undoAll | squash | squashFast | compressLastUndoSession | lastUndoSession
  | commit _ | setRevision _ => inferInstanceAs (Decidable True)

/-- Reachable from an empty container by calls that may fail or throw. -/
def Reachable [Inhabited T] (keys : List (Comparator T)) (s : UndoMultiIndex T) : Prop :=
  Run.Reachable step Contract (UndoMultiIndex.empty keys) s

theorem sound_step (s : UndoMultiIndex T) (op : UndoOp T) (reply : Reply) (after : UndoMultiIndex T) (sound : s.Sound)
    (contract : Contract s op) (ran : step s op = some (reply, after)) : after.Sound := by
  cases performs ran with
  | emplace constructor => exact sound.emplace contract
  | modify found modified => exact sound.modify (MultiIndex.mem_of_named found).1 modified
  | remove found => exact sound.remove (MultiIndex.mem_of_named found).1
  | startUndo => exact sound.startUndo
  | undo undone => exact sound.undo undone
  | undoAll undone => exact sound.undoTimes undone
  | squash squashed => exact sound.squash squashed
  | squashFast => exact sound.squashFast
  | compress compressed | lastUndoSession compressed => exact sound.compressLastUndoSession compressed
  | commit revision => exact sound.commit revision
  | setRevision set => exact sound.setRevision set
  | modifyMissing | removeMissing | noSession | refused => exact sound

theorem Reachable.sound [Inhabited T] {keys : List (Comparator T)} {s : UndoMultiIndex T} (reachable : Reachable keys s) :
    s.Sound :=
  Run.Reachable.invariant reachable sound_step (UndoMultiIndex.sound_empty keys)

theorem stamped_step (s : UndoMultiIndex T) (op : UndoOp T) (reply : Reply) (after : UndoMultiIndex T) (sound : s.Sound)
    (stamped : s.Stamped) (ran : step s op = some (reply, after)) : after.Stamped := by
  cases performs ran with
  | emplace constructor => exact stamped.emplace sound constructor
  | modify found modified => exact stamped.modify sound (MultiIndex.mem_of_named found).1 modified
  | remove found => exact stamped.remove _
  | startUndo => exact stamped.startUndo
  | undo undone => exact stamped.undo sound undone
  | undoAll undone => exact stamped.undoTimes sound undone
  | squash squashed => exact stamped.squash sound squashed
  | squashFast => exact stamped.squashFast
  | compress compressed | lastUndoSession compressed => exact stamped.compressLastUndoSession sound compressed
  | commit revision => exact stamped.commit revision
  | setRevision set => exact stamped.setRevision set
  | modifyMissing | removeMissing | noSession | refused => exact stamped

theorem Reachable.stamped [Inhabited T] {keys : List (Comparator T)} {s : UndoMultiIndex T}
    (reachable : Reachable keys s) : s.Stamped := by
  have both : s.Sound ∧ s.Stamped := by
    apply Run.Reachable.invariant reachable
    · intro s op reply after ⟨sound, stamped⟩ contract ran
      exact ⟨sound_step s op reply after sound contract ran, stamped_step s op reply after sound stamped ran⟩
    · exact ⟨UndoMultiIndex.sound_empty keys, (UndoMultiIndex.Refines.empty keys).stamped⟩
  exact both.2

end UndoOp

namespace UndoMultiIndex
variable {T : Type} [Object T]

/-! ## Without a backup -/

def Gone (s : UndoMultiIndex T) (a : Addr) : Prop := ∀ tree ∈ s.byId :: s.indices.map SetIndex.tree, a ∉ tree

/-- The modification throws and removes its object; and whenever the session on top
of the stack is on top again after calls without a conflict, undoing it meets no
disposed node and brings the object back into every index, with the value it had
when the session was started. -/
def ErasureUndone (s : UndoMultiIndex T) (a : Addr) (modifier : T → T × Bool) (original : T) : Prop :=
  ∃ thrown after, s.modify a modifier = some (some thrown, after) ∧ after.Gone a ∧
    ∀ ops replies later, Run.Permitted UndoOp.step UndoOp.Legal after ops →
      Run.run UndoOp.step after ops = some (replies, later) → later.undoStack.head? = s.undoStack.head? →
        ∃ last b, later.undo = some last ∧ last.find (s.id a) = some b ∧ last.value b = original ∧
          ∀ tree ∈ last.byId :: last.indices.map SetIndex.tree, b ∈ tree

/-- An erased object is gone, from the indices and from the undo log. -/
theorem erased_gone {s : UndoMultiIndex T} (sound : s.Sound) {a : Addr} (member : a ∈ s.byId) (item : T) :
    ∀ b, ((s.setItem a item).remove a).Kept s.removedValues b → s.Kept s.removedValues b ∧ b ≠ a := by
  rintro b (linked | listed)
  · have inside := sound.housed.linked.nodup.mem_erase_iff.mp linked
    exact ⟨Or.inl inside.2, inside.1⟩
  · refine ⟨Or.inr listed, ?_⟩
    rintro rfl
    exact sound.housed.apart member listed

/-- An object that a conflicting modification erases is never brought back: in no
reachable state, for no object that needs no new backup, and for no conflict. -/
theorem erasure_never_undone [Inhabited T] (keys : List (Comparator T)) (s : UndoMultiIndex T)
    (reachable : UndoOp.Reachable keys s) (a : Addr) (member : a ∈ s.byId) (recent : s.stale a = false)
    (modifier : T → T × Bool) (conflict : ¬ s.Clear a (modifier (s.value a)).1) (original : T) :
    ¬ s.ErasureUndone a modifier original := by
  rintro ⟨thrown, after, modified, -, undoes⟩
  have sound := reachable.sound
  rw [modify_erased sound member (fun accepts => conflict accepts.2) recent] at modified
  cases modified
  obtain ⟨last, b, undone, again, -, -⟩ := undoes [] [] _ trivial rfl rfl
  obtain ⟨linked, sameId⟩ := MultiIndex.mem_of_find again
  obtain ⟨kept, kept_id⟩ := ((sound.destroy member (modifier (s.value a)).1).undo_kept undone).2 b (.inl linked)
  obtain ⟨inside, other⟩ := erased_gone sound member (modifier (s.value a)).1 b kept
  have unchanged : ((s.setItem a (modifier (s.value a)).1).remove a).id b = s.id b :=
    congrArg Object.id (MultiIndex.setItem_value_other s.toMultiIndex _ other)
  exact other (sound.housed.ids b a inside (Or.inl member) (unchanged.symm.trans (kept_id.symm.trans sameId)))

def afterCalls (ops : List (UndoOp Book)) : UndoMultiIndex Book :=
  ((Run.run UndoOp.step (empty bookKeys) ops).map Prod.snd).getD (empty bookKeys)

/-- The first book is modified once in the session and then in conflict with the second. -/
def modifiedOnce : List (UndoOp Book) :=
  [.emplace fun id => some ⟨id, 1, 1⟩, .emplace fun id => some ⟨id, 2, 2⟩, .startUndo,
    .modify 0 fun book => ({ book with a := 3 }, false)]

theorem modifiedOnce_reachable : UndoOp.Reachable bookKeys (afterCalls modifiedOnce) :=
  ⟨modifiedOnce, [.returned, .returned, .revision 1, .returned], by decide, rfl⟩

theorem erasure_never_undone_books :
    ¬ (afterCalls modifiedOnce).ErasureUndone 0 (fun book => ({ book with a := 2 }, false)) ⟨0, 1, 1⟩ :=
  erasure_never_undone bookKeys _ modifiedOnce_reachable 0 (by decide) (by decide) _ (by decide) _

/-- There the undo of the session comes across the disposed node. -/
theorem erased_book_not_undone :
    let s := afterCalls modifiedOnce
    UndoOp.Reachable bookKeys s ∧ s.Older 0 ∧ s.stale 0 = false ∧ ¬ s.Clear 0 ⟨0, 2, 1⟩ ∧
      ((s.modify 0 fun book => ({ book with a := 2 }, false)).bind fun result => result.2.undo).isNone = true ∧
      ¬ s.ErasureUndone 0 (fun book => ({ book with a := 2 }, false)) ⟨0, 1, 1⟩ := by
  intro s
  have faults : ((s.modify 0 fun book => ({ book with a := 2 }, false)).bind fun result => result.2.undo).isNone = true := by
    decide
  have stack : ((s.modify 0 fun book => ({ book with a := 2 }, false)).map fun result => result.2.undoStack.head?) =
      some s.undoStack.head? := rfl
  refine ⟨modifiedOnce_reachable, ⟨⟨none, none, 2, 1⟩, rfl, by decide⟩, by decide, by decide, faults, ?_⟩
  rintro ⟨thrown, after, modified, -, undoes⟩
  rw [modified] at faults stack
  obtain ⟨last, b, undone, -⟩ := undoes [] [] after trivial rfl (Option.some.inj stack)
  change after.undo.isNone = true at faults
  rw [undone] at faults
  cases faults

/-! ## With a backup -/

/-- The modification throws, nothing can be seen to have changed, and no run can
tell that the call was ever made. -/
def RevertedForGood (s : UndoMultiIndex T) (a : Addr) (modifier : T → T × Bool) : Prop :=
  ∃ thrown after, s.modify a modifier = some (some thrown, after) ∧ after.observe = s.observe ∧
    ∀ ops, after.observeRun ops = s.observeRun ops

omit [Object T] in
theorem stale_reverted {s : UndoMultiIndex T} {a : Addr} (bounded : ∀ u ∈ s.undoStack, u.ctime ≤ s.monotonicRevision) :
    (s.reverted a).stale a = false := by
  cases stack : s.undoStack with
  | nil => simp [stale, reverted, stack]
  | cons info rest =>
    have stamped := bounded info (by simp [stack])
    simpa [stale, reverted, stack] using stamped

theorem observeRun_single {s after : UndoMultiIndex T} {op : UndoOp T} {reply : Reply}
    (ran : UndoOp.step s op = some (reply, after)) : s.observeRun [op] = some ([reply], after.observe) := by
  simp [observeRun, Run.run, ran]

theorem modify_step {s after : UndoMultiIndex T} (linked : s.Linked) {a : Addr} (member : a ∈ s.byId)
    {modifier : T → T × Bool} {thrown : Option Thrown} (modified : s.modify a modifier = some (thrown, after)) :
    UndoOp.step s (.modify (s.id a) modifier) = some (.ofBool thrown.isNone, after) := by
  simp [UndoOp.step, linked.named_id member, modified]

/-- A reverted modification is always remembered: the same call made once more
would be reverted without the first one, but removes the object after it. -/
theorem revert_never_for_good [Inhabited T] (keys : List (Comparator T)) (s : UndoMultiIndex T)
    (reachable : UndoOp.Reachable keys s) (a : Addr) (member : a ∈ s.byId) (old : s.stale a = true)
    (modifier : T → T × Bool) (conflict : ¬ s.Clear a (modifier (s.value a)).1) :
    ¬ s.RevertedForGood a modifier := by
  rintro ⟨thrown, after, modified, -, forever⟩
  have sound := reachable.sound
  have rejects : ¬ s.Accepts a (modifier (s.value a)).1 := fun accepts => conflict accepts.2
  have afterSound := sound.modify member modified
  have first := observeRun_single (modify_step sound.housed.linked member modified)
  obtain reverted | ⟨fails, -⟩ := modify_reverted sound member rejects old
  · rw [reverted] at modified
    cases modified
    have recent := stale_reverted (a := a) fun u level => (sound.bounded u level).1
    have values : (s.reverted a).value = s.value := MultiIndex.setMtime_value s.toMultiIndex a _
    have sameId : (s.reverted a).id a = s.id a := congrFun (MultiIndex.setMtime_id s.toMultiIndex a _) a
    have conflictAgain : ¬ (s.reverted a).Accepts a (modifier ((s.reverted a).value a)).1 := by
      rintro ⟨-, clear⟩
      simp only [MultiIndex.Clear, values] at clear
      exact conflict clear
    have erases := modify_erased afterSound member conflictAgain recent
    have second := observeRun_single (modify_step afterSound.housed.linked member erases)
    rw [sameId] at second
    have equal := (forever [.modify (s.id a) modifier]).symm
    rw [first, second, Option.some.injEq, Prod.mk.injEq] at equal
    have contents := congrArg (fun seen => (seen.contents.map List.length).head?) equal.2
    have shorter : (s.byId.erase a).length = s.byId.length := by
      simp only [observe, MultiIndex.contents, List.map_cons, List.length_map, List.head?_cons, Option.some.injEq] at contents
      exact contents.symm
    rw [List.length_erase_of_mem member] at shorter
    have some := List.length_pos_of_mem member
    omega
  · rw [fails] at modified
    cases modified

/-- Two books, and the state in which a session has just been started. -/
def justStarted : List (UndoOp Book) :=
  [.emplace fun id => some ⟨id, 1, 1⟩, .emplace fun id => some ⟨id, 2, 2⟩, .startUndo]

theorem justStarted_reachable : UndoOp.Reachable bookKeys (afterCalls justStarted) :=
  ⟨justStarted, [.returned, .returned, .revision 1], by decide, rfl⟩

theorem revert_never_for_good_books :
    ¬ (afterCalls justStarted).RevertedForGood 0 (fun book => ({ book with a := 2 }, false)) :=
  revert_never_for_good bookKeys _ justStarted_reachable 0 (by decide) (by decide) _ (by decide)

/-- There a later modification that stays is not rolled back by the undo. -/
theorem reverted_book_not_rolled_back :
    let s := afterCalls justStarted
    UndoOp.Reachable bookKeys s ∧ s.stale 0 = true ∧ ¬ s.Clear 0 ⟨0, 2, 1⟩ ∧
      ((s.modify 0 fun book => ({ book with a := 2 }, false)).bind fun result =>
        result.2.observeRun [.modify 0 fun book => ({ book with a := 3 }, false), .undo]) =
          some ([.returned, .returned], ⟨[[⟨0, 3, 1⟩, ⟨1, 2, 2⟩], [⟨1, 2, 2⟩, ⟨0, 3, 1⟩], [⟨0, 3, 1⟩, ⟨1, 2, 2⟩]], 2, 0, 0⟩) ∧
      ¬ s.RevertedForGood 0 (fun book => ({ book with a := 2 }, false)) := by
  intro s
  have kept : ((s.modify 0 fun book => ({ book with a := 2 }, false)).bind fun result =>
      result.2.observeRun [.modify 0 fun book => ({ book with a := 3 }, false), .undo]) =
        some ([.returned, .returned], ⟨[[⟨0, 3, 1⟩, ⟨1, 2, 2⟩], [⟨1, 2, 2⟩, ⟨0, 3, 1⟩], [⟨0, 3, 1⟩, ⟨1, 2, 2⟩]], 2, 0, 0⟩) := by
    decide
  refine ⟨justStarted_reachable, by decide, by decide, kept, ?_⟩
  rintro ⟨thrown, after, modified, -, forever⟩
  rw [modified] at kept
  have equal := (forever [.modify 0 fun book => ({ book with a := 3 }, false), .undo]).symm.trans kept
  revert equal
  decide

end UndoMultiIndex
end ChainBase
