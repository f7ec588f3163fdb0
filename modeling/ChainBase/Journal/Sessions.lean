import ChainBase.Journal.Journaled

/-! Session handles. `journaled` hands out handles of the container itself: the level
a handle starts is recorded, but the handle ends it behind the back of the journal. -/

namespace ChainBase
open OrderedSequence

/-- Calls of the container, and of the session handles it has given out. Handles are
numbered; one that is constructed from another is a new one. -/
inductive SessionOp (T : Type) where
  | emplace (constructor : Nat → Option T)
  | modify (id : Nat) (modifier : T → T × Bool)
  | remove (id : Nat)
  | startUndoSession
  | push (handle : Nat)
  | squash (handle : Nat)
  | undo (handle : Nat)
  | destroy (handle : Nat)
  | moveConstruct (handle : Nat)

/-- The container and `_apply` of every handle. -/
structure Sessions (T : Type) where
  container : UndoMultiIndex T
  applies : List Bool

namespace Sessions
variable {T : Type} [Object T]

def empty [Inhabited T] (keys : List (Comparator T)) : Sessions T := ⟨.empty keys, []⟩

def Owns (s : Sessions T) (handle : Nat) : Prop := s.applies[handle]? = some true

instance (s : Sessions T) (handle : Nat) : Decidable (s.Owns handle) :=
  inferInstanceAs (Decidable (s.applies[handle]? = some true))

def release (s : Sessions T) (handle : Nat) : Sessions T := { s with applies := s.applies.set handle false }

/-- What a handle that owns a level does to the container; then it owns none. -/
def finish (s : Sessions T) (handle : Nat) (ending : UndoMultiIndex T → Option (UndoMultiIndex T)) :
    Option ((Reply × List (Entry T)) × Sessions T) :=
  if s.Owns handle then
    (ending s.container).map fun after => ((.returned, []), { s with container := after }.release handle)
  else some ((.returned, []), s.release handle)

def onContainer (s : Sessions T) (op : JournaledOp T) : Option ((Reply × List (Entry T)) × Sessions T) :=
  (JournaledOp.step s.container op).map fun (output, after) => (output, { s with container := after })

def step (s : Sessions T) : SessionOp T → Option ((Reply × List (Entry T)) × Sessions T)
  | .emplace constructor => s.onContainer (.emplace constructor)
  | .modify id modifier => s.onContainer (.modify id modifier)
  | .remove id => s.onContainer (.remove id)
  | .startUndoSession =>
    let started := s.container.startUndo.2
    some ((.returned, [.level .startUndo started.revision]), ⟨started, s.applies ++ [true]⟩)
  | .push handle => some ((.returned, []), s.release handle)
  | .squash handle => s.finish handle UndoMultiIndex.squash
  | .undo handle => s.finish handle UndoMultiIndex.undo
  -- the destructor
  | .destroy handle => s.finish handle UndoMultiIndex.undo
  | .moveConstruct handle =>
    some ((.returned, []), { s.release handle with applies := (s.release handle).applies ++ [s.applies[handle]?.getD false] })

def Contract (s : Sessions T) : SessionOp T → Prop
  | .emplace constructor => ∀ v, constructor s.container.nextId = some v → Object.Follows s.container.nextId v
  | _ => True

/-- No handle ends a level that it owns, and a modification that does not return has
been reverted, or has thrown with the object as it was. -/
def Recorded (s : Sessions T) : SessionOp T → Prop
  | .modify id modifier => ∀ a, s.container.named id = some a →
      (s.container.Accepts a (modifier (s.container.value a)).1 ∧
        ((modifier (s.container.value a)).2 = true → (modifier (s.container.value a)).1 = s.container.value a)) ∨
      (¬ s.container.Accepts a (modifier (s.container.value a)).1 ∧ s.container.stale a = true)
  | .squash handle | .undo handle | .destroy handle => ¬ s.Owns handle
  | _ => True

instance (s : Sessions T) : ∀ op, Decidable (Contract s op)
  | .emplace constructor =>
    inferInstanceAs (Decidable (∀ v ∈ constructor s.container.nextId, Object.Follows s.container.nextId v))
  | .modify _ _ | .remove _ | .startUndoSession | .push _ | .squash _ | .undo _ | .destroy _ | .moveConstruct _ =>
    inferInstanceAs (Decidable True)

instance [DecidableEq T] (s : Sessions T) : ∀ op, Decidable (Recorded s op)
  | .modify id modifier => inferInstanceAs (Decidable (∀ a ∈ s.container.named id,
      (s.container.Accepts a (modifier (s.container.value a)).1 ∧
        ((modifier (s.container.value a)).2 = true → (modifier (s.container.value a)).1 = s.container.value a)) ∨
      (¬ s.container.Accepts a (modifier (s.container.value a)).1 ∧ s.container.stale a = true)))
  | .squash handle | .undo handle | .destroy handle => inferInstanceAs (Decidable (¬ s.Owns handle))
  | .emplace _ | .remove _ | .startUndoSession | .push _ | .moveConstruct _ => inferInstanceAs (Decidable True)

variable {keys : List (Comparator T)}

omit [Object T] in
private theorem finish_released {s : Sessions T} {handle : Nat} {ending : UndoMultiIndex T → Option (UndoMultiIndex T)}
    (spent : ¬ s.Owns handle) : s.finish handle ending = some ((.returned, []), s.release handle) := if_neg spent

private theorem modify_stepped {s : Sessions T} {v : Versioned (Table T keys)} (stands : s.container.Stands v) {id : Nat}
    {modifier : T → T × Bool} (recorded : Recorded s (.modify id modifier)) :
    ∃ reply entries after later, step s (.modify id modifier) = some ((reply, entries), after) ∧
      entries.foldlM Entry.onVersioned v = some later ∧ after.container.Stands later := by
  cases found : s.container.named id with
  | none =>
    exact ⟨.returned, [], s, v, by simp [step, onContainer, JournaledOp.step, found], rfl, stands⟩
  | some a =>
    obtain ⟨member, rfl⟩ := stands.current.named_some found
    have object := stands.current.object member
    rcases recorded a found with ⟨accepts, harmless⟩ | ⟨rejects, old⟩
    · have free := (stands.current.clear_member member).mp accepts.2
      have ran := stands.modify_recorded member accepts
      have settled := stands.modified member accepts.1 free
      cases threw : (modifier (s.container.value a)).2 with
      | false =>
        rw [threw] at ran
        refine ⟨_, _, _, _, by rw [step, onContainer, ran]; rfl, ?_, settled⟩
        simp [Entry.onVersioned, Entry.onTable_modify object accepts.1 free]
      | true =>
        rw [threw] at ran
        refine ⟨_, _, _, v, by rw [step, onContainer, ran]; rfl, rfl, ?_⟩
        have same := harmless threw
        have kept : v.current.replace (s.container.id a) (modifier (s.container.value a)).1 accepts.1
            (v.current.below _ _ object) free = v.current := Table.replace_same (object.trans (congrArg some same.symm)) _ _ _
        rwa [kept] at settled
    · obtain reverts | ⟨-, conflicts⟩ := UndoMultiIndex.modify_reverted stands.sound member rejects old
      · refine ⟨.threw, [], { s with container := s.container.reverted a }, v, ?_, rfl, stands.reverted a⟩
        simp [step, onContainer, JournaledOp.step, found, reverts]
      · exact absurd (stands.current.distinct a member) conflicts

theorem stepped (s : Sessions T) (v : Versioned (Table T keys)) (op : SessionOp T) (stands : s.container.Stands v)
    (permitted : Contract s op ∧ Recorded s op) : ∃ reply entries after later,
      step s op = some ((reply, entries), after) ∧ entries.foldlM Entry.onVersioned v = some later ∧ after.container.Stands later := by
  cases op with
  | emplace constructor =>
    obtain ⟨nodes, same, -, ran⟩ | ⟨item, follows, free, ran⟩ := stands.emplace_recorded permitted.1
    · exact ⟨_, _, _, v, by rw [step, onContainer, ran]; rfl, rfl, stands.wasteNode same⟩
    · refine ⟨_, _, _, _, by rw [step, onContainer, ran]; rfl, ?_, stands.emplaced follows free⟩
      simp [Entry.onVersioned, Entry.onTable_insert follows free]
  | modify id modifier => exact modify_stepped stands permitted.2
  | remove id =>
    cases found : s.container.named id with
    | none => exact ⟨.returned, [], s, v, by simp [step, onContainer, JournaledOp.step, found], rfl, stands⟩
    | some a =>
      obtain ⟨member, rfl⟩ := stands.current.named_some found
      refine ⟨.returned, [.remove (s.container.id a)], { s with container := s.container.remove a }, _, ?_, ?_,
        stands.removed member⟩
      · simp [step, onContainer, JournaledOp.step, found]
      · simp [Entry.onVersioned, Entry.onTable_remove (stands.current.object member)]
  | startUndoSession =>
    refine ⟨_, _, _, v.start, rfl, ?_, stands.startUndo⟩
    simp [Entry.onVersioned, Versioned.replay, UndoMultiIndex.startUndo, stands.revision]
  | push handle => exact ⟨_, _, _, v, rfl, rfl, stands⟩
  | moveConstruct handle => exact ⟨_, _, _, v, rfl, rfl, stands⟩
  | squash handle => exact ⟨_, _, _, v, finish_released permitted.2, rfl, stands⟩
  | undo handle => exact ⟨_, _, _, v, finish_released permitted.2, rfl, stands⟩
  | destroy handle => exact ⟨_, _, _, v, finish_released permitted.2, rfl, stands⟩

/-- The calls run, and the replay of their entries is seen to be the same as the live container. -/
def Reproduced [Inhabited T] (keys : List (Comparator T)) (ops : List (SessionOp T)) : Prop :=
  ∃ outputs live replayed, Run.run step (empty keys) ops = some (outputs, live) ∧
    replay UndoMultiIndex.target (UndoMultiIndex.empty keys) (Recording.recorded outputs) = .ok replayed ∧
    replayed.observe = live.container.observe

/-- The journal of every run in which handles only let go of their levels reproduces the container. -/
theorem released_sessions_reproduced [Inhabited T] (keys : List (Comparator T)) (ops : List (SessionOp T))
    (permitted : Run.Permitted step (fun s op => Contract s op ∧ Recorded s op) (empty keys) ops) : Reproduced keys ops := by
  have fresh := UndoMultiIndex.Refines.empty (T := T) keys
  obtain ⟨outputs, live, v, ran, applied, stands⟩ := Recording.run_replayed stepped fresh.stands permitted
  obtain ⟨last, replays, others⟩ := UndoMultiIndex.replay_applied fresh .fresh applied
  exact ⟨outputs, live, last, ran, replays, others.stands.shows.observe_eq stands.shows⟩

/-- Two nested sessions, both pushed, the inner one by a handle it was moved to; on
the way a modification is reverted, and one throws without a change. -/
theorem released_sessions_reproduced_books : Reproduced bookKeys
    [.emplace fun id => some ⟨id, 1, 1⟩, .emplace fun id => some ⟨id, 2, 2⟩, .startUndoSession,
      .modify 0 fun book => ({ book with a := 2 }, false), .startUndoSession, .moveConstruct 1, .destroy 1,
      .modify 1 fun book => (book, true), .remove 1, .push 2, .push 0] :=
  released_sessions_reproduced bookKeys _ (by decide)

/-- A session that is not pushed is undone by its handle, and stays open in the replay. -/
theorem destroyed_session_not_reproduced :
    let ops : List (SessionOp Book) := [.startUndoSession, .emplace fun id => some ⟨id, 1, 1⟩, .destroy 0]
    Run.Permitted step Contract (empty bookKeys) ops ∧ ¬ Reproduced bookKeys ops := by
  intro ops
  refine ⟨by decide, ?_⟩
  rintro ⟨outputs, live, replayed, ran, replays, same⟩
  have depths : (Run.run step (empty bookKeys) ops).map (fun (outputs, live) =>
      (live.container.observe.depth, (replay UndoMultiIndex.target (UndoMultiIndex.empty bookKeys)
        (Recording.recorded outputs)).toOption.map fun replayed => replayed.observe.depth)) = some (0, some 1) := by
    decide
  simp only [ran, Option.map_some, replays, Except.toOption, same, Option.some.injEq, Prod.mk.injEq] at depths
  omega

end Sessions
end ChainBase
