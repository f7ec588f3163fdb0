import ChainBase.Container.FailedModify
import ChainBase.Container.PlainRefinement
import ChainBase.Library.Transaction

/-! Programs that use sessions: an object of class `session` for each block, calls that
fail by an exception, and handlers. -/

namespace ChainBase
open OrderedSequence Transaction

namespace PlainOp
variable {T : Type}

def onUndo : PlainOp T → UndoOp T
  | emplace constructor => .emplace constructor
  | modify id modifier => .modify id modifier
  | remove id => .remove id

end PlainOp

namespace UndoMultiIndex
variable {T : Type} [Object T] {keys : List (Comparator T)}

/-- `session`: what is left of it besides the reference to the container is `_apply`. -/
def session : Machine (UndoMultiIndex T) Bool (PlainOp T) where
  call s op := (UndoOp.step s op.onUndo).map fun (reply, after) => (reply ≠ .threw, after)
  start s := (true, s.startUndo.2)
  tell
    | .push, _, s => some (false, s)
    | .squash, apply, s => (if apply then s.squash else some s).map fun ended => (false, ended)
    | .undo, apply, s => (if apply then s.undo else some s).map fun ended => (false, ended)
    | .scope, apply, s => some (apply, s)
  destroy apply s := if apply then s.undo else some s

def CallLegal (s : UndoMultiIndex T) (op : PlainOp T) : Prop := UndoOp.Legal s op.onUndo

instance (s : UndoMultiIndex T) (op : PlainOp T) : Decidable (s.CallLegal op) :=
  inferInstanceAs (Decidable (UndoOp.Legal s op.onUndo))

private theorem called (s : UndoMultiIndex T) (v : Versioned (Table T keys)) (op : PlainOp T) (refines : s.Refines v)
    (legal : s.CallLegal op) : ∃ after, session.call s op = some ((op.spec v.current).1, after) ∧
      after.Refines { v with current := (op.spec v.current).2 } := by
  obtain ⟨after, ran, agree⟩ := UndoOp.simulated s v op.onUndo refines legal
  refine ⟨after, ?_, ?_⟩
  · simp only [session, ran, Option.map_some]
    cases op with
    | emplace constructor =>
      cases returned : (v.current.emplace constructor).1 <;> simp [PlainOp.onUndo, PlainOp.spec, UndoOp.spec, Reply.ofBool, returned]
    | modify id modifier =>
      cases returned : (v.current.modify id modifier).1 <;> simp [PlainOp.onUndo, PlainOp.spec, UndoOp.spec, Reply.ofBool, returned]
    | remove id => simp [PlainOp.onUndo, PlainOp.spec, UndoOp.spec]
  · cases op <;> exact agree

theorem session_simulated : Simulated (@PlainOp.spec T _ keys) session CallLegal Refines where
  called := called
  started s v refines := refines.startUndo
  ended s t v ending refines := by
    cases ending with
    | push => exact ⟨false, t, t, rfl, rfl, refines⟩
    | scope =>
      obtain ⟨last, undone, agree⟩ := refines.undo
      exact ⟨true, t, last, rfl, undone, agree⟩
    | undo =>
      obtain ⟨last, undone, agree⟩ := refines.undo
      exact ⟨false, last, last, by simp [session, undone], rfl, agree⟩
    | squash =>
      obtain ⟨last, squashed, agree⟩ := refines.squash
      exact ⟨false, last, last, by simp [session, squashed], rfl, agree⟩
  unwound s t v refines := refines.undo

/-- A program does on a container what it does on the table alone, with whatever exceptions,
handlers and nested sessions, and what it leaves open is on top of the levels there were. -/
theorem programs_with_sessions [Inhabited T] (keys : List (Comparator T)) (ops : List (UndoOp T))
    (legal : Run.Permitted UndoOp.step UndoOp.Legal (UndoMultiIndex.empty keys) ops) {replies : List Reply}
    {s : UndoMultiIndex T} (ran : Run.run UndoOp.step (UndoMultiIndex.empty keys) ops = some (replies, s))
    (p : Program (PlainOp T)) (permitted : session.Permitted CallLegal p s) :
    let v := (Run.follow UndoOp.spec ⟨Table.empty keys, [], 0⟩ ops).2
    let (returned, w) := outcome PlainOp.spec p v.current
    ∃ after, session.run p s = some (returned, after) ∧ after.GoesOn (w.atop v) := by
  have refines := UndoOp.reached legal ran
  obtain ⟨after, ended, agree⟩ := session_simulated.run _ refines permitted
  exact ⟨after, ended, agree.goesOn⟩

/-- A session is pushed inside another one that is not: what is undone is the inner level. -/
theorem programs_with_sessions_books :
    let ops : List (UndoOp Book) := [.emplace fun id => some ⟨id, 1, 1⟩, .startUndo]
    let p : Program (PlainOp Book) :=
      .session (.andThen (.call (.emplace fun id => some ⟨id, 2, 2⟩))
        (.session (.call (.modify 1 fun book => ({ book with b := 5 }, false))) .push)) .scope
    let v := (Run.follow UndoOp.spec ⟨Table.empty bookKeys, [], 0⟩ ops).2
    let (returned, w) := outcome PlainOp.spec p v.current
    ∃ after, session.run p (afterCalls ops) = some (returned, after) ∧ after.GoesOn (w.atop v) := by
  intro ops p
  apply programs_with_sessions bookKeys ops (by decide) _ p (by decide)
  · exact [.returned, .revision 1]
  · rfl

/-- If sessions are pushed only where none is around them, every session makes all of its
changes or none, and those that are pushed can be undone one by one. -/
theorem sessions_all_or_nothing [Inhabited T] (keys : List (Comparator T)) (ops : List (UndoOp T))
    (legal : Run.Permitted UndoOp.step UndoOp.Legal (UndoMultiIndex.empty keys) ops) {replies : List Reply}
    {s : UndoMultiIndex T} (ran : Run.run UndoOp.step (UndoMultiIndex.empty keys) ops = some (replies, s))
    (p : Program (PlainOp T)) (outermost : p.Outermost) (permitted : session.Permitted CallLegal p s) :
    let v := (Run.follow UndoOp.spec ⟨Table.empty keys, [], 0⟩ ops).2
    let (returned, t) := meaning PlainOp.spec p v.current
    let opened := pushed PlainOp.spec p v.current
    ∃ after, session.run p s = some (returned, after) ∧
      after.GoesOn ⟨t, opened ++ v.saved, v.revision + opened.length⟩ := by
  have refines := UndoOp.reached legal ran
  obtain ⟨after, ended, agree⟩ := session_simulated.run _ refines permitted
  rw [outcome_outermost _ outermost] at ended agree
  exact ⟨after, ended, agree.goesOn⟩

theorem sessions_all_or_nothing_books :
    let ops : List (UndoOp Book) := [.emplace fun id => some ⟨id, 1, 1⟩, .startUndo]
    let renamed : Program (PlainOp Book) := .call (.modify 0 fun book => ({ book with b := 5 }, false))
    let p : Program (PlainOp Book) :=
      .andThen
        (.session (.andThen (.session renamed .squash)
          (.attempt (.session (.andThen (.call (.remove 0)) (.call (.emplace fun _ => none))) .squash) .skip)) .push)
        (.session (.andThen (.call (.emplace fun id => some ⟨id, 2, 2⟩)) .throw) .push)
    let v := (Run.follow UndoOp.spec ⟨Table.empty bookKeys, [], 0⟩ ops).2
    let (returned, t) := meaning PlainOp.spec p v.current
    let opened := pushed PlainOp.spec p v.current
    ∃ after, session.run p (afterCalls ops) = some (returned, after) ∧
      after.GoesOn ⟨t, opened ++ v.saved, v.revision + opened.length⟩ := by
  intro ops renamed p
  apply sessions_all_or_nothing bookKeys ops (by decide) _ p (by decide) (by decide)
  · exact [.returned, .revision 1]
  · rfl

end UndoMultiIndex
end ChainBase
