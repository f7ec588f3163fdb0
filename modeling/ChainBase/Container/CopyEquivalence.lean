import ChainBase.Container.Copy
import ChainBase.Container.FailedModify
import ChainBase.Container.RevisionRange
import Mathlib.Data.List.Pairwise

/-! A copy against the container it was made of, once that has committed everything.
They stand for the same table and keep the same log, with all stamps rounded up to the
present one; and no call tells two such containers apart. -/

namespace ChainBase
open OrderedSequence

/-- What a caller gets from a call: the new object, the exception, the objects of the
three ranges of `last_undo_session`, or what all other calls return. -/
inductive Answer (T : Type) where
  | replied (reply : Reply)
  | created (item : T)
  | threw (thrown : Thrown)
  | difference (newValues oldValues removedValues : List T)
deriving DecidableEq, Repr

def Answer.ofThrown {T : Type} : Option Thrown → Answer T
  | none => .replied .returned
  | some thrown => .threw thrown

/-- What there is to see of a container between two calls. -/
structure Sight (T : Type) where
  contents : List (List T)
  nextId : Nat
  revision : Int
  hasUndoSession : Bool
  undoStackRevisionRange : Int × Int
deriving DecidableEq, Repr

namespace UndoMultiIndex
variable {T : Type} [Object T]

omit [Object T] in
def hasUndoSession (s : UndoMultiIndex T) : Bool := !s.undoStack.isEmpty

def sight (s : UndoMultiIndex T) : Sight T where
  contents := s.contents
  nextId := s.nextId
  revision := s.revision
  hasUndoSession := s.hasUndoSession
  undoStackRevisionRange := s.undoStackRevisionRange

end UndoMultiIndex

namespace UndoOp
variable {T : Type} [Object T] {keys : List (Comparator T)}

def answer (s : UndoMultiIndex T) : UndoOp T → Option (Answer T × UndoMultiIndex T)
  | emplace constructor =>
    match s.emplace constructor with
    | (.ok a, after) => some (.created (after.value a), after)
    | (.error thrown, after) => some (.threw thrown, after)
  | modify id modifier =>
    match s.named id with
    | none => some (.replied .returned, s)
    | some a => (s.modify a modifier).map fun (thrown, after) => (.ofThrown thrown, after)
  | lastUndoSession =>
    s.lastUndoSession.map fun (delta, after) =>
      (.difference (delta.newValues.map after.value) (delta.oldValues.map OldNode.item) (delta.removedValues.map after.value),
        after)
  | setRevision revision =>
    match s.setRevision revision with
    | .ok after => some (.replied .returned, after)
    | .error thrown => some (.threw thrown, s)
  | op => (step s op).map fun (reply, after) => (.replied reply, after)

/-- A call, and all that can be seen of it and after it. -/
def respond (s : UndoMultiIndex T) (op : UndoOp T) : Option ((Answer T × Sight T) × UndoMultiIndex T) :=
  (answer s op).map fun (answer, after) => ((answer, after.sight), after)

theorem answer_step (s : UndoMultiIndex T) (op : UndoOp T) : (answer s op).map Prod.snd = (step s op).map Prod.snd := by
  cases op with
  | emplace constructor =>
    simp only [answer, step]
    cases result : s.emplace constructor with
    | mk outcome after => cases outcome <;> rfl
  | modify id modifier =>
    simp only [answer, step]
    cases found : s.named id with
    | none => rfl
    | some a => simp [Option.map_map, Function.comp_def]
  | setRevision revision =>
    simp only [answer, step]
    cases result : s.setRevision revision <;> rfl
  | lastUndoSession | remove | startUndo | undo | undoAll | squash | squashFast | compressLastUndoSession | commit =>
    simp [answer, step, Option.map_map, Function.comp_def]

theorem answer_eq {s after : UndoMultiIndex T} {op : UndoOp T} {reply : Reply} {result : Answer T}
    (ran : step s op = some (reply, after)) (told : (answer s op).map Prod.fst = some result) :
    answer s op = some (result, after) := by
  have state := answer_step s op
  rw [ran] at state
  obtain ⟨⟨first, last⟩, answered, rfl⟩ := Option.map_eq_some_iff.mp told
  rw [answered] at state ⊢
  cases state
  rfl

/-! ## What the table and the log tell of an answer -/

section Told
variable {s u after : UndoMultiIndex T} {v : Versioned (Table T keys)} {w : UndoLog T}

open Classical in
private theorem emplace_told (refines : s.Refines v) {constructor : Nat → Option T}
    (contract : ∀ item, constructor s.nextId = some item → Object.Follows s.nextId item) :
    (answer s (emplace constructor)).map Prod.fst =
      some (match constructor v.current.nextId with
        | none => .threw .user
        | some item => if v.current.Free (Object.id item) item then .created item else .threw MultiIndex.couldNotInsert) := by
  have sameNext := refines.current.nextId
  rw [← sameNext]
  cases constructs : constructor s.nextId with
  | none => simp [answer, UndoMultiIndex.emplace_threw constructs]
  | some item =>
    have low : v.current.nextId ≤ Object.id item := sameNext ▸ (contract item constructs).1
    by_cases free : v.current.Free (Object.id item) item
    · have clear := (refines.current.clear_fresh low).mpr free
      have value : ({ s with toMultiIndex := s.linkNew item }.onCreate s.fresh).value s.fresh = item := by
        unfold UndoMultiIndex.onCreate
        split
        · exact MultiIndex.linkNew_value_self
        · simp
      simp [answer, UndoMultiIndex.emplace_accepted refines.sound constructs clear, value, free]
    · have taken := fun clear => free ((refines.current.clear_fresh low).mp clear)
      simp [answer, UndoMultiIndex.emplace_refused refines.sound constructs taken, free]

private theorem modify_told (refines : s.Refines v) {id : Nat} {modifier : T → T × Bool}
    (accepts : ∀ a, s.named id = some a → s.Accepts a (modifier (s.value a)).1) :
    (answer s (modify id modifier)).map Prod.fst =
      some (match v.current.objects id with
        | none => .replied .returned
        | some item => .ofThrown (UndoMultiIndex.thrownBy (modifier item).2)) := by
  cases found : s.named id with
  | none => simp [answer, found, refines.current.named_none found]
  | some a =>
    obtain ⟨member, rfl⟩ := refines.current.named_some found
    simp [answer, found, UndoMultiIndex.modify_kept refines.sound member (accepts a found), refines.current.object member]

/-- The difference that the last level of a log has made, as the objects there are now tell. -/
def shown (contents : List (List T)) (w : UndoLog T) : Answer T :=
  match w.levels with
  | [] => .difference [] [] []
  | last :: _ =>
    .difference ((contents.headD []).dropWhile fun item => Object.id item < last.oldNextId) (last.oldValues.map Prod.fst)
      (last.removedValues.filterMap fun i => (w.cells i).map Prod.fst)

private theorem removed_told (keeps : s.Keeps w) {l : List Addr} (removed : ∀ a ∈ l, a ∈ s.removedValues) :
    (l.map s.id).filterMap (fun i => (w.cells i).map Prod.fst) = l.map s.value := by
  induction l with
  | nil => rfl
  | cons a l ih =>
    have own := keeps.cells a (.inr (removed a (by simp)))
    simp only [List.map_cons, List.filterMap_cons, own, Option.map_some, ih fun b member => removed b (by simp [member])]

private theorem lastUndoSession_told (refines : s.Refines v) {reply : Reply}
    (ran : step s lastUndoSession = some (reply, after)) (keeps : after.Keeps w) :
    (answer s lastUndoSession).map Prod.fst = some (shown after.contents w) := by
  classical
  obtain ⟨⟨delta, last⟩, ended, same⟩ := Option.map_eq_some_iff.mp ran
  cases same
  simp only [answer, ended, Option.map_some, Option.some.injEq]
  cases stack : s.undoStack with
  | nil =>
    simp only [UndoMultiIndex.lastUndoSession, stack, Option.some.injEq, Prod.mk.injEq] at ended
    obtain ⟨rfl, rfl⟩ := ended
    simp only [shown, keeps.levels_nil.mp stack, List.map_nil]
  | cons info rest =>
    simp only [UndoMultiIndex.lastUndoSession, stack] at ended
    obtain ⟨middle, compressed, shownThere⟩ := Option.bind_eq_some_iff.mp ended
    cases shownThere
    have opened : after.undoStack = info :: rest := by
      simp only [UndoMultiIndex.compressLastUndoSession, stack, UndoMultiIndex.compressImpl_eq refines.sound] at compressed
      split at compressed
      · cases compressed
        exact stack
      · cases compressed
    simp only [shown, keeps.levels_cons opened]
    congr 1
    · exact (List.dropWhile_map (p := fun item => decide (Object.id item < info.oldNextId)) (l := after.byId)).symm
    · simp [UndoMultiIndex.levelOf]
    · exact (removed_told keeps fun a member => UndoMultiIndex.mem_removedValuesOf member).symm

end Told

/-! ## Two containers with one table and one log -/

structure Twins (v : Versioned (Table T keys)) (w : UndoLog T) (s u : UndoMultiIndex T) : Prop where
  refines : s.Refines v
  keeps : s.Keeps w
  otherRefines : u.Refines v
  otherKeeps : u.Keeps w

namespace Twins
variable {v : Versioned (Table T keys)} {w : UndoLog T} {s u : UndoMultiIndex T} {op : UndoOp T}

theorem symm (twins : Twins v w s u) : Twins v w u s :=
  ⟨twins.otherRefines, twins.otherKeeps, twins.refines, twins.keeps⟩

theorem sight_eq (twins : Twins v w s u) : s.sight = u.sight := by
  have same := twins.refines.stands.shows.observe_eq twins.otherRefines.stands.shows
  simp only [UndoMultiIndex.observe, UndoMultiIndex.Observation.mk.injEq] at same
  obtain ⟨contents, nextId, revision, depth⟩ := same
  have empty : s.undoStack.isEmpty = u.undoStack.isEmpty := by
    rw [Bool.eq_iff_iff, List.isEmpty_iff_length_eq_zero, List.isEmpty_iff_length_eq_zero, depth]
  simp only [UndoMultiIndex.sight, UndoMultiIndex.hasUndoSession, UndoMultiIndex.undoStackRevisionRange, UndoMultiIndex.depth,
    contents, nextId, revision, depth, empty]

theorem legal (twins : Twins v w s u) (legal : Legal s op) : Legal u op := by
  have sameNext := twins.refines.current.nextId.trans twins.otherRefines.current.nextId.symm
  cases op with
  | emplace constructor =>
    intro item constructs
    rw [← sameNext] at constructs ⊢
    exact legal item constructs
  | modify id modifier =>
    intro b found
    obtain ⟨other, rfl⟩ := twins.otherRefines.current.named_some found
    have object := twins.otherRefines.current.object other
    obtain ⟨a, member, sameId, sameValue⟩ := twins.refines.current.node object
    have accepts := legal a (sameId ▸ twins.refines.current.linked.named_id member)
    rw [sameValue] at accepts
    have free := (twins.refines.current.clear_member member).mp accepts.2
    rw [sameId] at free
    exact ⟨accepts.1.trans sameId, (twins.otherRefines.current.clear_member other).mpr free⟩
  | compressLastUndoSession =>
    intro none
    exact legal (twins.refines.saved_nil.mpr (twins.otherRefines.saved_nil.mp none))
  | remove | startUndo | undo | undoAll | squash | squashFast | lastUndoSession | commit | setRevision => trivial

private theorem told_eq (twins : Twins v w s u) (legal : Legal s op) {after later : UndoMultiIndex T} {reply : Reply}
    (ran : step s op = some (reply, after)) (again : step u op = some (reply, later)) (next : Twins (spec v op).2 (log v w op) after later) :
    (answer s op).map Prod.fst = (answer u op).map Prod.fst := by
  cases op with
  | emplace constructor => rw [emplace_told twins.refines legal, emplace_told twins.otherRefines (twins.legal legal)]
  | modify id modifier => rw [modify_told twins.refines legal, modify_told twins.otherRefines (twins.legal legal)]
  | lastUndoSession =>
    rw [lastUndoSession_told twins.refines ran next.keeps, lastUndoSession_told twins.otherRefines again next.otherKeeps]
    have contents := congrArg Sight.contents next.sight_eq
    change after.contents = later.contents at contents
    rw [contents]
  | setRevision revision =>
    have depth : s.undoStack.length = u.undoStack.length :=
      twins.refines.saved.length_eq.trans twins.otherRefines.saved.length_eq.symm
    have same : s.revision = u.revision := twins.refines.revision.trans twins.otherRefines.revision.symm
    by_cases opened : u.undoStack.length = 0
    · by_cases high : UndoMultiIndex.int64Max < revision
      · simp [answer, UndoMultiIndex.setRevision, depth, opened, high]
      · by_cases low : (revision : Int) < u.revision
        · simp [answer, UndoMultiIndex.setRevision, depth, same, opened, high, low]
        · simp [answer, UndoMultiIndex.setRevision, depth, same, opened, high, low]
    · simp [answer, UndoMultiIndex.setRevision, depth, opened]
  | remove | startUndo | undo | undoAll | squash | squashFast | compressLastUndoSession | commit =>
    simp only [answer, ran, again, Option.map_some]

/-- A call does the same to twins, and leaves twins behind. -/
theorem respond_eq (twins : Twins v w s u) (legal : Legal s op) :
    ∃ seen after later, respond s op = some (seen, after) ∧ respond u op = some (seen, later) ∧
      Twins (spec v op).2 (log v w op) after later := by
  obtain ⟨after, ran, refines⟩ := simulated s v op twins.refines legal
  obtain ⟨later, again, otherRefines⟩ := simulated u v op twins.otherRefines (twins.legal legal)
  have next : Twins (spec v op).2 (log v w op) after later :=
    ⟨refines, keeps_step twins.refines twins.keeps legal ran, otherRefines,
      keeps_step twins.otherRefines twins.otherKeeps (twins.legal legal) again⟩
  have state := answer_step s op
  rw [ran] at state
  obtain ⟨⟨result, last⟩, answered, same⟩ := Option.map_eq_some_iff.mp state
  have told := congrArg (Option.map Prod.fst) answered
  have first := answer_eq ran told
  rw [told_eq twins legal ran again next] at told
  have second := answer_eq again told
  refine ⟨(result, after.sight), after, later, ?_, ?_, next⟩
  · simp only [respond, first, Option.map_some]
  · simp only [respond, second, Option.map_some, next.sight_eq]

end Twins

/-- As far as legal calls can tell, there is one container. -/
def SeenAlike (s u : UndoMultiIndex T) : Prop :=
  s.sight = u.sight ∧ ∀ ops, Run.Permitted respond Legal s ops →
    ∃ seen last final, Run.run respond s ops = some (seen, last) ∧ Run.run respond u ops = some (seen, final)

theorem Twins.seenAlike {v : Versioned (Table T keys)} {w : UndoLog T} {s u : UndoMultiIndex T} (twins : Twins v w s u) :
    SeenAlike s u := by
  refine ⟨twins.sight_eq, fun ops permitted => ?_⟩
  have together : ∀ (s u : UndoMultiIndex T) (op : UndoOp T),
      (∃ (v : Versioned (Table T keys)) (w : UndoLog T), Twins v w s u) → Legal s op →
        ∃ seen after later, respond s op = some (seen, after) ∧ respond u op = some (seen, later) ∧
          ∃ (v : Versioned (Table T keys)) (w : UndoLog T), Twins v w after later := by
    rintro s u op ⟨v, w, twins⟩ legal
    obtain ⟨seen, after, later, ran, again, next⟩ := twins.respond_eq legal
    exact ⟨seen, after, later, ran, again, _, _, next⟩
  obtain ⟨seen, last, final, ran, again, -⟩ := Run.lockstep together ⟨v, w, twins⟩ permitted
  exact ⟨seen, last, final, ran, again⟩

theorem distinct_of_contents [Inhabited T] {s : MultiIndex T UndoNodeExtra} (linked : s.Linked)
    (same : s.contents = s.copy.contents) : s.Distinct := by
  simp only [MultiIndex.contents, List.map_cons, List.cons.injEq, List.map_map] at same
  intro a first I index b second other shared
  obtain ⟨n, position⟩ := List.mem_iff_getElem?.mp index
  have trees := congrArg (fun l => l[n]?) same.2
  have keys := congrArg (fun l => l[n]?) (MultiIndex.copy_frame s).1
  simp only [List.getElem?_map, position, Option.map_some, Function.comp_apply] at trees keys
  obtain ⟨J, there, keyed⟩ := Option.map_eq_some_iff.mp keys
  rw [there, Option.map_some, Option.some.injEq] at trees
  have strict := ((MultiIndex.copied s).indices J (List.mem_of_getElem? there)).strict
  have listed : StrictlySorted J.keys (J.tree.map s.copy.value) := List.pairwise_map.mpr strict
  rw [keyed, show J.tree.map s.copy.value = I.tree.map s.value from trees.symm] at listed
  have apart := List.pairwise_map.mp listed.distinct
  have symmetric : Std.Symm fun a b : Addr => ¬ I.keys.Same (s.value a) (s.value b) :=
    ⟨fun _ _ different same => different same.symm⟩
  have members : a ∈ I.tree ∧ b ∈ I.tree := ⟨(linked.mem_tree index).mpr first, (linked.mem_tree index).mpr second⟩
  exact apart.forall members.1 members.2 (Ne.symm other) shared

/-- A copy cannot be told from the container after it has committed everything exactly
if no two objects of the container share a secondary key. -/
theorem copy_equals_commit_iff [Inhabited T] (keys : List (Comparator T)) (s : UndoMultiIndex T)
    (reachable : Reachable keys s) : SeenAlike (s.commit s.revision).2 s.copy ↔ s.Distinct := by
  have sound := reachable.sound
  have committed : (s.commit s.revision).2 = { s.disposeUndo with undoStack := [] } := by simp [UndoMultiIndex.commit]
  constructor
  · intro alike
    have contents := congrArg Sight.contents alike.1
    rw [committed] at contents
    have untouched : s.disposeUndo.contents = s.contents := by
      simp only [UndoMultiIndex.disposeUndo, MultiIndex.disposeNodes_eq]
      rfl
    exact distinct_of_contents sound.housed.linked (untouched.symm.trans contents)
  · intro distinct
    have refines := sound.commit_refines reachable.stamped distinct
    have copied := sound.copy_refines distinct
    have keeps := refines.keeps (by rw [committed]) (by rw [committed]; rfl)
    have twins : Twins _ _ (s.commit s.revision).2 s.copy := ⟨refines, keeps, copied, ?_⟩
    · exact twins.seenAlike
    · rw [committed]
      exact copied.keeps rfl rfl

theorem copy_equals_commit_iff_books :
    SeenAlike ((UndoMultiIndex.afterCalls UndoMultiIndex.modifiedOnce).commit 1).2
      (UndoMultiIndex.afterCalls UndoMultiIndex.modifiedOnce).copy ↔
        (UndoMultiIndex.afterCalls UndoMultiIndex.modifiedOnce).Distinct :=
  copy_equals_commit_iff bookKeys _ UndoMultiIndex.modifiedOnce_reachable

/-- A book is changed to the key of another one, which has just left it and is brought
back by the undo; the change is not, as it took no backup after an earlier conflict. -/
def sharedKey : List (UndoOp Book) :=
  [.emplace fun id => some ⟨id, 1, 1⟩, .emplace fun id => some ⟨id, 2, 2⟩, .startUndo,
    .modify 0 fun book => ({ book with a := 2 }, false), .modify 1 fun book => ({ book with a := 5 }, false),
    .modify 0 fun book => ({ book with a := 2 }, false), .undo]

/-- The copy lacks the second book in one of its indices. -/
theorem copy_drops_book :
    let s := UndoMultiIndex.afterCalls sharedKey
    Reachable bookKeys s ∧ ¬ s.Distinct ∧
      (s.commit s.revision).2.contents = [[⟨0, 2, 1⟩, ⟨1, 2, 2⟩], [⟨0, 2, 1⟩, ⟨1, 2, 2⟩], [⟨0, 2, 1⟩, ⟨1, 2, 2⟩]] ∧
      s.copy.contents = [[⟨0, 2, 1⟩, ⟨1, 2, 2⟩], [⟨0, 2, 1⟩], [⟨0, 2, 1⟩, ⟨1, 2, 2⟩]] ∧
      ¬ SeenAlike (s.commit s.revision).2 s.copy := by
  intro s
  have whole : (s.commit s.revision).2.contents =
      [[⟨0, 2, 1⟩, ⟨1, 2, 2⟩], [⟨0, 2, 1⟩, ⟨1, 2, 2⟩], [⟨0, 2, 1⟩, ⟨1, 2, 2⟩]] := by decide
  have short : s.copy.contents = [[⟨0, 2, 1⟩, ⟨1, 2, 2⟩], [⟨0, 2, 1⟩], [⟨0, 2, 1⟩, ⟨1, 2, 2⟩]] := by decide
  refine ⟨⟨sharedKey, [.returned, .returned, .revision 1, .threw, .returned, .returned, .returned], by decide, rfl⟩,
    ?_, whole, short, ?_⟩
  · intro distinct
    have shared : ¬ s.Clear 0 (s.value 0) := by decide
    exact shared (distinct 0 (by decide))
  · intro alike
    have same := congrArg Sight.contents alike.1
    change (s.commit s.revision).2.contents = s.copy.contents at same
    rw [whole, short] at same
    revert same
    decide

end UndoOp
end ChainBase
