import ChainBase.Container.IdReuse
import ChainBase.Container.FailedModify

/-! How long a reference to an object is good. An object never moves: it stays at its node
until it is removed, erased by a conflicting modification, or its insertion is undone, and
when it comes back it comes back there. This holds whatever calls fail. -/

namespace ChainBase
open OrderedSequence

namespace UndoMultiIndex
variable {T : Type} [Object T] {s after : UndoMultiIndex T} {a b : Addr} {modifier : T → T × Bool}

/-! ## Nodes -/

theorem Evolves.modify (sound : s.Sound) (member : a ∈ s.byId) {thrown : Option Thrown}
    (ran : s.modify a modifier = some (thrown, after)) : s.Evolves after := by
  by_cases accepts : s.Accepts a (modifier (s.value a)).1
  · rw [modify_kept sound member accepts] at ran
    cases ran
    exact .modified accepts.1
  · cases old : s.stale a with
    | false =>
      rw [modify_erased sound member accepts old] at ran
      cases ran
      refine .of_kept rfl fun b inside => ?_
      obtain ⟨kept, other⟩ := erased_gone sound member _ b inside
      exact ⟨kept, congrArg Object.id (MultiIndex.setItem_value_other s.toMultiIndex _ other)⟩
    | true =>
      obtain reverts | ⟨fails, -⟩ := modify_reverted sound member accepts old
      · rw [reverts] at ran
        cases ran
        exact .of_kept rfl fun b inside => ⟨inside, congrFun (MultiIndex.setMtime_id _ _ _) b⟩
      · rw [fails] at ran
        cases ran

theorem modify_fresh (sound : s.Sound) (member : a ∈ s.byId) {thrown : Option Thrown}
    (ran : s.modify a modifier = some (thrown, after)) : after.fresh = s.fresh := by
  by_cases accepts : s.Accepts a (modifier (s.value a)).1
  · rw [modify_kept sound member accepts] at ran
    cases ran
    show (s.prepared a).fresh = s.fresh
    unfold UndoMultiIndex.prepared
    split <;> rfl
  · cases old : s.stale a with
    | false =>
      rw [modify_erased sound member accepts old] at ran
      cases ran
      rfl
    | true =>
      obtain reverts | ⟨fails, -⟩ := modify_reverted sound member accepts old
      · rw [reverts] at ran
        cases ran
        rfl
      · rw [fails] at ran
        cases ran

theorem remove_fresh (s : UndoMultiIndex T) (a : Addr) : (s.remove a).fresh = s.fresh := by
  by_cases older : s.Older a
  · rw [remove_older older]
    rfl
  · rw [remove_newer older]
    rfl

theorem undoTimes_fresh {n : Nat} (sound : s.Sound) (ran : s.undoTimes n = some after) : after.fresh = s.fresh := by
  induction n generalizing s with
  | zero =>
    cases ran
    rfl
  | succ n ih =>
    obtain ⟨middle, first, rest⟩ := Option.bind_eq_some_iff.mp ran
    exact (ih (sound.undo first) rest).trans (sound.undo_kept first).1

/-- The same nodes are linked, and none is made. -/
structure SameNodes (s after : UndoMultiIndex T) : Prop where
  fresh : after.fresh = s.fresh
  byId : after.byId = s.byId

namespace SameNodes

omit [Object T] in
theorem trans {middle : UndoMultiIndex T} (first : s.SameNodes middle) (second : middle.SameNodes after) : s.SameNodes after :=
  ⟨second.fresh.trans first.fresh, second.byId.trans first.byId⟩

omit [Object T] in
theorem disposeUndo {levels : List UndoState} {revision : Int} :
    s.SameNodes { s.disposeUndo with undoStack := levels, revision } := by
  constructor <;> simp only [UndoMultiIndex.disposeUndo, MultiIndex.disposeNodes_eq]

omit [Object T] in
theorem squashFast (s : UndoMultiIndex T) : s.SameNodes s.squashFast := by
  unfold UndoMultiIndex.squashFast
  split
  · exact ⟨rfl, rfl⟩
  · exact disposeUndo
  · exact ⟨rfl, rfl⟩

theorem compressImpl (sound : s.Sound) {last session : UndoState} (ran : s.compressImpl last session = some after) :
    s.SameNodes after := by
  obtain ⟨-, rfl⟩ := (compressImpl_iff sound).mp ran
  have frame := MultiIndex.restoreAll_frame
    ((s.oldValuesOf last).filter (fun e => e.mtime < session.ctime && s.isRemoved e.current)) s.toMultiIndex
  constructor <;> simp only [compressed, MultiIndex.disposeNodes_eq]
  · exact frame.2.2.1
  · exact frame.1

theorem compressLast (sound : s.Sound) (ran : s.compressLastUndoSession = some after) : s.SameNodes after := by
  unfold compressLastUndoSession at ran
  split at ran
  · cases ran
  next last rest stack => exact compressImpl sound ran

theorem squash (sound : s.Sound) (ran : s.squash = some after) : s.SameNodes after := by
  obtain ⟨last, session, rest, middle, -, first, rfl⟩ | rfl := squash_cases ran
  · exact (compressImpl sound first).trans (squashFast middle)
  · exact squashFast s

omit [Object T] in
theorem commit (s : UndoMultiIndex T) (revision : Int) : s.SameNodes (s.commit revision).2 := by
  obtain same | ⟨kept, -, info, -, -, same⟩ | same := s.commit_cases revision
  · rw [same]
    exact disposeUndo
  · rw [same]
    constructor <;> simp only [dispose, MultiIndex.disposeNodes_eq]
  · rw [same]
    exact ⟨rfl, rfl⟩

end SameNodes

theorem linked_emplace (sound : s.Sound) (constructor : Nat → Option T) (member : a ∈ s.byId) :
    a ∈ (s.emplace constructor).2.byId := by
  cases constructs : constructor s.nextId with
  | none =>
    rw [emplace_threw constructs]
    exact member
  | some item =>
    by_cases clear : s.Clear s.fresh item
    · rw [emplace_accepted sound constructs clear]
      unfold onCreate
      split <;> exact List.mem_append_left _ member
    · rw [emplace_refused sound constructs clear]
      exact member

end UndoMultiIndex

namespace UndoOp
variable {T : Type} [Object T] {s after : UndoMultiIndex T} {a b : Addr} {op : UndoOp T} {reply : Reply}

theorem evolves_any (sound : s.Sound) (ran : step s op = some (reply, after)) : s.Evolves after := by
  cases performs ran with
  | emplace constructor => exact .emplace sound constructor
  | modify found modified => exact .modify sound (MultiIndex.mem_of_named found).1 modified
  | remove found => exact .remove (MultiIndex.mem_of_named found).1
  | startUndo => exact .of_kept rfl fun a inside => ⟨inside, rfl⟩
  | undo undone => exact .undo sound undone
  | undoAll undone => exact .undoTimes sound undone
  | squash squashed => exact .squash sound squashed
  | squashFast => exact .squashFast
  | compress compressed | lastUndoSession compressed => exact .compressLastUndoSession sound compressed
  | commit revision => exact .commit revision
  | setRevision set =>
    rw [UndoMultiIndex.setRevision_ok set]
    exact .of_kept rfl fun a inside => ⟨inside, rfl⟩
  | modifyMissing | removeMissing | noSession | refused => exact .refl s

theorem fresh_step (sound : s.Sound) (ran : step s op = some (reply, after)) :
    after.fresh = s.fresh ∨ ∃ constructor, op = emplace constructor ∧ after = (s.emplace constructor).2 := by
  cases performs ran with
  | emplace constructor => exact .inr ⟨constructor, rfl, rfl⟩
  | modify found modified => exact .inl (UndoMultiIndex.modify_fresh sound (MultiIndex.mem_of_named found).1 modified)
  | remove found => exact .inl (UndoMultiIndex.remove_fresh s _)
  | undo undone => exact .inl (sound.undo_kept undone).1
  | undoAll undone => exact .inl (UndoMultiIndex.undoTimes_fresh sound undone)
  | squash squashed => exact .inl (UndoMultiIndex.SameNodes.squash sound squashed).fresh
  | squashFast => exact .inl (UndoMultiIndex.SameNodes.squashFast s).fresh
  | compress compressed | lastUndoSession compressed => exact .inl (UndoMultiIndex.SameNodes.compressLast sound compressed).fresh
  | commit revision => exact .inl (UndoMultiIndex.SameNodes.commit s revision).fresh
  | setRevision set =>
    rw [UndoMultiIndex.setRevision_ok set]
    exact .inl rfl
  | startUndo | modifyMissing | removeMissing | noSession | refused => exact .inl rfl

theorem new_id (sound : s.Sound) (contract : Contract s op) (ran : step s op = some (reply, after)) (new : s.fresh ≤ b)
    (kept : after.Kept after.removedValues b) : s.nextId ≤ after.id b := by
  have live := ((sound_step s op reply after sound contract ran).housed.live kept).1
  obtain same | ⟨constructor, rfl, rfl⟩ := fresh_step sound ran
  · exact absurd (same ▸ live) (Nat.not_lt.mpr new)
  · cases constructs : constructor s.nextId with
    | none =>
      rw [UndoMultiIndex.emplace_threw constructs] at kept
      exact absurd (sound.housed.live kept).1 (Nat.not_lt.mpr new)
    | some item =>
      by_cases clear : s.Clear s.fresh item
      · have made := UndoMultiIndex.emplace_accepted sound constructs clear
        obtain ⟨other, constructed, -, own, -⟩ := UndoMultiIndex.emplace_made sound made
        rw [made] at live ⊢
        have grown : ({ s with toMultiIndex := s.linkNew item }.onCreate s.fresh).fresh = s.fresh + 1 := by
          unfold UndoMultiIndex.onCreate
          split <;> rfl
        have last : b = s.fresh := Nat.le_antisymm (Nat.le_of_lt_succ (Nat.lt_of_lt_of_eq live grown)) new
        rw [last, own]
        exact (contract other constructed).1
      · rw [UndoMultiIndex.emplace_refused sound constructs clear] at kept
        exact absurd (sound.housed.live kept).1 (Nat.not_lt.mpr new)

/-! ## What unlinks a node -/

/-- The call takes the object away from its node. -/
def Takes (s : UndoMultiIndex T) (a : Addr) : UndoOp T → Prop
  | modify id modifier => s.named id = some a ∧ ¬ s.Accepts a (modifier (s.value a)).1 ∧ s.stale a = false
  | remove id => s.named id = some a
  | undo => ∃ info ∈ s.undoStack.head?, info.oldNextId ≤ s.id a
  | undoAll => ∃ info ∈ s.undoStack, info.oldNextId ≤ s.id a
  | _ => False

theorem linked_undo (sound : s.Sound) (member : a ∈ s.byId) (undone : s.undo = some after) :
    a ∈ after.byId ↔ ¬ Takes s a undo := by
  obtain ⟨stack, rfl⟩ | ⟨info, rest, base, stack, live, inserted, rfl⟩ := sound.undo_cases undone
  · simp [Takes, stack, member]
  · have back := UndoMultiIndex.reinserted_byId sound live (sound.reinserted live inserted).2 a
    simpa [Takes, stack, UndoMultiIndex.popped, member] using back

/-- A node that an undo has taken is not kept for anything. -/
theorem taken_gone (sound : s.Sound) (member : a ∈ s.byId) (undone : s.undo = some after) (taken : a ∉ after.byId) :
    ¬ after.Kept after.removedValues a := by
  rintro (linked | listed)
  · exact taken linked
  · obtain ⟨-, rfl⟩ | ⟨info, rest, base, -, -, -, rfl⟩ := sound.undo_cases undone
    · exact sound.housed.apart member listed
    · exact sound.housed.apart member (CutList.below_subset listed)

theorem linked_undoTimes {n : Nat} (sound : s.Sound) (member : a ∈ s.byId) (undone : s.undoTimes n = some after) :
    a ∈ after.byId ↔ ∀ info ∈ s.undoStack.take n, s.id a < info.oldNextId := by
  induction n generalizing s with
  | zero =>
    cases undone
    simp [member]
  | succ n ih =>
    obtain ⟨middle, first, rest⟩ := Option.bind_eq_some_iff.mp undone
    have stays := linked_undo sound member first
    obtain ⟨stack, rfl⟩ | ⟨info, levels, base, stack, live, inserted, rfl⟩ := sound.undo_cases first
    · simpa [stack] using ih sound member rest
    · rw [stack, List.take_succ_cons, List.forall_mem_cons]
      by_cases older : s.id a < info.oldNextId
      · have linked := stays.mpr (by simpa [Takes, stack] using older)
        have same := UndoMultiIndex.reinserted_id sound live (sound.reinserted live inserted).2 a
        rw [ih (sound.undo first) linked rest, and_iff_right older]
        exact forall₂_congr fun level _ => by rw [← same]; rfl
      · apply iff_of_false _ fun all => older all.1
        intro linked
        have gone := taken_gone sound member first fun back => stays.mp back (by simpa [Takes, stack] using older)
        have evolved := UndoMultiIndex.Evolves.undoTimes (sound.undo first) rest
        have allocated : a < (s.popped info levels base).fresh := by
          rw [(sound.undo_kept first).1]
          exact (sound.housed.live (.inl member)).1
        exact gone (evolved.kept a allocated (.inl linked)).1

theorem linked_modify (sound : s.Sound) (member : a ∈ s.byId) {id : Nat} {modifier : T → T × Bool} (found : s.named id = some b)
    {thrown : Option Thrown} (modified : s.modify b modifier = some (thrown, after)) :
    a ∈ after.byId ↔ ¬ Takes s a (modify id modifier) := by
  have inside := List.mem_of_find?_eq_some found
  by_cases accepts : s.Accepts b (modifier (s.value b)).1
  · rw [UndoMultiIndex.modify_kept sound inside accepts] at modified
    cases modified
    apply iff_of_true (show a ∈ (s.prepared b).byId by simpa using member)
    rintro ⟨here, rejects, -⟩
    cases here.symm.trans found
    exact rejects accepts
  · cases old : s.stale b with
    | false =>
      rw [UndoMultiIndex.modify_erased sound inside accepts old] at modified
      cases modified
      show a ∈ s.byId.erase b ↔ _
      rw [sound.housed.linked.nodup.mem_erase_iff, and_iff_left member]
      refine not_congr ⟨?_, fun taken => Option.some.inj (taken.1.symm.trans found)⟩
      rintro rfl
      exact ⟨found, accepts, old⟩
    | true =>
      obtain reverts | ⟨fails, -⟩ := UndoMultiIndex.modify_reverted sound inside accepts old
      · rw [reverts] at modified
        cases modified
        apply iff_of_true member
        rintro ⟨here, -, recent⟩
        cases here.symm.trans found
        exact absurd recent (by simp [old])
      · rw [fails] at modified
        cases modified

theorem linked_remove (sound : s.Sound) (member : a ∈ s.byId) {id : Nat} (found : s.named id = some b) :
    a ∈ (s.remove b).byId ↔ ¬ Takes s a (remove id) := by
  have unlinked : (s.remove b).byId = s.byId.erase b := by
    by_cases older : s.Older b
    · rw [UndoMultiIndex.remove_older older]
      rfl
    · rw [UndoMultiIndex.remove_newer older]
      rfl
  rw [unlinked, sound.housed.linked.nodup.mem_erase_iff, and_iff_left member]
  refine not_congr ⟨?_, fun taken => Option.some.inj (taken.symm.trans found)⟩
  rintro rfl
  exact found

theorem linked_step (sound : s.Sound) (ran : step s op = some (reply, after)) (member : a ∈ s.byId) :
    a ∈ after.byId ↔ ¬ Takes s a op := by
  have stays : s.SameNodes after → (a ∈ after.byId ↔ ¬ False) := fun same => by simp [same.byId, member]
  cases performs ran with
  | emplace constructor => exact iff_of_true (UndoMultiIndex.linked_emplace sound constructor member) fun taken => taken
  | modify found modified => exact linked_modify sound member found modified
  | remove found => exact linked_remove sound member found
  | undo undone => exact linked_undo sound member undone
  | undoAll undone =>
    have all := linked_undoTimes sound member undone
    simpa [Takes] using all
  | squash squashed => exact stays (.squash sound squashed)
  | squashFast => exact stays (.squashFast s)
  | compress compressed | lastUndoSession compressed => exact stays (.compressLast sound compressed)
  | commit revision => exact stays (.commit s revision)
  | setRevision set =>
    rw [UndoMultiIndex.setRevision_ok set]
    exact iff_of_true member fun taken => taken
  | modifyMissing missing => exact iff_of_true member fun taken => by simpa [missing] using taken.1
  | removeMissing missing => exact iff_of_true member fun taken => by simp [Takes, missing] at taken
  | startUndo | noSession | refused => exact iff_of_true member fun taken => taken

/-! ## Runs -/

/-- The states of a run, the first and the last included. -/
def Passes (s : UndoMultiIndex T) (ops : List (UndoOp T)) (middle : UndoMultiIndex T) : Prop :=
  ∃ n replies, Run.run step s (ops.take n) = some (replies, middle)

variable {ops : List (UndoOp T)} {replies : List Reply} {last : UndoMultiIndex T}

theorem passes_cons (taken : step s op = some (reply, after)) (middle : UndoMultiIndex T) :
    Passes s (op :: ops) middle ↔ middle = s ∨ Passes after ops middle := by
  constructor
  · rintro ⟨n, replies, ran⟩
    cases n with
    | zero =>
      cases ran
      exact .inl rfl
    | succ n =>
      obtain ⟨other, state, rest, first, others, -⟩ := Run.run_cons ran
      cases taken.symm.trans first
      exact .inr ⟨n, rest, others⟩
  · rintro (rfl | ⟨n, replies, ran⟩)
    · exact ⟨0, [], rfl⟩
    · exact ⟨n + 1, reply :: replies, Run.run_step taken ran⟩

theorem linked_run (sound : s.Sound) (permitted : Run.Permitted step Contract s ops)
    (ran : Run.run step s ops = some (replies, last)) (member : a ∈ s.byId) :
    (∀ middle, Passes s ops middle → a ∈ middle.byId) ↔ Run.Permitted step (fun s op => ¬ Takes s a op) s ops := by
  induction ops generalizing s replies with
  | nil =>
    refine iff_of_true ?_ trivial
    rintro middle ⟨n, outputs, same⟩
    rw [List.take_nil] at same
    cases same
    exact member
  | cons op ops ih =>
    obtain ⟨reply, after, rest, taken, others, -⟩ := Run.run_cons ran
    have stays := linked_step sound taken member
    have later := ih (sound_step s op reply after sound permitted.1 taken) (permitted.2 reply after taken) others
    simp only [passes_cons taken, forall_eq_or_imp, Run.Permitted, member, true_and]
    constructor
    · intro linked
      have here := linked after ⟨0, [], rfl⟩
      refine ⟨stays.mp here, fun other state again => ?_⟩
      cases taken.symm.trans again
      exact (later here).mp linked
    · rintro ⟨spared, rest⟩
      exact (later (stays.mpr spared)).mpr (rest reply after taken)

theorem evolves_any_run (sound : s.Sound) (permitted : Run.Permitted step Contract s ops)
    (ran : Run.run step s ops = some (replies, last)) : last.Sound ∧ s.Evolves last := by
  have preserved (middle : UndoMultiIndex T) (op : UndoOp T) (reply : Reply) (after : UndoMultiIndex T)
      (evolved : middle.Sound ∧ s.Evolves middle) (contract : Contract middle op) (taken : step middle op = some (reply, after)) :
      after.Sound ∧ s.Evolves after :=
    ⟨sound_step middle op reply after evolved.1 contract taken, evolved.2.trans (evolves_any evolved.1 taken)⟩
  exact Run.invariant preserved ⟨sound, .refl s⟩ permitted ran

/-- While the id is below the next one, only the node that has it can have it. -/
theorem id_kept_run (sound : s.Sound) (permitted : Run.Permitted step Contract s ops)
    (ran : Run.run step s ops = some (replies, last)) {id : Nat} (own : ∀ b, s.Kept s.removedValues b → s.id b = id → b = a)
    (issued : ∀ middle, Passes s ops middle → id < middle.nextId) :
    ∀ b, last.Kept last.removedValues b → last.id b = id → b = a := by
  induction ops generalizing s replies with
  | nil =>
    cases ran
    exact own
  | cons op ops ih =>
    obtain ⟨reply, after, rest, taken, others, -⟩ := Run.run_cons ran
    simp only [passes_cons taken, forall_eq_or_imp] at issued
    apply ih (sound_step s op reply after sound permitted.1 taken) (permitted.2 reply after taken) others _ issued.2
    intro b kept same
    by_cases old : b < s.fresh
    · obtain ⟨before, unchanged⟩ := (evolves_any sound taken).kept b old kept
      exact own b before (unchanged.symm.trans same)
    · have higher := new_id sound permitted.1 taken (Nat.le_of_not_lt old) kept
      exact absurd issued.1 (Nat.not_lt.mpr (same ▸ higher))

/-- A reference to an object is good as long as no call takes the object away, and names the
same object for as long as its node is not disposed of; and whenever there is an object
with its id, it is at this reference, unless the next id has been taken back below. -/
theorem references_stay_valid [Inhabited T] (keys : List (Comparator T)) (s : UndoMultiIndex T) (reachable : Reachable keys s)
    (ops : List (UndoOp T)) (permitted : Run.Permitted step Contract s ops) {replies : List Reply} {last : UndoMultiIndex T}
    (ran : Run.run step s ops = some (replies, last)) (a : Addr) (member : a ∈ s.byId) :
    ((∀ middle, Passes s ops middle → a ∈ middle.byId) ↔ Run.Permitted step (fun s op => ¬ Takes s a op) s ops) ∧
    (last.disposed a = 0 → last.id a = s.id a) ∧
    ∀ b, last.find (s.id a) = some b → b = a ∨ ∃ middle, Passes s ops middle ∧ middle.nextId ≤ s.id a := by
  have sound := reachable.sound
  obtain ⟨final, evolved⟩ := evolves_any_run sound permitted ran
  have allocated := (sound.housed.live (.inl member)).1
  refine ⟨linked_run sound permitted ran member, fun undisposed => ?_, fun b found => ?_⟩
  · have kept := final.housed.kept_of_live (Nat.lt_of_lt_of_le allocated evolved.fresh) undisposed
    exact (evolved.kept a allocated kept).2
  · by_cases issued : ∀ middle, Passes s ops middle → s.id a < middle.nextId
    · have own : ∀ b, s.Kept s.removedValues b → s.id b = s.id a → b = a :=
        fun b kept same => sound.housed.ids b a kept (.inl member) same
      obtain ⟨linked, same⟩ := MultiIndex.mem_of_find found
      exact .inl (id_kept_run sound permitted ran own issued b (.inl linked) same)
    · simp only [not_forall, Nat.not_lt] at issued
      obtain ⟨middle, passed, low⟩ := issued
      exact .inr ⟨middle, passed, low⟩

theorem references_stay_valid_books :
    let before : List (UndoOp Book) := [.emplace fun id => some ⟨id, 1, 1⟩, .emplace fun id => some ⟨id, 2, 2⟩]
    let s := UndoMultiIndex.afterCalls before
    let ops : List (UndoOp Book) :=
      [.startUndo, .modify 0 fun book => ({ book with a := 3 }, false), .startUndo, .remove 0, .undo, .squash, .commit 0]
    let last := UndoMultiIndex.afterCalls (before ++ ops)
    ((∀ middle, Passes s ops middle → 0 ∈ middle.byId) ↔ Run.Permitted step (fun s op => ¬ Takes s 0 op) s ops) ∧
    (last.disposed 0 = 0 → last.id 0 = s.id 0) ∧
    ∀ b, last.find (s.id 0) = some b → b = 0 ∨ ∃ middle, Passes s ops middle ∧ middle.nextId ≤ s.id 0 := by
  intro before s ops last
  have reachable : Reachable bookKeys s := ⟨before, [.returned, .returned], by decide, rfl⟩
  have ran : Run.run step s ops =
      some ([.revision 1, .returned, .revision 2, .returned, .returned, .returned, .revision 0], last) := rfl
  exact references_stay_valid bookKeys s reachable ops (by decide) ran 0 (by decide)

end UndoOp
end ChainBase
