import ChainBase.Journal.Replay

/-! `journaled<basic_undo_multi_index>`: the container with a journal of its calls.
An entry is written once the container has returned, and says what the container
has become. A commit is recorded under the revision of the container, so that its
replay drops every open level, whatever the commit itself has kept. -/

namespace ChainBase
open OrderedSequence

inductive JournaledOp (T : Type) where
  | emplace (constructor : Nat → Option T)
  | modify (id : Nat) (modifier : T → T × Bool)
  | remove (id : Nat)
  | startUndo
  | undo
  | undoAll
  | commit (revision : Int)
  | setRevision (revision : Nat)

namespace JournaledOp
variable {T : Type} [Object T]

/-- One call, what the caller sees of it, and the entries it writes. -/
def step (s : UndoMultiIndex T) : JournaledOp T → Option ((Reply × List (Entry T)) × UndoMultiIndex T)
  | emplace constructor =>
    match s.emplace constructor with
    | (.ok a, after) => some ((.returned, [.insert (after.value a)]), after)
    | (.error _, after) => some ((.threw, []), after)
  | modify id modifier =>
    match s.named id with
    | none => some ((.returned, []), s)
    | some a =>
      match s.modify a modifier with
      | some (none, after) => some ((.returned, [.modify (after.id a) (after.value a)]), after)
      | some (some _, after) => some ((.threw, []), after)
      | none => none
  | remove id =>
    match s.named id with
    | none => some ((.returned, []), s)
    | some a => some ((.returned, [.remove (s.id a)]), s.remove a)
  | startUndo => some ((.revision s.startUndo.1, [.level .startUndo s.startUndo.1]), s.startUndo.2)
  | undo => s.undo.map fun after => ((.returned, [.level .undo after.revision]), after)
  | undoAll =>
    match s.undoStack with
    | [] => some ((.returned, []), s)
    | _ :: _ => s.undoAll.map fun after => ((.returned, [.level .undoAll after.revision]), after)
  | commit revision =>
    some ((.revision (s.commit revision).1, [.level .commit (s.commit revision).1]), (s.commit revision).2)
  | setRevision revision =>
    match s.setRevision revision with
    | .ok after => some ((.returned, [.level .revision revision]), after)
    | .error _ => some ((.threw, []), s)

/-- The calls of a run keep to the contract of `emplace`, and every modification returns. -/
def Succeeds (s : UndoMultiIndex T) : JournaledOp T → Prop
  | emplace constructor => ∀ v, constructor s.nextId = some v → Object.Follows s.nextId v
  | modify id modifier => ∀ a, s.named id = some a → (s.modify a modifier).map Prod.fst = some none
  | _ => True

def CommitsAll (s : UndoMultiIndex T) : JournaledOp T → Prop
  | commit revision => s.undoStack = [] ∨ s.revision ≤ revision
  | _ => True

instance (s : UndoMultiIndex T) : ∀ op, Decidable (Succeeds s op)
  | emplace constructor => inferInstanceAs (Decidable (∀ v ∈ constructor s.nextId, Object.Follows s.nextId v))
  | modify id modifier => inferInstanceAs (Decidable (∀ a ∈ s.named id, (s.modify a modifier).map Prod.fst = some none))
  | remove _ | startUndo | undo | undoAll | commit _ | setRevision _ => inferInstanceAs (Decidable True)

instance (s : UndoMultiIndex T) : ∀ op, Decidable (CommitsAll s op)
  | commit revision => inferInstanceAs (Decidable (s.undoStack = [] ∨ s.revision ≤ revision))
  | emplace _ | modify _ _ | remove _ | startUndo | undo | undoAll | setRevision _ => inferInstanceAs (Decidable True)

def toUndoOp : JournaledOp T → UndoOp T
  | emplace constructor => .emplace constructor
  | modify id modifier => .modify id modifier
  | remove id => .remove id
  | startUndo => .startUndo
  | undo => .undo
  | undoAll => .undoAll
  | commit revision => .commit revision
  | setRevision revision => .setRevision revision

end JournaledOp

namespace UndoMultiIndex
variable {T : Type} [Object T] {keys : List (Comparator T)} {s : UndoMultiIndex T} {v : Versioned (Table T keys)}

omit [Object T] in
theorem onCreate_value (s : UndoMultiIndex T) (a : Addr) : (s.onCreate a).value = s.value := by
  unfold onCreate
  split
  · rfl
  · exact MultiIndex.setMtime_value s.toMultiIndex a _

theorem modify_returns (sound : s.Sound) {a : Addr} (member : a ∈ s.byId) {modifier : T → T × Bool}
    (returns : (s.modify a modifier).map Prod.fst = some none) :
    s.Accepts a (modifier (s.value a)).1 ∧ (modifier (s.value a)).2 = false := by
  have accepts : s.Accepts a (modifier (s.value a)).1 := by
    by_contra rejects
    cases old : s.stale a with
    | false => simp [modify_erased sound member rejects old] at returns
    | true =>
      obtain reverted | ⟨fails, -⟩ := modify_reverted sound member rejects old
      · simp [reverted] at returns
      · simp [fails] at returns
  refine ⟨accepts, ?_⟩
  rw [modify_kept sound member accepts] at returns
  cases threw : (modifier (s.value a)).2 <;> simp_all [thrownBy]

theorem Stands.emplace_recorded (stands : s.Stands v) {constructor : Nat → Option T}
    (contract : ∀ item, constructor s.nextId = some item → Object.Follows s.nextId item) :
    (∃ nodes : Addr → Node T UndoNodeExtra, (∀ a, a ≠ s.fresh → nodes a = s.nodes a) ∧
      (∀ a, nodes a = s.nodes a ∨ (nodes a).extra.mtime = 0) ∧
      JournaledOp.step s (.emplace constructor) = some ((.threw, []), { s with toMultiIndex := s.wasteNode nodes })) ∨
    ∃ item, ∃ _ : Object.Follows v.current.nextId item, ∃ _ : v.current.Free (Object.id item) item,
      JournaledOp.step s (.emplace constructor) =
        some ((.returned, [.insert item]), { s with toMultiIndex := s.linkNew item }.onCreate s.fresh) := by
  cases constructs : constructor s.nextId with
  | none =>
    refine Or.inl ⟨s.nodes, fun _ _ => rfl, fun _ => Or.inl rfl, ?_⟩
    simp [JournaledOp.step, emplace_threw constructs]
  | some item =>
    have follows : Object.Follows v.current.nextId item := stands.current.nextId ▸ contract item constructs
    by_cases free : v.current.Free (Object.id item) item
    · have clear := (stands.current.clear_fresh follows.1).mpr free
      refine Or.inr ⟨item, follows, free, ?_⟩
      simp [JournaledOp.step, emplace_accepted stands.sound constructs clear, onCreate_value]
    · have taken := fun clear => free ((stands.current.clear_fresh follows.1).mp clear)
      refine Or.inl ⟨Function.update s.nodes s.fresh ⟨item, default, 0⟩,
        fun a other => Function.update_of_ne other _ _, fun a => ?_, ?_⟩
      · by_cases new : a = s.fresh
        · exact Or.inr (by rw [new, Function.update_self]; rfl)
        · exact Or.inl (Function.update_of_ne new _ _)
      · simp [JournaledOp.step, emplace_refused stands.sound constructs taken]

theorem Stands.modify_recorded (stands : s.Stands v) {a : Addr} (member : a ∈ s.byId) {modifier : T → T × Bool}
    (accepts : s.Accepts a (modifier (s.value a)).1) :
    JournaledOp.step s (.modify (s.id a) modifier) =
      some (if (modifier (s.value a)).2 then (.threw, []) else (.returned, [.modify (s.id a) (modifier (s.value a)).1]),
        { s.prepared a with toMultiIndex := (s.prepared a).settle a (modifier (s.value a)).1 }) := by
  have value : ((s.prepared a).settle a (modifier (s.value a)).1).value a = (modifier (s.value a)).1 :=
    MultiIndex.settle_value_self
  simp only [JournaledOp.step, stands.sound.housed.linked.named_id member, modify_kept stands.sound member accepts]
  cases (modifier (s.value a)).2
  · simp [thrownBy, MultiIndex.id, value, accepts.1]
  · rfl

end UndoMultiIndex

namespace JournaledOp
variable {T : Type} [Object T] {keys : List (Comparator T)}

/-- What a call writes of the step from one table to another: entries that say the
same, or a commit that says nothing of the levels it has kept. -/
structure Records (op : JournaledOp T) (v later : Versioned (Table T keys)) (entries : List (Entry T)) : Prop where
  meaning : entries.foldlM Entry.onVersioned v = some later ∨
    ∃ revision, op = .commit revision ∧ entries = [.level .commit v.revision] ∧ later = v.commit revision
  single : entries.length ≤ 1
  follows : ∀ obj, Entry.insert obj ∈ entries → Object.Follows v.current.nextId obj
  revisions : ∀ kind revision, Entry.level kind revision ∈ entries → revision = later.revision
  rises : later.revision ≤ v.revision ∨ later.revision ≤ UndoMultiIndex.int64Max ∨ op = .startUndo ∧ later = v.start

private theorem Records.nothing (op : JournaledOp T) (v : Versioned (Table T keys)) : Records op v v [] :=
  ⟨Or.inl rfl, by simp, by simp, by simp, Or.inl (Int.le_refl _)⟩

private theorem Records.data {op : JournaledOp T} {v : Versioned (Table T keys)} {t : Table T keys} {entry : Entry T}
    (meaning : entry.onVersioned v = some { v with current := t })
    (follows : ∀ obj, entry = .insert obj → Object.Follows v.current.nextId obj)
    (plain : ∀ kind revision, entry ≠ .level kind revision) : Records op v { v with current := t } [entry] :=
  ⟨Or.inl (by simp [meaning]), by simp, fun obj member => follows obj (List.mem_singleton.mp member).symm,
    fun kind revision member => absurd (List.mem_singleton.mp member).symm (plain kind revision), Or.inl (Int.le_refl _)⟩

private theorem Records.level {op : JournaledOp T} {v later : Versioned (Table T keys)} {kind : LevelOp}
    (meaning : v.replay later.revision kind = some later) (rises : later.revision ≤ v.revision ∨
      later.revision ≤ UndoMultiIndex.int64Max ∨ op = .startUndo ∧ later = v.start) :
    Records op v later [.level kind later.revision] :=
  ⟨Or.inl (by simp [Entry.onVersioned, meaning]), by simp, by simp, by simp, rises⟩

private theorem modify_records {s : UndoMultiIndex T} {v : Versioned (Table T keys)} (refines : s.Refines v) {id : Nat}
    {modifier : T → T × Bool} (returns : ∀ a, s.named id = some a → (s.modify a modifier).map Prod.fst = some none) :
    ∃ reply entries after later, step s (modify id modifier) = some ((reply, entries), after) ∧ after.Refines later ∧
      Records (modify id modifier) v later entries := by
  cases found : s.named id with
  | none => exact ⟨.returned, [], s, v, by simp [step, found], refines, .nothing _ v⟩
  | some a =>
    obtain ⟨member, rfl⟩ := refines.current.named_some found
    obtain ⟨accepts, returned⟩ := UndoMultiIndex.modify_returns refines.sound member (returns a found)
    have object := refines.current.object member
    have free := (refines.current.clear_member member).mp accepts.2
    have recorded := refines.stands.modify_recorded member accepts
    rw [returned] at recorded
    refine ⟨_, _, _, _, recorded, refines.modified member accepts.1 free, .data ?_ (by simp) (by simp)⟩
    simp [Entry.onVersioned, Entry.onTable_modify object accepts.1 free]

theorem stepped (s : UndoMultiIndex T) (v : Versioned (Table T keys)) (op : JournaledOp T) (refines : s.Refines v)
    (succeeds : Succeeds s op) : ∃ reply entries after later,
      step s op = some ((reply, entries), after) ∧ after.Refines later ∧ Records op v later entries := by
  cases op with
  | emplace constructor =>
    obtain ⟨nodes, same, stamps, ran⟩ | ⟨item, follows, free, ran⟩ := refines.stands.emplace_recorded succeeds
    · refine ⟨_, _, _, v, ran, refines.wasteNode same fun a => ?_, .nothing _ v⟩
      rcases stamps a with kept | new
      · exact kept ▸ refines.stamps a
      · exact new ▸ Nat.zero_le _
    · refine ⟨_, _, _, _, ran, refines.emplaced follows free, .data ?_ (by simpa using follows) (by simp)⟩
      simp [Entry.onVersioned, Entry.onTable_insert follows free]
  | modify id modifier => exact modify_records refines succeeds
  | remove id =>
    cases found : s.named id with
    | none => exact ⟨.returned, [], s, v, by simp [step, found], refines, .nothing _ v⟩
    | some a =>
      obtain ⟨member, rfl⟩ := refines.current.named_some found
      refine ⟨.returned, [.remove (s.id a)], s.remove a, _, by simp [step, found], refines.removed member,
        .data ?_ (by simp) (by simp)⟩
      simp [Entry.onVersioned, Entry.onTable_remove (refines.current.object member)]
  | startUndo =>
    have number : s.startUndo.1 = v.start.revision := congrArg (· + 1) refines.revision
    refine ⟨_, _, _, v.start, rfl, refines.startUndo, ?_⟩
    rw [number]
    exact .level (by simp [Versioned.replay, Versioned.start]) (Or.inr (Or.inr ⟨rfl, rfl⟩))
  | undo =>
    obtain ⟨after, ran, agrees⟩ := refines.undo
    refine ⟨.returned, [.level .undo after.revision], after, v.undo, by simp [step, ran], agrees, ?_⟩
    rw [agrees.revision]
    exact .level (by simp [Versioned.replay]) (Or.inl v.undo_revision_le)
  | undoAll =>
    cases stack : s.undoStack with
    | nil => exact ⟨.returned, [], s, v, by simp [step, stack], refines, .nothing _ v⟩
    | cons top rest =>
      obtain ⟨after, ran, agrees⟩ := refines.undoTimes _ rfl
      refine ⟨.returned, [.level .undoAll after.revision], after, v.undoAll, ?_, agrees, ?_⟩
      · simp [step, stack, UndoMultiIndex.undoAll, ← ran]
      · rw [agrees.revision]
        exact .level (by simp [Versioned.replay]) (Or.inl (by simp [Versioned.undoAll]))
  | commit revision =>
    obtain ⟨reply, agrees⟩ := refines.commit revision
    refine ⟨_, _, _, v.commit revision, rfl, agrees, Or.inr ⟨revision, rfl, by rw [reply], rfl⟩, by simp, by simp, ?_,
      Or.inl (Int.le_refl _)⟩
    simp [reply, Versioned.commit]
  | setRevision revision =>
    have result := refines.setRevision revision
    split at result
    next throws =>
      obtain ⟨thrown, ran⟩ := result
      exact ⟨.threw, [], s, v, by simp [step, ran], refines, .nothing _ v⟩
    next accepted =>
      obtain ⟨after, ran, agrees⟩ := result
      simp only [not_or, not_not, Int.not_lt] at accepted
      refine ⟨.returned, [.level .revision revision], after, { v with revision }, by simp [step, ran], agrees,
        .level ?_ (Or.inr (Or.inl accepted.2.1))⟩
      simp [Versioned.replay, accepted]

/-- A commit of every level is recorded as what it is. -/
theorem Records.replayed {s : UndoMultiIndex T} {op : JournaledOp T} {v later : Versioned (Table T keys)}
    {entries : List (Entry T)} (records : Records op v later entries) (refines : s.Refines v) (all : CommitsAll s op) :
    entries.foldlM Entry.onVersioned v = some later := by
  obtain meaning | ⟨revision, rfl, rfl, rfl⟩ := records.meaning
  · exact meaning
  have dropped : v.commit v.revision = v.commit revision := by
    rcases all with closed | reached
    · simp [Versioned.commit, refines.saved_nil.mp closed, Versioned.keepAbove]
    · have reached : (v.revision - revision).toNat = 0 := by
        have := refines.revision
        omega
      simp [Versioned.commit, Versioned.keepAbove_eq, reached]
  simp [Entry.onVersioned, Versioned.replay, dropped]

/-- The calls run, the entries they write are replayed to the end, and nothing can
tell the two containers apart. -/
def Reproduced [Inhabited T] (keys : List (Comparator T)) (ops : List (JournaledOp T)) : Prop :=
  ∃ outputs live replayed, Run.run step (UndoMultiIndex.empty keys) ops = some (outputs, live) ∧
    replay UndoMultiIndex.target (UndoMultiIndex.empty keys) (Recording.recorded outputs) = .ok replayed ∧ replayed.Alike live

/-- The entries of a call that leaves no level open when it commits do what the call does. -/
theorem stepped_replayed (s : UndoMultiIndex T) (v : Versioned (Table T keys)) (op : JournaledOp T) (refines : s.Refines v)
    (permitted : Succeeds s op ∧ CommitsAll s op ∧ UndoOp.Fits s op.toUndoOp) :
    ∃ reply entries after later, step s op = some ((reply, entries), after) ∧
      entries.foldlM Entry.onVersioned v = some later ∧ after.Refines later := by
  obtain ⟨succeeds, all, -⟩ := permitted
  obtain ⟨reply, entries, after, later, ran, agrees, records⟩ := stepped s v op refines succeeds
  exact ⟨reply, entries, after, later, ran, records.replayed refines all, agrees⟩

/-- The journal of every run whose commits leave no level open and whose revisions fit
reproduces the container. -/
theorem replay_reproduces [Inhabited T] (keys : List (Comparator T)) (ops : List (JournaledOp T))
    (permitted : Run.Permitted step (fun s op => Succeeds s op ∧ CommitsAll s op ∧ UndoOp.Fits s op.toUndoOp)
      (UndoMultiIndex.empty keys) ops) : Reproduced keys ops := by
  obtain ⟨outputs, live, v, ran, applied, refines⟩ :=
    Recording.run_replayed stepped_replayed (UndoMultiIndex.Refines.empty keys) permitted
  obtain ⟨last, replays, others⟩ := UndoMultiIndex.replay_applied (UndoMultiIndex.Refines.empty keys) .fresh applied
  exact ⟨outputs, live, last, ran, replays, others.alike refines⟩

theorem replay_reproduces_books : Reproduced bookKeys
    [.setRevision 4, .emplace fun id => some ⟨id, 1, 1⟩, .startUndo, .modify 0 fun book => ({ book with a := 3 }, false),
      .startUndo, .emplace fun id => some ⟨id, 1, 2⟩, .commit 6, .startUndo, .remove 0, .undo] :=
  replay_reproduces bookKeys _ (by decide)

/-- Two levels, of which a commit drops one. The replay of the commit drops both. -/
theorem commit_not_reproduced :
    let ops : List (JournaledOp Book) := [.emplace fun id => some ⟨id, 1, 1⟩, .startUndo, .startUndo, .commit 1]
    Run.Permitted step Succeeds (UndoMultiIndex.empty bookKeys) ops ∧ ¬ Reproduced bookKeys ops := by
  intro ops
  refine ⟨by decide, ?_⟩
  rintro ⟨outputs, live, replayed, ran, replays, alike⟩
  have depths : (Run.run step (UndoMultiIndex.empty bookKeys) ops).map (fun (outputs, live) =>
      (live.observe.depth, (replay UndoMultiIndex.target (UndoMultiIndex.empty bookKeys)
        (Recording.recorded outputs)).toOption.map fun replayed => replayed.observe.depth)) = some (1, some 0) := by
    decide
  simp only [ran, Option.map_some, replays, Except.toOption, alike.now, Option.some.injEq, Prod.mk.injEq] at depths
  omega

end JournaledOp
end ChainBase
