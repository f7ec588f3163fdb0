import ChainBase.Journal.Replay

/-! `journaled<basic_multi_index>` and calls that fail. No entry is written for a call
that throws, though a modification that throws may have removed or changed its object. -/

namespace ChainBase
open OrderedSequence

namespace PlainOp
variable {T : Type} [Object T] {keys : List (Comparator T)}

/-- One call, whether it returns, and the entries it writes. -/
def journaledStep (s : MultiIndex T Unit) : PlainOp T → Option ((Bool × List (Entry T)) × MultiIndex T Unit)
  | emplace constructor =>
    match s.emplace constructor with
    | (.ok a, after) => some ((true, [.insert (after.value a)]), after)
    | (.error _, after) => some ((false, []), after)
  | modify id modifier =>
    match s.named id with
    | none => some ((true, []), s)
    | some a =>
      match s.modify a modifier with
      | (none, after) => some ((true, [.modify (after.id a) (after.value a)]), after)
      | (some _, after) => some ((false, []), after)
  | remove id =>
    match s.named id with
    | none => some ((true, []), s)
    | some a => some ((true, [.remove (s.id a)]), s.remove a)

/-- A modification makes an object the container accepts, and leaves the object as it
was if it throws. -/
def Recorded (s : MultiIndex T Unit) : PlainOp T → Prop
  | modify id modifier => ∀ a, s.named id = some a →
      Object.id (modifier (s.value a)).1 = s.id a ∧ s.Clear a (modifier (s.value a)).1 ∧
        ((modifier (s.value a)).2 = true → (modifier (s.value a)).1 = s.value a)
  | _ => True

instance [DecidableEq T] (s : MultiIndex T Unit) : ∀ op, Decidable (Recorded s op)
  | modify id modifier => inferInstanceAs (Decidable (∀ a ∈ s.named id,
      Object.id (modifier (s.value a)).1 = s.id a ∧ s.Clear a (modifier (s.value a)).1 ∧
        ((modifier (s.value a)).2 = true → (modifier (s.value a)).1 = s.value a)))
  | emplace _ | remove _ => inferInstanceAs (Decidable True)

private theorem emplace_journaled {s : MultiIndex T Unit} {t : Table T keys} (represents : s.Represents t)
    {constructor : Nat → Option T} (contract : ∀ v, constructor s.nextId = some v → Object.Follows s.nextId v) :
    ∃ reply entries after later, journaledStep s (emplace constructor) = some ((reply, entries), after) ∧
      entries.foldlM Entry.onTable t = some later ∧ after.Represents later := by
  cases constructs : constructor s.nextId with
  | none =>
    refine ⟨false, [], s.wasteNode s.nodes, t, ?_, rfl, represents.wasteNode fun _ _ => rfl⟩
    simp [journaledStep, MultiIndex.emplace_threw constructs]
  | some item =>
    have follows : Object.Follows t.nextId item := represents.nextId ▸ contract item constructs
    by_cases free : t.Free (Object.id item) item
    · have clear := (represents.clear_fresh follows.1).mpr free
      refine ⟨true, [.insert item], s.linkNew item, _, ?_, ?_, represents.linkNew follows free⟩
      · simp [journaledStep, MultiIndex.emplace_accepted represents.linked constructs clear]
      · simp [Entry.onTable_insert follows free]
    · have taken := fun clear => free ((represents.clear_fresh follows.1).mp clear)
      refine ⟨false, [], s.wasteNode (Function.update s.nodes s.fresh ⟨item, default, 0⟩), t, ?_, rfl,
        represents.wasteNode fun a other => Function.update_of_ne other _ _⟩
      simp [journaledStep, MultiIndex.emplace_refused represents.linked constructs taken]

private theorem modify_journaled {s : MultiIndex T Unit} {t : Table T keys} (represents : s.Represents t) {id : Nat}
    {modifier : T → T × Bool} (recorded : Recorded s (modify id modifier)) :
    ∃ reply entries after later, journaledStep s (modify id modifier) = some ((reply, entries), after) ∧
      entries.foldlM Entry.onTable t = some later ∧ after.Represents later := by
  cases found : s.named id with
  | none => exact ⟨true, [], s, t, by simp [journaledStep, found], rfl, represents⟩
  | some a =>
    obtain ⟨member, rfl⟩ := represents.named_some found
    obtain ⟨keyed, clear, harmless⟩ := recorded a found
    have object := represents.object member
    have free := (represents.clear_member member).mp clear
    have settled := represents.settle member keyed free
    have kept := MultiIndex.modifyWithRevert_kept represents.linked keyed clear none
    have value : (s.settle a (modifier (s.value a)).1).value a = (modifier (s.value a)).1 := MultiIndex.settle_value_self
    cases threw : (modifier (s.value a)).2 with
    | false =>
      refine ⟨true, [.modify (s.id a) (modifier (s.value a)).1], _, _, ?_, ?_, settled⟩
      · simp [journaledStep, found, MultiIndex.modify, kept, threw, MultiIndex.modifyThrows, MultiIndex.settle_id keyed, value]
      · simp [Entry.onTable_modify object keyed free]
    | true =>
      have same : t.replace (s.id a) (modifier (s.value a)).1 keyed (t.below _ _ object) free = t :=
        Table.replace_same (object.trans (congrArg some (harmless threw).symm)) _ _ _
      refine ⟨false, [], s.settle a (modifier (s.value a)).1, t, ?_, rfl, by rwa [same] at settled⟩
      simp [journaledStep, found, MultiIndex.modify, kept, threw, MultiIndex.modifyThrows]

theorem journaled_stepped (s : MultiIndex T Unit) (t : Table T keys) (op : PlainOp T) (represents : s.Represents t)
    (permitted : Contract s op ∧ Recorded s op) : ∃ reply entries after later,
      journaledStep s op = some ((reply, entries), after) ∧ entries.foldlM Entry.onTable t = some later ∧
        after.Represents later := by
  cases op with
  | emplace constructor => exact emplace_journaled represents permitted.1
  | modify id modifier => exact modify_journaled represents permitted.2
  | remove id =>
    cases found : s.named id with
    | none => exact ⟨true, [], s, t, by simp [journaledStep, found], rfl, represents⟩
    | some a =>
      obtain ⟨member, rfl⟩ := represents.named_some found
      have removed := represents.remove member (s.value a)
      rw [MultiIndex.setItem_value] at removed
      refine ⟨true, [.remove (s.id a)], s.remove a, _, by simp [journaledStep, found], ?_, removed⟩
      simp [Entry.onTable_remove (represents.object member)]

/-- The calls run, and the replay of their entries has the contents of the live
container in every index, and its next id. -/
def Reproduced [Inhabited T] (keys : List (Comparator T)) (ops : List (PlainOp T)) : Prop :=
  ∃ outputs live replayed, Run.run journaledStep (MultiIndex.empty keys) ops = some (outputs, live) ∧
    replay MultiIndex.target (MultiIndex.empty keys) (Recording.recorded outputs) = .ok replayed ∧
    replayed.contents = live.contents ∧ replayed.nextId = live.nextId

/-- Objects that cannot be emplaced do no harm, and neither do modifiers that throw
before they change anything. -/
theorem failed_calls_reproduced [Inhabited T] (keys : List (Comparator T)) (ops : List (PlainOp T))
    (permitted : Run.Permitted journaledStep (fun s op => Contract s op ∧ Recorded s op) (MultiIndex.empty keys) ops) :
    Reproduced keys ops := by
  have fresh := MultiIndex.Represents.empty (E := Unit) keys
  obtain ⟨outputs, live, t, ran, applied, represents⟩ := Recording.run_replayed journaled_stepped fresh permitted
  obtain ⟨last, replays, others⟩ := MultiIndex.replay_applied fresh applied
  exact ⟨outputs, live, last, ran, replays, others.agrees.contents_eq represents.agrees,
    others.nextId.trans represents.nextId.symm⟩

theorem failed_calls_reproduced_books : Reproduced bookKeys
    [.emplace fun id => some ⟨id, 1, 1⟩, .emplace fun id => some ⟨id, 1, 2⟩, .emplace fun _ => none,
      .emplace fun id => some ⟨id, 2, 2⟩, .modify 0 fun book => (book, true), .modify 1 fun book => ({ book with b := 3 }, false)] :=
  failed_calls_reproduced bookKeys _ (by decide)

/-- A modification that collides removes its book, which the replay still has. -/
theorem erased_book_replayed :
    let ops : List (PlainOp Book) :=
      [.emplace fun id => some ⟨id, 1, 1⟩, .emplace fun id => some ⟨id, 2, 2⟩, .modify 0 fun book => ({ book with a := 2 }, false)]
    Run.Permitted journaledStep Contract (MultiIndex.empty bookKeys) ops ∧ ¬ Reproduced bookKeys ops := by
  intro ops
  refine ⟨by decide, ?_⟩
  rintro ⟨outputs, live, replayed, ran, replays, same, -⟩
  have sizes : (Run.run journaledStep (MultiIndex.empty bookKeys) ops).map (fun (outputs, live) =>
      (live.contents.map List.length, (replay MultiIndex.target (MultiIndex.empty bookKeys)
        (Recording.recorded outputs)).toOption.map fun replayed => replayed.contents.map List.length)) =
          some ([1, 1, 1], some [2, 2, 2]) := by
    decide
  simp only [ran, Option.map_some, replays, Except.toOption, same, Option.some.injEq, Prod.mk.injEq] at sizes
  exact absurd (sizes.1.symm.trans sizes.2) (by decide)

end PlainOp
end ChainBase
