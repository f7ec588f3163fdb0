import ChainBase.Container.Represents
import ChainBase.Library.Run

/-! Runs of `basic_multi_index` refine runs of a table with unique keys, through
every way an operation can fail. -/

namespace ChainBase
open OrderedSequence

/-- The calls of a plain container. Modified and removed objects are named by
their id; a call needs a reference to an existing object, so naming a missing one
stands for no call at all. -/
inductive PlainOp (T : Type) where
  | emplace (constructor : Nat → Option T)
  | modify (id : Nat) (modifier : T → T × Bool)
  | remove (id : Nat)

namespace PlainOp
variable {T : Type} [Object T] {keys : List (Comparator T)}

def step (s : MultiIndex T Unit) : PlainOp T → Option (Bool × MultiIndex T Unit)
  | emplace constructor =>
    match s.emplace constructor with
    | (.ok _, after) => some (true, after)
    | (.error _, after) => some (false, after)
  | modify id modifier =>
    match s.named id with
    | none => some (true, s)
    | some a =>
      let (thrown, after) := s.modify a modifier
      some (thrown.isNone, after)
  | remove id =>
    match s.named id with
    | none => some (true, s)
    | some a => some (true, s.remove a)

noncomputable def spec (t : Table T keys) : PlainOp T → Bool × Table T keys
  | emplace constructor => t.emplace constructor
  | modify id modifier => t.modify id modifier
  | remove id => (true, t.remove id)

/-- The contract `emplace` asserts: a constructor keeps the id it is given, or
raises it. -/
def Contract (s : MultiIndex T Unit) : PlainOp T → Prop
  | emplace constructor => ∀ v, constructor s.nextId = some v → Object.Follows s.nextId v
  | _ => True

instance (s : MultiIndex T Unit) : ∀ op, Decidable (Contract s op)
  | emplace constructor => inferInstanceAs (Decidable (∀ v ∈ constructor s.nextId, Object.Follows s.nextId v))
  | modify _ _ | remove _ => inferInstanceAs (Decidable True)

end PlainOp

namespace MultiIndex
variable {T E : Type} [Object T] {keys : List (Comparator T)}

/-- A container and a table show the same: objects by id and next id; every index,
the first included, contains exactly the objects of the table, in strictly
increasing order of its key; and every id is below the next one. -/
structure Agrees (s : MultiIndex T E) (t : Table T keys) : Prop where
  found : ∀ id, (s.find id).map s.value = t.objects id
  nextId : s.nextId = t.nextId
  keys : s.indices.map SetIndex.keys = keys
  contents : ∀ tree ∈ s.byId :: s.indices.map SetIndex.tree, ∀ v, v ∈ tree.map s.value ↔ t.objects (Object.id v) = some v
  byId : StrictlySorted (idKeys.comap s.value) s.byId
  indices : ∀ I ∈ s.indices, StrictlySorted (I.comp s.value) I.tree
  below : ∀ id v, t.objects id = some v → id < t.nextId

theorem Represents.agrees {s : MultiIndex T E} {t : Table T keys} (represents : s.Represents t) : s.Agrees t where
  found := represents.find_eq
  nextId := represents.nextId
  keys := represents.keys
  contents := by
    have first : ∀ v, v ∈ s.byId.map s.value ↔ t.objects (Object.id v) = some v := by
      intro v
      rw [represents.objects, List.mem_map]
      constructor
      · rintro ⟨a, member, rfl⟩
        exact ⟨a, member, rfl, rfl⟩
      · rintro ⟨a, member, -, same⟩
        exact ⟨a, member, same⟩
    intro tree index v
    rcases List.mem_cons.mp index with rfl | index
    · exact first v
    · obtain ⟨I, inside, rfl⟩ := List.mem_map.mp index
      rw [((represents.linked.placed I inside).perm.map s.value).mem_iff]
      exact first v
  byId := by
    refine represents.linked.sorted.imp ?_
    intro a b lower
    exact decide_eq_true lower
  indices I index := by
    have placed := represents.linked.placed I index
    refine placed.sorted.strictly ?_
    refine List.Pairwise.imp_of_mem ?_ (placed.perm.nodup_iff.mpr represents.linked.nodup)
    intro a b first second different
    exact represents.distinct a (placed.perm.mem_iff.mp first) I index b (placed.perm.mem_iff.mp second) (Ne.symm different)
  below := t.below

end MultiIndex

namespace PlainOp
variable {T : Type} [Object T] {keys : List (Comparator T)}

theorem simulated (s : MultiIndex T Unit) (t : Table T keys) (op : PlainOp T) (represents : s.Represents t)
    (contract : Contract s op) : ∃ after, step s op = some ((spec t op).1, after) ∧ after.Represents (spec t op).2 := by
  cases op with
  | emplace constructor =>
    have sameNext := represents.nextId
    cases constructs : constructor s.nextId with
    | none =>
      refine ⟨s.wasteNode s.nodes, ?_, ?_⟩
      · simp [step, spec, MultiIndex.emplace_threw constructs, Table.emplace_threw (sameNext ▸ constructs)]
      · rw [spec, Table.emplace_threw (sameNext ▸ constructs)]
        exact represents.wasteNode fun _ _ => rfl
    | some v =>
      have follows : Object.Follows t.nextId v := sameNext ▸ contract v constructs
      have ascending : t.nextId ≤ Object.id v := follows.1
      by_cases free : t.Free (Object.id v) v
      · have clear := (represents.clear_fresh ascending).mpr free
        refine ⟨s.linkNew v, ?_, ?_⟩
        · simp [step, spec, MultiIndex.emplace_accepted represents.linked constructs clear,
            Table.emplace_accepted (sameNext ▸ constructs) ascending free]
        · rw [spec, Table.emplace_accepted (sameNext ▸ constructs) ascending free]
          exact represents.linkNew follows free
      · have taken := fun clear => free ((represents.clear_fresh ascending).mp clear)
        refine ⟨s.wasteNode (Function.update s.nodes s.fresh ⟨v, default, 0⟩), ?_, ?_⟩
        · simp [step, spec, MultiIndex.emplace_refused represents.linked constructs taken,
            Table.emplace_refused (sameNext ▸ constructs) free]
        · rw [spec, Table.emplace_refused (sameNext ▸ constructs) free]
          exact represents.wasteNode fun a other => Function.update_of_ne other _ _
  | modify id modifier =>
    cases found : s.named id with
    | none =>
      have missing := represents.named_none found
      exact ⟨s, by simp [step, spec, found, Table.modify_missing missing],
        by simpa [spec, Table.modify_missing missing] using represents⟩
    | some a =>
      obtain ⟨member, rfl⟩ := represents.named_some found
      have object := represents.object member
      by_cases kept : Object.id (modifier (s.value a)).1 = s.id a ∧ t.Free (s.id a) (modifier (s.value a)).1
      · have clear := (represents.clear_member member).mpr kept.2
        refine ⟨s.settle a (modifier (s.value a)).1, ?_, ?_⟩
        · simp only [step, spec, found, MultiIndex.modify, MultiIndex.modifyWithRevert_kept represents.linked kept.1 clear,
            Table.modify_kept object kept.1 kept.2]
          cases (modifier (s.value a)).2 <;> rfl
        · rw [spec, Table.modify_kept object kept.1 kept.2]
          exact represents.settle member kept.1 kept.2
      · have bad : ¬ (Object.id (modifier (s.value a)).1 = s.id a ∧ s.Clear a (modifier (s.value a)).1) :=
          fun both => kept ⟨both.1, (represents.clear_member member).mp both.2⟩
        refine ⟨(s.setItem a (modifier (s.value a)).1).remove a, ?_, ?_⟩
        · simp only [step, spec, found, MultiIndex.modify, MultiIndex.modifyWithRevert_erased represents.linked member bad,
            Table.modify_erased object kept]
          cases (modifier (s.value a)).2 <;> rfl
        · rw [spec, Table.modify_erased object kept]
          exact represents.remove member _
  | remove id =>
    cases found : s.named id with
    | none =>
      have missing := represents.named_none found
      refine ⟨s, by simp [step, spec, found], ?_⟩
      have same : t.remove id = t := by
        refine Table.ext (funext fun j => ?_) rfl
        by_cases own : j = id <;> simp [Table.remove, Table.erase, own, missing]
      simpa [spec, same] using represents
    | some a =>
      obtain ⟨member, rfl⟩ := represents.named_some found
      refine ⟨s.remove a, by simp [step, spec, found], ?_⟩
      have removed := represents.remove member (s.value a)
      rwa [MultiIndex.setItem_value] at removed

/-- Every run of `emplace`, `modify` and `remove` from an empty container is a run
of the table, with the same calls returning and failing, for any secondary keys. -/
theorem multiIndex_refines_table [Inhabited T] (keys : List (Comparator T)) (ops : List (PlainOp T))
    (contract : Run.Permitted step Contract (MultiIndex.empty keys) ops) :
    ∃ s, Run.run step (MultiIndex.empty keys) ops = some ((Run.follow spec (Table.empty keys) ops).1, s) ∧
      s.Agrees (Run.follow spec (Table.empty keys) ops).2 := by
  obtain ⟨s, ran, represents⟩ := Run.simulates simulated (MultiIndex.Represents.empty (E := Unit) keys) contract
  exact ⟨s, ran, represents.agrees⟩

theorem multiIndex_refines_table_books :
    let ops : List (PlainOp Book) :=
      [.emplace fun id => some ⟨id, 1, 1⟩, .emplace fun id => some ⟨id, 2, 2⟩, .emplace fun id => some ⟨id, 3, 1⟩,
        .emplace fun _ => none, .modify 0 fun book => ({ book with b := 2 }, false),
        .modify 1 fun book => ({ book with a := 1 }, true), .remove 1]
    ∃ s, Run.run step (MultiIndex.empty bookKeys) ops = some ((Run.follow spec (Table.empty bookKeys) ops).1, s) ∧
      s.Agrees (Run.follow spec (Table.empty bookKeys) ops).2 := by
  intro ops
  exact multiIndex_refines_table bookKeys ops (by decide)

/-- Behind the largest id the next id is 0 again, and the only book is not below it. -/
theorem largest_id_not_below :
    ∃ s, Run.run step (MultiIndex.empty bookKeys) [.emplace fun _ => some lastBook] = some ([true], s) ∧
      ∀ t : Table Book bookKeys, ¬ s.Agrees t := by
  refine ⟨_, rfl, fun t agrees => ?_⟩
  have found := agrees.found (Object.id lastBook)
  have below := agrees.below _ _ found.symm
  rw [← agrees.nextId] at below
  cases below

end PlainOp
end ChainBase
