import ChainBase.Container.MultiIndex
import Mathlib.Data.List.Nodup

/-! What the indices of a container have in common in every state it stops in,
and what each of its operations does to a container in such a state. Keys may
repeat here: that is the weaker order an undo passes through. -/

namespace ChainBase
open OrderedSequence

namespace MultiIndex
variable {T E : Type}

@[simp] theorem setItem_value_self (s : MultiIndex T E) (a : Addr) (item : T) : (s.setItem a item).value a = item := by
  simp [setItem, value]

theorem setItem_value_other (s : MultiIndex T E) {a b : Addr} (item : T) (other : b ≠ a) :
    (s.setItem a item).value b = s.value b := by
  simp [setItem, value, other]

@[simp] theorem setItem_byId (s : MultiIndex T E) (a : Addr) (item : T) : (s.setItem a item).byId = s.byId := rfl
@[simp] theorem setItem_indices (s : MultiIndex T E) (a : Addr) (item : T) : (s.setItem a item).indices = s.indices := rfl

@[simp] theorem setItem_setItem (s : MultiIndex T E) (a : Addr) (first second : T) :
    (s.setItem a first).setItem a second = s.setItem a second := by
  simp [setItem]

@[simp] theorem setItem_value (s : MultiIndex T E) (a : Addr) : s.setItem a (s.value a) = s := by
  simp [setItem, value]

private theorem updated_value (nodes : Addr → Node T E) {a p : Addr} (node : Node T E) (other : a ≠ p) :
    (Function.update nodes p node a).item = (nodes a).item := by simp [other]

variable [Object T]

/-- Every index links the same live nodes, each in its own order. -/
structure Linked (s : MultiIndex T E) : Prop where
  sorted : s.byId.Pairwise (fun a b => s.id a < s.id b)
  placed : ∀ I ∈ s.indices, SetIndex.Placed s.value s.byId I
  below : ∀ a ∈ s.byId, s.id a < s.nextId
  owned : ∀ a ∈ s.byId, a < s.fresh ∧ s.disposed a = 0
  unused : ∀ a, s.fresh ≤ a → s.disposed a = 0

/-- No node but `p` shares a secondary key with this object. -/
def Clear (s : MultiIndex T E) (p : Addr) (item : T) : Prop :=
  ∀ I ∈ s.indices, ∀ a ∈ s.byId, a ≠ p → ¬ I.keys.Same item (s.value a)

instance (s : MultiIndex T E) (p : Addr) (item : T) : Decidable (s.Clear p item) :=
  inferInstanceAs (Decidable (∀ I ∈ s.indices, ∀ b ∈ s.byId, b ≠ p → ¬ I.keys.Same item (s.value b)))

/-- No two nodes share a secondary key. -/
def Distinct (s : MultiIndex T E) : Prop := ∀ a ∈ s.byId, s.Clear a (s.value a)

theorem Linked.nodup {s : MultiIndex T E} (linked : s.Linked) : s.byId.Nodup :=
  linked.sorted.imp fun lower same => absurd (same ▸ lower) (Nat.lt_irrefl _)

theorem Linked.mem_tree {s : MultiIndex T E} (linked : s.Linked) {I : SetIndex T} (index : I ∈ s.indices) {a : Addr} :
    a ∈ I.tree ↔ a ∈ s.byId := SetIndex.mem_tree (linked.placed I index)

theorem Linked.id_injective {s : MultiIndex T E} (linked : s.Linked) {a b : Addr} (first : a ∈ s.byId) (second : b ∈ s.byId)
    (same : s.id a = s.id b) : a = b := by
  have apart : (s.byId.map s.id).Nodup := List.pairwise_map.mpr (linked.sorted.imp Nat.ne_of_lt)
  exact List.inj_on_of_nodup_map apart first second same

theorem mem_of_named {s : MultiIndex T E} {i : Nat} {a : Addr} (named : s.named i = some a) : a ∈ s.byId ∧ s.id a = i :=
  ⟨List.mem_of_find?_eq_some named, by simpa using List.find?_some named⟩

theorem mem_of_find {s : MultiIndex T E} {i : Nat} {a : Addr} (found : s.find i = some a) : a ∈ s.byId ∧ s.id a = i := by
  obtain ⟨bound, matched⟩ := Option.filter_eq_some_iff.mp found
  exact ⟨(List.dropWhile_suffix _).subset (List.mem_of_mem_head? bound), by simpa using matched⟩

theorem Linked.named_id {s : MultiIndex T E} (linked : s.Linked) {a : Addr} (member : a ∈ s.byId) :
    s.named (s.id a) = some a := by
  cases named : s.named (s.id a) with
  | none => exact absurd (decide_eq_true rfl) (List.find?_eq_none.mp named a member)
  | some b =>
    obtain ⟨inside, same⟩ := mem_of_named named
    rw [linked.id_injective inside member same]

/-- While the ids are in order, the search finds the object there is. -/
theorem Linked.find_id {s : MultiIndex T E} (linked : s.Linked) {a : Addr} (member : a ∈ s.byId) :
    s.find (s.id a) = some a := by
  obtain ⟨front, back, parts⟩ := List.append_of_mem member
  have sorted := linked.sorted
  rw [parts] at sorted
  have lower : ∀ b ∈ front, decide (s.id b < s.id a) = true := fun b inside =>
    decide_eq_true ((List.pairwise_append.mp sorted).2.2 b inside a (by simp))
  rw [find, parts, List.dropWhile_append_of_pos lower]
  simp

theorem Linked.find_eq_named {s : MultiIndex T E} (linked : s.Linked) (i : Nat) : s.find i = s.named i := by
  cases named : s.named i with
  | some a =>
    obtain ⟨member, rfl⟩ := mem_of_named named
    exact linked.find_id member
  | none =>
    refine Option.eq_none_iff_forall_ne_some.mpr fun a found => ?_
    obtain ⟨member, same⟩ := mem_of_find found
    exact absurd (decide_eq_true same) (List.find?_eq_none.mp named a member)

/-- Only the ids, objects and lifetimes of linked nodes matter. -/
theorem Linked.congr {s after : MultiIndex T E} (linked : s.Linked) (byId : after.byId = s.byId)
    (indices : after.indices = s.indices) (nextId : after.nextId = s.nextId)
    (values : ∀ a ∈ s.byId, after.value a = s.value a) (owned : ∀ a ∈ s.byId, a < after.fresh ∧ after.disposed a = 0)
    (unused : ∀ a, after.fresh ≤ a → after.disposed a = 0) : after.Linked where
  sorted := by
    rw [byId]
    refine List.Pairwise.imp_of_mem ?_ linked.sorted
    intro a b first second lower
    simpa only [id, values a first, values b second] using lower
  placed := by
    rw [byId, indices]
    exact fun I index => (linked.placed I index).congr values
  below := by
    rw [byId, nextId]
    intro a member
    simpa only [id, values a member] using linked.below a member
  owned := by rwa [byId]
  unused := unused

theorem Linked.unlink {s after : MultiIndex T E} (linked : s.Linked) (p : Addr) (byId : after.byId = s.byId.erase p)
    (indices : after.indices = SetIndex.eraseImpl p s.indices) (nextId : after.nextId = s.nextId)
    (fresh : after.fresh = s.fresh) (values : ∀ a ∈ s.byId, a ≠ p → after.value a = s.value a)
    (disposed : ∀ a, a ≠ p → after.disposed a = s.disposed a) (present : p ∈ s.byId) : after.Linked := by
  have kept : ∀ a ∈ s.byId.erase p, a ∈ s.byId ∧ a ≠ p := fun a member =>
    ((linked.nodup.mem_erase_iff).mp member).symm
  constructor
  · rw [byId]
    refine List.Pairwise.imp_of_mem ?_ (List.Pairwise.sublist List.erase_sublist linked.sorted)
    intro a b first second lower
    simpa only [id, values a (kept a first).1 (kept a first).2, values b (kept b second).1 (kept b second).2] using lower
  · rw [byId, indices]
    intro I index
    obtain ⟨I, original, rfl⟩ := List.mem_map.mp index
    exact ((linked.placed I original).erase p).congr fun a member => values a (kept a member).1 (kept a member).2
  · rw [byId, nextId]
    intro a member
    simpa only [id, values a (kept a member).1 (kept a member).2] using linked.below a (kept a member).1
  · rw [byId]
    intro a member
    rw [disposed a (kept a member).2, fresh]
    exact linked.owned a (kept a member).1
  · intro a beyond
    have other : a ≠ p := by
      rintro rfl
      have live := (linked.owned a present).1
      lia
    rw [disposed a other]
    exact linked.unused a (fresh ▸ beyond)

/-! ## Emplacing -/

/-- A node for `item`, linked at the end of the ids and in every secondary index. -/
def linkNew [Inhabited E] (s : MultiIndex T E) (item : T) : MultiIndex T E :=
  let nodes := Function.update s.nodes s.fresh ⟨item, default, 0⟩
  { s with
    nodes
    fresh := s.fresh + 1
    byId := s.byId ++ [s.fresh]
    indices := s.indices.map (SetIndex.insert (fun a => (nodes a).item) s.fresh)
    nextId := (Object.id item + 1) % Object.ids T }

/-- A node that was allocated for nothing: its memory is all that changes. -/
def wasteNode (s : MultiIndex T E) (nodes : Addr → Node T E) : MultiIndex T E :=
  { s with nodes, fresh := s.fresh + 1 }.disposeNode s.fresh

variable [Inhabited E] {s : MultiIndex T E} {constructor : Nat → Option T} {item : T}

omit [Inhabited E] in
private theorem Linked.fresh_absent (linked : s.Linked) : s.fresh ∉ s.byId :=
  fun member => absurd (linked.owned _ member).1 (Nat.lt_irrefl _)

omit [Inhabited E] in
private theorem Linked.ne_fresh (linked : s.Linked) {a : Addr} (member : a ∈ s.byId) : a ≠ s.fresh :=
  fun same => linked.fresh_absent (same ▸ member)

theorem emplace_threw (throws : constructor s.nextId = none) :
    s.emplace constructor = (.error .user, s.wasteNode s.nodes) := by
  simp [emplace, throws, wasteNode]

theorem emplace_refused (linked : s.Linked) (constructs : constructor s.nextId = some item)
    (taken : ¬ s.Clear s.fresh item) :
    s.emplace constructor =
      (.error couldNotInsert, s.wasteNode (Function.update s.nodes s.fresh ⟨item, default, 0⟩)) := by
  have blocked := SetIndex.insertImpl_blocked (p := s.fresh)
    (fun a => ((Function.update s.nodes s.fresh ⟨item, default, 0⟩ : Addr → Node T E) a).item) s.indices
    (fun I index => ((linked.placed I index).congr fun a member =>
      updated_value s.nodes _ (linked.ne_fresh member)).sorted)
    (fun I index member => linked.fresh_absent ((linked.mem_tree index).mp member))
    (by
      by_contra all
      apply taken
      intro I index a member other same
      apply all
      refine ⟨I, index, fun free => free a ((linked.mem_tree index).mpr member) other ?_⟩
      simpa [SetIndex.comp, Comparator.comap_same, value, other] using same)
  simp only [emplace, constructs, wasteNode]
  unfold value
  rw [blocked]

theorem emplace_accepted (linked : s.Linked) (constructs : constructor s.nextId = some item)
    (clear : s.Clear s.fresh item) : s.emplace constructor = (.ok s.fresh, s.linkNew item) := by
  have linkedAll := SetIndex.insertImpl_free (p := s.fresh)
    (fun a => ((Function.update s.nodes s.fresh ⟨item, default, 0⟩ : Addr → Node T E) a).item) s.indices
    (fun I index => ((linked.placed I index).congr fun a member =>
      updated_value s.nodes _ (linked.ne_fresh member)).sorted)
    (fun I index => ⟨fun member => linked.fresh_absent ((linked.mem_tree index).mp member), fun a member other same => by
      refine clear I index a ((linked.mem_tree index).mp member) other ?_
      simpa [SetIndex.comp, Comparator.comap_same, value, other] using same⟩)
  simp only [emplace, constructs, linkNew]
  unfold value
  rw [linkedAll]

omit [Inhabited E] in
theorem Linked.wasteNode (linked : s.Linked) {nodes : Addr → Node T E}
    (same : ∀ a, a ≠ s.fresh → nodes a = s.nodes a) : (s.wasteNode nodes).Linked := by
  refine linked.congr rfl rfl rfl ?_ ?_ ?_
  · intro a member
    simp only [MultiIndex.wasteNode, disposeNode, value, same a (linked.ne_fresh member)]
  · intro a member
    have owned := linked.owned a member
    simp only [MultiIndex.wasteNode, disposeNode, Function.update_of_ne (linked.ne_fresh member)]
    exact ⟨by lia, owned.2⟩
  · intro a beyond
    simp only [MultiIndex.wasteNode, disposeNode] at beyond ⊢
    rw [Function.update_of_ne (by lia)]
    exact linked.unused a (by lia)

@[simp] theorem linkNew_value_self : (s.linkNew item).value s.fresh = item := by simp [linkNew, value]

theorem linkNew_value_other {a : Addr} (other : a ≠ s.fresh) : (s.linkNew item).value a = s.value a := by
  simp [linkNew, value, other]

theorem linkNew_nextId {nextId : Nat} (follows : Object.Follows nextId item) : (s.linkNew item).nextId = Object.id item + 1 :=
  Nat.mod_eq_of_lt follows.2

theorem Linked.linkNew (linked : s.Linked) (follows : Object.Follows s.nextId item) : (s.linkNew item).Linked := by
  obtain ⟨ascending, room⟩ := follows
  have values : ∀ a ∈ s.byId, (s.linkNew item).value a = s.value a := fun a member =>
    linkNew_value_other (linked.ne_fresh member)
  have ids : ∀ a ∈ s.byId, (s.linkNew item).id a = s.id a := fun a member => congrArg Object.id (values a member)
  have newId : (s.linkNew item).id s.fresh = Object.id item := congrArg Object.id linkNew_value_self
  constructor
  · refine List.pairwise_append.mpr ⟨?_, by simp, ?_⟩
    · refine List.Pairwise.imp_of_mem ?_ linked.sorted
      intro a b first second lower
      rwa [ids a first, ids b second]
    · intro a member b last
      obtain rfl : b = s.fresh := by simpa using last
      rw [ids a member, newId]
      exact (linked.below a member).trans_le ascending
  · intro I index
    obtain ⟨I, original, rfl⟩ := List.mem_map.mp index
    exact SetIndex.Placed.insert ((linked.placed I original).congr values) List.perm_append_comm
  · intro a member
    rw [linkNew_nextId ⟨ascending, room⟩]
    rcases List.mem_append.mp member with member | last
    · rw [ids a member]
      exact (linked.below a member).trans_le (ascending.trans (Nat.le_succ _))
    · obtain rfl : a = s.fresh := by simpa using last
      rw [newId]
      exact Nat.lt_succ_self _
  · intro a member
    rcases List.mem_append.mp member with member | last
    · exact ⟨(linked.owned a member).1.trans (Nat.lt_succ_self _), (linked.owned a member).2⟩
    · obtain rfl : a = s.fresh := by simpa using last
      exact ⟨Nat.lt_succ_self _, linked.unused _ (Nat.le_refl _)⟩
  · intro a beyond
    exact linked.unused a (Nat.le_of_succ_le beyond)

end MultiIndex
end ChainBase
