import ChainBase.Container.Modify
import ChainBase.Container.Table

/-! When a container is a table: what each operation on the nodes and indices
does to the table they represent. -/

namespace ChainBase
open OrderedSequence

namespace MultiIndex
variable {T E : Type} [Object T] {keys : List (Comparator T)}

structure Represents (s : MultiIndex T E) (t : Table T keys) : Prop where
  linked : s.Linked
  keys : s.indices.map SetIndex.keys = keys
  nextId : s.nextId = t.nextId
  objects : ∀ i v, t.objects i = some v ↔ ∃ a ∈ s.byId, s.id a = i ∧ s.value a = v

namespace Represents
variable {s : MultiIndex T E} {t : Table T keys} {a : Addr} {item : T}

theorem object (represents : s.Represents t) (member : a ∈ s.byId) : t.objects (s.id a) = some (s.value a) :=
  (represents.objects _ _).mpr ⟨a, member, rfl, rfl⟩

theorem node (represents : s.Represents t) {i : Nat} {v : T} (found : t.objects i = some v) :
    ∃ a ∈ s.byId, s.id a = i ∧ s.value a = v := (represents.objects i v).mp found

theorem find_eq (represents : s.Represents t) (i : Nat) : (s.find i).map s.value = t.objects i := by
  cases object : t.objects i with
  | some v =>
    obtain ⟨a, member, rfl, rfl⟩ := represents.node object
    rw [represents.linked.find_id member, Option.map_some]
  | none =>
    refine Option.map_eq_none_iff.mpr (Option.eq_none_iff_forall_ne_some.mpr fun a found => ?_)
    obtain ⟨member, rfl⟩ := mem_of_find found
    cases object.symm.trans (represents.object member)

theorem find_some (_ : s.Represents t) {i : Nat} (found : s.find i = some a) : a ∈ s.byId ∧ s.id a = i := mem_of_find found

theorem find_none (represents : s.Represents t) {i : Nat} (missing : s.find i = none) : t.objects i = none := by
  rw [← represents.find_eq, missing]
  rfl

theorem named_some (_ : s.Represents t) {i : Nat} (named : s.named i = some a) : a ∈ s.byId ∧ s.id a = i := mem_of_named named

theorem named_none (represents : s.Represents t) {i : Nat} (missing : s.named i = none) : t.objects i = none :=
  represents.find_none ((represents.linked.find_eq_named i).trans missing)

theorem unique {u : Table T keys} (represents : s.Represents t) (again : s.Represents u) : t = u := by
  refine Table.ext (funext fun i => ?_) (represents.nextId.symm.trans again.nextId)
  rw [← represents.find_eq, again.find_eq]

theorem same_iff (represents : s.Represents t) {v w : T} :
    (∃ I ∈ s.indices, I.keys.Same v w) ↔ ∃ k ∈ keys, k.Same v w := by
  rw [← represents.keys]
  simp

theorem clear_iff (represents : s.Represents t) {p : Addr} {i : Nat} (apart : ∀ a ∈ s.byId, a ≠ p ↔ s.id a ≠ i) :
    s.Clear p item ↔ t.Free i item := by
  constructor
  · intro clear j w found other k key same
    obtain ⟨a, member, rfl, rfl⟩ := represents.node found
    obtain ⟨I, index, shared⟩ := represents.same_iff.mpr ⟨k, key, same⟩
    exact clear I index a member ((apart a member).mpr other) shared
  · intro free I index a member other same
    obtain ⟨k, key, shared⟩ := represents.same_iff.mp ⟨I, index, same⟩
    exact free _ _ (represents.object member) ((apart a member).mp other) k key shared

theorem clear_fresh (represents : s.Represents t) {i : Nat} (ascending : t.nextId ≤ i) :
    s.Clear s.fresh item ↔ t.Free i item := by
  refine represents.clear_iff fun a member => ⟨fun _ => ?_, fun _ => ?_⟩
  · have lower := represents.linked.below a member
    rw [represents.nextId] at lower
    omega
  · have live := (represents.linked.owned a member).1
    lia

theorem clear_member (represents : s.Represents t) (member : a ∈ s.byId) : s.Clear a item ↔ t.Free (s.id a) item := by
  refine represents.clear_iff fun b inside => not_congr ⟨fun same => same ▸ rfl, fun same => ?_⟩
  exact represents.linked.id_injective inside member same

theorem distinct (represents : s.Represents t) : s.Distinct := by
  intro a member I index b inside other same
  obtain ⟨k, key, shared⟩ := represents.same_iff.mp ⟨I, index, same⟩
  have equal := t.unique k key _ _ _ _ (represents.object member) (represents.object inside) shared
  exact other (represents.linked.id_injective inside member equal.symm)

theorem congr {after : MultiIndex T E} (represents : s.Represents t) (linked : after.Linked) (byId : after.byId = s.byId)
    (indices : after.indices = s.indices) (nextId : after.nextId = s.nextId)
    (values : ∀ a ∈ s.byId, after.value a = s.value a) : after.Represents t where
  linked := linked
  keys := by rw [indices, represents.keys]
  nextId := nextId.trans represents.nextId
  objects i v := by
    rw [represents.objects, byId]
    constructor
    · rintro ⟨a, member, rfl, rfl⟩
      exact ⟨a, member, congrArg Object.id (values a member), values a member⟩
    · rintro ⟨a, member, rfl, rfl⟩
      exact ⟨a, member, (congrArg Object.id (values a member)).symm, (values a member).symm⟩

theorem wasteNode (represents : s.Represents t) {nodes : Addr → Node T E}
    (same : ∀ a, a ≠ s.fresh → nodes a = s.nodes a) : (s.wasteNode nodes).Represents t := by
  refine represents.congr (represents.linked.wasteNode same) rfl rfl rfl ?_
  intro a member
  have live := (represents.linked.owned a member).1
  exact congrArg Node.item (same a (by lia))

theorem linkNew [Inhabited E] (represents : s.Represents t) (follows : Object.Follows t.nextId item)
    (free : t.Free (Object.id item) item) : (s.linkNew item).Represents (t.insert item follows.1 free) where
  linked := represents.linked.linkNew (represents.nextId ▸ follows)
  keys := by
    rw [← represents.keys]
    simp [MultiIndex.linkNew, SetIndex.insert]
  nextId := linkNew_nextId follows
  objects i v := by
    have others : ∀ a ∈ s.byId, (s.linkNew item).value a = s.value a := by
      intro a member
      have live := (represents.linked.owned a member).1
      exact linkNew_value_other (by lia)
    constructor
    · intro found
      by_cases own : i = Object.id item
      · subst own
        simp only [Table.insert, Function.update_self, Option.some.injEq] at found
        subst found
        exact ⟨s.fresh, by simp [MultiIndex.linkNew], by simp [id], by simp⟩
      · simp only [Table.insert, Function.update_of_ne own] at found
        obtain ⟨a, member, rfl, rfl⟩ := represents.node found
        exact ⟨a, by simp [MultiIndex.linkNew, member], congrArg Object.id (others a member), others a member⟩
    · rintro ⟨a, member, rfl, rfl⟩
      rcases List.mem_append.mp member with member | last
      · have old := represents.object member
        have lower := t.below _ _ old
        have kept : (s.linkNew item).id a = s.id a := congrArg Object.id (others a member)
        simp only [Table.insert]
        rw [kept, others a member, Function.update_of_ne (Nat.ne_of_lt (lower.trans_le follows.1))]
        exact old
      · obtain rfl : a = s.fresh := by simpa using last
        simp [Table.insert, id]

theorem settle (represents : s.Represents t) (member : a ∈ s.byId) (keyed : Object.id item = s.id a)
    (free : t.Free (s.id a) item) : (s.settle a item).Represents
      (t.replace (s.id a) item keyed (t.below _ _ (represents.object member)) free) where
  linked := represents.linked.settle member keyed
  keys := by
    rw [← represents.keys]
    simp [MultiIndex.settle, SetIndex.reposition]
  nextId := represents.nextId
  objects i v := by
    constructor
    · intro found
      by_cases own : i = s.id a
      · subst own
        simp only [Table.replace, Function.update_self, Option.some.injEq] at found
        subst found
        exact ⟨a, member, settle_id keyed a, settle_value_self⟩
      · simp only [Table.replace, Function.update_of_ne own] at found
        obtain ⟨b, inside, rfl, rfl⟩ := represents.node found
        have other : b ≠ a := fun same => own (same ▸ rfl)
        exact ⟨b, inside, settle_id keyed b, settle_value_other other⟩
    · rintro ⟨b, inside, rfl, rfl⟩
      rw [settle_id keyed]
      by_cases own : b = a
      · subst own
        simp [Table.replace]
      · have apart : s.id b ≠ s.id a := fun same => own (represents.linked.id_injective inside member same)
        simp only [Table.replace]
        rw [Function.update_of_ne apart, settle_value_other own]
        exact represents.object inside

theorem unlink {after : MultiIndex T E} (represents : s.Represents t) (member : a ∈ s.byId) (linked : after.Linked)
    (byId : after.byId = s.byId.erase a) (keys : after.indices.map SetIndex.keys = s.indices.map SetIndex.keys)
    (nextId : after.nextId = s.nextId) (values : ∀ b ∈ s.byId, b ≠ a → after.value b = s.value b) :
    after.Represents (t.erase (s.id a)) where
  linked := linked
  keys := keys.trans represents.keys
  nextId := nextId.trans represents.nextId
  objects i v := by
    rw [byId]
    simp only [represents.linked.nodup.mem_erase_iff]
    constructor
    · intro found
      by_cases own : i = s.id a
      · simp [Table.erase, own] at found
      · simp only [Table.erase, Function.update_of_ne own] at found
        obtain ⟨b, inside, rfl, rfl⟩ := represents.node found
        have other : b ≠ a := fun same => own (same ▸ rfl)
        exact ⟨b, ⟨other, inside⟩, congrArg Object.id (values b inside other), values b inside other⟩
    · rintro ⟨b, ⟨other, inside⟩, rfl, rfl⟩
      have kept : after.id b = s.id b := congrArg Object.id (values b inside other)
      have apart : s.id b ≠ s.id a := fun same => other (represents.linked.id_injective inside member same)
      simp only [Table.erase]
      rw [kept, Function.update_of_ne apart, values b inside other]
      exact represents.object inside

theorem remove (represents : s.Represents t) (member : a ∈ s.byId) (item : T) :
    ((s.setItem a item).remove a).Represents (t.erase (s.id a)) :=
  represents.unlink member (represents.linked.remove member item) rfl
    (by simp [MultiIndex.remove, eraseImpl, disposeNode, SetIndex.eraseImpl])
    rfl (fun _ _ other => setItem_value_other s item other)

/-- The same objects in the same order of ids are the same table. -/
theorem of_values {u : MultiIndex T E} (represents : s.Represents t) (linked : u.Linked)
    (keys : u.indices.map SetIndex.keys = s.indices.map SetIndex.keys) (nextId : u.nextId = s.nextId)
    (values : u.byId.map u.value = s.byId.map s.value) : u.Represents t where
  linked := linked
  keys := keys.trans represents.keys
  nextId := nextId.trans represents.nextId
  objects i v := by
    have listed : ∀ w : MultiIndex T E, (∃ a ∈ w.byId, w.id a = i ∧ w.value a = v) ↔ v ∈ w.byId.map w.value ∧ Object.id v = i := by
      intro w
      rw [List.mem_map]
      constructor
      · rintro ⟨a, member, keyed, rfl⟩
        exact ⟨⟨a, member, rfl⟩, keyed⟩
      · rintro ⟨⟨a, member, rfl⟩, keyed⟩
        exact ⟨a, member, keyed, rfl⟩
    rw [represents.objects, listed, listed, values]

theorem empty [Inhabited T] [Inhabited E] (keys : List (Comparator T)) :
    (MultiIndex.empty keys : MultiIndex T E).Represents (Table.empty keys) where
  linked := by
    refine ⟨.nil, ?_, by simp [MultiIndex.empty], by simp [MultiIndex.empty], fun _ _ => rfl⟩
    intro I index
    obtain ⟨k, -, rfl⟩ := List.mem_map.mp index
    exact ⟨List.Perm.refl _, .nil⟩
  keys := by simp [MultiIndex.empty, Function.comp_def]
  nextId := rfl
  objects i v := by simp [MultiIndex.empty, Table.empty]

end Represents

/-- The table of a container in which no two objects share a secondary key. -/
def table (s : MultiIndex T E) (linked : s.Linked) (distinct : s.Distinct) : Table T (s.indices.map SetIndex.keys) where
  objects i := (s.find i).map s.value
  nextId := s.nextId
  keyed i v found := by
    obtain ⟨a, here, rfl⟩ := Option.map_eq_some_iff.mp found
    exact (mem_of_find here).2
  below i v found := by
    obtain ⟨a, here, rfl⟩ := Option.map_eq_some_iff.mp found
    obtain ⟨member, rfl⟩ := mem_of_find here
    exact linked.below a member
  unique k key i j v w first second same := by
    obtain ⟨a, here, rfl⟩ := Option.map_eq_some_iff.mp first
    obtain ⟨b, there, rfl⟩ := Option.map_eq_some_iff.mp second
    obtain ⟨I, index, rfl⟩ := List.mem_map.mp key
    obtain ⟨left, rfl⟩ := mem_of_find here
    obtain ⟨right, rfl⟩ := mem_of_find there
    by_contra different
    refine distinct a left I index b right ?_ same
    rintro rfl
    exact different rfl

theorem represents_table {s : MultiIndex T E} (linked : s.Linked) (distinct : s.Distinct) :
    s.Represents (s.table linked distinct) where
  linked := linked
  keys := rfl
  nextId := rfl
  objects i v := by
    constructor
    · intro found
      obtain ⟨a, here, rfl⟩ := Option.map_eq_some_iff.mp found
      exact ⟨a, (mem_of_find here).1, (mem_of_find here).2, rfl⟩
    · rintro ⟨a, member, rfl, rfl⟩
      exact congrArg (Option.map s.value) (linked.find_id member)

end MultiIndex
end ChainBase
