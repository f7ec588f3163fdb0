import ChainBase.Container.UndoLog

/-! The copying constructors of both containers. A copy has the objects and the
counters of the other container, and no undo stack. Its indices are built without a
look at what they answer. -/

namespace ChainBase
open OrderedSequence

namespace SetIndex
variable {T : Type}

/-- `insert_impl_nc<N>`: link the node into every index from here on that takes it. -/
def insertImplNc (value : Addr → T) (p : Addr) (indices : List (SetIndex T)) : List (SetIndex T) :=
  indices.map fun I =>
    match insertUnique (I.comp value) p I.tree with
    | .ok tree => { I with tree }
    | .error _ => I

end SetIndex

namespace MultiIndex
variable {T E : Type}

def pushCopy [Inhabited E] (s : MultiIndex T E) (item : T) : MultiIndex T E :=
  let p := s.fresh
  let built :=
    { s with fresh := p + 1, nodes := Function.update s.nodes p ⟨item, default, 0⟩, byId := s.byId ++ [p] }
  { built with indices := SetIndex.insertImplNc built.value p built.indices }

/-- `basic_multi_index(other, allocator)`. -/
def copy [Inhabited T] [Inhabited E] (other : MultiIndex T E) : MultiIndex T E :=
  (other.byId.map other.value).foldl pushCopy
    { MultiIndex.empty (other.indices.map SetIndex.keys) with nextId := other.nextId }

end MultiIndex

namespace UndoMultiIndex
variable {T : Type}

/-- `basic_undo_multi_index(other, allocator)`. -/
def copy [Inhabited T] (other : UndoMultiIndex T) : UndoMultiIndex T where
  toMultiIndex := other.toMultiIndex.copy
  undoStack := []
  oldValues := []
  removedValues := []
  freshOld := 0
  revision := other.revision
  monotonicRevision := other.monotonicRevision

end UndoMultiIndex

namespace MultiIndex
variable {T E : Type}

structure CopiedIndex (s : MultiIndex T E) (I : SetIndex T) : Prop where
  strict : StrictlySorted (I.comp s.value) I.tree
  inside : ∀ a ∈ I.tree, a ∈ s.byId
  complete : (s.byId.map s.value).Pairwise (fun v w => ¬ I.keys.Same v w) → I.tree.Perm s.byId

/-- A copy of these objects, of the first ones while the loop runs. -/
structure Copied [Inhabited E] (s : MultiIndex T E) (items : List T) : Prop where
  values : s.byId.map s.value = items
  nodup : s.byId.Nodup
  allocated : ∀ a, a ∈ s.byId ↔ a < s.fresh
  undisposed : ∀ a, s.disposed a = 0
  plain : ∀ a, (s.nodes a).extra = default ∧ (s.nodes a).color = 0
  indices : ∀ I ∈ s.indices, s.CopiedIndex I

variable [Inhabited E] {s : MultiIndex T E} {items : List T} {item : T}

private theorem pushCopy_old (copied : s.Copied items) (item : T) {a : Addr} (member : a ∈ s.byId) :
    (s.pushCopy item).value a = s.value a := by
  have other : a ≠ s.fresh := Nat.ne_of_lt ((copied.allocated a).mp member)
  simp [MultiIndex.value, pushCopy, other]

private theorem pushCopy_new (s : MultiIndex T E) (item : T) : (s.pushCopy item).value s.fresh = item := by
  simp [MultiIndex.value, pushCopy]

private theorem pushCopy_values (copied : s.Copied items) (item : T) :
    (s.pushCopy item).byId.map (s.pushCopy item).value = s.byId.map s.value ++ [item] := by
  change (s.byId ++ [s.fresh]).map _ = _
  rw [List.map_append, List.map_singleton, pushCopy_new, List.map_congr_left fun a member => pushCopy_old copied item member]

private theorem pushCopy_index (copied : s.Copied items) {I : SetIndex T} (index : s.CopiedIndex I) :
    (s.pushCopy item).CopiedIndex
      (match insertUnique (I.comp (s.pushCopy item).value) s.fresh I.tree with
        | .ok tree => { I with tree }
        | .error _ => I) := by
  have old : ∀ a ∈ s.byId, (s.pushCopy item).value a = s.value a := fun a member => pushCopy_old copied item member
  have byId : (s.pushCopy item).byId = s.byId ++ [s.fresh] := rfl
  have strict : StrictlySorted (I.comp (s.pushCopy item).value) I.tree := by
    refine List.Pairwise.imp_of_mem ?_ index.strict
    intro a b first second lower
    simpa only [SetIndex.comp, Comparator.comap_less, old a (index.inside a first), old b (index.inside b second)] using lower
  obtain ⟨linked, free⟩ | ⟨blocking, member, refused, same⟩ := insertUnique_cases (x := s.fresh) strict.sorted
  · rw [linked]
    refine ⟨insertEqual_strictlySorted strict free, ?_, ?_⟩
    · intro a member
      rw [byId, List.mem_append, List.mem_singleton]
      rcases mem_insertEqual.mp member with rfl | before
      · exact .inr rfl
      · exact .inl (index.inside a before)
    · intro different
      rw [pushCopy_values copied] at different
      have before := index.complete (List.pairwise_append.mp different).1
      rw [byId]
      exact (insertEqual_perm _ _ _).trans ((before.cons _).trans (List.perm_append_singleton _ _).symm)
  · rw [refused]
    refine ⟨strict, ?_, ?_⟩
    · intro a inside
      rw [byId]
      exact List.mem_append_left _ (index.inside a inside)
    · intro different
      rw [pushCopy_values copied] at different
      have apart := (List.pairwise_append.mp different).2.2 (s.value blocking)
        (List.mem_map_of_mem (index.inside blocking member)) item (List.mem_singleton_self item)
      rw [SetIndex.comp, Comparator.comap_same, pushCopy_new, old blocking (index.inside blocking member)] at same
      exact absurd same.symm apart

theorem Copied.push (copied : s.Copied items) (item : T) : (s.pushCopy item).Copied (items ++ [item]) where
  values := by rw [pushCopy_values copied, copied.values]
  nodup := by
    change (s.byId ++ [s.fresh]).Nodup
    have absent : s.fresh ∉ s.byId := fun member => absurd ((copied.allocated _).mp member) (Nat.lt_irrefl _)
    exact (List.perm_append_singleton _ _).nodup_iff.mpr (List.nodup_cons.mpr ⟨absent, copied.nodup⟩)
  allocated a := by
    change a ∈ s.byId ++ [s.fresh] ↔ a < s.fresh + 1
    rw [List.mem_append, List.mem_singleton, copied.allocated]
    exact Nat.lt_succ_iff_lt_or_eq.symm
  undisposed := copied.undisposed
  plain a := by
    by_cases new : a = s.fresh
    · simp [pushCopy, new]
    · simpa [pushCopy, new] using copied.plain a
  indices J member := by
    obtain ⟨I, index, rfl⟩ := List.mem_map.mp member
    exact pushCopy_index copied (copied.indices I index)

theorem Copied.pushAll (copied : s.Copied items) (more : List T) : (more.foldl pushCopy s).Copied (items ++ more) := by
  induction more generalizing s items with
  | nil => rwa [List.append_nil]
  | cons item more ih =>
    rw [List.append_cons]
    exact ih (copied.push item)

theorem copied [Inhabited T] (s : MultiIndex T E) : s.copy.Copied (s.byId.map s.value) := by
  have start : ({ MultiIndex.empty (s.indices.map SetIndex.keys) with nextId := s.nextId } : MultiIndex T E).Copied [] := by
    refine ⟨rfl, .nil, by simp [empty], by simp [empty], by simp [empty], ?_⟩
    intro I member
    obtain ⟨k, -, rfl⟩ := List.mem_map.mp member
    exact ⟨.nil, by simp, fun _ => .nil⟩
  exact start.pushAll (s.byId.map s.value)

private theorem pushCopy_keys (s : MultiIndex T E) (item : T) :
    (s.pushCopy item).indices.map SetIndex.keys = s.indices.map SetIndex.keys := by
  simp only [pushCopy, SetIndex.insertImplNc, List.map_map]
  refine List.map_congr_left fun I _ => ?_
  simp only [Function.comp_apply]
  split <;> rfl

private theorem pushAll_frame (s : MultiIndex T E) (items : List T) :
    (items.foldl pushCopy s).indices.map SetIndex.keys = s.indices.map SetIndex.keys ∧
      (items.foldl pushCopy s).nextId = s.nextId := by
  induction items generalizing s with
  | nil => exact ⟨rfl, rfl⟩
  | cons item items ih =>
    obtain ⟨keys, nextId⟩ := ih (s.pushCopy item)
    exact ⟨keys.trans (pushCopy_keys s item), nextId⟩

theorem copy_frame [Inhabited T] (s : MultiIndex T E) :
    s.copy.indices.map SetIndex.keys = s.indices.map SetIndex.keys ∧ s.copy.nextId = s.nextId := by
  obtain ⟨keys, nextId⟩ := pushAll_frame
    ({ MultiIndex.empty (s.indices.map SetIndex.keys) with nextId := s.nextId } : MultiIndex T E) (s.byId.map s.value)
  refine ⟨keys.trans ?_, nextId⟩
  simp [empty, Function.comp_def]

/-! ## The copy of a container whose objects have keys of their own -/

section Distinct
variable [Object T]

theorem Linked.copy [Inhabited T] (linked : s.Linked) (distinct : s.Distinct) : s.copy.Linked := by
  have made := copied s
  obtain ⟨keys, nextId⟩ := copy_frame s
  constructor
  · have sorted : (s.byId.map s.value).Pairwise fun v w => Object.id v < Object.id w := List.pairwise_map.mpr linked.sorted
    rw [← made.values, List.pairwise_map] at sorted
    exact sorted
  · intro I index
    have placed := made.indices I index
    refine ⟨placed.complete ?_, placed.strict.sorted⟩
    obtain ⟨J, original, same⟩ := List.mem_map.mp (keys ▸ List.mem_map_of_mem (f := SetIndex.keys) index)
    rw [made.values, ← same, List.pairwise_map]
    refine List.Pairwise.imp_of_mem ?_ linked.nodup
    intro a b first second different
    exact distinct a first J original b second (Ne.symm different)
  · intro a member
    obtain ⟨b, inside, same⟩ := List.mem_map.mp (made.values ▸ List.mem_map_of_mem (f := s.copy.value) member)
    have low := linked.below b inside
    rw [id, same] at low
    exact nextId ▸ low
  · intro a member
    exact ⟨(made.allocated a).mp member, made.undisposed a⟩
  · intro a _
    exact made.undisposed a

theorem copy_represents [Inhabited T] (linked : s.Linked) (distinct : s.Distinct) :
    s.copy.Represents (s.table linked distinct) :=
  (represents_table linked distinct).of_values (linked.copy distinct) (copy_frame s).1 (copy_frame s).2 (copied s).values

end Distinct
end MultiIndex

namespace UndoMultiIndex
variable {T : Type} [Object T] {keys : List (Comparator T)} {s : UndoMultiIndex T}

theorem Sound.copy [Inhabited T] (sound : s.Sound) (distinct : s.Distinct) : s.copy.Sound := by
  have made := MultiIndex.copied s.toMultiIndex
  have plain : ∀ a, s.copy.isRemoved a = false := by
    intro a
    change ((s.toMultiIndex.copy.nodes a).color == MultiIndex.erasedFlag) = false
    rw [(made.plain a).2]
    rfl
  have linked := sound.housed.linked.copy distinct
  constructor
  · constructor
    · exact linked
    · exact .nil
    · exact fun a _ => plain a
    · simp [UndoMultiIndex.copy]
    · simp [UndoMultiIndex.copy]
    · simp [UndoMultiIndex.copy]
    · intro a b first second same
      have member : ∀ c, s.copy.Kept s.copy.removedValues c → c ∈ s.copy.byId := fun c inside =>
        inside.elim (fun here => here) fun impossible => by cases impossible
      exact linked.id_injective (member a first) (member b second) same
    · simp [UndoMultiIndex.copy]
    · intro a allocated
      exact .inl (.inl ((made.allocated a).mpr allocated))
  · simp [UndoMultiIndex.copy]
  · exact CutList.layers_nil _
  · exact CutList.layers_nil _
  · simp [UndoMultiIndex.copy]
  · exact .nil
  · simp [UndoMultiIndex.copy]

omit [Object T] in
theorem stamped_copy [Inhabited T] (s : UndoMultiIndex T) : s.copy.Stamped where
  nodes a := by
    have zero : s.copy.mtime a = 0 :=
      congrArg UndoNodeExtra.mtime ((MultiIndex.copied s.toMultiIndex).plain a).1
    rw [zero]
    exact Nat.zero_le _
  backups := by simp [UndoMultiIndex.copy]

theorem Sound.copy_refines [Inhabited T] (sound : s.Sound) (distinct : s.Distinct) :
    s.copy.Refines ⟨s.table sound.housed.linked distinct, [], s.revision⟩ := by
  refine Refines.of_stands ⟨sound.copy distinct, ?_, rfl, rfl⟩ (stamped_copy s) .nil
  exact MultiIndex.copy_represents sound.housed.linked distinct

theorem Sound.commit_refines (sound : s.Sound) (stamped : s.Stamped) (distinct : s.Distinct) :
    (s.commit s.revision).2.Refines ⟨s.table sound.housed.linked distinct, [], s.revision⟩ := by
  have represents := MultiIndex.represents_table sound.housed.linked distinct
  have committed : (s.commit s.revision).2 = { s.disposeUndo with undoStack := [] } := by
    simp [UndoMultiIndex.commit]
  have kept := sound.commit s.revision
  have stamps := stamped.commit s.revision
  rw [committed] at kept stamps ⊢
  refine Refines.of_stands ⟨kept, ?_, rfl, rfl⟩ stamps .nil
  refine represents.congr kept.housed.linked ?_ ?_ ?_ ?_ <;>
    simp only [UndoMultiIndex.disposeUndo, MultiIndex.disposeNodes_eq]
  exact fun _ _ => rfl

/-- The log of a container without levels, when all stamps there are count as one. -/
def logOf (t : Table T keys) (monotonicRevision : Nat) : UndoLog T where
  cells i := (t.objects i).map fun item => (item, monotonicRevision)
  levels := []
  monotonicRevision := monotonicRevision
  floor := monotonicRevision

theorem Refines.keeps {v : Versioned (Table T keys)} (refines : s.Refines v) (stack : s.undoStack = [])
    (removed : s.removedValues = []) : s.Keeps (logOf v.current s.monotonicRevision) where
  cells a inside := by
    rw [removed] at inside
    have linked : a ∈ s.byId := inside.elim (fun here => here) fun impossible => by cases impossible
    have rounded : max (s.mtime a) s.monotonicRevision = s.monotonicRevision := max_eq_right (refines.stamps a)
    simp only [logOf, refines.current.object linked, Option.map_some, rounded]
  levels := by rw [stack]; rfl
  monotonic := rfl
  recent := by simp [stack]
  reached := Nat.le_refl _

end UndoMultiIndex
end ChainBase
