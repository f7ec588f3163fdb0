import ChainBase.Container.Modify
import ChainBase.Container.UndoMultiIndex

/-! What the base operations behind `undo` do to a linked container: cutting off
the new ids, putting an object back while keys may repeat, and linking a removed
node again. -/

namespace ChainBase
open OrderedSequence

namespace MultiIndex
variable {T : Type}

section Fields
variable (s : MultiIndex T UndoNodeExtra) (a b : Addr) (item : T) (time : Nat) (color : Int)

@[simp] theorem setMtime_value : (s.setMtime a time).value = s.value := by
  funext b
  by_cases same : b = a <;> simp [setMtime, value, same]

@[simp] theorem setMtime_mtime : (s.setMtime a time).mtime = Function.update s.mtime a time := by
  funext b
  by_cases same : b = a <;> simp [setMtime, mtime, same]

@[simp] theorem setMtime_isRemoved : (s.setMtime a time).isRemoved b = s.isRemoved b := by
  by_cases same : b = a <;> simp [setMtime, isRemoved, same]

@[simp] theorem setItem_value_eq : (s.setItem a item).value = Function.update s.value a item := by
  funext b
  by_cases same : b = a <;> simp [setItem, value, same]

@[simp] theorem setItem_mtime : (s.setItem a item).mtime = s.mtime := by
  funext b
  by_cases same : b = a <;> simp [setItem, mtime, same]

@[simp] theorem setItem_isRemoved : (s.setItem a item).isRemoved b = s.isRemoved b := by
  by_cases same : b = a <;> simp [setItem, isRemoved, same]

@[simp] theorem setRemovedField_value : (s.setRemovedField a color).value = s.value := by
  funext b
  by_cases same : b = a <;> simp [setRemovedField, value, same]

@[simp] theorem setRemovedField_mtime : (s.setRemovedField a color).mtime = s.mtime := by
  funext b
  by_cases same : b = a <;> simp [setRemovedField, mtime, same]

theorem setRemovedField_isRemoved :
    (s.setRemovedField a color).isRemoved b = if b = a then color == erasedFlag else s.isRemoved b := by
  by_cases same : b = a <;> simp [setRemovedField, isRemoved, same]

end Fields

/-- One round of the loop of `undo` over the old values, on a node that is still
there. -/
def restoreOne (s : MultiIndex T UndoNodeExtra) (e : OldNode T) : MultiIndex T UndoNodeExtra :=
  if s.isRemoved e.current then s.takeBack e else (s.settle e.current e.item).setMtime e.current e.mtime

section RestoreOne
variable (s : MultiIndex T UndoNodeExtra) (e : OldNode T)

@[simp] theorem restoreOne_byId : (s.restoreOne e).byId = s.byId := by unfold restoreOne; split <;> rfl
@[simp] theorem restoreOne_nextId : (s.restoreOne e).nextId = s.nextId := by unfold restoreOne; split <;> rfl
@[simp] theorem restoreOne_fresh : (s.restoreOne e).fresh = s.fresh := by unfold restoreOne; split <;> rfl
@[simp] theorem restoreOne_disposed : (s.restoreOne e).disposed = s.disposed := by unfold restoreOne; split <;> rfl

@[simp] theorem restoreOne_keys : (s.restoreOne e).indices.map SetIndex.keys = s.indices.map SetIndex.keys := by
  unfold restoreOne
  split
  · rfl
  · change ((s.settle e.current e.item).indices).map SetIndex.keys = _
    simp [settle, SetIndex.reposition]

@[simp] theorem restoreOne_value : (s.restoreOne e).value = Function.update s.value e.current e.item := by
  unfold restoreOne
  split
  · rw [takeBack, setMtime_value, setItem_value_eq]
  · rw [setMtime_value]
    exact setItem_value_eq s e.current e.item

@[simp] theorem restoreOne_mtime : (s.restoreOne e).mtime = Function.update s.mtime e.current e.mtime := by
  unfold restoreOne
  split
  · rw [takeBack, setMtime_mtime, setItem_mtime]
  · rw [setMtime_mtime]
    exact congrArg (Function.update · e.current e.mtime) (setItem_mtime s e.current e.item)

@[simp] theorem restoreOne_isRemoved (a : Addr) : (s.restoreOne e).isRemoved a = s.isRemoved a := by
  unfold restoreOne
  split
  · rw [takeBack, setMtime_isRemoved, setItem_isRemoved]
  · rw [setMtime_isRemoved]
    exact setItem_isRemoved s e.current a e.item

end RestoreOne

private theorem count_disposed (disposed : Addr → Nat) (p : Addr) (rest : List Addr) :
    (fun a => Function.update disposed p (disposed p + 1) a + rest.count a) = fun a => disposed a + (p :: rest).count a := by
  funext a
  by_cases same : a = p
  · subst same
    simp only [Function.update_self, List.count_cons_self]
    omega
  · rw [Function.update_of_ne same, List.count_cons_of_ne (Ne.symm same)]

theorem disposeNodes_eq {E : Type} (s : MultiIndex T E) (l : List Addr) :
    s.disposeNodes l = { s with disposed := fun a => s.disposed a + l.count a } := by
  induction l generalizing s with
  | nil => rfl
  | cons p rest ih =>
    rw [disposeNodes, List.foldl_cons]
    change (s.disposeNode p).disposeNodes rest = _
    rw [ih]
    simp only [disposeNode]
    congr 1
    exact count_disposed _ p rest

variable [Object T]

@[simp] theorem setMtime_id (s : MultiIndex T UndoNodeExtra) (a : Addr) (time : Nat) : (s.setMtime a time).id = s.id := by
  funext b
  simp [id]

@[simp] theorem setRemovedField_id (s : MultiIndex T UndoNodeExtra) (a : Addr) (color : Int) :
    (s.setRemovedField a color).id = s.id := by
  funext b
  simp [id]

variable {s : MultiIndex T UndoNodeExtra} {a : Addr} {item : T}

/-! ## Putting an object back -/

omit [Object T] in
theorem setMtime_postModify (s : MultiIndex T UndoNodeExtra) (unique : Bool) (a : Addr) (time : Nat) :
    ((s.setMtime a time).postModify unique a).2 = (s.postModify unique a).2.setMtime a time := by
  simp only [postModify, setMtime_value]
  rfl

/-- The object goes where its old keys belong, next to others of the same keys. -/
theorem takeBack_postModify (linked : s.Linked) (old : OldNode T) :
    ((s.takeBack old).postModify false old.current).2 = (s.settle old.current old.item).setMtime old.current old.mtime := by
  rw [takeBack, setMtime_postModify]
  have moved := SetIndex.postModifyImpl_free (p := old.current) false
    (fun I (index : I ∈ s.indices) => ((linked.placed I index).displaced linked.nodup fun _ _ other =>
      setItem_value_other s old.item other).disturbed linked.nodup)
    (fun impossible => by cases impossible)
  simp only [postModify, setItem_indices, moved, settle]

/-! ## Linking a removed node -/

/-- The node goes into every index, the first included. -/
def link {E : Type} (s : MultiIndex T E) (a : Addr) : MultiIndex T E :=
  { s with
    byId := insertEqual (idKeys.comap s.value) a s.byId
    indices := s.indices.map (SetIndex.insert s.value a) }

variable {E : Type} {u : MultiIndex T E}

private theorem first_index_sorted (linked : u.Linked) :
    ∀ I ∈ (⟨idKeys, u.byId⟩ :: u.indices : List (SetIndex T)), Sorted (I.comp u.value) I.tree := by
  intro I index
  rcases List.mem_cons.mp index with rfl | index
  · refine linked.sorted.imp ?_
    intro b c lower
    simp only [SetIndex.comp, idKeys, Comparator.comap_less, Comparator.ofKey_less, decide_eq_false_iff_not]
    exact Nat.not_lt.mpr (Nat.le_of_lt lower)
  · exact (linked.placed I index).sorted

private theorem id_same {b : Addr} : (SetIndex.comp u.value ⟨idKeys, u.byId⟩).Same a b ↔ u.id a = u.id b := by
  simp only [SetIndex.comp, idKeys, Comparator.Same, Comparator.comap_less, Comparator.ofKey_less, decide_eq_false_iff_not, id]
  omega

theorem insert_clear (linked : u.Linked) (absent : a ∉ u.byId) (clear : u.Clear a (u.value a))
    (newId : ∀ b ∈ u.byId, u.id a ≠ u.id b) : u.insert a = (true, u.link a) := by
  have linkedAll := SetIndex.insertImpl_free (p := a) _ _ (first_index_sorted linked) (by
    intro I index
    rcases List.mem_cons.mp index with rfl | index
    · exact ⟨absent, fun b member _ same => newId b member (id_same.mp same)⟩
    · refine ⟨fun member => absent ((linked.mem_tree index).mp member), fun b member other same => ?_⟩
      exact clear I index b ((linked.mem_tree index).mp member) other same)
  simp only [insert, linkedAll, List.map_cons]
  rfl

theorem insert_ok (linked : u.Linked) (absent : a ∉ u.byId) (newId : ∀ b ∈ u.byId, u.id a ≠ u.id b)
    (ok : (u.insert a).1 = true) : u.insert a = (true, u.link a) := by
  by_cases clear : u.Clear a (u.value a)
  · exact insert_clear linked absent clear newId
  · exfalso
    have blocked := SetIndex.insertImpl_blocked (p := a) _ _ (first_index_sorted linked)
      (by
        intro I index
        rcases List.mem_cons.mp index with rfl | index
        · exact absent
        · exact fun member => absent ((linked.mem_tree index).mp member))
      (by
        by_contra all
        apply clear
        intro I index b member other same
        apply all
        exact ⟨I, by simp [index], fun free => free b ((linked.mem_tree index).mpr member) other same⟩)
    simp [insert, blocked] at ok

theorem mem_link {b : Addr} : b ∈ (u.link a).byId ↔ b = a ∨ b ∈ u.byId := mem_insertEqual

theorem Linked.link (linked : u.Linked) (newId : ∀ b ∈ u.byId, u.id a ≠ u.id b) (below : u.id a < u.nextId)
    (owned : a < u.fresh ∧ u.disposed a = 0) : (u.link a).Linked where
  sorted := by
    have strict : StrictlySorted (idKeys.comap u.value) u.byId := linked.sorted.imp fun lower => decide_eq_true lower
    refine List.Pairwise.imp ?_ (insertEqual_strictlySorted strict (x := a) ?_)
    · intro b c lower
      exact of_decide_eq_true lower
    · intro b member same
      exact newId b member (id_same.mp same)
  placed := by
    intro I index
    obtain ⟨I, original, rfl⟩ := List.mem_map.mp index
    exact SetIndex.Placed.insert (linked.placed I original) (insertEqual_perm _ _ _)
  below b member := by
    rcases mem_link.mp member with rfl | member
    · exact below
    · exact linked.below b member
  owned b member := by
    rcases mem_link.mp member with rfl | member
    · exact owned
    · exact linked.owned b member
  unused := linked.unused

/-! ## Cutting off the new ids -/

omit [Object T] in
private theorem unlinkAll_eq (newIds : List Addr) (u : MultiIndex T E) :
    newIds.foldl (fun s a => { s with indices := SetIndex.eraseImpl a s.indices }.disposeNode a) u =
      { u with
        indices := u.indices.map fun I => { I with tree := newIds.foldl List.erase I.tree }
        disposed := fun a => u.disposed a + newIds.count a } := by
  induction newIds generalizing u with
  | nil => simp
  | cons p rest ih =>
    rw [List.foldl_cons, ih]
    simp only [disposeNode, SetIndex.eraseImpl, List.map_map, List.foldl_cons]
    congr 1
    exact count_disposed _ p rest

omit [Object T] in
private theorem placed_unlinkAll {value : Addr → T} {kept newIds : List Addr} {I : SetIndex T}
    (placed : SetIndex.Placed value (kept ++ newIds) I) :
    SetIndex.Placed value kept { I with tree := newIds.foldl List.erase I.tree } := by
  induction newIds generalizing I with
  | nil => simpa using placed
  | cons p rest ih =>
    have front : SetIndex.Placed value (p :: (kept ++ rest)) I :=
      ⟨placed.perm.trans List.perm_middle, placed.sorted⟩
    have erased := front.erase p
    rw [List.erase_cons_head] at erased
    exact ih erased

theorem cut_eq {l : List Addr} (sorted : l.Pairwise (fun a b => u.id a < u.id b)) (bound : Nat) :
    (l.takeWhile fun a => u.id a < bound) = l.filter (fun a => u.id a < bound) ∧
    (l.dropWhile fun a => u.id a < bound) = l.filter (fun a => bound ≤ u.id a) := by
  induction l with
  | nil => simp
  | cons p rest ih =>
    obtain ⟨first, others⟩ := List.pairwise_cons.mp sorted
    by_cases low : u.id p < bound
    · have rest := ih others
      have notHigh : ¬ bound ≤ u.id p := Nat.not_le.mpr low
      simp [low, rest.1, rest.2, notHigh]
    · have high : ∀ b ∈ rest, ¬ u.id b < bound := fun b member => by
        have later := first b member
        omega
      have none : rest.filter (fun a => decide (u.id a < bound)) = [] := by simpa using high
      have all : rest.filter (fun a => decide (bound ≤ u.id a)) = rest := by
        refine List.filter_eq_self.mpr fun b member => ?_
        simpa using high b member
      simp [low, none, all, Nat.not_lt.mp low]

/-- The new ids leave every index and are disposed; nothing else changes. -/
theorem eraseNewIds_eq (linked : u.Linked) (bound : Nat) :
    ∃ indices, u.eraseNewIds bound =
        { u with
          byId := u.byId.filter (fun a => u.id a < bound)
          indices
          disposed := fun a => u.disposed a + if a ∈ u.byId ∧ bound ≤ u.id a then 1 else 0 } ∧
      indices.map SetIndex.keys = u.indices.map SetIndex.keys ∧
      ∀ I ∈ indices, SetIndex.Placed u.value (u.byId.filter (fun a => u.id a < bound)) I := by
  obtain ⟨kept, gone⟩ := cut_eq linked.sorted bound
  refine ⟨u.indices.map fun I => { I with tree := (u.byId.filter (fun a => bound ≤ u.id a)).foldl List.erase I.tree },
    ?_, by simp, ?_⟩
  · simp only [eraseNewIds, unlinkAll_eq, kept, gone]
    congr 1
    funext a
    have nodup : (u.byId.filter (fun a => decide (bound ≤ u.id a))).Nodup := linked.nodup.filter _
    rw [nodup.count]
    simp
  · intro I index
    obtain ⟨I, original, rfl⟩ := List.mem_map.mp index
    have placed := linked.placed I original
    refine placed_unlinkAll ⟨placed.perm.trans ?_, placed.sorted⟩
    have both := List.takeWhile_append_dropWhile (p := fun a => decide (u.id a < bound)) (l := u.byId)
    rw [kept, gone] at both
    rw [both]

theorem Linked.eraseNewIds (linked : u.Linked) (bound : Nat) : (u.eraseNewIds bound).Linked := by
  obtain ⟨indices, cut, -, placed⟩ := eraseNewIds_eq linked bound
  rw [cut]
  constructor
  · exact linked.sorted.filter _
  · exact placed
  · exact fun a member => linked.below a (List.mem_of_mem_filter member)
  · intro a member
    obtain ⟨inside, low⟩ := List.mem_filter.mp member
    have owned := linked.owned a inside
    have low : ¬ bound ≤ u.id a := Nat.not_le.mpr (of_decide_eq_true low)
    simp [owned, low]
  · intro a beyond
    have outside : a ∉ u.byId := fun member => by
      have live := (linked.owned a member).1
      have free : u.fresh ≤ a := beyond
      lia
    simp [linked.unused a beyond, outside]

end MultiIndex
end ChainBase
