import ChainBase.Container.Linked

/-! Modifying and removing objects of a linked container. A modified object
either settles in every index, or is taken out of all of them, or is put back so
that nothing has changed; the half-moved indices in between leave no trace. -/

namespace ChainBase
open OrderedSequence

namespace MultiIndex
variable {T E : Type} [Object T] {s : MultiIndex T E} {a : Addr} {item : T}

/-- The object settles with a new value: its node moves where it must. -/
def settle (s : MultiIndex T E) (a : Addr) (item : T) : MultiIndex T E :=
  let modified := s.setItem a item
  { modified with indices := modified.indices.map (SetIndex.reposition modified.value a) }

private theorem Linked.displaced (linked : s.Linked) (a : Addr) (item : T) :
    ∀ I ∈ s.indices, SetIndex.Displaced (s.setItem a item).value s.byId a I :=
  fun I index => (linked.placed I index).displaced linked.nodup fun _ _ other => setItem_value_other s item other

private theorem Linked.disturbed (linked : s.Linked) (a : Addr) (item : T) :
    ∀ I ∈ s.indices, SetIndex.Disturbed (s.setItem a item).value a I :=
  fun I index => (linked.displaced a item I index).disturbed linked.nodup

private theorem free_iff (linked : s.Linked) : (∀ I ∈ s.indices, SetIndex.Free (s.setItem a item).value a I) ↔ s.Clear a item := by
  constructor
  · intro free I index b member other same
    refine free I index b ((linked.mem_tree index).mpr member) other ?_
    simpa only [SetIndex.comp, Comparator.Same, Comparator.comap_less, setItem_value_self, setItem_value_other s item other] using same
  · intro clear I index b member other same
    refine clear I index b ((linked.mem_tree index).mp member) other ?_
    simpa only [SetIndex.comp, Comparator.Same, Comparator.comap_less, setItem_value_self, setItem_value_other s item other] using same

theorem postModify_clear (linked : s.Linked) (clear : s.Clear a item) :
    (s.setItem a item).postModify true a = (true, s.settle a item) := by
  have moved := SetIndex.postModifyImpl_free true (linked.disturbed a item)
    (fun _ => (free_iff linked).mpr clear)
  simp only [postModify, setItem_indices, moved, settle]

theorem postModify_taken (linked : s.Linked) (member : a ∈ s.byId) (taken : ¬ s.Clear a item) :
    ((s.setItem a item).postModify true a).1 = false := by
  have blocked := SetIndex.postModifyImpl_blocked (linked.disturbed a item)
    (fun I index => (linked.mem_tree index).mpr member)
    (by
      by_contra all
      refine taken ((free_iff linked).mp fun I index => ?_)
      by_contra blocked
      exact all ⟨I, index, blocked⟩)
  simpa only [postModify, setItem_indices] using blocked

/-- After a failed attempt every index differs from the original in the place of
the one node only. -/
private theorem attempt_frame (item : T) (linked : s.Linked) (member : a ∈ s.byId) :
    ∃ indices, ((s.setItem a item).postModify true a).2 = { s.setItem a item with indices } ∧
      List.Forall₂ (SetIndex.Resembles a) s.indices indices :=
  ⟨_, rfl, SetIndex.postModifyImpl_frame true fun I index =>
    ⟨(linked.placed I index).perm.nodup_iff.mpr linked.nodup, (linked.mem_tree index).mpr member⟩⟩

/-- Putting the old object back either finds every index as it was, or fails. -/
private theorem restore_attempt (linked : s.Linked) (member : a ∈ s.byId) {indices : List (SetIndex T)}
    (frame : List.Forall₂ (SetIndex.Resembles a) s.indices indices) :
    (SetIndex.postModifyImpl s.value true a indices = (true, s.indices) ∧ s.Clear a (s.value a)) ∨
    (SetIndex.postModifyImpl s.value true a indices).1 = false ∧ ¬ s.Clear a (s.value a) := by
  have displaced : ∀ J ∈ indices, SetIndex.Displaced s.value s.byId a J := by
    intro J index
    obtain ⟨I, original, keys, perm, others⟩ := SetIndex.resembles_later frame index
    have placed := linked.placed I original
    refine ⟨perm.trans placed.perm, ?_⟩
    rw [others]
    simpa only [SetIndex.comp, keys, Sorted] using List.Pairwise.sublist List.erase_sublist placed.sorted
  have disturbed : ∀ J ∈ indices, SetIndex.Disturbed s.value a J :=
    fun J index => (displaced J index).disturbed linked.nodup
  by_cases clear : s.Clear a (s.value a)
  · refine Or.inl ⟨?_, clear⟩
    have free : ∀ J ∈ indices, SetIndex.Free s.value a J := by
      intro J index b inside other same
      obtain ⟨I, original, keys, perm, -⟩ := SetIndex.resembles_later frame index
      have linkedThere := (linked.mem_tree original).mp (perm.mem_iff.mp inside)
      exact clear I original b linkedThere other (by simpa only [SetIndex.comp, keys, Comparator.comap_same] using same)
    rw [SetIndex.postModifyImpl_free true disturbed fun _ => free]
    congr 1
    refine SetIndex.map_resembles frame _ fun I original J index resembles => ?_
    obtain ⟨keys, perm, others⟩ := resembles
    have placed := linked.placed I original
    have moved := (displaced J index).reposition member
    have trees : (J.reposition s.value a).tree = I.tree := by
      have nodup := (displaced J index).perm.nodup_iff.mpr linked.nodup
      refine sorted_unique (c := I.comp s.value) (moved.perm.mem_iff.mpr member) (placed.perm.mem_iff.mpr member)
        ?_ placed.sorted ((erase_reposition nodup).trans others) ?_
      · simpa only [SetIndex.comp, SetIndex.reposition, keys] using moved.sorted
      · intro b unlinked
        have inside := (placed.perm.nodup_iff.mpr linked.nodup).mem_erase_iff.mp unlinked
        exact clear I original b ((linked.mem_tree original).mp inside.2) inside.1
    calc J.reposition s.value a = ⟨J.keys, (J.reposition s.value a).tree⟩ := rfl
      _ = I := by rw [trees, keys]
  · refine Or.inr ⟨SetIndex.postModifyImpl_blocked disturbed (fun J index =>
      (displaced J index).perm.mem_iff.mpr member) ?_, clear⟩
    by_contra all
    apply clear
    intro I original b inside other same
    obtain ⟨J, index, keys, perm, -⟩ := SetIndex.resembles_earlier frame original
    apply all
    refine ⟨J, index, fun free => ?_⟩
    refine free b (perm.mem_iff.mpr ((linked.mem_tree original).mpr inside)) other ?_
    simpa only [SetIndex.comp, keys, Comparator.comap_same] using same

/-! ## The outcomes of `modify_with_revert` -/

theorem modifyWithRevert_kept (linked : s.Linked) (keyed : Object.id item = s.id a) (clear : s.Clear a item)
    (backup : Option T) : s.modifyWithRevert a item backup = (.kept, s.settle a item) := by
  have same : ¬ s.id a ≠ (s.setItem a item).id a := by simpa [id] using keyed.symm
  simp only [modifyWithRevert, if_neg same, postModify_clear linked clear]

/-- A conflict stops the first attempt, and only this node has moved by then. -/
private theorem attempt_taken (linked : s.Linked) (member : a ∈ s.byId) (taken : ¬ s.Clear a item) :
    ∃ indices, (s.setItem a item).postModify true a = (false, { s.setItem a item with indices }) ∧
      List.Forall₂ (SetIndex.Resembles a) s.indices indices := by
  obtain ⟨indices, moved, frame⟩ := attempt_frame item linked member
  exact ⟨indices, Prod.ext (postModify_taken linked member taken) moved, frame⟩

/-- Without a backup a conflicting object, or one with another id, is removed. -/
theorem modifyWithRevert_erased (linked : s.Linked) (member : a ∈ s.byId)
    (bad : ¬ (Object.id item = s.id a ∧ s.Clear a item)) :
    s.modifyWithRevert a item none = (.erased, (s.setItem a item).remove a) := by
  by_cases keyed : Object.id item = s.id a
  · have same : ¬ s.id a ≠ (s.setItem a item).id a := by simpa [id] using keyed.symm
    obtain ⟨indices, attempt, frame⟩ := attempt_taken linked member fun clear => bad ⟨keyed, clear⟩
    simp only [modifyWithRevert, if_neg same, attempt, remove, eraseImpl, setItem_byId, setItem_indices,
      SetIndex.eraseImpl_resembles frame]
  · have changed : s.id a ≠ (s.setItem a item).id a := by simpa [id] using fun equal => keyed equal.symm
    simp only [modifyWithRevert, if_pos changed]

/-- With the old object as backup nothing has changed after a failure, unless the
old object itself conflicts with another one. -/
theorem modifyWithRevert_reverted (linked : s.Linked) (member : a ∈ s.byId)
    (bad : ¬ (Object.id item = s.id a ∧ s.Clear a item)) :
    s.modifyWithRevert a item (some (s.value a)) = (.reverted true, s) ∨
    ((s.modifyWithRevert a item (some (s.value a))).1 = .reverted false ∧ ¬ s.Clear a (s.value a)) := by
  by_cases keyed : Object.id item = s.id a
  · have same : ¬ s.id a ≠ (s.setItem a item).id a := by simpa [id] using keyed.symm
    obtain ⟨indices, attempt, frame⟩ := attempt_taken linked member fun clear => bad ⟨keyed, clear⟩
    have back : ({ s.setItem a item with indices } : MultiIndex T E).setItem a (s.value a) = { s with indices } := by
      simp [setItem, value]
    have second : ({ s with indices } : MultiIndex T E).postModify true a =
        ((SetIndex.postModifyImpl s.value true a indices).1,
          { s with indices := (SetIndex.postModifyImpl s.value true a indices).2 }) := rfl
    simp only [modifyWithRevert, if_neg same, attempt, back, second]
    obtain ⟨placed, -⟩ | ⟨failed, conflicts⟩ := restore_attempt linked member frame
    · exact Or.inl (by rw [placed])
    · exact Or.inr ⟨by rw [failed], conflicts⟩
  · have changed : s.id a ≠ (s.setItem a item).id a := by simpa [id] using fun equal => keyed equal.symm
    exact Or.inl (by simp only [modifyWithRevert, if_pos changed, setItem_setItem, setItem_value])

/-! ## What stays linked -/

omit [Object T] in
@[simp] theorem settle_value_self : (s.settle a item).value a = item := setItem_value_self s a item

omit [Object T] in
theorem settle_value_other {b : Addr} (other : b ≠ a) : (s.settle a item).value b = s.value b :=
  setItem_value_other s item other

theorem settle_id (keyed : Object.id item = s.id a) (b : Addr) : (s.settle a item).id b = s.id b := by
  by_cases same : b = a
  · subst same
    simpa [id] using keyed
  · exact congrArg Object.id (settle_value_other same)

theorem Linked.settle (linked : s.Linked) (member : a ∈ s.byId) (keyed : Object.id item = s.id a) :
    (s.settle a item).Linked where
  sorted := by
    refine List.Pairwise.imp ?_ linked.sorted
    intro b c lower
    rwa [settle_id keyed, settle_id keyed]
  placed := by
    intro I index
    obtain ⟨I, original, rfl⟩ := List.mem_map.mp index
    exact (linked.displaced _ _ I original).reposition member
  below := by
    intro b inside
    rw [settle_id keyed]
    exact linked.below b inside
  owned := linked.owned
  unused := linked.unused

theorem Linked.remove (linked : s.Linked) (member : a ∈ s.byId) (item : T) : ((s.setItem a item).remove a).Linked :=
  linked.unlink a rfl rfl rfl rfl (fun _ _ other => setItem_value_other s item other)
    (fun _ other => by simp [MultiIndex.remove, eraseImpl, disposeNode, setItem, other]) member

end MultiIndex
end ChainBase
