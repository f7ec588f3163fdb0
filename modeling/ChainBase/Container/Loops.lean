import ChainBase.Container.Housed

/-! What the loops of `undo` and of the compression compute, as long as they do
not come across a disposed node. -/

namespace ChainBase
open OrderedSequence

namespace MultiIndex
variable {T : Type} [Object T] {s after : MultiIndex T UndoNodeExtra} {removed front back : List Addr}
  {old : List (OldNode T)}

/-- The entries `undo` goes back to are restored one after another, if none of
their nodes has been disposed of. -/
theorem restoreOldValues_eq (ctime : Nat) {entries : List (OldNode T)} (housed : s.Housed removed old)
    (subset : ∀ e ∈ entries, e ∈ old) :
    UndoMultiIndex.restoreOldValues ctime entries s =
      if ∀ e ∈ entries, e.mtime < ctime → s.disposed e.current = 0 then
        some ((entries.filter (fun e => e.mtime < ctime)).foldl restoreOne s)
      else none := by
  induction entries generalizing s with
  | nil => simp [UndoMultiIndex.restoreOldValues]
  | cons e rest ih =>
    have tail : ∀ e ∈ rest, e ∈ old := fun e member => subset e (by simp [member])
    rw [UndoMultiIndex.restoreOldValues]
    by_cases older : e.mtime < ctime
    · by_cases live : s.disposed e.current = 0
      · have step : (if (s.takeBack e).isRemoved e.current = true then
              UndoMultiIndex.restoreOldValues ctime rest (s.takeBack e)
            else UndoMultiIndex.restoreOldValues ctime rest ((s.takeBack e).postModify false e.current).2) =
            UndoMultiIndex.restoreOldValues ctime rest (s.restoreOne e) := by
          have flag : (s.takeBack e).isRemoved e.current = s.isRemoved e.current := by simp [takeBack]
          rw [flag, takeBack_postModify housed.linked, restoreOne]
          split <;> rfl
        simp only [older, if_true, live, ne_eq, not_true_eq_false, if_false]
        rw [step, ih (housed.restoreOne (subset e (by simp)) live) tail]
        simp [older, live]
      · simp [older, live]
    · simp only [older, if_false]
      rw [ih housed tail]
      simp [older]

theorem Housed.restoreAll (entries : List (OldNode T)) (housed : s.Housed removed old) (subset : ∀ e ∈ entries, e ∈ old)
    (live : ∀ e ∈ entries, s.disposed e.current = 0) :
    (entries.foldl MultiIndex.restoreOne s).Housed removed old := by
  induction entries generalizing s with
  | nil => exact housed
  | cons e rest ih =>
    refine ih (housed.restoreOne (subset e (by simp)) (live e (by simp))) (fun e member => subset e (by simp [member])) ?_
    intro e member
    rw [restoreOne_disposed]
    exact live e (by simp [member])

omit [Object T] in
theorem restoreAll_frame (entries : List (OldNode T)) (s : MultiIndex T UndoNodeExtra) :
    (entries.foldl restoreOne s).byId = s.byId ∧ (entries.foldl restoreOne s).nextId = s.nextId ∧
    (entries.foldl restoreOne s).fresh = s.fresh ∧ (entries.foldl restoreOne s).disposed = s.disposed ∧
    (entries.foldl restoreOne s).indices.map SetIndex.keys = s.indices.map SetIndex.keys := by
  induction entries generalizing s with
  | nil => simp
  | cons e rest ih => simpa using ih (s.restoreOne e)

omit [Object T] in
theorem restoreAll_mtime_le {bound : Nat} {entries : List (OldNode T)} (old : ∀ e ∈ entries, e.mtime ≤ bound)
    (stamps : ∀ a, s.mtime a ≤ bound) (a : Addr) : (entries.foldl restoreOne s).mtime a ≤ bound := by
  induction entries generalizing s with
  | nil => exact stamps a
  | cons e rest ih =>
    refine ih (fun e member => old e (by simp [member])) fun b => ?_
    rw [restoreOne_mtime, Function.update_apply]
    split
    · exact old e (by simp)
    · exact stamps b

omit [Object T] in
theorem restoreAll_value_other {entries : List (OldNode T)} {a : Addr} (others : ∀ e ∈ entries, a ≠ e.current) :
    (entries.foldl restoreOne s).value a = s.value a := by
  induction entries generalizing s with
  | nil => rfl
  | cons e rest ih =>
    rw [List.foldl_cons, ih (fun e member => others e (by simp [member])), restoreOne_value,
      Function.update_of_ne (others e (by simp))]

omit [Object T] in
/-- Removed nodes take their objects back without touching an index. -/
theorem restoreAll_indices {entries : List (OldNode T)} (gone : ∀ e ∈ entries, s.isRemoved e.current = true) :
    (entries.foldl restoreOne s).indices = s.indices := by
  induction entries generalizing s with
  | nil => rfl
  | cons e rest ih =>
    have own : (s.restoreOne e).indices = s.indices := by
      rw [restoreOne, if_pos (gone e (by simp))]
      rfl
    rw [List.foldl_cons, ih (fun e member => by simpa using gone e (by simp [member])), own]

theorem Housed.restoreAll_id {entries : List (OldNode T)} (housed : s.Housed removed old) (subset : ∀ e ∈ entries, e ∈ old)
    (live : ∀ e ∈ entries, s.disposed e.current = 0) (a : Addr) :
    (entries.foldl MultiIndex.restoreOne s).id a = s.id a := by
  induction entries generalizing s with
  | nil => rfl
  | cons e rest ih =>
    have own := subset e (by simp)
    have alive := live e (by simp)
    rw [List.foldl_cons, ih (housed.restoreOne own alive) (fun e member => subset e (by simp [member])) fun e member => by
      rw [restoreOne_disposed]
      exact live e (by simp [member])]
    simp only [id, restoreOne_value]
    by_cases same : a = e.current
    · subst same
      rw [Function.update_self]
      exact (housed.entries e own).2 alive
    · rw [Function.update_of_ne same]

/-- The removed nodes that are older than the level are linked again, the others
disposed of. -/
structure Reinserted (s after : MultiIndex T UndoNodeExtra) (oldNextId : Nat) (front : List Addr) : Prop where
  value : after.value = s.value
  mtime : after.mtime = s.mtime
  nextId : after.nextId = s.nextId
  fresh : after.fresh = s.fresh
  keys : after.indices.map SetIndex.keys = s.indices.map SetIndex.keys
  byId : ∀ a, a ∈ after.byId ↔ a ∈ s.byId ∨ a ∈ front ∧ s.id a < oldNextId

private theorem Reinserted.cons_linked {a : Addr} {oldNextId : Nat} (low : s.id a < oldNextId)
    (rest : Reinserted ((s.setRemovedField a 0).link a) after oldNextId front) : Reinserted s after oldNextId (a :: front) where
  value := rest.value.trans (setRemovedField_value s a 0)
  mtime := rest.mtime.trans (setRemovedField_mtime s a 0)
  nextId := rest.nextId
  fresh := rest.fresh
  keys := rest.keys.trans (by simp [link, SetIndex.insert, setRemovedField])
  byId b := by
    have ids : ((s.setRemovedField a 0).link a).id = s.id := setRemovedField_id s a 0
    rw [rest.byId, mem_link, ids, List.mem_cons]
    change (b = a ∨ b ∈ s.byId) ∨ b ∈ front ∧ s.id b < oldNextId ↔ _
    by_cases same : b = a
    · simp [same, low]
    · simp [same]

private theorem Reinserted.cons_disposed {a : Addr} {oldNextId : Nat} (high : ¬ s.id a < oldNextId)
    (rest : Reinserted (s.disposeNode a) after oldNextId front) : Reinserted s after oldNextId (a :: front) where
  value := rest.value
  mtime := rest.mtime
  nextId := rest.nextId
  fresh := rest.fresh
  keys := rest.keys
  byId b := by
    rw [rest.byId, List.mem_cons]
    change b ∈ s.byId ∨ b ∈ front ∧ s.id b < oldNextId ↔ _
    by_cases same : b = a
    · simp [same, high]
    · simp [same]

theorem Housed.disposeFirst {a : Addr} (housed : s.Housed (a :: removed) old) : (s.disposeNode a).Housed removed old :=
  housed.disposeNodes (show (a :: removed).Perm ([a] ++ removed) from List.Perm.refl _)

theorem Housed.insertRemovedValues {oldNextId : Nat} (housed : s.Housed (front ++ back) old)
    (inserted : UndoMultiIndex.insertRemovedValues oldNextId front s = some after) :
    after.Housed back old ∧ Reinserted s after oldNextId front := by
  induction front generalizing s with
  | nil =>
    obtain rfl : s = after := by simpa [UndoMultiIndex.insertRemovedValues] using inserted
    exact ⟨housed, rfl, rfl, rfl, rfl, rfl, by simp⟩
  | cons a rest ih =>
    rw [UndoMultiIndex.insertRemovedValues] at inserted
    by_cases low : s.id a < oldNextId
    · simp only [low, if_true] at inserted
      have unlinked : a ∉ s.byId := fun member => housed.apart member (by simp)
      have marked : (s.setRemovedField a 0).Linked :=
        housed.linked.congr rfl rfl rfl (by simp) housed.linked.owned housed.linked.unused
      have newId : ∀ b ∈ (s.setRemovedField a 0).byId, (s.setRemovedField a 0).id a ≠ (s.setRemovedField a 0).id b := by
        intro b member same
        rw [setRemovedField_id] at same
        exact unlinked (housed.ids a b (Or.inr (by simp)) (Or.inl member) same ▸ member)
      split at inserted
      next linked ok =>
        have result := insert_ok marked unlinked newId (by rw [ok])
        rw [result] at ok
        cases ok
        obtain ⟨kept, rest⟩ := ih housed.relink inserted
        exact ⟨kept, rest.cons_linked low⟩
      next => cases inserted
    · simp only [low, if_false] at inserted
      obtain ⟨kept, rest⟩ := ih housed.disposeFirst inserted
      exact ⟨kept, rest.cons_disposed low⟩

omit [Object T] in
/-- Compression keeps the entries the session goes back to, except that removed
nodes take theirs back at once. -/
theorem compressOldValues_eq (start : Nat) (entries : List (OldNode T)) (s : MultiIndex T UndoNodeExtra) :
    UndoMultiIndex.compressOldValues start entries s =
      if ∀ e ∈ entries, e.mtime < start → s.disposed e.current = 0 then
        some (entries.filter (fun e => e.mtime < start && !s.isRemoved e.current),
          (entries.filter (fun e => e.mtime < start && s.isRemoved e.current)).foldl restoreOne s)
      else none := by
  induction entries generalizing s with
  | nil => simp [UndoMultiIndex.compressOldValues]
  | cons e rest ih =>
    rw [UndoMultiIndex.compressOldValues]
    by_cases older : e.mtime < start
    · by_cases live : s.disposed e.current = 0
      · cases flag : s.isRemoved e.current with
        | true =>
          have step : s.takeBack e = s.restoreOne e := by simp [restoreOne, flag]
          simp [Nat.not_le.mpr older, older, live, flag, step, ih]
        | false =>
          simp only [Nat.not_le.mpr older, older, live, flag, ih, if_false, ne_eq, not_true_eq_false, Bool.false_eq_true,
            List.forall_mem_cons, forall_true_left, true_and, List.filter_cons, decide_true, Bool.not_false, Bool.and_self,
            if_true, Bool.and_false]
          by_cases all : ∀ e ∈ rest, e.mtime < start → s.disposed e.current = 0
          · rw [if_pos all, if_pos all]
            rfl
          · rw [if_neg all, if_neg all]
            rfl
      · simp [Nat.not_le.mpr older, older, live]
    · simp [Nat.not_lt.mp older, older, ih]

end MultiIndex
end ChainBase
