import Mathlib.Data.List.TakeWhile

/-! A log of overwritten values with time stamps instead of snapshots. Every
cell carries the time of its last backup. A level opened at a certain time is
restored from those entries of its log whose stamp is older than the level;
younger entries only matter to levels opened later. -/

namespace StampLog

/-- What a cell held, and its stamp, before it was overwritten. -/
structure Entry (α : Type u) (β : Type v) where
  cell : α
  value : β
  stamp : Nat

structure Cells (α : Type u) (β : Type v) where
  value : α → β
  stamp : α → Nat

variable {α : Type u} {β : Type v} [DecidableEq α]

/-- The entries of one cell that a level opened at `time` goes back to. -/
def counted (time : Nat) (log : List (Entry α β)) (a : α) : List (Entry α β) :=
  log.filter (fun entry => entry.cell = a ∧ entry.stamp < time)

@[simp] theorem counted_nil (time : Nat) (a : α) : counted time ([] : List (Entry α β)) a = [] := rfl

@[simp] theorem counted_append (time : Nat) (first second : List (Entry α β)) (a : α) :
    counted time (first ++ second) a = counted time first a ++ counted time second a :=
  List.filter_append ..

theorem counted_cons (time : Nat) (entry : Entry α β) (log : List (Entry α β)) (a : α) :
    counted time (entry :: log) a =
      if entry.cell = a ∧ entry.stamp < time then entry :: counted time log a else counted time log a := by
  simp only [counted, List.filter_cons, decide_eq_true_eq]

theorem mem_counted {time : Nat} {log : List (Entry α β)} {a : α} {entry : Entry α β} :
    entry ∈ counted time log a ↔ entry ∈ log ∧ entry.cell = a ∧ entry.stamp < time := by
  simp [counted]

theorem cells_nodup {time : Nat} {log : List (Entry α β)} (once : ∀ a, (counted time log a).length ≤ 1)
    (older : ∀ entry ∈ log, entry.stamp < time) : (log.map Entry.cell).Nodup := by
  rw [List.nodup_iff_count]
  intro a
  rw [List.count, List.countP_map, List.countP_eq_length_filter]
  refine (Nat.le_of_eq (congrArg List.length (List.filter_congr fun entry member => ?_))).trans (once a)
  simp only [Function.comp_apply, older entry member, and_true]
  rfl

/-- A cell has at most one entry a level goes back to, and only if it has been
stamped since the level was opened. -/
structure Guarded (time : Nat) (log : List (Entry α β)) (stamp : Nat) (a : α) : Prop where
  once : (counted time log a).length ≤ 1
  stamped : counted time log a ≠ [] → time ≤ stamp

/-- The value of a cell when the level was opened is its single old entry once
it has been stamped since, and its present value otherwise. -/
def Holds (time : Nat) (log : List (Entry α β)) (cells : Cells α β) (a : α) (value : β) : Prop :=
  if time ≤ cells.stamp a then ∃ entry, counted time log a = [entry] ∧ entry.value = value
  else counted time log a = [] ∧ cells.value a = value

section Rules
variable {time : Nat} {log rest : List (Entry α β)} {cells : Cells α β} {a : α} {value : β} {entry : Entry α β}

theorem Holds.guarded (holds : Holds time log cells a value) : Guarded time log (cells.stamp a) a := by
  unfold Holds at holds
  split at holds
  next later =>
    obtain ⟨entry, single, -⟩ := holds
    exact ⟨by simp [single], fun _ => later⟩
  next =>
    exact ⟨by simp [holds.1], fun some => absurd holds.1 some⟩

theorem Holds.unique {other : β} (holds : Holds time log cells a value) (others : Holds time log cells a other) : value = other := by
  unfold Holds at holds others
  split at holds
  next stamped =>
    rw [if_pos stamped] at others
    obtain ⟨entry, single, rfl⟩ := holds
    obtain ⟨again, same, rfl⟩ := others
    rw [List.cons.inj (single.symm.trans same) |>.1]
  next fresh =>
    rw [if_neg fresh] at others
    exact holds.2.symm.trans others.2

/-- Opening a level: nothing is logged yet and every cell is older. -/
theorem holds_opened (older : cells.stamp a < time) : Holds time [] cells a (cells.value a) := by
  simp [Holds, Nat.not_le.mpr older]

/-- A cell stamped since the level was opened may be overwritten freely. -/
theorem Holds.overwrite (holds : Holds time log cells a value) (stamped : time ≤ cells.stamp a)
    {after : Cells α β} (kept : time ≤ after.stamp a) : Holds time log after a value := by
  unfold Holds at holds ⊢
  rw [if_pos stamped] at holds
  rwa [if_pos kept]

theorem Holds.congr {after : Cells α β} (holds : Holds time log cells a value)
    (sameValue : after.value a = cells.value a) (sameStamp : after.stamp a = cells.stamp a) :
    Holds time log after a value := by
  unfold Holds at holds ⊢
  rwa [sameValue, sameStamp]

theorem counted_skip (skipped : entry.cell = a → time ≤ entry.stamp) :
    counted time (entry :: log) a = counted time log a := by
  rw [counted_cons, if_neg]
  rintro ⟨same, older⟩
  exact absurd older (Nat.not_lt.mpr (skipped same))

theorem Holds.backup (holds : Holds time log cells a value) (taken : entry.cell = a)
    (copied : entry.value = cells.value a) (stamp : entry.stamp = cells.stamp a)
    {after : Cells α β} (later : time ≤ after.stamp a) : Holds time (entry :: log) after a value := by
  unfold Holds at holds ⊢
  rw [if_pos later, counted_cons]
  split at holds
  next stamped =>
    rw [if_neg (by omega)]
    exact holds
  next older =>
    rw [if_pos ⟨taken, by omega⟩, holds.1]
    exact ⟨entry, rfl, copied.trans holds.2⟩

/-- The cell an entry belongs to takes back the entry's value and stamp. -/
def Cells.fold (cells : Cells α β) (entry : Entry α β) : Cells α β where
  value := Function.update cells.value entry.cell entry.value
  stamp := Function.update cells.stamp entry.cell entry.stamp

theorem Cells.fold_other (cells : Cells α β) (entry : Entry α β) (other : a ≠ entry.cell) :
    (cells.fold entry).value a = cells.value a ∧ (cells.fold entry).stamp a = cells.stamp a := by
  simp [Cells.fold, other]

@[simp] theorem Cells.fold_value (cells : Cells α β) (entry : Entry α β) :
    (cells.fold entry).value entry.cell = entry.value := by simp [Cells.fold]

@[simp] theorem Cells.fold_stamp (cells : Cells α β) (entry : Entry α β) :
    (cells.fold entry).stamp entry.cell = entry.stamp := by simp [Cells.fold]

private theorem counted_middle (time : Nat) (before rest : List (Entry α β)) (entry : Entry α β) (a : α) :
    counted time (before ++ entry :: rest) a =
      counted time before a ++ (if entry.cell = a ∧ entry.stamp < time then [entry] else []) ++ counted time rest a := by
  rw [counted_append, counted_cons]
  split <;> simp

/-- Removing one entry of a guarded cell leaves no other if it counted. -/
private theorem Guarded.alone {stamp : Nat} {before : List (Entry α β)}
    (guarded : Guarded time (before ++ entry :: rest) stamp a) (older : entry.cell = a ∧ entry.stamp < time) :
    counted time (before ++ rest) a = [] := by
  have once := guarded.once
  rw [counted_middle, if_pos older, List.length_append, List.length_append, List.length_singleton] at once
  have first : (counted time before a).length = 0 := by omega
  have second : (counted time rest a).length = 0 := by omega
  rw [counted_append, List.length_eq_zero_iff.mp first, List.length_eq_zero_iff.mp second, List.append_nil]

/-- Folding an entry back into its cell, for every level the cell has been
stamped since, whether or not the entry counts for that level. -/
theorem Holds.fold {before : List (Entry α β)} (holds : Holds time (before ++ entry :: rest) cells a value)
    (stamped : time ≤ cells.stamp entry.cell) : Holds time (before ++ rest) (cells.fold entry) a value := by
  by_cases own : entry.cell = a
  · subst own
    have guarded := holds.guarded
    unfold Holds at holds ⊢
    rw [if_pos stamped] at holds
    obtain ⟨single, only, same⟩ := holds
    rw [Cells.fold_stamp, Cells.fold_value]
    by_cases older : entry.stamp < time
    · have alone := guarded.alone ⟨rfl, older⟩
      rw [if_neg (Nat.not_le.mpr older)]
      refine ⟨alone, ?_⟩
      rw [counted_middle, if_pos ⟨rfl, older⟩] at only
      have member : entry ∈ [single] := by simp [← only]
      rw [List.mem_singleton.mp member, same]
    · rw [if_pos (Nat.not_lt.mp older)]
      refine ⟨single, ?_, same⟩
      rw [counted_middle, if_neg (fun both => older both.2), List.append_nil] at only
      rwa [counted_append]
  · have skipped : counted time (before ++ entry :: rest) a = counted time (before ++ rest) a := by
      rw [counted_middle, if_neg (fun both => own both.1), List.append_nil, counted_append]
    have kept := Cells.fold_other cells entry (Ne.symm own)
    unfold Holds at holds ⊢
    rwa [kept.1, kept.2, ← skipped]

theorem counted_drop {before : List (Entry α β)} (younger : time ≤ entry.stamp) :
    counted time (before ++ entry :: rest) a = counted time (before ++ rest) a := by
  rw [counted_middle, if_neg (fun both => absurd both.2 (Nat.not_lt.mpr younger)), List.append_nil, counted_append]

theorem Holds.drop {before : List (Entry α β)} (holds : Holds time (before ++ entry :: rest) cells a value)
    (younger : time ≤ entry.stamp) : Holds time (before ++ rest) cells a value := by
  unfold Holds at holds ⊢
  rwa [counted_drop younger] at holds

end Rules
end StampLog
