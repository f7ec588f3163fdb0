import ChainBase.Library.StampLog

/-! A keyed collection recovered from a stamped log. Its nodes are cells whose
values carry keys; keys are handed out in ascending order, so a bound tells the
nodes that existed when a level was opened from those made since. -/

namespace Snapshot
open StampLog

variable {α : Type u} {β : Type v} [DecidableEq α] {key : β → Nat}

/-- The objects at the time a level was opened, as far as its log, the present
nodes and their stamps tell. Nodes made since have been stamped since, entries the
level goes back to belong to older nodes, and these hold the old objects. -/
structure Recovers (key : β → Nat) (cells : Cells α β) (nodes : α → Prop) (log : List (Entry α β)) (time bound : Nat)
    (objects : Nat → Option β) : Prop where
  created : ∀ a, nodes a → bound ≤ key (cells.value a) → time ≤ cells.stamp a
  backed : ∀ entry ∈ log, entry.stamp < time → nodes entry.cell ∧ key (cells.value entry.cell) < bound
  holds : ∀ a, nodes a → key (cells.value a) < bound →
    ∃ v, objects (key (cells.value a)) = some v ∧ Holds time log cells a v
  complete : ∀ i v, objects i = some v → i < bound ∧ ∃ a, nodes a ∧ key (cells.value a) = i

variable {cells after : Cells α β} {nodes later : α → Prop} {log rest before : List (Entry α β)} {time bound : Nat}
  {objects : Nat → Option β} {a : α} {entry : Entry α β}

theorem recovers_opened (older : ∀ a, nodes a → cells.stamp a < time) (bounded : ∀ a, nodes a → key (cells.value a) < bound)
    (current : ∀ i v, objects i = some v ↔ ∃ a, nodes a ∧ key (cells.value a) = i ∧ cells.value a = v) :
    Recovers key cells nodes [] time bound objects where
  created a present beyond := absurd (bounded a present) (Nat.not_lt.mpr beyond)
  backed := by simp
  holds a present _ := ⟨_, (current _ _).mpr ⟨a, present, rfl, rfl⟩, holds_opened (older a present)⟩
  complete i v found := by
    obtain ⟨a, present, keyed, -⟩ := (current i v).mp found
    exact ⟨keyed ▸ bounded a present, a, present, keyed⟩

private theorem Recovers.subset {others : Nat → Option β} (recovers : Recovers key cells nodes log time bound objects)
    (again : Recovers key cells nodes log time bound others) {i : Nat} {v : β} (found : objects i = some v) : others i = some v := by
  obtain ⟨below, a, present, rfl⟩ := recovers.complete i v found
  obtain ⟨first, here, holds⟩ := recovers.holds a present below
  obtain ⟨second, there, same⟩ := again.holds a present below
  rw [there, ← holds.unique same, ← here, found]

theorem Recovers.unique {others : Nat → Option β} (recovers : Recovers key cells nodes log time bound objects)
    (again : Recovers key cells nodes log time bound others) : objects = others := by
  funext i
  apply Option.ext
  intro v
  exact ⟨recovers.subset again, again.subset recovers⟩

theorem Recovers.closed (recovers : Recovers key cells nodes [] time bound objects) (present : nodes a)
    (older : key (cells.value a) < bound) : objects (key (cells.value a)) = some (cells.value a) := by
  obtain ⟨v, found, holds⟩ := recovers.holds a present older
  unfold Holds at holds
  split at holds
  next =>
    obtain ⟨entry, impossible, -⟩ := holds
    simp at impossible
  next => rw [found, holds.2]

theorem Recovers.guarded (recovers : Recovers key cells nodes log time bound objects) (a : α) :
    Guarded time log (cells.stamp a) a := by
  by_cases none : counted time log a = []
  · exact ⟨by simp [none], fun found => absurd none found⟩
  · obtain ⟨entry, member⟩ := List.exists_mem_of_ne_nil _ none
    obtain ⟨logged, rfl, older⟩ := mem_counted.mp member
    obtain ⟨present, old⟩ := recovers.backed entry logged older
    obtain ⟨v, -, holds⟩ := recovers.holds _ present old
    exact holds.guarded

/-- Nodes may come and go as long as the older ones stay and new ones are stamped. -/
theorem Recovers.renode (recovers : Recovers key cells nodes log time bound objects)
    (kept : ∀ a, nodes a → key (cells.value a) < bound → later a)
    (added : ∀ a, later a → nodes a ∨ bound ≤ key (cells.value a) ∧ time ≤ cells.stamp a) :
    Recovers key cells later log time bound objects where
  created a present beyond := by
    rcases added a present with old | new
    · exact recovers.created a old beyond
    · exact new.2
  backed entry member older := by
    obtain ⟨present, old⟩ := recovers.backed entry member older
    exact ⟨kept _ present old, old⟩
  holds a present old := by
    rcases added a present with already | new
    · exact recovers.holds a already old
    · exact absurd old (Nat.not_lt.mpr new.1)
  complete i v found := by
    obtain ⟨below, a, present, rfl⟩ := recovers.complete i v found
    exact ⟨below, a, kept a present below, rfl⟩

theorem Recovers.congr (recovers : Recovers key cells nodes log time bound objects)
    (values : ∀ a, nodes a → after.value a = cells.value a) (stamps : ∀ a, nodes a → after.stamp a = cells.stamp a) :
    Recovers key after nodes log time bound objects where
  created a present beyond := by
    rw [values a present] at beyond
    rw [stamps a present]
    exact recovers.created a present beyond
  backed entry member older := by
    obtain ⟨present, old⟩ := recovers.backed entry member older
    exact ⟨present, by rwa [values _ present]⟩
  holds a present old := by
    rw [values a present] at old ⊢
    obtain ⟨v, found, holds⟩ := recovers.holds a present old
    exact ⟨v, found, holds.congr (values a present) (stamps a present)⟩
  complete i v found := by
    obtain ⟨below, a, present, keyed⟩ := recovers.complete i v found
    exact ⟨below, a, present, by rwa [values a present]⟩

/-- Changing one cell, but for its key, to a stamp the level has seen; the log
must account for that cell. -/
private theorem Recovers.change (recovers : Recovers key cells nodes log time bound objects)
    (keyed : key (after.value a) = key (cells.value a)) (others : ∀ b, b ≠ a → after.value b = cells.value b)
    (stamps : ∀ b, b ≠ a → after.stamp b = cells.stamp b) {changed : List (Entry α β)}
    (logged : ∀ b, b ≠ a → counted time changed b = counted time log b)
    (own : nodes a → bound ≤ key (cells.value a) → time ≤ after.stamp a)
    (accounted : ∀ v, nodes a → key (cells.value a) < bound → Holds time log cells a v → Holds time changed after a v)
    (backed : ∀ entry ∈ changed, entry.stamp < time → nodes entry.cell ∧ key (cells.value entry.cell) < bound) :
    Recovers key after nodes changed time bound objects := by
  have keys : ∀ b, key (after.value b) = key (cells.value b) := by
    intro b
    by_cases same : b = a
    · exact same ▸ keyed
    · rw [others b same]
  constructor
  · intro b present beyond
    rw [keys b] at beyond
    by_cases same : b = a
    · subst same
      exact own present beyond
    · rw [stamps b same]
      exact recovers.created b present beyond
  · intro entry member older
    rw [keys]
    exact backed entry member older
  · intro b present old
    rw [keys b] at old ⊢
    obtain ⟨v, found, holds⟩ := recovers.holds b present old
    refine ⟨v, found, ?_⟩
    by_cases same : b = a
    · subst same
      exact accounted v present old holds
    · unfold Holds at holds ⊢
      rwa [stamps b same, others b same, logged b same]
  · intro i v found
    obtain ⟨below, b, present, keyed⟩ := recovers.complete i v found
    exact ⟨below, b, present, by rwa [keys b]⟩

/-- A cell stamped since the level was opened is changed without a backup. -/
theorem Recovers.overwrite (recovers : Recovers key cells nodes log time bound objects)
    (keyed : key (after.value a) = key (cells.value a)) (others : ∀ b, b ≠ a → after.value b = cells.value b)
    (stamps : ∀ b, b ≠ a → after.stamp b = cells.stamp b) (stamped : time ≤ cells.stamp a) (kept : time ≤ after.stamp a) :
    Recovers key after nodes log time bound objects :=
  recovers.change keyed others stamps (fun _ _ => rfl) (fun _ _ => kept) (fun _ _ _ holds => holds.overwrite stamped kept)
    recovers.backed

theorem Recovers.backup (recovers : Recovers key cells nodes log time bound objects) (present : nodes a)
    (keyed : key (after.value a) = key (cells.value a)) (others : ∀ b, b ≠ a → after.value b = cells.value b)
    (stamps : ∀ b, b ≠ a → after.stamp b = cells.stamp b) (later : time ≤ after.stamp a) :
    Recovers key after nodes (⟨a, cells.value a, cells.stamp a⟩ :: log) time bound objects := by
  refine recovers.change keyed others stamps (fun b other => ?_) (fun _ _ => later)
    (fun _ _ _ holds => holds.backup rfl rfl rfl later) ?_
  · exact counted_skip fun same => absurd same.symm other
  · intro entry member older
    rcases List.mem_cons.mp member with rfl | member
    · refine ⟨present, ?_⟩
      by_contra beyond
      exact absurd (recovers.created a present (Nat.not_lt.mp beyond)) (Nat.not_le.mpr older)
    · exact recovers.backed entry member older

theorem Recovers.fold (recovers : Recovers key cells nodes (before ++ entry :: rest) time bound objects)
    (keyed : key entry.value = key (cells.value entry.cell)) (stamped : time ≤ cells.stamp entry.cell) :
    Recovers key (cells.fold entry) nodes (before ++ rest) time bound objects := by
  refine recovers.change (a := entry.cell) (by rwa [Cells.fold_value]) (fun b other => (Cells.fold_other _ _ other).1)
    (fun b other => (Cells.fold_other _ _ other).2) ?_ ?_ (fun v _ _ holds => holds.fold stamped) ?_
  · intro b other
    rw [counted_append, counted_append, counted_skip fun same => absurd same.symm other]
  · intro _ beyond
    rw [Cells.fold_stamp]
    by_contra older
    have old := (recovers.backed entry (by simp) (Nat.not_le.mp older)).2
    omega
  · intro other member older
    refine recovers.backed other ?_ older
    rcases List.mem_append.mp member with member | member <;> simp [member]

theorem Recovers.drop (recovers : Recovers key cells nodes (before ++ entry :: rest) time bound objects)
    (younger : time ≤ entry.stamp) : Recovers key cells nodes (before ++ rest) time bound objects where
  created := recovers.created
  backed other member older := by
    refine recovers.backed other ?_ older
    rcases List.mem_append.mp member with member | member <;> simp [member]
  holds a present old := by
    obtain ⟨v, found, holds⟩ := recovers.holds a present old
    exact ⟨v, found, holds.drop younger⟩
  complete := recovers.complete

/-- Going through the front of the log of a level: of the entries it goes back
to some are kept and the others are taken back, the rest is forgotten. That level
and every level opened earlier still recover the same objects. -/
theorem Recovers.absorb {start base : Nat} {snapshot : Nat → Option β} (before back : List (Entry α β))
    (keep : Entry α β → Bool) (front : List (Entry α β))
    (keyed : ∀ entry ∈ front, entry.stamp < start → key entry.value = key (cells.value entry.cell))
    (session : Recovers key cells later (before ++ (front ++ back)) start base snapshot)
    (earlier : Recovers key cells nodes (before ++ (front ++ rest)) time bound objects) (ordered : time ≤ start) :
    Recovers key ((front.filter (fun entry => entry.stamp < start && !keep entry)).foldl Cells.fold cells) nodes
      (before ++ (front.filter (fun entry => entry.stamp < start && keep entry) ++ rest)) time bound objects := by
  induction front generalizing cells before with
  | nil => exact earlier
  | cons entry others ih =>
    have tail : ∀ other ∈ others, other.stamp < start → key other.value = key (cells.value other.cell) :=
      fun other member => keyed other (by simp [member])
    rw [List.cons_append] at session earlier
    by_cases older : entry.stamp < start
    · cases decision : keep entry with
      | true =>
        rw [List.append_cons] at session earlier
        simpa [older, decision] using ih _ tail session earlier
      | false =>
        have same := keyed entry (by simp) older
        have stamped : start ≤ cells.stamp entry.cell := by
          refine (session.guarded entry.cell).stamped (List.ne_nil_of_mem (a := entry) ?_)
          exact mem_counted.mpr ⟨by simp, rfl, older⟩
        have folded : ∀ other ∈ others, other.stamp < start →
            key other.value = key ((cells.fold entry).value other.cell) := by
          intro other member young
          by_cases own : other.cell = entry.cell
          · rw [tail other member young, own, Cells.fold_value, same]
          · rw [tail other member young, (Cells.fold_other _ _ own).1]
        simpa [older, decision] using
          ih _ folded (session.fold same stamped) (earlier.fold same (ordered.trans stamped))
    · have younger := Nat.not_lt.mp older
      simpa [older] using ih _ tail (session.drop younger) (earlier.drop (ordered.trans younger))

end Snapshot
