import ChainBase.Container.UndoRefinement

/-! The revision as a 64-bit integer. It is computed together with the depth of the
stack, and leaves the range of `int64_t` at two places only: a level above the last
revision there is, and a commit far below the present one. -/

namespace ChainBase
open OrderedSequence

namespace UndoMultiIndex
variable {T : Type}

def depth (s : UndoMultiIndex T) : Nat := s.undoStack.length

/-- What the calls on the stack count. -/
def counters (s : UndoMultiIndex T) : Nat × Int := (s.depth, s.revision)

/-- The counters when a level has gone, if there was one. -/
def closed : Nat × Int → Nat × Int
  | (0, revision) => (0, revision)
  | (depth + 1, revision) => (depth, revision - 1)

theorem closed_eq (depth : Nat) (revision : Int) :
    closed (depth, revision) = (depth - 1, if depth = 0 then revision else revision - 1) := by
  cases depth <;> simp [closed]

/-! ## What each call does to the counters -/

variable {s after : UndoMultiIndex T}

theorem onCreate_counters (s : UndoMultiIndex T) (a : Addr) : (s.onCreate a).counters = s.counters := by
  unfold onCreate
  split <;> rfl

theorem onModify_counters (s : UndoMultiIndex T) (a : Addr) : (s.onModify a).2.counters = s.counters := by
  unfold onModify
  split
  · rfl
  · split <;> rfl

theorem startUndo_counters (s : UndoMultiIndex T) : s.startUndo.2.counters = (s.depth + 1, s.revision + 1) := rfl

theorem squashFast_counters (s : UndoMultiIndex T) : s.squashFast.counters = closed s.counters := by
  unfold squashFast
  split
  next stack => simp [counters, depth, stack, closed]
  next info stack => simp [counters, depth, stack, closed]
  next info rest stack => simp [counters, depth, stack, closed]

variable [Object T]

theorem onRemove_counters (s : UndoMultiIndex T) (a : Addr) : (s.onRemove a).2.counters = s.counters := by
  unfold onRemove
  split
  · rfl
  · split <;> rfl

theorem emplace_counters (s : UndoMultiIndex T) (constructor : Nat → Option T) :
    (s.emplace constructor).2.counters = s.counters := by
  unfold emplace
  split
  · exact onCreate_counters _ _
  · rfl

theorem modify_counters {a : Addr} {modifier : T → T × Bool} {thrown : Option Thrown}
    (ran : s.modify a modifier = some (thrown, after)) : after.counters = s.counters := by
  have same := onModify_counters s a
  simp only [modify] at ran
  split at ran <;> cases ran
  all_goals exact same

theorem remove_counters (s : UndoMultiIndex T) (a : Addr) : (s.remove a).counters = s.counters := by
  have same := onRemove_counters { s with toMultiIndex := s.eraseImpl a } a
  unfold remove
  split <;> rename_i ran <;> rw [ran] at same <;> exact same

theorem undo_counters (ran : s.undo = some after) : after.counters = closed s.counters := by
  unfold undo at ran
  split at ran
  next stack =>
    cases ran
    simp [counters, depth, stack, closed]
  next info rest stack =>
    simp only [Option.bind_eq_bind, Option.bind_eq_some_iff] at ran
    obtain ⟨restored, -, inserted, -, same⟩ := ran
    cases same
    simp [counters, depth, stack, closed]

theorem undoTimes_counters {n : Nat} (ran : undoTimes n s = some after) : after.counters = closed^[n] s.counters := by
  induction n generalizing s with
  | zero =>
    cases ran
    rfl
  | succ n ih =>
    obtain ⟨middle, undone, rest⟩ := Option.bind_eq_some_iff.mp ran
    rw [ih rest, undo_counters undone, Function.iterate_succ_apply]

theorem compressImpl_counters {last session : UndoState} (ran : s.compressImpl last session = some after) :
    after.counters = s.counters := by
  simp only [compressImpl, Option.bind_eq_bind, Option.bind_eq_some_iff] at ran
  obtain ⟨_, _, same⟩ := ran
  cases same
  rfl

theorem compressLast_counters (ran : s.compressLastUndoSession = some after) : after.counters = s.counters := by
  unfold compressLastUndoSession at ran
  split at ran
  · cases ran
  · exact compressImpl_counters ran

theorem squash_counters (ran : s.squash = some after) : after.counters = closed s.counters := by
  unfold squash at ran
  split at ran
  · obtain ⟨compressed, inner, rfl⟩ := Option.map_eq_some_iff.mp ran
    rw [squashFast_counters, compressImpl_counters inner]
  · cases ran
    exact squashFast_counters s

omit [Object T] in
theorem commit_counters (s : UndoMultiIndex T) (revision : Int) :
    (s.commit revision).2.depth ≤ s.depth ∧ (s.commit revision).2.revision = s.revision := by
  simp only [commit]
  by_cases top : min revision s.revision = s.revision
  · rw [if_pos top]
    exact ⟨Nat.zero_le _, rfl⟩
  · rw [if_neg top]
    by_cases inside : (s.revision - min revision s.revision).toNat < s.undoStack.length
    · rw [if_pos inside]
      split
      · exact ⟨by simp [depth], rfl⟩
      · exact ⟨Nat.le_refl _, rfl⟩
    · rw [if_neg inside]
      exact ⟨Nat.le_refl _, rfl⟩

omit [Object T] in
theorem setRevision_counters {revision : Nat} (set : s.setRevision revision = .ok after) :
    after.depth = 0 ∧ after.revision = revision ∧ after.revision ≤ int64Max := by
  unfold setRevision at set
  split at set
  · cases set
  next empty =>
    split at set
    · cases set
    next low =>
      split at set
      · cases set
      · cases set
        exact ⟨by simpa [depth] using empty, rfl, by simpa using low⟩

/-! ## The arithmetic of `int64_t` -/

def int64Min : Int := -2 ^ 63

omit [Object T] in
/-- `undo_stack_revision_range`. The depth is unsigned, and so is the difference, which
is converted to `int64_t` afterwards. -/
def undoStackRevisionRange (s : UndoMultiIndex T) : Int × Int := (Int.bmod (s.revision - s.depth) (2 ^ 64), s.revision)

/-- No level has a negative revision, and the last one fits. -/
def Bounded (counters : Nat × Int) : Prop := 0 ≤ counters.2 - counters.1 ∧ counters.2 ≤ int64Max

theorem Bounded.closed {counters : Nat × Int} (bounded : Bounded counters) : Bounded (closed counters) := by
  obtain ⟨depth, revision⟩ := counters
  obtain ⟨first, last⟩ := bounded
  simp only at first last
  rw [closed_eq]
  refine ⟨?_, ?_⟩ <;> simp only <;> split <;> omega

/-- The revisions of the levels, from the first to the last, are in the range of an
`int64_t`, none of them is negative, and `undo_stack_revision_range` tells them. -/
structure RevisionInRange (s : UndoMultiIndex T) : Prop where
  first : 0 ≤ s.revision - s.depth
  last : s.revision ≤ int64Max
  told : s.undoStackRevisionRange = (s.revision - s.depth, s.revision)

omit [Object T] in
theorem revisionInRange_iff : s.RevisionInRange ↔ Bounded s.counters := by
  constructor
  · intro range
    exact ⟨range.first, range.last⟩
  · intro bounded
    obtain ⟨first, last⟩ : 0 ≤ s.revision - s.depth ∧ s.revision ≤ int64Max := bounded
    refine ⟨first, last, ?_⟩
    have fits : s.revision - s.depth < 2 ^ 63 := by
      unfold int64Max at last
      omega
    rw [undoStackRevisionRange, Int.bmod_eq_of_le (by omega) (by omega)]

omit [Object T] in
theorem RevisionInRange.congr (range : s.RevisionInRange) (same : after.counters = s.counters) : after.RevisionInRange := by
  rw [revisionInRange_iff] at range ⊢
  rwa [same]

omit [Object T] in
theorem RevisionInRange.closed (range : s.RevisionInRange) {n : Nat}
    (same : after.counters = UndoMultiIndex.closed^[n] s.counters) : after.RevisionInRange := by
  rw [revisionInRange_iff] at range ⊢
  rw [same]
  apply Function.Iterate.rec Bounded range
  intro counters bounded
  exact bounded.closed

end UndoMultiIndex

namespace UndoOp
open UndoMultiIndex
variable {T : Type} [Object T] {keys : List (Comparator T)} {s after : UndoMultiIndex T}

/-- The exact results of the signed arithmetic that a call performs. -/
def signedResults (s : UndoMultiIndex T) : UndoOp T → List Int
  | startUndo => [s.revision + 1]
  | undo | squash | squashFast => if s.depth = 0 then [] else [s.revision - 1]
  | undoAll => (List.range s.depth).map fun popped : Nat => s.revision - (popped + 1)
  | commit revision =>
    if min revision s.revision = s.revision then [] else [s.revision - min revision s.revision]
  | emplace _ | modify _ _ | remove _ | compressLastUndoSession | lastUndoSession | setRevision _ => []

/-- No arithmetic of the call overflows, and the revisions are in range after it. -/
structure InRange (s : UndoMultiIndex T) (op : UndoOp T) : Prop where
  exact : ∀ result ∈ signedResults s op, int64Min ≤ result ∧ result ≤ int64Max
  kept : ∀ reply after, step s op = some (reply, after) → after.RevisionInRange

theorem kept_inRange (range : s.RevisionInRange) {op : UndoOp T} (fits : Fits s op) {reply : Reply}
    (ran : step s op = some (reply, after)) : after.RevisionInRange := by
  cases performs ran with
  | emplace constructor => exact range.congr (emplace_counters s constructor)
  | modify found modified => exact range.congr (modify_counters modified)
  | modifyMissing => exact range
  | remove found => exact range.congr (remove_counters s _)
  | removeMissing => exact range
  | startUndo =>
    rw [revisionInRange_iff, startUndo_counters]
    have first := range.first
    have last : s.revision < int64Max := fits
    refine ⟨?_, last⟩
    push_cast
    omega
  | undo undone => exact range.closed (n := 1) (undo_counters undone)
  | undoAll undone => exact range.closed (undoTimes_counters undone)
  | squash squashed => exact range.closed (n := 1) (squash_counters squashed)
  | squashFast => exact range.closed (n := 1) (squashFast_counters s)
  | compress compressed => exact range.congr (compressLast_counters compressed)
  | lastUndoSession compressed => exact range.congr (compressLast_counters compressed)
  | noSession => exact range
  | commit revision =>
    obtain ⟨depth, same⟩ := commit_counters s revision
    have first := range.first
    have last := range.last
    rw [revisionInRange_iff, counters, same]
    refine ⟨?_, last⟩
    simp only
    omega
  | setRevision set =>
    obtain ⟨empty, same, last⟩ := setRevision_counters set
    rw [revisionInRange_iff]
    refine ⟨?_, last⟩
    simp only [counters, same, empty]
    omega
  | refused => exact range

omit [Object T] in
theorem exact_iff_fits (range : s.RevisionInRange) (op : UndoOp T) :
    (∀ result ∈ signedResults s op, int64Min ≤ result ∧ result ≤ int64Max) ↔ Fits s op := by
  obtain ⟨first, last, -⟩ := range
  have low : int64Min ≤ 0 := by decide
  cases op with
  | startUndo =>
    simp only [signedResults, List.forall_mem_singleton, Fits]
    omega
  | undo | squash | squashFast =>
    refine iff_of_true (fun result member => ?_) trivial
    simp only [signedResults] at member
    split at member
    · cases member
    · obtain rfl := List.mem_singleton.mp member
      omega
  | undoAll =>
    refine iff_of_true (fun result member => ?_) trivial
    obtain ⟨popped, inside, rfl⟩ := List.mem_map.mp member
    have below := List.mem_range.mp inside
    omega
  | commit revision =>
    simp only [signedResults, Fits]
    split
    next top =>
      refine iff_of_true (by simp) ?_
      omega
    next lower =>
      rw [List.forall_mem_singleton]
      omega
  | emplace | modify | remove | compressLastUndoSession | lastUndoSession | setRevision =>
    exact iff_of_true (by simp [signedResults]) trivial

theorem inRange_iff_fits (range : s.RevisionInRange) (op : UndoOp T) : InRange s op ↔ Fits s op := by
  constructor
  · intro inRange
    exact (exact_iff_fits range op).mp inRange.exact
  · intro fits
    refine ⟨(exact_iff_fits range op).mpr fits, ?_⟩
    intro reply after ran
    exact kept_inRange range fits ran

/-- From a new container, the revision arithmetic of a run stays in range exactly if
every new level and every commit fits. -/
theorem revision_in_range_iff [Inhabited T] (keys : List (Comparator T)) (ops : List (UndoOp T)) :
    Run.Permitted step InRange (UndoMultiIndex.empty keys) ops ↔ Run.Permitted step Fits (UndoMultiIndex.empty keys) ops := by
  have fresh : (UndoMultiIndex.empty keys : UndoMultiIndex T).RevisionInRange := by
    apply revisionInRange_iff.mpr
    refine ⟨Int.le_refl 0, ?_⟩
    change (0 : Int) ≤ int64Max
    decide
  refine Run.permitted_iff ?_ ?_ fresh
  · intro s op range
    exact inRange_iff_fits range op
  · intro s op reply after range permitted ran
    exact permitted.kept reply after ran

/-- A level on top of the last revision there is, and a commit of the smallest revision. -/
theorem revision_out_of_range :
    ¬ Run.Permitted step InRange (UndoMultiIndex.empty bookKeys) [.setRevision (2 ^ 63 - 1), .startUndo] ∧
    ¬ Run.Permitted step InRange (UndoMultiIndex.empty bookKeys) [.commit int64Min] := by
  constructor
  · intro permitted
    have started := (permitted.2 .returned { UndoMultiIndex.empty bookKeys with revision := 2 ^ 63 - 1 } rfl).1
    exact absurd (started.exact (2 ^ 63) (by decide)).2 (by decide)
  · intro permitted
    exact absurd (permitted.1.exact (2 ^ 63) (by decide)).2 (by decide)

end UndoOp
end ChainBase
