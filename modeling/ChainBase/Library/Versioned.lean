import Mathlib.Data.List.Basic
import Mathlib.Algebra.Order.Ring.Int

/-! A value with nested undo levels, as it is explained to its users: opening a
level saves a copy, undoing takes the copy back, squashing forgets it, and
committing forgets the oldest copies. Levels are numbered by revisions. -/

/-- The saved copies are listed from the newest. -/
structure Versioned (σ : Type u) where
  current : σ
  saved : List σ
  revision : Int

namespace Versioned
variable {σ : Type u}

def start (v : Versioned σ) : Versioned σ :=
  { v with saved := v.current :: v.saved, revision := v.revision + 1 }

def undo (v : Versioned σ) : Versioned σ :=
  match v.saved with
  | [] => v
  | t :: rest => { current := t, saved := rest, revision := v.revision - 1 }

def undoAll (v : Versioned σ) : Versioned σ :=
  { current := v.saved.getLast?.getD v.current, saved := [], revision := v.revision - v.saved.length }

def squash (v : Versioned σ) : Versioned σ :=
  match v.saved with
  | [] => v
  | _ :: rest => { v with saved := rest, revision := v.revision - 1 }

/-- The levels above a bound, the newest one having this revision. -/
def keepAbove (bound : Int) : Int → List σ → List σ
  | _, [] => []
  | revision, t :: rest => if bound < revision then t :: keepAbove bound (revision - 1) rest else []

def commit (v : Versioned σ) (revision : Int) : Versioned σ :=
  { v with saved := keepAbove revision v.revision v.saved }

theorem undo_cons {v : Versioned σ} {t : σ} {rest : List σ} (stack : v.saved = t :: rest) :
    v.undo = ⟨t, rest, v.revision - 1⟩ := by
  simp [undo, stack]

theorem undo_revision_le (v : Versioned σ) : v.undo.revision ≤ v.revision := by
  unfold undo
  split <;> simp

theorem squash_cons {v : Versioned σ} {t : σ} {rest : List σ} (stack : v.saved = t :: rest) :
    v.squash = { v with saved := rest, revision := v.revision - 1 } := by
  simp [squash, stack]

theorem undoAll_undo {v : Versioned σ} {t : σ} {rest : List σ} (stack : v.saved = t :: rest) :
    v.undoAll = v.undo.undoAll := by
  rw [undo_cons stack]
  cases rest with
  | nil => simp [undoAll, stack]
  | cons u rest =>
    simp only [undoAll, stack, List.getLast?_cons_cons, List.length_cons, Versioned.mk.injEq, true_and]
    refine ⟨?_, by push_cast; omega⟩
    rw [List.getLast?_eq_some_getLast (List.cons_ne_nil u rest)]
    rfl

theorem undoAll_nil {v : Versioned σ} (stack : v.saved = []) : v.undoAll = v := by
  cases v
  simp_all [undoAll]

theorem keepAbove_eq (bound revision : Int) (saved : List σ) :
    keepAbove bound revision saved = saved.take (revision - bound).toNat := by
  induction saved generalizing revision with
  | nil => simp [keepAbove]
  | cons t rest ih =>
    rw [keepAbove]
    split
    next above =>
      have one : (revision - bound).toNat = (revision - 1 - bound).toNat + 1 := by omega
      rw [ih, one, List.take_succ_cons]
    next reached =>
      have none : (revision - bound).toNat = 0 := by omega
      rw [none, List.take_zero]

/-! ## What has been so since a level

Levels are numbered from the outermost one; 0 is outside of all of them. -/

/-- The present value has the property, and so has every copy saved for a level inside
this one. -/
structure Since (p : σ → Prop) (level : Nat) (v : Versioned σ) : Prop where
  current : p v.current
  opened : level ≤ v.saved.length
  inside : ∀ t ∈ v.saved.take (v.saved.length - level), p t

section Since
variable {p : σ → Prop} {level : Nat} {v : Versioned σ}

theorem since_now (holds : p v.current) : v.Since p v.saved.length :=
  ⟨holds, Nat.le_refl _, by simp⟩

theorem Since.update (since : v.Since p level) {t : σ} (holds : p t) : { v with current := t }.Since p level :=
  ⟨holds, since.opened, since.inside⟩

theorem Since.start (since : v.Since p level) : v.start.Since p level where
  current := since.current
  opened := Nat.le_succ_of_le since.opened
  inside t member := by
    simp only [Versioned.start, List.length_cons, Nat.succ_sub since.opened, List.take_succ_cons, List.mem_cons] at member
    rcases member with rfl | member
    · exact since.current
    · exact since.inside t member

theorem Since.undo (since : v.Since p level) (deeper : level = v.saved.length → level = 0) : v.undo.Since p level := by
  cases stack : v.saved with
  | nil => simpa only [Versioned.undo, stack] using since
  | cons t rest =>
    obtain ⟨holds, opened, inside⟩ := since
    simp only [stack, List.length_cons] at opened inside deeper
    have within : level ≤ rest.length := by omega
    rw [Nat.succ_sub within, List.take_succ_cons] at inside
    rw [undo_cons stack]
    exact ⟨inside t List.mem_cons_self, within, fun u member => inside u (List.mem_cons_of_mem _ member)⟩

/-- What has always been so is not undone. -/
theorem Since.undoAll (since : v.Since p 0) : v.undoAll.Since p 0 where
  current := by
    cases last : v.saved.getLast? with
    | none => simpa only [Versioned.undoAll, last, Option.getD_none] using since.current
    | some t =>
      have inside := since.inside t (by simpa using List.mem_of_getLast? last)
      simpa only [Versioned.undoAll, last, Option.getD_some] using inside
  opened := Nat.zero_le _
  inside := by simp [Versioned.undoAll]

theorem Since.squash (since : v.Since p level) : v.squash.Since p (min level (v.saved.length - 1)) := by
  cases stack : v.saved with
  | nil =>
    have outermost : level = 0 := by simpa [stack] using since.opened
    subst outermost
    simpa only [Versioned.squash, stack, Nat.zero_min] using since
  | cons t rest =>
    obtain ⟨holds, opened, inside⟩ := since
    simp only [stack, List.length_cons] at opened inside
    rw [squash_cons stack]
    refine ⟨holds, Nat.min_le_right _ _, fun u member => ?_⟩
    by_cases deeper : level ≤ rest.length
    · rw [Nat.succ_sub deeper, List.take_succ_cons] at inside
      refine inside u (List.mem_cons_of_mem _ ?_)
      simpa [deeper] using member
    · have innermost : min level ((t :: rest).length - 1) = rest.length := by simp; omega
      rw [innermost] at member
      simp at member

/-- The outermost levels go, and the others move up. -/
theorem Since.commit (since : v.Since p level) (revision : Int) :
    (v.commit revision).Since p (level - (v.saved.length - (v.commit revision).saved.length)) := by
  have opened := since.opened
  simp only [Versioned.commit, keepAbove_eq]
  generalize (v.revision - revision).toNat = left
  refine ⟨since.current, ?_, fun t member => since.inside t ?_⟩
  · simp only [List.length_take]
    omega
  · rw [List.take_take] at member
    refine (List.take_sublist_take_left (l := v.saved) ?_).subset member
    simp only [List.length_take]
    omega

end Since

end Versioned
