import ChainBase.Container.MultiIndex

/-! What a container is for: a table from ids to objects in which no two objects
share a secondary key, and the next id. -/

namespace ChainBase
open OrderedSequence

structure Table (T : Type) [Object T] (keys : List (Comparator T)) where
  objects : Nat → Option T
  nextId : Nat
  keyed : ∀ id v, objects id = some v → Object.id v = id
  below : ∀ id v, objects id = some v → id < nextId
  unique : ∀ k ∈ keys, ∀ i j v w, objects i = some v → objects j = some w → k.Same v w → i = j

namespace Table
variable {T : Type} [Object T] {keys : List (Comparator T)}

theorem ext {t u : Table T keys} (objects : t.objects = u.objects) (nextId : t.nextId = u.nextId) : t = u := by
  cases t
  cases u
  simp_all

def empty (keys : List (Comparator T)) : Table T keys where
  objects _ := none
  nextId := 0
  keyed := by simp
  below := by simp
  unique := by simp

/-- No object but the one with this id shares a secondary key with `v`. -/
def Free (t : Table T keys) (id : Nat) (v : T) : Prop :=
  ∀ j w, t.objects j = some w → j ≠ id → ∀ k ∈ keys, ¬ k.Same v w

/-- Setting the object of one id keeps secondary keys unique. -/
private theorem unique_update {t : Table T keys} {id : Nat} {v : T} (free : t.Free id v) :
    ∀ k ∈ keys, ∀ i j x y, Function.update t.objects id (some v) i = some x →
      Function.update t.objects id (some v) j = some y → k.Same x y → i = j := by
  intro k key i j x y first second same
  by_cases left : i = id <;> by_cases right : j = id
  · rw [left, right]
  · subst left
    rw [Function.update_self] at first
    rw [Function.update_of_ne right] at second
    cases first
    exact absurd same (free j y second right k key)
  · subst right
    rw [Function.update_self] at second
    rw [Function.update_of_ne left] at first
    cases second
    exact absurd same.symm (free i x first left k key)
  · rw [Function.update_of_ne left] at first
    rw [Function.update_of_ne right] at second
    exact t.unique k key i j x y first second same

def insert (t : Table T keys) (v : T) (ascending : t.nextId ≤ Object.id v) (free : t.Free (Object.id v) v) : Table T keys where
  objects := Function.update t.objects (Object.id v) (some v)
  nextId := Object.id v + 1
  keyed id w found := by
    by_cases same : id = Object.id v
    · subst same
      rw [Function.update_self] at found
      cases found
      rfl
    · rw [Function.update_of_ne same] at found
      exact t.keyed id w found
  below id w found := by
    by_cases same : id = Object.id v
    · omega
    · rw [Function.update_of_ne same] at found
      have lower := t.below id w found
      omega
  unique := unique_update free

def replace (t : Table T keys) (id : Nat) (v : T) (keyed : Object.id v = id) (present : id < t.nextId)
    (free : t.Free id v) : Table T keys where
  objects := Function.update t.objects id (some v)
  nextId := t.nextId
  keyed i w found := by
    by_cases same : i = id
    · subst same
      rw [Function.update_self] at found
      cases found
      exact keyed
    · rw [Function.update_of_ne same] at found
      exact t.keyed i w found
  below i w found := by
    by_cases same : i = id
    · exact same ▸ present
    · rw [Function.update_of_ne same] at found
      exact t.below i w found
  unique := unique_update free

theorem replace_same {t : Table T keys} {id : Nat} {v : T} (found : t.objects id = some v) (keyed : Object.id v = id)
    (present : id < t.nextId) (free : t.Free id v) : t.replace id v keyed present free = t :=
  ext (by simp [replace, ← found]) rfl

def erase (t : Table T keys) (id : Nat) : Table T keys where
  objects := Function.update t.objects id none
  nextId := t.nextId
  keyed i w found := by
    by_cases same : i = id
    · simp [same] at found
    · rw [Function.update_of_ne same] at found
      exact t.keyed i w found
  below i w found := by
    by_cases same : i = id
    · simp [same] at found
    · rw [Function.update_of_ne same] at found
      exact t.below i w found
  unique k key i j x y first second same := by
    by_cases left : i = id
    · simp [left] at first
    · by_cases right : j = id
      · simp [right] at second
      · rw [Function.update_of_ne left] at first
        rw [Function.update_of_ne right] at second
        exact t.unique k key i j x y first second same

/-! ## The operations

The result says whether the call returns. Constructors that give the object an
id below the next one break the contract the container asserts; the table then
refuses the object. -/

open Classical in
noncomputable def emplace (t : Table T keys) (constructor : Nat → Option T) : Bool × Table T keys :=
  match constructor t.nextId with
  | none => (false, t)
  | some v =>
    if accepted : t.nextId ≤ Object.id v ∧ t.Free (Object.id v) v then (true, t.insert v accepted.1 accepted.2)
    else (false, t)

open Classical in
noncomputable def modify (t : Table T keys) (id : Nat) (modifier : T → T × Bool) : Bool × Table T keys :=
  match found : t.objects id with
  | none => (true, t)
  | some old =>
    if kept : Object.id (modifier old).1 = id ∧ t.Free id (modifier old).1 then
      (!(modifier old).2, t.replace id (modifier old).1 kept.1 (t.below id old found) kept.2)
    else (false, t.erase id)

def remove (t : Table T keys) (id : Nat) : Table T keys := t.erase id

theorem emplace_threw {t : Table T keys} {constructor : Nat → Option T} (throws : constructor t.nextId = none) :
    t.emplace constructor = (false, t) := by
  simp [emplace, throws]

theorem emplace_accepted {t : Table T keys} {constructor : Nat → Option T} {v : T}
    (constructs : constructor t.nextId = some v) (ascending : t.nextId ≤ Object.id v) (free : t.Free (Object.id v) v) :
    t.emplace constructor = (true, t.insert v ascending free) := by
  simp [emplace, constructs, ascending, free]

/-- The first object of all is accepted with any id. -/
theorem emplace_first (v : T) : ((empty keys).emplace fun _ => some v).2.objects (Object.id v) = some v := by
  have free : (empty keys).Free (Object.id v) v := by simp [Free, empty]
  rw [emplace_accepted (v := v) rfl (Nat.zero_le _) free]
  exact Function.update_self _ _ _

theorem emplace_refused {t : Table T keys} {constructor : Nat → Option T} {v : T}
    (constructs : constructor t.nextId = some v) (taken : ¬ t.Free (Object.id v) v) :
    t.emplace constructor = (false, t) := by
  simp [emplace, constructs, taken]

theorem modify_missing {t : Table T keys} {id : Nat} {modifier : T → T × Bool} (missing : t.objects id = none) :
    t.modify id modifier = (true, t) := by
  unfold modify
  split
  · rfl
  next found => exact absurd (missing.symm.trans found) (by simp)

theorem modify_kept {t : Table T keys} {id : Nat} {modifier : T → T × Bool} {old : T} (found : t.objects id = some old)
    (keyed : Object.id (modifier old).1 = id) (free : t.Free id (modifier old).1) :
    t.modify id modifier = (!(modifier old).2, t.replace id (modifier old).1 keyed (t.below id old found) free) := by
  unfold modify
  split
  next missing => exact absurd (missing.symm.trans found) (by simp)
  next other again =>
    obtain rfl : old = other := Option.some.inj (found.symm.trans again)
    rw [dif_pos ⟨keyed, free⟩]

theorem modify_erased {t : Table T keys} {id : Nat} {modifier : T → T × Bool} {old : T} (found : t.objects id = some old)
    (bad : ¬ (Object.id (modifier old).1 = id ∧ t.Free id (modifier old).1)) :
    t.modify id modifier = (false, t.erase id) := by
  unfold modify
  split
  next missing => exact absurd (missing.symm.trans found) (by simp)
  next other again =>
    obtain rfl : old = other := Option.some.inj (found.symm.trans again)
    rw [dif_neg bad]

end Table

end ChainBase
