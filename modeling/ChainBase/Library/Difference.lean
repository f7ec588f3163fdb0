import Mathlib.Data.List.Nodup
import Mathlib.Logic.Function.Basic

/-! The difference between two keyed collections: what was added, the old values of
what may have changed, and what was removed; and how it leads back to the earlier one. -/

namespace Difference

variable {ι : Type u} {β : Type v} [DecidableEq ι] (key : β → ι)

/-- Each of the values replaces whatever there is under its key. -/
def overwrite (objects : ι → Option β) (l : List β) : ι → Option β :=
  l.foldl (fun objects v => Function.update objects (key v) (some v)) objects

/-- Nothing is left under the keys of these values. -/
def without (objects : ι → Option β) (l : List β) : ι → Option β :=
  fun i => if i ∈ l.map key then none else objects i

structure Exact (before now : ι → Option β) (added changed removed : List β) : Prop where
  additions : ∀ v, v ∈ added ↔ now (key v) = some v ∧ before (key v) = none
  removals : ∀ v, v ∈ removed ↔ before (key v) = some v ∧ now (key v) = none
  changes : ∀ v ∈ changed, before (key v) = some v ∧ (now (key v)).isSome
  once : ((added ++ changed ++ removed).map key).Nodup
  restores : overwrite key (overwrite key (without key now added) changed) removed = before

variable {key} {objects before now : ι → Option β} {l added changed removed : List β} {i : ι} {v : β}

theorem overwrite_other (absent : i ∉ l.map key) : overwrite key objects l i = objects i := by
  induction l generalizing objects with
  | nil => rfl
  | cons v l ih =>
    simp only [List.map_cons, List.mem_cons, not_or] at absent
    rw [overwrite, List.foldl_cons, ← overwrite, ih absent.2, Function.update_of_ne absent.1]

theorem overwrite_mem (nodup : (l.map key).Nodup) (member : v ∈ l) : overwrite key objects l (key v) = some v := by
  induction l generalizing objects with
  | nil => cases member
  | cons w l ih =>
    obtain ⟨fresh, nodup⟩ := List.nodup_cons.mp nodup
    rw [overwrite, List.foldl_cons, ← overwrite]
    rcases List.mem_cons.mp member with rfl | member
    · rw [overwrite_other fresh, Function.update_self]
    · exact ih nodup member

/-- A difference that tells everything that was added, changed or removed leads back. -/
theorem exact_of (keyed : ∀ i v, before i = some v → key v = i) (known : ∀ i v, now i = some v → key v = i)
    (new : ∀ v, v ∈ added ↔ now (key v) = some v ∧ before (key v) = none)
    (gone : ∀ v, v ∈ removed ↔ before (key v) = some v ∧ now (key v) = none)
    (old : ∀ v ∈ changed, before (key v) = some v ∧ (now (key v)).isSome)
    (once : ((added ++ changed ++ removed).map key).Nodup)
    (same : ∀ i v w, before i = some v → now i = some w → i ∉ changed.map key → w = v) :
    Exact key before now added changed removed := by
  refine ⟨new, gone, old, once, funext fun i => ?_⟩
  rw [List.map_append, List.map_append] at once
  have removedOnce := (List.nodup_append.mp once).2.1
  have changedOnce := (List.nodup_append.mp (List.nodup_append.mp once).1).2.1
  by_cases left : i ∈ removed.map key
  · obtain ⟨v, member, rfl⟩ := List.mem_map.mp left
    rw [overwrite_mem removedOnce member, ((gone v).mp member).1]
  rw [overwrite_other left]
  by_cases edited : i ∈ changed.map key
  · obtain ⟨v, member, rfl⟩ := List.mem_map.mp edited
    rw [overwrite_mem changedOnce member, (old v member).1]
  rw [overwrite_other edited, without]
  by_cases created : i ∈ added.map key
  · obtain ⟨v, member, rfl⟩ := List.mem_map.mp created
    rw [if_pos created, ((new v).mp member).2]
  rw [if_neg created]
  cases past : before i with
  | none =>
    cases present : now i with
    | none => rfl
    | some w =>
      obtain rfl := known i w present
      exact absurd (List.mem_map_of_mem ((new w).mpr ⟨present, past⟩)) created
  | some v =>
    cases present : now i with
    | none =>
      obtain rfl := keyed i v past
      exact absurd (List.mem_map_of_mem ((gone v).mpr ⟨past, present⟩)) left
    | some w => rw [same i v w past present edited]

end Difference
