import Mathlib.Logic.Function.Basic
import Mathlib.Data.List.Nodup

/-! Singly linked lists in a memory, seen through the function that reads the link of a
cell. A segment leads from a cell over others to the one where it stops, which may be the
first one again. -/

namespace ListSegment

variable {α : Type u} {β : Type v} {next other : α → Option α} {a b stop : α} {cells front back : List α}

def Segment (next : α → Option α) : α → List α → α → Prop
  | a, [], stop => next a = some stop
  | a, b :: cells, stop => next a = some b ∧ Segment next b cells stop

instance Segment.decidable [DecidableEq α] (next : α → Option α) : ∀ a cells stop, Decidable (Segment next a cells stop)
  | a, [], stop => inferInstanceAs (Decidable (next a = some stop))
  | a, b :: cells, stop =>
    have := Segment.decidable next b cells stop
    inferInstanceAs (Decidable (next a = some b ∧ Segment next b cells stop))

/-- Only the links of the cells in front of the stop are read. -/
theorem Segment.congr (segment : Segment next a cells stop) (same : ∀ c ∈ a :: cells, other c = next c) :
    Segment other a cells stop := by
  induction cells generalizing a with
  | nil => exact (same a (by simp)).trans segment
  | cons b cells ih =>
    refine ⟨(same a (by simp)).trans segment.1, ih segment.2 fun c member => ?_⟩
    exact same c (List.mem_cons_of_mem a member)

theorem segment_append : Segment next a (front ++ b :: back) stop ↔ Segment next a front b ∧ Segment next b back stop := by
  induction front generalizing a with
  | nil => rfl
  | cons c front ih => rw [List.cons_append, Segment, Segment, ih, and_assoc]

/-- The cell behind the first one leaves the segment. -/
theorem Segment.unlink [DecidableEq α] (segment : Segment next a (b :: cells) stop) (apart : (a :: b :: cells).Nodup) :
    Segment (Function.update next a (next b)) a cells stop := by
  obtain ⟨outside, -⟩ := List.nodup_cons.mp apart
  cases cells with
  | nil =>
    show Function.update next a (next b) a = some stop
    rw [Function.update_self]
    exact segment.2
  | cons c cells =>
    obtain ⟨-, link, rest⟩ := segment
    refine ⟨(Function.update_self a (next b) next).trans link, rest.congr fun d member => ?_⟩
    apply Function.update_of_ne
    rintro rfl
    exact outside (List.mem_cons_of_mem b member)

theorem Segment.map (f : α → β) {renamed : β → Option β} (same : ∀ c ∈ a :: cells, renamed (f c) = (next c).map f)
    (segment : Segment next a cells stop) : Segment renamed (f a) (cells.map f) (f stop) := by
  induction cells generalizing a with
  | nil => exact (same a (by simp)).trans (congrArg (Option.map f) segment)
  | cons b cells ih =>
    refine ⟨(same a (by simp)).trans (congrArg (Option.map f) segment.1), ih (fun c member => ?_) segment.2⟩
    exact same c (List.mem_cons_of_mem a member)

end ListSegment
