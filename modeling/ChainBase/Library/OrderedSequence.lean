import Mathlib.Data.List.TakeWhile
import Mathlib.Data.List.Perm.Basic
import Mathlib.Order.Lattice

/-! Sequences ordered by a comparator, as a search tree presents them to its
user: elements are linked and unlinked one at a time, and a comparator decides
where. One element may be out of place while its key is being changed. -/

namespace OrderedSequence

/-- A strict weak order given by its decision procedure. Elements that are not
less than one another in either direction have the same key. -/
structure Comparator (α : Type u) where
  less : α → α → Bool
  asymm : ∀ {a b}, less a b = true → less b a = false
  negTrans : ∀ {a b c}, less a b = false → less b c = false → less a c = false

namespace Comparator

/-- The order of the keys an extractor reads off the elements. -/
def ofKey [LinearOrder κ] (key : α → κ) : Comparator α where
  less a b := decide (key a < key b)
  asymm lower := by simpa using (of_decide_eq_true lower).le
  negTrans first second := by
    simp only [decide_eq_false_iff_not, not_lt] at first second ⊢
    exact second.trans first

/-- The same order on handles, each standing for the element it points to. -/
def comap (c : Comparator α) (f : β → α) : Comparator β where
  less a b := c.less (f a) (f b)
  asymm := c.asymm
  negTrans := c.negTrans

@[simp] theorem comap_less (c : Comparator α) (f : β → α) (a b : β) :
    (c.comap f).less a b = c.less (f a) (f b) := rfl

@[simp] theorem ofKey_less [LinearOrder κ] (key : α → κ) (a b : α) :
    (ofKey key).less a b = decide (key a < key b) := rfl

/-- Neither element comes before the other: they share their key. -/
def Same (c : Comparator α) (a b : α) : Prop := c.less a b = false ∧ c.less b a = false

instance (c : Comparator α) (a b : α) : Decidable (c.Same a b) :=
  inferInstanceAs (Decidable (_ ∧ _))

theorem comap_same (c : Comparator α) (f : β → α) (a b : β) : (c.comap f).Same a b ↔ c.Same (f a) (f b) := Iff.rfl

variable (c : Comparator α) {x y z : α}

@[simp] theorem irrefl (a : α) : c.less a a = false := by
  cases lower : c.less a a with
  | false => rfl
  | true => exact lower.symm.trans (c.asymm lower)

theorem less_of_less_of_le (lower : c.less x y = true) (notAbove : c.less z y = false) :
    c.less x z = true := by
  cases other : c.less x z with
  | true => rfl
  | false => exact absurd (c.negTrans other notAbove) (by simp [lower])

theorem less_of_le_of_less (notAbove : c.less y x = false) (lower : c.less y z = true) :
    c.less x z = true := by
  cases other : c.less x z with
  | true => rfl
  | false => exact absurd (c.negTrans notAbove other) (by simp [lower])

theorem Same.symm {c : Comparator α} (same : c.Same x y) : c.Same y x := ⟨same.2, same.1⟩

end Comparator

/-- In order, with equal keys allowed next to each other. -/
def Sorted (c : Comparator α) (l : List α) : Prop := l.Pairwise (fun a b => c.less b a = false)

/-- In strictly increasing order, hence without two elements of one key. -/
def StrictlySorted (c : Comparator α) (l : List α) : Prop := l.Pairwise (fun a b => c.less a b = true)

instance (c : Comparator α) (l : List α) : Decidable (Sorted c l) :=
  inferInstanceAs (Decidable (l.Pairwise (fun a b => c.less b a = false)))

instance (c : Comparator α) (l : List α) : Decidable (StrictlySorted c l) :=
  inferInstanceAs (Decidable (l.Pairwise (fun a b => c.less a b = true)))

theorem StrictlySorted.sorted {c : Comparator α} {l : List α} (strict : StrictlySorted c l) : Sorted c l :=
  strict.imp c.asymm

theorem Sorted.strictly {c : Comparator α} {l : List α} (sorted : Sorted c l)
    (distinct : l.Pairwise (fun a b => ¬ c.Same a b)) : StrictlySorted c l := by
  refine List.Pairwise.imp ?_ (sorted.and distinct)
  intro a b ⟨notAbove, different⟩
  cases lower : c.less a b with
  | true => rfl
  | false => exact absurd ⟨lower, notAbove⟩ different

theorem StrictlySorted.distinct {c : Comparator α} {l : List α} (strict : StrictlySorted c l) :
    l.Pairwise (fun a b => ¬ c.Same a b) := by
  refine strict.imp ?_
  intro a b lower same
  exact absurd same.1 (by simp [lower])

/-- The elements that do not come after `x`, and those that do. -/
def upTo (c : Comparator α) (x : α) (l : List α) : List α := l.takeWhile (fun y => !c.less x y)
def beyond (c : Comparator α) (x : α) (l : List α) : List α := l.dropWhile (fun y => !c.less x y)

/-- Link `x` behind the elements that do not come after it. -/
def insertEqual (c : Comparator α) (x : α) (l : List α) : List α := upTo c x l ++ x :: beyond c x l

/-- Link `x` unless an element of the same key blocks it, and say which one. -/
def insertUnique (c : Comparator α) (x : α) (l : List α) : Except α (List α) :=
  match (upTo c x l).getLast? with
  | some blocking => if c.less blocking x then .ok (insertEqual c x l) else .error blocking
  | none => .ok (insertEqual c x l)

/-- Link `x` in front of `position`, wherever that leaves it in the order. -/
def insertBefore [DecidableEq α] (position x : α) (l : List α) : List α :=
  l.takeWhile (· ≠ position) ++ x :: l.dropWhile (· ≠ position)

/-- The neighbours of `x`. -/
def previous [DecidableEq α] (x : α) (l : List α) : Option α := (l.takeWhile (· ≠ x)).getLast?
def next [DecidableEq α] (x : α) (l : List α) : Option α := (l.dropWhile (· ≠ x)).tail.head?

section Insertion
variable {c : Comparator α} {x y : α} {l : List α}

theorem upTo_append_beyond (c : Comparator α) (x : α) (l : List α) : upTo c x l ++ beyond c x l = l :=
  List.takeWhile_append_dropWhile

theorem not_less_of_mem_upTo (member : y ∈ upTo c x l) : c.less x y = false := by
  have kept := List.all_eq_true.mp (List.all_takeWhile (l := l) (p := fun y => !c.less x y)) y member
  simpa using kept

theorem less_of_mem_beyond (sorted : Sorted c l) (member : y ∈ beyond c x l) : c.less x y = true := by
  induction l with
  | nil => cases member
  | cons z l ih =>
    obtain ⟨first, rest⟩ := List.pairwise_cons.mp sorted
    by_cases after : c.less x z = true
    · simp only [beyond, List.dropWhile_cons, after, Bool.not_true, Bool.false_eq_true, if_false,
        List.mem_cons] at member
      rcases member with rfl | member
      · exact after
      · exact c.less_of_less_of_le after (first y member)
    · simp only [beyond, List.dropWhile_cons, after, Bool.not_false, if_true] at member
      exact ih rest member

theorem insertEqual_perm (c : Comparator α) (x : α) (l : List α) : (insertEqual c x l).Perm (x :: l) := by
  have middle : (insertEqual c x l).Perm (x :: (upTo c x l ++ beyond c x l)) := List.perm_middle
  rwa [upTo_append_beyond] at middle

theorem mem_insertEqual : y ∈ insertEqual c x l ↔ y = x ∨ y ∈ l := by
  rw [(insertEqual_perm c x l).mem_iff, List.mem_cons]

theorem insertEqual_sorted (sorted : Sorted c l) : Sorted c (insertEqual c x l) := by
  have whole : Sorted c (upTo c x l ++ beyond c x l) := by rwa [upTo_append_beyond]
  obtain ⟨left, right, across⟩ := List.pairwise_append.mp whole
  refine List.pairwise_append.mpr ⟨left, List.pairwise_cons.mpr ⟨?_, right⟩, ?_⟩
  · intro z member
    exact c.asymm (less_of_mem_beyond sorted member)
  · intro z before w after
    rcases List.mem_cons.mp after with rfl | after
    · exact not_less_of_mem_upTo before
    · exact across z before w after

theorem insertEqual_strictlySorted (strict : StrictlySorted c l) (free : ∀ y ∈ l, ¬ c.Same x y) :
    StrictlySorted c (insertEqual c x l) := by
  refine (insertEqual_sorted strict.sorted).strictly ?_
  refine ((insertEqual_perm c x l).pairwise_iff (fun {a b} different same => different same.symm)).mpr ?_
  exact List.pairwise_cons.mpr ⟨free, strict.distinct⟩

theorem erase_insertEqual [DecidableEq α] (absent : x ∉ l) : (insertEqual c x l).erase x = l := by
  have before : x ∉ upTo c x l := fun member => absent ((List.takeWhile_sublist _).subset member)
  rw [insertEqual, List.erase_append_right _ before, List.erase_cons_head, upTo_append_beyond]

theorem erase_insertBefore [DecidableEq α] (position : α) (absent : x ∉ l) :
    (insertBefore position x l).erase x = l := by
  have before : x ∉ l.takeWhile (· ≠ position) := fun member => absent ((List.takeWhile_sublist _).subset member)
  rw [insertBefore, List.erase_append_right _ before, List.erase_cons_head, List.takeWhile_append_dropWhile]

theorem insertBefore_perm [DecidableEq α] (position x : α) (l : List α) :
    (insertBefore position x l).Perm (x :: l) := by
  have middle := @List.perm_middle _ x (l.takeWhile (· ≠ position)) (l.dropWhile (· ≠ position))
  rwa [List.takeWhile_append_dropWhile] at middle

/-- Unique insertion fails exactly on an equal key, and otherwise places the
element as plain insertion does. -/
theorem insertUnique_cases (sorted : Sorted c l) :
    (insertUnique c x l = .ok (insertEqual c x l) ∧ ∀ y ∈ l, ¬ c.Same x y) ∨
    ∃ blocking ∈ l, insertUnique c x l = .error blocking ∧ c.Same x blocking := by
  have above : ∀ y ∈ beyond c x l, ¬ c.Same x y := by
    intro y member same
    simp [Comparator.Same, less_of_mem_beyond sorted member] at same
  cases last : (upTo c x l).getLast? with
  | none =>
    have empty : upTo c x l = [] := List.getLast?_eq_none_iff.mp last
    refine Or.inl ⟨by simp [insertUnique, last], ?_⟩
    intro y member
    rw [← upTo_append_beyond c x l, empty, List.nil_append] at member
    exact above y member
  | some blocking =>
    obtain ⟨front, split⟩ := List.getLast?_eq_some_iff.mp last
    have inside : blocking ∈ upTo c x l := by simp [split]
    have notAbove := not_less_of_mem_upTo inside
    cases lower : c.less blocking x with
    | false =>
      refine Or.inr ⟨blocking, (List.takeWhile_sublist _).subset inside, ?_, notAbove, lower⟩
      simp [insertUnique, last, lower]
    | true =>
      refine Or.inl ⟨by simp [insertUnique, last, lower], ?_⟩
      intro y member
      rw [← upTo_append_beyond c x l, List.mem_append] at member
      rcases member with member | member
      · have ordered : Sorted c (upTo c x l) := List.Pairwise.sublist (List.takeWhile_sublist _) sorted
        rw [split] at ordered member
        rcases List.mem_append.mp member with member | member
        · have below := (List.pairwise_append.mp ordered).2.2 y member blocking (by simp)
          intro same
          simp [Comparator.Same, c.less_of_le_of_less below lower] at same
        · obtain rfl : y = blocking := by simpa using member
          intro same
          simp [Comparator.Same, lower] at same
      · exact above y member

end Insertion

/-! ## Moving one element whose key has changed -/

section Repositioning
variable [DecidableEq α] {c : Comparator α} {x y : α} {l : List α}

/-- The test on the two neighbours only: `x` is not strictly between them. -/
def misplaced (c : Comparator α) (x : α) (l : List α) : Bool :=
  (previous x l).any (fun before => !c.less before x) || (next x l).any (fun after => !c.less x after)

/-- Leave an element that passes the neighbour test, and relink any other. -/
def reposition (c : Comparator α) (x : α) (l : List α) : List α :=
  if misplaced c x l then insertEqual c x (l.erase x) else l

private theorem split_at {s t : List α} (absent : x ∉ s) :
    (s ++ x :: t).takeWhile (· ≠ x) = s ∧ (s ++ x :: t).dropWhile (· ≠ x) = x :: t ∧ (s ++ x :: t).erase x = s ++ t := by
  have different : ∀ a ∈ s, (decide (a ≠ x)) = true := by
    intro a member
    simpa using fun same : a = x => absent (same ▸ member)
  refine ⟨?_, ?_, ?_⟩
  · rw [List.takeWhile_append_of_pos different]
    simp
  · rw [List.dropWhile_append_of_pos different]
    simp
  · rw [List.erase_append_right _ absent, List.erase_cons_head]

/-- If only `x` may be out of place, its neighbours decide: passing their test
puts it strictly between everything before and everything after it. -/
theorem sorted_of_not_misplaced (member : x ∈ l) (others : Sorted c (l.erase x)) (fits : misplaced c x l = false) :
    Sorted c l ∧ ∀ y ∈ l.erase x, ¬ c.Same x y := by
  obtain ⟨s, t, rfl, absent⟩ := List.eq_append_cons_of_mem member
  obtain ⟨front, back, rest⟩ := split_at (t := t) absent
  rw [rest] at others ⊢
  simp only [misplaced, previous, next, front, back, List.tail_cons, Bool.or_eq_false_iff] at fits
  obtain ⟨left, right, across⟩ := List.pairwise_append.mp others
  have below : ∀ y ∈ s, c.less y x = true := by
    intro y before
    cases last : s.getLast? with
    | none => simp [List.getLast?_eq_none_iff.mp last] at before
    | some z =>
      obtain ⟨earlier, rfl⟩ := List.getLast?_eq_some_iff.mp last
      have lower : c.less z x = true := by simpa using fits.1
      rcases List.mem_append.mp before with before | before
      · exact c.less_of_le_of_less ((List.pairwise_append.mp left).2.2 y before z (by simp)) lower
      · obtain rfl : y = z := by simpa using before
        exact lower
  have above : ∀ y ∈ t, c.less x y = true := by
    intro y after
    cases t with
    | nil => cases after
    | cons z t =>
      have lower : c.less x z = true := by simpa using fits.2
      rcases List.mem_cons.mp after with rfl | after
      · exact lower
      · exact c.less_of_less_of_le lower ((List.pairwise_cons.mp right).1 y after)
  constructor
  · refine List.pairwise_append.mpr ⟨left, List.pairwise_cons.mpr ⟨fun y after => c.asymm (above y after), right⟩, ?_⟩
    intro a before b after
    rcases List.mem_cons.mp after with rfl | after
    · exact c.asymm (below a before)
    · exact across a before b after
  · intro y member same
    rcases List.mem_append.mp member with before | after
    · simp [Comparator.Same, below y before] at same
    · simp [Comparator.Same, above y after] at same

theorem reposition_perm (member : x ∈ l) : (reposition c x l).Perm l := by
  unfold reposition
  split
  · exact (insertEqual_perm c x _).trans (List.perm_cons_erase member).symm
  · exact List.Perm.refl l

theorem reposition_sorted (member : x ∈ l) (others : Sorted c (l.erase x)) : Sorted c (reposition c x l) := by
  unfold reposition
  split
  next => exact insertEqual_sorted others
  next fits => exact (sorted_of_not_misplaced member others (by simpa using fits)).1

theorem erase_reposition (nodup : l.Nodup) : (reposition c x l).erase x = l.erase x := by
  unfold reposition
  split
  · exact erase_insertEqual nodup.not_mem_erase
  · rfl

/-- The place of an element with a key of its own is determined by the others. -/
theorem sorted_unique {first second : List α} (firstMember : x ∈ first) (secondMember : x ∈ second)
    (firstSorted : Sorted c first) (secondSorted : Sorted c second)
    (agree : first.erase x = second.erase x) (free : ∀ y ∈ second.erase x, ¬ c.Same x y) : first = second := by
  have located : ∀ l : List α, x ∈ l → Sorted c l → l.erase x = second.erase x →
      l = insertEqual c x (second.erase x) := by
    intro l member sorted rest
    obtain ⟨s, t, rfl, absent⟩ := List.eq_append_cons_of_mem member
    rw [(split_at (t := t) absent).2.2] at rest
    rw [← rest] at free ⊢
    obtain ⟨-, right, across⟩ := List.pairwise_append.mp sorted
    have front : ∀ y ∈ s, (!c.less x y) = true := by
      intro y before
      simpa using across y before x (by simp)
    have back : ∀ y ∈ t, c.less x y = true := by
      intro y after
      have notAbove := (List.pairwise_cons.mp right).1 y after
      cases lower : c.less x y with
      | true => rfl
      | false => exact absurd ⟨lower, notAbove⟩ (free y (by simp [after]))
    have stop : t.takeWhile (fun y => !c.less x y) = [] ∧ t.dropWhile (fun y => !c.less x y) = t := by
      cases t with
      | nil => exact ⟨rfl, rfl⟩
      | cons z t => simp [back z (by simp)]
    simp only [insertEqual, upTo, beyond, List.takeWhile_append_of_pos front, List.dropWhile_append_of_pos front,
      stop.1, stop.2, List.append_nil]
  exact (located first firstMember firstSorted agree).trans (located second secondMember secondSorted rfl).symm

end Repositioning

theorem StrictlySorted.eq_of_perm {c : Comparator α} {first second : List α} (firstStrict : StrictlySorted c first)
    (secondStrict : StrictlySorted c second) (perm : first.Perm second) : first = second := by
  refine perm.eq_of_pairwise ?_ firstStrict secondStrict
  intro a b _ _ lower upper
  exact absurd (c.asymm lower) (by simp [upper])

end OrderedSequence
