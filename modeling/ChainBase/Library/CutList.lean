import Mathlib.Data.List.TakeWhile

/-! Several stacks sharing one singly linked list. Each keeps a pointer to the
element that was at the head when it was opened, so its own part is what comes
before that element. Elements are pushed and dropped at the front only. -/

namespace CutList

variable {α : Type u} {ι : Type v} [DecidableEq ι] (address : α → ι)

/-- The elements in front of a pointer into the list; all of them for a null
pointer, which stands for the end. -/
def above : Option ι → List α → List α
  | none, l => l
  | some stop, l => l.takeWhile (fun a => address a ≠ stop)

def below : Option ι → List α → List α
  | none, _ => []
  | some stop, l => l.dropWhile (fun a => address a ≠ stop)

/-- The pointer a stack opened now would keep. -/
def head (l : List α) : Option ι := l.head?.map address

variable {address} {stop : Option ι} {l : List α}

variable (address) in
@[simp] theorem above_append_below (stop : Option ι) (l : List α) :
    above address stop l ++ below address stop l = l := by
  cases stop with
  | none => simp [above, below]
  | some stop => exact List.takeWhile_append_dropWhile

theorem above_initial (stop : Option ι) (l : List α) : above address stop l <+: l :=
  ⟨below address stop l, above_append_below address stop l⟩

theorem above_subset {a : α} (member : a ∈ above address stop l) : a ∈ l :=
  (above_initial stop l).subset member

theorem below_subset {a : α} (member : a ∈ below address stop l) : a ∈ l := by
  rw [← above_append_below address stop l]
  exact List.mem_append_right _ member

theorem replaced_subset {front : List α} (subset : ∀ a ∈ front, a ∈ above address stop l) {a : α}
    (member : a ∈ front ++ below address stop l) : a ∈ l := by
  rcases List.mem_append.mp member with inside | behind
  · exact above_subset (subset a inside)
  · exact below_subset behind

theorem cut_subset {a : α} (member : a ∈ above address stop l ++ (below address stop l).take 1) : a ∈ l := by
  rcases List.mem_append.mp member with inside | behind
  · exact above_subset inside
  · exact below_subset (List.mem_of_mem_take behind)

variable (address) in
@[simp] theorem above_head (l : List α) : above address (head address l) l = [] := by
  cases l <;> simp [above, head]

theorem head_below (known : ∀ p, stop = some p → p ∈ l.map address) : head address (below address stop l) = stop := by
  cases stop with
  | none => rfl
  | some stop =>
    obtain ⟨a, member, same⟩ := List.mem_map.mp (known stop rfl)
    have present : below address (some stop) l ≠ [] := by
      simpa [below, List.dropWhile_eq_nil_iff] using ⟨a, member, same⟩
    have first := List.head_dropWhile_not (fun a => decide (address a ≠ stop)) present
    rw [head, List.head?_eq_some_head present, Option.map_some]
    exact congrArg some (of_decide_eq_false first |> Decidable.not_not.mp)

theorem above_cons {a : α} (fresh : stop ≠ some (address a)) :
    above address stop (a :: l) = a :: above address stop l := by
  cases stop with
  | none => rfl
  | some stop =>
    have different : address a ≠ stop := fun same => fresh (congrArg some same.symm)
    simp [above, different]

/-- What lies in front of an inner pointer lies in front of the outer one, so
both ways to cut the outer part agree. -/
theorem above_append {front back : List α} (inner : ∀ a ∈ front, stop ≠ some (address a)) :
    above address stop (front ++ back) = front ++ above address stop back := by
  cases stop with
  | none => rfl
  | some stop =>
    refine List.takeWhile_append_of_pos ?_
    intro a member
    simpa using fun same : address a = stop => inner a member (congrArg some same.symm)

theorem ne_of_mem_above {a : α} (member : a ∈ above address stop l) : stop ≠ some (address a) := by
  cases stop with
  | none => exact fun impossible => by cases impossible
  | some stop =>
    have kept := List.all_eq_true.mp (List.all_takeWhile (l := l) (p := fun a => decide (address a ≠ stop))) a member
    rintro ⟨⟩
    simp at kept

/-- The outer part of a list is the inner part and what follows it up to the
outer pointer. -/
theorem above_split {outer inner : Option ι} (nested : above address inner l <+: above address outer l) :
    above address outer l = above address inner l ++ above address outer (below address inner l) := by
  have passes : ∀ a ∈ above address inner l, outer ≠ some (address a) :=
    fun a member => ne_of_mem_above (nested.subset member)
  rw [← above_append passes, above_append_below]

/-- A pointer that lies behind the front part points into the back part. -/
theorem pointer_below {outer inner : Option ι} (nested : above address inner l <+: above address outer l)
    (inside : ∀ p, outer = some p → p ∈ l.map address) :
    ∀ p, outer = some p → p ∈ (below address inner l).map address := by
  intro p pointer
  obtain ⟨a, member, same⟩ := List.mem_map.mp (inside p pointer)
  rw [← above_append_below address inner l, List.mem_append] at member
  rcases member with member | member
  · exact absurd (pointer.trans (congrArg some same.symm)) (ne_of_mem_above (nested.subset member))
  · exact List.mem_map.mpr ⟨a, member, same⟩

/-- Cutting the list off behind the pointer of an outer part keeps every inner
part, and the element an inner pointer points to. -/
theorem above_take {outer inner : Option ι} (nested : above address inner l <+: above address outer l) :
    above address inner (above address outer l ++ (below address outer l).take 1) = above address inner l := by
  have split := above_append_below address outer l
  cases inner with
  | none =>
    have whole : above address outer l = l := (nested.eq_of_length_le (above_initial outer l).length_le).symm
    have rest : below address outer l = [] := by
      rw [whole] at split
      exact List.append_right_eq_self.mp split
    simp only [above, rest, List.take_nil, List.append_nil]
    exact whole
  | some stop =>
    by_cases reached : ∃ a ∈ above address outer l, address a = stop
    · obtain ⟨a, member, same⟩ := reached
      have cut : ∀ back : List α, above address (some stop) (above address outer l ++ back) =
          above address (some stop) (above address outer l) := by
        intro back
        have stops : (above address outer l).takeWhile (fun a => decide (address a ≠ stop)) ≠ above address outer l := by
          intro whole
          have kept := List.all_eq_true.mp (List.all_takeWhile (l := above address outer l)
            (p := fun a => decide (address a ≠ stop))) a (by rw [whole]; exact member)
          simp [same] at kept
        simp only [above, List.takeWhile_append]
        rw [if_neg]
        intro sameLength
        exact stops (( List.takeWhile_prefix _).eq_of_length sameLength)
      rw [cut, ← cut (below address outer l), split]
    · have passes : ∀ a ∈ above address outer l, some stop ≠ some (address a) := by
        intro a member same
        exact reached ⟨a, member, (Option.some.inj same).symm⟩
      have whole : above address (some stop) l = above address outer l ++ above address (some stop) (below address outer l) := by
        rw [← above_append passes, split]
      rw [above_append passes, whole]
      have empty : above address (some stop) (below address outer l) = [] := by
        have bounded := nested.length_le
        rw [whole, List.length_append] at bounded
        exact List.length_eq_zero_iff.mp (by omega)
      rw [empty]
      cases back : below address outer l with
      | nil => rfl
      | cons a rest =>
        rw [back] at empty
        by_cases same : address a = stop
        · simp [above, same]
        · simp [above, same] at empty

theorem pointer_take {outer inner : Option ι} (nested : above address inner l <+: above address outer l)
    (inside : ∀ p, inner = some p → p ∈ l.map address) :
    ∀ p, inner = some p → p ∈ (above address outer l ++ (below address outer l).take 1).map address := by
  rintro p rfl
  by_contra missing
  have all : above address (some p) (above address outer l ++ (below address outer l).take 1) =
      above address outer l ++ (below address outer l).take 1 := by
    refine List.takeWhile_eq_self_iff.mpr ?_
    intro a member
    simpa using fun same : address a = p => missing (List.mem_map.mpr ⟨a, member, same⟩)
  rw [above_take nested] at all
  have bounded := nested.length_le
  rw [all, List.length_append] at bounded
  have empty : below address outer l = [] := by
    cases back : below address outer l with
    | nil => rfl
    | cons a rest =>
      simp only [back, List.take_succ_cons, List.take_zero, List.length_singleton] at bounded
      omega
  have whole := above_append_below address outer l
  rw [empty, List.append_nil] at whole
  rw [empty, List.take_nil, List.append_nil, whole] at missing
  exact missing (inside p rfl)

/-! ## Stacks opened one after another

The innermost stack comes first. -/

variable (address) in
structure Layers (l : List α) (stops : List (Option ι)) : Prop where
  inside : ∀ stop ∈ stops, ∀ p, stop = some p → p ∈ l.map address
  nested : stops.Pairwise (fun inner outer => above address inner l <+: above address outer l)

section Rules
variable {stops : List (Option ι)} {top : Option ι} {a : α}

theorem layers_nil (l : List α) : Layers address l [] := ⟨by simp, .nil⟩

theorem Layers.opened (layers : Layers address l stops) : Layers address l (head address l :: stops) where
  inside := by
    intro stop member p pointer
    rcases List.mem_cons.mp member with rfl | member
    · cases l with
      | nil => cases pointer
      | cons first rest =>
        simp only [head, List.head?_cons, Option.map_some, Option.some.injEq] at pointer
        simp [pointer]
    · exact layers.inside stop member p pointer
  nested := by
    refine List.pairwise_cons.mpr ⟨fun stop _ => ?_, layers.nested⟩
    rw [above_head]
    exact List.nil_prefix

theorem Layers.closed (layers : Layers address l (top :: stops)) : Layers address l stops :=
  ⟨fun stop member => layers.inside stop (by simp [member]), (List.pairwise_cons.mp layers.nested).2⟩

theorem Layers.above_push (layers : Layers address l stops) (new : address a ∉ l.map address) (member : stop ∈ stops) :
    above address stop (a :: l) = a :: above address stop l :=
  above_cons fun pointer => new (layers.inside stop member _ pointer)

theorem Layers.below_push (layers : Layers address l stops) (new : address a ∉ l.map address) (member : stop ∈ stops) :
    below address stop (a :: l) = below address stop l := by
  have both := above_append_below address stop (a :: l)
  rw [layers.above_push new member, List.cons_append, List.cons.injEq] at both
  have parts := both.2.trans (above_append_below address stop l).symm
  exact List.append_cancel_left parts

theorem Layers.push (layers : Layers address l stops) (new : address a ∉ l.map address) : Layers address (a :: l) stops where
  inside stop member p pointer := List.mem_cons_of_mem _ (layers.inside stop member p pointer)
  nested := by
    refine List.Pairwise.imp_of_mem ?_ layers.nested
    intro inner outer first second nested
    rw [layers.above_push new first, layers.above_push new second]
    exact (List.prefix_cons_inj a).mpr nested

theorem above_below (stop : Option ι) (l : List α) : above address stop (below address stop l) = [] := by
  cases stop with
  | none => rfl
  | some stop =>
    refine List.takeWhile_eq_nil_iff.mpr ?_
    intro inside
    have stopped := List.dropWhile_get_zero_not (fun a => decide (address a ≠ stop)) l inside
    simpa [below] using stopped

theorem Layers.split (layers : Layers address l (top :: stops)) (member : stop ∈ top :: stops) :
    above address stop l = above address top l ++ above address stop (below address top l) := by
  rcases List.mem_cons.mp member with rfl | member
  · rw [above_below, List.append_nil]
  · exact above_split ((List.pairwise_cons.mp layers.nested).1 stop member)

/-- The innermost part may be replaced by some of its elements. -/
theorem Layers.above_replace (layers : Layers address l (top :: stops)) (front : List α)
    (subset : ∀ a ∈ front, a ∈ above address top l) (member : stop ∈ top :: stops) :
    above address stop (front ++ below address top l) = front ++ above address stop (below address top l) := by
  refine above_append fun a inside => ?_
  have whole : a ∈ above address stop l := by
    rw [layers.split member]
    exact List.mem_append_left _ (subset a inside)
  exact ne_of_mem_above whole

theorem Layers.below_replace (layers : Layers address l (top :: stops)) (front : List α)
    (subset : ∀ a ∈ front, a ∈ above address top l) (member : stop ∈ top :: stops) :
    below address stop (front ++ below address top l) = below address stop l := by
  have whole := above_append_below address stop l
  have parts := above_append_below address stop (front ++ below address top l)
  rw [layers.above_replace front subset member, List.append_assoc] at parts
  have rest := List.append_cancel_left parts
  have outer := above_append_below address top l
  rw [layers.split member, List.append_assoc] at whole
  exact List.append_cancel_left (rest.trans (List.append_cancel_left (whole.trans outer.symm)).symm)

theorem Layers.replace (layers : Layers address l (top :: stops)) (front : List α)
    (subset : ∀ a ∈ front, a ∈ above address top l) :
    Layers address (front ++ below address top l) (top :: stops) where
  inside stop member p pointer := by
    have inside := layers.inside stop member p pointer
    have nested : above address top l <+: above address stop l :=
      ⟨above address stop (below address top l), (layers.split member).symm⟩
    have later := pointer_below nested (layers.inside stop member) p pointer
    simp only [List.map_append, List.mem_append]
    exact Or.inr later
  nested := by
    refine List.Pairwise.imp_of_mem ?_ layers.nested
    intro inner outer first second nested
    rw [layers.above_replace front subset first, layers.above_replace front subset second]
    rw [layers.split first, layers.split second] at nested
    exact (List.prefix_append_right_inj front).mpr ((List.prefix_append_right_inj _).mp nested)

variable {kept dropped : List (Option ι)} {outer : Option ι}

private theorem Layers.inner (layers : Layers address l (kept ++ dropped)) (last : kept.getLast? = some outer)
    (member : stop ∈ kept) : above address stop l <+: above address outer l := by
  obtain ⟨front, rfl⟩ := List.getLast?_eq_some_iff.mp last
  have nested := (List.pairwise_append.mp (List.pairwise_append.mp layers.nested).1).2.2
  rcases List.mem_append.mp member with member | same
  · exact nested stop member outer (by simp)
  · obtain rfl : stop = outer := by simpa using same
    exact List.prefix_refl _

/-- The outermost stacks go, with all of their elements but the first. -/
theorem Layers.above_cut (layers : Layers address l (kept ++ dropped)) (last : kept.getLast? = some outer)
    (member : stop ∈ kept) :
    above address stop (above address outer l ++ (below address outer l).take 1) = above address stop l :=
  above_take (layers.inner last member)

theorem Layers.below_cut (layers : Layers address l (kept ++ dropped)) (last : kept.getLast? = some outer)
    (member : stop ∈ kept) :
    below address stop (above address outer l ++ (below address outer l).take 1) <+: below address stop l := by
  have parts := above_append_below address stop (above address outer l ++ (below address outer l).take 1)
  rw [layers.above_cut last member] at parts
  have shorter : above address outer l ++ (below address outer l).take 1 <+: l := by
    conv => rhs; rw [← above_append_below address outer l]
    exact (List.prefix_append_right_inj _).mpr ( List.take_prefix _ _)
  rw [← parts] at shorter
  have whole := above_append_below address stop l
  rw [← whole] at shorter
  exact (List.prefix_append_right_inj _).mp (by rwa [whole] at shorter ⊢)

theorem Layers.cut (layers : Layers address l (kept ++ dropped)) (last : kept.getLast? = some outer) :
    Layers address (above address outer l ++ (below address outer l).take 1) kept where
  inside stop member := pointer_take (layers.inner last member) (layers.inside stop (by simp [member]))
  nested := by
    refine List.Pairwise.imp_of_mem ?_ (List.pairwise_append.mp layers.nested).1
    intro inner outer first second nested
    rwa [layers.above_cut last first, layers.above_cut last second]

variable (address) in
/-- What lies behind the outermost stack, which no stack goes back to. -/
def leftover (stops : List (Option ι)) (l : List α) : List α :=
  match stops.getLast? with
  | none => l
  | some stop => below address stop l

variable (address) in
theorem leftover_opened (l : List α) (stops : List (Option ι)) :
    leftover address (head address l :: stops) l = leftover address stops l := by
  cases stops with
  | nil =>
    have parts := above_append_below address (head address l) l
    rw [above_head, List.nil_append] at parts
    exact parts
  | cons stop stops => rfl

theorem leftover_outer (opened : stops ≠ []) : leftover address (top :: stops) l = leftover address stops l := by
  cases stops with
  | nil => exact absurd rfl opened
  | cons stop stops => rfl

variable (address) in
theorem leftover_eq (opened : stops ≠ []) : ∃ stop ∈ stops, ∀ l, leftover address stops l = below address stop l := by
  refine ⟨stops.getLast opened, List.getLast_mem opened, fun l => ?_⟩
  simp only [leftover, List.getLast?_eq_some_getLast opened]

theorem Layers.leftover_push (layers : Layers address l stops) (new : address a ∉ l.map address) (opened : stops ≠ []) :
    leftover address stops (a :: l) = leftover address stops l := by
  obtain ⟨stop, member, same⟩ := leftover_eq address opened
  rw [same, same, layers.below_push new member]

theorem Layers.leftover_replace (layers : Layers address l (top :: stops)) (front : List α)
    (subset : ∀ a ∈ front, a ∈ above address top l) :
    leftover address (top :: stops) (front ++ below address top l) = leftover address (top :: stops) l := by
  obtain ⟨stop, member, same⟩ := leftover_eq address (List.cons_ne_nil top stops)
  rw [same, same, layers.below_replace front subset member]

/-- Closing the innermost stack with all of its elements. -/
theorem Layers.leftover_closed (layers : Layers address l (top :: stops)) :
    leftover address stops (below address top l) = leftover address (top :: stops) l := by
  by_cases opened : stops = []
  · subst opened
    rfl
  · have same := layers.leftover_replace [] (by simp)
    rw [List.nil_append, leftover_outer opened] at same
    exact same

theorem Layers.leftover_cut (layers : Layers address l (kept ++ dropped)) (last : kept.getLast? = some outer) :
    (leftover address kept (above address outer l ++ (below address outer l).take 1)).length ≤ 1 := by
  have member : outer ∈ kept := List.mem_of_getLast? last
  have parts := above_append_below address outer (above address outer l ++ (below address outer l).take 1)
  rw [layers.above_cut last member] at parts
  simp only [leftover, last, List.append_cancel_left parts, List.length_take]
  exact Nat.min_le_left _ _

end Rules

/-! ## Removing elements on the way -/

section Removing
variable {σ : Type w} (p : σ → α → Option (Bool × σ))

/-- Visit the elements in order with a predicate that may have effects, and take out
those it tells: what is left, what has been taken out, and the effects. -/
def removeIf : σ → List α → Option (List α × List α × σ)
  | s, [] => some ([], [], s)
  | s, a :: l => (p s a).bind fun (gone, after) => (removeIf after l).map fun (left, removed, last) =>
    if gone then (left, a :: removed, last) else (a :: left, removed, last)

variable {p} {s last : σ} {l left removed : List α}

theorem removeIf_takes {a : α} {after : σ} (takes : p s a = some (true, after)) :
    removeIf p s (a :: l) = (removeIf p after l).map fun result => (result.1, a :: result.2.1, result.2.2) := by
  rw [removeIf, takes]
  rfl

theorem removeIf_spares {a : α} {after : σ} (spares : p s a = some (false, after)) :
    removeIf p s (a :: l) = (removeIf p after l).map fun result => (a :: result.1, result.2.1, result.2.2) := by
  rw [removeIf, spares]
  rfl

theorem removeIf_perm (ran : removeIf p s l = some (left, removed, last)) : l.Perm (left ++ removed) := by
  induction l generalizing s last left removed with
  | nil =>
    cases ran
    exact .refl _
  | cons a l ih =>
    obtain ⟨⟨gone, after⟩, -, rest⟩ := Option.bind_eq_some_iff.mp ran
    obtain ⟨⟨others, taken, final⟩, visited, result⟩ := Option.map_eq_some_iff.mp rest
    have both := ih visited
    cases gone with
    | true =>
      cases result
      exact (both.cons a).trans List.perm_middle.symm
    | false =>
      cases result
      exact both.cons a

/-- A visit of the front part takes nothing from behind the pointer. -/
theorem removeIf_above_perm {ι : Type v} [DecidableEq ι] {address : α → ι} {stop : Option ι}
    (ran : removeIf p s (above address stop l) = some (left, removed, last)) : l.Perm (left ++ below address stop l ++ removed) := by
  have parts := (removeIf_perm ran).append_right (below address stop l)
  rw [above_append_below, List.append_assoc] at parts
  rw [List.append_assoc]
  exact parts.trans (List.perm_append_comm.append_left left)

/-- Elements may stand for others, as long as the predicate tells the same of them. -/
theorem removeIf_map {β : Type v} {place : α → β} {q : σ → β → Option (Bool × σ)} (same : ∀ s, ∀ a ∈ l, q s (place a) = p s a) :
    removeIf q s (l.map place) = (removeIf p s l).map fun (left, removed, last) => (left.map place, removed.map place, last) := by
  induction l generalizing s with
  | nil => rfl
  | cons a l ih =>
    rw [List.map_cons, removeIf, removeIf, same s a (by simp)]
    cases p s a with
    | none => rfl
    | some result =>
      obtain ⟨gone, after⟩ := result
      simp only [Option.bind_some, ih fun s b member => same s b (List.mem_cons_of_mem a member)]
      cases removeIf p after l <;> cases gone <;> rfl

/-- A predicate whose effects do not change what it tells. -/
theorem removeIf_filter {inv : σ → Prop} {redundant : α → Bool} {effect : σ → α → σ}
    (steady : ∀ s a, inv s → p s a = some (redundant a, if redundant a then effect s a else s) ∧ inv (effect s a))
    (initial : inv s) :
    removeIf p s l = some (l.filter (fun a => !redundant a), l.filter redundant, (l.filter redundant).foldl effect s) := by
  induction l generalizing s with
  | nil => rfl
  | cons a l ih =>
    obtain ⟨told, kept⟩ := steady s a initial
    rw [removeIf, told]
    cases tells : redundant a with
    | true => simp [ih kept, tells]
    | false => simp [ih initial, tells]

end Removing

end CutList
