import ChainBase.Container.FailedModify
import ChainBase.Container.Ownership
import ChainBase.Library.ListSegment

/-! The links of the nodes, as they lie in the file. A link is the distance to the node it
leads to, and 1 for none; so the lists of a container are the same lists wherever the file
is mapped. -/

namespace ChainBase
open ListSegment OrderedSequence

structure Hook where
  parent : Int
  left : Int
  right : Int
  color : Int
deriving DecidableEq, Repr

/-- What is at an address, if there is a node. -/
abbrev Heap := Int → Option Hook

namespace OffsetNode

/-- A pointer, from the link of the node at `n`. -/
def pointer (n link : Int) : Option Int := if link = 1 then none else some (n + link)

/-- The link of the node at `n`, to a pointer. -/
def link (n : Int) : Option Int → Int
  | none => 1
  | some target => target - n

def getRight (m : Heap) (n : Int) : Option (Option Int) := (m n).map fun hook => pointer n hook.right

def setRight (m : Heap) (n : Int) (right : Option Int) : Option Heap :=
  (m n).map fun hook => Function.update m n (some { hook with right := link n right })

def getNext := getRight
def setNext := setRight

/-- The address of the next node, if it can be read and is not null. -/
def next (m : Heap) (n : Int) : Option Int := (getNext m n).join

end OffsetNode

open OffsetNode

namespace OffsetNode

/-- A node that would be linked to the byte behind it is taken for the end. -/
theorem pointer_link (n : Int) (target : Option Int) : pointer n (link n target) = if target = some (n + 1) then none else target := by
  cases target with
  | none => rfl
  | some target =>
    by_cases behind : target = n + 1
    · simp [pointer, link, behind]
    · have far : target - n ≠ 1 := by omega
      simp [pointer, link, behind, far]

variable {m : Heap} {a b it stop target : Int} {cells : List Int} {hook : Hook}

theorem next_eq (m : Heap) (n : Int) : next m n = (m n).bind fun hook => pointer n hook.right := by
  rw [next, getNext, getRight]
  cases m n <;> rfl

theorem next_some (follows : next m a = some b) : ∃ hook, m a = some hook := by
  rw [next_eq] at follows
  obtain ⟨hook, present, -⟩ := Option.bind_eq_some_iff.mp follows
  exact ⟨hook, present⟩

theorem next_congr {after : Heap} (same : after a = m a) : next after a = next m a := by
  rw [next_eq, next_eq, same]

theorem present (segment : Segment (next m) a cells stop) : ∀ c ∈ a :: cells, ∃ hook, m c = some hook := by
  induction cells generalizing a with
  | nil => simpa using next_some segment
  | cons b cells ih =>
    intro c member
    rcases List.mem_cons.mp member with rfl | member
    · exact next_some segment.1
    · exact ih segment.2 c member

end OffsetNode

/-- Some of the list is left, and the rest has been deallocated; nothing else of the memory
has changed. -/
structure Unlinked (m after : Heap) (it : Int) (left gone : List Int) (stop : Int) : Prop where
  segment : Segment (next after) it left stop
  freed : ∀ a ∈ gone, after a = none
  kept : ∀ a ∈ it :: left, ∃ hook right, m a = some hook ∧ after a = some { hook with right }
  frame : ∀ a, a ≠ it → a ∉ left → a ∉ gone → after a = m a

namespace Unlinked
variable {m middle after : Heap} {it n stop : Int} {nodes left gone : List Int}

theorem refl (segment : Segment (next m) it nodes stop) : Unlinked m m it nodes [] stop where
  segment := segment
  freed := by simp
  kept a member := by
    obtain ⟨hook, here⟩ := present segment a member
    exact ⟨hook, hook.right, here, here⟩
  frame _ _ _ _ := rfl

theorem outside (unlinked : Unlinked m after it left gone stop) (parts : nodes.Perm (left ++ gone)) {a : Int}
    (apart : a ∉ it :: nodes) : after a = m a := by
  obtain ⟨other, absent⟩ := not_or.mp (List.mem_cons.not.mp apart)
  apply unlinked.frame a other
  · exact fun inside => absent (parts.mem_iff.mpr (List.mem_append_left gone inside))
  · exact fun inside => absent (parts.mem_iff.mpr (List.mem_append_right left inside))

theorem trans (first : Unlinked m middle it nodes [n] stop) (second : Unlinked middle after it left gone stop)
    (parts : nodes.Perm (left ++ gone)) (apart : (it :: n :: nodes).Nodup) : Unlinked m after it left (n :: gone) stop where
  segment := second.segment
  freed a member := by
    rcases List.mem_cons.mp member with rfl | member
    · have alone : a ∉ it :: nodes := ((List.Perm.swap a it nodes).nodup_iff.mp apart).notMem
      rw [second.outside parts alone]
      exact first.freed a (by simp)
    · exact second.freed a member
  kept a member := by
    obtain ⟨middle_hook, right, there, last⟩ := second.kept a member
    have inside : a ∈ it :: nodes := by
      rcases List.mem_cons.mp member with rfl | member
      · simp
      · exact List.mem_cons_of_mem it (parts.mem_iff.mpr (List.mem_append_left gone member))
    obtain ⟨hook, old, here, same⟩ := first.kept a inside
    cases there.symm.trans same
    exact ⟨hook, right, here, last⟩
  frame a first_other notLeft notGone := by
    have other : a ≠ n := fun same => notGone (by simp [same])
    have outside : a ∉ nodes := by
      intro inside
      rcases List.mem_append.mp (parts.mem_iff.mp inside) with inside | inside
      · exact notLeft inside
      · exact notGone (List.mem_cons_of_mem n inside)
    rw [second.frame a first_other notLeft fun inside => notGone (List.mem_cons_of_mem n inside)]
    exact first.frame a first_other outside (by simpa using other)

theorem cons (rest : Unlinked m after n left gone stop) (link : next m it = some n) (outside : it ∉ n :: left ++ gone) :
    Unlinked m after it (n :: left) gone stop := by
  have apart : it ≠ n ∧ it ∉ left ∧ it ∉ gone := by simpa [not_or] using outside
  have same : after it = m it := rest.frame it apart.1 apart.2.1 apart.2.2
  constructor
  · exact ⟨(next_congr same).trans link, rest.segment⟩
  · exact rest.freed
  · intro a member
    rcases List.mem_cons.mp member with rfl | member
    · obtain ⟨hook, here⟩ := next_some link
      exact ⟨hook, hook.right, here, same.trans here⟩
    · exact rest.kept a member
  · intro a _ notLeft notGone
    have other : a ≠ n ∧ a ∉ left := by simpa [not_or] using notLeft
    exact rest.frame a other.1 other.2 notGone

theorem color (unlinked : Unlinked m after it left gone stop) {a : Int} (stays : a ∉ gone) :
    (after a).map Hook.color = (m a).map Hook.color := by
  by_cases listed : a ∈ it :: left
  · obtain ⟨hook, right, here, final⟩ := unlinked.kept a listed
    rw [here, final]
    rfl
  · obtain ⟨other, outside⟩ := not_or.mp (List.mem_cons.not.mp listed)
    rw [unlinked.frame a other outside stays]

theorem append {b : Int} {cells : List Int} (front : Unlinked m after it left gone b) (back : Segment (next m) b cells stop)
    (outside : ∀ a ∈ b :: cells, a ≠ it ∧ a ∉ left ∧ a ∉ gone) : Unlinked m after it (left ++ b :: cells) gone stop := by
  have same : ∀ a ∈ b :: cells, after a = m a :=
    fun a member => front.frame a (outside a member).1 (outside a member).2.1 (outside a member).2.2
  constructor
  · exact segment_append.mpr ⟨front.segment, back.congr fun a member => next_congr (same a member)⟩
  · exact front.freed
  · intro a member
    rcases List.mem_append.mp (List.cons_append (a := it) ▸ member) with before | behind
    · exact front.kept a before
    · obtain ⟨hook, here⟩ := present back a behind
      exact ⟨hook, hook.right, here, (same a behind).trans here⟩
  · intro a other notListed notGone
    have notLeft : a ∉ left := fun inside => notListed (List.mem_append_left (b :: cells) inside)
    exact front.frame a other notLeft notGone

end Unlinked

variable {m : Heap} {it b stop : Int} {cells : List Int}

/-- Nodes lie at even addresses. -/
def Aligned (addresses : List Int) : Prop := ∀ a ∈ addresses, 2 ∣ a

/-- What is documented of `slist::erase_after_and_dispose`, with a disposer that deallocates
the node: the node behind the given one leaves the list, and nothing else changes. -/
def ErasesAfter (erase : Heap → Int → Option Heap) : Prop :=
  ∀ ⦃m : Heap⦄ ⦃it b stop : Int⦄ ⦃cells : List Int⦄, Segment (next m) it (b :: cells) stop → (it :: b :: cells).Nodup →
    Aligned (stop :: it :: b :: cells) → ∃ after, erase m it = some after ∧ Unlinked m after it cells [b] stop

/-- `remove_if_after_and_dispose`, and the nodes it has disposed of. The predicate may
change what it reads. -/
def removeIfAfterAndDispose {σ : Type} (erase : Heap → Int → Option Heap) (p : σ → Int → Option (Bool × σ)) :
    Nat → Heap → σ → Int → Int → Option (List Int × Heap × σ)
  | 0, _, _, _, _ => none
  | rounds + 1, m, s, it, stop => do
    let n ← next m it
    if n = stop then some ([], m, s)
    else
      let (gone, after) ← p s n
      if gone then
        let unlinked ← erase m it
        let (disposed, last) ← removeIfAfterAndDispose erase p rounds unlinked after it stop
        some (n :: disposed, last)
      else removeIfAfterAndDispose erase p rounds m after n stop

def unlinkAndDeallocate (m : Heap) (it : Int) : Option Heap := do
  let gone ← next m it
  let after ← next m gone
  let unlinked ← setNext m it (some after)
  some (Function.update unlinked gone none)

theorem erasesAfter_unlink : ErasesAfter unlinkAndDeallocate := by
  intro m it b stop cells segment apart aligned
  obtain ⟨hook, here⟩ := next_some segment.1
  obtain ⟨target, follows, even⟩ : ∃ target, next m b = some target ∧ 2 ∣ target := by
    cases cells with
    | nil => exact ⟨stop, segment.2, aligned stop (by simp)⟩
    | cons c cells => exact ⟨c, segment.2.1, aligned c (by simp)⟩
  let relinked : Hook := { hook with right := link it (some target) }
  have set : setNext m it (some target) = some (Function.update m it (some relinked)) := by
    simp [setNext, setRight, here, relinked]
  have other : it ≠ b := fun same => by simp [same] at apart
  refine ⟨Function.update (Function.update m it (some relinked)) b none, ?_, ?_⟩
  · rw [unlinkAndDeallocate, segment.1]
    simp only [Option.bind_eq_bind, Option.bind_some, follows, set]
  · have linked : next (Function.update (Function.update m it (some relinked)) b none) it = some target := by
      have odd : target ≠ it + 1 := by
        have even_it := aligned it (by simp)
        omega
      rw [next_eq, Function.update_of_ne other, Function.update_self]
      exact (pointer_link it (some target)).trans (if_neg fun same => odd (Option.some.inj same))
    have outside : ∀ a, a ≠ it → a ≠ b → Function.update (Function.update m it (some relinked)) b none a = m a := by
      intro a first second
      rw [Function.update_of_ne second, Function.update_of_ne first]
    obtain ⟨alone, rest⟩ := List.nodup_cons.mp apart
    have inner : ∀ c ∈ cells, c ≠ it ∧ c ≠ b := by
      intro c member
      constructor
      · rintro rfl
        exact alone (List.mem_cons_of_mem b member)
      · rintro rfl
        exact (List.nodup_cons.mp rest).1 member
    refine ⟨(segment.unlink apart).congr fun c member => ?_, ?_, ?_, ?_⟩
    · rcases List.mem_cons.mp member with rfl | member
      · rw [linked, Function.update_self, follows]
      · rw [Function.update_of_ne (inner c member).1]
        exact next_congr (outside c (inner c member).1 (inner c member).2)
    · intro a member
      rw [List.mem_singleton.mp member, Function.update_self]
    · intro a member
      rcases List.mem_cons.mp member with rfl | member
      · refine ⟨hook, relinked.right, here, ?_⟩
        rw [Function.update_of_ne other, Function.update_self]
      · obtain ⟨old, there⟩ := present segment a (by simp [member])
        exact ⟨old, old.right, there, (outside a (inner a member).1 (inner a member).2).trans there⟩
    · intro a first _ second
      exact outside a first (by simpa using second)

section
variable {σ : Type} {erase : Heap → Int → Option Heap} {p : σ → Int → Option (Bool × σ)} {n : Int} {s after : σ} {rounds : Nat}

theorem removeIf_fails (link : next m it = some n) (other : n ≠ stop) (fails : p s n = none) :
    removeIfAfterAndDispose erase p (rounds + 1) m s it stop = none := by
  simp [removeIfAfterAndDispose, link, other, fails]

theorem removeIf_spares (link : next m it = some n) (other : n ≠ stop) (spares : p s n = some (false, after)) :
    removeIfAfterAndDispose erase p (rounds + 1) m s it stop = removeIfAfterAndDispose erase p rounds m after n stop := by
  simp [removeIfAfterAndDispose, link, other, spares]

theorem removeIf_takes {unlinked : Heap} (link : next m it = some n) (other : n ≠ stop)
    (takes : p s n = some (true, after)) (erased : erase m it = some unlinked) :
    removeIfAfterAndDispose erase p (rounds + 1) m s it stop =
      (removeIfAfterAndDispose erase p rounds unlinked after it stop).map fun result => (n :: result.1, result.2) := by
  simp only [removeIfAfterAndDispose, link, Option.bind_eq_bind, Option.bind_some, if_neg other, takes, if_true, erased]
  cases removeIfAfterAndDispose erase p rounds unlinked after it stop <;> rfl

/-- The loop leaves the nodes that the predicate spares, in their order, and disposes of the
others, each of them once; it fails exactly if the predicate does. -/
theorem removeIf_linked (erases : ErasesAfter erase) {nodes : List Int} {m : Heap} {it : Int} {s : σ} {rounds : Nat}
    (segment : Segment (next m) it nodes stop) (apart : (it :: nodes).Nodup) (ends : stop ∉ nodes)
    (aligned : Aligned (stop :: it :: nodes)) (enough : nodes.length < rounds) :
    (CutList.removeIf p s nodes = none ∧ removeIfAfterAndDispose erase p rounds m s it stop = none) ∨
    ∃ left gone last after, CutList.removeIf p s nodes = some (left, gone, last) ∧
      removeIfAfterAndDispose erase p rounds m s it stop = some (gone, after, last) ∧ Unlinked m after it left gone stop := by
  induction nodes generalizing m it s rounds with
  | nil =>
    obtain ⟨rounds, rfl⟩ := Nat.exists_eq_add_of_le' (Nat.one_le_of_lt enough)
    have link : next m it = some stop := segment
    refine .inr ⟨[], [], s, m, rfl, ?_, .refl segment⟩
    simp [removeIfAfterAndDispose, link]
  | cons n nodes ih =>
    obtain ⟨rounds, rfl⟩ := Nat.exists_eq_add_of_le' (Nat.one_le_of_lt enough)
    have enough' : nodes.length < rounds := Nat.lt_of_succ_lt_succ enough
    obtain ⟨other, later⟩ : n ≠ stop ∧ stop ∉ nodes := by
      simpa [not_or, eq_comm] using ends
    cases visited : p s n with
    | none => exact .inl ⟨by simp [CutList.removeIf, visited], removeIf_fails segment.1 other visited⟩
    | some result =>
      obtain ⟨gone, after⟩ := result
      cases gone with
      | true =>
        obtain ⟨unlinked, erased, first⟩ := erases segment apart aligned
        have fewer : (it :: nodes).Sublist (it :: n :: nodes) := (List.sublist_cons_self n nodes).cons_cons it
        have even : Aligned (stop :: it :: nodes) := fun a member => aligned a ((fewer.cons_cons stop).subset member)
        have rest := ih (m := unlinked) (s := after) first.segment (apart.sublist fewer) later even enough'
        rw [removeIf_takes segment.1 other visited erased, CutList.removeIf_takes visited]
        obtain ⟨fails, stuck⟩ | ⟨left, gone, last, final, result, ran, second⟩ := rest
        · exact .inl ⟨by rw [fails]; rfl, by rw [stuck]; rfl⟩
        · refine .inr ⟨left, n :: gone, last, final, by rw [result]; rfl, by rw [ran]; rfl, ?_⟩
          exact first.trans second (CutList.removeIf_perm result) apart
      | false =>
        obtain ⟨outside, inner⟩ := List.nodup_cons.mp apart
        have even : Aligned (stop :: n :: nodes) := fun a member =>
          aligned a (((List.sublist_cons_self it (n :: nodes)).cons_cons stop).subset member)
        have rest := ih (s := after) segment.2 inner later even enough'
        rw [removeIf_spares segment.1 other visited, CutList.removeIf_spares visited]
        obtain ⟨fails, stuck⟩ | ⟨left, gone, last, final, result, ran, second⟩ := rest
        · exact .inl ⟨by rw [fails]; rfl, stuck⟩
        · refine .inr ⟨n :: left, gone, last, final, by rw [result]; rfl, ran, second.cons segment.1 ?_⟩
          exact fun inside => outside (((CutList.removeIf_perm result).cons n).mem_iff.mpr inside)

/-- The part of a list in front of an end that is one of its elements, or the root. -/
theorem removeIf_cut {α : Type} (erases : ErasesAfter erase) {place : α → Int} {q : σ → α → Option (Bool × σ)}
    {front back : List α} {root : Int} (reads : ∀ s, ∀ e ∈ front, p s (place e) = q s e)
    (laid : Segment (next m) root ((front ++ back).map place) root) (apart : (root :: (front ++ back).map place).Nodup)
    (aligned : Aligned (root :: (front ++ back).map place)) (enough : front.length < rounds) :
    let stop := ((back.head?).map place).getD root
    (CutList.removeIf q s front = none ∧ removeIfAfterAndDispose erase p rounds m s root stop = none) ∨
    ∃ left gone last after, CutList.removeIf q s front = some (left, gone, last) ∧
      removeIfAfterAndDispose erase p rounds m s root stop = some (gone.map place, after, last) ∧
      Unlinked m after root ((left ++ back).map place) (gone.map place) root := by
  intro stop
  rw [List.map_append] at laid apart aligned
  obtain ⟨segment, behind⟩ : Segment (next m) root (front.map place) stop ∧
      ∀ {after left gone}, Unlinked m after root left gone stop → left ⊆ front.map place → gone ⊆ front.map place →
        Unlinked m after root (left ++ back.map place) gone root := by
    cases back with
    | nil =>
      rw [List.map_nil, List.append_nil] at laid
      exact ⟨laid, fun unlinked _ _ => by simpa [stop] using unlinked⟩
    | cons b back =>
      obtain ⟨first, second⟩ := segment_append.mp laid
      refine ⟨first, fun unlinked lefts gones => unlinked.append second fun a member => ?_⟩
      obtain ⟨outside, inner⟩ := List.nodup_cons.mp apart
      have fresh := (List.nodup_append.mp inner).2.2
      refine ⟨?_, fun inside => fresh a (lefts inside) a member rfl, fun inside => fresh a (gones inside) a member rfl⟩
      rintro rfl
      exact outside (List.mem_append_right _ member)
  have fewer : (root :: front.map place).Nodup := apart.sublist ((List.sublist_append_left _ _).cons_cons root)
  obtain ⟨inside, even⟩ : stop ∉ front.map place ∧ 2 ∣ stop := by
    cases back with
    | nil => exact ⟨(List.nodup_cons.mp fewer).1, aligned root (by simp)⟩
    | cons b back =>
      refine ⟨fun member => ?_, aligned (place b) (by simp)⟩
      exact (List.nodup_append.mp (List.nodup_cons.mp apart).2).2.2 _ member (place b) (by simp) rfl
  have even_front : Aligned (stop :: root :: front.map place) := by
    intro a member
    rcases List.mem_cons.mp member with rfl | member
    · exact even
    · exact aligned a (((List.sublist_append_left _ _).cons_cons root).subset member)
  have short : (front.map place).length < rounds := by simpa using enough
  have walked := removeIf_linked (p := p) (s := s) erases segment fewer inside even_front short
  rw [CutList.removeIf_map reads] at walked
  obtain ⟨fails, stuck⟩ | ⟨left, gone, last, after, result, ran, unlinked⟩ := walked
  · exact .inl ⟨Option.map_eq_none_iff.mp fails, stuck⟩
  · obtain ⟨⟨left, gone, last⟩, visited, same⟩ := Option.map_eq_some_iff.mp result
    cases same
    have parts := (CutList.removeIf_perm visited).map place
    rw [List.map_append] at parts
    refine .inr ⟨left, gone, last, after, visited, ran, ?_⟩
    rw [List.map_append]
    apply behind unlinked
    · exact fun a member => parts.mem_iff.mpr (List.mem_append_left _ member)
    · exact fun a member => parts.mem_iff.mpr (List.mem_append_right _ member)

theorem find_place {α : Type} {place : α → Int} {l : List α} {e : α} (apart : (l.map place).Nodup) (member : e ∈ l) :
    l.find? (fun other => place other = place e) = some e := by
  obtain ⟨other, found⟩ : ∃ other, l.find? (fun other => place other = place e) = some other :=
    Option.isSome_iff_exists.mp (List.find?_isSome.mpr ⟨e, member, by simp⟩)
  have same : place other = place e := by simpa using List.find?_some found
  rw [found, List.inj_on_of_nodup_map apart (List.mem_of_find?_eq_some found) member same]

/-- The nodes in front of a pointer into a list, where an element is found by its address. -/
theorem removeIf_list {α : Type} (erases : ErasesAfter erase) (address : α → Addr) (hook : Addr → Int) {q : σ → α → Option (Bool × σ)}
    {l : List α} {pointer : Option Addr} {root : Int} (known : ∀ a, pointer = some a → a ∈ l.map address)
    (laid : Segment (next m) root (l.map fun e => hook (address e)) root) (apart : (root :: l.map fun e => hook (address e)).Nodup)
    (aligned : Aligned (root :: l.map fun e => hook (address e))) :
    let ran := removeIfAfterAndDispose erase (fun s a => (l.find? fun e => hook (address e) = a).bind (q s)) (l.length + 1) m s root
      ((pointer.map hook).getD root)
    (CutList.removeIf q s (CutList.above address pointer l) = none ∧ ran = none) ∨
    ∃ left gone last after, CutList.removeIf q s (CutList.above address pointer l) = some (left, gone, last) ∧
      ran = some (gone.map fun e => hook (address e), after, last) ∧
      Unlinked m after root ((left ++ CutList.below address pointer l).map fun e => hook (address e))
        (gone.map fun e => hook (address e)) root := by
  have whole := CutList.above_append_below address pointer l
  have stop : ((CutList.below address pointer l).head?).map (fun e => hook (address e)) = pointer.map hook := by
    conv_rhs => rw [← CutList.head_below known, CutList.head, Option.map_map]
    rfl
  have reads : ∀ s, ∀ e ∈ CutList.above address pointer l,
      (l.find? fun other => hook (address other) = hook (address e)).bind (q s) = q s e := by
    intro s e member
    rw [find_place (List.nodup_cons.mp apart).2 (CutList.above_subset member), Option.bind_some]
  have walked := removeIf_cut (p := fun s a => (l.find? fun e => hook (address e) = a).bind (q s)) (s := s) (m := m) erases reads
    (by rwa [whole]) (by rwa [whole]) (by rwa [whole]) (Nat.lt_succ_of_le (CutList.above_initial pointer l).length_le)
  rw [stop] at walked
  exact walked

end

/-! ## Where the file is mapped -/

/-- The memory when a file is mapped at `base`. -/
def mapped (image : Heap) (base : Int) : Heap := fun a => image (a - base)

theorem mapped_mapped (image : Heap) (base : Int) : mapped (mapped image base) (-base) = image := by
  funext a
  exact congrArg image (by omega)

theorem mapped_add (image : Heap) (base a : Int) : mapped image base (base + a) = image a := congrArg image (by omega)

theorem next_mapped (image : Heap) (base n : Int) : next (mapped image base) (base + n) = (next image n).map (base + ·) := by
  rw [next_eq, next_eq, mapped_add]
  cases image n with
  | none => rfl
  | some hook =>
    simp only [Option.bind_some, pointer]
    split
    · rfl
    · simp [Int.add_assoc]

/-- Where the lists of a container lie: the root of each, and the hooks of the nodes. -/
structure Layout where
  oldValues : Int
  removedValues : Int
  oldNode : Addr → Int
  node : Addr → Int

namespace Layout
variable {T : Type}

def moved (layout : Layout) (base : Int) : Layout where
  oldValues := base + layout.oldValues
  removedValues := base + layout.removedValues
  oldNode a := base + layout.oldNode a
  node a := base + layout.node a

theorem moved_moved (layout : Layout) (base : Int) : (layout.moved base).moved (-base) = layout := by
  simp [moved]

def oldValuesEnd (layout : Layout) (info : UndoState) : Int := (info.oldValuesEnd.map layout.oldNode).getD layout.oldValues

def removedValuesEnd (layout : Layout) (info : UndoState) : Int := (info.removedValuesEnd.map layout.node).getD layout.removedValues

def olds (layout : Layout) (s : UndoMultiIndex T) : List Int := s.oldValues.map fun old => layout.oldNode old.self

def nodes (layout : Layout) (s : UndoMultiIndex T) : List Int := s.removedValues.map layout.node

theorem moved_olds (layout : Layout) (base : Int) (s : UndoMultiIndex T) :
    (layout.moved base).olds s = (layout.olds s).map (base + ·) := by
  simp [moved, olds, Function.comp_def]

theorem moved_nodes (layout : Layout) (base : Int) (s : UndoMultiIndex T) :
    (layout.moved base).nodes s = (layout.nodes s).map (base + ·) := by
  simp [moved, nodes, Function.comp_def]

end Layout

/-- The memory holds the lists of the container, every node at an address of its own. -/
structure LaidOut {T : Type} (layout : Layout) (m : Heap) (s : UndoMultiIndex T) : Prop where
  apart : (layout.oldValues :: layout.removedValues :: layout.olds s ++ layout.nodes s).Nodup
  aligned : Aligned (layout.oldValues :: layout.removedValues :: layout.olds s ++ layout.nodes s)
  olds : Segment (next m) layout.oldValues (layout.olds s) layout.oldValues
  nodes : Segment (next m) layout.removedValues (layout.nodes s) layout.removedValues

theorem LaidOut.disjoint {T : Type} {layout : Layout} {s : UndoMultiIndex T} (laid : LaidOut layout m s) :
    List.Disjoint (layout.oldValues :: layout.olds s) (layout.removedValues :: layout.nodes s) := by
  have apart : ((layout.oldValues :: layout.olds s) ++ (layout.removedValues :: layout.nodes s)).Nodup :=
    (List.perm_middle.cons layout.oldValues).nodup_iff.mpr laid.apart
  exact List.disjoint_of_nodup_append apart

theorem LaidOut.moved {T : Type} {layout : Layout} {s : UndoMultiIndex T} (laid : LaidOut layout m s) {base : Int} (even : 2 ∣ base) :
    LaidOut (layout.moved base) (mapped m base) s := by
  have places : (layout.moved base).oldValues :: (layout.moved base).removedValues ::
      (layout.moved base).olds s ++ (layout.moved base).nodes s =
      (layout.oldValues :: layout.removedValues :: layout.olds s ++ layout.nodes s).map (base + ·) := by
    rw [layout.moved_olds, layout.moved_nodes]
    simp [Layout.moved]
  constructor
  · rw [places]
    exact laid.apart.map fun a b same => by simpa using same
  · rw [places]
    intro a member
    obtain ⟨b, inside, rfl⟩ := List.mem_map.mp member
    exact Int.dvd_add even (laid.aligned b inside)
  · rw [layout.moved_olds]
    exact laid.olds.map (base + ·) fun c _ => next_mapped m base c
  · rw [layout.moved_nodes]
    exact laid.nodes.map (base + ·) fun c _ => next_mapped m base c

namespace UndoMultiIndex
variable {T : Type} [Object T] {s : UndoMultiIndex T} {last session : UndoState} {layout : Layout} {m : Heap}
  {erase : Heap → Int → Option Heap}

/-- The predicate of `compress_impl` on the removed values, and what its disposer does. -/
def redundantNode (oldNextId : Nat) (base : MultiIndex T UndoNodeExtra) (a : Addr) : Bool × MultiIndex T UndoNodeExtra :=
  if oldNextId ≤ base.id a then (true, base.disposeNode a) else (false, base)

/-- The two loops of `compress_impl`, on the memory; and the nodes they dispose of. A node
is found by its address. -/
def compressLinks (erase : Heap → Int → Option Heap) (layout : Layout) (m : Heap) (s : UndoMultiIndex T) (last session : UndoState) :
    Option (List Int × Heap × MultiIndex T UndoNodeExtra) := do
  let oldAt a := s.oldValues.find? fun old => layout.oldNode old.self = a
  let nodeAt a := s.removedValues.find? fun n => layout.node n = a
  let (olds, m, base) ← removeIfAfterAndDispose erase (fun base a => (oldAt a).bind (redundantOld session.ctime base))
    (s.oldValues.length + 1) m s.toMultiIndex layout.oldValues (layout.oldValuesEnd last)
  let (nodes, m, base) ← removeIfAfterAndDispose erase (fun base a => (nodeAt a).bind fun n => some (redundantNode session.oldNextId base n))
    (s.removedValues.length + 1) m base layout.removedValues (layout.removedValuesEnd last)
  some (olds ++ nodes, m, base)

theorem removeIf_redundantNode (oldNextId : Nat) (base : MultiIndex T UndoNodeExtra) (l : List Addr) :
    CutList.removeIf (fun base a => some (redundantNode oldNextId base a)) base l =
      some (l.filter (fun a => base.id a < oldNextId), l.filter (fun a => oldNextId ≤ base.id a),
        base.disposeNodes (l.filter fun a => oldNextId ≤ base.id a)) := by
  have steady : ∀ (later : MultiIndex T UndoNodeExtra) (a : Addr), later.id = base.id →
      some (redundantNode oldNextId later a) =
          some (decide (oldNextId ≤ base.id a), if decide (oldNextId ≤ base.id a) then later.disposeNode a else later) ∧
        (later.disposeNode a).id = base.id := by
    intro later a same
    refine ⟨?_, same⟩
    rw [redundantNode, same]
    split <;> simp [*]
  rw [CutList.removeIf_filter steady rfl]
  simp only [MultiIndex.disposeNodes, ← decide_not, Nat.not_le]

/-- The lists of the container have become those of `after`: nodes are listed or have been
deallocated, and what is not a node of the lists is untouched. -/
structure Relinked (layout : Layout) (m final : Heap) (s after : UndoMultiIndex T) (gone : List Int) : Prop where
  laid : LaidOut layout final after
  parts : (layout.olds s ++ layout.nodes s).Perm (layout.olds after ++ layout.nodes after ++ gone)
  freed : ∀ a ∈ gone, final a = none
  colors : ∀ a ∉ gone, (final a).map Hook.color = (m a).map Hook.color
  frame : ∀ a, a ≠ layout.oldValues → a ≠ layout.removedValues → a ∉ layout.olds s → a ∉ layout.nodes s → final a = m a

omit [Object T] in
theorem relinked {after : UndoMultiIndex T} {middle final : Heap} {goneOlds goneNodes : List Int} (laid : LaidOut layout m s)
    (first : Unlinked m middle layout.oldValues (layout.olds after) goneOlds layout.oldValues)
    (second : Unlinked middle final layout.removedValues (layout.nodes after) goneNodes layout.removedValues)
    (olds : (layout.olds s).Perm (layout.olds after ++ goneOlds)) (nodes : (layout.nodes s).Perm (layout.nodes after ++ goneNodes)) :
    Relinked layout m final s after (goneOlds ++ goneNodes) := by
  have parts : (layout.olds s ++ layout.nodes s).Perm (layout.olds after ++ layout.nodes after ++ (goneOlds ++ goneNodes)) := by
    refine (olds.append nodes).trans ?_
    simp only [List.append_assoc]
    exact (List.perm_append_comm_assoc goneOlds (layout.nodes after) goneNodes).append_left (layout.olds after)
  have whole := (parts.cons layout.removedValues).cons layout.oldValues
  have listed := List.sublist_append_left (layout.oldValues :: layout.removedValues :: layout.olds after ++ layout.nodes after)
    (goneOlds ++ goneNodes)
  -- the second loop does not touch the first list
  have untouched : ∀ a ∈ layout.oldValues :: layout.olds s, final a = middle a :=
    fun a member => second.outside nodes (laid.disjoint member)
  constructor
  · constructor
    · exact (whole.nodup_iff.mp laid.apart).sublist listed
    · exact fun a member => laid.aligned a (whole.mem_iff.mpr (listed.subset member))
    · refine first.segment.congr fun a member => next_congr (untouched a ?_)
      rcases List.mem_cons.mp member with rfl | member
      · simp
      · exact List.mem_cons_of_mem _ (olds.mem_iff.mpr (List.mem_append_left goneOlds member))
    · exact second.segment
  · exact parts
  · intro a member
    rcases List.mem_append.mp member with inside | inside
    · rw [untouched a (List.mem_cons_of_mem _ (olds.mem_iff.mpr (List.mem_append_right _ inside)))]
      exact first.freed a inside
    · exact second.freed a inside
  · intro a stays
    obtain ⟨notOld, notNode⟩ := not_or.mp (List.mem_append.not.mp stays)
    exact (second.color notNode).trans (first.color notOld)
  · intro a notOld notRemoved notOlds notNodes
    have later : final a = middle a := second.outside nodes (by simp [notRemoved, notNodes])
    have before : middle a = m a := first.outside olds (by simp [notOld, notOlds])
    exact later.trans before

theorem compressLinks_spec (sound : s.Sound) (member : last ∈ s.undoStack) (erases : ErasesAfter erase) (laid : LaidOut layout m s) :
    (s.compressImpl last session = none ∧ compressLinks erase layout m s last session = none) ∨
    ∃ after gone final, s.compressImpl last session = some after ∧
      compressLinks erase layout m s last session = some (gone, final, after.toMultiIndex) ∧ Relinked layout m final s after gone := by
  have olds_part : (layout.oldValues :: layout.olds s).Sublist
      (layout.oldValues :: layout.removedValues :: layout.olds s ++ layout.nodes s) :=
    ((List.sublist_append_left _ _).cons layout.removedValues).cons_cons layout.oldValues
  have nodes_part : (layout.removedValues :: layout.nodes s).Sublist
      (layout.oldValues :: layout.removedValues :: layout.olds s ++ layout.nodes s) :=
    ((List.sublist_append_right _ _).cons_cons layout.removedValues).cons layout.oldValues
  have first := removeIf_list (s := s.toMultiIndex) (q := redundantOld session.ctime) erases OldNode.self layout.oldNode
    (fun a pointer => sound.oldLayers.inside _ (List.mem_map_of_mem member) a pointer) laid.olds
    (laid.apart.sublist olds_part) (fun a inside => laid.aligned a (olds_part.subset inside))
  obtain ⟨fails, stuck⟩ | ⟨left, gone, base, middle, visited, ran, unlinked⟩ := first
  · refine .inl ⟨?_, ?_⟩
    · rw [compressImpl, compressOldValues_removeIf]
      simp only [oldValuesOf, fails]
      rfl
    · simp only [compressLinks, Layout.oldValuesEnd]
      rw [stuck]
      rfl
  · have olds := (CutList.removeIf_above_perm visited).map fun old => layout.oldNode old.self
    rw [List.map_append] at olds
    have separate : ∀ a ∈ layout.removedValues :: layout.nodes s, middle a = m a :=
      fun a inside => unlinked.outside olds fun listed => laid.disjoint listed inside
    have second := removeIf_list (s := base) (q := fun base a => some (redundantNode session.oldNextId base a)) erases (fun a => a)
      layout.node (fun a pointer => sound.removedLayers.inside _ (List.mem_map_of_mem member) a pointer)
      (laid.nodes.congr fun a inside => next_congr (separate a inside))
      (laid.apart.sublist nodes_part) (fun a inside => laid.aligned a (nodes_part.subset inside))
    obtain ⟨fails, -⟩ | ⟨leftNodes, goneNodes, table, final, filtered, walked, shortened⟩ := second
    · cases (removeIf_redundantNode session.oldNextId base _).symm.trans fails
    · cases (removeIf_redundantNode session.oldNextId base _).symm.trans filtered
      let after : UndoMultiIndex T :=
        { s with
          toMultiIndex := base.disposeNodes ((s.removedValuesOf last).filter fun a => session.oldNextId ≤ base.id a)
          oldValues := left ++ CutList.below OldNode.self last.oldValuesEnd s.oldValues
          removedValues := (s.removedValuesOf last).filter (fun a => base.id a < session.oldNextId) ++
            CutList.below (fun a => a) last.removedValuesEnd s.removedValues }
      have result : s.compressImpl last session = some after := by
        rw [compressImpl, compressOldValues_removeIf]
        simp only [oldValuesOf, visited, Option.map_some, Option.bind_eq_bind, Option.bind_some, after]
      have nodes := (CutList.removeIf_above_perm filtered).map layout.node
      rw [List.map_append] at nodes
      have kept : Relinked layout m final s after _ := relinked laid unlinked shortened olds nodes
      refine .inr ⟨after, _, final, result, ?_, kept⟩
      simp only [compressLinks, Layout.oldValuesEnd, Layout.removedValuesEnd, Option.bind_eq_bind]
      rw [ran, Option.bind_some, walked]
      rfl

omit [Object T] in
theorem Relinked.moved {after : UndoMultiIndex T} {final : Heap} {gone : List Int} (relinked : Relinked layout m final s after gone)
    {base : Int} (even : 2 ∣ base) :
    Relinked (layout.moved base) (mapped m base) (mapped final base) s after (gone.map (base + ·)) := by
  constructor
  · exact relinked.laid.moved even
  · simpa [layout.moved_olds, layout.moved_nodes] using relinked.parts.map (base + ·)
  · intro a member
    obtain ⟨b, inside, rfl⟩ := List.mem_map.mp member
    rw [mapped_add]
    exact relinked.freed b inside
  · intro a stays
    exact relinked.colors (a - base) fun inside => stays (List.mem_map.mpr ⟨a - base, inside, by omega⟩)
  · intro a notOld notRemoved notOlds notNodes
    rw [layout.moved_olds] at notOlds
    rw [layout.moved_nodes] at notNodes
    apply relinked.frame (a - base)
    · exact fun same => notOld (by simp [Layout.moved, ← same])
    · exact fun same => notRemoved (by simp [Layout.moved, ← same])
    · exact fun inside => notOlds (List.mem_map.mpr ⟨a - base, inside, by omega⟩)
    · exact fun inside => notNodes (List.mem_map.mpr ⟨a - base, inside, by omega⟩)

/-- Wherever the file is mapped, and whatever calls without a conflict have led there, the
loops of `compress_impl` over the links end, and leave the lists of the model in the file. -/
theorem compress_relinks_anywhere [Inhabited T] (keys : List (Comparator T)) (ops : List (UndoOp T))
    (legal : Run.Permitted UndoOp.step UndoOp.Legal (UndoMultiIndex.empty keys) ops) {replies : List Reply}
    {s : UndoMultiIndex T} (ran : Run.run UndoOp.step (UndoMultiIndex.empty keys) ops = some (replies, s))
    (last session : UndoState) (rest : List UndoState) (stack : s.undoStack = last :: rest) (level : session ∈ s.undoStack)
    (erase : Heap → Int → Option Heap) (erases : ErasesAfter erase) (layout : Layout) (image : Heap) (laid : LaidOut layout image s)
    (base : Int) (even : 2 ∣ base) :
    ∃ after gone final, s.compressImpl last session = some after ∧
      compressLinks erase (layout.moved base) (mapped image base) s last session =
        some (gone.map (base + ·), mapped final base, after.toMultiIndex) ∧ Relinked layout image final s after gone := by
  have refines := UndoOp.reached legal ran
  have top : last ∈ s.undoStack := by simp [stack]
  have first : last ∈ s.undoStack.head? := by simp [stack]
  have live := refines.compressed first level
  obtain ⟨fails, -⟩ | ⟨after, gone, final, compressed, walked, relinked⟩ :=
    compressLinks_spec refines.sound top erases (laid.moved even)
  · cases fails.symm.trans ((compressImpl_iff refines.sound).mpr ⟨live, rfl⟩)
  · have back := relinked.moved (Int.dvd_neg.mpr even : 2 ∣ -base)
    rw [layout.moved_moved, mapped_mapped] at back
    have restored : mapped (mapped final (-base)) base = final := by simpa using mapped_mapped final (-base)
    have places : (gone.map (-base + ·)).map (base + ·) = gone := by simp [Function.comp_def]
    refine ⟨after, gone.map (-base + ·), mapped final (-base), compressed, ?_, back⟩
    rw [restored, places]
    exact walked

/-- A session modifies a book and makes another one; the next one modifies that book again,
and removes two. -/
theorem compress_relinks_anywhere_books :
    let ops : List (UndoOp Book) :=
      [.emplace fun id => some ⟨id, 1, 1⟩, .emplace fun id => some ⟨id, 2, 2⟩, .startUndo,
        .modify 0 fun book => ({ book with a := 3 }, false), .emplace fun id => some ⟨id, 4, 4⟩, .startUndo,
        .modify 0 fun book => ({ book with a := 5 }, false), .remove 1, .remove 2]
    let s := afterCalls ops
    let outer : UndoState := ⟨none, none, 2, 1⟩
    let last : UndoState := ⟨some 0, none, 3, 2⟩
    let layout : Layout := ⟨0, 8, fun a => 112 + 16 * a, fun a => 1008 + 16 * a⟩
    let image : Heap := fun a =>
      if a = 0 then some ⟨1, 1, 128, 0⟩ else if a = 8 then some ⟨1, 1, 1032, 0⟩
      else if a = 128 then some ⟨1, 1, -16, 0⟩ else if a = 112 then some ⟨1, 1, -112, 0⟩
      else if a = 1040 then some ⟨1, 1, -16, 2⟩ else if a = 1024 then some ⟨1, 1, -1016, 2⟩ else none
    ∃ after gone final, s.compressImpl last outer = some after ∧
      compressLinks unlinkAndDeallocate (layout.moved 4096) (mapped image 4096) s last outer =
        some (gone.map (4096 + ·), mapped final 4096, after.toMultiIndex) ∧ Relinked layout image final s after gone := by
  intro ops s outer last layout image
  have ran : Run.run UndoOp.step (UndoMultiIndex.empty bookKeys) ops = some
      ([.returned, .returned, .revision 1, .returned, .returned, .revision 2, .returned, .returned, .returned], s) := rfl
  have laid : LaidOut layout image s := by
    constructor
    · decide
    · show ∀ a ∈ _, _
      decide
    · decide
    · decide
  exact compress_relinks_anywhere bookKeys ops (by decide) ran last outer [outer] rfl (.tail _ (.head _)) unlinkAndDeallocate
    erasesAfter_unlink layout image laid 4096 (by decide)

end UndoMultiIndex
end ChainBase
