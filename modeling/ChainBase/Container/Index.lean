import ChainBase.Library.OrderedSequence
import Mathlib.Data.List.Forall2

/-! The indices of a container and the recursions over them. A node is linked
into one tree after another, and an index that refuses it stops the recursion
while the earlier indices have already been changed. -/

namespace ChainBase
open OrderedSequence

abbrev Addr := Nat

/-- `set_index<node, OrderedIndex>`: the nodes in the order of the tree and the
order its key extractor and comparison give to the objects. -/
structure SetIndex (T : Type) where
  keys : Comparator T
  tree : List Addr

namespace SetIndex
variable {T : Type} (value : Addr → T)

/-- `value_comp()` on nodes. -/
def comp (I : SetIndex T) : Comparator Addr := I.keys.comap value

/-- `insert_impl<N>`: link the node into every index from here on. -/
def insertImpl (p : Addr) : List (SetIndex T) → Bool × List (SetIndex T)
  | [] => (true, [])
  | I :: rest =>
    match insertUnique (I.comp value) p I.tree with
    | .error _ => (false, I :: rest)
    | .ok tree =>
      match insertImpl p rest with
      | (true, rest) => (true, { I with tree } :: rest)
      -- the guard unlinks the node from this index again
      | (false, rest) => (false, { I with tree := tree.erase p } :: rest)

/-- `post_modify_impl<unique, N>`: move a modified node to its place in every
index from here on. -/
def postModifyImpl (unique : Bool) (p : Addr) : List (SetIndex T) → Bool × List (SetIndex T)
  | [] => (true, [])
  | I :: rest =>
    let others := I.tree.erase p
    let continueWith (I : SetIndex T) : Bool × List (SetIndex T) :=
      ((postModifyImpl unique p rest).1, I :: (postModifyImpl unique p rest).2)
    if misplaced (I.comp value) p I.tree then
      if unique then
        match insertUnique (I.comp value) p others with
        | .ok tree => continueWith { I with tree }
        -- parked in front of its conflict; the later indices are not visited
        | .error position => (false, { I with tree := insertBefore position p others } :: rest)
      else
        continueWith { I with tree := insertEqual (I.comp value) p others }
    else
      continueWith I

/-- `erase_impl<N>`: unlink the node from every index from here on. -/
def eraseImpl (p : Addr) (indices : List (SetIndex T)) : List (SetIndex T) :=
  indices.map fun I => { I with tree := I.tree.erase p }

def insert (p : Addr) (I : SetIndex T) : SetIndex T := { I with tree := insertEqual (I.comp value) p I.tree }
def reposition (p : Addr) (I : SetIndex T) : SetIndex T :=
  { I with tree := OrderedSequence.reposition (I.comp value) p I.tree }

def Free (p : Addr) (I : SetIndex T) : Prop := ∀ y ∈ I.tree, y ≠ p → ¬ (I.comp value).Same p y

/-- The index links exactly these nodes, in key order. -/
structure Placed (addrs : List Addr) (I : SetIndex T) : Prop where
  perm : I.tree.Perm addrs
  sorted : Sorted (I.comp value) I.tree

/-- As `Placed`, but for one node whose key may have changed. -/
structure Displaced (addrs : List Addr) (p : Addr) (I : SetIndex T) : Prop where
  perm : I.tree.Perm addrs
  others : Sorted (I.comp value) (I.tree.erase p)

/-- Every node but `p` is at its place in the key order. -/
structure Disturbed (p : Addr) (I : SetIndex T) : Prop where
  nodup : I.tree.Nodup
  others : Sorted (I.comp value) (I.tree.erase p)

/-- Two versions of an index that differ at most in the place of `p`. -/
structure Resembles (p : Addr) (before after : SetIndex T) : Prop where
  keys : after.keys = before.keys
  perm : after.tree.Perm before.tree
  others : after.tree.erase p = before.tree.erase p

variable {value} {addrs : List Addr} {p : Addr} {I : SetIndex T} {indices : List (SetIndex T)}

theorem resembles_later {before after : List (SetIndex T)} (related : List.Forall₂ (Resembles p) before after)
    {J : SetIndex T} (member : J ∈ after) : ∃ I ∈ before, Resembles p I J := by
  induction related with
  | nil => cases member
  | cons first _ ih =>
    rcases List.mem_cons.mp member with rfl | member
    · exact ⟨_, by simp, first⟩
    · obtain ⟨I, inside, relation⟩ := ih member
      exact ⟨I, by simp [inside], relation⟩

theorem resembles_earlier {before after : List (SetIndex T)} (related : List.Forall₂ (Resembles p) before after)
    {I : SetIndex T} (member : I ∈ before) : ∃ J ∈ after, Resembles p I J := by
  induction related with
  | nil => cases member
  | cons first _ ih =>
    rcases List.mem_cons.mp member with rfl | member
    · exact ⟨_, by simp, first⟩
    · obtain ⟨J, inside, relation⟩ := ih member
      exact ⟨J, by simp [inside], relation⟩

theorem eraseImpl_resembles {before after : List (SetIndex T)} (related : List.Forall₂ (Resembles p) before after) :
    eraseImpl p after = eraseImpl p before := by
  induction related with
  | nil => rfl
  | cons first _ ih => simpa [eraseImpl, first.keys, first.others] using ih

theorem map_resembles {before after : List (SetIndex T)} (related : List.Forall₂ (Resembles p) before after)
    (back : SetIndex T → SetIndex T) (restores : ∀ I ∈ before, ∀ J ∈ after, Resembles p I J → back J = I) :
    after.map back = before := by
  induction related with
  | nil => rfl
  | cons first _ ih =>
    rw [List.map_cons, restores _ (by simp) _ (by simp) first,
      ih fun I inside J member => restores I (by simp [inside]) J (by simp [member])]

theorem mem_tree (placed : Placed value addrs I) {a : Addr} : a ∈ I.tree ↔ a ∈ addrs := placed.perm.mem_iff

/-- The order of an index depends only on the objects of its own nodes. -/
theorem sorted_congr {other : Addr → T} {l : List Addr} (same : ∀ a ∈ l, other a = value a)
    (sorted : Sorted (I.comp value) l) : Sorted (I.comp other) l := by
  refine List.Pairwise.imp_of_mem ?_ sorted
  intro a b first second notAbove
  simpa only [comp, Comparator.comap_less, same a first, same b second] using notAbove

theorem Placed.congr {other : Addr → T} (placed : Placed value addrs I) (same : ∀ a ∈ addrs, other a = value a) :
    Placed other addrs I :=
  ⟨placed.perm, sorted_congr (fun a member => same a (placed.perm.mem_iff.mp member)) placed.sorted⟩

/-- Changing one object displaces at most its own node. -/
theorem Placed.displaced {other : Addr → T} (placed : Placed value addrs I) (nodup : addrs.Nodup)
    (same : ∀ a ∈ addrs, a ≠ p → other a = value a) : Displaced other addrs p I := by
  refine ⟨placed.perm, ?_⟩
  refine sorted_congr ?_ (List.Pairwise.sublist List.erase_sublist placed.sorted)
  intro a member
  have unlinked := (placed.perm.nodup_iff.mpr nodup).mem_erase_iff.mp member
  exact same a (placed.perm.mem_iff.mp unlinked.2) unlinked.1

theorem Placed.insert (placed : Placed value addrs I) {addrs' : List Addr} (perm : addrs'.Perm (p :: addrs)) :
    Placed value addrs' (I.insert value p) :=
  ⟨(insertEqual_perm _ _ _).trans ((placed.perm.cons p).trans perm.symm), insertEqual_sorted placed.sorted⟩

theorem Placed.erase (placed : Placed value addrs I) (p : Addr) :
    Placed value (addrs.erase p) { I with tree := I.tree.erase p } :=
  ⟨placed.perm.erase p, List.Pairwise.sublist List.erase_sublist placed.sorted⟩

theorem Displaced.reposition (displaced : Displaced value addrs p I) (member : p ∈ addrs) :
    Placed value addrs (I.reposition value p) := by
  have linked := displaced.perm.mem_iff.mpr member
  exact ⟨(reposition_perm linked).trans displaced.perm, reposition_sorted linked displaced.others⟩

/-! ## What the recursions compute -/

theorem insertImpl_free (value : Addr → T) (indices : List (SetIndex T)) (sorted : ∀ I ∈ indices, Sorted (I.comp value) I.tree)
    (free : ∀ I ∈ indices, p ∉ I.tree ∧ Free value p I) :
    insertImpl value p indices = (true, indices.map (insert value p)) := by
  induction indices with
  | nil => rfl
  | cons I rest ih =>
    have own := free I (by simp)
    obtain ⟨linked, -⟩ | ⟨blocking, member, -, same⟩ := insertUnique_cases (x := p) (sorted I (by simp))
    · have others := ih (fun I member => sorted I (by simp [member])) (fun I member => free I (by simp [member]))
      simp [insertImpl, linked, others, insert]
    · exact absurd same (own.2 blocking member (fun equal => own.1 (equal ▸ member)))

theorem insertImpl_blocked (value : Addr → T) (indices : List (SetIndex T))
    (sorted : ∀ I ∈ indices, Sorted (I.comp value) I.tree) (absent : ∀ I ∈ indices, p ∉ I.tree)
    (blocked : ∃ I ∈ indices, ¬ Free value p I) : insertImpl value p indices = (false, indices) := by
  induction indices with
  | nil => simp at blocked
  | cons I rest ih =>
    obtain ⟨linked, free⟩ | ⟨blocking, -, refused, -⟩ := insertUnique_cases (x := p) (sorted I (by simp))
    · have later : ∃ I ∈ rest, ¬ Free value p I := by
        obtain ⟨J, member, taken⟩ := blocked
        rcases List.mem_cons.mp member with rfl | member
        · exact absurd (fun y inside _ => free y inside) taken
        · exact ⟨J, member, taken⟩
      have others := ih (fun I member => sorted I (by simp [member])) (fun I member => absent I (by simp [member])) later
      simp [insertImpl, linked, others, erase_insertEqual (absent I (by simp))]
    · simp [insertImpl, refused]

theorem Displaced.disturbed (displaced : Displaced value addrs p I) (nodup : addrs.Nodup) : Disturbed value p I :=
  ⟨displaced.perm.nodup_iff.mpr nodup, displaced.others⟩

theorem Disturbed.free_iff (disturbed : Disturbed value p I) :
    Free value p I ↔ ∀ y ∈ I.tree.erase p, ¬ (I.comp value).Same p y := by
  simp only [Free, disturbed.nodup.mem_erase_iff]
  exact ⟨fun free y ⟨other, inside⟩ => free y inside other, fun free y inside other => free y ⟨other, inside⟩⟩

theorem postModifyImpl_free (unique : Bool) (disturbed : ∀ I ∈ indices, Disturbed value p I)
    (free : unique = true → ∀ I ∈ indices, Free value p I) :
    postModifyImpl value unique p indices = (true, indices.map (reposition value p)) := by
  induction indices with
  | nil => rfl
  | cons I rest ih =>
    have rest' := ih (fun I member => disturbed I (by simp [member])) (fun needed I member => free needed I (by simp [member]))
    have own := disturbed I (by simp)
    by_cases fits : misplaced (I.comp value) p I.tree = true
    · cases unique with
      | false => simp [postModifyImpl, fits, rest', reposition, OrderedSequence.reposition]
      | true =>
        obtain ⟨linked, -⟩ | ⟨blocking, member, -, same⟩ := insertUnique_cases (x := p) own.others
        · simp [postModifyImpl, fits, rest', linked, reposition, OrderedSequence.reposition]
        · exact absurd same (own.free_iff.mp (free rfl I (by simp)) blocking member)
    · simp [postModifyImpl, fits, rest', reposition, OrderedSequence.reposition]

theorem postModifyImpl_blocked (disturbed : ∀ I ∈ indices, Disturbed value p I) (member : ∀ I ∈ indices, p ∈ I.tree)
    (blocked : ∃ I ∈ indices, ¬ Free value p I) : (postModifyImpl value true p indices).1 = false := by
  induction indices with
  | nil => simp at blocked
  | cons I rest ih =>
    have own := disturbed I (by simp)
    have later : Free value p I → (postModifyImpl value true p rest).1 = false := by
      intro free
      apply ih (fun I member => disturbed I (by simp [member])) (fun I inside => member I (by simp [inside]))
      obtain ⟨J, inside, taken⟩ := blocked
      rcases List.mem_cons.mp inside with rfl | inside
      · exact absurd free taken
      · exact ⟨J, inside, taken⟩
    by_cases fits : misplaced (I.comp value) p I.tree = true
    · obtain ⟨linked, free⟩ | ⟨blocking, -, refused, -⟩ := insertUnique_cases (x := p) own.others
      · simp [postModifyImpl, fits, linked, later (own.free_iff.mpr free)]
      · simp [postModifyImpl, fits, refused]
    · have fits : misplaced (I.comp value) p I.tree = false := by simpa using fits
      have alone := (sorted_of_not_misplaced (member I (by simp)) own.others fits).2
      simp [postModifyImpl, fits, later (own.free_iff.mpr alone)]

/-- Whatever happens, every index keeps its nodes and the order of the others. -/
theorem postModifyImpl_frame (unique : Bool) (nodup : ∀ I ∈ indices, I.tree.Nodup ∧ p ∈ I.tree) :
    List.Forall₂ (Resembles p) indices (postModifyImpl value unique p indices).2 := by
  induction indices with
  | nil => exact .nil
  | cons I rest ih =>
    have rest' := ih (fun I member => nodup I (by simp [member]))
    have own := nodup I (by simp)
    have absent : p ∉ I.tree.erase p := own.1.not_mem_erase
    have relinked : ∀ tree : List Addr, tree.Perm (p :: I.tree.erase p) → tree.Perm I.tree := fun tree perm =>
      perm.trans (List.perm_cons_erase own.2).symm
    by_cases fits : misplaced (I.comp value) p I.tree = true
    · cases unique with
      | false =>
        simp only [postModifyImpl, fits, if_true, Bool.false_eq_true, if_false]
        exact .cons ⟨rfl, relinked _ (insertEqual_perm _ _ _), erase_insertEqual absent⟩ rest'
      | true =>
        simp only [postModifyImpl, fits, if_true]
        cases result : insertUnique (I.comp value) p (I.tree.erase p) with
        | ok tree =>
          have same : tree = insertEqual (I.comp value) p (I.tree.erase p) := by
            unfold insertUnique at result
            split at result
            · split at result
              · exact (Except.ok.inj result).symm
              · cases result
            · exact (Except.ok.inj result).symm
          subst same
          exact .cons ⟨rfl, relinked _ (insertEqual_perm _ _ _), erase_insertEqual absent⟩ rest'
        | error position =>
          refine .cons ⟨rfl, relinked _ (insertBefore_perm _ _ _), erase_insertBefore position absent⟩ ?_
          exact List.forall₂_same.mpr fun I _ => ⟨rfl, List.Perm.refl _, rfl⟩
    · simp only [postModifyImpl, fits]
      exact .cons ⟨rfl, List.Perm.refl _, rfl⟩ rest'

/-! ## The neighbour test against relinking -/

def relink (value : Addr → T) (p : Addr) (I : SetIndex T) : SetIndex T :=
  insert value p { I with tree := I.tree.erase p }

theorem reposition_eq_relink (disturbed : Disturbed value p I) (member : p ∈ I.tree) (free : Free value p I) :
    I.reposition value p = I.relink value p := by
  have absent : p ∉ I.tree.erase p := disturbed.nodup.not_mem_erase
  have trees : OrderedSequence.reposition (I.comp value) p I.tree = insertEqual (I.comp value) p (I.tree.erase p) := by
    apply sorted_unique (c := I.comp value) ((reposition_perm member).mem_iff.mpr member) (mem_insertEqual.mpr (.inl rfl))
    · exact reposition_sorted member disturbed.others
    · exact insertEqual_sorted disturbed.others
    · rw [erase_reposition disturbed.nodup, erase_insertEqual absent]
    · rw [erase_insertEqual absent]
      exact disturbed.free_iff.mp free
  simp only [reposition, relink, insert, trees]
  rfl

/-- `post_modify_impl` does what relinking the node in every index would do. With
unique keys it succeeds exactly if the node has its keys for itself, and leaves it at
its place; without, it always succeeds and leaves every index in order. The other nodes
stay as they are, in any case. -/
theorem postModifyImpl_agrees (unique : Bool) (indices : List (SetIndex T)) (member : ∀ I ∈ indices, p ∈ I.tree)
    (disturbed : ∀ I ∈ indices, Disturbed value p I)
    (strict : unique = true → ∀ I ∈ indices, StrictlySorted (I.comp value) (I.tree.erase p)) :
    let result := postModifyImpl value unique p indices
    (unique = true →
      (result.1 = true ↔ ∀ I ∈ indices, Free value p I) ∧
      (result.1 = true →
        result.2 = indices.map (relink value p) ∧ ∀ J ∈ result.2, StrictlySorted (J.comp value) J.tree)) ∧
    (unique = false → result.1 = true ∧ ∀ J ∈ result.2, Sorted (J.comp value) J.tree) ∧
    List.Forall₂ (Resembles p) indices result.2 := by
  have frame : List.Forall₂ (Resembles p) indices (postModifyImpl value unique p indices).2 :=
    postModifyImpl_frame unique fun I index => ⟨(disturbed I index).nodup, member I index⟩
  refine ⟨?_, ?_, frame⟩
  · rintro rfl
    by_cases free : ∀ I ∈ indices, Free value p I
    · have moved := postModifyImpl_free true disturbed fun _ => free
      have relinked : (postModifyImpl value true p indices).2 = indices.map (relink value p) := by
        rw [moved]
        exact List.map_congr_left fun I index => reposition_eq_relink (disturbed I index) (member I index) (free I index)
      refine ⟨iff_of_true (by rw [moved]) free, fun _ => ⟨relinked, ?_⟩⟩
      rw [relinked]
      intro J inside
      obtain ⟨I, index, rfl⟩ := List.mem_map.mp inside
      exact insertEqual_strictlySorted (strict rfl I index) ((disturbed I index).free_iff.mp (free I index))
    · have blocked := postModifyImpl_blocked disturbed member (by simpa using free)
      rw [blocked]
      exact ⟨iff_of_false (by simp) free, by simp⟩
  · rintro rfl
    have moved := postModifyImpl_free false disturbed (by simp)
    rw [moved]
    refine ⟨rfl, fun J inside => ?_⟩
    obtain ⟨I, index, rfl⟩ := List.mem_map.mp inside
    exact reposition_sorted (member I index) (disturbed I index).others

instance (value : Addr → T) (p : Addr) (I : SetIndex T) : Decidable (Disturbed value p I) :=
  decidable_of_iff (I.tree.Nodup ∧ Sorted (I.comp value) (I.tree.erase p))
    ⟨fun both => ⟨both.1, both.2⟩, fun disturbed => ⟨disturbed.nodup, disturbed.others⟩⟩

/-- Three pairs with an index on each number, when the first number of one has changed. -/
def pairs : Addr → Nat × Nat
  | 0 => (1, 9)
  | 1 => (7, 5)
  | _ => (4, 2)

def pairIndices : List (SetIndex (Nat × Nat)) := [⟨.ofKey Prod.fst, [0, 1, 2]⟩, ⟨.ofKey Prod.snd, [2, 1, 0]⟩]

theorem postModifyImpl_agrees_pairs :
    (postModifyImpl pairs true 1 pairIndices).2 = pairIndices.map (relink pairs 1) :=
  (((postModifyImpl_agrees true pairIndices (by decide) (by decide) (by decide)).1 rfl).2 (by decide)).1

end SetIndex
end ChainBase
