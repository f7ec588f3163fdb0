import ChainBase.Container.Restore

/-! Where the nodes of an undo container are. Every node handed out is linked in
the indices, or kept in the list of removed nodes, or has been disposed of once;
no two kept nodes share an id; and a backup has the id of its node as long as the
node lives. This holds whatever calls fail. -/

namespace ChainBase
open OrderedSequence

namespace MultiIndex
variable {T : Type} [Object T]

/-- Linked, or removed with the undo history still knowing it. -/
def Kept (s : MultiIndex T UndoNodeExtra) (removed : List Addr) (a : Addr) : Prop := a ∈ s.byId ∨ a ∈ removed

structure Housed (s : MultiIndex T UndoNodeExtra) (removed : List Addr) (old : List (OldNode T)) : Prop where
  linked : s.Linked
  nodup : removed.Nodup
  present : ∀ a ∈ s.byId, s.isRemoved a = false
  flagged : ∀ a ∈ removed, s.isRemoved a = true
  owned : ∀ a ∈ removed, a < s.fresh ∧ s.disposed a = 0
  below : ∀ a ∈ removed, s.id a < s.nextId
  ids : ∀ a b, s.Kept removed a → s.Kept removed b → s.id a = s.id b → a = b
  entries : ∀ e ∈ old, e.current < s.fresh ∧ (s.disposed e.current = 0 → Object.id e.item = s.id e.current)
  accounted : ∀ a, a < s.fresh → s.Kept removed a ∨ s.disposed a = 1

namespace Housed
variable {s after : MultiIndex T UndoNodeExtra} {removed left : List Addr} {old kept : List (OldNode T)} {a : Addr}
  {item : T}

theorem apart (housed : s.Housed removed old) (member : a ∈ s.byId) : a ∉ removed := by
  intro also
  have flag := housed.flagged a also
  rw [housed.present a member] at flag
  cases flag

theorem live (housed : s.Housed removed old) (inside : s.Kept removed a) : a < s.fresh ∧ s.disposed a = 0 :=
  inside.elim (housed.linked.owned a) (housed.owned a)

theorem id_below (housed : s.Housed removed old) (inside : s.Kept removed a) : s.id a < s.nextId :=
  inside.elim (housed.linked.below a) (housed.below a)

theorem kept_of_live (housed : s.Housed removed old) (allocated : a < s.fresh) (undisposed : s.disposed a = 0) :
    s.Kept removed a := by
  rcases housed.accounted a allocated with inside | once
  · exact inside
  · rw [undisposed] at once
    cases once

theorem isRemoved_iff (housed : s.Housed removed old) (inside : s.Kept removed a) : s.isRemoved a = true ↔ a ∈ removed := by
  constructor
  · intro flag
    rcases inside with member | member
    · rw [housed.present a member] at flag
      cases flag
    · exact member
  · exact housed.flagged a

theorem forget (housed : s.Housed removed old) (subset : ∀ e ∈ kept, e ∈ old) : s.Housed removed kept :=
  { housed with entries := fun e member => housed.entries e (subset e member) }

theorem log (housed : s.Housed removed old) (inside : s.Kept removed a) {e : OldNode T} (own : e.current = a)
    (copy : Object.id e.item = s.id a) : s.Housed removed (e :: old) where
  __ := housed
  entries other member := by
    rcases List.mem_cons.mp member with rfl | member
    · subst own
      exact ⟨(housed.live inside).1, fun _ => copy⟩
    · exact housed.entries other member

/-- Nodes that are gone have been disposed of, and nothing else changes but the
objects of nodes under their ids. -/
theorem shrink (housed : s.Housed removed old) (linked : after.Linked) (nodup : left.Nodup) (gone : Addr → Prop)
    [DecidablePred gone] (inside : ∀ a, gone a → s.Kept removed a)
    (byId : ∀ a, a ∈ after.byId ↔ a ∈ s.byId ∧ ¬ gone a) (removes : ∀ a, a ∈ left ↔ a ∈ removed ∧ ¬ gone a)
    (fresh : after.fresh = s.fresh) (nextId : after.nextId = s.nextId)
    (disposed : ∀ a, after.disposed a = s.disposed a + if gone a then 1 else 0)
    (ids : ∀ a, s.Kept removed a → ¬ gone a → after.id a = s.id a)
    (flags : ∀ a, s.Kept removed a → ¬ gone a → after.isRemoved a = s.isRemoved a) : after.Housed left old := by
  have keeps : ∀ a, after.Kept left a ↔ s.Kept removed a ∧ ¬ gone a := by
    intro a
    simp only [Kept, byId, removes]
    tauto
  have same : ∀ a, ¬ gone a → after.disposed a = s.disposed a := by
    intro a stays
    rw [disposed, if_neg stays]
    rfl
  constructor
  · exact linked
  · exact nodup
  · intro a member
    obtain ⟨member, stays⟩ := (byId a).mp member
    rw [flags a (Or.inl member) stays]
    exact housed.present a member
  · intro a member
    obtain ⟨member, stays⟩ := (removes a).mp member
    rw [flags a (Or.inr member) stays]
    exact housed.flagged a member
  · intro a member
    obtain ⟨member, stays⟩ := (removes a).mp member
    rw [fresh, same a stays]
    exact housed.owned a member
  · intro a member
    obtain ⟨member, stays⟩ := (removes a).mp member
    rw [ids a (Or.inr member) stays, nextId]
    exact housed.below a member
  · intro a b first second equal
    obtain ⟨first, firstStays⟩ := (keeps a).mp first
    obtain ⟨second, secondStays⟩ := (keeps b).mp second
    rw [ids a first firstStays, ids b second secondStays] at equal
    exact housed.ids a b first second equal
  · intro e member
    obtain ⟨allocated, copy⟩ := housed.entries e member
    refine ⟨by rwa [fresh], fun undisposed => ?_⟩
    have stays : ¬ gone e.current := by
      intro leaves
      rw [disposed, if_pos leaves] at undisposed
      cases undisposed
    rw [same _ stays] at undisposed
    rw [ids _ (housed.kept_of_live allocated undisposed) stays]
    exact copy undisposed
  · intro a allocated
    rw [fresh] at allocated
    by_cases leaves : gone a
    · refine Or.inr ?_
      rw [disposed, if_pos leaves, (housed.live (inside a leaves)).2]
    · rw [keeps, same a leaves]
      rcases housed.accounted a allocated with still | once
      · exact Or.inl ⟨still, leaves⟩
      · exact Or.inr once

theorem update (housed : s.Housed removed old) (linked : after.Linked) (byId : after.byId = s.byId)
    (fresh : after.fresh = s.fresh) (nextId : after.nextId = s.nextId) (disposed : after.disposed = s.disposed)
    (ids : ∀ a, s.Kept removed a → after.id a = s.id a) (flags : ∀ a, after.isRemoved a = s.isRemoved a) :
    after.Housed removed old :=
  housed.shrink linked housed.nodup (fun _ => False) (fun _ => False.elim) (by simp [byId]) (by simp) fresh nextId
    (by simp [disposed]) (fun a inside _ => ids a inside) (fun a _ _ => flags a)

theorem setMtime (housed : s.Housed removed old) (a : Addr) (time : Nat) : (s.setMtime a time).Housed removed old := by
  refine housed.update ?_ rfl rfl rfl rfl (by simp) (by simp)
  exact housed.linked.congr rfl rfl rfl (by simp) housed.linked.owned housed.linked.unused

theorem settle (housed : s.Housed removed old) (member : a ∈ s.byId) (keyed : Object.id item = s.id a) :
    (s.settle a item).Housed removed old := by
  refine housed.update (housed.linked.settle member keyed) rfl rfl rfl rfl (fun b _ => settle_id keyed b) ?_
  intro b
  exact setItem_isRemoved s a b item

/-! ## Emplacing -/

theorem wasteNode (housed : s.Housed removed old) {nodes : Addr → Node T UndoNodeExtra}
    (same : ∀ a, a ≠ s.fresh → nodes a = s.nodes a) : (s.wasteNode nodes).Housed removed old := by
  have values : ∀ a, a ≠ s.fresh → (s.wasteNode nodes).id a = s.id a := fun a other =>
    congrArg (fun node : Node T UndoNodeExtra => Object.id node.item) (same a other)
  have flags : ∀ a, a ≠ s.fresh → (s.wasteNode nodes).isRemoved a = s.isRemoved a := fun a other =>
    congrArg (fun node : Node T UndoNodeExtra => node.color == erasedFlag) (same a other)
  have lives : ∀ a, a ≠ s.fresh → (s.wasteNode nodes).disposed a = s.disposed a := fun a other => by
    simp [MultiIndex.wasteNode, disposeNode, other]
  have used : ∀ a, a < s.fresh → a ≠ s.fresh := fun a allocated => by lia
  have grows : ∀ a, a < s.fresh → a < (s.wasteNode nodes).fresh := fun a allocated => Nat.lt_succ_of_lt allocated
  have old : ∀ a, s.Kept removed a → a ≠ s.fresh := fun a inside => used a (housed.live inside).1
  constructor
  · exact housed.linked.wasteNode same
  · exact housed.nodup
  · intro a member
    rw [flags a (old a (Or.inl member))]
    exact housed.present a member
  · intro a member
    rw [flags a (old a (Or.inr member))]
    exact housed.flagged a member
  · intro a member
    rw [lives a (old a (Or.inr member))]
    exact ⟨grows a (housed.owned a member).1, (housed.owned a member).2⟩
  · intro a member
    rw [values a (old a (Or.inr member))]
    exact housed.below a member
  · intro a b first second equal
    rw [values a (old a first), values b (old b second)] at equal
    exact housed.ids a b first second equal
  · intro e member
    obtain ⟨allocated, copy⟩ := housed.entries e member
    rw [lives _ (used _ allocated), values _ (used _ allocated)]
    exact ⟨grows _ allocated, copy⟩
  · intro a allocated
    by_cases new : a = s.fresh
    · subst new
      refine Or.inr ?_
      have unused := housed.linked.unused s.fresh (Nat.le_refl _)
      simp [MultiIndex.wasteNode, disposeNode, unused]
    · rw [lives a new]
      have earlier : a < s.fresh := by
        have bound : a < s.fresh + 1 := allocated
        lia
      exact housed.accounted a earlier

theorem linkNew (housed : s.Housed removed old) (follows : Object.Follows s.nextId item) :
    (s.linkNew item).Housed removed old := by
  have ascending : s.nextId ≤ Object.id item := follows.1
  have values : ∀ a, a ≠ s.fresh → (s.linkNew item).id a = s.id a := fun a other =>
    congrArg Object.id (linkNew_value_other other)
  have newId : (s.linkNew item).id s.fresh = Object.id item := congrArg Object.id linkNew_value_self
  have flags : ∀ a, a ≠ s.fresh → (s.linkNew item).isRemoved a = s.isRemoved a := fun a other => by
    simp [MultiIndex.linkNew, isRemoved, other]
  have used : ∀ a, s.Kept removed a → a ≠ s.fresh := fun a inside => by
    have allocated := (housed.live inside).1
    lia
  have keeps : ∀ a, (s.linkNew item).Kept removed a → s.Kept removed a ∨ a = s.fresh := by
    intro a inside
    rcases inside with member | member
    · rcases List.mem_append.mp member with member | last
      · exact Or.inl (Or.inl member)
      · exact Or.inr (by simpa using last)
    · exact Or.inl (Or.inr member)
  constructor
  · exact housed.linked.linkNew follows
  · exact housed.nodup
  · intro a member
    rcases List.mem_append.mp member with member | last
    · rw [flags a (used a (Or.inl member))]
      exact housed.present a member
    · obtain rfl : a = s.fresh := by simpa using last
      simp [MultiIndex.linkNew, isRemoved, erasedFlag]
  · intro a member
    rw [flags a (used a (Or.inr member))]
    exact housed.flagged a member
  · intro a member
    exact ⟨Nat.lt_succ_of_lt (housed.owned a member).1, (housed.owned a member).2⟩
  · intro a member
    rw [values a (used a (Or.inr member)), linkNew_nextId follows]
    exact (housed.below a member).trans_le (ascending.trans (Nat.le_succ _))
  · intro a b first second equal
    rcases keeps a first with first | rfl <;> rcases keeps b second with second | rfl
    · rw [values a (used a first), values b (used b second)] at equal
      exact housed.ids a b first second equal
    · rw [values a (used a first), newId] at equal
      have lower := housed.id_below first
      omega
    · rw [values b (used b second), newId] at equal
      have lower := housed.id_below second
      omega
    · rfl
  · intro e member
    obtain ⟨allocated, copy⟩ := housed.entries e member
    refine ⟨Nat.lt_succ_of_lt allocated, ?_⟩
    rw [values _ (by lia)]
    exact copy
  · intro a allocated
    by_cases new : a = s.fresh
    · exact Or.inl (Or.inl (by simp [MultiIndex.linkNew, new]))
    · have earlier : a < s.fresh := by
        have bound : a < s.fresh + 1 := allocated
        lia
      rcases housed.accounted a earlier with inside | once
      · refine Or.inl (inside.imp_left fun member => ?_)
        simp [MultiIndex.linkNew, member]
      · exact Or.inr once

/-! ## Removing -/

theorem remove (housed : s.Housed removed old) (member : a ∈ s.byId) (item : T) :
    ((s.setItem a item).remove a).Housed removed old := by
  refine housed.shrink (housed.linked.remove member item) housed.nodup (· = a) ?_ ?_ ?_ rfl rfl ?_ ?_ ?_
  · rintro b rfl
    exact Or.inl member
  · intro b
    change b ∈ s.byId.erase a ↔ _
    rw [housed.linked.nodup.mem_erase_iff]
    tauto
  · intro b
    refine ⟨fun inside => ⟨inside, ?_⟩, And.left⟩
    rintro rfl
    exact housed.apart member inside
  · intro b
    by_cases same : b = a <;> simp [MultiIndex.remove, eraseImpl, disposeNode, setItem, same]
  · intro b _ other
    exact congrArg Object.id (setItem_value_other s item other)
  · intro b _ _
    exact setItem_isRemoved s a b item

theorem retire (housed : s.Housed removed old) (member : a ∈ s.byId) :
    ((s.eraseImpl a).setRemovedField a erasedFlag).Housed (a :: removed) old := by
  have mem_byId : ∀ b, b ∈ s.byId.erase a ↔ b ≠ a ∧ b ∈ s.byId := fun b => housed.linked.nodup.mem_erase_iff
  have flags := fun b => setRemovedField_isRemoved (s.eraseImpl a) a b erasedFlag
  have keeps : ∀ b, ((s.eraseImpl a).setRemovedField a erasedFlag).Kept (a :: removed) b ↔ s.Kept removed b := by
    intro b
    change b ∈ s.byId.erase a ∨ b ∈ a :: removed ↔ b ∈ s.byId ∨ b ∈ removed
    rw [mem_byId, List.mem_cons]
    by_cases same : b = a
    · simp [same, member]
    · tauto
  have ids : ∀ b, ((s.eraseImpl a).setRemovedField a erasedFlag).id b = s.id b := by
    intro b
    rw [setRemovedField_id]
    rfl
  constructor
  · refine housed.linked.unlink a rfl rfl rfl rfl ?_ (fun _ _ => rfl) member
    intro b _ _
    rw [setRemovedField_value]
    rfl
  · exact List.nodup_cons.mpr ⟨housed.apart member, housed.nodup⟩
  · intro b inside
    obtain ⟨other, inside⟩ := (mem_byId b).mp inside
    rw [flags, if_neg other]
    exact housed.present b inside
  · intro b inside
    rw [flags]
    split
    · rfl
    next other => exact housed.flagged b ((List.mem_cons.mp inside).resolve_left other)
  · intro b inside
    rcases List.mem_cons.mp inside with rfl | inside
    · exact housed.linked.owned b member
    · exact housed.owned b inside
  · intro b inside
    rw [ids]
    rcases List.mem_cons.mp inside with rfl | inside
    · exact housed.linked.below b member
    · exact housed.below b inside
  · intro b c first second equal
    rw [ids, ids] at equal
    exact housed.ids b c ((keeps b).mp first) ((keeps c).mp second) equal
  · intro e inside
    rw [ids]
    exact housed.entries e inside
  · intro b allocated
    rw [keeps]
    exact housed.accounted b allocated

/-- Removed nodes that the history forgets are disposed of. -/
theorem disposeNodes (housed : s.Housed removed old) {gone left : List Addr} (split : removed.Perm (gone ++ left)) :
    (s.disposeNodes gone).Housed left old := by
  have both := List.nodup_append.mp (split.nodup_iff.mp housed.nodup)
  have equal := disposeNodes_eq s gone
  have gone_iff : ∀ b, gone.count b = if b ∈ gone then 1 else 0 := fun b => both.1.count
  have removed_of_gone : ∀ b ∈ gone, b ∈ removed := fun b leaves => split.mem_iff.mpr (List.mem_append_left _ leaves)
  have outside : ∀ b ∈ s.byId, b ∉ gone := fun b member leaves => housed.apart member (removed_of_gone b leaves)
  rw [equal]
  refine housed.shrink ?_ both.2.1 (· ∈ gone) (fun b leaves => Or.inr (removed_of_gone b leaves)) ?_ ?_ rfl rfl
    (fun b => by rw [← gone_iff]) (fun _ _ _ => rfl) (fun _ _ _ => rfl)
  · refine housed.linked.congr rfl rfl rfl (fun _ _ => rfl) ?_ ?_
    · intro b member
      have owned := housed.linked.owned b member
      refine ⟨owned.1, ?_⟩
      change s.disposed b + gone.count b = 0
      rw [gone_iff, if_neg (outside b member), owned.2]
    · intro b beyond
      change s.disposed b + gone.count b = 0
      have unused : b ∉ gone := fun leaves => by
        have live := (housed.owned b (removed_of_gone b leaves)).1
        have free : s.fresh ≤ b := beyond
        lia
      rw [gone_iff, if_neg unused, housed.linked.unused b beyond]
  · intro b
    exact ⟨fun member => ⟨member, outside b member⟩, And.left⟩
  · intro b
    rw [split.mem_iff, List.mem_append]
    constructor
    · intro stays
      exact ⟨Or.inr stays, fun leaves => both.2.2 b leaves b stays rfl⟩
    · rintro ⟨leaves | stays, outside⟩
      · exact absurd leaves outside
      · exact stays

/-! ## The steps of an undo -/

theorem eraseNewIds (housed : s.Housed removed old) (bound : Nat) : (s.eraseNewIds bound).Housed removed old := by
  obtain ⟨indices, cut, -, -⟩ := eraseNewIds_eq housed.linked bound
  have linked := housed.linked.eraseNewIds bound
  rw [cut] at linked ⊢
  refine housed.shrink linked housed.nodup (fun a => a ∈ s.byId ∧ bound ≤ s.id a) (fun b leaves => Or.inl leaves.1)
    ?_ ?_ rfl rfl (fun _ => rfl) (fun _ _ _ => rfl) (fun _ _ _ => rfl)
  · intro b
    simp only [List.mem_filter, decide_eq_true_eq, not_and, Nat.not_le]
    tauto
  · intro b
    refine ⟨fun inside => ⟨inside, fun leaves => housed.apart leaves.1 inside⟩, And.left⟩

theorem takeBack (housed : s.Housed removed old) {e : OldNode T} (inside : e.current ∈ removed)
    (keyed : Object.id e.item = s.id e.current) : (s.takeBack e).Housed removed old := by
  have unlinked : e.current ∉ s.byId := fun member => housed.apart member inside
  have others : ∀ b ∈ s.byId, b ≠ e.current := fun b member same => unlinked (same ▸ member)
  refine Housed.setMtime ?_ _ _
  refine housed.update ?_ rfl rfl rfl rfl ?_ (fun b => setItem_isRemoved s _ b _)
  · exact housed.linked.congr rfl rfl rfl (fun b member => setItem_value_other s _ (others b member)) housed.linked.owned
      housed.linked.unused
  · intro b _
    by_cases same : b = e.current
    · subst same
      simpa [id] using keyed
    · exact congrArg Object.id (setItem_value_other s _ same)

theorem restoreOne (housed : s.Housed removed old) {e : OldNode T} (member : e ∈ old)
    (live : s.disposed e.current = 0) : (s.restoreOne e).Housed removed old := by
  obtain ⟨allocated, copy⟩ := housed.entries e member
  have inside := housed.kept_of_live allocated live
  unfold MultiIndex.restoreOne
  split
  next flag => exact housed.takeBack ((housed.isRemoved_iff inside).mp flag) (copy live)
  next flag =>
    have linked : e.current ∈ s.byId :=
      inside.resolve_right fun listed => flag (housed.flagged _ listed)
    exact (housed.settle linked (copy live)).setMtime _ _

theorem relink (housed : s.Housed (a :: removed) old) : ((s.setRemovedField a 0).link a).Housed removed old := by
  have inside : a ∈ a :: removed := by simp
  have unlinked : a ∉ s.byId := fun member => housed.apart member inside
  have flags := fun b => setRemovedField_isRemoved s a b 0
  have marked : (s.setRemovedField a 0).Linked :=
    housed.linked.congr rfl rfl rfl (by simp) housed.linked.owned housed.linked.unused
  have mem_byId : ∀ b, b ∈ ((s.setRemovedField a 0).link a).byId ↔ b = a ∨ b ∈ s.byId := fun b => mem_link
  have keeps : ∀ b, ((s.setRemovedField a 0).link a).Kept removed b ↔ s.Kept (a :: removed) b := by
    intro b
    simp only [Kept, mem_byId, List.mem_cons]
    tauto
  have ids : ∀ b, ((s.setRemovedField a 0).link a).id b = s.id b := fun b =>
    congrFun (setRemovedField_id s a 0) b
  have newId : ∀ b ∈ s.byId, s.id a ≠ s.id b := fun b member same =>
    unlinked (housed.ids a b (Or.inr inside) (Or.inl member) same ▸ member)
  constructor
  · refine marked.link ?_ ?_ (housed.owned a inside)
    · rw [setRemovedField_id]
      exact newId
    · rw [setRemovedField_id]
      exact housed.below a inside
  · exact (List.nodup_cons.mp housed.nodup).2
  · intro b member
    change (s.setRemovedField a 0).isRemoved b = false
    rw [flags]
    split
    · rfl
    next other => exact housed.present b (((mem_byId b).mp member).resolve_left other)
  · intro b member
    have other : b ≠ a := fun same => (List.nodup_cons.mp housed.nodup).1 (same ▸ member)
    change (s.setRemovedField a 0).isRemoved b = true
    rw [flags, if_neg other]
    exact housed.flagged b (by simp [member])
  · exact fun b member => housed.owned b (by simp [member])
  · intro b member
    rw [ids]
    exact housed.below b (by simp [member])
  · intro b c first second equal
    rw [ids, ids] at equal
    exact housed.ids b c ((keeps b).mp first) ((keeps c).mp second) equal
  · intro e member
    rw [ids]
    exact housed.entries e member
  · intro b allocated
    rw [keeps]
    exact housed.accounted b allocated

theorem rewindNextId (housed : s.Housed removed old) {bound : Nat} (all : ∀ a, s.Kept removed a → s.id a < bound) :
    { s with nextId := bound }.Housed removed old where
  __ := housed
  linked := { housed.linked with below := fun a member => all a (Or.inl member) }
  below a member := all a (Or.inr member)

end Housed
end MultiIndex
end ChainBase
