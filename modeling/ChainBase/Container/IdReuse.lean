import ChainBase.Container.UndoRefinement

/-! How long an id stays with its object. Nodes come and go but keep their ids, and the
next id falls only when a level is undone; so the id of an object is given to another
one only after an undo has taken back the level in which the first was made. -/

namespace ChainBase
open OrderedSequence

namespace UndoMultiIndex
variable {T : Type} [Object T]

/-- No node comes back that was not kept, and those that stay keep their ids. -/
structure Evolves (s after : UndoMultiIndex T) : Prop where
  fresh : s.fresh ≤ after.fresh
  kept : ∀ a, a < s.fresh → after.Kept after.removedValues a → s.Kept s.removedValues a ∧ after.id a = s.id a

namespace Evolves
variable {s middle after : UndoMultiIndex T} {a : Addr} {item : T}

theorem refl (s : UndoMultiIndex T) : s.Evolves s := ⟨Nat.le_refl _, fun _ _ inside => ⟨inside, rfl⟩⟩

theorem trans (first : s.Evolves middle) (second : middle.Evolves after) : s.Evolves after := by
  refine ⟨Nat.le_trans first.fresh second.fresh, fun a old inside => ?_⟩
  obtain ⟨still, same⟩ := second.kept a (Nat.lt_of_lt_of_le old first.fresh) inside
  obtain ⟨before, earlier⟩ := first.kept a old still
  exact ⟨before, same.trans earlier⟩

theorem of_kept (fresh : after.fresh = s.fresh)
    (kept : ∀ a, after.Kept after.removedValues a → s.Kept s.removedValues a ∧ after.id a = s.id a) : s.Evolves after :=
  ⟨Nat.le_of_eq fresh.symm, fun a _ inside => kept a inside⟩

/-! ## Data operations -/

theorem wasteNode {nodes : Addr → Node T UndoNodeExtra} (same : ∀ a, a ≠ s.fresh → nodes a = s.nodes a) :
    s.Evolves { s with toMultiIndex := s.wasteNode nodes } := by
  refine ⟨Nat.le_succ _, fun a old inside => ⟨inside, ?_⟩⟩
  exact congrArg (fun node : Node T UndoNodeExtra => Object.id node.item) (same a fun equal => Nat.lt_irrefl _ (equal ▸ old))

theorem linkNew : s.Evolves ({ s with toMultiIndex := s.linkNew item }.onCreate s.fresh) := by
  have linked : s.Evolves { s with toMultiIndex := s.linkNew item } := by
    refine ⟨Nat.le_succ _, fun a old inside => ?_⟩
    have other : a ≠ s.fresh := fun equal => Nat.lt_irrefl _ (equal ▸ old)
    refine ⟨inside.imp_left fun member => ?_, congrArg Object.id (MultiIndex.linkNew_value_other other)⟩
    exact (List.mem_append.mp member).resolve_right fun last => other (List.mem_singleton.mp last)
  refine linked.trans ?_
  unfold UndoMultiIndex.onCreate
  split
  · exact refl _
  · exact of_kept rfl fun a inside => ⟨inside, congrFun (MultiIndex.setMtime_id _ _ _) a⟩

theorem emplace (sound : s.Sound) (constructor : Nat → Option T) : s.Evolves (s.emplace constructor).2 := by
  cases constructs : constructor s.nextId with
  | none =>
    rw [emplace_threw constructs]
    exact wasteNode fun _ _ => rfl
  | some item =>
    by_cases clear : s.Clear s.fresh item
    · rw [emplace_accepted sound constructs clear]
      exact linkNew
    · rw [emplace_refused sound constructs clear]
      exact wasteNode fun a other => Function.update_of_ne other _ _

theorem modified (keyed : Object.id item = s.id a) :
    s.Evolves { s.prepared a with toMultiIndex := (s.prepared a).settle a item } := by
  have prepared : s.Evolves (s.prepared a) := by
    unfold UndoMultiIndex.prepared
    split
    · exact of_kept rfl fun b inside => ⟨inside, congrFun (MultiIndex.setMtime_id _ _ _) b⟩
    · exact refl s
  refine prepared.trans (of_kept rfl fun b inside => ⟨inside, ?_⟩)
  exact MultiIndex.settle_id (keyed.trans (prepared_id a).symm) b

theorem remove (member : a ∈ s.byId) : s.Evolves (s.remove a) := by
  by_cases older : s.Older a
  · rw [remove_older older]
    refine of_kept rfl fun b inside => ⟨?_, congrFun (MultiIndex.setRemovedField_id _ _ _) b⟩
    rcases inside with linked | listed
    · exact .inl (List.mem_of_mem_erase linked)
    · rcases List.mem_cons.mp listed with rfl | listed
      · exact .inl member
      · exact .inr listed
  · rw [remove_newer older, MultiIndex.setItem_value]
    exact of_kept rfl fun b inside => ⟨inside.imp_left List.mem_of_mem_erase, rfl⟩

/-! ## Levels -/

theorem disposeUndo {info : List UndoState} {revision : Int} :
    s.Evolves { s.disposeUndo with undoStack := info, revision } := by
  refine of_kept ?_ fun a inside => ⟨inside.imp ?_ (fun listed => by cases listed), ?_⟩ <;>
    simp only [UndoMultiIndex.disposeUndo, MultiIndex.disposeNodes_eq]
  · exact fun linked => linked
  · rfl

theorem squashFast : s.Evolves s.squashFast := by
  unfold UndoMultiIndex.squashFast
  split
  · exact refl s
  · exact disposeUndo
  · exact of_kept rfl fun a inside => ⟨inside, rfl⟩

theorem dispose {info : UndoState} {kept : List UndoState} : s.Evolves { s.dispose info with undoStack := kept } := by
  have listed : ∀ a ∈ s.removedValuesOf info ++ (CutList.below (fun a => a) info.removedValuesEnd s.removedValues).take 1,
      a ∈ s.removedValues := fun a member => CutList.cut_subset member
  refine of_kept ?_ fun a inside => ⟨inside.imp ?_ (listed a), ?_⟩ <;>
    simp only [UndoMultiIndex.dispose, MultiIndex.disposeNodes_eq]
  · exact fun linked => linked
  · rfl

theorem commit (revision : Int) : s.Evolves (s.commit revision).2 := by
  obtain same | ⟨kept, -, info, -, -, same⟩ | same := s.commit_cases revision
  · exact same ▸ disposeUndo
  · exact same ▸ dispose
  · rw [same]
    exact refl s

theorem undo (sound : s.Sound) (ran : s.undo = some after) : s.Evolves after :=
  of_kept (sound.undo_kept ran).1 (sound.undo_kept ran).2

theorem undoTimes {n : Nat} (sound : s.Sound) (ran : s.undoTimes n = some after) : s.Evolves after := by
  induction n generalizing s with
  | zero =>
    simp only [UndoMultiIndex.undoTimes, Option.some.injEq] at ran
    exact ran ▸ refl s
  | succ n ih =>
    obtain ⟨middle, first, rest⟩ := Option.bind_eq_some_iff.mp ran
    exact (undo sound first).trans (ih (sound.undo first) rest)

theorem compressImpl (sound : s.Sound) {last session : UndoState} (ran : s.compressImpl last session = some after) :
    s.Evolves after := by
  obtain ⟨live, rfl⟩ := (compressImpl_iff sound).mp ran
  have frame := MultiIndex.restoreAll_frame
    ((s.oldValuesOf last).filter (fun e => e.mtime < session.ctime && s.isRemoved e.current)) s.toMultiIndex
  have listed : ∀ a ∈ (s.compressed last session).removedValues, a ∈ s.removedValues :=
    fun a member => CutList.replaced_subset (fun _ inside => List.mem_of_mem_filter inside) member
  refine of_kept ?_ fun a inside => ⟨inside.imp ?_ (listed a), compressed_id sound live a⟩ <;>
    simp only [compressed, MultiIndex.disposeNodes_eq]
  · exact frame.2.2.1
  · exact fun linked => frame.1 ▸ linked

theorem squash (sound : s.Sound) (ran : s.squash = some after) : s.Evolves after := by
  obtain ⟨last, session, rest, middle, -, first, rfl⟩ | rfl := squash_cases ran
  · exact (compressImpl sound first).trans squashFast
  · exact squashFast

theorem compressLastUndoSession (sound : s.Sound) (ran : s.compressLastUndoSession = some after) : s.Evolves after := by
  unfold UndoMultiIndex.compressLastUndoSession at ran
  split at ran
  · cases ran
  next last rest stack => exact compressImpl sound ran

end Evolves
end UndoMultiIndex

namespace Table
variable {T : Type} [Object T] {keys : List (Comparator T)}

theorem emplace_nextId (t : Table T keys) (constructor : Nat → Option T) : t.nextId ≤ (t.emplace constructor).2.nextId := by
  unfold emplace
  split
  · exact Nat.le_refl _
  next v _ =>
    split
    next accepted => exact Nat.le_succ_of_le accepted.1
    · exact Nat.le_refl _

theorem modify_nextId (t : Table T keys) (id : Nat) (modifier : T → T × Bool) : (t.modify id modifier).2.nextId = t.nextId := by
  unfold modify
  split
  · rfl
  · split <;> rfl

end Table

namespace UndoOp
variable {T : Type} [Object T] {keys : List (Comparator T)} {s after : UndoMultiIndex T} {v : Versioned (Table T keys)}
  {op : UndoOp T} {reply : Reply} {level : Nat}

theorem evolves (sound : s.Sound) (legal : Legal s op) (ran : step s op = some (reply, after)) : s.Evolves after := by
  cases performs ran with
  | emplace constructor => exact .emplace sound constructor
  | modify found modified =>
    have accepts := legal _ found
    rw [UndoMultiIndex.modify_kept sound (MultiIndex.mem_of_named found).1 accepts] at modified
    cases modified
    exact .modified accepts.1
  | remove found => exact .remove (MultiIndex.mem_of_named found).1
  | startUndo => exact .of_kept rfl fun a inside => ⟨inside, rfl⟩
  | undo undone => exact .undo sound undone
  | undoAll undone => exact .undoTimes sound undone
  | squash squashed => exact .squash sound squashed
  | squashFast => exact .squashFast
  | compress compressed | lastUndoSession compressed => exact .compressLastUndoSession sound compressed
  | commit revision => exact .commit revision
  | setRevision set =>
    rw [UndoMultiIndex.setRevision_ok set]
    exact .of_kept rfl fun a inside => ⟨inside, rfl⟩
  | modifyMissing | removeMissing | noSession | refused => exact .refl s

/-! ## Levels of insertions

Levels are counted from the outermost open one; what has been inserted outside of all of
them is at level 0. -/

/-- The call undoes the level. -/
def RollsBack (s : UndoMultiIndex T) (level : Nat) : UndoOp T → Prop
  | undo => level = s.undoStack.length ∧ 0 < level
  | undoAll => 0 < level
  | _ => False

/-- The number of a level after a call that does not undo it. A squashed level becomes
part of the one around it, and committed ones are gone, with the insertions in them
outside of those that remain. -/
def renumber (s : UndoMultiIndex T) (level : Nat) : UndoOp T → Nat
  | squash | squashFast => min level (s.undoStack.length - 1)
  | commit revision => level - (s.undoStack.length - (s.commit revision).2.undoStack.length)
  | _ => level

/-- Some call of the run undoes the level. -/
def RolledBack : UndoMultiIndex T → Nat → List (UndoOp T) → Prop
  | _, _, [] => False
  | s, level, op :: ops =>
    op.RollsBack s level ∨
      ∃ reply after, step s op = some (reply, after) ∧ RolledBack after (op.renumber s level) ops

theorem issued_now {constructor : Nat → Option T} (refines : s.Refines (spec v (emplace constructor)).2) {id : Nat}
    (below : id < s.nextId) : (spec v (emplace constructor)).2.Since (id < ·.nextId) v.saved.length :=
  Versioned.since_now (v := (spec v (emplace constructor)).2) (below.trans_eq refines.current.nextId)

/-- Short of an undo of its level, an id stays below the next ids of the present table
and of those saved since. -/
theorem issued_step (refines : s.Refines v) {id : Nat} (since : v.Since (id < ·.nextId) level)
    (kept : ¬ op.RollsBack s level) : (spec v op).2.Since (id < ·.nextId) (op.renumber s level) := by
  have depth := refines.saved.length_eq
  cases op with
  | emplace constructor => exact since.update (Nat.lt_of_lt_of_le since.current (Table.emplace_nextId _ _))
  | modify id modifier => exact since.update (since.current.trans_eq (Table.modify_nextId _ _ _).symm)
  | remove id => exact since.update since.current
  | startUndo => exact since.start
  | undo =>
    refine since.undo fun top => ?_
    by_contra inside
    exact kept ⟨top.trans depth.symm, Nat.pos_of_ne_zero inside⟩
  | undoAll =>
    obtain rfl : level = 0 := Nat.eq_zero_of_not_pos kept
    exact since.undoAll
  | squash | squashFast =>
    simp only [renumber, depth]
    exact since.squash
  | compressLastUndoSession | lastUndoSession => exact since
  | commit revision =>
    simp only [renumber, depth, (refines.commit revision).2.saved.length_eq]
    exact since.commit revision
  | setRevision revision =>
    simp only [spec]
    split
    · exact since
    · exact ⟨since.current, since.opened, since.inside⟩

/-! ## Runs -/

theorem issued_run {ops : List (UndoOp T)} {replies : List Reply} {last : UndoMultiIndex T} {id : Nat} (refines : s.Refines v)
    (legal : Run.Permitted step Legal s ops) (since : v.Since (id < ·.nextId) level)
    (ran : Run.run step s ops = some (replies, last)) (kept : ¬ RolledBack s level ops) :
    id < last.nextId ∧ last.Sound := by
  induction ops generalizing s v level replies with
  | nil =>
    cases ran
    exact ⟨since.current.trans_eq refines.current.nextId.symm, refines.sound⟩
  | cons op ops ih =>
    obtain ⟨reply, after, rest, taken, others, -⟩ := Run.run_cons ran
    obtain ⟨state, same, agrees⟩ := simulated s v op refines legal.1
    cases Option.some.inj (taken.symm.trans same)
    refine ih agrees (legal.2 _ _ taken) (issued_step refines since fun undone => kept (.inl undone)) others fun undone => ?_
    exact kept (.inr ⟨_, _, taken, undone⟩)

theorem evolves_run {ops : List (UndoOp T)} {replies : List Reply} {last : UndoMultiIndex T} (refines : s.Refines v)
    (legal : Run.Permitted step Legal s ops) (ran : Run.run step s ops = some (replies, last)) : s.Evolves last := by
  have step_kept : ∀ (t : UndoMultiIndex T) op reply after, (∃ w : Versioned (Table T keys), t.Refines w) ∧ s.Evolves t →
      Legal t op → step t op = some (reply, after) → (∃ w : Versioned (Table T keys), after.Refines w) ∧ s.Evolves after := by
    intro t op reply after before permitted taken
    obtain ⟨⟨w, agrees⟩, evolved⟩ := before
    obtain ⟨state, same, agreesOn⟩ := simulated t w op agrees permitted
    cases Option.some.inj (taken.symm.trans same)
    exact ⟨⟨_, agreesOn⟩, evolved.trans (evolves agrees.sound permitted taken)⟩
  exact (Run.invariant step_kept ⟨⟨v, refines⟩, .refl s⟩ legal ran).2

end UndoOp

namespace UndoMultiIndex
variable {T : Type} [Object T] {s after : UndoMultiIndex T} {a : Addr}

theorem emplace_made (sound : s.Sound) {constructor : Nat → Option T} (made : s.emplace constructor = (.ok a, after)) :
    ∃ item, constructor s.nextId = some item ∧ a = s.fresh ∧ after.id a = Object.id item ∧
      after.nextId = (Object.id item + 1) % Object.ids T := by
  cases constructs : constructor s.nextId with
  | none =>
    rw [emplace_threw constructs] at made
    cases made
  | some item =>
    by_cases clear : s.Clear s.fresh item
    · rw [emplace_accepted sound constructs clear] at made
      cases made
      refine ⟨item, rfl, rfl, ?_, ?_⟩ <;> unfold onCreate <;> split
      · exact congrArg Object.id MultiIndex.linkNew_value_self
      · exact (congrFun (MultiIndex.setMtime_id _ _ _) _).trans (congrArg Object.id MultiIndex.linkNew_value_self)
      · rfl
      · rfl
    · rw [emplace_refused sound constructs clear] at made
      cases made

end UndoMultiIndex

namespace UndoOp
variable {T : Type} [Object T]

/-- A new id differs from that of every object in the table or among the removed ones,
and of every older object that is there after any further calls, whatever these undo;
and it is given away again only if a call since has undone the level that the
insertion then belonged to. -/
theorem id_reused_only_if_undone [Inhabited T] (keys : List (Comparator T)) (before later : List (UndoOp T))
    (constructor : Nat → Option T)
    (legal : Run.Permitted step Legal (UndoMultiIndex.empty keys) (before ++ emplace constructor :: later))
    {replies others : List Reply} {s first last : UndoMultiIndex T} {a : Addr}
    (ran : Run.run step (UndoMultiIndex.empty keys) before = some (replies, s))
    (made : s.emplace constructor = (.ok a, first)) (ranOn : Run.run step first later = some (others, last)) :
    (∀ b, s.Kept s.removedValues b → s.id b ≠ first.id a) ∧
    (∀ b, b < s.fresh → last.Kept last.removedValues b → last.id b ≠ first.id a) ∧
    ∀ again b second, Legal last (emplace again) → last.emplace again = (.ok b, second) → second.id b = first.id a →
      RolledBack first s.undoStack.length later := by
  obtain ⟨state, same, refines⟩ := Run.simulates simulated (UndoMultiIndex.Refines.empty keys) (Run.permitted_take legal before.length)
  rw [List.take_left] at same refines
  cases Option.some.inj (ran.symm.trans same)
  have permitted := Run.permitted_drop legal ran
  have taken : step s (emplace constructor) = some (.returned, first) := by simp only [step, made]
  obtain ⟨middle, one, agrees⟩ := simulated _ _ _ refines permitted.1
  obtain rfl : first = middle := congrArg Prod.snd (Option.some.inj (taken.symm.trans one))
  obtain ⟨item, constructs, rfl, own, raised⟩ := UndoMultiIndex.emplace_made refines.sound made
  have follows := permitted.1 item constructs
  have ascending := follows.1
  rw [Nat.mod_eq_of_lt follows.2] at raised
  have different : ∀ b, s.Kept s.removedValues b → s.id b ≠ first.id s.fresh := by
    intro b inside
    have below := refines.sound.housed.id_below inside
    omega
  refine ⟨different, fun b old inside => ?_, fun again b second contract twice equal => ?_⟩
  · have evolved := (evolves refines.sound permitted.1 taken).trans (evolves_run agrees (permitted.2 _ _ taken) ranOn)
    obtain ⟨earlier, kept⟩ := evolved.kept b old inside
    rw [kept]
    exact different b earlier
  · by_contra kept
    have issued := issued_now agrees (show first.id s.fresh < first.nextId by omega)
    rw [← refines.saved.length_eq] at issued
    obtain ⟨below, sound⟩ := issued_run agrees (permitted.2 _ _ taken) issued ranOn kept
    obtain ⟨other, constructed, -, name, -⟩ := UndoMultiIndex.emplace_made sound twice
    have higher := (contract other constructed).1
    omega

/-- A book is made in a level that becomes part of the one around it; after the undo of
that one the next book has the same id. -/
theorem id_reused_only_if_undone_books :
    ∃ replies s first others last second,
      Run.run step (UndoMultiIndex.empty bookKeys) [emplace fun id => some ⟨id, 1, 1⟩, startUndo, remove 0, startUndo] =
        some (replies, s) ∧
      s.emplace (fun id => some ⟨id, 2, 2⟩) = (.ok 1, first) ∧
      Run.run step first [squash, undo] = some (others, last) ∧
      last.emplace (fun id => some ⟨id, 3, 3⟩) = (.ok 2, second) ∧ second.id 2 = first.id 1 ∧
      (∀ b, s.Kept s.removedValues b → s.id b ≠ first.id 1) ∧
      (∀ b, b < s.fresh → last.Kept last.removedValues b → last.id b ≠ first.id 1) ∧
      RolledBack first s.undoStack.length [squash, undo] := by
  refine ⟨_, _, _, _, _, _, rfl, rfl, rfl, rfl, rfl, ?_⟩
  have reused := id_reused_only_if_undone bookKeys [emplace fun id => some ⟨id, 1, 1⟩, startUndo, remove 0, startUndo]
    [squash, undo] (fun id => some ⟨id, 2, 2⟩) (by decide) rfl rfl rfl
  exact ⟨reused.1, reused.2.1, reused.2.2 (fun id => some ⟨id, 3, 3⟩) 2 _ (by decide) rfl rfl⟩

end UndoOp
end ChainBase
