import ChainBase.Container.UndoRefinement

/-! What can be seen of a container. Two containers that show the same table are
seen to be the same, down to the order of the objects in every index. -/

namespace ChainBase
open OrderedSequence

namespace MultiIndex
variable {T E F : Type} [Object T] {keys : List (Comparator T)}

/-- The objects in the order of every index. -/
def contents (s : MultiIndex T E) : List (List T) := (s.byId :: s.indices.map SetIndex.tree).map (List.map s.value)

omit [Object T] in
private theorem values_strict {k : Comparator T} {value : Addr → T} {l : List Addr}
    (strict : StrictlySorted (k.comap value) l) : StrictlySorted k (l.map value) :=
  List.pairwise_map.mpr strict

omit [Object T] in
private theorem values_nodup {k : Comparator T} {l : List T} (strict : StrictlySorted k l) : l.Nodup :=
  strict.imp fun lower same => by simp [same] at lower

omit [Object T] in
/-- An order without ties leaves one list for a set of objects. -/
private theorem values_unique {k : Comparator T} {first second : List T} (firstStrict : StrictlySorted k first)
    (secondStrict : StrictlySorted k second) (same : ∀ v, v ∈ first ↔ v ∈ second) : first = second :=
  firstStrict.eq_of_perm secondStrict
    ((List.perm_ext_iff_of_nodup (values_nodup firstStrict) (values_nodup secondStrict)).mpr same)

omit [Object T] in
private theorem trees_eq (value other : Addr → T) {first second : List (SetIndex T)}
    (keys : first.map SetIndex.keys = second.map SetIndex.keys)
    (same : ∀ I ∈ first, ∀ J ∈ second, I.keys = J.keys → I.tree.map value = J.tree.map other) :
    first.map (fun I => I.tree.map value) = second.map (fun J => J.tree.map other) := by
  induction first generalizing second with
  | nil => simp_all
  | cons I first ih =>
    cases second with
    | nil => cases keys
    | cons J second =>
      obtain ⟨head, tail⟩ := List.cons.inj keys
      rw [List.map_cons, List.map_cons, same I (by simp) J (by simp) head,
        ih tail fun I index J other => same I (List.mem_cons_of_mem _ index) J (List.mem_cons_of_mem _ other)]

theorem Agrees.contents_eq {s : MultiIndex T E} {u : MultiIndex T F} {t : Table T keys} (agrees : s.Agrees t)
    (others : u.Agrees t) : s.contents = u.contents := by
  have shared : ∀ first ∈ s.byId :: s.indices.map SetIndex.tree, ∀ second ∈ u.byId :: u.indices.map SetIndex.tree,
      ∀ v, v ∈ first.map s.value ↔ v ∈ second.map u.value := fun first left second right v =>
    (agrees.contents first left v).trans (others.contents second right v).symm
  have byId : s.byId.map s.value = u.byId.map u.value :=
    values_unique (values_strict agrees.byId) (values_strict others.byId) (shared _ (by simp) _ (by simp))
  have indices := trees_eq s.value u.value (agrees.keys.trans others.keys.symm) fun I index J other keys => by
    have strict := values_strict (others.indices J other)
    rw [← keys] at strict
    exact values_unique (values_strict (agrees.indices I index)) strict
      (shared _ (by simpa using Or.inr ⟨I, index, rfl⟩) _ (by simpa using Or.inr ⟨J, other, rfl⟩))
  simp only [MultiIndex.contents, List.map_cons, List.map_map, Function.comp_def, byId, indices]

end MultiIndex

namespace UndoOp
variable {T : Type} [Object T]

def OnLevels : UndoOp T → Prop
  | undo | undoAll | squash | squashFast | commit _ => True
  | _ => False

theorem OnLevels.legal {op : UndoOp T} (levels : op.OnLevels) (s : UndoMultiIndex T) : Legal s op := by
  cases op <;> trivial

end UndoOp

namespace UndoMultiIndex
variable {T : Type} [Object T] {keys : List (Comparator T)}

/-- What can be seen of a container: the objects in the order of every index, the
next id, the revision and the number of open levels. -/
structure Observation (T : Type) where
  contents : List (List T)
  nextId : Nat
  revision : Int
  depth : Nat
deriving DecidableEq, Repr

def observe (s : UndoMultiIndex T) : Observation T where
  contents := s.contents
  nextId := s.nextId
  revision := s.revision
  depth := s.undoStack.length

/-- What can be seen of a run: the replies, and the container at its end. -/
def observeRun (s : UndoMultiIndex T) (ops : List (UndoOp T)) : Option (List Reply × Observation T) :=
  (Run.run UndoOp.step s ops).map fun (replies, last) => (replies, last.observe)

theorem Shows.observe_eq {s u : UndoMultiIndex T} {v : Versioned (Table T keys)} (shows : s.Shows v) (others : u.Shows v) :
    s.observe = u.observe := by
  simp only [observe, Observation.mk.injEq]
  exact ⟨shows.table.contents_eq others.table, shows.table.nextId.trans others.table.nextId.symm,
    shows.revision.trans others.revision.symm, shows.depth.trans others.depth.symm⟩

/-- Nothing can tell the containers apart: they are seen to be the same, now and
after every further sequence of undoing, squashing and committing levels. -/
structure Alike (s u : UndoMultiIndex T) : Prop where
  now : s.observe = u.observe
  further : ∀ ops : List (UndoOp T), (∀ op ∈ ops, op.OnLevels) → s.observeRun ops = u.observeRun ops

theorem Refines.alike {s u : UndoMultiIndex T} {v : Versioned (Table T keys)} (refines : s.Refines v) (others : u.Refines v) :
    s.Alike u where
  now := refines.stands.shows.observe_eq others.stands.shows
  further ops levels := by
    have legal : ∀ s : UndoMultiIndex T, Run.Permitted UndoOp.step UndoOp.Legal s ops :=
      Run.permitted_of_forall fun op member s => (levels op member).legal s
    obtain ⟨first, ran, left⟩ := Run.simulates UndoOp.simulated refines (legal s)
    obtain ⟨second, again, right⟩ := Run.simulates UndoOp.simulated others (legal u)
    simp only [observeRun, ran, again, Option.map_some, left.stands.shows.observe_eq right.stands.shows]

/-- Every further run of the container is one of the versioned table. -/
def GoesOn (s : UndoMultiIndex T) (v : Versioned (Table T keys)) : Prop :=
  ∀ ops, Run.Permitted UndoOp.step UndoOp.Legal s ops → ∃ last,
    Run.run UndoOp.step s ops = some ((Run.follow UndoOp.spec v ops).1, last) ∧ last.Shows (Run.follow UndoOp.spec v ops).2

theorem Refines.goesOn {s : UndoMultiIndex T} {v : Versioned (Table T keys)} (refines : s.Refines v) : s.GoesOn v := by
  intro ops legal
  obtain ⟨last, ran, final⟩ := Run.simulates UndoOp.simulated refines legal
  exact ⟨last, ran, final.stands.shows⟩

end UndoMultiIndex
end ChainBase
