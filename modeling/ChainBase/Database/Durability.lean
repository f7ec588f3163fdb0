import ChainBase.Database.Lifetimes
import ChainBase.Journal.FailedCalls

/-! What the files of a database are for: a container is one container through every process
that uses it, whether a process closes the database or is lost, and also if the database
file itself is lost. -/

namespace ChainBase
open OrderedSequence

/-- The named containers of a segment. -/
structure ContainerSegment (σ : Type) where
  size : Nat
  objects : List (List Char × σ)

namespace ContainerSegment
variable {σ : Type}

instance : SegmentManager (ContainerSegment σ) where
  zeroed := ⟨0, []⟩
  construct size := ⟨size, []⟩
  grow segment extra := { segment with size := segment.size + extra }
  getSize segment := segment.size
  cut segment size := { segment with size }

def find (segment : ContainerSegment σ) (name : List Char) : Option σ := (segment.objects.find? (·.1 = name)).map Prod.snd

def store (segment : ContainerSegment σ) (name : List Char) (s : σ) : ContainerSegment σ :=
  { segment with objects := (name, s) :: segment.objects }

theorem find_store (segment : ContainerSegment σ) (name : List Char) (s : σ) : (segment.store name s).find name = some s := by
  simp [find, store]

theorem find_store_ne (segment : ContainerSegment σ) {name other : List Char} (apart : other ≠ name) (s : σ) :
    (segment.store name s).find other = segment.find other := by
  simp [find, store, Ne.symm apart]

end ContainerSegment

namespace Entry
variable {T : Type}

theorem rewrite_data {calls : List (Entry T)} (data : ∀ entry ∈ calls, ∀ op revision, entry ≠ level op revision) :
    rewrite calls = calls := by
  induction calls using List.reverseRecOn with
  | nil => rfl
  | append_singleton calls call ih =>
    have before := ih fun entry member => data entry (List.mem_append_left _ member)
    rw [rewrite] at before
    rw [rewrite, List.foldl_append, before]
    cases call with
    | level op revision => exact absurd rfl (data (.level op revision) (by simp) op revision)
    | insert obj | modify id obj | remove id => rfl

end Entry

/-! ## Plain containers -/

namespace PlainOp
variable {T : Type} [Object T] {keys : List (Comparator T)}

theorem journaledStep_step {s after : MultiIndex T Unit} {op : PlainOp T} {reply : Bool} {entries : List (Entry T)}
    (ran : journaledStep s op = some ((reply, entries), after)) : step s op = some (reply, after) := by
  cases op with
  | emplace constructor =>
    simp only [journaledStep] at ran
    split at ran <;>
    · next emplaced =>
      cases ran
      simp only [step, emplaced]
  | modify id modifier =>
    simp only [journaledStep] at ran
    split at ran
    next missing =>
      cases ran
      simp only [step, missing]
    next a found =>
      split at ran <;>
      · next modified =>
        cases ran
        simp [step, found, modified]
  | remove id =>
    simp only [journaledStep] at ran
    split at ran <;>
    · next looked =>
      cases ran
      simp only [step, looked]

theorem journaledStep_data (s : MultiIndex T Unit) (op : PlainOp T) (output : Bool × List (Entry T)) (after : MultiIndex T Unit)
    (ran : journaledStep s op = some (output, after)) : ∀ entry ∈ output.2, ∀ kind revision, entry ≠ .level kind revision := by
  cases op with
  | emplace constructor | remove id =>
    simp only [journaledStep] at ran
    split at ran <;> cases ran <;> simp
  | modify id modifier =>
    simp only [journaledStep] at ran
    split at ran
    · cases ran
      simp
    · split at ran <;> cases ran <;> simp

theorem journaled_specified (s : MultiIndex T Unit) (t : Table T keys) (op : PlainOp T) (represents : s.Represents t)
    (permitted : Contract s op ∧ Recorded s op) : ∃ entries after, journaledStep s op = some (((spec t op).1, entries), after) ∧
      entries.foldlM Entry.onTable t = some (spec t op).2 ∧ after.Represents (spec t op).2 := by
  obtain ⟨reply, entries, after, later, ran, replayed, agree⟩ := journaled_stepped s t op represents permitted
  obtain ⟨other, stepped, final⟩ := simulated s t op represents permitted.1
  rw [journaledStep_step ran, Option.some.injEq, Prod.mk.injEq] at stepped
  obtain ⟨rfl, rfl⟩ := stepped
  rw [agree.unique final] at replayed
  exact ⟨entries, after, ran, replayed, final⟩

variable {γ : Type} [SegmentManager γ]

def service [Inhabited T] (keys : List (Comparator T)) (codec : Codec T) (find : γ → List Char → Option (MultiIndex T Unit))
    (store : γ → List Char → MultiIndex T Unit → γ) (type : ContainerType) (suffix : List Char) :
    Service γ (MultiIndex T Unit) T (PlainOp T) Bool where
  target := MultiIndex.target
  codec
  fresh := MultiIndex.empty keys
  step := journaledStep
  find
  store
  type
  suffix

/-- Constructors keep to their contract, and no modification removes its object or changes it
and throws. -/
def Keeps (s : MultiIndex T Unit) (ops : List (PlainOp T)) : Prop :=
  Run.Permitted journaledStep (fun s op => Contract s op ∧ Recorded s op) s ops

instance (s : MultiIndex T Unit) (ops : List (PlainOp T)) [DecidableEq T] : Decidable (Keeps s ops) :=
  Run.decidablePermitted ops s

variable [Inhabited T] {codec : Codec T} {find : γ → List Char → Option (MultiIndex T Unit)}
  {store : γ → List Char → MultiIndex T Unit → γ} {type : ContainerType} {suffix : List Char}

instance [DecidablePred codec.Storable] : DecidablePred (service keys codec find store type suffix).codec.Storable :=
  inferInstanceAs (DecidablePred codec.Storable)

omit [SegmentManager γ] in
theorem serves (keys : List (Comparator T)) :
    Durability.Serves journaledStep ((service keys codec find store type suffix).Writes Keeps) Entry.rewrite
      (service keys codec find store type suffix).rebuild MultiIndex.Represents Entry.onTable spec (Table.empty keys) where
  rebuilds log t replayed := by
    obtain ⟨last, ran, represents⟩ := MultiIndex.replay_applied (MultiIndex.Represents.empty keys) replayed
    refine ⟨last, ?_, represents⟩
    rw [Service.rebuild, service, ran]
    rfl
  runs s t ops represents writes := by
    obtain ⟨outputs, last, ran, replies, replayed, final⟩ := Recording.run_specified journaled_specified represents writes.1
    refine ⟨outputs, last, ran, replies, final, ?_⟩
    rw [Entry.rewrite_data (Recording.recorded_forall journaledStep_data ran)]
    exact replayed

end PlainOp

/-! ## Containers with an undo stack -/

namespace JournaledOp
variable {T : Type} [Object T] {keys : List (Comparator T)}

theorem step_toUndoOp {s after : UndoMultiIndex T} {op : JournaledOp T} {reply : Reply} {entries : List (Entry T)}
    (ran : step s op = some ((reply, entries), after)) : UndoOp.step s op.toUndoOp = some (reply, after) := by
  cases op with
  | emplace constructor | setRevision revision =>
    simp only [step] at ran
    split at ran <;>
    · next called =>
      cases ran
      simp only [toUndoOp, UndoOp.step, called]
  | modify id modifier =>
    simp only [step] at ran
    split at ran
    next missing =>
      cases ran
      simp only [toUndoOp, UndoOp.step, missing]
    next a found =>
      split at ran
      · next modified =>
        cases ran
        simp [toUndoOp, UndoOp.step, found, modified, Reply.ofBool]
      · next modified =>
        cases ran
        simp [toUndoOp, UndoOp.step, found, modified, Reply.ofBool]
      · cases ran
  | remove id =>
    simp only [step] at ran
    split at ran <;>
    · next looked =>
      cases ran
      simp only [toUndoOp, UndoOp.step, looked]
  | startUndo | commit revision =>
    cases ran
    rfl
  | undo =>
    obtain ⟨last, undone, same⟩ := Option.map_eq_some_iff.mp ran
    cases same
    simp [toUndoOp, UndoOp.step, undone]
  | undoAll =>
    simp only [step] at ran
    split at ran
    next stack =>
      cases ran
      simp [toUndoOp, UndoOp.step, UndoMultiIndex.undoAll, stack, UndoMultiIndex.undoTimes]
    next =>
      obtain ⟨last, undone, same⟩ := Option.map_eq_some_iff.mp ran
      cases same
      simp [toUndoOp, UndoOp.step, undone]

theorem Succeeds.legal {s : UndoMultiIndex T} {v : Versioned (Table T keys)} (refines : s.Refines v) {op : JournaledOp T}
    (succeeds : Succeeds s op) : UndoOp.Legal s op.toUndoOp := by
  cases op with
  | emplace constructor => exact succeeds
  | modify id modifier =>
    intro a found
    obtain ⟨member, rfl⟩ := refines.current.named_some found
    exact (UndoMultiIndex.modify_returns refines.sound member (succeeds a found)).1
  | remove id | startUndo | undo | undoAll | commit revision | setRevision revision => trivial

noncomputable def spec (v : Versioned (Table T keys)) (op : JournaledOp T) : Reply × Versioned (Table T keys) :=
  UndoOp.spec v op.toUndoOp

theorem specified (s : UndoMultiIndex T) (v : Versioned (Table T keys)) (op : JournaledOp T) (refines : s.Refines v)
    (permitted : Succeeds s op ∧ CommitsAll s op ∧ UndoOp.Fits s op.toUndoOp) :
    ∃ entries after, step s op = some (((spec v op).1, entries), after) ∧
      entries.foldlM Entry.onVersioned v = some (spec v op).2 ∧ after.Refines (spec v op).2 := by
  obtain ⟨reply, entries, after, later, ran, replayed, agree⟩ := stepped_replayed s v op refines permitted
  obtain ⟨other, called, final⟩ := UndoOp.simulated s v op.toUndoOp refines (permitted.1.legal refines)
  rw [step_toUndoOp ran, Option.some.injEq, Prod.mk.injEq] at called
  obtain ⟨rfl, rfl⟩ := called
  rw [agree.unique final] at replayed
  exact ⟨entries, after, ran, replayed, final⟩

variable {γ : Type} [SegmentManager γ]

def service [Inhabited T] (keys : List (Comparator T)) (codec : Codec T) (find : γ → List Char → Option (UndoMultiIndex T))
    (store : γ → List Char → UndoMultiIndex T → γ) (type : ContainerType) (suffix : List Char) :
    Service γ (UndoMultiIndex T) T (JournaledOp T) Reply where
  target := UndoMultiIndex.target
  codec
  fresh := UndoMultiIndex.empty keys
  step
  find
  store
  type
  suffix

/-- Constructors keep to their contract, modifications return, revisions fit, a commit drops
every level, and one that comes directly after the start of a level finds no other one open. -/
def Keeps (s : UndoMultiIndex T) (ops : List (JournaledOp T)) : Prop :=
  Run.Permitted step (fun s op => Succeeds s op ∧ CommitsAll s op ∧ UndoOp.Fits s op.toUndoOp) s ops ∧
    ∀ outputs last, Run.run step s ops = some (outputs, last) →
      Entry.RewritableAt s.undoStack.length (Recording.recorded outputs)

instance (s : UndoMultiIndex T) (ops : List (JournaledOp T)) : Decidable (Keeps s ops) :=
  match ran : Run.run step s ops with
  | none => decidable_of_iff
      (Run.Permitted step (fun s op => Succeeds s op ∧ CommitsAll s op ∧ UndoOp.Fits s op.toUndoOp) s ops) (by simp [Keeps, ran])
  | some (outputs, last) =>
    decidable_of_iff (Run.Permitted step (fun s op => Succeeds s op ∧ CommitsAll s op ∧ UndoOp.Fits s op.toUndoOp) s ops ∧
      Entry.RewritableAt s.undoStack.length (Recording.recorded outputs)) (by simp [Keeps, ran])

variable [Inhabited T] {codec : Codec T} {find : γ → List Char → Option (UndoMultiIndex T)}
  {store : γ → List Char → UndoMultiIndex T → γ} {type : ContainerType} {suffix : List Char}

instance [DecidablePred codec.Storable] : DecidablePred (service keys codec find store type suffix).codec.Storable :=
  inferInstanceAs (DecidablePred codec.Storable)

omit [SegmentManager γ] in
theorem serves (keys : List (Comparator T)) :
    Durability.Serves step ((service keys codec find store type suffix).Writes Keeps) Entry.rewrite
      (service keys codec find store type suffix).rebuild (fun s v => s.Refines v ∧ v.Grounded) Entry.onVersioned spec
      ⟨Table.empty keys, [], 0⟩ where
  rebuilds log v replayed := by
    obtain ⟨last, ran, refines⟩ := UndoMultiIndex.replay_applied (UndoMultiIndex.Refines.empty keys) .fresh replayed
    have grounded := Entry.foldlM_grounded .fresh replayed
    refine ⟨last, ?_, refines, grounded⟩
    rw [Service.rebuild, service, ran]
    rfl
  runs s v ops agrees writes := by
    obtain ⟨refines, grounded⟩ := agrees
    obtain ⟨⟨permitted, rewritable⟩, fits⟩ := writes
    obtain ⟨outputs, last, ran, replies, replayed, final⟩ := Recording.run_specified specified refines permitted
    have outer := rewritable outputs last ran
    rw [refines.saved.length_eq] at outer
    have bounded : ∀ op revision, .level op revision ∈ Recording.recorded outputs → revision ≤ UndoMultiIndex.int64Max :=
      fun op revision member => (fits outputs last ran _ member).2.2
    exact ⟨outputs, last, ran, replies, ⟨final, Entry.foldlM_grounded grounded replayed⟩,
      Entry.rewrite_kept grounded bounded outer replayed⟩

end JournaledOp
end ChainBase
