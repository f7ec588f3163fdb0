import ChainBase.Database.Lifetimes
import ChainBase.Library.Interleaving

/-! The journaled containers of one database. Each has a name, by which it is found in the
segment and which its journal is named after; a process gets those that it uses, and calls
them in any order. -/

namespace ChainBase

inductive Use (ι : Type) where
  | get
  | call (input : ι)
deriving DecidableEq

/-- One container while a process has the database open: the container in the segment, the
journal if it is open, and the file of the journal. -/
structure Cell (σ : Type) where
  container : Option σ
  handle : Option JournalFile
  journal : Option (List UInt8)

namespace Service
variable {γ σ T ι ω : Type} (c : Service γ σ T ι ω)

def name : List Char := c.type.cName c.suffix

/-- What a process does with a container, as far as this container goes. -/
def cellStep (o : Opening) (cell : Cell σ) : Use ι → Option (Option ω × Cell σ)
  | .get =>
    match openJournaled c.target c.codec o.args.mode o.outcome (cell.container.getD c.fresh) cell.journal with
    | .ok (container, some journal) => some (none, ⟨some container, some journal, some journal.file⟩)
    | _ => none
  | .call input =>
    match cell.container, cell.handle with
    | some container, some journal =>
      match c.step container input with
      | some ((reply, entries), after) =>
        let journal := entries.foldl (JournalFile.write c.codec) journal
        some (some reply, ⟨some after, some journal, some journal.file⟩)
      | none => none
    | _, _ => none

variable {c} {o : Opening}

theorem cellStep_call {s after : σ} {journal : JournalFile} {file : Option (List UInt8)} {input : ι} {reply : ω}
    {entries : List (Entry T)} (ran : c.step s input = some ((reply, entries), after)) :
    c.cellStep o ⟨some s, some journal, file⟩ (.call input) =
      some (some reply, ⟨some after, some (entries.foldl (JournalFile.write c.codec) journal),
        some (entries.foldl (JournalFile.write c.codec) journal).file⟩) := by
  simp only [cellStep, ran]

/-- The calls of a container that has been got are a run of it, and everything they record
stands in its journal. -/
theorem run_calls {inputs : List ι} {s last : σ} {journal : JournalFile} {outputs : List (ω × List (Entry T))}
    (ran : Run.run c.step s inputs = some (outputs, last)) :
    Run.run (c.cellStep o) ⟨some s, some journal, some journal.file⟩ (inputs.map .call) =
      some (outputs.map fun output => some output.1,
        ⟨some last, some ((Recording.recorded outputs).foldl (JournalFile.write c.codec) journal),
          some ((Recording.recorded outputs).foldl (JournalFile.write c.codec) journal).file⟩) := by
  induction inputs generalizing s journal outputs with
  | nil =>
    cases ran
    rfl
  | cons input inputs ih =>
    obtain ⟨⟨reply, entries⟩, after, rest, first, others, rfl⟩ := Run.run_cons ran
    rw [Recording.recorded_cons, List.foldl_append]
    exact Run.run_step (cellStep_call first) (ih others)

theorem run_got {inputs : List ι} {cell : Cell σ} {s last : σ} {journal : JournalFile} {outputs : List (ω × List (Entry T))}
    (got : openJournaled c.target c.codec o.args.mode o.outcome (cell.container.getD c.fresh) cell.journal = .ok (s, some journal))
    (ran : Run.run c.step s inputs = some (outputs, last)) :
    Run.run (c.cellStep o) cell (.get :: inputs.map .call) =
      some (none :: outputs.map fun output => some output.1,
        ⟨some last, some ((Recording.recorded outputs).foldl (JournalFile.write c.codec) journal),
          some ((Recording.recorded outputs).foldl (JournalFile.write c.codec) journal).file⟩) := by
  apply Run.run_step _ (run_calls ran)
  simp only [cellStep, got]

end Service

/-! ## One process -/

/-- A journaled container, and what it is for. -/
structure Member (γ : Type) [SegmentManager γ] where
  σ : Type
  T : Type
  ι : Type
  ω : Type
  τ : Type
  service : Service γ σ T ι ω
  permits : σ → List ι → Prop
  agrees : σ → τ → Prop
  apply : τ → Entry T → Option τ
  spec : τ → ι → ω × τ
  initial : τ
  serves : Durability.Serves service.step (service.Writes permits) Entry.rewrite service.rebuild agrees apply spec initial
  unique : ∀ s t other, agrees s t → agrees s other → t = other

structure Disks (γ : Type) where
  file : Option (DbFile γ)
  journals : List Char → Option (List UInt8)

structure OpenDatabase (γ κ : Type) where
  segment : γ
  handles : κ → Option JournalFile
  journals : List Char → Option (List UInt8)

variable {γ κ : Type} [SegmentManager γ] [DecidableEq κ] (c : κ → Member γ)

namespace OpenDatabase
variable {c}

/-- A container is changed where it is, and what is written goes through its own journal. -/
def put (p : OpenDatabase γ κ) (k : κ) (container : (c k).σ) (journal : JournalFile) : OpenDatabase γ κ where
  segment := (c k).service.store p.segment (c k).service.name container
  handles := Function.update p.handles k (some journal)
  journals := Function.update p.journals (c k).service.name (some journal.file)

def step (o : Opening) (p : OpenDatabase γ κ) : (Σ k, Use (c k).ι) → Option ((Σ k, Option (c k).ω) × OpenDatabase γ κ)
  | ⟨k, .get⟩ =>
    let service := (c k).service
    match getJournaled service.target service.codec service.fresh service.find o p.segment service.type service.suffix
        (p.journals service.name) with
    | .ok (container, some journal) => some (⟨k, none⟩, p.put k container journal)
    | _ => none
  | ⟨k, .call input⟩ =>
    match (c k).service.find p.segment (c k).service.name, p.handles k with
    | some container, some journal =>
      match (c k).service.step container input with
      | some ((reply, entries), after) =>
        some (⟨k, some reply⟩, p.put k after (entries.foldl (JournalFile.write (c k).service.codec) journal))
      | none => none
    | _, _ => none

variable (c) in
def cell (p : OpenDatabase γ κ) (k : κ) : Cell (c k).σ :=
  ⟨(c k).service.find p.segment (c k).service.name, p.handles k, p.journals (c k).service.name⟩

end OpenDatabase

/-- The containers of a database have different names, and one that is changed leaves the
others as they are. -/
structure Separate : Prop where
  lawful : ∀ k, (c k).service.Lawful
  names : ∀ j k, j ≠ k → (c j).service.name ≠ (c k).service.name
  find_other : ∀ j k, j ≠ k → ∀ segment s,
    (c j).service.find ((c k).service.store segment (c k).service.name s) (c j).service.name =
      (c j).service.find segment (c j).service.name

namespace OpenDatabase
variable {c} {p : OpenDatabase γ κ} {k : κ} {container : (c k).σ} {journal : JournalFile} {o : Opening}

theorem put_cell (separate : Separate c) :
    (p.put k container journal).cell c k = ⟨some container, some journal, some journal.file⟩ := by
  simp only [cell, put, Function.update_self]
  rw [show (c k).service.find ((c k).service.store p.segment (c k).service.name container) (c k).service.name = some container from
    (separate.lawful k).find_store _ _ _]

theorem put_other (separate : Separate c) {j : κ} (apart : j ≠ k) :
    (p.put k container journal).cell c j = p.cell c j := by
  simp only [cell, put, separate.find_other j k apart, Function.update_of_ne apart,
    Function.update_of_ne (separate.names j k apart)]

theorem parts (separate : Separate c) (o : Opening) :
    Interleaving.Parts (step (c := c) o) (fun k => (c k).service.cellStep o) (fun p k => p.cell c k) where
  steps p k use output after stepped := by
    cases use with
    | get =>
      simp only [Service.cellStep] at stepped
      split at stepped
      next container journal got =>
        cases stepped
        refine ⟨p.put k container journal, ?_, put_cell separate, fun j apart => put_other separate apart⟩
        have opened : getJournaled (c k).service.target (c k).service.codec (c k).service.fresh (c k).service.find o p.segment
            (c k).service.type (c k).service.suffix (p.journals (c k).service.name) = .ok (container, some journal) := got
        simp only [step, opened]
      next => cases stepped
    | call input =>
      simp only [Service.cellStep] at stepped
      split at stepped
      next container journal finds handle =>
        split at stepped
        next reply entries later ran =>
          cases stepped
          refine ⟨p.put k later (entries.foldl (JournalFile.write (c k).service.codec) journal), ?_, put_cell separate,
            fun j apart => put_other separate apart⟩
          have there : (c k).service.find p.segment (c k).service.name = some container := finds
          have opened : p.handles k = some journal := handle
          simp only [step, there, opened, ran]
        next => cases stepped
      next => cases stepped

end OpenDatabase

/-! ## One container in one process -/

namespace Use
variable {ι : Type}

def input : Use ι → Option ι
  | get => none
  | call input => some input

/-- A container is got once, before it is called. -/
def Once : List (Use ι) → Prop
  | get :: uses => ∀ use ∈ uses, use.input.isSome
  | _ => False

instance : DecidablePred (Once (ι := ι))
  | [] | call _ :: _ => inferInstanceAs (Decidable False)
  | get :: uses => inferInstanceAs (Decidable (∀ use ∈ uses, use.input.isSome))

theorem Once.eq {uses : List (Use ι)} (once : Once uses) : uses = get :: (uses.filterMap input).map call := by
  cases uses with
  | nil => exact once.elim
  | cons use uses =>
    cases use with
    | call input => exact once.elim
    | get =>
      have calls : uses = (uses.filterMap input).map call := by
        induction uses with
        | nil => rfl
        | cons use uses ih =>
          have later := ih fun other member => once other (List.mem_cons_of_mem _ member)
          cases use with
          | get => exact absurd (once get List.mem_cons_self) (by simp [input])
          | call input => exact congrArg (call input :: ·) later
      exact congrArg (get :: ·) calls

end Use

namespace Member
variable (m : Member γ)

/-- A container that is used at all is used as its specification permits. -/
def Allows (disk : Disk γ) (args : OpenArgs) (ending : Ending γ) (uses : List (Use m.ι)) : Prop :=
  uses = [] ∨ Use.Once uses ∧ m.service.Permits m.permits disk ⟨args, uses.filterMap Use.input, ending⟩

/-- A process that has made the database anew, and closes it, has got the container if there
is anything in its journal. -/
def Completes (disk : Disk γ) (args : OpenArgs) (ending : Ending γ) (uses : List (Use m.ι)) : Prop :=
  Opening.Renews args disk.file → ending.kept = true → uses = [] → disk.journal.getD [] = []

instance (args : OpenArgs) (file : Option (DbFile γ)) : Decidable (Opening.Renews args file) :=
  inferInstanceAs (Decidable (_ ∨ _ ∧ _))

instance (disk : Disk γ) (args : OpenArgs) (ending : Ending γ) (uses : List (Use m.ι)) [∀ s ops, Decidable (m.permits s ops)]
    [DecidablePred m.service.codec.Storable] : Decidable (m.Allows disk args ending uses) :=
  inferInstanceAs (Decidable (_ ∨ _ ∧ _))

instance (disk : Disk γ) (args : OpenArgs) (ending : Ending γ) (uses : List (Use m.ι)) :
    Decidable (m.Completes disk args ending uses) :=
  inferInstanceAs (Decidable (Opening.Renews args disk.file → ending.kept = true → uses = [] → disk.journal.getD [] = []))

variable {m} {disk : Disk γ} {store : Durability.Store m.σ (Entry m.T)} {t : m.τ} {args : OpenArgs} {o : Opening}
  {file : DbFile γ}

theorem fresh_agrees (m : Member γ) : m.agrees m.service.fresh m.initial := by
  obtain ⟨s, rebuilt, agree⟩ := m.serves.rebuilds [] m.initial rfl
  cases rebuilt
  exact agree

omit [DecidableEq κ] in
/-- A container that a process does not use is in the file as it was when the constructor
returned. -/
theorem unused (holds : m.service.Holds disk store) (dirty : file.header.dirty = true) (ending : Ending γ) {segment : γ}
    (same : m.service.find segment m.service.name = m.service.find file.segment m.service.name) :
    m.service.Holds ⟨ending.left { file with segment }, disk.journal⟩
      ⟨if ending.kept then some ((m.service.find file.segment m.service.name).getD m.service.fresh) else none, store.log⟩ where
  kept found present clean := by
    cases ending with
    | closed =>
      cases present
      exact congrArg (fun found => some (Option.getD found m.service.fresh)) same.symm
    | crashed memory =>
      cases present
      exact absurd clean (by simp [dirty])
    | deleted => cases present
  lost marked := by
    cases ending with
    | closed => exact absurd (marked _ rfl) (by simp [DbFile.setDirty])
    | crashed memory | deleted => rfl
  journal := holds.journal
  fits := holds.fits

theorem found (lawful : m.service.Lawful) (holds : m.service.Holds disk store) (careful : Service.Careful args disk)
    (opened : Opening.construct args disk.file = (.opened o, some file)) :
    Opening.Renews args disk.file ∧ m.service.find file.segment m.service.name = none ∨
      ¬ Opening.Renews args disk.file ∧ store.image = some ((m.service.find file.segment m.service.name).getD m.service.fresh) := by
  obtain ⟨error, refused⟩ | ⟨renews, other, ran, -⟩ | ⟨found, other, after, present, clean, ran, -, -, -, segment⟩ :=
    Opening.construct_outcomes careful.1 careful.2.1 disk.file
  · rw [refused] at opened
    cases opened
  · rw [ran] at opened
    cases opened
    exact .inl ⟨renews, lawful.find_construct _ _⟩
  · rw [ran] at opened
    cases opened
    have image := holds.kept found present clean
    refine .inr ⟨fun renews => ?_, ?_⟩
    · rw [holds.renewed renews] at image
      cases image
    · obtain unchanged | ⟨extra, grown⟩ := segment
      · rw [unchanged]
        exact image
      · rw [grown, lawful.find_grow]
        exact image

variable (m) in
/-- What a process has told of a container and leaves of it. If it is not to be recovered and
has to be, it is empty when it is got the next time. -/
structure Lived (disk : Disk γ) (t : m.τ) (args : OpenArgs) (file : DbFile γ) (ending : Ending γ) (uses : List (Use m.ι))
    (outputs : List (Option m.ω)) (cell : Cell m.σ) (later : Durability.Store m.σ (Entry m.T)) : Prop where
  replies : outputs.filterMap id = (Run.follow m.spec t (uses.filterMap Use.input)).1
  holds : ∀ segment, m.service.find segment m.service.name = cell.container →
    m.service.Holds ⟨ending.left { file with segment }, cell.journal⟩ later
  keeps : m.Completes disk args ending uses →
    later.Keeps m.agrees m.apply m.initial (Run.follow m.spec t (uses.filterMap Use.input)).2
  forgets : ¬ m.Completes disk args ending uses → later.image = some m.service.fresh

theorem unused_lived (lawful : m.service.Lawful) (holds : m.service.Holds disk store)
    (keeps : store.Keeps m.agrees m.apply m.initial t) (careful : Service.Careful args disk)
    (opened : Opening.construct args disk.file = (.opened o, some file)) (dirty : file.header.dirty = true) (ending : Ending γ) :
    m.Lived disk t args file ending [] [] ⟨m.service.find file.segment m.service.name, none, disk.journal⟩
      ⟨if ending.kept then some ((m.service.find file.segment m.service.name).getD m.service.fresh) else none, store.log⟩ where
  replies := rfl
  holds segment same := unused holds dirty ending same
  keeps completes := by
    refine ⟨fun s image => ?_, keeps.log⟩
    cases ended : ending.kept with
    | false => simp [ended] at image
    | true =>
      rw [ended, if_pos rfl] at image
      obtain ⟨renews, absent⟩ | ⟨-, before⟩ := found lawful holds careful opened
      · have blank := completes renews ended rfl
        have unwritten := Entry.length_le_encodeAll m.service.codec store.log
        rw [← holds.journal, blank, List.length_nil, Nat.le_zero, List.length_eq_zero_iff] at unwritten
        have initially := keeps.log
        rw [unwritten] at initially
        cases initially
        rw [absent] at image
        cases image
        exact m.fresh_agrees
      · exact keeps.image s (before.trans image)
  forgets incomplete := by
    obtain ⟨renews, absent⟩ | ⟨kept, -⟩ := found lawful holds careful opened
    · cases ended : ending.kept with
      | false => exact absurd (fun _ impossible => by simp [ended] at impossible) incomplete
      | true => simp [absent]
    · exact absurd (fun renews => absurd renews kept) incomplete

theorem lived (lawful : m.service.Lawful) (holds : m.service.Holds disk store) (keeps : store.Keeps m.agrees m.apply m.initial t)
    (careful : Service.Careful args disk) (opened : Opening.construct args disk.file = (.opened o, some file))
    {ending : Ending γ} {uses : List (Use m.ι)} (allows : m.Allows disk args ending uses) :
    ∃ outputs cell later,
      Run.run (m.service.cellStep o) ⟨m.service.find file.segment m.service.name, none, disk.journal⟩ uses = some (outputs, cell) ∧
      m.Lived disk t args file ending uses outputs cell later := by
  obtain ⟨error, refused⟩ | ⟨other, after, ran, dirty, delivers⟩ := holds.delivered lawful careful
  · rw [refused] at opened
    cases opened
  · rw [ran] at opened
    cases opened
    obtain rfl | ⟨once, -, writes⟩ := allows
    · exact ⟨[], _, _, rfl, unused_lived lawful holds keeps careful ran dirty ending⟩
    · obtain ⟨s, begins, agree⟩ := keeps.reopened m.serves
      have got := delivers s begins
      have permitted := writes o file s _ ran got
      obtain ⟨outputs, last, called, replies, kept⟩ := keeps.served m.serves agree permitted
      refine ⟨_, _, store.left ending.kept last (Entry.rewrite (Recording.recorded outputs)),
        (congrArg (Run.run _ _) once.eq).trans (Service.run_got got called), ?_, ?_, ?_, ?_⟩
      · rw [← replies]
        simp [List.filterMap_map]
      · intro segment there
        exact holds.left dirty ending there (permitted.2 outputs last called)
      · intro _
        exact kept ending.kept
      · intro incomplete
        exact absurd (fun _ _ blank => by rw [blank] at once; exact once.elim) incomplete

end Member
end ChainBase
