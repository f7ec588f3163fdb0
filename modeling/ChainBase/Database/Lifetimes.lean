import ChainBase.Database.Recovering
import ChainBase.Library.Durability

/-! One database and one of its journaled containers through any number of processes, one
after another. Each opens the database, gets the container, calls it, and closes the
database or is lost; what it leaves at the two paths is all that the next one finds. -/

namespace ChainBase

/-- The files at the two paths. -/
structure Disk (γ : Type) where
  file : Option (DbFile γ)
  journal : Option (List UInt8)

/-- How a process is done with the database. A crash comes between two calls; what it
leaves in the memory that was mapped is not known. -/
inductive Ending (γ : Type) where
  | closed
  | crashed (memory : γ)
  | deleted

structure Lifetime (γ ι : Type) where
  args : OpenArgs
  ops : List ι
  ending : Ending γ

/-- A journaled container and its place in the segment. The segment manager looks it up by
its name; `store` is the segment when the container has become something else. -/
structure Service (γ σ T ι ω : Type) where
  target : Target σ T
  codec : Codec T
  fresh : σ
  step : σ → ι → Option ((ω × List (Entry T)) × σ)
  find : γ → List Char → Option σ
  store : γ → List Char → σ → γ
  type : ContainerType
  suffix : List Char

namespace Ending
variable {γ : Type}

/-- The destructor clears the dirty flag; nothing else does. -/
def left (file : DbFile γ) : Ending γ → Option (DbFile γ)
  | closed => some (file.setDirty false)
  | crashed memory => some { file with segment := memory }
  | deleted => none

def kept : Ending γ → Bool
  | closed => true
  | crashed _ | deleted => false

end Ending

namespace Opening
variable {γ : Type} [SegmentManager γ] {args : OpenArgs} {found : DbFile γ}

theorem construct_clean (writes : args.mode ≠ .readOnly)
    (clean : validateDbHeader args.fpath args.environment (some found) = .ok true) :
    ∃ o after, construct args (some found) = (.opened o, some after) ∧ o.args = args ∧ o.outcome = some .good ∧
      after.header.dirty = true ∧
      (after.segment = found.segment ∨ ∃ extra, after.segment = SegmentManager.grow found.segment extra) := by
  let begun : Opening := { begin args with fileExists := true, outcome := some .good }
  have present : (begin args).step true (some found) = (.running { begun with next := .validateDbHeader }, some found) := by
    simp [step, begin, begun]
  have valid : step { begun with next := .validateDbHeader } true (some found) =
      (.running { begun with next := .fileSize }, some found) := by
    simp [step, clean, mapping, begun, begin, writable, writes]
  by_cases small : found.length < begun.size
  · let grown : Opening := { begun with grow := begun.size - found.length }
    have wants : grown.grow ≠ 0 := by
      show begun.size - found.length ≠ 0
      omega
    have measured : step { begun with next := .fileSize } true (some found) =
        (.running { grown with next := .resizeOld }, some found) := by
      simp only [step, Option.map_some, Option.getD_some]
      exact if_pos small
    have resized : step { grown with next := .resizeOld } true (some found) =
        (.running { grown with next := .mapOld }, some (found.resize begun.size)) := rfl
    have mapped : step { grown with next := .mapOld } true (some (found.resize begun.size)) =
        (.running { grown with next := .growSegment }, some (found.resize begun.size)) := by
      simp only [step]
      rw [if_pos wants]
    let whole : DbFile γ := { found.resize begun.size with segment := SegmentManager.grow (found.resize begun.size).segment grown.grow }
    have grows : step { grown with next := .growSegment } true (some (found.resize begun.size)) =
        (.running { grown with next := .tryLock }, some whole) := by
      simp only [step]
      exact throughMapping_written (Nat.le_refl begun.size) _ _
    have locks : step { grown with next := .tryLock } true (some whole) = (.running { grown with next := .dirty }, some whole) := rfl
    have marks : step { grown with next := .dirty } true (some whole) =
        (.opened { grown with next := .dirty }, some (whole.setDirty true)) := by
      simp only [step]
      exact throughMapping_written (Nat.le_refl begun.size) _ _
    refine ⟨{ grown with next := .dirty }, whole.setDirty true, ?_, rfl, rfl, rfl, .inr ⟨grown.grow, ?_⟩⟩
    · rw [construct, runAlone_running present, runAlone_running valid, runAlone_running measured, runAlone_running resized,
        runAlone_running mapped, runAlone_running grows, runAlone_running locks]
      simp only [runAlone, marks]
    · have longer : ¬ begun.size < found.length := by omega
      show SegmentManager.grow (found.resize begun.size).segment grown.grow = _
      rw [DbFile.resize, if_neg longer]
  · have long : begun.size ≤ found.length := Nat.le_of_not_lt small
    have measured : step { begun with next := .fileSize } true (some found) =
        (.running { begun with next := .mapOld }, some found) := by
      simp only [step, Option.map_some, Option.getD_some]
      exact if_neg small
    have mapped : step { begun with next := .mapOld } true (some found) = (.running { begun with next := .tryLock }, some found) := rfl
    have locks : step { begun with next := .tryLock } true (some found) = (.running { begun with next := .dirty }, some found) := rfl
    have marks : step { begun with next := .dirty } true (some found) =
        (.opened { begun with next := .dirty }, some (found.setDirty true)) := by
      simp only [step]
      exact throughMapping_written long _ _
    refine ⟨{ begun with next := .dirty }, found.setDirty true, ?_, rfl, rfl, rfl, .inl rfl⟩
    rw [construct, runAlone_running present, runAlone_running valid, runAlone_running measured, runAlone_running mapped,
      runAlone_running locks]
    simp only [runAlone, marks]

theorem construct_invalid {error : SystemError}
    (invalid : validateDbHeader args.fpath args.environment (some found) = .error error) :
    construct args (some found) = (.threw error, some found) := by
  have present : (begin args).step true (some found) =
      (.running { begin args with next := .validateDbHeader, fileExists := true, outcome := some .good }, some found) := by
    simp [step, begin]
  rw [construct, runAlone_running present]
  simp [runAlone, step, invalid, begin]

theorem construct_dirty (fails : args.action = .fail)
    (dirty : validateDbHeader args.fpath args.environment (some found) = .ok false) :
    ∃ error, construct args (some found) = (.threw error, some found) := by
  have present : (begin args).step true (some found) =
      (.running { begin args with next := .validateDbHeader, fileExists := true, outcome := some .good }, some found) := by
    simp [step, begin]
  refine ⟨SystemError.throwError args.fpath .dirty "dirty flag set", ?_⟩
  rw [construct, runAlone_running present]
  simp [runAlone, step, dirty, begin, dirtyOutcome, fails]

/-- A constructor that is not to take over a dirty file throws, or makes the file anew, or
takes over a clean one. -/
theorem construct_outcomes (journals : args.mode = .readWrite) (careful : args.action ≠ .allow) (file : Option (DbFile γ)) :
    (∃ error, construct args file = (.threw error, file)) ∨
    (Renews args file ∧ ∃ o, construct args file = (.opened o, some o.rebuilt) ∧ o.args = args ∧ o.outcome = renewed args file) ∨
    ∃ found o after, file = some found ∧ found.header.dirty = false ∧ construct args file = (.opened o, some after) ∧
      o.args = args ∧ o.outcome = some .good ∧ after.header.dirty = true ∧
      (after.segment = found.segment ∨ ∃ extra, after.segment = SegmentManager.grow found.segment extra) := by
  have writes : args.mode ≠ .readOnly := by simp [journals]
  cases file with
  | none => exact .inr (.inl ⟨.inl rfl, construct_renews writes (.inl rfl)⟩)
  | some found =>
    cases valid : validateDbHeader args.fpath args.environment (some found) with
    | error error => exact .inl ⟨error, construct_invalid valid⟩
    | ok clean =>
      cases clean with
      | true =>
        have unmarked : found.header.dirty = false := by
          simp only [validateDbHeader] at valid
          split_ifs at valid
          simpa using valid
        obtain ⟨o, after, ran, same⟩ := construct_clean writes valid
        exact .inr (.inr ⟨found, o, after, rfl, unmarked, ran, same⟩)
      | false =>
        cases action : args.action with
        | allow => exact absurd action careful
        | fail => exact .inl (construct_dirty action valid)
        | reset =>
          have renews : Renews args (some found) := .inr ⟨by rw [valid]; rfl, action⟩
          exact .inr (.inl ⟨renews, construct_renews writes renews⟩)

end Opening

/-! ## One process -/

namespace Service
variable {γ σ T ι ω τ : Type} [SegmentManager γ] (c : Service γ σ T ι ω)

/-- What the segment manager is relied on for: there is nothing in a new segment, and what
is in a segment is found in it, also when it has grown. -/
structure Lawful : Prop where
  find_construct (size : Nat) (name : List Char) : c.find (SegmentManager.construct size) name = none
  find_grow (segment : γ) (extra : Nat) (name : List Char) : c.find (SegmentManager.grow segment extra) name = c.find segment name
  find_store (segment : γ) (name : List Char) (s : σ) : c.find (c.store segment name s) name = some s

def rebuild (log : List (Entry T)) : Option σ := (replay c.target c.fresh log).toOption

def get (o : Opening) (disk : Disk γ) (segment : γ) : Except Failure (σ × Option JournalFile) :=
  getJournaled c.target c.codec c.fresh c.find o segment c.type c.suffix disk.journal

/-- A process, and the replies to its calls unless its constructor throws. -/
def live (disk : Disk γ) (life : Lifetime γ ι) : Option (Option (List ω) × Disk γ) :=
  match Opening.construct life.args disk.file with
  | (.opened o, some file) =>
    match c.get o disk file.segment with
    | .ok (container, some journal) =>
      match Run.run c.step container life.ops with
      | some (outputs, last) =>
        let journal := (Recording.recorded outputs).foldl (JournalFile.write c.codec) journal
        let file := { file with segment := c.store file.segment (c.type.cName c.suffix) last }
        some (some (outputs.map Prod.fst), ⟨life.ending.left file, some journal.file⟩)
      | none => none
    | _ => none
  | (.threw _, file) => some (none, { disk with file })
  | _ => none

/-- The calls of the processes whose constructor has returned. -/
def performed : List (Lifetime γ ι) → List (Option (List ω)) → List ι
  | life :: lives, some _ :: outputs => life.ops ++ performed lives outputs
  | _ :: lives, none :: outputs => performed lives outputs
  | _, _ => []

def replies (outputs : List (Option (List ω))) : List ω := outputs.flatMap (·.getD [])

/-- The calls of a process are permitted, and what they write can be said in a journal. -/
def Writes (permits : σ → List ι → Prop) (s : σ) (ops : List ι) : Prop :=
  permits s ops ∧ ∀ outputs last, Run.run c.step s ops = some (outputs, last) →
    ∀ entry ∈ Recording.recorded outputs, entry.Fits c.codec

/-- A process journals; it does not take over a dirty file, and a file it creates is one of
which it will know that it is new. -/
def Careful (args : OpenArgs) (disk : Disk γ) : Prop :=
  args.mode = .readWrite ∧ args.action ≠ .allow ∧ (disk.file = none → args.fpath.parentPath ≠ "")

def Permits (permits : σ → List ι → Prop) (disk : Disk γ) (life : Lifetime γ ι) : Prop :=
  Careful life.args disk ∧ ∀ o file s journal, Opening.construct life.args disk.file = (.opened o, some file) →
    c.get o disk file.segment = .ok (s, some journal) → c.Writes permits s life.ops

instance (permits : σ → List ι → Prop) [∀ s ops, Decidable (permits s ops)] [DecidablePred c.codec.Storable] (s : σ) (ops : List ι) :
    Decidable (c.Writes permits s ops) :=
  match ran : Run.run c.step s ops with
  | none => decidable_of_iff (permits s ops) (by simp [Writes, ran])
  | some (outputs, last) =>
    decidable_of_iff (permits s ops ∧ ∀ entry ∈ Recording.recorded outputs, entry.Fits c.codec) (by simp [Writes, ran])

instance (args : OpenArgs) (disk : Disk γ) : Decidable (Careful args disk) :=
  inferInstanceAs (Decidable (_ ∧ _ ∧ (disk.file = none → _)))

private theorem permits_got {permits : σ → List ι → Prop} {disk : Disk γ} {life : Lifetime γ ι} {o : Opening} {file : DbFile γ}
    {got : Except Failure (σ × Option JournalFile)} (opened : Opening.construct life.args disk.file = (.opened o, some file))
    (gets : c.get o disk file.segment = got) :
    c.Permits permits disk life ↔
      Careful life.args disk ∧ ∀ s journal, got = .ok (s, some journal) → c.Writes permits s life.ops := by
  refine and_congr_right fun _ => ⟨fun calls s journal same => calls o file s journal opened (gets.trans same), ?_⟩
  intro calls other after s journal ran same
  rw [opened] at ran
  cases ran
  exact calls s journal (gets.symm.trans same)

instance (permits : σ → List ι → Prop) [∀ s ops, Decidable (permits s ops)] [DecidablePred c.codec.Storable] (disk : Disk γ)
    (life : Lifetime γ ι) : Decidable (c.Permits permits disk life) :=
  match opened : Opening.construct life.args disk.file with
  | (.opened o, some file) =>
    match got : c.get o disk file.segment with
    | .ok (s, some journal) =>
      decidable_of_iff (Careful life.args disk ∧ c.Writes permits s life.ops) (by simp [permits_got c opened got])
    | .ok (s, none) | .error failure => decidable_of_iff (Careful life.args disk) (by simp [permits_got c opened got])
  | (.opened o, none) | (.running o, file) | (.threw error, file) | (.killed, file) =>
    decidable_of_iff (Careful life.args disk) (by simp [Permits, opened])

/-- What the two files hold. A container that nobody has got yet is still to be made. -/
structure Holds (disk : Disk γ) (store : Durability.Store σ (Entry T)) : Prop where
  kept : ∀ found, disk.file = some found → found.header.dirty = false →
    store.image = some ((c.find found.segment (c.type.cName c.suffix)).getD c.fresh)
  lost : (∀ found, disk.file = some found → found.header.dirty = true) → store.image = none
  journal : disk.journal.getD [] = Entry.encodeAll c.codec store.log
  fits : ∀ entry ∈ store.log, entry.Fits c.codec

variable {c} {disk : Disk γ} {store : Durability.Store σ (Entry T)} {args : OpenArgs}

omit [SegmentManager γ] in
theorem Holds.empty : c.Holds ⟨none, none⟩ ⟨none, []⟩ where
  kept found impossible := by cases impossible
  lost _ := rfl
  journal := rfl
  fits := by simp

omit [SegmentManager γ] in
theorem Holds.renewed (holds : c.Holds disk store) (renews : Opening.Renews args disk.file) : store.image = none := by
  apply holds.lost
  intro found present
  rw [present] at renews
  obtain ⟨dirty, -⟩ := renews.resolve_left (by simp)
  cases valid : validateDbHeader args.fpath args.environment (some found) with
  | error error => simp [valid, Except.toOption] at dirty
  | ok clean =>
    rw [valid] at dirty
    cases Option.some.inj dirty
    simp only [validateDbHeader] at valid
    split_ifs at valid
    simpa using valid

theorem Holds.replayed (holds : c.Holds disk store) (lawful : c.Lawful) {o : Opening} (journals : o.args.mode = .readWrite)
    (remembers : o.outcome = some .created ∨ o.outcome = some .reset) {s : σ} (rebuilt : c.rebuild store.log = some s) :
    c.get o disk (o.rebuilt : DbFile γ).segment = .ok (s, some (.openAtEnd (disk.journal.getD []))) := by
  have replays : replay c.target c.fresh store.log = .ok s := by
    cases ran : replay c.target c.fresh store.log with
    | error failure => simp [rebuild, ran, Except.toOption] at rebuilt
    | ok last => simpa [rebuild, ran, Except.toOption] using rebuilt
  have bytes := holds.journal
  cases journal : disk.journal with
  | none =>
    rw [journal, Option.getD_none] at bytes
    have short := Entry.length_le_encodeAll c.codec store.log
    rw [← bytes, List.length_nil, Nat.le_zero, List.length_eq_zero_iff] at short
    rw [short] at replays
    cases replays
    have empty : c.find (o.rebuilt : DbFile γ).segment (c.type.cName c.suffix) = none := lawful.find_construct _ _
    rw [get, getJournaled, openJournaled, if_pos journals, empty, journal]
    rfl
  | some file =>
    rw [journal, Option.getD_some] at bytes
    have fits : ∀ block ∈ store.log.map Block.entry, block.Fits c.codec c.target.undo.isSome := by
      intro block member
      obtain ⟨entry, inside, rfl⟩ := List.mem_map.mp member
      exact holds.fits entry inside
    have read := recover_blocks fits c.fresh
    have encoded : Block.encodeAll c.codec (store.log.map Block.entry) = file := by
      rw [bytes, Block.encodeAll, List.flatMap_map]
      rfl
    have entries : Block.entries (store.log.map Block.entry) = store.log := by simp [Block.entries, List.filterMap_map]
    rw [encoded, entries, replays] at read
    rw [get, journal, getJournaled_recovers c.target c.fresh lawful.find_construct journals remembers, read]
    rfl

/-- The container that a process gets is the one that was kept, or that the journal
rebuilds, and the journal is open at its end. -/
theorem Holds.delivered (holds : c.Holds disk store) (lawful : c.Lawful) (careful : Careful args disk) :
    (∃ error, Opening.construct args disk.file = (.threw error, disk.file)) ∨
    ∃ o file, Opening.construct args disk.file = (.opened o, some file) ∧ file.header.dirty = true ∧
      ∀ s, store.reopen c.rebuild = some s → c.get o disk file.segment = .ok (s, some (.openAtEnd (disk.journal.getD []))) := by
  obtain ⟨journals, cautious, named⟩ := careful
  obtain refused | ⟨renews, o, ran, same, outcome⟩ | ⟨found, o, file, present, clean, ran, same, good, dirty, segment⟩ :=
    Opening.construct_outcomes journals cautious disk.file
  · exact .inl refused
  · refine .inr ⟨o, o.rebuilt, ran, rfl, fun s begins => ?_⟩
    rw [Durability.Store.reopen, holds.renewed renews] at begins
    apply holds.replayed lawful (same ▸ journals) _ begins
    rw [outcome, Opening.renewed]
    cases missing : disk.file with
    | none => exact .inl (by simp [named missing])
    | some found => exact .inr rfl
  · refine .inr ⟨o, file, ran, dirty, fun s begins => ?_⟩
    rw [Durability.Store.reopen, holds.kept found present clean] at begins
    have there : c.find file.segment (c.type.cName c.suffix) = c.find found.segment (c.type.cName c.suffix) := by
      obtain unchanged | ⟨extra, grown⟩ := segment
      · rw [unchanged]
      · rw [grown, lawful.find_grow]
    rw [get, getJournaled, openJournaled, if_pos (same ▸ journals), there, Option.some.inj begins, good]
    cases disk.journal <;> rfl

omit [SegmentManager γ] in
theorem Holds.left (holds : c.Holds disk store) {file : DbFile γ} (dirty : file.header.dirty = true) (ending : Ending γ)
    {segment : γ} {last : σ} (there : c.find segment (c.type.cName c.suffix) = some last) {entries : List (Entry T)}
    (fits : ∀ entry ∈ entries, entry.Fits c.codec) :
    c.Holds ⟨ending.left { file with segment },
        some (entries.foldl (JournalFile.write c.codec) (.openAtEnd (disk.journal.getD []))).file⟩
      (store.left ending.kept last (Entry.rewrite entries)) where
  kept found present clean := by
    cases ending with
    | closed =>
      cases present
      show some last = some ((c.find segment _).getD c.fresh)
      rw [there, Option.getD_some]
    | crashed memory =>
      cases present
      exact absurd clean (by simp [dirty])
    | deleted => cases present
  lost marked := by
    cases ending with
    | closed => exact absurd (marked _ rfl) (by simp [DbFile.setDirty])
    | crashed memory | deleted => rfl
  journal := by
    rw [Option.getD_some, writes_append, holds.journal, ← Entry.encodeAll_append]
    rfl
  fits entry member := by
    rcases List.mem_append.mp member with before | new
    · exact holds.fits entry before
    · exact Entry.rewrite_forall (P := fun entry => entry.Fits c.codec) (fun _ _ _ fits => ⟨by simp [Entry.payload], fits.2⟩) fits entry new

/-! ## Any number of processes -/

variable {permits : σ → List ι → Prop} {agrees : σ → τ → Prop} {apply : τ → Entry T → Option τ} {spec : τ → ι → ω × τ}
  {initial t : τ}

/-- The constructor throws and leaves the files as they are, or the process goes on where the
last one has been. -/
theorem Holds.lived (holds : c.Holds disk store) (lawful : c.Lawful)
    (serves : Durability.Serves c.step (c.Writes permits) Entry.rewrite c.rebuild agrees apply spec initial)
    (keeps : store.Keeps agrees apply initial t) {life : Lifetime γ ι} (permitted : c.Permits permits disk life) :
    c.live disk life = some (none, disk) ∨
    ∃ answers after later, c.live disk life = some (some answers, after) ∧ answers = (Run.follow spec t life.ops).1 ∧
      c.Holds after later ∧ later.Keeps agrees apply initial (Run.follow spec t life.ops).2 := by
  obtain ⟨careful, calls⟩ := permitted
  obtain ⟨error, refused⟩ | ⟨o, file, opened, dirty, delivers⟩ := holds.delivered lawful careful
  · left
    simp only [live, refused]
  · obtain ⟨s, begins, agree⟩ := keeps.reopened serves
    have got := delivers s begins
    have writes := calls o file s _ opened got
    obtain ⟨outputs, last, ran, answers, kept⟩ := keeps.served serves agree writes
    refine .inr ⟨_, _, _, ?_, answers,
      holds.left dirty life.ending (lawful.find_store file.segment _ last) (writes.2 outputs last ran), kept _⟩
    simp only [live, opened, got, ran]

/-- However the processes have ended, their calls are those of one run. -/
theorem Holds.lives (lawful : c.Lawful)
    (serves : Durability.Serves c.step (c.Writes permits) Entry.rewrite c.rebuild agrees apply spec initial)
    {lives : List (Lifetime γ ι)} (holds : c.Holds disk store) (keeps : store.Keeps agrees apply initial t)
    (permitted : Run.Permitted c.live (c.Permits permits) disk lives) :
    ∃ outputs last later, Run.run c.live disk lives = some (outputs, last) ∧
      replies outputs = (Run.follow spec t (performed lives outputs)).1 ∧
      c.Holds last later ∧ later.Keeps agrees apply initial (Run.follow spec t (performed lives outputs)).2 := by
  induction lives generalizing disk store t with
  | nil => exact ⟨[], disk, store, rfl, rfl, holds, keeps⟩
  | cons life lives ih =>
    obtain refused | ⟨answers, after, later, lived, told, held, kept⟩ := holds.lived lawful serves keeps permitted.1
    · obtain ⟨outputs, last, final, ran, others, rest⟩ := ih holds keeps (permitted.2 none disk refused)
      exact ⟨none :: outputs, last, final, Run.run_step refused ran, others, rest⟩
    · obtain ⟨outputs, last, final, ran, others, rest⟩ := ih held kept (permitted.2 (some answers) after lived)
      refine ⟨some answers :: outputs, last, final, Run.run_step lived ran, ?_, ?_⟩
      · rw [performed, Run.follow_append, ← others, ← told]
        rfl
      · rw [performed, Run.follow_append]
        exact rest

/-- Every process that opens the database next gets such a container. -/
def Delivers (c : Service γ σ T ι ω) (disk : Disk γ) (seen : σ → Prop) : Prop :=
  ∀ args, Careful args disk → ∀ o file, Opening.construct args disk.file = (.opened o, some file) →
    ∃ s journal, c.get o disk file.segment = .ok (s, some journal) ∧ seen s

theorem Holds.delivers (holds : c.Holds disk store) (lawful : c.Lawful)
    (serves : Durability.Serves c.step (c.Writes permits) Entry.rewrite c.rebuild agrees apply spec initial)
    (keeps : store.Keeps agrees apply initial t) : c.Delivers disk fun s => agrees s t := by
  intro args careful o file opened
  obtain ⟨error, refused⟩ | ⟨other, after, ran, -, delivers⟩ := holds.delivered lawful careful
  · rw [refused] at opened
    cases opened
  · rw [ran] at opened
    cases opened
    obtain ⟨s, begins, agree⟩ := keeps.reopened serves
    exact ⟨s, _, delivers s begins, agree⟩

end Service
end ChainBase
