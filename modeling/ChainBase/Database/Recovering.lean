import ChainBase.Database.Growing
import ChainBase.Database.Lookup
import ChainBase.Journal.ReadBack

/-! A journaled container of a new or reset database. The constructor of the database
remembers an outcome, and by this outcome the container is recovered from its journal. -/

namespace ChainBase

variable {σ T : Type}

/-- `journal::open`, with the path of the journal leading to a file or to nothing. A
journal that is created has nothing to recover. -/
def JournalFile.openAt (c : Target σ T) (codec : Codec T) (recovers : Bool) (container : σ) :
    Option (List UInt8) → Except Failure (σ × JournalFile)
  | none => .ok (container, .openAtEnd [])
  | some file =>
    if recovers then
      (recover c codec container file).map fun done => (done.container, ⟨Journal.opened file done.position, Crc32.initial⟩)
    else .ok (container, .openAtEnd file)

/-- The constructor of `journaled`: the container, and the journal if it is opened. An
outcome that has never been assigned is not one of the two it asks for. -/
def openJournaled (c : Target σ T) (codec : Codec T) (mode : OpenMode) (outcome : Option OpenOutcome) (container : σ)
    (journal : Option (List UInt8)) : Except Failure (σ × Option JournalFile) :=
  if mode = .readWrite then
    (JournalFile.openAt c codec (outcome = some .reset ∨ outcome = some .created) container journal).map
      fun (recovered, file) => (recovered, some file)
  else .ok (container, none)

section
variable {γ : Type} [SegmentManager γ]

/-- `get` of a journaled container from an open database. `find` looks a container up in
the segment; if there is none, a new one is constructed. -/
def getJournaled (c : Target σ T) (codec : Codec T) (fresh : σ) (find : γ → List Char → Option σ) (o : Opening)
    (segment : γ) (type : ContainerType) (suffix : List Char) (journal : Option (List UInt8)) :
    Except Failure (σ × Option JournalFile) :=
  openJournaled c codec o.args.mode o.outcome ((find segment (type.cName suffix)).getD fresh) journal

namespace Opening
variable {o : Opening}

def rebuilt (o : Opening) : DbFile γ :=
  ⟨o.size, ⟨headerId, headerSize, true, o.args.environment⟩, SegmentManager.construct (o.size - headerSize)⟩

theorem runAlone_running {later : Opening} {n : Nat} {file after : Option (DbFile γ)}
    (ran : o.step true file = (.running later, after)) : runAlone (n + 1) o file = runAlone n later after := by
  simp only [runAlone, ran]

theorem runAlone_touch (o : Opening) (n : Nat) (file : Option (DbFile γ)) :
    runAlone (n + 7) { o with next := .touch } file = (.opened { o with next := .dirty }, some o.rebuilt) := by
  let resized : DbFile γ := DbFile.truncated.resize o.size
  let built : DbFile γ := { resized with segment := SegmentManager.construct (o.size - headerSize) }
  let headed : DbFile γ := { built with header := ⟨headerId, headerSize, false, o.args.environment⟩ }
  have touch : step { o with next := .touch } true file = (.running { o with next := .resizeNew }, some .truncated) := rfl
  have resize : step { o with next := .resizeNew } true (some (.truncated : DbFile γ)) =
      (.running { o with next := .mapNew }, some resized) := rfl
  have map : step { o with next := .mapNew } true (some resized) =
      (.running { o with next := .constructSegment }, some resized) := rfl
  have construct : step { o with next := .constructSegment } true (some resized) =
      (.running { o with next := .writeHeader }, some built) := by
    simp only [step]
    exact throughMapping_written (Nat.le_refl o.size) _ _
  have header : step { o with next := .writeHeader } true (some built) =
      (.running { o with next := .tryLock }, some headed) := by
    simp only [step]
    exact throughMapping_written (Nat.le_refl o.size) _ _
  have lock : step { o with next := .tryLock } true (some headed) = (.running { o with next := .dirty }, some headed) := rfl
  have dirty : step { o with next := .dirty } true (some headed) = (.opened { o with next := .dirty }, some o.rebuilt) := by
    simp only [step]
    exact throughMapping_written (Nat.le_refl o.size) _ _
  rw [runAlone_running touch, runAlone_running resize, runAlone_running map, runAlone_running construct,
    runAlone_running header, runAlone_running lock]
  simp only [runAlone, dirty]

/-! ## The outcome -/

/-- The file is missing, or that of a dirty database which is to be reset. -/
def Renews (args : OpenArgs) (file : Option (DbFile γ)) : Prop :=
  file = none ∨ (validateDbHeader args.fpath args.environment file).toOption = some false ∧ args.action = .reset

def renewed (args : OpenArgs) (file : Option (DbFile γ)) : Option OpenOutcome :=
  if file.isSome then some .reset else if args.fpath.parentPath = "" then none else some .created

theorem construct_missing (args : OpenArgs) (writes : args.mode ≠ .readOnly) :
    ∃ o, construct args (none : Option (DbFile γ)) = (.opened o, some o.rebuilt) ∧ o.args = args ∧
      o.outcome = if args.fpath.parentPath = "" then none else some .created := by
  let begun : Opening := { begin args with outcome := if args.fpath.parentPath = "" then none else some .created }
  have missing : (begin args).step true (none : Option (DbFile γ)) = (.running { begun with next := .touch }, none) := by
    by_cases plain : args.fpath.parentPath = "" <;> simp [step, begin, writable, writes, begun, plain]
  refine ⟨{ begun with next := .dirty }, ?_, rfl, rfl⟩
  rw [construct, runAlone_running missing]
  exact runAlone_touch begun 1 none

theorem construct_reset {args : OpenArgs} {found : DbFile γ} (writes : args.mode ≠ .readOnly) (resets : args.action = .reset)
    (dirty : validateDbHeader args.fpath args.environment (some found) = .ok false) :
    ∃ o, construct args (some found) = (.opened o, some o.rebuilt) ∧ o.args = args ∧ o.outcome = some .reset := by
  let begun : Opening := { begin args with fileExists := true, outcome := some .reset }
  have present : (begin args).step true (some found) =
      (.running { begin args with next := .validateDbHeader, fileExists := true, outcome := some .good }, some found) := by
    simp [step, begin]
  have reset : step { begin args with next := .validateDbHeader, fileExists := true, outcome := some .good } true (some found) =
      (.running { begun with next := .touch }, some found) := by
    simp [step, begin, dirty, dirtyOutcome, resets, writable, writes, mapping, begun]
  refine ⟨{ begun with next := .dirty }, ?_, rfl, rfl⟩
  rw [construct, runAlone_running present, runAlone_running reset]
  exact runAlone_touch begun 0 (some found)

theorem construct_renews {args : OpenArgs} {file : Option (DbFile γ)} (writes : args.mode ≠ .readOnly)
    (renews : Renews args file) : ∃ o, construct args file = (.opened o, some o.rebuilt) ∧ o.args = args ∧
      o.outcome = renewed args file := by
  cases file with
  | none => exact construct_missing args writes
  | some found =>
    obtain ⟨dirty, resets⟩ := renews.resolve_left (by simp)
    apply construct_reset writes resets
    cases valid : validateDbHeader args.fpath args.environment (some found) with
    | error error => simp [valid, Except.toOption] at dirty
    | ok clean =>
      rw [valid] at dirty
      exact congrArg _ (Option.some.inj dirty)

end Opening

/-! ## The first container -/

variable {codec : Codec T} {calls : List (JournalCall T)}

/-- The database is opened and knows that it is new or reset; `get` finds no container
and makes one, in which it replays what has been written to the journal, and everything
that is written from then on stands behind it. -/
def RecoversJournal (args : OpenArgs) (file : Option (DbFile γ)) (codec : Codec T) (calls : List (JournalCall T)) : Prop :=
  ∃ o after, Opening.construct args file = (.opened o, some after) ∧
    (o.outcome = some .created ∨ o.outcome = some .reset) ∧
    (∀ (σ : Type) (c : Target σ T) (fresh : σ) (find : γ → List Char → Option σ) (type : ContainerType) (suffix : List Char),
      (∀ size name, find (SegmentManager.construct size) name = none) →
        getJournaled c codec fresh find o after.segment type suffix (some (JournalCall.written codec calls).file) =
          (replay c fresh (Slots.ofCalls calls).all).map fun last =>
            (last, some (.openAtEnd (JournalCall.written codec calls).file))) ∧
    ∀ more : List (Entry T),
      (more.foldl (JournalFile.write codec) (.openAtEnd (JournalCall.written codec calls).file)).file =
        (JournalCall.written codec calls).file ++ Entry.encodeAll codec (Entry.rewrite more)

omit [SegmentManager γ] in
theorem writes_append (file : List UInt8) (more : List (Entry T)) :
    (more.foldl (JournalFile.write codec) (.openAtEnd file)).file = file ++ Entry.encodeAll codec (Entry.rewrite more) := by
  have clean : ∀ j : JournalFile, j.crc = Crc32.initial →
      (more.foldl (JournalFile.write codec) j).toJournal = j.toJournal.writeAll codec more := by
    induction more with
    | nil => exact fun _ _ => rfl
    | cons entry more ih =>
      intro j clean
      rw [List.foldl_cons, JournalFile.write_eq clean, ih _ rfl]
      rfl
  have wrote : Journal.Wrote codec file [] (Entry.rewrite more) _ := Journal.wrote_writeAll file [] more
  rw [List.append_nil] at wrote
  have grown := wrote.place.1
  rw [List.drop_nil, List.append_nil] at grown
  rw [clean _ rfl]
  exact grown

theorem getJournaled_recovers (c : Target σ T) (fresh : σ) {find : γ → List Char → Option σ}
    (new : ∀ size name, find (SegmentManager.construct size) name = none) {o : Opening} (journals : o.args.mode = .readWrite)
    (remembers : o.outcome = some .created ∨ o.outcome = some .reset) (type : ContainerType) (suffix : List Char)
    (journal : List UInt8) :
    getJournaled c codec fresh find o o.rebuilt.segment type suffix (some journal) =
      (recover c codec fresh journal).map fun done =>
        (done.container, some ⟨Journal.opened journal done.position, Crc32.initial⟩) := by
  have empty : find o.rebuilt.segment (type.cName suffix) = none := new _ _
  rw [getJournaled, openJournaled, if_pos journals, empty, Option.getD_none, JournalFile.openAt,
    if_pos (by simpa using remembers.symm)]
  cases recover c codec fresh journal <;> rfl

/-- A new or reset database recovers its journaled containers exactly if its path has a
directory part, or the file was there, and every size in the journal fits its header. -/
theorem recovers_journal_iff {args : OpenArgs} (journals : args.mode = .readWrite) {file : Option (DbFile γ)}
    (renews : Opening.Renews args file) (codec : Codec T) (calls : List (JournalCall T))
    (typed : ∀ call ∈ calls, call.Typed codec) :
    RecoversJournal args file codec calls ↔
      (file = none → args.fpath.parentPath ≠ "") ∧ ∀ call ∈ calls, call.Small codec := by
  obtain ⟨o, ran, same, outcome⟩ := Opening.construct_renews (by simp [journals]) renews
  have entries : ∀ entry, .write entry ∈ calls → entry.Typed codec := fun entry written => typed _ written
  constructor
  · rintro ⟨other, after, opened, remembers, gets, -⟩
    rw [ran] at opened
    cases opened
    constructor
    · rintro rfl plain
      simp [outcome, Opening.renewed, plain] at remembers
    · have small := small_of_recovered entries fun obj => by
        have got := gets Unit (Target.listening obj) () (fun _ _ => none) ⟨[], 0, 0⟩ [] fun _ _ => rfl
        rw [getJournaled_recovers _ _ (fun _ _ => rfl) (same ▸ journals) remembers, replay_listening] at got
        cases recovered : recover (Target.listening obj) codec () (JournalCall.written codec calls).file with
        | error failure =>
          rw [recovered] at got
          cases got
        | ok done =>
          rw [recovered] at got
          have position := congrArg (fun pair : Unit × Option JournalFile => pair.2.map (·.position)) (Except.ok.inj got)
          exact congrArg _ (Option.some.inj position)
      intro call member
      cases call with
      | write entry => exact small entry member
      | reopen => trivial
  · rintro ⟨named, small⟩
    have remembers : o.outcome = some .created ∨ o.outcome = some .reset := by
      rw [outcome, Opening.renewed]
      cases file with
      | none => exact .inl (by simp [named rfl])
      | some found => exact .inr rfl
    refine ⟨o, o.rebuilt, ran, remembers, ?_, writes_append _⟩
    intro σ c fresh find type suffix new
    rw [getJournaled_recovers c fresh new (same ▸ journals) remembers,
      readsBack_of_small entries (fun entry written => small _ written) σ c fresh]
    cases replay c fresh (Slots.ofCalls calls).all <;> rfl

theorem recovers_journal_iff_books :
    let args : OpenArgs := ⟨⟨"", "books"⟩, .readWrite, 0, .reset, .zeroed⟩
    let file : Option (DbFile BareSegment) := some ⟨4096, ⟨headerId, headerSize, true, .zeroed⟩, ⟨3072⟩⟩
    let calls : List (JournalCall Book) :=
      [.write (.insert ⟨0, 1, 1⟩), .write (.level .startUndo 1), .reopen, .write (.modify 0 ⟨0, 2, 1⟩)]
    RecoversJournal args file bookCodec calls ↔
      (file = none → args.fpath.parentPath ≠ "") ∧ ∀ call ∈ calls, call.Small bookCodec :=
  recovers_journal_iff rfl (.inr (by decide)) bookCodec _ (by decide)

/-- A new database whose path is a name only does not know that it is new. -/
theorem plain_path_not_recovered :
    ¬ RecoversJournal ⟨⟨"", "books"⟩, .readWrite, 0, .fail, .zeroed⟩ (none : Option (DbFile BareSegment)) bookCodec
      [.write (.insert ⟨0, 1, 1⟩)] := by
  rintro ⟨o, after, ran, remembers, -⟩
  obtain ⟨same, new, -, unset⟩ := @Opening.construct_missing BareSegment _
    ⟨⟨"", "books"⟩, .readWrite, 0, .fail, .zeroed⟩ (by decide)
  rw [new] at ran
  cases ran
  simp [unset] at remembers

end
end ChainBase
