import ChainBase.Database.Locking
import ChainBase.Library.Run

/-! Handles of one process. Both move operations hand over the segment manager, the mode
and the outcome, and move every other member of a handle into itself. -/

namespace ChainBase

structure Region where
  file : String
  writable : Bool
deriving DecidableEq, Repr

/-- The members of `database`, by the file they belong to. A member that has been
initialised from itself has no value. -/
structure Database where
  segmentManager : Option String
  mode : OpenMode
  outcome : Option OpenOutcome
  dbPath : Option Path
  journalPath : Option Path
  fileLock : Option String
  fileMapping : Option String
  fileMappedRegion : Option Region
deriving DecidableEq, Repr

/-- The files, the handles, of which those destroyed are `none`, and the files that have
been opened for writing so far. -/
structure Process (γ : Type) where
  files : String → Option (DbFile γ)
  databases : List (Option Database)
  written : List String

inductive DatabaseOp where
  | «open» (args : OpenArgs) (journalPath : Path)
  | moveConstruct (source : Nat)
  | moveAssign (target source : Nat)
  | destroy (handle : Nat)
deriving DecidableEq, Repr

/-- A handle is moved from. -/
def DatabaseOp.Moves : DatabaseOp → Prop
  | moveConstruct _ | moveAssign _ _ => True
  | «open» _ _ | destroy _ => False

instance : DecidablePred DatabaseOp.Moves
  | .moveConstruct _ | .moveAssign _ _ => .isTrue trivial
  | .open _ _ | .destroy _ => .isFalse id

namespace Database

def isReadOnly (d : Database) : Bool := d.mode = .readOnly

def opened (o : Opening) (journalPath : Path) : Database where
  segmentManager := some o.args.fpath.string
  mode := o.args.mode
  outcome := o.outcome
  dbPath := some o.args.fpath
  journalPath := some journalPath
  fileLock := if o.writable then some o.args.fpath.string else none
  fileMapping := some o.args.fpath.string
  fileMappedRegion := some ⟨o.args.fpath.string, o.writable⟩

/-- The move constructor: the new handle, and what is left of the other one. -/
def moveConstruct (other : Database) : Database × Database :=
  ({ segmentManager := other.segmentManager
     mode := other.mode
     outcome := other.outcome
     -- each of these is initialised from itself
     dbPath := none
     journalPath := none
     fileLock := none
     fileMapping := none
     fileMappedRegion := none },
    { other with segmentManager := none })

/-- The members that move assignment assigns; the others are assigned to themselves. -/
def moveAssign (self other : Database) : Database × Database :=
  ({ self with segmentManager := other.segmentManager, mode := other.mode, outcome := other.outcome },
    { other with segmentManager := none })

/-- A handle with a segment manager owns everything that belongs to the same file, and
one without owns nothing. A database that is only read has taken no lock. -/
def Whole (d : Database) : Prop :=
  match d.segmentManager with
  | some file =>
    d.fileMappedRegion = some ⟨file, !d.isReadOnly⟩ ∧ d.fileMapping = some file ∧
      d.fileLock = (if d.isReadOnly then none else some file) ∧ d.dbPath.map Path.string = some file ∧ d.journalPath.isSome
  | none =>
    d.fileMappedRegion = none ∧ d.fileMapping = none ∧ d.fileLock = none ∧ d.dbPath = none ∧ d.journalPath = none

end Database

namespace Process
variable {γ : Type} [SegmentManager γ]

/-- `flush` and `dirty`: the flag in the header of the file that the handle maps. There
is none without a region, and none to be changed through one that cannot be written to. -/
def setDirty (s : Process γ) (d : Database) (dirty : Bool) : Option (Process γ) :=
  match d.fileMappedRegion with
  | none => none
  | some region =>
    match s.files region.file with
    | none => none
    | some file =>
      if file.header.dirty = dirty then some s
      else if region.writable && headerSize < file.length then
        some { s with files := Function.update s.files region.file (some (file.setDirty dirty)) }
      else none

/-- `if (_segment_manager && !is_read_only())`, in front of `flush` and `dirty`. -/
def mark (s : Process γ) (d : Database) (dirty : Bool) : Option (Process γ) :=
  if d.segmentManager.isSome && !d.isReadOnly then s.setDirty d dirty else some s

def put (s : Process γ) (handle : Nat) (d : Option Database) : Process γ :=
  { s with databases := s.databases.set handle d }

def live (s : Process γ) (handle : Nat) : Option Database := (s.databases[handle]?).join

def step (s : Process γ) : DatabaseOp → Option (Option SystemError × Process γ)
  | .open args journalPath =>
    let (ended, file) := Opening.construct args (s.files args.fpath.string)
    let after := { s with files := Function.update s.files args.fpath.string file }
    match ended with
    | .opened o =>
      some (none, { after with
        databases := s.databases ++ [some (.opened o journalPath)]
        written := if o.writable then args.fpath.string :: s.written else s.written })
    | .threw error => some (some error, after)
    | .running _ | .killed => none
  | .moveConstruct source => do
    let other ← s.live source
    let (constructed, left) := other.moveConstruct
    let after := s.put source (some left)
    some (none, { after with databases := after.databases ++ [some constructed] })
  | .moveAssign target source => do
    let self ← s.live target
    let other ← s.live source
    let flushed ← s.mark self false
    let (assigned, left) := self.moveAssign other
    let after ← ((flushed.put source (some left)).put target (some assigned)).mark assigned true
    some (none, after)
  | .destroy handle => do
    let d ← s.live handle
    let flushed ← s.mark d false
    some (none, flushed.put handle none)

/-- A program names live handles only, and does not assign a handle to itself. -/
def Valid (s : Process γ) : DatabaseOp → Prop
  | .open _ _ => True
  | .moveConstruct handle | .destroy handle => (s.live handle).isSome
  | .moveAssign target source => target ≠ source ∧ (s.live target).isSome ∧ (s.live source).isSome

instance (s : Process γ) : ∀ op, Decidable (s.Valid op)
  | .open _ _ => .isTrue trivial
  | .moveConstruct handle | .destroy handle => inferInstanceAs (Decidable (s.live handle).isSome)
  | .moveAssign target source =>
    inferInstanceAs (Decidable (target ≠ source ∧ (s.live target).isSome ∧ (s.live source).isSome))

def Whole (s : Process γ) : Prop := ∀ d, some d ∈ s.databases → d.Whole

/-- When every handle has been destroyed, no file that was opened for writing is dirty. -/
def Cleared (s : Process γ) : Prop :=
  (∀ d ∈ s.databases, d = none) → ∀ file ∈ s.written, ∃ found, s.files file = some found ∧ found.header.dirty = false

/-- The program runs to its end, and ownership is whole at every point of it. -/
def KeepsWhole (s : Process γ) (ops : List DatabaseOp) : Prop :=
  (∃ outputs last, Run.run step s ops = some (outputs, last)) ∧
  ∀ front back, ops = front ++ back → ∀ outputs after, Run.run step s front = some (outputs, after) →
    after.Whole ∧ after.Cleared

/-! ## Without moves -/

structure Intact (s : Process γ) : Prop where
  held : ∀ d, some d ∈ s.databases → ∃ o journalPath, d = .opened o journalPath
  known : ∀ o journalPath, some (.opened o journalPath) ∈ s.databases → o.writable = true → o.args.fpath.string ∈ s.written
  present : ∀ file ∈ s.written, ∃ found, s.files file = some found ∧ headerSize < found.length ∧
    (found.header.dirty = true → ∃ o journalPath, some (.opened o journalPath) ∈ s.databases ∧ o.writable = true ∧
      o.args.fpath.string = file)

variable {s after : Process γ}

omit [SegmentManager γ] in
theorem intact_closed (files : String → Option (DbFile γ)) : Intact ⟨files, [], []⟩ := ⟨by simp, by simp, by simp⟩

theorem isReadOnly_opened (o : Opening) (journalPath : Path) : (Database.opened o journalPath).isReadOnly = !o.writable := by
  simp [Database.opened, Database.isReadOnly, Opening.writable]

theorem whole_opened (o : Opening) (journalPath : Path) : (Database.opened o journalPath).Whole := by
  unfold Database.Whole
  rw [isReadOnly_opened]
  cases writable : o.writable <;> simp [Database.opened, writable]

omit [SegmentManager γ] in
theorem Intact.whole (intact : s.Intact) : s.Whole := by
  intro d member
  obtain ⟨o, journalPath, rfl⟩ := intact.held d member
  exact whole_opened o journalPath

omit [SegmentManager γ] in
theorem Intact.cleared (intact : s.Intact) : s.Cleared := by
  intro gone file member
  obtain ⟨found, same, -, owned⟩ := intact.present file member
  refine ⟨found, same, ?_⟩
  cases dirty : found.header.dirty with
  | false => rfl
  | true =>
    obtain ⟨o, journalPath, inside, -⟩ := owned dirty
    cases gone _ inside

omit [SegmentManager γ] in
theorem live_mem {handle : Nat} {d : Database} (live : s.live handle = some d) : s.databases[handle]? = some (some d) := by
  unfold Process.live at live
  exact Option.join_eq_some_iff.mp live

omit [SegmentManager γ] in
theorem mem_put_none {handle : Nat} {d other : Database} (live : s.live handle = some d) (member : some other ∈ s.databases)
    (apart : other ≠ d) : some other ∈ (s.put handle none).databases := by
  obtain ⟨index, found⟩ := List.mem_iff_getElem?.mp member
  have different : handle ≠ index := by
    rintro rfl
    rw [live_mem live] at found
    cases found
    exact apart rfl
  exact List.mem_of_getElem? (i := index) (by rw [put, List.getElem?_set_ne different, found])

omit [SegmentManager γ] in
theorem opened_inj {o other : Opening} {journalPath path : Path}
    (same : Database.opened o journalPath = .opened other path) :
    o.writable = other.writable ∧ o.args.fpath.string = other.args.fpath.string := by
  have modes := congrArg Database.isReadOnly same
  rw [isReadOnly_opened, isReadOnly_opened, Bool.not_inj_iff] at modes
  exact ⟨modes, by simpa [Database.opened] using congrArg Database.segmentManager same⟩

omit [SegmentManager γ] in
theorem Intact.opened (intact : s.Intact) {o : Opening} {file : Option (DbFile γ)} (journalPath : Path)
    (ended : if o.writable then ∃ found, file = some found ∧ headerSize < found.length ∧ found.header.dirty = true
      else file = s.files o.args.fpath.string) :
    Intact
      { files := Function.update s.files o.args.fpath.string file
        databases := s.databases ++ [some (.opened o journalPath)]
        written := if o.writable then o.args.fpath.string :: s.written else s.written } := by
  have held : ∀ d, some d ∈ s.databases ++ [some (.opened o journalPath)] → ∃ o journalPath, d = .opened o journalPath := by
    intro d member
    rcases List.mem_append.mp member with old | new
    · exact intact.held d old
    · cases List.mem_singleton.mp new
      exact ⟨o, journalPath, rfl⟩
  cases writable : o.writable with
  | false =>
    simp only [writable, Bool.false_eq_true, if_false] at ended
    rw [ended, Function.update_eq_self]
    refine ⟨held, fun other path member writes => ?_, fun name member => ?_⟩
    · rcases List.mem_append.mp member with old | new
      · simpa using intact.known other path old writes
      · have same := opened_inj (Option.some.inj (List.mem_singleton.mp new))
        rw [same.1, writable] at writes
        cases writes
    · obtain ⟨found, same, long, owned⟩ := intact.present name (by simpa using member)
      refine ⟨found, same, long, fun dirty => ?_⟩
      obtain ⟨other, path, inside, rest⟩ := owned dirty
      exact ⟨other, path, List.mem_append_left _ inside, rest⟩
  | true =>
    simp only [writable, if_true] at ended
    obtain ⟨found, rfl, long, dirty⟩ := ended
    refine ⟨held, fun other path member writes => ?_, fun name member => ?_⟩
    · rcases List.mem_append.mp member with old | new
      · simpa using .inr (intact.known other path old writes)
      · simp [(opened_inj (Option.some.inj (List.mem_singleton.mp new))).2]
    · by_cases same : name = o.args.fpath.string
      · subst same
        exact ⟨found, by simp, long, fun _ => ⟨o, journalPath, by simp, writable, rfl⟩⟩
      · obtain ⟨other, content, size, owned⟩ := intact.present name (by simpa [same] using member)
        refine ⟨other, by simpa [Function.update_of_ne same] using content, size, fun dirty => ?_⟩
        obtain ⟨holder, path, inside, rest⟩ := owned dirty
        exact ⟨holder, path, List.mem_append_left _ inside, rest⟩

omit [SegmentManager γ] in
theorem Intact.closed (intact : s.Intact) {handle : Nat} {o : Opening} {journalPath : Path}
    (live : s.live handle = some (.opened o journalPath))
    (clean : o.writable = true → ∀ found, s.files o.args.fpath.string = some found → found.header.dirty = false) :
    (s.put handle none).Intact := by
  have remains (d : Database) (member : some d ∈ (s.put handle none).databases) : some d ∈ s.databases := by
    rcases List.mem_or_eq_of_mem_set member with old | new
    · exact old
    · cases new
  refine ⟨fun d member => intact.held d (remains d member), fun other path member => intact.known other path (remains _ member),
    fun name member => ?_⟩
  obtain ⟨found, same, long, owned⟩ := intact.present name member
  refine ⟨found, same, long, fun dirty => ?_⟩
  obtain ⟨other, path, inside, writes, rfl⟩ := owned dirty
  refine ⟨other, path, mem_put_none live inside fun equal => ?_, writes, rfl⟩
  obtain ⟨mode, file⟩ := opened_inj equal
  rw [clean (mode ▸ writes) found (file ▸ same)] at dirty
  cases dirty

omit [SegmentManager γ] in
theorem Intact.flush (intact : s.Intact) {o : Opening} {journalPath : Path}
    (member : some (.opened o journalPath) ∈ s.databases) :
    ∃ flushed, s.mark (.opened o journalPath) false = some flushed ∧ flushed.Intact ∧ flushed.databases = s.databases ∧
      (o.writable = true → ∀ found, flushed.files o.args.fpath.string = some found → found.header.dirty = false) := by
  unfold mark
  rw [isReadOnly_opened]
  cases writable : o.writable with
  | false => exact ⟨s, by simp, intact, rfl, by simp⟩
  | true =>
    obtain ⟨found, content, long, -⟩ := intact.present o.args.fpath.string (intact.known o journalPath member writable)
    simp only [Database.opened, Option.isSome_some, Bool.not_true, Bool.not_false, Bool.and_self, if_true, setDirty, writable,
      content, Bool.true_and, decide_eq_true_eq, long]
    split
    · rename_i clean
      refine ⟨s, rfl, intact, rfl, fun _ file present => ?_⟩
      rw [content] at present
      cases present
      exact clean
    · refine ⟨_, rfl, ⟨intact.held, intact.known, fun name inside => ?_⟩, rfl, fun _ file present => ?_⟩
      · by_cases equal : name = o.args.fpath.string
        · subst equal
          exact ⟨found.setDirty false, by simp, long, by simp [DbFile.setDirty]⟩
        · obtain ⟨file, present, rest⟩ := intact.present name inside
          exact ⟨file, by simpa [Function.update_of_ne equal] using present, rest⟩
      · simp only [Function.update_self, Option.some.injEq] at present
        subst present
        rfl

theorem Intact.step (intact : s.Intact) (op : DatabaseOp) (stays : ¬ op.Moves) (valid : s.Valid op) :
    ∃ reply after, s.step op = some (reply, after) ∧ after.Intact := by
  cases op with
  | «open» args journalPath =>
    rcases Opening.construct_cases args (s.files args.fpath.string) with ⟨o, file, ran, rfl, ended⟩ | ⟨error, ran⟩
    · refine ⟨none, _, ?_, intact.opened journalPath ended⟩
      simp only [Process.step, ran]
    · refine ⟨some error, { s with files := Function.update s.files args.fpath.string (s.files args.fpath.string) }, ?_, ?_⟩
      · simp only [Process.step, ran]
      · rwa [Function.update_eq_self]
  | moveConstruct | moveAssign => exact absurd trivial stays
  | destroy handle =>
    obtain ⟨d, live⟩ := Option.isSome_iff_exists.mp valid
    obtain ⟨o, journalPath, rfl⟩ := intact.held d (List.mem_of_getElem? (live_mem live))
    obtain ⟨flushed, ran, kept, same, clean⟩ := intact.flush (List.mem_of_getElem? (live_mem live))
    refine ⟨none, flushed.put handle none, by simp [Process.step, live, ran], ?_⟩
    have remains : flushed.live handle = some (.opened o journalPath) := by rwa [Process.live, same]
    exact kept.closed remains clean

theorem Intact.run (intact : s.Intact) {ops : List DatabaseOp} (stays : ∀ op ∈ ops, ¬ op.Moves)
    (valid : Run.Permitted Process.step Valid s ops) :
    ∃ outputs last, Run.run Process.step s ops = some (outputs, last) ∧ last.Intact := by
  induction ops generalizing s with
  | nil => exact ⟨[], s, rfl, intact⟩
  | cons op ops ih =>
    obtain ⟨reply, after, ran, kept⟩ := intact.step op (stays op (by simp)) valid.1
    obtain ⟨outputs, last, rest, final⟩ := ih kept (fun other member => stays other (by simp [member])) (valid.2 reply after ran)
    exact ⟨reply :: outputs, last, Run.run_step ran rest, final⟩

/-! ## With moves -/

omit [SegmentManager γ] in
/-- A handle that has lost its segment manager still owns what it was opened with. -/
theorem moved_from (o : Opening) (journalPath : Path) : ¬ ({ Database.opened o journalPath with segmentManager := none }).Whole := by
  simp [Database.Whole, Database.opened]

omit [SegmentManager γ] in
theorem mark_databases {d : Database} {dirty : Bool} (marked : s.mark d dirty = some after) : after.databases = s.databases := by
  unfold mark setDirty at marked
  repeat' split at marked
  all_goals cases marked
  all_goals rfl

theorem Intact.moved (intact : s.Intact) {op : DatabaseOp} (moves : op.Moves) (valid : s.Valid op) {reply : Option SystemError}
    (ran : s.step op = some (reply, after)) : ¬ after.Whole := by
  intro whole
  cases op with
  | «open» | destroy => exact moves
  | moveConstruct source =>
    obtain ⟨d, live⟩ := Option.isSome_iff_exists.mp valid
    have place := live_mem live
    obtain ⟨o, journalPath, rfl⟩ := intact.held d (List.mem_of_getElem? place)
    simp only [Process.step, live, Option.bind_eq_bind, Option.bind_some, Option.some.injEq, Prod.mk.injEq] at ran
    obtain ⟨-, rfl⟩ := ran
    refine moved_from o journalPath (whole _ (List.mem_append_left _ ?_))
    exact List.mem_set (List.getElem?_eq_some_iff.mp place).1 _
  | moveAssign target source =>
    obtain ⟨apart, present, valid⟩ := valid
    obtain ⟨self, other⟩ := Option.isSome_iff_exists.mp present
    obtain ⟨d, live⟩ := Option.isSome_iff_exists.mp valid
    have place := live_mem live
    obtain ⟨o, journalPath, rfl⟩ := intact.held d (List.mem_of_getElem? place)
    simp only [Process.step, live, other, Option.bind_eq_bind, Option.bind_some, Option.bind_eq_some_iff] at ran
    obtain ⟨flushed, first, last, second, same⟩ := ran
    cases same
    refine moved_from o journalPath (whole _ ?_)
    rw [mark_databases second]
    refine List.mem_of_getElem? (i := source) ?_
    simp only [put, List.getElem?_set_ne apart, mark_databases first]
    rw [List.getElem?_set_self (List.getElem?_eq_some_iff.mp place).1]
    rfl

theorem KeepsWhole.tail {op : DatabaseOp} {ops : List DatabaseOp} (keeps : s.KeepsWhole (op :: ops))
    {reply : Option SystemError} (ran : s.step op = some (reply, after)) : after.KeepsWhole ops := by
  obtain ⟨⟨outputs, last, all⟩, whole⟩ := keeps
  obtain ⟨output, next, rest, first, others, -⟩ := Run.run_cons all
  rw [ran] at first
  cases first
  refine ⟨⟨rest, last, others⟩, ?_⟩
  rintro front back rfl outputs later remaining
  exact whole (op :: front) back rfl (reply :: outputs) later (Run.run_step ran remaining)

theorem Intact.stays (intact : s.Intact) {ops : List DatabaseOp} (valid : Run.Permitted Process.step Valid s ops)
    (keeps : s.KeepsWhole ops) : ∀ op ∈ ops, ¬ op.Moves := by
  induction ops generalizing s with
  | nil => simp
  | cons op ops ih =>
    have stays : ¬ op.Moves := by
      intro moves
      obtain ⟨⟨outputs, last, all⟩, whole⟩ := keeps
      obtain ⟨reply, after, rest, first, -, -⟩ := Run.run_cons all
      exact intact.moved moves valid.1 first (whole [op] ops rfl [reply] after (Run.run_step first rfl)).1
    obtain ⟨reply, after, ran, kept⟩ := intact.step op stays valid.1
    intro other member
    rcases List.mem_cons.mp member with rfl | later
    · exact stays
    · exact ih kept (valid.2 reply after ran) (keeps.tail ran) other later

/-- In a program that names live handles ownership stays whole exactly if it moves none. -/
theorem ownership_whole_iff (files : String → Option (DbFile γ)) (ops : List DatabaseOp)
    (valid : Run.Permitted step Valid ⟨files, [], []⟩ ops) :
    KeepsWhole ⟨files, [], []⟩ ops ↔ ∀ op ∈ ops, ¬ op.Moves := by
  have intact := intact_closed files
  constructor
  · exact intact.stays valid
  · intro stays
    obtain ⟨outputs, last, ran, -⟩ := intact.run stays valid
    refine ⟨⟨outputs, last, ran⟩, ?_⟩
    rintro front back rfl outputs after ran
    have stayed : ∀ op ∈ front, ¬ op.Moves := fun op member => stays op (List.mem_append_left _ member)
    obtain ⟨_, _, same, kept⟩ := intact.run stayed (by simpa using Run.permitted_take valid front.length)
    rw [ran] at same
    cases same
    exact ⟨kept.whole, kept.cleared⟩

end Process

def booksPath : Path := ⟨"data", "data/books"⟩
def notesPath : Path := ⟨"data", "data/notes"⟩

def opensBooks (mode : OpenMode) : DatabaseOp := .open ⟨booksPath, mode, 0, .allow, .zeroed⟩ booksPath
def opensNotes (mode : OpenMode) : DatabaseOp := .open ⟨notesPath, mode, 0, .fail, .zeroed⟩ notesPath

namespace Process

def closed : Process BareSegment := ⟨fun _ => none, [], []⟩

/-- Three handles of one file and one of another, closed in another order. -/
theorem ownership_whole_books : closed.KeepsWhole
    [opensBooks .readWrite, opensNotes .readWrite, opensBooks .readOnly, .destroy 0, opensBooks .readWriteNoJournal, .destroy 1,
      .destroy 3, .destroy 2] :=
  (ownership_whole_iff _ _ (by decide)).mpr (by decide)

/-- A handle that has been moved from still owns the mapping of its file. -/
theorem moved_database_not_whole : ¬ closed.KeepsWhole [opensBooks .readWrite, .moveConstruct 0] := by
  rintro ⟨⟨outputs, last, ran⟩, whole⟩
  have owned : ((Run.run step closed [opensBooks .readWrite, .moveConstruct 0]).bind fun (_, last) =>
      (last.live 0).map fun d => (d.segmentManager, d.fileMapping)) = some (none, some "data/books") := by
    decide
  simp only [ran, Option.bind_some, Option.map_eq_some_iff, Prod.mk.injEq] at owned
  obtain ⟨d, live, empty, mapping⟩ := owned
  have broken := (whole _ [] (List.append_nil _).symm outputs last ran).1 d (List.mem_of_getElem? (live_mem live))
  simp [Database.Whole, empty, mapping] at broken

end Process
end ChainBase
