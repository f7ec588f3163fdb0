import Mathlib.Data.List.Basic

/-! The constructor of `database`, one access to the file at a time, and the file it
works on. Between two of its steps anything may happen to the file. -/

namespace ChainBase

inductive OpenMode where
  | readOnly
  | readWrite
  | readWriteNoJournal
deriving DecidableEq, Repr

inductive DirtyAction where
  | fail
  | allow
  | reset
deriving DecidableEq, Repr

inductive OpenOutcome where
  | good
  | created
  | corrupted
  | reset
deriving DecidableEq, Repr

inductive Errc where
  | ok
  | dirty
  | incompatible
  | incorrectDbVersion
  | notFound
  | badHeader
  | noAccess
deriving DecidableEq, Repr

/-- A path, as far as the constructor looks into it. -/
structure Path where
  /-- Empty if the path has no directory part. -/
  parentPath : String
  string : String
deriving DecidableEq, Repr

structure SystemError where
  code : Errc
  what : String
deriving DecidableEq, Repr

def SystemError.throwError (fpath : Path) (code : Errc) (reason : String) : SystemError :=
  ⟨code, "\"" ++ fpath.string ++ "\" database " ++ reason⟩

/-! ## The environment -/

inductive Os where
  | linux
  | macos
  | windows
  | unknown (code : UInt8)
deriving DecidableEq, Repr

inductive Arch where
  | x86_64
  | arm
  | unknown (code : UInt8)
deriving DecidableEq, Repr

structure Environment where
  debug : Bool
  os : Os
  arch : Arch
  boostVersion : Nat
  compiler : String
deriving DecidableEq, Repr

namespace Environment

def printOs : Os → String
  | .linux => "Linux"
  | .macos => "macOS"
  | .windows => "Windows"
  | .unknown _ => ""

def printArch : Arch → String
  | .x86_64 => "x86_64"
  | .arm => "ARM"
  | .unknown _ => ""

/-- A label on the right of 17 columns. -/
def label (text : String) : String := "".pushn ' ' (17 - text.length) ++ text

def str (dt : Environment) : String :=
  label "Compiler: " ++ dt.compiler ++ "\n" ++
  label "Debug: " ++ (if dt.debug then "Yes" else "No") ++ "\n" ++
  label "OS: " ++ printOs dt.os ++ "\n" ++
  label "Arch: " ++ printArch dt.arch ++ "\n" ++
  label "Boost: " ++ toString (dt.boostVersion / 100000) ++ "." ++ toString (dt.boostVersion / 100 % 1000) ++ "." ++
    toString (dt.boostVersion % 100) ++ "\n"

def zeroed : Environment := ⟨false, .linux, .x86_64, 0, ""⟩

end Environment

/-! ## The file -/

def headerSize : Nat := 1024
def headerId : Nat := 0x4277554c54494442
def dbMinSize : Nat := 4096

structure DbHeader where
  id : Nat
  size : Nat
  dirty : Bool
  dbenviron : Environment
deriving DecidableEq, Repr

/-- What the constructor does with the memory behind the header. The segment manager
itself is a part of Boost.Interprocess. -/
class SegmentManager (γ : Type) where
  zeroed : γ
  construct (size : Nat) : γ
  grow (segment : γ) (extra : Nat) : γ
  getSize (segment : γ) : Nat
  /-- What is left of the memory when the file is cut to so many bytes of it. -/
  cut (segment : γ) (size : Nat) : γ

structure DbFile (γ : Type) where
  length : Nat
  header : DbHeader
  segment : γ
deriving DecidableEq, Repr

namespace DbFile
variable {γ : Type} [SegmentManager γ]

def truncated : DbFile γ := ⟨0, ⟨0, 0, false, .zeroed⟩, SegmentManager.zeroed⟩

def resize (file : DbFile γ) (length : Nat) : DbFile γ :=
  { file with
    length
    segment := if length < file.length then SegmentManager.cut file.segment (length - headerSize) else file.segment }

def setDirty (file : DbFile γ) (dirty : Bool) : DbFile γ := { file with header := { file.header with dirty } }

end DbFile

/-! ## The constructor -/

/-- What the constructor is called with, and the environment of the caller. -/
structure OpenArgs where
  fpath : Path
  mode : OpenMode
  dbFileSize : Nat
  action : DirtyAction
  environment : Environment
deriving DecidableEq, Repr

/-- What the constructor does next. -/
inductive Point where
  | exists
  | validateDbHeader
  | touch
  | resizeNew
  | mapNew
  | constructSegment
  | writeHeader
  | fileSize
  | resizeOld
  | mapOld
  | growSegment
  | mapReadOnly
  | tryLock
  | dirty
deriving DecidableEq, Repr

/-- A call of the constructor that is under way, with its local variables. -/
structure Opening where
  args : OpenArgs
  next : Point
  fileExists : Bool
  /-- `_outcome`, which has no value before it is assigned. -/
  outcome : Option OpenOutcome
  grow : Nat
deriving DecidableEq, Repr

/-- How a step ends. Writing to a page that the file has lost kills the process. -/
inductive Stepped where
  | running (opening : Opening)
  | opened (opening : Opening)
  | threw (error : SystemError)
  | killed
deriving DecidableEq, Repr

section
variable {γ : Type} [SegmentManager γ]

/-- Whether the header is that of a clean database. -/
def validateDbHeader (fpath : Path) (environment : Environment) (file : Option (DbFile γ)) : Except SystemError Bool :=
  match file with
  | none => .error (SystemError.throwError fpath .badHeader "invalid header")
  | some file =>
    if file.length < headerSize then .error (SystemError.throwError fpath .badHeader "invalid header")
    else if file.header.id ≠ headerId ∨ file.header.size ≠ headerSize then
      .error (SystemError.throwError fpath .incorrectDbVersion "incompatible version")
    else if file.header.dbenviron ≠ environment then
      .error (SystemError.throwError fpath .incompatible
        ("was created on a different environment:\n" ++ file.header.dbenviron.str))
    else .ok !file.header.dirty

/-- A write through the mapped region. -/
def throughMapping (file : Option (DbFile γ)) (write : DbFile γ → DbFile γ) (next : Stepped) :
    Stepped × Option (DbFile γ) :=
  match file with
  | none => (.killed, none)
  | some file => if headerSize < file.length then (next, some (write file)) else (.killed, some file)

namespace Opening

def begin (args : OpenArgs) : Opening := ⟨args, .exists, false, none, 0⟩

def writable (o : Opening) : Bool := o.args.mode ≠ .readOnly

def size (o : Opening) : Nat := max o.args.dbFileSize dbMinSize

/-- The outcome of a file that has been found dirty, unless opening it is an error. -/
def dirtyOutcome (o : Opening) : Except SystemError OpenOutcome :=
  match o.args.action with
  | .allow => .ok .corrupted
  | .reset => if o.writable then .ok .reset else .error (SystemError.throwError o.args.fpath .dirty "dirty flag set")
  | .fail => .error (SystemError.throwError o.args.fpath .dirty "dirty flag set")

/-- Which of the three ways to map the file is taken. -/
def mapping (o : Opening) : Point :=
  if ¬ o.fileExists ∨ o.outcome = some .reset then .touch
  else if o.writable then .fileSize
  else .mapReadOnly

/-- One step, which `tryLock` makes depend on whether the lock is free. -/
def step (o : Opening) (free : Bool) (file : Option (DbFile γ)) : Stepped × Option (DbFile γ) :=
  match o.next with
  | .exists =>
    if !o.writable && file.isNone then (.threw (SystemError.throwError o.args.fpath .notFound "file not found"), file)
    else if file.isSome then
      (.running { o with next := .validateDbHeader, fileExists := true, outcome := some .good }, file)
    else
      -- without a directory part the outcome keeps no value
      let outcome := if o.args.fpath.parentPath = "" then o.outcome else some .created
      (.running { o with next := .touch, fileExists := false, outcome }, file)
  | .validateDbHeader =>
    match validateDbHeader o.args.fpath o.args.environment file with
    | .error error => (.threw error, file)
    | .ok true => (.running { o with next := o.mapping }, file)
    | .ok false =>
      match o.dirtyOutcome with
      | .error error => (.threw error, file)
      | .ok outcome =>
        let found := { o with outcome := some outcome }
        (.running { found with next := found.mapping }, file)
  | .touch => (.running { o with next := .resizeNew }, some .truncated)
  | .resizeNew => (.running { o with next := .mapNew }, file.map (·.resize o.size))
  | .mapNew => (.running { o with next := .constructSegment }, file)
  | .constructSegment =>
    throughMapping file (fun file => { file with segment := SegmentManager.construct (o.size - headerSize) })
      (.running { o with next := .writeHeader })
  | .writeHeader =>
    throughMapping file (fun file => { file with header := ⟨headerId, headerSize, false, o.args.environment⟩ })
      (.running { o with next := .tryLock })
  | .fileSize =>
    let existingFileSize := (file.map DbFile.length).getD 0
    if existingFileSize < o.size then
      (.running { o with next := .resizeOld, grow := o.size - existingFileSize }, file)
    else (.running { o with next := .mapOld, grow := 0 }, file)
  | .resizeOld => (.running { o with next := .mapOld }, file.map (·.resize o.size))
  | .mapOld => (.running { o with next := if o.grow ≠ 0 then .growSegment else .tryLock }, file)
  | .growSegment =>
    throughMapping file (fun file => { file with segment := SegmentManager.grow file.segment o.grow })
      (.running { o with next := .tryLock })
  | .mapReadOnly => (.opened o, file)
  | .tryLock =>
    if free then (.running { o with next := .dirty }, file)
    else (.threw (SystemError.throwError o.args.fpath .noAccess "could not acquire file lock"), file)
  | .dirty => throughMapping file (·.setDirty true) (.opened o)

/-- The constructor has found the file missing, to be reset or too small. -/
def Rewrites (o : Opening) : Prop :=
  o.next ≠ .exists ∧ (o.fileExists = false ∨ o.outcome = some .reset ∨ o.grow ≠ 0)

instance (o : Opening) : Decidable o.Rewrites :=
  inferInstanceAs (Decidable (o.next ≠ .exists ∧ (o.fileExists = false ∨ o.outcome = some .reset ∨ o.grow ≠ 0)))

/-- What the constructor has found out by the time it reaches a point. -/
def Reaches (o : Opening) : Point → Prop
  | .exists => o.grow = 0
  | .validateDbHeader => o.fileExists = true ∧ o.outcome = some .good ∧ o.grow = 0
  | .touch | .resizeNew | .mapNew | .constructSegment | .writeHeader =>
    o.writable = true ∧ (o.fileExists = false ∨ o.outcome = some .reset)
  | .fileSize => o.writable = true ∧ o.grow = 0
  | .resizeOld | .growSegment => o.writable = true ∧ o.grow ≠ 0
  | .mapOld | .tryLock | .dirty => o.writable = true
  | .mapReadOnly => o.writable = false

def Consistent (o : Opening) : Prop := o.Reaches o.next

variable {o later : Opening} {free : Bool} {file : Option (DbFile γ)}

omit [SegmentManager γ] in
theorem throughMapping_ended {write : DbFile γ → DbFile γ} {next stepped : Stepped}
    (ran : (throughMapping file write next).1 = stepped) (alive : stepped ≠ .killed) : next = stepped := by
  unfold throughMapping at ran
  split at ran
  · exact absurd ran.symm alive
  · split at ran
    · exact ran
    · exact absurd ran.symm alive

theorem mapping_reaches (found : o.fileExists = true) (unmeasured : o.grow = 0)
    (resets : o.outcome = some .reset → o.writable = true) : o.Reaches o.mapping := by
  unfold mapping
  split
  · rename_i rebuilds
    simp only [found, not_true_eq_false, false_or] at rebuilds
    exact ⟨resets rebuilds, .inr rebuilds⟩
  · split
    · rename_i writes
      exact ⟨writes, unmeasured⟩
    · simpa [Reaches] using ‹¬ o.writable = true›

theorem mapping_ne_dirty (o : Opening) : o.mapping ≠ .dirty := by
  unfold mapping
  split
  · simp
  · split <;> simp

theorem dirtyOutcome_reset (found : o.dirtyOutcome = .ok .reset) : o.writable = true := by
  unfold dirtyOutcome at found
  split at found
  · cases found
  · split at found
    · assumption
    · cases found
  · cases found

theorem consistent_begin (args : OpenArgs) : (begin args).Consistent := rfl

/-- Where a step leads, from what has been found out by then. -/
structure Follows (o later : Opening) (free : Bool) : Prop where
  consistent : later.Consistent
  args : later.args = o.args
  rewrites : o.Rewrites → later.Rewrites
  locked : later.next = .dirty → o.next = .tryLock ∧ free = true

theorem follows_next {next : Point} (reaches : o.Reaches next) (moved : next ≠ .exists)
    (locked : next = .dirty → o.next = .tryLock ∧ free = true) : o.Follows { o with next } free where
  consistent := by cases next <;> exact reaches
  args := rfl
  rewrites rewrites := ⟨moved, rewrites.2⟩
  locked := locked

theorem step_running (consistent : o.Consistent) (ran : (o.step free file).1 = .running later) :
    o.Follows later free := by
  unfold Consistent at consistent
  cases point : o.next with
  | «exists» =>
    rw [point] at consistent
    simp only [step, point] at ran
    split at ran
    · cases ran
    · split at ran
      · cases ran
        exact ⟨⟨rfl, rfl, consistent⟩, rfl, fun rewrites => absurd point rewrites.1, by simp⟩
      · rename_i permitted missing
        cases ran
        have writes : o.writable = true := by
          cases writable : o.writable with
          | true => rfl
          | false => simp_all
        exact ⟨⟨writes, .inl rfl⟩, rfl, fun rewrites => absurd point rewrites.1, by simp⟩
  | validateDbHeader =>
    rw [point] at consistent
    obtain ⟨found, good, unmeasured⟩ := consistent
    have undecided : ¬ o.Rewrites := by simp [Rewrites, found, good, unmeasured]
    simp only [step, point] at ran
    split at ran
    · cases ran
    · cases ran
      refine ⟨mapping_reaches found unmeasured (by simp [good]), rfl, fun rewrites => absurd rewrites undecided, ?_⟩
      exact fun locked => absurd locked (mapping_ne_dirty _)
    · split at ran
      · cases ran
      · rename_i outcome allowed
        cases ran
        refine ⟨?_, rfl, fun rewrites => absurd rewrites undecided, fun locked => absurd locked (mapping_ne_dirty _)⟩
        refine mapping_reaches (o := { o with outcome := some outcome }) found unmeasured fun resets => ?_
        cases resets
        exact dirtyOutcome_reset allowed
  | touch | resizeNew | mapNew =>
    rw [point] at consistent
    simp only [step, point, Stepped.running.injEq] at ran
    subst ran
    exact follows_next consistent (by simp) (by simp)
  | constructSegment =>
    rw [point] at consistent
    simp only [step, point] at ran
    cases throughMapping_ended ran (by simp)
    exact follows_next consistent (by simp) (by simp)
  | writeHeader | growSegment =>
    rw [point] at consistent
    simp only [step, point] at ran
    cases throughMapping_ended ran (by simp)
    exact follows_next consistent.1 (by simp) (by simp)
  | fileSize =>
    rw [point] at consistent
    simp only [step, point] at ran
    split at ran
    · rename_i smaller
      cases ran
      exact ⟨⟨consistent.1, by simp only; omega⟩, rfl, fun rewrites => ⟨by simp, .inr (.inr (by simp only; omega))⟩, by simp⟩
    · cases ran
      refine ⟨consistent.1, rfl, fun rewrites => ⟨by simp, ?_⟩, by simp⟩
      simpa [consistent.2] using rewrites.2
  | resizeOld =>
    rw [point] at consistent
    simp only [step, point, Stepped.running.injEq] at ran
    subst ran
    exact follows_next consistent.1 (by simp) (by simp)
  | mapOld =>
    rw [point] at consistent
    simp only [step, point, Stepped.running.injEq] at ran
    subst ran
    split
    · exact follows_next ⟨consistent, ‹_›⟩ (by simp) (by simp)
    · exact follows_next consistent (by simp) (by simp)
  | mapReadOnly => simp [step, point] at ran
  | tryLock =>
    rw [point] at consistent
    simp only [step, point] at ran
    split at ran
    · cases ran
      exact follows_next consistent (by simp) (fun _ => ⟨point, ‹_›⟩)
    · cases ran
  | dirty =>
    simp only [step, point] at ran
    cases throughMapping_ended ran (by simp)

omit [SegmentManager γ] in
theorem validateDbHeader_error {fpath : Path} {environment : Environment} {error : SystemError}
    (ran : validateDbHeader fpath environment file = .error error) :
    error.code = .badHeader ∨ error.code = .incorrectDbVersion ∨ error.code = .incompatible := by
  unfold validateDbHeader at ran
  split at ran
  · cases ran
    exact .inl rfl
  · split_ifs at ran
    · cases ran
      exact .inl rfl
    · cases ran
      exact .inr (.inl rfl)
    · cases ran
      exact .inr (.inr rfl)

omit [SegmentManager γ] in
theorem validateDbHeader_some {fpath : Path} {environment : Environment} {clean : Bool}
    (ran : validateDbHeader fpath environment file = .ok clean) : file.isSome := by
  cases file with
  | none => cases ran
  | some found => rfl

theorem dirtyOutcome_error {error : SystemError} (ran : o.dirtyOutcome = .error error) : error.code = .dirty := by
  unfold dirtyOutcome at ran
  split at ran
  · cases ran
  · split at ran
    · cases ran
    · cases ran
      rfl
  · cases ran
    rfl

theorem step_opened (ran : (o.step free file).1 = .opened later) :
    later = o ∧ (o.next = .dirty ∨ o.next = .mapReadOnly) := by
  cases point : o.next with
  | mapReadOnly =>
    simp only [step, point] at ran
    cases ran
    exact ⟨rfl, .inr rfl⟩
  | dirty =>
    simp only [step, point] at ran
    cases throughMapping_ended ran (by simp)
    exact ⟨rfl, .inl rfl⟩
  | constructSegment | writeHeader | growSegment =>
    simp only [step, point] at ran
    cases throughMapping_ended ran (by simp)
  | «exists» | validateDbHeader | touch | resizeNew | mapNew | fileSize | resizeOld | mapOld | tryLock =>
    simp only [step, point] at ran
    repeat' split at ran
    all_goals cases ran

theorem step_noAccess {error : SystemError} (ran : (o.step free file).1 = .threw error) (refused : error.code = .noAccess) :
    o.next = .tryLock ∧ free = false := by
  cases point : o.next with
  | tryLock =>
    simp only [step, point] at ran
    split at ran
    · cases ran
    · exact ⟨rfl, by simpa using ‹¬ free = true›⟩
  | constructSegment | writeHeader | growSegment | dirty =>
    simp only [step, point] at ran
    cases throughMapping_ended ran (by simp)
  | validateDbHeader =>
    simp only [step, point] at ran
    split at ran
    · rename_i invalid
      cases ran
      rcases validateDbHeader_error invalid with code | code | code <;> simp [code] at refused
    · cases ran
    · split at ran
      · rename_i found
        cases ran
        simp [dirtyOutcome_error found] at refused
      · cases ran
  | «exists» | touch | resizeNew | mapNew | fileSize | resizeOld | mapOld | mapReadOnly =>
    simp only [step, point] at ran
    repeat' split at ran
    all_goals cases ran
    all_goals simp [SystemError.throwError] at refused

/-- The file changes only in the hands of a constructor that rewrites it or holds the lock. -/
theorem step_file (consistent : o.Consistent) :
    (o.step free file).2 = file ∨ o.next = .dirty ∨ (o.Rewrites ∧ o.next ≠ .mapNew ∧ o.next ≠ .mapOld) := by
  unfold Consistent at consistent
  cases point : o.next with
  | touch | resizeNew | constructSegment | writeHeader =>
    rw [point] at consistent
    exact .inr (.inr ⟨⟨by simp [point], consistent.2.imp id .inl⟩, by simp, by simp⟩)
  | resizeOld | growSegment =>
    rw [point] at consistent
    exact .inr (.inr ⟨⟨by simp [point], .inr (.inr consistent.2)⟩, by simp, by simp⟩)
  | dirty => exact .inr (.inl rfl)
  | «exists» | validateDbHeader | mapNew | fileSize | mapOld | mapReadOnly | tryLock =>
    left
    simp only [step, point]
    repeat' split
    all_goals rfl

/-! ## A call that nobody interferes with -/

def runAlone : Nat → Opening → Option (DbFile γ) → Stepped × Option (DbFile γ)
  | 0, o, file => (.running o, file)
  | n + 1, o, file =>
    match o.step true file with
    | (.running later, file) => runAlone n later file
    | ended => ended

/-- What a call finds the file to be when it reaches a point. -/
def Finds (o : Opening) (original file : Option (DbFile γ)) : Point → Prop
  | .exists | .mapReadOnly => file = original
  | .validateDbHeader => file = original
  | .fileSize => file = original ∧ file.isSome
  | .touch => True
  | .resizeNew | .resizeOld => file.isSome
  | .mapNew | .constructSegment | .writeHeader | .mapOld | .growSegment | .tryLock | .dirty =>
    ∃ found, file = some found ∧ o.size ≤ found.length

/-- How a call ends: with the file marked as dirty, or as it was. -/
def Ends (o : Opening) (original : Option (DbFile γ)) : Stepped × Option (DbFile γ) → Prop
  | (.running later, file) => later.args = o.args ∧ later.Finds original file later.next
  | (.opened later, file) => later.args = o.args ∧
    if o.writable then ∃ found, file = some found ∧ o.size ≤ found.length ∧ found.header.dirty = true else file = original
  | (.threw _, file) => file = original
  | (.killed, _) => False

theorem headerSize_lt_size (o : Opening) : headerSize < o.size := by
  simp only [headerSize, size, dbMinSize]
  omega

variable {original : Option (DbFile γ)}

omit [SegmentManager γ] in
theorem throughMapping_some {found : DbFile γ} (fits : headerSize < found.length) (write : DbFile γ → DbFile γ) (next : Stepped) :
    throughMapping (some found) write next = (next, some (write found)) := if_pos fits

omit [SegmentManager γ] in
theorem throughMapping_written {found : DbFile γ} (long : o.size ≤ found.length) (write : DbFile γ → DbFile γ) (next : Stepped) :
    throughMapping (some found) write next = (next, some (write found)) :=
  throughMapping_some (Nat.lt_of_lt_of_le o.headerSize_lt_size long) write next

omit [SegmentManager γ] in
theorem mapping_finds (found : file.isSome) (same : file = original) : o.Finds original file o.mapping := by
  unfold mapping
  split
  · trivial
  · split
    · exact ⟨same, found⟩
    · exact same

theorem step_ends (consistent : o.Consistent) (finds : o.Finds original file o.next) : o.Ends original (o.step true file) := by
  unfold Consistent at consistent
  cases point : o.next with
  | «exists» =>
    rw [point] at finds
    simp only [step, point]
    split
    · exact finds
    · split
      · exact ⟨rfl, finds⟩
      · exact ⟨rfl, trivial⟩
  | validateDbHeader =>
    rw [point] at finds
    simp only [step, point]
    split
    · exact finds
    · rename_i valid
      exact ⟨rfl, mapping_finds (validateDbHeader_some valid) finds⟩
    · rename_i valid
      split
      · exact finds
      · exact ⟨rfl, mapping_finds (validateDbHeader_some valid) finds⟩
  | touch =>
    simp only [step, point]
    exact ⟨rfl, rfl⟩
  | resizeNew | resizeOld =>
    rw [point] at finds
    obtain ⟨found, rfl⟩ := Option.isSome_iff_exists.mp finds
    simp only [step, point]
    exact ⟨rfl, found.resize o.size, rfl, Nat.le_refl _⟩
  | mapNew =>
    rw [point] at finds
    simp only [step, point]
    exact ⟨rfl, finds⟩
  | constructSegment | writeHeader | growSegment =>
    rw [point] at finds
    obtain ⟨found, rfl, long⟩ := finds
    simp only [step, point]
    rw [throughMapping_written long]
    exact ⟨rfl, _, rfl, long⟩
  | fileSize =>
    rw [point] at finds
    obtain ⟨rfl, present⟩ := finds
    obtain ⟨found, rfl⟩ := Option.isSome_iff_exists.mp present
    simp only [step, point]
    split
    · exact ⟨rfl, rfl⟩
    · rename_i long
      exact ⟨rfl, found, rfl, Nat.le_of_not_lt long⟩
  | mapOld =>
    rw [point] at finds
    simp only [step, point]
    split
    · exact ⟨rfl, finds⟩
    · exact ⟨rfl, finds⟩
  | mapReadOnly =>
    rw [point] at finds consistent
    simp only [step, point]
    refine ⟨rfl, ?_⟩
    rw [if_neg (by simp [show o.writable = false from consistent])]
    exact finds
  | tryLock =>
    rw [point] at finds
    simp only [step, point]
    exact ⟨rfl, finds⟩
  | dirty =>
    rw [point] at finds consistent
    obtain ⟨found, rfl, long⟩ := finds
    simp only [step, point]
    rw [throughMapping_written long]
    refine ⟨rfl, ?_⟩
    rw [if_pos (show o.writable = true from consistent)]
    exact ⟨_, rfl, long, rfl⟩

def left : Point → Nat
  | .exists => 9
  | .validateDbHeader => 8
  | .touch => 7
  | .resizeNew | .fileSize => 6
  | .mapNew | .resizeOld => 5
  | .constructSegment | .mapOld => 4
  | .writeHeader | .growSegment => 3
  | .tryLock => 2
  | .dirty | .mapReadOnly => 1

theorem left_mapping (o : Opening) : left o.mapping < left .validateDbHeader := by
  unfold mapping
  split
  · decide
  · split <;> decide

theorem step_left (ran : (o.step free file).1 = .running later) : left later.next < left o.next := by
  cases point : o.next with
  | validateDbHeader =>
    simp only [step, point] at ran
    split at ran
    · cases ran
    · cases ran
      exact left_mapping _
    · split at ran
      · cases ran
      · cases ran
        exact left_mapping _
  | constructSegment | writeHeader | growSegment | dirty =>
    simp only [step, point] at ran
    cases throughMapping_ended ran (by simp)
    all_goals simp [left]
  | mapOld =>
    simp only [step, point, Stepped.running.injEq] at ran
    subst ran
    split <;> simp [left]
  | «exists» | touch | resizeNew | mapNew | fileSize | resizeOld | mapReadOnly | tryLock =>
    simp only [step, point] at ran
    repeat' split at ran
    all_goals cases ran
    all_goals simp [left]

omit [SegmentManager γ] in
theorem Ends.of_args {ended : Stepped × Option (DbFile γ)} (ends : later.Ends original ended) (same : later.args = o.args) :
    o.Ends original ended := by
  obtain ⟨stepped, after⟩ := ended
  have writable : o.writable = later.writable := by rw [writable, writable, same]
  have size : o.size = later.size := by rw [size, size, same]
  cases stepped with
  | running last => exact ⟨ends.1.trans same, ends.2⟩
  | opened last =>
    refine ⟨ends.1.trans same, ?_⟩
    rw [writable, size]
    exact ends.2
  | threw error => exact ends
  | killed => exact ends

theorem runAlone_ends (n : Nat) (enough : left o.next ≤ n) (consistent : o.Consistent) (finds : o.Finds original file o.next) :
    o.Ends original (runAlone n o file) ∧ ∀ later, (runAlone n o file).1 ≠ .running later := by
  induction n generalizing o file with
  | zero => cases point : o.next <;> simp [point, left] at enough
  | succ n ih =>
    have ends := step_ends consistent finds
    cases ran : o.step true file with
    | mk stepped after =>
      rw [ran] at ends
      cases stepped with
      | running later =>
        have running : (o.step true file).1 = .running later := by rw [ran]
        have fewer := step_left running
        simp only [runAlone, ran]
        obtain ⟨rest, ended⟩ := ih (by omega) (step_running consistent running).consistent ends.2
        exact ⟨rest.of_args ends.1, ended⟩
      | opened later | threw error | killed =>
        simp only [runAlone, ran]
        exact ⟨ends, by simp⟩

def construct (args : OpenArgs) (file : Option (DbFile γ)) : Stepped × Option (DbFile γ) := runAlone 9 (begin args) file

/-- A call returns or throws, and leaves the file as it was if it throws or only reads. -/
theorem construct_cases (args : OpenArgs) (file : Option (DbFile γ)) :
    (∃ o after, construct args file = (.opened o, after) ∧ o.args = args ∧
      if o.writable then ∃ found, after = some found ∧ headerSize < found.length ∧ found.header.dirty = true else after = file) ∨
    ∃ error, construct args file = (.threw error, file) := by
  obtain ⟨ends, ended⟩ := @runAlone_ends γ _ (begin args) file file 9 (Nat.le_refl 9) (consistent_begin args) rfl
  change (begin args).Ends file (construct args file) at ends
  cases ran : construct args file with
  | mk stepped after =>
    rw [ran] at ends
    cases stepped with
    | running later => exact absurd (congrArg Prod.fst ran) (ended later)
    | opened o =>
      refine .inl ⟨o, after, rfl, ends.1, ?_⟩
      have writable : o.writable = (begin args).writable := by rw [writable, writable, ends.1]
      have left := ends.2
      rw [writable]
      split at left
      · rename_i writes
        obtain ⟨found, same, long, dirty⟩ := left
        rw [if_pos writes]
        exact ⟨found, same, Nat.lt_of_lt_of_le (headerSize_lt_size _) long, dirty⟩
      · rename_i reads
        rw [if_neg reads]
        exact left
    | threw error =>
      obtain rfl : after = file := ends
      exact .inr ⟨error, rfl⟩
    | killed => exact ends.elim

end Opening
end
end ChainBase
