import ChainBase.Database.Locking

/-! One path is opened again and again, with any sizes, and an open may be cut short
between two of its steps. The length of the file and the size of the segment are kept
apart and changed one after the other. -/

namespace ChainBase

/-- What the constructor relies on: a segment is as large as it is made, and grows by as
much as it is told to. -/
class LawfulSegmentManager (γ : Type) [SegmentManager γ] : Prop where
  getSize_construct (size : Nat) : SegmentManager.getSize (SegmentManager.construct size : γ) = size
  getSize_grow (segment : γ) (extra : Nat) :
    SegmentManager.getSize (SegmentManager.grow segment extra) = SegmentManager.getSize segment + extra

/-- One open, from the call of the constructor to the end of the database. Nothing that
is done with an open database changes the size of its segment. -/
structure Visit (γ : Type) [SegmentManager γ] where
  args : OpenArgs
  cut : Option Point
  use : γ → γ
  useSize : ∀ segment, SegmentManager.getSize (use segment) = SegmentManager.getSize segment
  closed : Bool

section
variable {γ : Type} [SegmentManager γ]

namespace DbFile

def Spanned (file : DbFile γ) : Prop := file.length = headerSize + SegmentManager.getSize file.segment

/-- A constructor may find the header to be that of a database. -/
def Headed (file : DbFile γ) : Prop := headerSize ≤ file.length ∧ file.header.id = headerId

end DbFile

def Whole (file : Option (DbFile γ)) : Prop := ∀ found, file = some found → found.Headed → found.Spanned

/-- The file is taken over as it is, but for being too small. -/
def Grows (args : OpenArgs) : Option (DbFile γ) → Prop
  | none => False
  | some found =>
    ((validateDbHeader args.fpath args.environment (some found)).toOption = some true ∨
      (validateDbHeader args.fpath args.environment (some found)).toOption = some false ∧ args.action = .allow) ∧
    found.length < max args.dbFileSize dbMinSize

instance (args : OpenArgs) : ∀ file : Option (DbFile γ), Decidable (Grows args file)
  | none => .isFalse id
  | some _ => inferInstanceAs (Decidable ((_ ∨ _ ∧ _) ∧ _))

theorem Whole.of_spanned {found : DbFile γ} (spanned : found.Spanned) : Whole (some found) := by
  rintro other same -
  cases same
  exact spanned

theorem Whole.of_headless {found : DbFile γ} (headless : found.header.id ≠ headerId) : Whole (some found) := by
  rintro other same headed
  cases same
  exact absurd headed.2 headless

namespace Opening

/-- The constructor, with the lock free, up to the step before which it is cut short. -/
def runUntil (cut : Option Point) : Nat → Opening → Option (DbFile γ) → Stepped × Option (DbFile γ)
  | 0, o, file => (.running o, file)
  | n + 1, o, file =>
    if cut = some o.next then (.running o, file)
    else
      match o.step true file with
      | (.running later, file) => runUntil cut n later file
      | ended => ended

/-- What a call that nobody interferes with finds the file to be when it reaches a point,
if it has been called on a whole one. -/
def Measures (o : Opening) (original file : Option (DbFile γ)) : Point → Prop
  | .exists | .validateDbHeader => file = original ∧ Whole file
  | .touch | .mapReadOnly => Whole file
  | .fileSize => file = original ∧ ∃ found, file = some found ∧ found.Spanned ∧
      (found.length < o.size → Grows o.args original)
  | .resizeOld => Grows o.args original ∧ ∃ found, file = some found ∧ found.Spanned ∧ found.length + o.grow = o.size
  | .mapOld => (o.grow ≠ 0 → Grows o.args original) ∧ ∃ found, file = some found ∧
      found.length = headerSize + SegmentManager.getSize found.segment + o.grow ∧ o.size ≤ found.length
  | .growSegment => Grows o.args original ∧ ∃ found, file = some found ∧
      found.length = headerSize + SegmentManager.getSize found.segment + o.grow ∧ o.size ≤ found.length
  | .resizeNew => ∃ found, file = some found ∧ found.length = 0 ∧ found.header.id ≠ headerId
  | .mapNew | .constructSegment => ∃ found, file = some found ∧ found.length = o.size ∧ found.header.id ≠ headerId
  | .writeHeader | .tryLock | .dirty => ∃ found, file = some found ∧ found.Spanned ∧ o.size ≤ found.length

/-- A call ends as it goes on: with a whole file unless it is cut short, and with one
that is large enough if it opens the database for writing. -/
def Concludes (o : Opening) (original : Option (DbFile γ)) : Stepped × Option (DbFile γ) → Prop
  | (.running later, file) => later.args = o.args ∧ later.Measures original file later.next
  | (.opened _, file) => Whole file ∧
    (o.writable = true → ∃ found, file = some found ∧ found.Spanned ∧ o.size ≤ found.length)
  | (.threw _, file) => Whole file
  | (.killed, file) => Whole file

variable {o later : Opening} {original file : Option (DbFile γ)}

omit [SegmentManager γ] in
theorem headed_of_valid {fpath : Path} {environment : Environment} {clean : Bool} {found : DbFile γ}
    (valid : validateDbHeader fpath environment (some found) = .ok clean) : found.Headed := by
  simp only [validateDbHeader] at valid
  split_ifs at valid with short wrong
  simp only [not_or, not_not] at wrong
  exact ⟨Nat.not_lt.mp short, wrong.1⟩

theorem mapping_measures {clean : Bool} (whole : Whole original)
    (valid : validateDbHeader o.args.fpath o.args.environment original = .ok clean)
    (accepted : clean = false → o.outcome ≠ some .reset → o.args.action = .allow) :
    o.Measures original original o.mapping := by
  obtain ⟨present, rfl⟩ := Option.isSome_iff_exists.mp (validateDbHeader_some valid)
  have spanned := whole present rfl (headed_of_valid valid)
  unfold mapping
  split
  · exact whole
  next kept =>
    split
    · refine ⟨rfl, present, rfl, spanned, ?_⟩
      intro small
      refine ⟨?_, small⟩
      rw [valid]
      cases clean with
      | true => exact .inl rfl
      | false =>
        refine .inr ⟨rfl, accepted rfl ?_⟩
        intro resets
        exact kept (.inr resets)
    · exact whole

theorem dirtyOutcome_allows {outcome : OpenOutcome} (ran : o.dirtyOutcome = .ok outcome) (keeps : outcome ≠ .reset) :
    o.args.action = .allow := by
  unfold dirtyOutcome at ran
  split at ran
  next allows => exact allows
  · split at ran
    · cases ran
      exact absurd rfl keeps
    · cases ran
  · cases ran

/-- What a call that is cut short leaves, unless it has enlarged the file and not yet
the segment. -/
theorem Measures.whole {point : Point} (measures : o.Measures original file point)
    (grown : Grows o.args original → point ≠ .mapOld ∧ point ≠ .growSegment) : Whole file := by
  cases point with
  | «exists» | validateDbHeader => exact measures.2
  | touch | mapReadOnly => exact measures
  | resizeNew | mapNew | constructSegment =>
    obtain ⟨found, rfl, -, headless⟩ := measures
    exact .of_headless headless
  | fileSize =>
    obtain ⟨-, found, rfl, spanned, -⟩ := measures
    exact .of_spanned spanned
  | resizeOld =>
    obtain ⟨-, found, rfl, spanned, -⟩ := measures
    exact .of_spanned spanned
  | mapOld =>
    obtain ⟨grows, found, rfl, spanned, -⟩ := measures
    have kept : o.grow = 0 := by
      by_contra more
      exact (grown (grows more)).1 rfl
    rw [kept, Nat.add_zero] at spanned
    exact .of_spanned spanned
  | growSegment => exact absurd rfl (grown measures.1).2
  | writeHeader | tryLock | dirty =>
    obtain ⟨found, rfl, spanned, -⟩ := measures
    exact .of_spanned spanned

omit [SegmentManager γ] in
theorem size_congr (same : later.args = o.args) : later.size = o.size ∧ later.writable = o.writable := by
  simp only [size, writable, same, and_self]

variable [LawfulSegmentManager γ]

theorem step_concludes (consistent : o.Consistent) (measures : o.Measures original file o.next) :
    o.Concludes original (o.step true file) := by
  unfold Consistent at consistent
  have large := o.headerSize_lt_size
  cases point : o.next with
  | «exists» =>
    rw [point] at measures
    simp only [step, point]
    split
    · exact measures.2
    · split
      · exact ⟨rfl, measures⟩
      · exact ⟨rfl, measures.2⟩
  | validateDbHeader =>
    rw [point] at measures
    obtain ⟨rfl, whole⟩ := measures
    simp only [step, point]
    split
    · exact whole
    next valid => exact ⟨rfl, mapping_measures whole valid (by simp)⟩
    next valid =>
      split
      · exact whole
      next outcome allowed =>
        refine ⟨rfl, mapping_measures (o := { o with outcome := some outcome }) whole valid ?_⟩
        intro _ kept
        exact dirtyOutcome_allows allowed fun resets => kept (congrArg some resets)
  | touch =>
    simp only [step, point]
    exact ⟨rfl, .truncated, rfl, rfl, show (0 : Nat) ≠ headerId by decide⟩
  | resizeNew =>
    rw [point] at measures
    obtain ⟨found, rfl, empty, headless⟩ := measures
    simp only [step, point]
    exact ⟨rfl, found.resize o.size, rfl, rfl, headless⟩
  | mapNew =>
    rw [point] at measures
    simp only [step, point]
    exact ⟨rfl, measures⟩
  | constructSegment =>
    rw [point] at measures
    obtain ⟨found, rfl, long, headless⟩ := measures
    simp only [step, point]
    rw [throughMapping_written (Nat.le_of_eq long.symm)]
    refine ⟨rfl, _, rfl, ?_, Nat.le_of_eq long.symm⟩
    simp only [DbFile.Spanned, LawfulSegmentManager.getSize_construct, long]
    omega
  | writeHeader =>
    rw [point] at measures
    obtain ⟨found, rfl, spanned, long⟩ := measures
    simp only [step, point]
    rw [throughMapping_written long]
    exact ⟨rfl, _, rfl, spanned, long⟩
  | fileSize =>
    rw [point] at measures
    obtain ⟨rfl, found, rfl, spanned, grows⟩ := measures
    simp only [step, point]
    split
    next small => exact ⟨rfl, grows small, found, rfl, spanned, Nat.add_sub_of_le (Nat.le_of_lt small)⟩
    next long => exact ⟨rfl, by simp, found, rfl, spanned, Nat.le_of_not_lt long⟩
  | resizeOld =>
    rw [point] at measures
    obtain ⟨grows, found, rfl, spanned, grown⟩ := measures
    simp only [step, point]
    refine ⟨rfl, fun _ => grows, found.resize o.size, rfl, ?_, Nat.le_refl _⟩
    have shorter : ¬ o.size < found.length := by omega
    simp only [DbFile.resize, if_neg shorter]
    rw [← grown, spanned]
  | mapOld =>
    rw [point] at measures
    obtain ⟨grows, found, rfl, spanned, long⟩ := measures
    simp only [step, point]
    split
    next grown => exact ⟨rfl, grows grown, found, rfl, spanned, long⟩
    next kept =>
      simp only [not_not] at kept
      rw [kept, Nat.add_zero] at spanned
      exact ⟨rfl, found, rfl, spanned, long⟩
  | growSegment =>
    rw [point] at measures
    obtain ⟨-, found, rfl, spanned, long⟩ := measures
    simp only [step, point]
    rw [throughMapping_written long]
    refine ⟨rfl, _, rfl, ?_, long⟩
    simp only [DbFile.Spanned, LawfulSegmentManager.getSize_grow, spanned]
    omega
  | mapReadOnly =>
    rw [point] at measures consistent
    simp only [step, point]
    refine ⟨measures, fun writes => ?_⟩
    rw [show o.writable = false from consistent] at writes
    cases writes
  | tryLock =>
    rw [point] at measures
    simp only [step, point]
    exact ⟨rfl, measures⟩
  | dirty =>
    rw [point] at measures
    obtain ⟨found, rfl, spanned, long⟩ := measures
    simp only [step, point]
    rw [throughMapping_written long]
    exact ⟨.of_spanned spanned, fun _ => ⟨_, rfl, spanned, long⟩⟩

omit [LawfulSegmentManager γ] in
theorem Concludes.of_args {ended : Stepped × Option (DbFile γ)} (concludes : later.Concludes original ended)
    (same : later.args = o.args) : o.Concludes original ended := by
  obtain ⟨stepped, after⟩ := ended
  obtain ⟨size, writable⟩ := size_congr same
  cases stepped with
  | running last => exact ⟨concludes.1.trans same, concludes.2⟩
  | opened last =>
    refine ⟨concludes.1, ?_⟩
    rw [← size, ← writable]
    exact concludes.2
  | threw error => exact concludes
  | killed => exact concludes

theorem runUntil_concludes (cut : Option Point) (n : Nat) (enough : left o.next ≤ n) (consistent : o.Consistent)
    (measures : o.Measures original file o.next) :
    o.Concludes original (runUntil cut n o file) ∧ ∀ later, (runUntil cut n o file).1 = .running later → cut = some later.next := by
  induction n generalizing o file with
  | zero => cases point : o.next <;> simp [point, left] at enough
  | succ n ih =>
    unfold runUntil
    by_cases here : cut = some o.next
    · rw [if_pos here]
      refine ⟨⟨rfl, measures⟩, ?_⟩
      intro later same
      cases same
      exact here
    · rw [if_neg here]
      have concludes := step_concludes consistent measures
      cases ran : o.step true file with
      | mk stepped after =>
        rw [ran] at concludes
        cases stepped with
        | running later =>
          have running : (o.step true file).1 = .running later := by rw [ran]
          have fewer := step_left running
          obtain ⟨rest, ended⟩ := ih (by omega) (step_running consistent running).consistent concludes.2
          exact ⟨rest.of_args concludes.1, ended⟩
        | opened later | threw error | killed => exact ⟨concludes, by simp⟩

end Opening

/-! ## Histories of one path -/

namespace Visit

def construct (visit : Visit γ) (file : Option (DbFile γ)) : Stepped × Option (DbFile γ) :=
  Opening.runUntil visit.cut 9 (.begin visit.args) file

/-- What an open database leaves: the destructor of a writable one marks it as clean. -/
def leave (visit : Visit γ) (o : Opening) (file : DbFile γ) : DbFile γ :=
  let used := { file with segment := visit.use file.segment }
  if o.writable then if visit.closed then used.setDirty false else used else file

def step (file : Option (DbFile γ)) (visit : Visit γ) : Option (Stepped × Option (DbFile γ)) :=
  match visit.construct file with
  | (.opened o, after) => some (.opened o, after.map (visit.leave o))
  | ended => some ended

/-- If the database is opened for writing, the segment spans the file, and the file is
as large as it has been asked for and as it has to be. -/
def Spans (file : Option (DbFile γ)) (visit : Visit γ) : Prop :=
  ∀ o after, visit.construct file = (.opened o, after) → visit.args.mode ≠ .readOnly →
    ∃ found, after = some found ∧ SegmentManager.getSize found.segment = found.length - headerSize ∧
      visit.args.dbFileSize ≤ found.length ∧ dbMinSize ≤ found.length

/-- The constructor is not cut short after it has enlarged an existing file and before
the segment has grown. -/
def Uncut (file : Option (DbFile γ)) (visit : Visit γ) : Prop :=
  Grows visit.args file → visit.cut ≠ some .mapOld ∧ visit.cut ≠ some .growSegment

instance (file : Option (DbFile γ)) (visit : Visit γ) : Decidable (Uncut file visit) :=
  inferInstanceAs (Decidable (_ → _ ∧ _))

variable {visit : Visit γ} {file after : Option (DbFile γ)} {stepped : Stepped}

theorem leave_whole (visit : Visit γ) (o : Opening) (whole : Whole file) : Whole (file.map (visit.leave o)) := by
  rintro other same ⟨long, headed⟩
  obtain ⟨found, rfl, rfl⟩ := Option.map_eq_some_iff.mp same
  unfold leave at long headed ⊢
  by_cases writes : o.writable = true
  · rw [if_pos writes] at long headed ⊢
    have spanned : found.Spanned := by
      apply whole found rfl
      constructor
      · split at long <;> exact long
      · split at headed <;> exact headed
    split <;> simpa only [DbFile.Spanned, DbFile.setDirty, visit.useSize] using spanned
  · rw [if_neg writes] at long headed ⊢
    exact whole found rfl ⟨long, headed⟩

variable [LawfulSegmentManager γ]

theorem construct_concludes (visit : Visit γ) (whole : Whole file) :
    (Opening.begin visit.args).Concludes file (visit.construct file) ∧
      ∀ later, (visit.construct file).1 = .running later → visit.cut = some later.next :=
  Opening.runUntil_concludes visit.cut 9 (Nat.le_refl 9) (Opening.consistent_begin visit.args) ⟨rfl, whole⟩

theorem spans (visit : Visit γ) (whole : Whole file) : visit.Spans file := by
  intro o after ran writes
  have concludes := (construct_concludes visit whole).1
  rw [ran] at concludes
  obtain ⟨found, same, spanned, long⟩ := concludes.2 (decide_eq_true writes)
  refine ⟨found, same, ?_, ?_⟩
  · rw [show found.length = _ from spanned]
    omega
  · exact ⟨Nat.le_trans (Nat.le_max_left _ _) long, Nat.le_trans (Nat.le_max_right _ _) long⟩

theorem step_whole (whole : Whole file) (uncut : visit.Uncut file) (ran : visit.step file = some (stepped, after)) :
    Whole after := by
  obtain ⟨concludes, ended⟩ := construct_concludes visit whole
  unfold step at ran
  cases result : visit.construct file with
  | mk reached left =>
    rw [result] at ran concludes ended
    cases reached with
    | opened o =>
      cases ran
      exact leave_whole visit o concludes.1
    | running later =>
      cases ran
      obtain ⟨same, measures⟩ := concludes
      apply measures.whole
      intro grows
      rw [same] at grows
      have apart := uncut grows
      rw [ended later rfl] at apart
      exact ⟨fun here => apart.1 (congrArg some here), fun here => apart.2 (congrArg some here)⟩
    | threw error | killed =>
      cases ran
      exact concludes

/-- In every history of one path, which may have been cut short anywhere but between the
growth of the file and that of the segment, every database that is opened for writing has
a segment that spans its file. -/
theorem segment_spans_file (history : List (Visit γ)) (uncut : Run.Permitted step Uncut none history) :
    Run.Permitted step Spans none history := by
  have fresh : Whole (none : Option (DbFile γ)) := by
    rintro found same
    cases same
  refine Run.permitted_mono ?_ ?_ fresh uncut
  · intro file visit whole _
    exact spans visit whole
  · intro file visit stepped after whole uncut ran
    exact step_whole whole uncut ran

end Visit
end

instance : LawfulSegmentManager BareSegment where
  getSize_construct _ := rfl
  getSize_grow _ _ := rfl

namespace Visit

def books (dbFileSize : Nat) (action : DirtyAction) (cut : Option Point) (closed : Bool) : Visit BareSegment :=
  ⟨World.booksArgs dbFileSize action, cut, id, fun _ => rfl, closed⟩

theorem segment_spans_file_books : Run.Permitted step Spans none
    [books 0 .fail (some .tryLock) true, books 8192 .fail (some .tryLock) true, books 5000 .fail none false,
      books 0 .fail none true, books 9000 .reset none true] :=
  segment_spans_file _ (by decide)

/-- A crash after the file has been enlarged leaves a segment that no later open enlarges. -/
theorem segment_left_behind : ¬ Run.Permitted step Spans none
    [books 0 .fail none true, books 8192 .fail (some .growSegment) true, books 8192 .fail none true] := by
  intro permitted
  have spans := ((permitted.2 _ _ rfl).2 _ _ rfl).1
  obtain ⟨found, same, size, -⟩ := spans _ _ rfl (by decide)
  cases same
  revert size
  decide

end Visit
end ChainBase
