import ChainBase.Database.Locking

/-! What the dirty flag tells the next constructor: that somebody has the database open
for writing, or was lost with it open. It is set and cleared through the mapping, which
constructors validate without the lock. -/

namespace ChainBase

def Handle.writing : Handle → Bool
  | .opened o => o.writable
  | .opening _ | .gone => false

/-- The flag of the file there is; a missing file has not been left by anybody. -/
def dirtyFlag {γ : Type} (file : Option (DbFile γ)) : Bool := file.any fun file => file.header.dirty

namespace Opening
variable {γ : Type} [SegmentManager γ] {o : Opening} (free : Bool) (file : Option (DbFile γ))

omit [SegmentManager γ] in
theorem throughMapping_flag (write : DbFile γ → DbFile γ) (next : Stepped) {flag : Bool}
    (sets : ∀ file, (write file).header.dirty = flag) :
    ((throughMapping file write next).1 = .killed ∧ (throughMapping file write next).2 = file) ∨
      ((throughMapping file write next).1 = next ∧ dirtyFlag (throughMapping file write next).2 = flag) := by
  unfold throughMapping
  split
  · exact .inl ⟨rfl, rfl⟩
  · split
    · exact .inr ⟨rfl, sets _⟩
    · exact .inl ⟨rfl, rfl⟩

omit [SegmentManager γ] in
theorem throughMapping_keeps {write : DbFile γ → DbFile γ} {next : Stepped}
    (keeps : ∀ file, (write file).header = file.header) :
    dirtyFlag (throughMapping file write next).2 = dirtyFlag file := by
  unfold throughMapping
  split
  · rfl
  · split
    · exact congrArg DbHeader.dirty (keeps _)
    · rfl

theorem step_dirty (point : o.next = .dirty) :
    ((o.step free file).1 = .killed ∧ (o.step free file).2 = file) ∨
      ((o.step free file).1 = .opened o ∧ dirtyFlag (o.step free file).2 = true) := by
  simp only [step, point]
  exact throughMapping_flag file _ _ fun _ => rfl

theorem step_replaces (point : o.next = .touch ∨ o.next = .writeHeader) :
    ((o.step free file).1 = .killed ∧ (o.step free file).2 = file) ∨
      ((∃ later, (o.step free file).1 = .running later) ∧ dirtyFlag (o.step free file).2 = false) := by
  rcases point with point | point
  · exact .inr ⟨⟨{ o with next := .resizeNew }, by simp [step, point]⟩, by simp [step, point, dirtyFlag, DbFile.truncated]⟩
  · simp only [step, point]
    apply (throughMapping_flag file _ _ _).imp_right
    · intro ended
      exact ⟨⟨_, ended.1⟩, ended.2⟩
    · exact fun _ => rfl

/-- Everywhere else the flag stays as it is, and no writable database is opened. -/
theorem step_others (consistent : o.Consistent) (dirty : o.next ≠ .dirty) (touch : o.next ≠ .touch)
    (writeHeader : o.next ≠ .writeHeader) : dirtyFlag (o.step free file).2 = dirtyFlag file ∧
      ∀ later, (o.step free file).1 = .opened later → later.writable = false := by
  unfold Consistent at consistent
  refine ⟨?_, fun later opened => ?_⟩
  · cases point : o.next with
    | dirty | touch | writeHeader => contradiction
    | constructSegment | growSegment =>
      simp only [step, point]
      exact throughMapping_keeps file fun _ => rfl
    | resizeNew | resizeOld => cases file <;> simp [step, point, dirtyFlag, DbFile.resize]
    | «exists» | validateDbHeader | mapNew | fileSize | mapOld | mapReadOnly | tryLock =>
      simp only [step, point]
      repeat' split
      all_goals rfl
  · obtain ⟨rfl, locked | reads⟩ := step_opened opened
    · exact absurd locked dirty
    · rw [reads] at consistent
      exact consistent

end Opening

namespace World
variable {γ : Type} [SegmentManager γ]

def heldElsewhere (w : World γ) (handle : Nat) : Bool :=
  w.handles.zipIdx.any fun ((_, state), i) => i ≠ handle && state.locks

def heldTwice (w : World γ) (handle process : Nat) : Bool :=
  w.handles.zipIdx.any fun ((owner, state), i) => i ≠ handle && owner = process && state.locks

/-- A constructor replaces the header only while no other handle has the lock; and a process
that has the lock with one handle does nothing with its others, as it would let go of the
lock with any file that it closes. -/
def Sole (w : World γ) : Event γ → Prop
  | .advance handle => ∀ process o, w.handles[handle]? = some (process, .opening o) →
      (o.next = .touch ∨ o.next = .writeHeader → w.heldElsewhere handle = false) ∧ w.heldTwice handle process = false
  | .interrupt handle | .close handle => ∀ process state, w.handles[handle]? = some (process, state) →
      w.heldTwice handle process = false
  | .start _ _ | .crash _ | .write _ _ => True

instance (w : World γ) : ∀ event, Decidable (w.Sole event)
  | .advance handle =>
    match found : w.handles[handle]? with
    | some (process, .opening o) =>
      decidable_of_iff ((o.next = .touch ∨ o.next = .writeHeader → w.heldElsewhere handle = false) ∧
        w.heldTwice handle process = false) (by simp [Sole, found])
    | none | some (_, .opened _) | some (_, .gone) => .isTrue (by simp [Sole, found])
  | .interrupt handle | .close handle =>
    match found : w.handles[handle]? with
    | some (process, _) => decidable_of_iff (w.heldTwice handle process = false) (by simp [Sole, found])
    | none => .isTrue (by simp [Sole, found])
  | .start _ _ | .crash _ | .write _ _ => .isTrue trivial

/-! ## What has been lost -/

def kills (w : World γ) : Event γ → Option Nat
  | .crash process => some process
  | .advance handle =>
    match w.handles[handle]? with
    | some (process, .opening o) => if (o.step (!w.lockedByOther process) w.file).1 = .killed then some process else none
    | _ => none
  | .close handle =>
    match w.handles[handle]? with
    | some (process, .opened o) =>
      if o.writable ∧ (throughMapping w.file (·.setDirty false) (.opened o)).1 = .killed then some process else none
    | _ => none
  | _ => none

/-- Whether an event replaces what is in the file, or is the end of all changes to it. -/
def settles (w : World γ) : Event γ → Bool
  | .advance handle =>
    match w.handles[handle]? with
    | some (_, .opening o) => o.next = .touch || o.next = .writeHeader
    | _ => false
  | .close handle =>
    match w.handles[handle]? with
    | some (_, .opened o) => o.writable
    | _ => false
  | _ => false

def writesIn (w : World γ) (process : Nat) : Bool := w.handles.any fun (owner, state) => owner = process && state.writing

/-- Whether the file has been left by a process that was lost with it open for writing. -/
def lostAfter (w : World γ) (lost : Bool) (event : Event γ) : Bool :=
  match w.kills event with
  | some process => lost || w.writesIn process
  | none => !w.settles event && lost

def lost (w : World γ) (before : Bool) : List (Event γ) → Bool
  | [] => before
  | event :: events => lost (w.step event).2 (w.lostAfter before event) events

def flag (w : World γ) : Bool := dirtyFlag w.file

/-! ## The invariant -/

def Written (w : World γ) : Prop := ∃ process state, (process, state) ∈ w.handles ∧ state.writing = true

def Lone (w : World γ) : Prop :=
  ∀ (i j : Nat) (p q : Nat) (h k : Handle), w.handles[i]? = some (p, h) → w.handles[j]? = some (q, k) →
    h.locks = true → k.locks = true → i = j

/-- The flag tells what has happened. -/
structure Truthful (w : World γ) (lost : Bool) : Prop where
  sound : w.Sound
  lone : w.Lone
  flag : w.flag = true ↔ lost = true ∨ w.Written

variable {w : World γ} {handle process : Nat} {old state : Handle}

omit [SegmentManager γ] in
theorem put_found (inside : handle < w.handles.length) (i : Nat) :
    (w.put handle process state).handles[i]? = if i = handle then some (process, state) else w.handles[i]? := by
  by_cases same : i = handle
  · subst same
    simp [put, inside]
  · simp [put, same, List.getElem?_set_ne (Ne.symm same)]

omit [SegmentManager γ] in
theorem written_iff : w.Written ↔ ∃ (i process : Nat) (state : Handle), w.handles[i]? = some (process, state) ∧ state.writing = true := by
  constructor
  · intro ⟨process, state, member, writes⟩
    obtain ⟨i, found⟩ := List.mem_iff_getElem?.mp member
    exact ⟨i, process, state, found, writes⟩
  · intro ⟨i, process, state, found, writes⟩
    exact ⟨process, state, List.mem_of_getElem? found, writes⟩

omit [SegmentManager γ] in
theorem written_put (found : w.handles[handle]? = some (process, old)) (before : old.writing = false)
    (now : state.writing = false) : (w.put handle process state).Written ↔ w.Written := by
  have inside := (List.getElem?_eq_some_iff.mp found).1
  simp only [written_iff, put_found inside]
  constructor
  · intro ⟨i, p, h, there, writes⟩
    split at there
    · cases there
      rw [now] at writes
      cases writes
    · exact ⟨i, p, h, there, writes⟩
  · intro ⟨i, p, h, there, writes⟩
    refine ⟨i, p, h, ?_, writes⟩
    rw [if_neg]
    · exact there
    · rintro rfl
      rw [found] at there
      cases there
      rw [before] at writes
      cases writes

omit [SegmentManager γ] in
theorem put_written (inside : handle < w.handles.length) (writes : state.writing = true) :
    (w.put handle process state).Written :=
  written_iff.mpr ⟨handle, process, state, by rw [put_found inside, if_pos rfl], writes⟩

omit [SegmentManager γ] in
theorem written_crash (w : World γ) (process : Nat) : w.writesIn process = true ∨ (w.crash process).Written ↔ w.Written := by
  constructor
  · rintro (own | ⟨p, h, member, writes⟩)
    · obtain ⟨⟨p, h⟩, member, same⟩ := List.any_eq_true.mp own
      simp only [Bool.and_eq_true, decide_eq_true_eq] at same
      exact ⟨p, h, member, same.2⟩
    · rcases mem_crash member with there | rfl
      · exact ⟨p, h, there, writes⟩
      · cases writes
  · intro ⟨p, h, member, writes⟩
    by_cases same : p = process
    · exact .inl (List.any_eq_true.mpr ⟨(p, h), member, by simp [same, writes]⟩)
    · refine .inr ⟨p, h, List.mem_map.mpr ⟨(p, h), member, ?_⟩, writes⟩
      simp only [if_neg same]

omit [SegmentManager γ] in
theorem Lone.put (lone : w.Lone) (inside : handle < w.handles.length)
    (only : state.locks = true → ∀ i p h, i ≠ handle → w.handles[i]? = some (p, h) → h.locks = false) :
    (w.put handle process state).Lone := by
  intro i j p q h k first second locks other
  rw [put_found inside] at first second
  split at first
  · rename_i here
    cases first
    split at second
    · rename_i there
      exact here.trans there.symm
    · rename_i apart
      rw [only locks j q k apart second] at other
      cases other
  · rename_i apart
    split at second
    · cases second
      rw [only other i p h apart first] at locks
      cases locks
    · exact lone i j p q h k first second locks other

omit [SegmentManager γ] in
theorem Lone.crash (lone : w.Lone) (process : Nat) : (w.crash process).Lone := by
  have before : ∀ (i p : Nat) (h : Handle), (w.crash process).handles[i]? = some (p, h) → h.locks = true →
      w.handles[i]? = some (p, h) := by
    intro i p h found locks
    simp only [World.crash, List.getElem?_map] at found
    obtain ⟨⟨owner, held⟩, there, same⟩ := Option.map_eq_some_iff.mp found
    cases same
    split at locks
    · cases locks
    · rename_i apart
      rw [there, if_neg apart]
  intro i j p q h k first second locks other
  exact lone i j p q h k (before i p h first locks) (before j q k second other) locks other

omit [SegmentManager γ] in
theorem Lone.others (lone : w.Lone) (found : w.handles[handle]? = some (process, old)) (locks : old.locks = true) :
    ∀ i p h, i ≠ handle → w.handles[i]? = some (p, h) → h.locks = false := by
  intro i p h apart there
  rw [Bool.eq_false_iff]
  intro taken
  exact apart (lone i handle p process h old there found taken locks)

omit [SegmentManager γ] in
theorem not_heldElsewhere (free : w.heldElsewhere handle = false) :
    ∀ i p h, i ≠ handle → w.handles[i]? = some (p, h) → h.locks = false := by
  intro i p h apart there
  rw [Bool.eq_false_iff]
  intro taken
  rw [heldElsewhere, Bool.eq_false_iff] at free
  apply free
  refine List.any_eq_true.mpr ⟨((p, h), i), List.mem_zipIdx_iff_getElem?.mpr there, ?_⟩
  simp [apart, taken]

omit [SegmentManager γ] in
theorem not_held (others : w.lockedByOther process = false) (own : w.heldTwice handle process = false) :
    ∀ i p h, i ≠ handle → w.handles[i]? = some (p, h) → h.locks = false := by
  intro i p h apart there
  rw [Bool.eq_false_iff]
  intro taken
  by_cases same : p = process
  · rw [heldTwice, Bool.eq_false_iff] at own
    apply own
    refine List.any_eq_true.mpr ⟨((p, h), i), List.mem_zipIdx_iff_getElem?.mpr there, ?_⟩
    simp [apart, taken, same]
  · rw [Bool.eq_false_iff] at others
    exact others (lockedByOther_iff.mpr ⟨p, h, List.mem_of_getElem? there, same, taken⟩)

omit [SegmentManager γ] in
theorem Sound.writing_locks (sound : w.Sound) (member : (process, state) ∈ w.handles) (writes : state.writing = true) :
    state.locks = true := by
  cases state with
  | opening o | gone => cases writes
  | opened o =>
    obtain ⟨consistent, ended⟩ := sound.sane process _ member
    rcases ended with locked | reads
    · simp [Handle.locks, locked]
    · unfold Opening.Consistent at consistent
      rw [reads] at consistent
      have unwritable : o.writable = false := consistent
      rw [show o.writable = true from writes] at unwritable
      cases unwritable

omit [SegmentManager γ] in
theorem Sound.unwritten (sound : w.Sound) (inside : handle < w.handles.length)
    (none : ∀ i p h, i ≠ handle → w.handles[i]? = some (p, h) → h.locks = false) (idle : state.writing = false) :
    ¬ (w.put handle process state).Written := by
  rw [written_iff]
  intro ⟨i, p, h, there, writes⟩
  rw [put_found inside] at there
  split at there
  · cases there
    rw [idle] at writes
    cases writes
  · rename_i apart
    have locks := sound.writing_locks (List.mem_of_getElem? there) writes
    rw [none i p h apart there] at locks
    cases locks

/-! ## One event -/

theorem Truthful.crash {lost : Bool} (truthful : w.Truthful lost) (process : Nat) :
    (w.crash process).Truthful (lost || w.writesIn process) where
  sound := truthful.sound.step (.crash process)
  lone := truthful.lone.crash process
  flag := by
    change w.flag = true ↔ _
    rw [truthful.flag, Bool.or_eq_true, or_assoc, written_crash]

omit [SegmentManager γ] in
theorem Truthful.put {lost : Bool} (truthful : w.Truthful lost) (sound : (w.put handle process state).Sound)
    (found : w.handles[handle]? = some (process, old)) (before : old.writing = false) (now : state.writing = false)
    (only : state.locks = true → ∀ i p h, i ≠ handle → w.handles[i]? = some (p, h) → h.locks = false) :
    (w.put handle process state).Truthful lost where
  sound
  lone := truthful.lone.put (List.getElem?_eq_some_iff.mp found).1 only
  flag := by
    change w.flag = true ↔ _
    rw [truthful.flag, written_put found before now]

omit [SegmentManager γ] in
theorem Truthful.congr {lost : Bool} {after : World γ} (truthful : w.Truthful lost) (handles : after.handles = w.handles)
    (flag : after.flag = w.flag) : after.Truthful lost where
  sound := ⟨by rw [handles]; exact truthful.sound.sane, by rw [handles]; exact truthful.sound.single⟩
  lone := by
    unfold Lone
    rw [handles]
    exact truthful.lone
  flag := by
    unfold Written
    rw [flag, handles]
    exact truthful.flag

omit [SegmentManager γ] in
theorem Truthful.conclude {lost : Bool} {o : Opening} {stepped : Stepped} (truthful : w.Truthful lost)
    (sound : (w.conclude handle process stepped).2.Sound) (found : w.handles[handle]? = some (process, .opening o))
    (alive : stepped ≠ .killed) (reads : ∀ later, stepped = .opened later → later.writable = false ∧ later.next ≠ .dirty)
    (only : ∀ later, stepped = .running later → later.next = .dirty →
      ∀ i p h, i ≠ handle → w.handles[i]? = some (p, h) → h.locks = false) :
    (w.conclude handle process stepped).2.Truthful lost := by
  cases stepped with
  | killed => exact absurd rfl alive
  | threw error => exact truthful.put sound found rfl rfl nofun
  | running later =>
    refine truthful.put sound found rfl rfl fun locks => only later rfl ?_
    simpa [Handle.locks] using locks
  | opened later =>
    obtain ⟨unwritable, unlocked⟩ := reads later rfl
    refine truthful.put sound found rfl unwritable fun locks => ?_
    exact absurd (by simpa [Handle.locks] using locks) unlocked

theorem Truthful.advance {lost : Bool} {o : Opening} (truthful : w.Truthful lost) (sole : w.Sole (.advance handle))
    (found : w.handles[handle]? = some (process, .opening o)) :
    (w.step (.advance handle)).2.Truthful (w.lostAfter lost (.advance handle)) := by
  have sound := truthful.sound.step (.advance handle)
  have inside := (List.getElem?_eq_some_iff.mp found).1
  have consistent : o.Consistent := truthful.sound.sane _ _ (List.mem_of_getElem? found)
  obtain ⟨replaces, takes⟩ := sole process o found
  simp only [World.step, found, lostAfter, kills, settles] at sound ⊢
  by_cases killed : (o.step (!w.lockedByOther process) w.file).1 = .killed
  · -- the flag is as it was, and so is the file but for what was behind the header
    have same : dirtyFlag (o.step (!w.lockedByOther process) w.file).2 = w.flag := by
      by_cases dirty : o.next = .dirty
      · rcases Opening.step_dirty (!w.lockedByOther process) w.file dirty with kept | ended
        · exact congrArg dirtyFlag kept.2
        · rw [killed] at ended
          cases ended.1
      · by_cases point : o.next = .touch ∨ o.next = .writeHeader
        · rcases Opening.step_replaces (!w.lockedByOther process) w.file point with kept | ⟨⟨later, running⟩, -⟩
          · exact congrArg dirtyFlag kept.2
          · rw [killed] at running
            cases running
        · rw [not_or] at point
          exact (Opening.step_others _ w.file consistent dirty point.1 point.2).1
    rw [if_pos killed, killed]
    have kept : Truthful { w with file := (o.step (!w.lockedByOther process) w.file).2 } lost := truthful.congr rfl same
    exact kept.crash process
  · rw [if_neg killed]
    by_cases dirty : o.next = .dirty
    · obtain ⟨opened, marked⟩ := (Opening.step_dirty (!w.lockedByOther process) w.file dirty).resolve_left fun kept => killed kept.1
      have writable : o.writable = true := by
        unfold Opening.Consistent at consistent
        rw [dirty] at consistent
        exact consistent
      rw [opened] at sound ⊢
      refine ⟨sound, truthful.lone.put inside fun _ => ?_, ?_⟩
      · exact truthful.lone.others found (by simp [Handle.locks, dirty])
      · exact iff_of_true marked (.inr (put_written inside writable))
    · by_cases point : o.next = .touch ∨ o.next = .writeHeader
      · obtain ⟨⟨later, running⟩, cleared⟩ :=
          (Opening.step_replaces (!w.lockedByOther process) w.file point).resolve_left fun kept => killed kept.1
        have none := not_heldElsewhere (replaces point)
        have settled : (decide (o.next = .touch) || decide (o.next = .writeHeader)) = true := by simpa using point
        rw [running] at sound ⊢
        simp only [settled, Bool.not_true, Bool.false_and]
        refine ⟨sound, truthful.lone.put inside fun _ => none, iff_of_false ?_ ?_⟩
        · rw [Bool.not_eq_true]
          exact cleared
        · rintro (impossible | written)
          · cases impossible
          · exact truthful.sound.unwritten inside none rfl written
      · have unsettled : (decide (o.next = .touch) || decide (o.next = .writeHeader)) = false := by simpa using point
        rw [not_or] at point
        obtain ⟨kept, reads⟩ := Opening.step_others (!w.lockedByOther process) w.file consistent dirty point.1 point.2
        have before : Truthful { w with file := (o.step (!w.lockedByOther process) w.file).2 } lost := truthful.congr rfl kept
        simp only [unsettled, Bool.not_false, Bool.true_and]
        refine before.conclude sound found killed ?_ ?_
        · intro later opened
          obtain ⟨rfl, -⟩ := Opening.step_opened opened
          exact ⟨reads later opened, dirty⟩
        · intro later running locked
          obtain ⟨-, others⟩ := (Opening.step_running consistent running).locked locked
          rw [Bool.not_eq_true'] at others
          exact not_held others takes

theorem Truthful.close {lost : Bool} {o : Opening} (truthful : w.Truthful lost)
    (found : w.handles[handle]? = some (process, .opened o)) :
    (w.step (.close handle)).2.Truthful (w.lostAfter lost (.close handle)) := by
  have sound := truthful.sound.step (.close handle)
  have inside := (List.getElem?_eq_some_iff.mp found).1
  have member := List.mem_of_getElem? found
  simp only [World.step, found, lostAfter, kills, settles, destroy] at sound ⊢
  cases writable : o.writable with
  | false =>
    simp only [writable, Bool.false_eq_true, if_false, false_and, Bool.not_false, Bool.true_and] at sound ⊢
    exact truthful.put sound found writable rfl (by simp [Handle.locks])
  | true =>
    have locks := truthful.sound.writing_locks member writable
    have none := truthful.lone.others found locks
    simp only [writable, if_true, true_and, Bool.not_true, Bool.false_and] at sound ⊢
    have cleared := Opening.throughMapping_flag w.file (·.setDirty false) (.opened o) fun _ => rfl
    revert sound cleared
    generalize throughMapping w.file (·.setDirty false) (.opened o) = result
    intro sound cleared
    obtain ⟨stepped, file⟩ := result
    rcases cleared with ⟨rfl, rfl⟩ | ⟨rfl, cleared⟩
    · exact truthful.crash process
    · refine ⟨sound, truthful.lone.put inside (by simp [Handle.locks]), iff_of_false ?_ ?_⟩
      · rw [Bool.not_eq_true]
        exact cleared
      · rintro (impossible | written)
        · cases impossible
        · exact truthful.sound.unwritten inside none rfl written

theorem Truthful.step {lost : Bool} (truthful : w.Truthful lost) (event : Event γ) (sole : w.Sole event) :
    (w.step event).2.Truthful (w.lostAfter lost event) := by
  have sound := truthful.sound.step event
  cases event with
  | start process args =>
    refine ⟨sound, ?_, ?_⟩
    · have before : ∀ (i p : Nat) (h : Handle), (w.handles ++ [(process, .opening (.begin args))])[i]? = some (p, h) →
          h.locks = true → w.handles[i]? = some (p, h) := by
        intro i p h found locks
        rw [List.getElem?_append] at found
        split at found
        · exact found
        · have new := List.mem_of_getElem? found
          rw [List.mem_singleton] at new
          cases new
          cases locks
      intro i j p q h k first second locks other
      exact truthful.lone i j p q h k (before i p h first locks) (before j q k second other) locks other
    · refine truthful.flag.trans (or_congr_right ⟨?_, ?_⟩)
      · rintro ⟨p, h, member, writes⟩
        exact ⟨p, h, List.mem_append_left _ member, writes⟩
      · rintro ⟨p, h, member, writes⟩
        rcases List.mem_append.mp member with there | new
        · exact ⟨p, h, there, writes⟩
        · rw [List.mem_singleton] at new
          cases new
          cases writes
  | advance handle =>
    cases found : w.handles[handle]? with
    | none => simpa [World.step, lostAfter, kills, settles, found] using truthful
    | some pair =>
      obtain ⟨process, state⟩ := pair
      cases state with
      | opening o => exact truthful.advance sole found
      | opened o | gone => simpa [World.step, lostAfter, kills, settles, found] using truthful
  | interrupt handle =>
    cases found : w.handles[handle]? with
    | none => simpa [World.step, lostAfter, kills, settles, found] using truthful
    | some pair =>
      obtain ⟨process, state⟩ := pair
      cases state with
      | opening o =>
        simp only [World.step, found] at sound ⊢
        exact truthful.put sound found rfl rfl (by simp [Handle.locks])
      | opened o | gone => simpa [World.step, lostAfter, kills, settles, found] using truthful
  | close handle =>
    cases found : w.handles[handle]? with
    | none => simpa [World.step, lostAfter, kills, settles, found] using truthful
    | some pair =>
      obtain ⟨process, state⟩ := pair
      cases state with
      | opened o => exact truthful.close found
      | opening o | gone => simpa [World.step, lostAfter, kills, settles, found] using truthful
  | crash process => exact truthful.crash process
  | write handle segment =>
    cases found : w.handles[handle]? with
    | none => simpa [World.step, lostAfter, kills, settles, found] using truthful
    | some pair =>
      obtain ⟨process, state⟩ := pair
      cases state with
      | opened o =>
        refine truthful.congr ?_ ?_
        · simp only [World.step, found]
          split <;> rfl
        · simp only [World.step, found]
          split
          · cases file : w.file <;> simp [World.flag, dirtyFlag, file]
          · rfl
      | opening o | gone => simpa [World.step, lostAfter, kills, settles, found] using truthful

theorem Truthful.run {lost : Bool} {events : List (Event γ)} (truthful : w.Truthful lost)
    (permitted : Run.Permitted stepped Sole w events) : (w.run events).Truthful (w.lost lost events) := by
  induction events generalizing w lost with
  | nil => exact truthful
  | cons event events ih => exact ih (truthful.step event permitted.1) (permitted.2 _ _ rfl)

omit [SegmentManager γ] in
theorem truthful_closed (file : Option (DbFile γ)) : Truthful ⟨file, []⟩ (dirtyFlag file) where
  sound := sound_closed file
  lone := by simp [Lone]
  flag := by simp [World.flag, Written]

theorem Truthful.learns {lost : Bool} (truthful : w.Truthful lost) {o later : Opening} {free : Bool}
    (found : w.handles[handle]? = some (process, .opening o)) (point : o.next = .validateDbHeader)
    (ran : (o.step free w.file).1 = .running later) : later.outcome = some .good ↔ ¬ (lost = true ∨ w.Written) := by
  have consistent : o.Consistent := truthful.sound.sane _ _ (List.mem_of_getElem? found)
  unfold Opening.Consistent at consistent
  rw [point] at consistent
  rw [← truthful.flag]
  simp only [Opening.step, point] at ran
  cases verdict : validateDbHeader o.args.fpath o.args.environment w.file with
  | error error =>
    rw [verdict] at ran
    cases ran
  | ok clean =>
    have told : w.flag = !clean := by
      unfold validateDbHeader at verdict
      split at verdict
      · cases verdict
      · rename_i file present
        split_ifs at verdict
        cases verdict
        simp [World.flag, dirtyFlag, present]
    cases clean with
    | true =>
      rw [verdict] at ran
      cases ran
      simp [told, consistent.2.1]
    | false =>
      simp only [verdict] at ran
      split at ran
      · cases ran
      · rename_i outcome allowed
        cases ran
        have other : outcome ≠ .good := by
          rintro rfl
          unfold Opening.dirtyOutcome at allowed
          split at allowed
          · cases allowed
          · split at allowed <;> cases allowed
          · cases allowed
        simp [told, other]

/-- At every point of a run the flag tells whether the file is in use or has been left by a
process that was lost, and a constructor that finds the file then takes it for a good one exactly
if it is neither. -/
def FlagTold (file : Option (DbFile γ)) (events : List (Event γ)) : Prop :=
  ∀ front back, events = front ++ back →
    let w := World.run ⟨file, []⟩ front
    let unfinished := World.lost ⟨file, []⟩ (dirtyFlag file) front = true ∨ w.Written
    (w.flag = true ↔ unfinished) ∧
    ∀ (handle process : Nat) (o later : Opening), w.handles[handle]? = some (process, .opening o) →
      o.next = .validateDbHeader → (o.step (!w.lockedByOther process) w.file).1 = .running later →
      (later.outcome = some .good ↔ ¬ unfinished)

/-- Whatever the processes do, the flag is set as long as one of them has the database open for
writing, and from when that one is lost until the file is closed by another writer or made anew. -/
theorem dirty_flag_truthful (file : Option (DbFile γ)) (events : List (Event γ))
    (permitted : Run.Permitted stepped Sole ⟨file, []⟩ events) : FlagTold file events := by
  rintro front back rfl
  have first := Run.permitted_take permitted front.length
  rw [List.take_left] at first
  have truthful := (truthful_closed file).run first
  exact ⟨truthful.flag, fun handle process o later found point ran => truthful.learns found point ran⟩

/-- A second process meets the flag while the first writes; it resets the file when the first
has been lost, and closes it. -/
theorem dirty_flag_truthful_books : FlagTold none
    (.start 1 (booksArgs 0 .fail) :: advances 8 0 ++ .start 2 (booksArgs 0 .fail) :: advances 2 1 ++
      [.write 0 ⟨3072⟩, .crash 1, .start 2 (booksArgs 0 .reset)] ++ advances 9 2 ++ [.close 2]) :=
  dirty_flag_truthful none _ (by decide)

end World
end ChainBase
