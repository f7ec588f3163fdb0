import ChainBase.Database.Opening
import ChainBase.Library.Run

/-! Any number of processes open one database file, close it and crash. The file lock
belongs to a process from the step that takes it until the handle is closed. A lock of
the POSIX kind also ends when its process closes the file with another handle; that is
not modelled here, and what is said of the flag leaves such events out. -/

namespace ChainBase

inductive Handle where
  | opening (o : Opening)
  | opened (o : Opening)
  | gone
deriving DecidableEq, Repr

/-- The file, and every handle with the process it belongs to. -/
structure World (γ : Type) where
  file : Option (DbFile γ)
  handles : List (Nat × Handle)

/-- `interrupt` is any exception that a step of the constructor may meet: of the file
system, of the mapping or of an allocation. `write` is what the containers of an open
database do to its memory. -/
inductive Event (γ : Type) where
  | start (process : Nat) (args : OpenArgs)
  | advance (handle : Nat)
  | interrupt (handle : Nat)
  | close (handle : Nat)
  | crash (process : Nat)
  | write (handle : Nat) (segment : γ)

def Handle.locks : Handle → Bool
  | .opening o | .opened o => o.next = .dirty
  | .gone => false

namespace World
variable {γ : Type} [SegmentManager γ]

def put (w : World γ) (handle process : Nat) (state : Handle) : World γ :=
  { w with handles := w.handles.set handle (process, state) }

def crash (w : World γ) (process : Nat) : World γ :=
  { w with handles := w.handles.map fun (owner, state) => (owner, if owner = process then .gone else state) }

/-- `try_lock` would fail: another process has taken the lock with a handle that is still there. -/
def lockedByOther (w : World γ) (process : Nat) : Bool :=
  w.handles.any fun (owner, state) => owner ≠ process && state.locks

/-- What a step of the constructor makes of its handle, and the exception it ends in. -/
def conclude (w : World γ) (handle process : Nat) : Stepped → Option SystemError × World γ
  | .running later => (none, w.put handle process (.opening later))
  | .opened later => (none, w.put handle process (.opened later))
  | .threw error => (some error, w.put handle process .gone)
  | .killed => (none, w.crash process)

/-- The destructor: `flush`, if the database is writable. -/
def destroy (w : World γ) (handle process : Nat) (o : Opening) : World γ :=
  if o.writable then
    match throughMapping w.file (·.setDirty false) (.opened o) with
    | (.killed, file) => { w with file }.crash process
    | (_, file) => { w with file }.put handle process .gone
  else w.put handle process .gone

/-- One event, and the exception that the constructor throws in it. -/
def step (w : World γ) : Event γ → Option SystemError × World γ
  | .start process args => (none, { w with handles := w.handles ++ [(process, .opening (.begin args))] })
  | .advance handle =>
    match w.handles[handle]? with
    | some (process, .opening o) =>
      let (stepped, file) := o.step (!w.lockedByOther process) w.file
      { w with file }.conclude handle process stepped
    | _ => (none, w)
  | .interrupt handle =>
    match w.handles[handle]? with
    | some (process, .opening _) => (none, w.put handle process .gone)
    | _ => (none, w)
  | .close handle =>
    match w.handles[handle]? with
    | some (process, .opened o) => (none, w.destroy handle process o)
    | _ => (none, w)
  | .crash process => (none, w.crash process)
  | .write handle segment =>
    match w.handles[handle]? with
    | some (_, .opened o) => (none, if o.writable then { w with file := w.file.map ({ · with segment }) } else w)
    | _ => (none, w)

def run (w : World γ) (events : List (Event γ)) : World γ := (Run.follow step w events).2

def actor (w : World γ) : Event γ → Option Nat
  | .start process _ | .crash process => some process
  | .advance handle | .interrupt handle | .close handle | .write handle _ => w.handles[handle]?.map Prod.fst

/-! ## What the lock is for -/

/-- No step of this handle's constructor changes the file. -/
def Untouched (handle : Nat) : World γ → List (Event γ) → Prop
  | _, [] => True
  | w, event :: events =>
    (event = .advance handle → (w.step event).2.file = w.file) ∧ Untouched handle (w.step event).2 events

/-- Nothing a process does changes the file while another one holds the lock, and a
constructor that is refused the lock has not changed it. -/
def Respected (w : World γ) (events : List (Event γ)) : Prop :=
  ∀ front event back, events = front ++ event :: back →
    let before := w.run front
    (∀ process, before.actor event = some process → before.lockedByOther process = true →
      (before.step event).2.file = before.file) ∧
    ∀ handle error, event = .advance handle → (before.step event).1 = some error → error.code = .noAccess →
      Untouched handle w (front ++ [event])

/-- A constructor that creates, resets or enlarges the file works on it and tries the
lock only while no other process holds the lock. -/
def Alone (w : World γ) : Event γ → Prop
  | .advance handle => ∀ process o, w.handles[handle]? = some (process, .opening o) → o.Rewrites →
      o.next ≠ .mapNew → o.next ≠ .mapOld → w.lockedByOther process = false
  | _ => True

instance (w : World γ) : ∀ event, Decidable (w.Alone event)
  | .advance handle =>
    match found : w.handles[handle]? with
    | some (process, .opening o) =>
      decidable_of_iff (o.Rewrites → o.next ≠ .mapNew → o.next ≠ .mapOld → w.lockedByOther process = false)
        (by simp [Alone, found])
    | none | some (_, .opened _) | some (_, .gone) => .isTrue (by simp [Alone, found])
  | .start _ _ | .interrupt _ | .close _ | .crash _ | .write _ _ => .isTrue trivial

/-! ## The invariant -/

end World

/-- An open database has the lock, or is only read. -/
def Handle.Sane : Handle → Prop
  | .opening o => o.Consistent
  | .opened o => o.Consistent ∧ (o.next = .dirty ∨ o.next = .mapReadOnly)
  | .gone => True

def Stepped.handle : Stepped → Handle
  | .running later => .opening later
  | .opened later => .opened later
  | .threw _ | .killed => .gone

namespace World
variable {γ : Type} [SegmentManager γ]

structure Sound (w : World γ) : Prop where
  sane : ∀ process state, (process, state) ∈ w.handles → state.Sane
  /-- Handles that have the lock belong to one process. -/
  single : ∀ p q h k, (p, h) ∈ w.handles → (q, k) ∈ w.handles → h.locks = true → k.locks = true → p = q

variable {w : World γ}

omit [SegmentManager γ] in
theorem sound_closed (file : Option (DbFile γ)) : Sound ⟨file, []⟩ := ⟨by simp, by simp⟩

omit [SegmentManager γ] in
theorem lockedByOther_iff {process : Nat} :
    w.lockedByOther process = true ↔ ∃ q k, (q, k) ∈ w.handles ∧ q ≠ process ∧ k.locks = true := by
  simp [lockedByOther]

omit [SegmentManager γ] in
theorem Sound.alone (sound : w.Sound) {process : Nat} {state : Handle} (member : (process, state) ∈ w.handles)
    (locks : state.locks = true) : w.lockedByOther process = false := by
  rw [Bool.eq_false_iff]
  intro others
  obtain ⟨q, k, other, apart, taken⟩ := lockedByOther_iff.mp others
  exact apart (sound.single q process k state other member taken locks)

omit [SegmentManager γ] in
/-- One process has changed one of its handles, and has the lock after that only if no
other process had it before. -/
theorem Sound.update (sound : w.Sound) {after : World γ} (process : Nat)
    (changes : ∀ q k, (q, k) ∈ after.handles → (q, k) ∈ w.handles ∨ k = .gone ∨
      (q = process ∧ k.Sane ∧ (k.locks = true → w.lockedByOther process = false))) : after.Sound := by
  have held {p q : Nat} {h k : Handle} (old : (p, h) ∈ w.handles) (taken : h.locks = true)
      (new : q = process ∧ k.Sane ∧ (k.locks = true → w.lockedByOther process = false)) (locks : k.locks = true) :
      p = q := by
    by_contra apart
    have free := new.2.2 locks
    rw [Bool.eq_false_iff] at free
    exact free (lockedByOther_iff.mpr ⟨p, h, old, new.1 ▸ apart, taken⟩)
  refine ⟨fun q k member => ?_, fun p q h k first second taken locks => ?_⟩
  · rcases changes q k member with old | rfl | new
    · exact sound.sane q k old
    · trivial
    · exact new.2.1
  · rcases changes p h first with old | rfl | new
    · rcases changes q k second with other | rfl | fresh
      · exact sound.single p q h k old other taken locks
      · cases locks
      · exact held old taken fresh locks
    · cases taken
    · rcases changes q k second with other | rfl | fresh
      · exact (held other locks new taken).symm
      · cases locks
      · rw [new.1, fresh.1]

omit [SegmentManager γ] in
theorem mem_put {handle process q : Nat} {state k : Handle} (member : (q, k) ∈ (w.put handle process state).handles) :
    (q, k) ∈ w.handles ∨ (q = process ∧ k = state) := by
  rcases List.mem_or_eq_of_mem_set member with old | new
  · exact .inl old
  · cases new
    exact .inr ⟨rfl, rfl⟩

omit [SegmentManager γ] in
theorem mem_crash {process q : Nat} {k : Handle} (member : (q, k) ∈ (w.crash process).handles) :
    (q, k) ∈ w.handles ∨ k = .gone := by
  obtain ⟨⟨p, h⟩, old, same⟩ := List.mem_map.mp member
  cases same
  split
  · exact .inr rfl
  · exact .inl old

omit [SegmentManager γ] in
theorem mem_conclude {handle process q : Nat} {stepped : Stepped} {k : Handle}
    (member : (q, k) ∈ (w.conclude handle process stepped).2.handles) :
    (q, k) ∈ w.handles ∨ k = .gone ∨ (q = process ∧ k = stepped.handle) := by
  cases stepped with
  | running later | opened later => exact (mem_put member).imp_right .inr
  | threw error => exact (mem_put member).imp_right (.inl ∘ And.right)
  | killed => exact (mem_crash member).imp_right .inl

omit [SegmentManager γ] in
theorem mem_destroy {handle process q : Nat} {o : Opening} {k : Handle}
    (member : (q, k) ∈ (w.destroy handle process o).handles) : (q, k) ∈ w.handles ∨ k = .gone := by
  unfold destroy at member
  split at member
  · split at member
    · exact mem_crash member
    · exact (mem_put member).imp_right And.right
  · exact (mem_put member).imp_right And.right

theorem Sound.step (sound : w.Sound) (event : Event γ) : (w.step event).2.Sound := by
  cases event with
  | start process args =>
    refine sound.update process fun q k member => ?_
    rcases List.mem_append.mp member with old | new
    · exact .inl old
    · rw [List.mem_singleton] at new
      cases new
      exact .inr (.inr ⟨rfl, Opening.consistent_begin args, by simp [Handle.locks, Opening.begin]⟩)
  | advance handle =>
    simp only [World.step]
    split
    · rename_i process o found
      have consistent := sound.sane process _ (List.mem_of_getElem? found)
      refine sound.update process fun q k member => (mem_conclude member).imp_right (Or.imp_right ?_)
      rintro ⟨rfl, rfl⟩
      refine ⟨rfl, ?_⟩
      cases ran : (o.step (!w.lockedByOther q) w.file).1 with
      | running later =>
        have follows := Opening.step_running consistent ran
        refine ⟨follows.consistent, fun locks => ?_⟩
        simpa using (follows.locked (by simpa [Stepped.handle, Handle.locks] using locks)).2
      | opened later =>
        obtain ⟨rfl, ended⟩ := Opening.step_opened ran
        refine ⟨⟨consistent, ended⟩, fun locks => ?_⟩
        exact sound.alone (List.mem_of_getElem? found) locks
      | threw error | killed => exact ⟨trivial, nofun⟩
    · exact sound
  | interrupt handle =>
    simp only [World.step]
    split
    · exact sound.update 0 fun q k member => (mem_put member).imp_right (.inl ∘ And.right)
    · exact sound
  | close handle =>
    simp only [World.step]
    split
    · exact sound.update 0 fun q k member => (mem_destroy member).imp_right .inl
    · exact sound
  | crash process => exact sound.update process fun q k member => (mem_crash member).imp_right .inl
  | write handle segment =>
    simp only [World.step]
    split
    · split
      · exact sound.update 0 fun q k member => .inl member
      · exact sound
    · exact sound

omit [SegmentManager γ] in
/-- A writable database is closed and written to only with the lock. -/
theorem Sound.writes (sound : w.Sound) {handle process : Nat} {o : Opening}
    (found : w.handles[handle]? = some (process, .opened o)) (writable : o.writable = true) :
    w.lockedByOther process = false := by
  have member := List.mem_of_getElem? found
  obtain ⟨consistent, ended⟩ := sound.sane process _ member
  rcases ended with locked | reads
  · exact sound.alone member (by simpa [Handle.locks] using locked)
  · unfold Opening.Consistent at consistent
    rw [reads] at consistent
    simp [Opening.Reaches, writable] at consistent

omit [SegmentManager γ] in
theorem Sound.readOnly (sound : w.Sound) {handle process : Nat} {o : Opening}
    (found : w.handles[handle]? = some (process, .opened o)) (locked : w.lockedByOther process = true) : ¬ o.writable = true := by
  intro writable
  rw [sound.writes found writable] at locked
  cases locked

omit [SegmentManager γ] in
@[simp] theorem conclude_file (handle process : Nat) (stepped : Stepped) :
    (w.conclude handle process stepped).2.file = w.file := by
  cases stepped <;> rfl

theorem Sound.advance_file (sound : w.Sound) {handle process : Nat} {o : Opening}
    (found : w.handles[handle]? = some (process, .opening o)) (alone : w.Alone (.advance handle))
    (locked : w.lockedByOther process = true) (free : Bool) : (o.step free w.file).2 = w.file := by
  have member := List.mem_of_getElem? found
  rcases Opening.step_file (γ := γ) (sound.sane process _ member) with same | held | ⟨rewrites, new, old⟩
  · exact same
  · have free := sound.alone member (by simpa [Handle.locks] using held)
    rw [locked] at free
    cases free
  · have free := alone process o found rewrites new old
    rw [locked] at free
    cases free

theorem Sound.step_file (sound : w.Sound) {event : Event γ} (alone : w.Alone event) {process : Nat}
    (acts : w.actor event = some process) (locked : w.lockedByOther process = true) :
    (w.step event).2.file = w.file := by
  cases event with
  | start | crash => rfl
  | advance handle =>
    simp only [World.step]
    split
    · rename_i owner o found
      obtain rfl : owner = process := by simpa [actor, found] using acts
      rw [conclude_file]
      exact sound.advance_file found alone locked _
    · rfl
  | interrupt handle =>
    simp only [World.step]
    split <;> rfl
  | close handle =>
    simp only [World.step]
    split
    · rename_i owner o found
      obtain rfl : owner = process := by simpa [actor, found] using acts
      rw [destroy, if_neg (sound.readOnly found locked)]
      rfl
    · rfl
  | write handle segment =>
    simp only [World.step]
    split
    · rename_i owner o found
      obtain rfl : owner = process := by simpa [actor, found] using acts
      rw [if_neg (sound.readOnly found locked)]
    · rfl

/-! ## Constructors that have changed the file -/

/-- The constructor of this handle is over, or has found that it rewrites the file. -/
def Marked (w : World γ) (handle : Nat) : Prop :=
  ∃ process state, w.handles[handle]? = some (process, state) ∧ ∀ o, state = .opening o → o.Rewrites

omit [SegmentManager γ] in
theorem marked_put {handle process : Nat} {state : Handle} (inside : handle < w.handles.length)
    (marked : ∀ o, state = .opening o → o.Rewrites) : (w.put handle process state).Marked handle :=
  ⟨process, state, by simp [put, inside], marked⟩

omit [SegmentManager γ] in
theorem Marked.put_other {handle other process : Nat} {state : Handle} (marked : w.Marked handle) (apart : other ≠ handle) :
    (w.put other process state).Marked handle := by
  obtain ⟨p, h, found, rewrites⟩ := marked
  exact ⟨p, h, by rwa [put, List.getElem?_set_ne apart], rewrites⟩

omit [SegmentManager γ] in
theorem Marked.put_gone {handle other process : Nat} (marked : w.Marked handle) :
    (w.put other process .gone).Marked handle := by
  by_cases same : other = handle
  · subst same
    obtain ⟨p, h, found, -⟩ := marked
    exact marked_put (List.getElem?_eq_some_iff.mp found).1 (by simp)
  · exact marked.put_other same

omit [SegmentManager γ] in
theorem Marked.crash {handle process : Nat} (marked : w.Marked handle) : (w.crash process).Marked handle := by
  obtain ⟨p, h, found, rewrites⟩ := marked
  refine ⟨p, if p = process then .gone else h, by simp [World.crash, found], fun o same => ?_⟩
  split at same
  · cases same
  · exact rewrites o same

omit [SegmentManager γ] in
theorem marked_conclude {handle process : Nat} {state : Handle} {stepped : Stepped}
    (found : w.handles[handle]? = some (process, state)) (rewrites : ∀ later, stepped = .running later → later.Rewrites) :
    (w.conclude handle process stepped).2.Marked handle := by
  have inside := (List.getElem?_eq_some_iff.mp found).1
  cases stepped with
  | running later => exact marked_put inside fun o same => by cases same; exact rewrites later rfl
  | opened later | threw error => exact marked_put inside (by simp)
  | killed => exact ⟨process, .gone, by simp [conclude, World.crash, found], by simp⟩

omit [SegmentManager γ] in
theorem Marked.conclude {handle other process : Nat} {stepped : Stepped} (marked : w.Marked handle)
    (apart : other ≠ handle) : (w.conclude other process stepped).2.Marked handle := by
  cases stepped with
  | running later | opened later | threw error => exact marked.put_other apart
  | killed => exact marked.crash

omit [SegmentManager γ] in
theorem Marked.destroy {handle other process : Nat} {o : Opening} (marked : w.Marked handle) :
    (w.destroy other process o).Marked handle := by
  unfold World.destroy
  split
  · split
    · exact marked.crash
    · exact marked.put_gone
  · exact marked.put_gone

theorem Marked.step {handle : Nat} (marked : w.Marked handle) (sound : w.Sound) (event : Event γ) :
    (w.step event).2.Marked handle := by
  cases event with
  | start process args =>
    obtain ⟨p, h, found, rewrites⟩ := marked
    exact ⟨p, h, by simp [World.step, List.getElem?_append_left (List.getElem?_eq_some_iff.mp found).1, found], rewrites⟩
  | advance other =>
    simp only [World.step]
    split
    · rename_i process o found
      by_cases same : other = handle
      · subst same
        obtain ⟨p, h, present, rewrites⟩ := marked
        rw [found] at present
        cases present
        refine marked_conclude found fun later ran => ?_
        exact (Opening.step_running (sound.sane _ _ (List.mem_of_getElem? found)) ran).rewrites (rewrites o rfl)
      · exact Marked.conclude marked same
    · exact marked
  | interrupt other =>
    simp only [World.step]
    split
    · exact marked.put_gone
    · exact marked
  | close other =>
    simp only [World.step]
    split
    · exact marked.destroy
    · exact marked
  | crash process => exact marked.crash
  | write other segment =>
    simp only [World.step]
    split
    · split
      · exact marked
      · exact marked
    · exact marked

theorem Sound.marked (sound : w.Sound) {handle : Nat} (changed : (w.step (.advance handle)).2.file ≠ w.file) :
    (w.step (.advance handle)).2.Marked handle := by
  simp only [World.step] at changed ⊢
  split at changed
  · rename_i process o found
    rw [conclude_file] at changed
    have consistent := sound.sane process _ (List.mem_of_getElem? found)
    refine marked_conclude found fun later ran => ?_
    rcases Opening.step_file (γ := γ) consistent with same | held | ⟨rewrites, -, -⟩
    · exact absurd same changed
    · simp only [Opening.step, held] at ran
      cases Opening.throughMapping_ended ran (by simp)
    · exact (Opening.step_running consistent ran).rewrites rewrites
  · exact absurd rfl changed

omit [SegmentManager γ] in
theorem conclude_threw {handle process : Nat} {stepped : Stepped} {error : SystemError}
    (threw : (w.conclude handle process stepped).1 = some error) : stepped = .threw error := by
  cases stepped with
  | running later | opened later | killed => cases threw
  | threw thrown =>
    cases threw
    rfl

theorem refused_at {handle : Nat} {error : SystemError} (threw : (w.step (.advance handle)).1 = some error)
    (refused : error.code = .noAccess) : ∃ process o, w.handles[handle]? = some (process, .opening o) ∧
      o.next = .tryLock ∧ w.lockedByOther process = true := by
  simp only [World.step] at threw
  split at threw
  · rename_i process o found
    obtain ⟨point, taken⟩ := Opening.step_noAccess (conclude_threw threw) refused
    exact ⟨process, o, found, point, by simpa using taken⟩
  · cases threw

/-- A constructor that has changed the file is not refused the lock. -/
theorem Marked.allowed {handle : Nat} (marked : w.Marked handle) (alone : w.Alone (.advance handle))
    {error : SystemError} (threw : (w.step (.advance handle)).1 = some error) : error.code ≠ .noAccess := by
  intro refused
  obtain ⟨process, o, found, point, locked⟩ := refused_at threw refused
  obtain ⟨owner, state, present, rewrites⟩ := marked
  rw [found] at present
  cases present
  rw [alone process o found (rewrites o rfl) (by simp [point]) (by simp [point])] at locked
  cases locked

/-- The machine as the library runs it. -/
def stepped (w : World γ) (event : Event γ) : Option (Option SystemError × World γ) := some (w.step event)

theorem permitted_step {events : List (Event γ)} {event : Event γ} (permitted : Run.Permitted stepped Alone w (event :: events)) :
    w.Alone event ∧ Run.Permitted stepped Alone (w.step event).2 events :=
  ⟨permitted.1, permitted.2 _ _ rfl⟩

theorem Marked.run {handle : Nat} (marked : w.Marked handle) (sound : w.Sound) (events : List (Event γ)) :
    (w.run events).Marked handle := by
  induction events generalizing w with
  | nil => exact marked
  | cons event events ih => exact ih (marked.step sound event) (sound.step event)

theorem Sound.run (sound : w.Sound) (events : List (Event γ)) : (w.run events).Sound := by
  induction events generalizing w with
  | nil => exact sound
  | cons event events ih => exact ih (sound.step event)

theorem permitted_run {front : List (Event γ)} {event : Event γ} {back : List (Event γ)}
    (permitted : Run.Permitted stepped Alone w (front ++ event :: back)) : (w.run front).Alone event := by
  induction front generalizing w with
  | nil => exact permitted.1
  | cons first front ih => exact ih (permitted_step permitted).2

theorem Sound.untouched (sound : w.Sound) {front : List (Event γ)} {handle : Nat}
    (alone : (w.run front).Alone (.advance handle)) {error : SystemError}
    (threw : ((w.run front).step (.advance handle)).1 = some error) (refused : error.code = .noAccess) :
    Untouched handle w (front ++ [.advance handle]) := by
  induction front generalizing w with
  | nil =>
    obtain ⟨process, o, found, point, -⟩ := refused_at threw refused
    refine ⟨fun _ => ?_, trivial⟩
    simp only [World.step, show w.handles[handle]? = _ from found, Opening.step, point, conclude_file]
    split <;> rfl
  | cons event front ih =>
    refine ⟨fun own => ?_, ih (sound.step event) alone threw⟩
    by_contra changed
    subst own
    exact ((sound.marked changed).run (sound.step _) front).allowed alone threw refused

/-- Constructors that rewrite the file only while no other process has the lock respect it. -/
theorem locked_file_respected (file : Option (DbFile γ)) (events : List (Event γ))
    (permitted : Run.Permitted stepped Alone ⟨file, []⟩ events) : Respected ⟨file, []⟩ events := by
  rintro front event back rfl
  intro before
  have sound := (sound_closed file).run front
  have alone := permitted_run permitted
  refine ⟨fun process acts locked => sound.step_file alone acts locked, ?_⟩
  rintro handle error rfl threw refused
  exact (sound_closed file).untouched alone threw refused

end World

/-- A segment manager of which nothing but its size is looked at. -/
structure BareSegment where
  size : Nat
deriving DecidableEq, Repr

instance : SegmentManager BareSegment where
  zeroed := ⟨0⟩
  construct size := ⟨size⟩
  grow segment extra := ⟨segment.size + extra⟩
  getSize := BareSegment.size
  cut segment size := if size = 0 then ⟨0⟩ else segment

namespace World

def booksArgs (dbFileSize : Nat) (action : DirtyAction) : OpenArgs :=
  ⟨⟨"data", "data/books"⟩, .readWrite, dbFileSize, action, .zeroed⟩

def advances (n handle : Nat) : List (Event BareSegment) := List.replicate n (.advance handle)

/-- The first process creates the file and keeps the lock, so that the second is refused
it; when it has closed the database the second opens and enlarges it, and crashes. -/
theorem locked_file_respected_books : Respected ⟨none, []⟩
    (.start 1 (booksArgs 0 .fail) :: advances 8 0 ++ .start 2 (booksArgs 0 .allow) :: advances 5 1 ++
      [.write 0 ⟨3072⟩, .close 0, .start 2 (booksArgs 8192 .fail)] ++ advances 7 2 ++ [.crash 2]) :=
  locked_file_respected none _ (by decide)

/-- The second process enlarges the file of the first, and is refused the lock. -/
theorem locked_file_enlarged : ¬ Respected ⟨none, []⟩
    (.start 1 (booksArgs 0 .fail) :: advances 8 0 ++ .start 2 (booksArgs 8192 .allow) :: advances 7 1) := by
  intro respected
  have untouched := (respected (.start 1 (booksArgs 0 .fail) :: advances 8 0 ++ .start 2 (booksArgs 8192 .allow) ::
    advances 3 1) (.advance 1) (advances 3 1) rfl).1 2 (by decide) (by decide)
  revert untouched
  decide

end World
end ChainBase
