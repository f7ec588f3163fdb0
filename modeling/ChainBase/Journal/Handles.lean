import ChainBase.Journal.Writing
import ChainBase.Library.Run

/-! Journals that are moved. The stream of a journal goes from one object to another; the
kind and the place of the entry written last stay with the object, and are those of
another file until it writes again. -/

namespace ChainBase

variable {T : Type}

/-- An open stream. In front of the entries the file may hold bytes that were there when
it was opened at its end; where these end is told for the statements only. -/
structure JournalStream where
  file : List UInt8
  position : Nat
  begun : Nat
deriving DecidableEq, Repr

structure JournalHandle where
  stream : Option JournalStream
  lastOp : Option JournalOp
  lastPosition : Nat
deriving DecidableEq, Repr

/-- Calls of numbered journals. One that is opened or constructed is a new one; a journal
is opened behind the entries of its file, of which recovery may have left a damaged rest. -/
inductive JournalHandleOp (T : Type) where
  | opened (before : List UInt8) (entries : List (Entry T)) (behind : List UInt8)
  | write (handle : Nat) (entry : Entry T)
  | moveConstruct (source : Nat)
  | moveAssign (target source : Nat)

namespace JournalHandle
variable (codec : Codec T)

def journal (h : JournalHandle) (s : JournalStream) : Journal := ⟨s.file, s.position, h.lastOp, h.lastPosition⟩

def write (h : JournalHandle) (entry : Entry T) : JournalHandle :=
  match h.stream with
  | none => h
  | some s =>
    let j := (h.journal s).write codec entry
    ⟨some { s with file := j.file, position := j.position }, j.lastOp, j.lastPosition⟩

def step (handles : List JournalHandle) : JournalHandleOp T → Option (Unit × List JournalHandle)
  | .opened before entries behind =>
    let front := before ++ Entry.encodeAll codec entries
    some ((), handles ++ [⟨some ⟨front ++ behind, front.length, before.length⟩, none, 0⟩])
  | .write handle entry => do
    let h ← handles[handle]?
    some ((), handles.set handle (h.write codec entry))
  | .moveConstruct source => do
    let other ← handles[source]?
    some ((), handles.set source { other with stream := none } ++ [⟨other.stream, none, 0⟩])
  | .moveAssign target source => do
    let self ← handles[target]?
    let other ← handles[source]?
    -- assert(std::addressof(other) != this)
    if target = source then none
    else some ((), (handles.set source { other with stream := none }).set target { self with stream := other.stream })

end JournalHandle

/-- Journals, and those of them that have been assigned to and have not written since. -/
structure Journals where
  handles : List JournalHandle
  assigned : List Nat
deriving DecidableEq, Repr

namespace Journals

def step (codec : Codec T) (s : Journals) (op : JournalHandleOp T) : Option (Unit × Journals) :=
  (JournalHandle.step codec s.handles op).map fun (output, handles) =>
    (output, ⟨handles, match op with
      | .write handle _ => s.assigned.filter (· ≠ handle)
      | .moveAssign target _ => target :: s.assigned
      | .opened _ _ _ | .moveConstruct _ => s.assigned⟩)

/-- The first entry that a journal writes after it has been assigned to is not one that
is combined with the kind of entry it has written last. -/
def Careful (s : Journals) : JournalHandleOp T → Prop
  | .write handle entry => handle ∈ s.assigned →
      ∀ h stream, s.handles[handle]? = some h → h.stream = some stream → ¬ (h.journal stream).Combines entry
  | _ => True

instance (s : Journals) : ∀ op : JournalHandleOp T, Decidable (s.Careful op)
  | .write handle entry => decidable_of_iff
      (handle ∉ s.assigned ∨ ∀ h ∈ s.handles[handle]?, ∀ stream ∈ h.stream, ¬ (h.journal stream).Combines entry) (by
        rw [← imp_iff_not_or]
        exact ⟨fun careful assigned h stream found opened => careful assigned h found stream opened,
          fun careful assigned h found stream opened => careful assigned h stream found opened⟩)
  | .opened _ _ _ | .moveConstruct _ | .moveAssign _ _ => inferInstanceAs (Decidable True)

end Journals

/-! ## What a write may do -/

namespace JournalStream

/-- The file holds these entries, and the stream is at their end. -/
structure Shows (codec : Codec T) (s : JournalStream) (before : List UInt8) (entries : List (Entry T))
    (behind : List UInt8) : Prop where
  begun : s.begun = before.length
  file : s.file = before ++ Entry.encodeAll codec entries ++ behind
  position : s.position = (before ++ Entry.encodeAll codec entries).length

/-- A whole entry goes behind the last one, or in the place of the last one. All the
other bytes stay, but for those of a damaged rest that is written over. -/
inductive Adds (codec : Codec T) (s after : JournalStream) (new : Entry T) : Prop where
  | append {before : List UInt8} {entries : List (Entry T)} {behind : List UInt8}
    (shows : s.Shows codec before entries behind)
    (added : after.Shows codec before (entries ++ [new]) (behind.drop (new.encode codec).length))
  | rewrite {before : List UInt8} {entries : List (Entry T)} {old : Entry T} {behind : List UInt8}
    (shows : s.Shows codec before (entries ++ [old]) behind)
    (size : (new.encode codec).length = (old.encode codec).length)
    (replaced : after.Shows codec before (entries ++ [new]) behind)

variable {codec : Codec T} {s after : JournalStream} {new : Entry T}

theorem Adds.position_le (adds : s.Adds codec after new) : s.position ≤ after.position := by
  cases adds with
  | append shows added =>
    rw [shows.position, added.position, Entry.encodeAll_append, ← List.append_assoc]
    exact (List.prefix_append _ _).length_le
  | rewrite shows size replaced =>
    rw [shows.position, replaced.position]
    simp [Entry.encodeAll, size]

end JournalStream

namespace JournalHandle
variable {codec : Codec T}

/-- A write adds its entry, or the one that combines it with the last, to the file that
the object writes to. -/
def WritesLast (codec : Codec T) (handles : List JournalHandle) : JournalHandleOp T → Prop
  | .write handle entry => ∀ h s, handles[handle]? = some h → h.stream = some s →
      ∃ after new, (h.write codec entry).stream = some after ∧ (new = entry ∨ new = entry.combined) ∧ s.Adds codec after new
  | _ => True

variable {h : JournalHandle} {s after : JournalStream} {before behind : List UInt8} {entries : List (Entry T)} {entry : Entry T}

def placed (codec : Codec T) (h : JournalHandle) (s : JournalStream) (position : Nat) (new : Entry T) : JournalStream :=
  let j := { h.journal s with position }.writeEntry new.op (new.version codec) (new.payload codec)
  { s with file := j.file, position := j.position }

theorem write_combined (opened : h.stream = some s) (combines : (h.journal s).Combines entry) :
    (h.write codec entry).stream = some (h.placed codec s h.lastPosition entry.combined) := by
  simp only [write, opened, Journal.write_combined combines]
  rfl

theorem write_appended (opened : h.stream = some s) (apart : ¬ (h.journal s).Combines entry) :
    (h.write codec entry).stream = some (h.placed codec s s.position entry) := by
  simp only [write, opened, Journal.write_appended apart]
  rfl

theorem placed_position (codec : Codec T) (h : JournalHandle) (s : JournalStream) (position : Nat) (new : Entry T) :
    (h.placed codec s position new).position = position + (new.encode codec).length := by
  simp only [placed, Journal.writeEntry, Journal.updateHeader, Journal.output, JournalLog.length_bytes, Entry.length_encode]
  omega

theorem placed_at {front rest : List UInt8} (file : s.file = front ++ rest) (new : Entry T) :
    (h.placed codec s front.length new).file = front ++ new.encode codec ++ rest.drop (new.encode codec).length := by
  have seek : Journal.At { h.journal s with position := front.length } front rest := ⟨file, rfl⟩
  exact (Journal.At.writeEntry seek new).1

theorem placed_end (shows : s.Shows codec before entries behind) (new : Entry T) :
    (h.placed codec s s.position new).Shows codec before (entries ++ [new]) (behind.drop (new.encode codec).length) where
  begun := shows.begun
  file := by
    rw [shows.position, placed_at shows.file, Entry.encodeAll_append]
    simp [Entry.encodeAll]
  position := by
    rw [placed_position, shows.position, Entry.encodeAll_append]
    simp [Entry.encodeAll, Nat.add_assoc]

theorem placed_last {old : Entry T} (shows : s.Shows codec before (entries ++ [old]) behind) (new : Entry T)
    (size : (new.encode codec).length = (old.encode codec).length) :
    (h.placed codec s (before ++ Entry.encodeAll codec entries).length new).Shows codec before (entries ++ [new]) behind where
  begun := shows.begun
  file := by
    have split : s.file = (before ++ Entry.encodeAll codec entries) ++ (old.encode codec ++ behind) := by
      rw [shows.file, Entry.encodeAll_append]
      simp [Entry.encodeAll]
    rw [placed_at split, List.drop_left' size.symm, Entry.encodeAll_append]
    simp [Entry.encodeAll]
  position := by
    rw [placed_position, Entry.encodeAll_append]
    simp [Entry.encodeAll, Nat.add_assoc]

theorem encode_combined (codec : Codec T) (combines : (h.journal s).Combines entry) :
    (entry.combined.encode codec).length = 24 := by
  cases entry with
  | level op revision => simp [Entry.length_encode, Entry.combined, Entry.payload]
  | insert obj | modify id obj | remove id => exact combines.elim

/-! ## What a journal remembers -/

/-- What the object remembers is the last entry of its file, if it remembers one. -/
def Knows (codec : Codec T) (h : JournalHandle) (s : JournalStream) : Prop :=
  ∃ before entries behind, s.Shows codec before entries behind ∧ (h.lastOp = none ∨ ∃ (earlier : List (Entry T)) (old : Entry T),
    entries = earlier ++ [old] ∧ h.lastOp = some old.op ∧ h.lastPosition = (before ++ Entry.encodeAll codec earlier).length)

theorem Knows.last (knows : h.Knows codec s) (combines : (h.journal s).Combines entry) :
    ∃ (before : List UInt8) (earlier : List (Entry T)) (old : Entry T) (behind : List UInt8),
      s.Shows codec before (earlier ++ [old]) behind ∧ h.lastPosition = (before ++ Entry.encodeAll codec earlier).length ∧
        (old.encode codec).length = 24 := by
  obtain ⟨kind, known⟩ : ∃ kind, h.lastOp = some (.level kind) := by
    cases entry with
    | level op revision => exact combines.imp fun kind both => both.1
    | insert obj | modify id obj | remove id => exact combines.elim
  obtain ⟨before, entries, behind, shows, nothing | ⟨earlier, old, rfl, same, place⟩⟩ := knows
  · rw [nothing] at known
    cases known
  · refine ⟨before, earlier, old, behind, shows, place, ?_⟩
    rw [known] at same
    cases old with
    | level op revision => simp [Entry.length_encode, Entry.payload]
    | insert obj | modify id obj | remove id => cases same

theorem Knows.write_combined (knows : h.Knows codec s) (opened : h.stream = some s) (combines : (h.journal s).Combines entry) :
    ∃ after, (h.write codec entry).stream = some after ∧ s.Adds codec after entry.combined ∧ (h.write codec entry).Knows codec after := by
  have remembered : (h.write codec entry).lastOp = some entry.combined.op ∧
      (h.write codec entry).lastPosition = h.lastPosition := by
    simp only [JournalHandle.write, opened, Journal.write_combined combines]
    exact ⟨JournalOp.fromUnderlying_toUnderlying _, rfl⟩
  obtain ⟨before, earlier, old, behind, shows, place, length⟩ := knows.last combines
  have size := (encode_combined codec combines).trans length.symm
  have replaced := @placed_last _ codec h s before behind earlier old shows entry.combined size
  rw [← place] at replaced
  exact ⟨_, JournalHandle.write_combined opened combines, .rewrite shows size replaced, before, earlier ++ [entry.combined], behind,
    replaced, .inr ⟨earlier, entry.combined, rfl, remembered.1, remembered.2.trans place⟩⟩

/-- An entry that is not combined goes behind the others, whatever the journal remembers. -/
theorem knows_appended (shows : s.Shows codec before entries behind) (opened : h.stream = some s)
    (apart : ¬ (h.journal s).Combines entry) :
    ∃ after, (h.write codec entry).stream = some after ∧ s.Adds codec after entry ∧ (h.write codec entry).Knows codec after := by
  have remembered : (h.write codec entry).lastOp = some entry.op ∧ (h.write codec entry).lastPosition = s.position := by
    simp only [JournalHandle.write, opened, Journal.write_appended apart]
    exact ⟨JournalOp.fromUnderlying_toUnderlying _, rfl⟩
  have added := @placed_end _ codec h s before behind entries shows entry
  exact ⟨_, write_appended opened apart, .append shows added, before, entries ++ [entry], _, added,
    .inr ⟨entries, entry, rfl, remembered.1, remembered.2.trans shows.position⟩⟩

end JournalHandle

/-! ## Runs -/

namespace Journals
open JournalHandle
variable {codec : Codec T} {s after : Journals} {op : JournalHandleOp T}

/-- Every stream is at the end of whole entries, and every journal knows the last one of
them, unless it has just been assigned to. -/
def Known (codec : Codec T) (s : Journals) : Prop :=
  ∀ i h stream, s.handles[i]? = some h → h.stream = some stream →
    (∃ before entries behind, stream.Shows codec before entries behind) ∧ (i ∉ s.assigned → h.Knows codec stream)

theorem Known.write {handle : Nat} {h : JournalHandle} {stream : JournalStream} {entry : Entry T} (known : s.Known codec)
    (careful : s.Careful (.write handle entry)) (found : s.handles[handle]? = some h) (opened : h.stream = some stream) :
    ∃ after new, (h.write codec entry).stream = some after ∧ (new = entry ∨ new = entry.combined) ∧
      stream.Adds codec after new ∧ (h.write codec entry).Knows codec after := by
  obtain ⟨⟨before, entries, behind, shows⟩, knows⟩ := known handle h stream found opened
  by_cases combines : (h.journal stream).Combines entry
  · have recent : handle ∉ s.assigned := fun assigned => careful assigned h stream found opened combines
    obtain ⟨after, wrote, adds, knows⟩ := (knows recent).write_combined opened combines
    exact ⟨after, entry.combined, wrote, .inr rfl, adds, knows⟩
  · obtain ⟨after, wrote, adds, knows⟩ := knows_appended shows opened combines
    exact ⟨after, entry, wrote, .inl rfl, adds, knows⟩

theorem Known.writesLast (known : s.Known codec) (careful : s.Careful op) : WritesLast codec s.handles op := by
  cases op with
  | write handle entry =>
    intro h stream found opened
    obtain ⟨after, new, wrote, kind, adds, -⟩ := known.write careful found opened
    exact ⟨after, new, wrote, kind, adds⟩
  | opened before entries behind | moveConstruct source | moveAssign target source => trivial

/-- A new journal knows its last entry, as it remembers none. -/
private theorem knows_none {h : JournalHandle} {stream : JournalStream} {i : Nat} (nothing : h.lastOp = none)
    (shows : ∃ before entries behind, stream.Shows codec before entries behind) :
    (∃ before entries behind, stream.Shows codec before entries behind) ∧ (i ∉ s.assigned → h.Knows codec stream) := by
  refine ⟨shows, fun _ => ?_⟩
  obtain ⟨before, entries, behind, here⟩ := shows
  exact ⟨before, entries, behind, here, .inl nothing⟩

private theorem get_concat {handles : List JournalHandle} {new h : JournalHandle} {i : Nat}
    (found : (handles ++ [new])[i]? = some h) : handles[i]? = some h ∨ h = new := by
  grind

private theorem get_set {handles : List JournalHandle} {new h : JournalHandle} {i k : Nat}
    (found : (handles.set k new)[i]? = some h) : i = k ∧ h = new ∨ i ≠ k ∧ handles[i]? = some h := by
  grind

theorem Known.step (known : s.Known codec) (careful : s.Careful op) {output : Unit}
    (ran : s.step codec op = some (output, after)) : after.Known codec := by
  obtain ⟨⟨told, handles⟩, moved, same⟩ := Option.map_eq_some_iff.mp ran
  cases same
  intro i h stream found opened
  cases op with
  | opened before entries behind =>
    cases moved
    rcases get_concat found with old | rfl
    · exact known i h stream old opened
    · cases opened
      exact knows_none rfl ⟨before, entries, behind, rfl, rfl, rfl⟩
  | write handle entry =>
    obtain ⟨own, writer, same⟩ := Option.bind_eq_some_iff.mp moved
    cases same
    rcases get_set found with ⟨rfl, rfl⟩ | ⟨other, old⟩
    · cases streams : own.stream with
      | none =>
        simp only [JournalHandle.write, streams] at opened
        cases opened
      | some front =>
        obtain ⟨later, new, wrote, -, -, knows⟩ := known.write careful writer streams
        rw [wrote] at opened
        cases opened
        obtain ⟨before, entries, behind, shows, -⟩ := id knows
        exact ⟨⟨before, entries, behind, shows⟩, fun _ => knows⟩
    · obtain ⟨shows, knows⟩ := known i h stream old opened
      exact ⟨shows, fun recent => knows fun assigned => recent (by simp [assigned, other])⟩
  | moveConstruct source =>
    obtain ⟨other, giver, same⟩ := Option.bind_eq_some_iff.mp moved
    cases same
    rcases get_concat found with old | rfl
    · rcases get_set old with ⟨-, rfl⟩ | ⟨-, old⟩
      · cases opened
      · exact known i h stream old opened
    · exact knows_none rfl (known source other stream giver opened).1
  | moveAssign target source =>
    obtain ⟨self, -, assigned⟩ := Option.bind_eq_some_iff.mp moved
    obtain ⟨other, giver, same⟩ := Option.bind_eq_some_iff.mp assigned
    split at same
    · cases same
    · cases same
      rcases get_set found with ⟨rfl, rfl⟩ | ⟨apart, old⟩
      · exact ⟨(known source other stream giver opened).1, fun recent => absurd List.mem_cons_self recent⟩
      · rcases get_set old with ⟨-, rfl⟩ | ⟨-, old⟩
        · cases opened
        · obtain ⟨shows, knows⟩ := known i h stream old opened
          exact ⟨shows, fun recent => knows fun before => recent (List.mem_cons_of_mem target before)⟩

end Journals

namespace JournalHandle

/-- However journals are opened, moved and written to, every write goes behind the last
entry of its file or in the place of it, as long as no journal begins a file that it has
been assigned with an entry that is combined with the last one of its own. -/
theorem journal_writes_last (codec : Codec T) (ops : List (JournalHandleOp T))
    (careful : Run.Permitted (Journals.step codec) Journals.Careful ⟨[], []⟩ ops) :
    Run.Permitted (step codec) (WritesLast codec) [] ops := by
  have none : (⟨[], []⟩ : Journals).Known codec := by
    intro i h stream found
    cases found
  have writes : Run.Permitted (Journals.step codec) (fun s => WritesLast codec s.handles) ⟨[], []⟩ ops := by
    refine Run.permitted_mono ?_ ?_ none careful
    · intro s op known careful
      exact known.writesLast careful
    · intro s op output after known careful ran
      exact known.step careful ran
  refine Run.permitted_beside ?_ writes
  intro s op
  cases ran : step codec s.handles op <;> simp [Journals.step, ran]

/-- A journal with two books takes the place of one that has started a level; it goes on with
another book, and only then starts and commits a level. -/
theorem journal_writes_last_books : Run.Permitted (step bookCodec) (WritesLast bookCodec) []
    [.opened [] [] [], .write 0 (.level .startUndo 1), .opened [] [] [], .write 1 (.insert ⟨0, 1, 1⟩), .moveAssign 0 1,
      .write 0 (.insert ⟨1, 2, 2⟩), .moveConstruct 0, .write 2 (.level .startUndo 1), .write 2 (.level .commit 1)] :=
  journal_writes_last bookCodec _ (by decide)

/-- A journal with a single entry, the start of a level, takes over the stream of another
one, and the commit goes over the first entry of that file. -/
theorem assigned_journal_overwrites : ¬ Run.Permitted (step bookCodec) (WritesLast bookCodec) []
    [.opened [] [] [], .write 0 (.level .startUndo 1), .opened [] [] [], .write 1 (.insert ⟨0, 1, 1⟩),
      .write 1 (.insert ⟨1, 2, 2⟩), .moveAssign 0 1, .write 0 (.level .commit 1)] := by
  intro permitted
  have moved : (Run.run (step bookCodec) [] [.opened [] [] [], .write 0 (.level .startUndo 1), .opened [] [] [],
      .write 1 (.insert ⟨0, 1, 1⟩), .write 1 (.insert ⟨1, 2, 2⟩), .moveAssign 0 1]).map
      (fun (_, handles) => handles[0]?.map fun h => (h.stream.map (·.position), h.lastOp, h.lastPosition)) =
      some (some (some 64, some (.level .startUndo), 0)) := by
    decide
  obtain ⟨⟨outputs, handles⟩, ran, state⟩ := Option.map_eq_some_iff.mp moved
  obtain ⟨h, found, same⟩ := Option.map_eq_some_iff.mp state
  simp only [Prod.mk.injEq] at same
  obtain ⟨stream, kind, place⟩ := same
  obtain ⟨s, opened, position⟩ := Option.map_eq_some_iff.mp stream
  have last : Run.Permitted (step bookCodec) (WritesLast bookCodec) handles [.write 0 (.level .commit 1)] :=
    Run.permitted_drop permitted ran
  obtain ⟨after, new, wrote, -, adds⟩ := last.1 h s found opened
  have combines : (h.journal s).Combines (.level .commit 1 : Entry Book) := ⟨.startUndo, kind, rfl⟩
  rw [write_combined opened combines] at wrote
  cases wrote
  have grown := adds.position_le
  rw [placed_position, position, place] at grown
  revert grown
  decide

end JournalHandle
end ChainBase
