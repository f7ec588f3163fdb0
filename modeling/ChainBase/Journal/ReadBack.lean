import ChainBase.Journal.Writing
import ChainBase.Journal.Scanning

/-! Journals that are closed and opened again at their end, and what the recovery
loop finds in them: every entry that was written last in its place, as long as
the sizes fit their header. -/

namespace ChainBase

variable {σ T : Type}

/-- An open journal with the register of `_output`, the archive of its payloads. -/
structure JournalFile extends Journal where
  crc : UInt32
deriving DecidableEq, Repr

namespace JournalFile

/-- `open` without recovery, by a new journal. -/
def openAtEnd (file : List UInt8) : JournalFile := ⟨Journal.opened file file.length, Crc32.initial⟩

def serializeBytes (j : JournalFile) (bytes : List UInt8) : JournalFile := ⟨j.output bytes, Crc32.process j.crc bytes⟩

def checksum (j : JournalFile) : UInt32 × JournalFile := (Crc32.finish j.crc, { j with crc := Crc32.initial })

def writeHeader (j : JournalFile) (log : JournalLog) : Nat × JournalFile :=
  (j.position, { j with toJournal := j.output log.bytes })

def updateHeader (j : JournalFile) (log : JournalLog) (headerPosition : Nat) : JournalFile :=
  let (crc, j) := j.checksum
  { j with toJournal := j.toJournal.updateHeader log headerPosition crc }

/-- `write_header`, the payload, and `update_header`. -/
def writeEntry (j : JournalFile) (op : JournalOp) (version : UInt32) (payload : List UInt8) : JournalFile :=
  let log : JournalLog := ⟨0, 0, op.toUnderlying, version⟩
  let (position, j) := j.writeHeader log
  (j.serializeBytes payload).updateHeader log position

def undoEntry (j : JournalFile) (revision : Int) (op : LevelOp) : JournalFile :=
  match j.lastOp with
  | some (.level last) =>
    if canCompressUndoEntry last op then
      { j with position := j.lastPosition }.writeEntry (.level (if op ≠ LevelOp.startUndo then .revision else op)) 0
        (BigEndian.encodeSigned 8 revision)
    else j.writeEntry (.level op) 0 (BigEndian.encodeSigned 8 revision)
  | _ => j.writeEntry (.level op) 0 (BigEndian.encodeSigned 8 revision)

def write (codec : Codec T) (j : JournalFile) : Entry T → JournalFile
  | .level op revision => j.undoEntry revision op
  | data => j.writeEntry data.op (data.version codec) (data.payload codec)

/-- The register is reset by every entry. -/
theorem writeEntry_eq {j : JournalFile} (clean : j.crc = Crc32.initial) (op : JournalOp) (version : UInt32)
    (payload : List UInt8) : j.writeEntry op version payload = ⟨j.toJournal.writeEntry op version payload, Crc32.initial⟩ := by
  simp [writeEntry, writeHeader, serializeBytes, updateHeader, checksum, clean, Journal.writeEntry, Crc32.checksum]

theorem write_eq {j : JournalFile} (clean : j.crc = Crc32.initial) (codec : Codec T) (entry : Entry T) :
    j.write codec entry = ⟨j.toJournal.write codec entry, Crc32.initial⟩ := by
  cases entry with
  | level op revision =>
    have appended := writeEntry_eq clean (.level op) 0 (BigEndian.encodeSigned 8 revision)
    cases kind : j.lastOp with
    | none => simpa only [write, undoEntry, Journal.write, Journal.undoEntry, kind] using appended
    | some last =>
      cases last with
      | level last =>
        cases compresses : canCompressUndoEntry last op with
        | true =>
          simp only [write, undoEntry, Journal.write, Journal.undoEntry, kind, compresses, if_true]
          exact @writeEntry_eq ⟨⟨j.file, j.lastPosition, some (.level last), j.lastPosition⟩, j.crc⟩ clean _ _ _
        | false => simpa [write, undoEntry, Journal.write, Journal.undoEntry, kind, compresses] using appended
      | create | insert | modify | remove =>
        simpa only [write, undoEntry, Journal.write, Journal.undoEntry, kind] using appended
  | insert obj => exact writeEntry_eq clean _ _ _
  | modify id obj => exact writeEntry_eq clean _ _ _
  | remove id => exact writeEntry_eq clean _ _ _

end JournalFile

/-! ## Any number of journals, one after another -/

/-- A call of the journal, or the end of it and the next one on the same file. -/
inductive JournalCall (T : Type) where
  | write (entry : Entry T)
  | reopen

namespace JournalCall
variable (codec : Codec T)

/-- The members of what is written are in the range of their types. -/
def Typed : JournalCall T → Prop
  | write entry => entry.Typed codec
  | reopen => True

/-- The size of what is written can be said in its header. -/
def Small : JournalCall T → Prop
  | write entry => (entry.payload codec).length < 2 ^ 32
  | reopen => True

instance [DecidablePred codec.Storable] : ∀ call : JournalCall T, Decidable (call.Typed codec)
  | write (.insert obj) => inferInstanceAs (Decidable (codec.Storable obj))
  | write (.modify id obj) => inferInstanceAs (Decidable (id < 2 ^ 64 ∧ codec.Storable obj))
  | write (.remove id) => inferInstanceAs (Decidable (id < 2 ^ 64))
  | write (.level _ revision) => inferInstanceAs (Decidable (-2 ^ 63 ≤ revision ∧ revision ≤ UndoMultiIndex.int64Max))
  | reopen => inferInstanceAs (Decidable True)

def step (j : JournalFile) : JournalCall T → JournalFile
  | write entry => j.write codec entry
  | reopen => .openAtEnd j.file

def written (calls : List (JournalCall T)) : JournalFile := calls.foldl (step codec) (.openAtEnd [])

end JournalCall

/-- The entries written last in each place: those before the journal was opened are
not written again. -/
structure Slots (T : Type) where
  before : List (Entry T)
  since : List (Entry T)

namespace Slots

def all (slots : Slots T) : List (Entry T) := slots.before ++ slots.since

def step (slots : Slots T) : JournalCall T → Slots T
  | .write entry => { slots with since := Entry.write slots.since entry }
  | .reopen => ⟨slots.all, []⟩

def ofCalls (calls : List (JournalCall T)) : Slots T := calls.foldl step ⟨[], []⟩

end Slots

namespace JournalCall
variable {codec : Codec T}

structure Holds (codec : Codec T) (j : JournalFile) (slots : Slots T) : Prop where
  clean : j.crc = Crc32.initial
  wrote : Journal.Wrote codec (Entry.encodeAll codec slots.before) [] slots.since j.toJournal

theorem Holds.file {j : JournalFile} {slots : Slots T} (holds : Holds codec j slots) : j.file = Entry.encodeAll codec slots.all := by
  have file := holds.wrote.place.1
  rwa [List.drop_nil, List.append_nil, ← Entry.encodeAll_append] at file

private theorem Holds.opened {j : JournalFile} {slots : Slots T} (holds : Holds codec j slots) :
    Holds codec (.openAtEnd j.file) ⟨slots.all, []⟩ where
  clean := rfl
  wrote := by
    rw [holds.file]
    exact ⟨by simp [Journal.At, JournalFile.openAtEnd, Journal.opened, Entry.encodeAll], rfl⟩

theorem Holds.step {j : JournalFile} {slots : Slots T} (holds : Holds codec j slots) (call : JournalCall T) :
    Holds codec (step codec j call) (slots.step call) := by
  cases call with
  | reopen => exact holds.opened
  | write entry =>
    show Holds codec (j.write codec entry) _
    rw [JournalFile.write_eq holds.clean]
    exact ⟨rfl, holds.wrote.write entry⟩

theorem holds_written (calls : List (JournalCall T)) : Holds codec (written codec calls) (Slots.ofCalls calls) := by
  have start : Holds codec (.openAtEnd []) (⟨[], []⟩ : Slots T) :=
    ⟨rfl, ⟨by simp [Journal.At, JournalFile.openAtEnd, Journal.opened, Entry.encodeAll], rfl⟩⟩
  have all : ∀ j (slots : Slots T), Holds codec j slots →
      Holds codec (calls.foldl (JournalCall.step codec) j) (calls.foldl Slots.step slots) := by
    induction calls with
    | nil => exact fun j slots holds => holds
    | cons call calls ih => exact fun j slots holds => ih _ _ (holds.step call)
  exact all _ _ start

end JournalCall

/-! ## What is in the slots -/

namespace Entry
variable {P : Entry T → Prop} {file : List (Entry T)} {entry new : Entry T}

theorem write_forall (kinds : ∀ op kind revision, P (level op revision) → P (level kind revision))
    (all : ∀ entry ∈ file, P entry) (last : P new) : ∀ entry ∈ write file new, P entry := by
  intro entry member
  have appended : entry ∈ file ++ [new] → P entry := by
    intro member
    rcases List.mem_append.mp member with member | member
    · exact all entry member
    · exact List.mem_singleton.mp member ▸ last
  cases new with
  | level op revision =>
    simp only [write] at member
    split at member
    · split at member
      · rcases List.mem_append.mp member with member | member
        · exact all entry (List.dropLast_subset file member)
        · exact List.mem_singleton.mp member ▸ kinds _ _ _ last
      · exact appended member
    · exact appended member
  | insert obj => exact appended member
  | modify id obj => exact appended member
  | remove id => exact appended member

theorem rewrite_forall {calls : List (Entry T)} (kinds : ∀ op kind revision, P (level op revision) → P (level kind revision))
    (all : ∀ entry ∈ calls, P entry) : ∀ entry ∈ rewrite calls, P entry := by
  induction calls using List.reverseRecOn with
  | nil => exact fun entry impossible => by cases impossible
  | append_singleton calls call ih =>
    have before := ih fun entry member => all entry (List.mem_append_left _ member)
    rw [rewrite, List.foldl_append]
    exact write_forall kinds before (all call (by simp))

theorem mem_write (data : ∀ op revision, entry ≠ level op revision) (member : entry ∈ file ∨ entry = new) :
    entry ∈ write file new := by
  have appended : entry ∈ file ++ [new] := by simpa using member
  cases new with
  | level op revision =>
    have inside : entry ∈ file := member.resolve_right (data op revision)
    simp only [write]
    split
    next last number final =>
      split
      · obtain ⟨front, rfl⟩ := List.getLast?_eq_some_iff.mp final
        have before : entry ∈ front := by simpa [data last number] using inside
        simp [before]
      · exact appended
    · exact appended
  | insert obj => exact appended
  | modify id obj => exact appended
  | remove id => exact appended

end Entry

namespace Slots
variable {P : Entry T → Prop} {calls : List (JournalCall T)}

theorem forall_all (kinds : ∀ op kind revision, P (.level op revision) → P (.level kind revision))
    (written : ∀ entry, .write entry ∈ calls → P entry) : ∀ entry ∈ (ofCalls calls).all, P entry := by
  have kept : ∀ slots : Slots T, (∀ entry ∈ slots.all, P entry) → ∀ entry ∈ (calls.foldl step slots).all, P entry := by
    induction calls with
    | nil => exact fun slots all => all
    | cons call calls ih =>
      intro slots all
      refine ih (fun entry member => written entry (List.mem_cons_of_mem call member)) (slots.step call) ?_
      cases call with
      | reopen => simpa [Slots.step, Slots.all] using all
      | write new =>
        simp only [Slots.step, Slots.all, List.mem_append] at all ⊢
        have since := Entry.write_forall kinds (fun entry member => all entry (Or.inr member)) (written new List.mem_cons_self)
        exact fun entry member => member.elim (fun member => all entry (Or.inl member)) (since entry)
  exact kept ⟨[], []⟩ (by simp [all])

theorem mem_all {entry : Entry T} (data : ∀ op revision, entry ≠ .level op revision) (written : .write entry ∈ calls) :
    entry ∈ (ofCalls calls).all := by
  have kept : ∀ slots : Slots T, entry ∈ slots.all ∨ .write entry ∈ calls → entry ∈ (calls.foldl step slots).all := by
    clear written
    induction calls with
    | nil => exact fun slots member => by simpa using member
    | cons call calls ih =>
      intro slots member
      apply ih
      rcases member with inside | written
      · refine Or.inl ?_
        cases call with
        | reopen => simpa [Slots.step, Slots.all] using inside
        | write new =>
          rcases List.mem_append.mp inside with before | since
          · exact List.mem_append_left _ before
          · exact List.mem_append_right _ (Entry.mem_write data (Or.inl since))
      · rcases List.mem_cons.mp written with new | later
        · refine Or.inl ?_
          subst new
          exact List.mem_append_right _ (Entry.mem_write data (Or.inr rfl))
        · exact Or.inr later
  exact kept ⟨[], []⟩ (Or.inr written)

end Slots

/-! ## What the loop finds -/

/-- The container leaves entries of this type to `skip`. -/
def Frame.Unhandled (levels : Bool) (frame : Frame) : Prop :=
  match JournalOp.fromUnderlying frame.type with
  | none | some .create => True
  | some (.level _) => levels = false
  | some .insert | some .modify | some .remove => False

def Frame.log (frame : Frame) : JournalLog :=
  ⟨Crc32.checksum frame.payload, UInt32.ofNat frame.payload.length, frame.type, frame.version⟩

def Frame.encode (frame : Frame) : List UInt8 := frame.log.bytes ++ frame.payload

/-- What a file may hold: entries, and frames of types that the container does not handle. -/
inductive Block (T : Type) where
  | entry (entry : Entry T)
  | other (frame : Frame)

namespace Block

def frame (codec : Codec T) : Block T → Frame
  | .entry content => content.frame codec
  | .other frame => frame

def Fits (codec : Codec T) (levels : Bool) : Block T → Prop
  | .entry content => content.Fits codec
  | .other frame => frame.payload.length < 2 ^ 32 ∧ frame.Unhandled levels

def entries (blocks : List (Block T)) : List (Entry T) :=
  blocks.filterMap fun
    | .entry content => some content
    | .other _ => none

def encodeAll (codec : Codec T) (blocks : List (Block T)) : List UInt8 :=
  blocks.flatMap fun block => (block.frame codec).encode

end Block

variable {c : Target σ T} {codec : Codec T} {s : σ} {rounds position : Nat}

theorem scan_unhandled {frame : Frame} (small : frame.payload.length < 2 ^ 32) (unhandled : frame.Unhandled c.undo.isSome)
    (more : List UInt8) : scan c codec (rounds + 1) position (frame.encode ++ more) s =
      (scan c codec rounds (position + frame.encode.length) more s).map (Recovered.onto [frame]) := by
  have size : frame.log.size.toNat = frame.payload.length := UInt32.toNat_ofNat_of_lt' small
  have type : frame.log.type = frame.type := rfl
  have whole : frame.log.extent codec c.undo.isSome (frame.payload ++ more) = some frame.payload.length := by
    revert unhandled
    simp only [Frame.Unhandled, JournalLog.extent, type, size]
    cases JournalOp.fromUnderlying frame.type with
    | none => simp
    | some op =>
      cases op with
      | create => simp
      | level op => intro plain; simp [plain]
      | insert | modify | remove => simp
  have acts : frame.log.act codec c s (frame.payload ++ more) = .ok s := by
    revert unhandled
    simp only [Frame.Unhandled, JournalLog.act, type]
    cases JournalOp.fromUnderlying frame.type with
    | none => simp
    | some op =>
      cases op with
      | create => simp
      | level op =>
        intro plain
        have absent : c.undo = none := by simpa using plain
        simp [absent]
      | insert | modify | remove => simp
  have matched : frame.log.Matches ((frame.payload ++ more).take frame.payload.length) := by
    rw [List.take_left]
    exact ⟨size.symm, rfl⟩
  rw [Frame.encode, List.append_assoc, scan_matched whole matched, acts, List.drop_left, List.length_append,
    JournalLog.length_bytes, List.take_left]
  rfl

theorem scan_blocks {blocks : List (Block T)} (fits : ∀ block ∈ blocks, block.Fits codec c.undo.isSome) :
    scan c codec (blocks.length + (rounds + 1)) position (Block.encodeAll codec blocks) s =
      (replay c s (Block.entries blocks)).map fun last =>
        ⟨last, position + (Block.encodeAll codec blocks).length, blocks.map (Block.frame codec)⟩ := by
  induction blocks generalizing position s with
  | nil =>
    simp only [List.length_nil, Nat.zero_add]
    exact scan_short (by simp [Block.encodeAll])
  | cons block blocks ih =>
    have others := fun other member => fits other (List.mem_cons_of_mem block member)
    have bytes : Block.encodeAll codec (block :: blocks) = (block.frame codec).encode ++ Block.encodeAll codec blocks := rfl
    rw [List.length_cons, Nat.add_right_comm, bytes]
    cases block with
    | entry content =>
      have whole : ((Block.entry content).frame codec).encode = content.encode codec := rfl
      rw [whole, scan_entry (fits _ List.mem_cons_self)]
      change _ = (replay c s (content :: Block.entries blocks)).map _
      rw [replay, List.foldlM_cons]
      cases content.applyRecover c s with
      | error failure => rfl
      | ok after =>
        change (scan c codec _ _ _ after).map _ = (replay c after (Block.entries blocks)).map _
        rw [ih others]
        cases replay c after (Block.entries blocks) with
        | error failure => rfl
        | ok last => simp [Except.map, Recovered.onto, Block.frame, Nat.add_assoc]
    | other frame =>
      have skipped := fits _ List.mem_cons_self
      rw [show ((Block.other frame : Block T).frame codec) = frame from rfl, scan_unhandled skipped.1 skipped.2, ih others]
      change _ = (replay c s (Block.entries blocks)).map _
      cases replay c s (Block.entries blocks) with
      | error failure => rfl
      | ok last => simp [Except.map, Recovered.onto, Block.frame, Nat.add_assoc]

theorem recover_blocks {blocks : List (Block T)} (fits : ∀ block ∈ blocks, block.Fits codec c.undo.isSome) (fresh : σ) :
    recover c codec fresh (Block.encodeAll codec blocks) = (replay c fresh (Block.entries blocks)).map fun last =>
      ⟨last, (Block.encodeAll codec blocks).length, blocks.map (Block.frame codec)⟩ := by
  have long : blocks.length ≤ (Block.encodeAll codec blocks).length := by
    clear fits
    induction blocks with
    | nil => exact Nat.le_refl 0
    | cons block blocks ih =>
      simp only [Block.encodeAll, Frame.encode, List.flatMap_cons, List.length_append, JournalLog.length_bytes,
        List.length_cons] at ih ⊢
      omega
  obtain ⟨rounds, total⟩ : ∃ rounds, (Block.encodeAll codec blocks).length = blocks.length + rounds :=
    Nat.exists_eq_add_of_le long
  rw [recover, show (Block.encodeAll codec blocks).length + 1 = blocks.length + (rounds + 1) by omega, scan_blocks fits,
    Nat.zero_add]

/-! ## Sizes that their header cannot say -/

/-- The loop over the file reads back what the calls have written. -/
def ReadsBack (codec : Codec T) (calls : List (JournalCall T)) : Prop :=
  ∀ (σ : Type) (c : Target σ T) (fresh : σ), recover c codec fresh (JournalCall.written codec calls).file =
    (replay c fresh (Slots.ofCalls calls).all).map fun last =>
      ⟨last, (JournalCall.written codec calls).file.length, (Slots.ofCalls calls).all.map (Entry.frame codec)⟩

/-- A container that takes every entry there is. -/
def Target.listening (obj : T) : Target Unit T where
  nextId _ := 0
  find _ _ := some 0
  value _ _ := obj
  emplace _ constructor :=
    match constructor 0 with
    | some _ => (.ok 0, ())
    | none => (.error .user, ())
  modify _ _ modifier := some (if (modifier obj).2 then some .user else none, ())
  remove _ _ := ()
  undo := none

theorem Target.listening_propagates (obj : T) : (Target.listening obj).Propagates where
  constructor s constructor throws := by simp [recoverInsert, listening, throws]
  modifier s id modifier throws := by simp [recoverModify, listening, throws]

theorem Target.listening_takes (obj : T) (entry : Entry T) : entry.applyRecover (Target.listening obj) () = .ok () := by
  cases entry <;> rfl

theorem replay_listening (obj : T) (entries : List (Entry T)) : replay (Target.listening obj) () entries = .ok () := by
  induction entries with
  | nil => rfl
  | cons entry entries ih =>
    rw [replay, List.foldlM_cons, Target.listening_takes]
    exact ih

/-- An entry whose size is cut down to the width of its field is applied, and ends the loop. -/
theorem recover_oversized (propagates : c.Propagates) {front back : List (Entry T)} {entry : Entry T}
    (fits : ∀ entry ∈ front, entry.Fits codec) (typed : entry.Typed codec) (large : 2 ^ 32 ≤ (entry.payload codec).length)
    (fresh : σ) : recover c codec fresh (Entry.encodeAll codec (front ++ entry :: back)) =
      (replay c fresh (front ++ [entry])).map fun last =>
        ⟨last, (Entry.encodeAll codec front).length, front.map (Entry.frame codec) ++ [entry.frame codec]⟩ := by
  have known : entry.Known c.undo.isSome := by
    cases entry with
    | level op revision => simp [Entry.payload] at large
    | insert obj | modify id obj | remove id => trivial
  have whole : (entry.log codec).extent codec c.undo.isSome (entry.payload codec ++ Entry.encodeAll codec back) =
      some (entry.payload codec).length := Entry.extent_payload typed rfl rfl (Or.inl known) _
  have mismatched : ¬ (entry.log codec).Matches
      ((entry.payload codec ++ Entry.encodeAll codec back).take (entry.payload codec).length) := by
    rw [List.take_left]
    intro both
    have size := (entry.log codec).size.toNat_lt
    have same := both.1
    omega
  rw [Entry.encodeAll_append, Entry.encodeAll_cons, recover_entries propagates fits, replay_append]
  cases replay c fresh front with
  | error failure => rfl
  | ok middle =>
    obtain ⟨rounds, total⟩ : ∃ rounds, (entry.encode codec ++ Entry.encodeAll codec back).length + 1 = rounds + 2 :=
      ⟨(entry.encode codec ++ Entry.encodeAll codec back).length - 1, by
        rw [List.length_append, Entry.length_encode]
        omega⟩
    simp only [Except.bind, total]
    rw [Entry.encode, List.append_assoc, scan_mismatched whole mismatched, Entry.act_payload typed rfl rfl, List.take_left]
    change _ = ([entry].foldlM (Entry.applyRecover c) middle).map _
    rw [List.foldlM_cons]
    cases entry.applyRecover c middle <;> rfl

private theorem first_oversized {entries : List (Entry T)} (some : ∃ entry ∈ entries, ¬ (entry.payload codec).length < 2 ^ 32) :
    ∃ front entry back, entries = front ++ entry :: back ∧ (∀ entry ∈ front, (entry.payload codec).length < 2 ^ 32) ∧
      2 ^ 32 ≤ (entry.payload codec).length := by
  induction entries with
  | nil => simp at some
  | cons head entries ih =>
    rcases Nat.lt_or_ge (head.payload codec).length (2 ^ 32) with small | large
    · obtain ⟨entry, member, oversized⟩ := some
      have later : entry ∈ entries := (List.mem_cons.mp member).resolve_left (fun same => oversized (same ▸ small))
      obtain ⟨front, first, back, rfl, before, large⟩ := ih ⟨entry, later, oversized⟩
      exact ⟨head :: front, first, back, rfl, List.forall_mem_cons.mpr ⟨small, before⟩, large⟩
    · exact ⟨[], head, entries, rfl, by simp, large⟩

private theorem level_small (codec : Codec T) (op : LevelOp) (revision : Int) :
    ((Entry.level op revision : Entry T).payload codec).length < 2 ^ 32 := by
  simp [Entry.payload]

variable {calls : List (JournalCall T)}

theorem readsBack_of_small (typed : ∀ entry, .write entry ∈ calls → entry.Typed codec)
    (small : ∀ entry, .write entry ∈ calls → (entry.payload codec).length < 2 ^ 32) : ReadsBack codec calls := by
  intro σ c fresh
  have fits : ∀ entry ∈ (Slots.ofCalls calls).all, entry.Fits codec := fun entry member =>
    (Slots.forall_all (P := fun entry => entry.Typed codec) (fun _ _ _ typed => typed) typed entry member).fits
      (Slots.forall_all (fun _ kind revision _ => level_small codec kind revision) small entry member)
  have bytes : Block.encodeAll codec ((Slots.ofCalls calls).all.map Block.entry) =
      Entry.encodeAll codec (Slots.ofCalls calls).all := by
    rw [Block.encodeAll, List.flatMap_map]
    rfl
  have entries : Block.entries ((Slots.ofCalls calls).all.map Block.entry) = (Slots.ofCalls calls).all := by
    simp [Block.entries, List.filterMap_map]
  have found := @recover_blocks σ T c codec ((Slots.ofCalls calls).all.map Block.entry)
    (fun block member => by
      obtain ⟨entry, inside, rfl⟩ := List.mem_map.mp member
      exact fits entry inside) fresh
  rw [bytes, entries, List.map_map] at found
  rw [(JournalCall.holds_written calls).file]
  exact found

/-- The first entry that is too large stops the loop in front of it. -/
theorem small_of_recovered (typed : ∀ entry, .write entry ∈ calls → entry.Typed codec)
    (whole : ∀ obj : T, (recover (Target.listening obj) codec () (JournalCall.written codec calls).file).map Recovered.position =
      .ok (JournalCall.written codec calls).file.length) :
    ∀ entry, .write entry ∈ calls → (entry.payload codec).length < 2 ^ 32 := by
  by_contra all
  simp only [not_forall] at all
  obtain ⟨entry, written, oversized⟩ := all
  have data : ∀ op revision, entry ≠ .level op revision := fun op revision same =>
    oversized (same ▸ level_small codec op revision)
  obtain ⟨front, first, back, split, before, large⟩ := first_oversized ⟨entry, Slots.mem_all data written, oversized⟩
  have typedAll := Slots.forall_all (P := fun entry => entry.Typed codec) (fun _ _ _ typed => typed) typed
  rw [split] at typedAll
  have fits : ∀ entry ∈ front, entry.Fits codec := fun entry member =>
    (typedAll entry (List.mem_append_left _ member)).fits (before entry member)
  obtain ⟨obj⟩ : Nonempty T := by
    cases first with
    | insert obj => exact ⟨obj⟩
    | modify id obj => exact ⟨obj⟩
    | remove id => simp [Entry.payload] at large
    | level op revision => simp [Entry.payload] at large
  have stopped := @recover_oversized _ _ (Target.listening obj) codec (Target.listening_propagates obj) front back first fits
    (typedAll first (by simp)) large ()
  have position := whole obj
  rw [(JournalCall.holds_written calls).file, split, stopped, replay_listening] at position
  have positions := Except.ok.inj position
  simp only [Entry.encodeAll_append, Entry.encodeAll_cons, List.length_append, Entry.length_encode] at positions
  omega

theorem small_of_readsBack (typed : ∀ entry, .write entry ∈ calls → entry.Typed codec) (reads : ReadsBack codec calls) :
    ∀ entry, .write entry ∈ calls → (entry.payload codec).length < 2 ^ 32 := by
  apply small_of_recovered typed
  intro obj
  rw [reads Unit (Target.listening obj) (), replay_listening]
  rfl

/-- What the calls have written is read back, entry by entry and to the end of the
file, exactly if every size fits its header; and in any file the loop passes over
whatever the container does not handle, of every size. -/
theorem journal_read_back_iff (codec : Codec T) (calls : List (JournalCall T)) (typed : ∀ call ∈ calls, call.Typed codec) :
    (ReadsBack codec calls ↔ ∀ call ∈ calls, call.Small codec) ∧
    ∀ (σ : Type) (c : Target σ T) (fresh : σ) (blocks : List (Block T)),
      (∀ block ∈ blocks, block.Fits codec c.undo.isSome) →
        recover c codec fresh (Block.encodeAll codec blocks) = (replay c fresh (Block.entries blocks)).map fun last =>
          ⟨last, (Block.encodeAll codec blocks).length, blocks.map (Block.frame codec)⟩ := by
  have entries : ∀ entry, .write entry ∈ calls → entry.Typed codec := fun entry written => typed _ written
  refine ⟨⟨fun reads call member => ?_, fun small => ?_⟩, fun σ c fresh blocks fits => recover_blocks fits fresh⟩
  · cases call with
    | write entry => exact small_of_readsBack entries reads entry member
    | reopen => trivial
  · exact readsBack_of_small entries fun entry written => small _ written

/-- A start that is overwritten by its commit, a revision that is overwritten twice,
and one that the next journal leaves alone. -/
theorem journal_read_back_iff_books :
    let calls : List (JournalCall Book) :=
      [.write (.insert ⟨0, 1, 1⟩), .write (.level .startUndo 1), .write (.level .commit 1), .write (.level .revision 3), .reopen,
        .write (.level .revision 4), .write (.level .startUndo 5), .write (.modify 0 ⟨0, 2, 1⟩), .reopen, .write (.remove 0)]
    (ReadsBack bookCodec calls ↔ ∀ call ∈ calls, call.Small bookCodec) ∧
    ∀ (σ : Type) (c : Target σ Book) (fresh : σ) (blocks : List (Block Book)),
      (∀ block ∈ blocks, block.Fits bookCodec c.undo.isSome) →
        recover c bookCodec fresh (Block.encodeAll bookCodec blocks) = (replay c fresh (Block.entries blocks)).map fun last =>
          ⟨last, (Block.encodeAll bookCodec blocks).length, blocks.map (Block.frame bookCodec)⟩ :=
  journal_read_back_iff bookCodec _ (by decide)

structure Blob where
  id : Nat
  bytes : List UInt8

def blobCodec (size : Nat) : Codec Blob where
  version := 0
  initial id := ⟨id, List.replicate size 0⟩
  Storable blob := blob.id < 2 ^ 64 ∧ blob.bytes.length = size
  save blob := BigEndian.encode 8 blob.id ++ blob.bytes
  extent _ bytes := if 8 + size ≤ bytes.length then some (8 + size) else none
  load _ bytes old :=
    { id := if 8 ≤ bytes.length then BigEndian.decode (bytes.take 8) else old.id
      bytes := ((bytes.drop 8).take size ++ old.bytes.drop (bytes.length - 8)).take size }
  extent_le read := by
    split at read
    next whole => exact Option.some.inj read ▸ whole
    · cases read
  extent_append more read := by
    split at read
    next whole => simpa [Nat.le_add_right_of_le whole] using read
    · cases read
  extent_save storable := by simp [storable.2]
  load_save {blob} more old storable := by
    obtain ⟨id, bytes⟩ := blob
    obtain ⟨inside, rfl⟩ := storable
    have key := @BigEndian.decode_encode_of_lt 8 id (by simpa using inside)
    simp [key]

/-- An insertion of four gigabytes is written as one without a payload. -/
private theorem large_blob_lost {size : Nat} (large : 2 ^ 32 ≤ size) {blob : Blob} (storable : (blobCodec size).Storable blob) :
    ¬ ReadsBack (blobCodec size) [.write (.insert blob)] := by
  intro reads
  have small := small_of_readsBack (fun entry written => by
    obtain rfl : entry = .insert blob := by simpa using written
    exact storable) reads (.insert blob) (by simp)
  have length : ((Entry.insert blob).payload (blobCodec size)).length = 8 + size := by
    simp [Entry.payload, blobCodec, storable.2]
  omega

theorem oversized_insertion_lost :
    let blob : Blob := ⟨0, List.replicate (2 ^ 32) 0⟩
    (JournalCall.write (.insert blob)).Typed (blobCodec (2 ^ 32)) ∧
      ¬ ReadsBack (blobCodec (2 ^ 32)) [.write (.insert blob)] := by
  have storable : (blobCodec (2 ^ 32)).Storable ⟨0, List.replicate (2 ^ 32) 0⟩ :=
    ⟨by decide, List.length_replicate⟩
  exact ⟨storable, large_blob_lost (Nat.le_refl _) storable⟩

end ChainBase
