import ChainBase.Journal.Rewriting
import ChainBase.Journal.Format

/-! Writing a journal. A header is written twice, blank in front of the payload and
patched when its size is known, and the file is never cut off behind it. -/

namespace ChainBase

/-- `journal`: its file, the position to write at, and `_last_entry`. -/
structure Journal where
  file : List UInt8
  position : Nat
  lastOp : Option JournalOp
  lastPosition : Nat
deriving DecidableEq, Repr

namespace Entry

/-- What `undo_entry` writes in place of the entry written last. -/
def combined {T : Type} : Entry T → Entry T
  | level op revision => level (if op ≠ LevelOp.startUndo then .revision else op) revision
  | data => data

end Entry

namespace Journal

def opened (file : List UInt8) (position : Nat) : Journal := ⟨file, position, none, 0⟩

/-- `write`, over what is there or behind it; a gap is filled with zeros. -/
def output (j : Journal) (bytes : List UInt8) : Journal :=
  { j with
    file := j.file.take j.position ++ List.replicate (j.position - j.file.length) 0 ++ bytes ++
      j.file.drop (j.position + bytes.length)
    position := j.position + bytes.length }

/-- `update_header`, with the checksum of the payload. -/
def updateHeader (j : Journal) (log : JournalLog) (headerPosition : Nat) (crc : UInt32) : Journal :=
  let log := { log with crc, size := UInt32.ofNat (j.position - headerPosition - 16) }
  { { j with position := headerPosition }.output log.bytes with
    position := j.position
    lastOp := JournalOp.fromUnderlying log.type
    lastPosition := headerPosition }

/-- `write_header`, the payload, and `update_header`. -/
def writeEntry (j : Journal) (op : JournalOp) (version : UInt32) (payload : List UInt8) : Journal :=
  let log : JournalLog := ⟨0, 0, op.toUnderlying, version⟩
  ((j.output log.bytes).output payload).updateHeader log j.position (Crc32.checksum payload)

def undoEntry (j : Journal) (revision : Int) (op : LevelOp) : Journal :=
  match j.lastOp with
  | some (.level last) =>
    if canCompressUndoEntry last op then
      { j with position := j.lastPosition }.writeEntry (.level (if op ≠ LevelOp.startUndo then .revision else op)) 0
        (BigEndian.encodeSigned 8 revision)
    else j.writeEntry (.level op) 0 (BigEndian.encodeSigned 8 revision)
  | _ => j.writeEntry (.level op) 0 (BigEndian.encodeSigned 8 revision)

variable {T : Type} (codec : Codec T)

def write (j : Journal) : Entry T → Journal
  | .level op revision => j.undoEntry revision op
  | data => j.writeEntry data.op (data.version codec) (data.payload codec)

def writeAll (j : Journal) (entries : List (Entry T)) : Journal := entries.foldl (write codec) j

/-! ## The two ways to write an entry -/

/-- The entry is one of the undo stack that is combined with the last one. -/
def Combines (j : Journal) : Entry T → Prop
  | .level op _ => ∃ last, j.lastOp = some (.level last) ∧ canCompressUndoEntry last op = true
  | _ => False

instance (j : Journal) : ∀ entry : Entry T, Decidable (j.Combines entry)
  | .level op _ =>
    match kind : j.lastOp with
    | some (.level last) => decidable_of_iff (canCompressUndoEntry last op = true) (by simp [Combines, kind])
    | some .create | some .insert | some .modify | some .remove | none => .isFalse (by simp [Combines, kind])
  | .insert _ | .modify _ _ | .remove _ => .isFalse id

variable {codec}

theorem write_combined {j : Journal} {entry : Entry T} (combines : j.Combines entry) :
    j.write codec entry = { j with position := j.lastPosition }.writeEntry entry.combined.op
      (entry.combined.version codec) (entry.combined.payload codec) := by
  cases entry with
  | level op revision =>
    obtain ⟨last, kind, compresses⟩ := combines
    simp only [write, undoEntry, kind, compresses, if_true, Entry.combined, Entry.op, Entry.version, Entry.payload]
  | insert obj | modify id obj | remove id => exact combines.elim

theorem write_appended {j : Journal} {entry : Entry T} (apart : ¬ j.Combines entry) :
    j.write codec entry = j.writeEntry entry.op (entry.version codec) (entry.payload codec) := by
  cases entry with
  | level op revision =>
    simp only [write, undoEntry, Entry.op, Entry.version, Entry.payload]
    split
    next last kind =>
      rw [if_neg fun compresses => apart ⟨last, kind, compresses⟩]
    · rfl
  | insert obj | modify id obj | remove id => rfl

/-! ## What is in the file -/

/-- The position to write at splits the file. -/
def At (j : Journal) (front rest : List UInt8) : Prop := j.file = front ++ rest ∧ j.position = front.length

theorem At.output {j : Journal} {front rest : List UInt8} (here : j.At front rest) (bytes : List UInt8) :
    (j.output bytes).At (front ++ bytes) (rest.drop bytes.length) := by
  obtain ⟨file, position⟩ := here
  simp [At, Journal.output, file, position, List.drop_append]

theorem At.updateHeader {j : Journal} {front blank payload rest : List UInt8}
    (here : j.At (front ++ blank ++ payload) rest) (log : JournalLog) (crc : UInt32) (header : blank.length = 16) :
    (j.updateHeader log front.length crc).At
      (front ++ ({ log with crc, size := UInt32.ofNat payload.length } : JournalLog).bytes ++ payload) rest := by
  obtain ⟨file, position⟩ := here
  have size : j.position - front.length - 16 = payload.length := by
    rw [position]
    simp only [List.length_append]
    omega
  have seek : At { j with position := front.length } front (blank ++ (payload ++ rest)) := ⟨by simpa using file, rfl⟩
  have patched := seek.output ({ log with crc, size := UInt32.ofNat payload.length } : JournalLog).bytes
  rw [JournalLog.length_bytes, List.drop_left' header] at patched
  simp only [Journal.updateHeader, size]
  exact ⟨by rw [List.append_assoc]; exact patched.1, position.trans (by simp [header])⟩

theorem At.writeEntry {j : Journal} {front rest : List UInt8} (here : j.At front rest) (entry : Entry T) :
    (j.writeEntry entry.op (entry.version codec) (entry.payload codec)).At
      (front ++ entry.encode codec) (rest.drop (entry.encode codec).length) := by
  have blank := here.output (⟨0, 0, entry.op.toUnderlying, entry.version codec⟩ : JournalLog).bytes
  have whole := (blank.output (entry.payload codec)).updateHeader ⟨0, 0, entry.op.toUnderlying, entry.version codec⟩
    (Crc32.checksum (entry.payload codec)) (JournalLog.length_bytes _)
  rw [← here.2, List.drop_drop, JournalLog.length_bytes] at whole
  rw [Entry.length_encode, Entry.encode, ← List.append_assoc]
  exact whole

/-- These entries have been written from the end of `front` on, over the bytes of `rest`. -/
structure Wrote (codec : Codec T) (front rest : List UInt8) (entries : List (Entry T)) (j : Journal) : Prop where
  place : j.At (front ++ Entry.encodeAll codec entries) (rest.drop (Entry.encodeAll codec entries).length)
  last : match entries.getLast? with
    | none => j.lastOp = none
    | some entry => j.lastOp = some entry.op ∧ j.lastPosition = (front ++ Entry.encodeAll codec entries.dropLast).length

variable {front rest : List UInt8} {entries : List (Entry T)} {j : Journal}

theorem Wrote.append (wrote : Wrote codec front rest entries j) (entry : Entry T) :
    Wrote codec front rest (entries ++ [entry]) (j.writeEntry entry.op (entry.version codec) (entry.payload codec)) where
  place := by
    have written := @At.writeEntry _ codec _ _ _ wrote.place entry
    rw [List.drop_drop] at written
    simpa [Entry.encodeAll, List.append_assoc] using written
  last := by
    simp only [List.getLast?_concat, List.dropLast_concat]
    exact ⟨JournalOp.fromUnderlying_toUnderlying entry.op, wrote.place.2⟩

theorem Wrote.replace {old : Entry T} (wrote : Wrote codec front rest (entries ++ [old]) j) (entry : Entry T)
    (size : (entry.encode codec).length = (old.encode codec).length) : Wrote codec front rest (entries ++ [entry])
      ({ j with position := j.lastPosition }.writeEntry entry.op (entry.version codec) (entry.payload codec)) where
  place := by
    have file := wrote.place.1
    have position := wrote.last
    simp only [List.getLast?_concat, List.dropLast_concat] at position
    have seek : At { j with position := j.lastPosition } (front ++ Entry.encodeAll codec entries)
        (old.encode codec ++ rest.drop (Entry.encodeAll codec (entries ++ [old])).length) := by
      refine ⟨?_, position.2⟩
      rw [file]
      simp [Entry.encodeAll]
    have written := @At.writeEntry _ codec _ _ _ seek entry
    rw [List.drop_left' size.symm] at written
    simpa [Entry.encodeAll, List.append_assoc, size] using written
  last := by
    have position := wrote.last
    simp only [List.getLast?_concat, List.dropLast_concat] at position ⊢
    exact ⟨JournalOp.fromUnderlying_toUnderlying entry.op, position.2⟩

private theorem Wrote.combined (wrote : Wrote codec front rest entries j) {entry : Entry T} (combines : j.Combines entry) :
    ∃ earlier final, entries = earlier ++ [final] ∧ Entry.write entries entry = earlier ++ [entry.combined] ∧
      (entry.combined.encode codec).length = (final.encode codec).length := by
  cases entry with
  | level op revision =>
    obtain ⟨last, kind, compresses⟩ := combines
    have told := wrote.last
    rcases entries.eq_nil_or_concat with rfl | ⟨earlier, final, rfl⟩
    · cases told.symm.trans kind
    · simp only [List.concat_eq_append, List.getLast?_concat] at told
      cases final with
      | level other first =>
        cases told.1.symm.trans kind
        exact ⟨earlier, .level last first, by simp, by simp [Entry.write, Entry.combined, compresses],
          by simp [Entry.length_encode, Entry.combined, Entry.payload]⟩
      | insert obj | modify id obj | remove id => cases told.1.symm.trans kind
  | insert obj | modify id obj | remove id => exact combines.elim

private theorem Wrote.appended (wrote : Wrote codec front rest entries j) {entry : Entry T} (apart : ¬ j.Combines entry) :
    Entry.write entries entry = entries ++ [entry] := by
  cases entry with
  | level op revision =>
    rcases entries.eq_nil_or_concat with rfl | ⟨earlier, final, rfl⟩
    · rfl
    · have told := wrote.last
      simp only [List.concat_eq_append, List.getLast?_concat] at told
      cases final with
      | level kind first =>
        have differs : ¬ canCompressUndoEntry kind op = true := fun compresses => apart ⟨kind, told.1, compresses⟩
        simp [Entry.write, differs]
      | insert obj | modify id obj | remove id => simp [Entry.write]
  | insert obj | modify id obj | remove id => rfl

theorem Wrote.write (wrote : Wrote codec front rest entries j) (entry : Entry T) :
    Wrote codec front rest (Entry.write entries entry) (j.write codec entry) := by
  by_cases combines : j.Combines entry
  · obtain ⟨earlier, final, same, written, size⟩ := wrote.combined combines
    rw [written, write_combined combines]
    rw [same] at wrote
    exact wrote.replace entry.combined size
  · rw [wrote.appended combines, write_appended combines]
    exact wrote.append entry

/-- Everything written after `open`, the last entry of the file before it left alone. -/
theorem wrote_writeAll (front rest : List UInt8) (calls : List (Entry T)) :
    Wrote codec front rest (Entry.rewrite calls) ((opened (front ++ rest) front.length).writeAll codec calls) := by
  have start : Wrote codec front rest [] (opened (front ++ rest) front.length) :=
    ⟨by simp [At, opened, Entry.encodeAll], rfl⟩
  have all : ∀ entries j, Wrote codec front rest entries j →
      Wrote codec front rest (calls.foldl Entry.write entries) (j.writeAll codec calls) := by
    induction calls with
    | nil => exact fun entries j wrote => wrote
    | cons call calls ih => exact fun entries j wrote => ih _ _ (wrote.write call)
  exact all [] _ start

end Journal
end ChainBase
