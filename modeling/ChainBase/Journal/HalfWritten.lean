import ChainBase.Journal.Torn

/-! An entry of the undo stack that is written over the last one, and a process that is lost
on the way. Until the header is patched the file holds a part of either entry, and recovery
applies what it reads there. -/

/-! ## Writing over bytes -/

namespace Overwriting
variable {α : Type u} {first second third fourth : List α}

/-- Bytes written over as many others. -/
def overlay (bytes old : List α) : List α := bytes ++ old.drop bytes.length

theorem length_overlay (inside : first.length ≤ second.length) : (overlay first second).length = second.length := by
  simp [overlay]
  omega

theorem overlay_append (same : first.length = third.length) (n : Nat) :
    overlay ((first ++ second).take n) (third ++ fourth) =
      overlay (first.take n) third ++ overlay (second.take (n - first.length)) fourth := by
  rcases Nat.le_total n first.length with short | long
  · have none : n - first.length = 0 := Nat.sub_eq_zero_of_le short
    simp only [overlay, List.take_append, none, List.take_zero, List.append_nil, List.length_take, Nat.min_eq_left short, List.length_nil,
      List.drop_zero, List.drop_append_of_le_length (same ▸ short : n ≤ third.length), List.nil_append, List.append_assoc]
  · have whole : first.take n = first := List.take_of_length_le long
    have behind : first.length + (second.take (n - first.length)).length - third.length = (second.take (n - first.length)).length := by
      omega
    simp only [overlay, List.take_append, whole, List.length_append, List.drop_append, List.append_assoc, behind]
    rw [List.drop_eq_nil_of_le (by omega : third.length ≤ first.length + _),
      List.drop_eq_nil_of_le (by omega : third.length ≤ first.length)]
    simp

theorem overlay_take (n : Nat) (old : List α) : overlay (old.take n) old = old := by
  rcases Nat.le_total n old.length with short | long
  · rw [overlay, List.length_take, Nat.min_eq_left short, List.take_append_drop]
  · rw [overlay, List.take_of_length_le long, List.drop_length, List.append_nil]

theorem overlay_whole (same : first.length = second.length) : overlay first second = first := by
  rw [overlay, same, List.drop_length, List.append_nil]

end Overwriting

namespace ChainBase
open OrderedSequence Overwriting

variable {T : Type}

namespace Entry
variable (codec : Codec T)

/-- The place of an entry that another one of its size is written over, when so many bytes
have been: first the blank header and the payload, and then the header again. -/
def overwritten (old new : Entry T) (written : Nat) : List UInt8 :=
  overlay ((new.log codec).bytes.take (written - (16 + (new.payload codec).length)))
    (overlay (((new.blank codec).bytes ++ new.payload codec).take written) (old.encode codec))

end Entry

/-- `undo_entry` over the last entry, in a process that is lost when so many bytes of what it
writes are in the file. -/
def Journal.halfWritten (codec : Codec T) (j : Journal) (entry : Entry T) (written : Nat) : List UInt8 :=
  let body := { j with position := j.lastPosition }.output (((entry.blank codec).bytes ++ entry.payload codec).take written)
  ({ body with position := j.lastPosition }.output
    ((entry.log codec).bytes.take (written - (16 + (entry.payload codec).length)))).file

variable {codec : Codec T}

theorem Journal.At.overlay {j : Journal} {front old rest bytes : List UInt8} (here : j.At front (old ++ rest))
    (inside : bytes.length ≤ old.length) : (j.output bytes).file = front ++ (overlay bytes old ++ rest) := by
  rw [(here.output bytes).1, List.drop_append_of_le_length inside, Overwriting.overlay, List.append_assoc, List.append_assoc]

theorem Journal.Wrote.halfWritten {front rest : List UInt8} {entries : List (Entry T)} {old : Entry T} {j : Journal}
    (wrote : Wrote codec front rest (entries ++ [old]) j) (new : Entry T)
    (size : (new.payload codec).length = (old.payload codec).length) (written : Nat) :
    j.halfWritten codec new written = front ++ Entry.encodeAll codec entries ++ old.overwritten codec new written ++
      rest.drop (Entry.encodeAll codec (entries ++ [old])).length := by
  have position := wrote.last
  simp only [List.getLast?_concat, List.dropLast_concat] at position
  have seek : At { j with position := j.lastPosition } (front ++ Entry.encodeAll codec entries)
      (old.encode codec ++ rest.drop (Entry.encodeAll codec (entries ++ [old])).length) := by
    refine ⟨?_, position.2⟩
    rw [wrote.place.1]
    simp [Entry.encodeAll]
  have length : (old.encode codec).length = 16 + (new.payload codec).length := by rw [Entry.length_encode, size]
  have first : (((new.blank codec).bytes ++ new.payload codec).take written).length ≤ (old.encode codec).length := by
    simp [length]
  have second : ((new.log codec).bytes.take (written - (16 + (new.payload codec).length))).length ≤
      (overlay (((new.blank codec).bytes ++ new.payload codec).take written) (old.encode codec)).length := by
    rw [length_overlay first, length]
    simp
  have again : At { { j with position := j.lastPosition }.output (((new.blank codec).bytes ++ new.payload codec).take written) with
      position := j.lastPosition } (front ++ Entry.encodeAll codec entries)
      (overlay (((new.blank codec).bytes ++ new.payload codec).take written) (old.encode codec) ++
        rest.drop (Entry.encodeAll codec (entries ++ [old])).length) := ⟨seek.overlay first, position.2⟩
  rw [Journal.halfWritten, again.overlay second, Entry.overwritten]
  simp only [List.append_assoc]

/-- With nothing written the place holds the old entry, and with everything the new one. -/
theorem Entry.overwritten_ends {old new : Entry T} (size : (new.payload codec).length = (old.payload codec).length) :
    old.overwritten codec new 0 = old.encode codec ∧
      old.overwritten codec new (16 + (new.payload codec).length + 16) = new.encode codec := by
  constructor
  · simp [overwritten, overlay]
  · have behind : 16 + (new.payload codec).length + 16 - (16 + (new.payload codec).length) = 16 := by omega
    have whole : ((new.blank codec).bytes ++ new.payload codec).take (16 + (new.payload codec).length + 16) =
        (new.blank codec).bytes ++ new.payload codec := List.take_of_length_le (by simp)
    have body : overlay ((new.blank codec).bytes ++ new.payload codec) (old.encode codec) =
        (new.blank codec).bytes ++ new.payload codec := overlay_whole (by simp [Entry.length_encode, size])
    have header : (new.log codec).bytes.take 16 = (new.log codec).bytes := List.take_of_length_le (by simp)
    rw [overwritten, behind, whole, body, header, overlay, List.drop_left' (by simp), Entry.encode]

/-! ## What recovery reads -/

/-- The revision whose bytes are in the file. -/
def revisionAt (first second : Int) (written : Nat) : Int :=
  BigEndian.decodeSigned (overlay ((BigEndian.encodeSigned 8 second).take (written - 16)) (BigEndian.encodeSigned 8 first))

private theorem type_overlay (last op : LevelOp) (k : Nat) :
    overlay ((BigEndian.encode 4 (JournalOp.level op).toUnderlying.toNat).take k)
        (BigEndian.encode 4 (JournalOp.level last).toUnderlying.toNat) =
      BigEndian.encode 4 (JournalOp.level (if k < 4 then last else op)).toUnderlying.toNat := by
  have high : ∀ kind : LevelOp, (BigEndian.encode 4 (JournalOp.level kind).toUnderlying.toNat).take 3 = [0, 0, 0] := by
    intro kind
    cases kind <;> rfl
  rcases Nat.lt_or_ge k 4 with some_ | whole
  · have same : (BigEndian.encode 4 (JournalOp.level op).toUnderlying.toNat).take k =
        (BigEndian.encode 4 (JournalOp.level last).toUnderlying.toNat).take k := by
      have least : min k 3 = k := by omega
      rw [← least, ← List.take_take, ← List.take_take, high, high]
    rw [same, overlay_take, if_pos some_]
  · rw [List.take_of_length_le (by simpa using whole), overlay_whole (by simp), if_neg (Nat.not_lt.mpr whole)]

private theorem header_overlay (log : JournalLog) (low type version : List UInt8) (eight : low.length = 8)
    (four : type.length = 4) (n : Nat) :
    ∃ other : List UInt8, other.length = 8 ∧ overlay (log.bytes.take n) (low ++ (type ++ version)) =
      other ++ (overlay ((BigEndian.encode 4 log.type.toNat).take (n - 8)) type ++
        overlay ((BigEndian.encode 4 log.version.toNat).take (n - 8 - 4)) version) := by
  have front : (BigEndian.encode 4 log.crc.toNat ++ BigEndian.encode 4 log.size.toNat).length = low.length := by simp [eight]
  refine ⟨overlay ((BigEndian.encode 4 log.crc.toNat ++ BigEndian.encode 4 log.size.toNat).take n) low, ?_, ?_⟩
  · rw [length_overlay (by simp [eight]), eight]
  · rw [JournalLog.bytes, ← List.append_assoc, overlay_append front, overlay_append (by simp [four])]
    simp

def Entry.mixedHeader (codec : Codec T) (old new : Entry T) (written : Nat) : List UInt8 :=
  overlay ((new.log codec).bytes.take (written - (16 + (new.payload codec).length)))
    (overlay ((new.blank codec).bytes.take written) (old.log codec).bytes)

theorem Entry.length_mixedHeader (old new : Entry T) (written : Nat) : (old.mixedHeader codec new written).length = 16 := by
  have inner : (overlay ((new.blank codec).bytes.take written) (old.log codec).bytes).length = 16 := by
    rw [length_overlay (by simp), JournalLog.length_bytes]
  rw [mixedHeader, length_overlay (by rw [inner]; simp), inner]

theorem Entry.overwritten_parts (old new : Entry T) (written : Nat) : old.overwritten codec new written =
    old.mixedHeader codec new written ++ overlay ((new.payload codec).take (written - 16)) (old.payload codec) := by
  have inner : (overlay ((new.blank codec).bytes.take written) (old.log codec).bytes).length = (new.log codec).bytes.length := by
    rw [length_overlay (by simp), JournalLog.length_bytes, JournalLog.length_bytes]
  have outer := @overlay_append _ (new.log codec).bytes [] _
    (overlay ((new.payload codec).take (written - 16)) (old.payload codec)) inner.symm (written - (16 + (new.payload codec).length))
  rw [List.append_nil, List.take_nil] at outer
  rw [overwritten, encode, overlay_append (by simp), JournalLog.length_bytes]
  exact outer

/-- The type is in the last four bytes but four. -/
theorem Entry.mixedHeader_type (last op : LevelOp) (first second : Int) (written : Nat) :
    (JournalLog.ofBytes ((Entry.level last first : Entry T).mixedHeader codec (.level op second) written)).type =
      (JournalOp.level (if written < 12 then last else op)).toUnderlying := by
  let old : Entry T := .level last first
  let new : Entry T := .level op second
  have size : (new.payload codec).length = 8 := by simp [new, payload]
  have parts : (old.log codec).bytes =
      BigEndian.encode 4 (old.log codec).crc.toNat ++ BigEndian.encode 4 (old.log codec).size.toNat ++
        (BigEndian.encode 4 (old.log codec).type.toNat ++ BigEndian.encode 4 (old.log codec).version.toNat) := by
    rw [JournalLog.bytes, List.append_assoc]
  obtain ⟨low, eight, blanked⟩ := header_overlay (new.blank codec)
    (BigEndian.encode 4 (old.log codec).crc.toNat ++ BigEndian.encode 4 (old.log codec).size.toNat)
    (BigEndian.encode 4 (old.log codec).type.toNat) (BigEndian.encode 4 (old.log codec).version.toNat) (by simp) (by simp) written
  have inner : overlay ((BigEndian.encode 4 (new.blank codec).type.toNat).take (written - 8))
        (BigEndian.encode 4 (old.log codec).type.toNat) =
      BigEndian.encode 4 (JournalOp.level (if written - 8 < 4 then last else op)).toUnderlying.toNat :=
    type_overlay last op (written - 8)
  rw [inner, ← parts] at blanked
  obtain ⟨other, again, patched⟩ := header_overlay (new.log codec) low
    (BigEndian.encode 4 (JournalOp.level (if written - 8 < 4 then last else op)).toUnderlying.toNat)
    (overlay ((BigEndian.encode 4 (new.blank codec).version.toNat).take (written - 8 - 4))
      (BigEndian.encode 4 (old.log codec).version.toNat))
    eight (by simp) (written - (16 + 8))
  have outer : overlay ((BigEndian.encode 4 (new.log codec).type.toNat).take (written - (16 + 8) - 8))
      (BigEndian.encode 4 (JournalOp.level (if written - 8 < 4 then last else op)).toUnderlying.toNat) = _ :=
    type_overlay (if written - 8 < 4 then last else op) op (written - (16 + 8) - 8)
  have kinds : (if written - (16 + 8) - 8 < 4 then if written - 8 < 4 then last else op else op) =
      if written < 12 then last else op := by
    rcases Nat.lt_or_ge written 12 with early | late
    · have both : written - 8 < 4 ∧ written - (16 + 8) - 8 < 4 := by omega
      simp [both, early]
    · have behind : ¬ written - 8 < 4 := by omega
      simp [behind, Nat.not_lt.mpr late]
  rw [kinds] at outer
  rw [← blanked, outer] at patched
  have type : ((old.mixedHeader codec new written).drop 8).take 4 =
      BigEndian.encode 4 (JournalOp.level (if written < 12 then last else op)).toUnderlying.toNat := by
    rw [mixedHeader, size, patched, List.drop_left' again, List.take_left' (BigEndian.length_encode 4 _)]
  show UInt32.ofNat (BigEndian.decode (((old.mixedHeader codec new written).drop 8).take 4)) = _
  rw [type, BigEndian.decode_encode_of_lt (UInt32.toNat_lt _), UInt32.ofNat_toNat]

/-! ## What recovery does -/

variable {σ : Type} {c : Target σ T}

theorem scan_last {log : JournalLog} {payload : List UInt8} (whole : log.extent codec c.undo.isSome payload = some payload.length)
    (rounds position : Nat) (s : σ) :
    (scan c codec (rounds + 2) position (log.bytes ++ payload) s).map Recovered.container = log.act codec c s payload := by
  by_cases matched : log.Matches (payload.take payload.length)
  · rw [scan_matched whole matched, List.drop_length]
    cases log.act codec c s payload with
    | error failure => rfl
    | ok after =>
      simp only [Except.bind]
      rw [scan_short (by simp)]
      rfl
  · rw [scan_mismatched whole matched]
    cases log.act codec c s payload <;> rfl

theorem replay_one (entry : Entry T) (s : σ) : replay c s [entry] = entry.applyRecover c s := by
  rw [replay, List.foldlM_cons]
  cases entry.applyRecover c s <;> rfl

/-- Recovery applies what it reads as one entry of the undo stack. -/
theorem recover_overwritten (propagates : c.Propagates) (levels : c.undo.isSome) (fresh : σ) {front : List (Entry T)}
    (fits : ∀ entry ∈ front, entry.Fits codec) (last op : LevelOp) (first second : Int) (written : Nat) :
    (recover c codec fresh (Entry.encodeAll codec front ++
      (Entry.level last first : Entry T).overwritten codec (.level op second) written)).map Recovered.container =
      replay c fresh (front ++ [.level (if written < 12 then last else op) (revisionAt first second written)]) := by
  let header := (Entry.level last first : Entry T).mixedHeader codec (.level op second) written
  let payload := overlay ((BigEndian.encodeSigned 8 second).take (written - 16)) (BigEndian.encodeSigned 8 first)
  have eight : payload.length = 8 := by rw [length_overlay (by simp), BigEndian.length_encodeSigned]
  have parts : (Entry.level last first : Entry T).overwritten codec (.level op second) written =
      (JournalLog.ofBytes header).bytes ++ payload := by
    rw [JournalLog.bytes_ofBytes (Entry.length_mixedHeader _ _ written)]
    exact Entry.overwritten_parts _ _ written
  have type : (JournalLog.ofBytes header).type = _ := Entry.mixedHeader_type last op first second written
  have whole : (JournalLog.ofBytes header).extent codec c.undo.isSome payload = some payload.length := by
    simp [JournalLog.extent, type, levels, eight]
  have acts (s : σ) : (JournalLog.ofBytes header).act codec c s payload =
      (Entry.level (if written < 12 then last else op) (revisionAt first second written) : Entry T).applyRecover c s := by
    have all : payload.take 8 = payload := List.take_of_length_le (Nat.le_of_eq eight)
    obtain ⟨undo, some_⟩ := Option.isSome_iff_exists.mp levels
    simp [JournalLog.act, type, some_, all, Entry.applyRecover, revisionAt, payload]
  obtain ⟨rounds, total⟩ : ∃ rounds, ((JournalLog.ofBytes header).bytes ++ payload).length + 1 = rounds + 2 :=
    ⟨((JournalLog.ofBytes header).bytes ++ payload).length - 1, by simp; omega⟩
  rw [recover_entries propagates fits, parts, total, replay_append]
  cases replay c fresh front with
  | error failure => rfl
  | ok s =>
    have ran := scan_last whole rounds (Entry.encodeAll codec front).length s
    simp only [Except.bind]
    rw [replay_one, ← acts, ← ran]
    cases scan c codec (rounds + 2) (Entry.encodeAll codec front).length ((JournalLog.ofBytes header).bytes ++ payload) s <;> rfl

/-! ## The revision -/

private theorem mixed_bounds {first second k : Nat} (rises : first ≤ second) (bounded : second < 2 ^ 63) :
    first ≤ second / 256 ^ (8 - k) * 256 ^ (8 - k) + first % 256 ^ (8 - k) ∧
      second / 256 ^ (8 - k) * 256 ^ (8 - k) + first % 256 ^ (8 - k) < 2 ^ 63 := by
  have positive : 0 < 256 ^ (8 - k) := Nat.pow_pos (by decide)
  have lower := Nat.div_le_div_right (c := 256 ^ (8 - k)) rises
  have parts := Nat.div_add_mod' first (256 ^ (8 - k))
  have least := Nat.mul_le_mul_right (256 ^ (8 - k)) lower
  refine ⟨by omega, ?_⟩
  cases k with
  | zero =>
    have none : second / 256 ^ 8 = 0 := Nat.div_eq_of_lt (bounded.trans (by decide))
    have all : first % 256 ^ 8 ≤ first := Nat.mod_le _ _
    simp only [Nat.sub_zero, none]
    omega
  | succ k =>
    have split : 2 ^ 63 = 256 ^ (8 - (k + 1)) * 2 ^ (63 - 8 * (8 - (k + 1))) := by
      rw [show 256 = 2 ^ 8 by rfl, ← Nat.pow_mul, ← Nat.pow_add]
      congr 1
      omega
    have high : second / 256 ^ (8 - (k + 1)) < 2 ^ (63 - 8 * (8 - (k + 1))) := Nat.div_lt_of_lt_mul (split ▸ bounded)
    have low : first % 256 ^ (8 - (k + 1)) < 256 ^ (8 - (k + 1)) := Nat.mod_lt _ positive
    calc second / 256 ^ (8 - (k + 1)) * 256 ^ (8 - (k + 1)) + first % 256 ^ (8 - (k + 1))
        < (second / 256 ^ (8 - (k + 1)) + 1) * 256 ^ (8 - (k + 1)) := by rw [Nat.add_one_mul]; omega
      _ ≤ 2 ^ (63 - 8 * (8 - (k + 1))) * 256 ^ (8 - (k + 1)) := Nat.mul_le_mul_right _ high
      _ = 2 ^ 63 := by rw [Nat.mul_comm, ← split]

/-- The high bytes are those of the new revision, the low ones those of the old. -/
theorem revisionAt_natCast {first second : Nat} (rises : first ≤ second) (bounded : second < 2 ^ 63) (written : Nat) :
    revisionAt first second written =
      (second / 256 ^ (8 - (written - 16)) * 256 ^ (8 - (written - 16)) + first % 256 ^ (8 - (written - 16)) : Nat) := by
  have inside : min (written - 16) 8 ≤ 8 := Nat.min_le_right _ _
  have behind : 8 - min (written - 16) 8 = 8 - (written - 16) := by omega
  have bytes : overlay ((BigEndian.encodeSigned 8 (second : Int)).take (written - 16)) (BigEndian.encodeSigned 8 (first : Int)) =
      (BigEndian.encode 8 second).take (min (written - 16) 8) ++ (BigEndian.encode 8 first).drop (min (written - 16) 8) := by
    rw [BigEndian.encodeSigned_natCast, BigEndian.encodeSigned_natCast, overlay, List.take_eq_take_min, List.length_take,
      BigEndian.length_encode, Nat.min_eq_left inside]
  have number := BigEndian.decode_mixed inside first second (bounded.trans (by decide))
  rw [behind, ← bytes] at number
  have small := (mixed_bounds (k := written - 16) rises bounded).2
  have eight : (overlay ((BigEndian.encodeSigned 8 (second : Int)).take (written - 16))
      (BigEndian.encodeSigned 8 (first : Int))).length = 8 := by
    rw [length_overlay (by simp), BigEndian.length_encodeSigned]
  rw [revisionAt, BigEndian.decodeSigned_of_lt (by rw [number, eight]; omega), number]

/-- It is not below the old one, and may lie above the new one. -/
theorem revisionAt_between {first second : Int} (least : 0 ≤ first) (rises : first ≤ second)
    (bounded : second ≤ UndoMultiIndex.int64Max) (written : Nat) :
    first ≤ revisionAt first second written ∧ revisionAt first second written ≤ UndoMultiIndex.int64Max := by
  obtain ⟨first, rfl⟩ := Int.eq_ofNat_of_zero_le least
  obtain ⟨second, rfl⟩ := Int.eq_ofNat_of_zero_le (least.trans rises)
  have fits : second < 2 ^ 63 := by
    simp only [UndoMultiIndex.int64Max] at bounded
    omega
  have both := mixed_bounds (k := written - 16) (Int.ofNat_le.mp rises) fits
  rw [revisionAt_natCast (Int.ofNat_le.mp rises) fits]
  simp only [UndoMultiIndex.int64Max]
  omega

theorem revisionAt_early {first second : Int} (least : -2 ^ 63 ≤ first) (bounded : first ≤ UndoMultiIndex.int64Max) {written : Nat}
    (early : written ≤ 16) : revisionAt first second written = first := by
  rw [revisionAt, Nat.sub_eq_zero_of_le early, List.take_zero, overlay, List.nil_append, List.length_nil, List.drop_zero]
  simp only [UndoMultiIndex.int64Max] at bounded
  exact BigEndian.decodeSigned_encodeSigned (by omega) (by omega)

theorem revisionAt_same {revision : Int} (least : -2 ^ 63 ≤ revision) (bounded : revision ≤ UndoMultiIndex.int64Max) (written : Nat) :
    revisionAt revision revision written = revision := by
  simp only [UndoMultiIndex.int64Max] at bounded
  rw [revisionAt, overlay_take]
  exact BigEndian.decodeSigned_encodeSigned (by omega) (by omega)

end ChainBase

namespace Versioned
open ChainBase

variable {σ : Type} {m u w : Versioned σ} {first second number : Int}

theorem replay_startUndo_stuck (same : number = m.revision) : m.replay number .startUndo = none := by
  have neither : ¬ (m.revision + 1 = number) ∧ ¬ (m.revision < number - 1) := by omega
  simp [replay, neither]

/-- Entries that are combined leave the objects alone, and the revision does not fall. -/
theorem replay_combined {last next : LevelOp} (compresses : canCompressUndoEntry last next = true) (before : m.replay first last = some u)
    (called : u.replay second next = some w) (nonneg : 0 ≤ second) :
    w.current = u.current ∧ u.revision = first ∧ 0 ≤ first ∧ first ≤ second := by
  simp only [canCompressUndoEntry, decide_eq_true_eq] at compresses
  rcases compresses with ⟨rfl, rfl⟩ | ⟨rfl, rfl | rfl⟩
  · obtain ⟨-, rfl⟩ := replay_startUndo.mp before
    obtain ⟨rfl, rfl⟩ := replay_commit.mp called
    exact ⟨rfl, rfl, nonneg, Int.le_refl _⟩
  · obtain ⟨⟨-, -, least, -⟩, rfl⟩ := replay_revision.mp before
    obtain ⟨number, rfl⟩ := replay_startUndo.mp called
    simp only at number
    exact ⟨rfl, rfl, least, by omega⟩
  · obtain ⟨⟨-, -, least, -⟩, rfl⟩ := replay_revision.mp before
    obtain ⟨⟨-, rises, -⟩, rfl⟩ := replay_revision.mp called
    exact ⟨rfl, rfl, least, rises⟩

/-- The entry that is read between two others, the second of which is written over the first:
the level is there or not, and the revision may be neither. Only a level whose revision has
been set before it to what it was cannot be started. -/
theorem replay_halfway {last next : LevelOp} (compresses : canCompressUndoEntry last next = true) (grounded : m.Grounded)
    (before : m.replay first last = some u) (called : u.replay second next = some w)
    (combined : m.replay second (if next ≠ .startUndo then .revision else next) = some w) (bounded : second ≤ UndoMultiIndex.int64Max)
    (written : Nat) :
    m.replay (revisionAt first second written) (if written < 12 then last else if next ≠ .startUndo then .revision else next) =
      if 12 ≤ written ∧ next = .startUndo ∧ revisionAt first second written = m.revision then none
      else some ⟨w.current, if written < 12 then u.saved else w.saved, revisionAt first second written⟩ := by
  have kinds := compresses
  simp only [canCompressUndoEntry, decide_eq_true_eq] at kinds
  rcases kinds with ⟨rfl, rfl⟩ | ⟨rfl, rfl | rfl⟩
  · obtain ⟨-, rfl⟩ := replay_startUndo.mp before
    obtain ⟨rfl, rfl⟩ := replay_commit.mp called
    obtain ⟨⟨-, -, nonneg, -⟩, -⟩ := replay_revision.mp combined
    simp only at nonneg bounded combined
    rw [revisionAt_same (by omega) bounded]
    by_cases early : written < 12
    · simp [early, before]
    · simpa [early] using combined
  · obtain ⟨⟨closed, higher, nonneg, fits⟩, rfl⟩ := replay_revision.mp before
    obtain ⟨number, rfl⟩ := replay_startUndo.mp called
    have rises : first ≤ second := by
      simp only at number
      omega
    obtain ⟨least, most⟩ := revisionAt_between nonneg rises bounded written
    by_cases early : written < 12
    · have same : revisionAt first second written = first := revisionAt_early (by omega) fits (by omega)
      simp [early, Nat.not_le.mpr early, same, before]
    · have late : 12 ≤ written := Nat.not_lt.mp early
      simp only [early, if_false, late, true_and, ne_eq, not_true_eq_false]
      by_cases same : revisionAt first second written = m.revision
      · rw [if_pos same, replay_startUndo_stuck same]
      · rw [if_neg same]
        have positive : 0 ≤ m.revision := by simpa [Grounded, closed] using grounded
        refine replay_startUndo.mpr ⟨?_, by rw [closed]⟩
        by_cases next : m.revision + 1 = revisionAt first second written
        · exact .inl next
        · exact .inr ⟨by omega, closed, by omega, by omega⟩
  · obtain ⟨⟨closed, higher, nonneg, fits⟩, rfl⟩ := replay_revision.mp before
    obtain ⟨⟨-, rises, -, -⟩, rfl⟩ := replay_revision.mp called
    obtain ⟨least, most⟩ := revisionAt_between nonneg rises bounded written
    have set : m.replay (revisionAt first second written) .revision = some ⟨m.current, [], revisionAt first second written⟩ :=
      replay_revision.mpr ⟨⟨closed, by omega, by omega, most⟩, rfl⟩
    simpa using set

end Versioned

namespace ChainBase
open OrderedSequence UndoMultiIndex

namespace JournaledOp
variable {T : Type} [Object T] {keys : List (Comparator T)}

private theorem fails_of_map {φ α β : Type} {f : α → β} {x : Except φ α} {failure : φ} (fails : x.map f = .error failure) :
    x = .error failure := by
  cases x with
  | error other => exact congrArg Except.error (Except.error.inj fails)
  | ok a => cases fails

private theorem ends_of_map {φ α β : Type} {f : α → β} {x : Except φ α} {b : β} (ends : x.map f = .ok b) :
    ∃ a, x = .ok a ∧ f a = b := by
  cases x with
  | error failure => cases ends
  | ok a => exact ⟨a, rfl, Except.ok.inj ends⟩

private theorem call_means [Inhabited T] {ops : List (JournaledOp T)} {op : JournaledOp T} {outputs : List (Reply × List (Entry T))}
    {s live : UndoMultiIndex T} {reply : Reply} {entry : Entry T}
    (permitted : Run.Permitted step (fun s op => Succeeds s op ∧ CommitsAll s op ∧ UndoOp.Fits s op.toUndoOp)
      (UndoMultiIndex.empty keys) (ops ++ [op]))
    (ran : Run.run step (UndoMultiIndex.empty keys) ops = some (outputs, s)) (called : step s op = some ((reply, [entry]), live)) :
    ∃ w : Versioned (Table T keys),
      (Recording.recorded outputs ++ [entry]).foldlM Entry.onVersioned ⟨Table.empty keys, [], 0⟩ = some w ∧ live.Refines w ∧
      Entry.GoodFrom (⟨Table.empty keys, [], 0⟩ : Versioned (Table T keys)) (Recording.recorded outputs ++ [entry]) := by
  have whole : Run.run step (UndoMultiIndex.empty keys) (ops ++ [op]) = some (outputs ++ [(reply, [entry])], live) :=
    Run.run_append ran (Run.run_step called rfl)
  have journal : Recording.recorded (outputs ++ [(reply, [entry])]) = Recording.recorded outputs ++ [entry] :=
    Recording.recorded_append outputs _
  have inRange : Run.Permitted step (fun s op => Succeeds s op ∧ InRange s op) (UndoMultiIndex.empty keys) (ops ++ [op]) := by
    refine @Run.permitted_mono _ _ _ _ _ _ (fun _ => True) (fun s op _ both => ⟨both.1, ?_⟩) (fun _ _ _ _ _ _ _ => trivial) _ _
      trivial permitted
    cases op <;> first | trivial | exact both.2.2
  obtain ⟨told, last, w, again, applied, refines⟩ :=
    Recording.run_replayed stepped_replayed (UndoMultiIndex.Refines.empty keys) permitted
  cases whole.symm.trans again
  have good := recorded_good inRange whole
  rw [journal] at applied good
  exact ⟨w, applied, refines, good⟩

private theorem overwriting_means {calls front : List (Entry T)} {v w : Versioned (Table T keys)} {last next : LevelOp}
    {first second : Int} (closed : v.saved = []) (good : Entry.GoodFrom v (calls ++ [Entry.level next second]))
    (reached : (calls ++ [Entry.level next second]).foldlM Entry.onVersioned v = some w)
    (rewritable : Entry.Rewritable (calls ++ [Entry.level next second])) (file : Entry.rewrite calls = front ++ [.level last first])
    (compresses : canCompressUndoEntry last next = true) :
    ∃ m u, Entry.GoodFrom v front ∧ front.foldlM Entry.onVersioned v = some m ∧ calls.foldlM Entry.onVersioned v = some u ∧
      m.replay first last = some u ∧ u.replay second next = some w ∧
      m.replay second (if next ≠ .startUndo then .revision else next) = some w ∧ 0 ≤ second ∧ second ≤ int64Max := by
  obtain ⟨u, earlier, called⟩ := Entry.foldlM_append_one.mp reached
  obtain ⟨goodCalls, here⟩ := Recording.follows_append.mp good
  have numbers := (here u earlier).1
  -- the file before the call, and after it
  obtain ⟨goodFile, ⟨-, before⟩ | ⟨broken, -⟩⟩ := Entry.rewrite_means closed goodCalls earlier
  rotate_left
  · exact absurd (Entry.rewritable_append.mp rewritable).1 broken
  obtain ⟨-, ⟨-, after⟩ | ⟨broken, -⟩⟩ := Entry.rewrite_means closed good reached
  rotate_left
  · exact absurd rewritable broken
  have rewritten : Entry.rewrite (calls ++ [Entry.level next second]) =
      front ++ [.level (if next ≠ .startUndo then .revision else next) second] := by
    rw [Entry.rewrite, List.foldl_append, ← Entry.rewrite, file]
    simp [Entry.write, compresses]
  rw [file] at before goodFile
  rw [rewritten] at after
  obtain ⟨m, started, first_⟩ := Entry.foldlM_append_one.mp before
  obtain ⟨again, same, combined⟩ := Entry.foldlM_append_one.mp after
  cases started.symm.trans same
  exact ⟨m, u, (Recording.follows_append.mp goodFile).1, started, earlier, first_, called, combined, numbers.1, numbers.2⟩

private theorem overwriting_read [Inhabited T] (keys : List (Comparator T)) {codec : Codec T} {calls front : List (Entry T)}
    {last : LevelOp} {first : Int} (file : Entry.rewrite calls = front ++ [.level last first])
    (fits : ∀ entry ∈ front, entry.Fits codec) (next : LevelOp) (second : Int) (written : Nat) :
    (recover UndoMultiIndex.target codec (UndoMultiIndex.empty keys)
      (((Journal.opened [] 0).writeAll codec calls).halfWritten codec (Entry.level next second).combined written)).map
        Recovered.container =
      replay UndoMultiIndex.target (UndoMultiIndex.empty keys) (front ++
        [.level (if written < 12 then last else if next ≠ .startUndo then .revision else next) (revisionAt first second written)]) := by
  have wrote : Journal.Wrote codec [] [] (Entry.rewrite calls) ((Journal.opened [] 0).writeAll codec calls) :=
    Journal.wrote_writeAll [] [] calls
  rw [file] at wrote
  have bytes := wrote.halfWritten (Entry.level next second).combined (by simp [Entry.combined, Entry.payload]) written
  simp only [List.nil_append, List.drop_nil, List.append_nil] at bytes
  rw [← recover_overwritten UndoMultiIndex.propagates rfl (UndoMultiIndex.empty keys) fits last _ first second written]
  exact congrArg (fun file => (recover UndoMultiIndex.target codec (UndoMultiIndex.empty keys) file).map Recovered.container) bytes

/-- A process is lost while an entry of the undo stack is written over the last one. However
much of it is in the file, recovery finds the objects there were, and the levels of before the
call or of after it; but the revision may be one that there has never been, and recovery may
fail, where a level is started whose revision has been set to what it was. -/
theorem overwriting_recovered [Inhabited T] (keys : List (Comparator T)) (codec : Codec T) (ops : List (JournaledOp T))
    (op : JournaledOp T) (permitted : Run.Permitted step (fun s op => Succeeds s op ∧ CommitsAll s op ∧ UndoOp.Fits s op.toUndoOp)
      (UndoMultiIndex.empty keys) (ops ++ [op]))
    (outputs : List (Reply × List (Entry T))) (s live : UndoMultiIndex T)
    (ran : Run.run step (UndoMultiIndex.empty keys) ops = some (outputs, s)) (reply : Reply) (front : List (Entry T))
    (last next : LevelOp) (first second : Int) (called : step s op = some ((reply, [.level next second]), live))
    (rewritable : Entry.Rewritable (Recording.recorded outputs ++ [.level next second]))
    (file : Entry.rewrite (Recording.recorded outputs) = front ++ [.level last first])
    (compresses : canCompressUndoEntry last next = true) (fits : ∀ entry ∈ front, entry.Fits codec) (written : Nat) :
    let number := revisionAt first second written
    let recovered := recover UndoMultiIndex.target codec (UndoMultiIndex.empty keys)
      (((Journal.opened [] 0).writeAll codec (Recording.recorded outputs)).halfWritten codec (Entry.level next second).combined written)
    ∃ started before after : Versioned (Table T keys),
      front.foldlM Entry.onVersioned ⟨Table.empty keys, [], 0⟩ = some started ∧ s.Refines before ∧ live.Refines after ∧
      before.replay second next = some after ∧ after.current = before.current ∧ before.revision ≤ number ∧ number ≤ int64Max ∧
      ((12 ≤ written ∧ next = .startUndo ∧ number = started.revision) → ∃ failure, recovered = .error failure) ∧
      (¬ (12 ≤ written ∧ next = .startUndo ∧ number = started.revision) → ∃ result, recovered = .ok result ∧
        result.container.Refines (⟨after.current, if written < 12 then before.saved else after.saved, number⟩ : Versioned (Table T keys))) := by
  intro number recovered
  have fresh := UndoMultiIndex.Refines.empty (T := T) keys
  obtain ⟨w, reached, liveRefines, good⟩ := call_means permitted ran called
  obtain ⟨m, u, goodFront, started, earlier, before, called, combined, nonneg, bounded⟩ :=
    overwriting_means rfl good reached rewritable file compresses
  have refines : s.Refines u := by
    have first := Run.permitted_take permitted ops.length
    rw [List.take_left] at first
    obtain ⟨told, again, v, same, applied, agrees⟩ := Recording.run_replayed stepped_replayed fresh first
    cases ran.symm.trans same
    cases earlier.symm.trans applied
    exact agrees
  obtain ⟨same, revision, least, rises⟩ := Versioned.replay_combined compresses before called nonneg
  obtain ⟨lower, upper⟩ := revisionAt_between least rises bounded written
  have grounded := Entry.foldlM_grounded .fresh started
  let mixed : Entry T := .level (if written < 12 then last else if next ≠ .startUndo then .revision else next) number
  have halfway : mixed.onVersioned m = _ := Versioned.replay_halfway compresses grounded before called combined bounded written
  have read : recovered.map Recovered.container = replay UndoMultiIndex.target (UndoMultiIndex.empty keys) (front ++ [mixed]) :=
    overwriting_read keys file fits next second written
  refine ⟨m, u, w, started, refines, liveRefines, called, same, by rw [revision]; exact lower, upper, fun stuck => ?_, fun free => ?_⟩
  · rw [if_pos stuck] at halfway
    have follows : Entry.GoodFrom (⟨Table.empty keys, [], 0⟩ : Versioned (Table T keys)) (front ++ [mixed]) :=
      Recording.follows_append.mpr ⟨goodFront, fun _ _ => ⟨⟨least.trans lower, upper⟩, fun _ _ => trivial⟩⟩
    have stops : (front ++ [mixed]).foldlM Entry.onVersioned (⟨Table.empty keys, [], 0⟩ : Versioned (Table T keys)) = none := by
      refine Option.eq_none_iff_forall_ne_some.mpr fun final applied => ?_
      obtain ⟨again, reached, replayed⟩ := Entry.foldlM_append_one.mp applied
      cases started.symm.trans reached
      cases halfway.symm.trans replayed
    obtain ⟨failure, fails⟩ := UndoMultiIndex.replay_stopped fresh .fresh follows stops
    exact ⟨failure, fails_of_map (read.trans fails)⟩
  · rw [if_neg free] at halfway
    obtain ⟨final, ends, refines⟩ := UndoMultiIndex.replay_applied fresh .fresh (Entry.foldlM_append_one.mpr ⟨m, started, halfway⟩)
    obtain ⟨result, ended, rfl⟩ := ends_of_map (read.trans ends)
    exact ⟨result, ended, refines⟩

/-- The revision is set to 255, a level is started, and seven bytes of its revision are there. -/
theorem overwriting_recovered_books :
    let ops : List (JournaledOp Book) := [.emplace fun id => some ⟨id, 1, 1⟩, .setRevision 255]
    let calls : List (Entry Book) := [.insert ⟨0, 1, 1⟩, .level .revision 255]
    let recovered := recover UndoMultiIndex.target bookCodec (UndoMultiIndex.empty bookKeys)
      (((Journal.opened [] 0).writeAll bookCodec calls).halfWritten bookCodec (Entry.level .startUndo 256).combined 23)
    ∃ s live, Run.run step (UndoMultiIndex.empty bookKeys) ops =
        some ([(.returned, [.insert ⟨0, 1, 1⟩]), (.returned, [.level .revision 255])], s) ∧
      step s .startUndo = some ((.revision 256, [.level .startUndo 256]), live) ∧
      ∃ started before after : Versioned (Table Book bookKeys),
        [.insert ⟨0, 1, 1⟩].foldlM Entry.onVersioned ⟨Table.empty bookKeys, [], 0⟩ = some started ∧
        s.Refines before ∧ live.Refines after ∧ before.replay 256 .startUndo = some after ∧
        after.current = before.current ∧ before.revision ≤ revisionAt 255 256 23 ∧ revisionAt 255 256 23 ≤ int64Max ∧
        ((12 ≤ 23 ∧ LevelOp.startUndo = .startUndo ∧ revisionAt 255 256 23 = started.revision) → ∃ failure, recovered = .error failure) ∧
        (¬ (12 ≤ 23 ∧ LevelOp.startUndo = .startUndo ∧ revisionAt 255 256 23 = started.revision) → ∃ result, recovered = .ok result ∧
          result.container.Refines
            (⟨after.current, if 23 < 12 then before.saved else after.saved, revisionAt 255 256 23⟩ : Versioned (Table Book bookKeys))) := by
  intro ops calls recovered
  have permitted : Run.Permitted step (fun s op => Succeeds s op ∧ CommitsAll s op ∧ UndoOp.Fits s op.toUndoOp)
      (UndoMultiIndex.empty bookKeys) (ops ++ [.startUndo]) := by decide
  have rewritable : Entry.Rewritable (calls ++ [.level .startUndo 256]) := by
    intro i inside
    rcases i with _ | _ | _ | i
    · trivial
    · trivial
    · trivial
    · exact absurd inside (by simp [calls])
  exact ⟨_, _, rfl, rfl, overwriting_recovered bookKeys bookCodec ops .startUndo permitted _ _ _ rfl _ [.insert ⟨0, 1, 1⟩]
    .revision .startUndo 255 256 rfl rewritable rfl rfl (by decide) 23⟩

example : revisionAt 255 256 23 = 511 := by decide

end JournaledOp
end ChainBase
