import ChainBase.Journal.Recover
import ChainBase.Library.BigEndian
import ChainBase.Library.Crc32

/-! Reading a journal file: `binary_iarchive` over the rest of a stream, and the
`serialize` function of the value type, of which only this much is known. -/

namespace ChainBase

/-- `serialize` of a value type. Objects are written and read back whole, and how
much is read depends on what has been read only. -/
structure Codec (T : Type) where
  version : UInt32
  /-- The object of an id before it is read. -/
  initial : Nat → T
  /-- Members in the range of their types. -/
  Storable : T → Prop
  save : T → List UInt8
  /-- How many bytes are read, if the stream does not end before. -/
  extent : UInt32 → List UInt8 → Option Nat
  /-- What has become of an object when the reading has ended. -/
  load : UInt32 → List UInt8 → T → T
  extent_le {format : UInt32} {bytes : List UInt8} {n : Nat} : extent format bytes = some n → n ≤ bytes.length
  extent_append {format : UInt32} {bytes : List UInt8} {n : Nat} (more : List UInt8) :
    extent format bytes = some n → extent format (bytes ++ more) = some n
  extent_save {obj : T} : Storable obj → extent version (save obj) = some (save obj).length
  load_save {obj : T} (more : List UInt8) (old : T) : Storable obj → load version (save obj ++ more) old = obj

namespace Codec
variable {T : Type} (codec : Codec T)

theorem extent_take {obj : T} (storable : codec.Storable obj) {n : Nat} (cut : n < (codec.save obj).length) :
    codec.extent codec.version ((codec.save obj).take n) = none := by
  cases read : codec.extent codec.version ((codec.save obj).take n) with
  | none => rfl
  | some size =>
    have whole := codec.extent_append ((codec.save obj).drop n) read
    rw [List.take_append_drop, codec.extent_save storable, Option.some.injEq] at whole
    have := codec.extent_le read
    rw [List.length_take] at this
    omega

end Codec

/-- `binary_iarchive`: what is left of the stream, the position in it, and the
register of the checksum. -/
structure Input where
  rest : List UInt8
  position : Nat
  crc : UInt32
deriving DecidableEq, Repr

namespace Input

def inputReadError : Failure := .thrown (.runtimeError "input read error")

def advance (input : Input) (size : Nat) : Input where
  rest := input.rest.drop size
  position := input.position + size
  crc := Crc32.process input.crc (input.rest.take size)

def serializeBytes (input : Input) (size : Nat) : Except Failure (List UInt8 × Input) :=
  if size ≤ input.rest.length then .ok (input.rest.take size, input.advance size) else .error inputReadError

def readUInt64 (input : Input) : Except Failure (Nat × Input) := do
  let (bytes, input) ← input.serializeBytes 8
  .ok (BigEndian.decode bytes, input)

def checksum (input : Input) : UInt32 × Input := (Crc32.finish input.crc, { input with crc := Crc32.initial })

/-- `skip`, with its buffer of 1024 bytes. -/
def skip (input : Input) (size : Nat) : Except Failure Input :=
  (List.range ((size + 1023) / 1024)).foldlM
    (fun input i => (input.serializeBytes (min (size - 1024 * i) 1024)).map Prod.snd) input

def readInt64 (input : Input) : Except Failure (Int × Input) := do
  let (bytes, input) ← input.serializeBytes 8
  .ok (BigEndian.decodeSigned bytes, input)

theorem advance_advance (input : Input) (first second : Nat) :
    (input.advance first).advance second = input.advance (first + second) := by
  simp only [advance, List.drop_drop, Nat.add_assoc, ← Crc32.process_append, Input.mk.injEq, true_and]
  rw [List.take_add]

theorem serializeBytes_whole {input : Input} {size : Nat} (whole : size ≤ input.rest.length) :
    input.serializeBytes size = .ok (input.rest.take size, input.advance size) := if_pos whole

theorem serializeBytes_short {input : Input} {size : Nat} (short : input.rest.length < size) :
    input.serializeBytes size = .error inputReadError := if_neg (Nat.not_le.mpr short)

theorem readUInt64_whole {input : Input} (whole : 8 ≤ input.rest.length) :
    input.readUInt64 = .ok (BigEndian.decode (input.rest.take 8), input.advance 8) := by
  simp [readUInt64, serializeBytes_whole whole, bind, Except.bind]

theorem readUInt64_short {input : Input} (short : input.rest.length < 8) : input.readUInt64 = .error inputReadError := by
  simp [readUInt64, serializeBytes_short short, bind, Except.bind]

theorem readInt64_whole {input : Input} (whole : 8 ≤ input.rest.length) :
    input.readInt64 = .ok (BigEndian.decodeSigned (input.rest.take 8), input.advance 8) := by
  simp [readInt64, serializeBytes_whole whole, bind, Except.bind]

theorem readInt64_short {input : Input} (short : input.rest.length < 8) : input.readInt64 = .error inputReadError := by
  simp [readInt64, serializeBytes_short short, bind, Except.bind]

/-- The rounds of `skip` add up: a stream that holds `size` bytes is advanced by
them, and any other ends before. -/
private theorem skip_rounds (input : Input) (size rounds : Nat) (inside : rounds ≤ (size + 1023) / 1024) :
    (List.range rounds).foldlM
      (fun input i => (input.serializeBytes (min (size - 1024 * i) 1024)).map Prod.snd) input =
      if min size (1024 * rounds) ≤ input.rest.length then .ok (input.advance (min size (1024 * rounds)))
      else .error inputReadError := by
  induction rounds with
  | zero => simp [advance, pure, Except.pure]
  | succ rounds ih =>
    rw [List.range_succ, List.foldlM_append, ih (by omega)]
    have done : min size (1024 * rounds) = 1024 * rounds := by omega
    have next : min size (1024 * (rounds + 1)) = 1024 * rounds + min (size - 1024 * rounds) 1024 := by omega
    rw [done, next]
    by_cases reached : 1024 * rounds ≤ input.rest.length
    · rw [if_pos reached]
      have left : (input.advance (1024 * rounds)).rest.length = input.rest.length - 1024 * rounds := by simp [advance]
      simp only [List.foldlM_cons, List.foldlM_nil, bind, Except.bind]
      by_cases whole : 1024 * rounds + min (size - 1024 * rounds) 1024 ≤ input.rest.length
      · rw [serializeBytes_whole (by omega), if_pos whole, advance_advance]
        rfl
      · rw [serializeBytes_short (by omega), if_neg whole]
        rfl
    · rw [if_neg reached, if_neg (by omega)]
      rfl

theorem skip_eq (input : Input) (size : Nat) :
    input.skip size = if size ≤ input.rest.length then .ok (input.advance size) else .error inputReadError := by
  have all : min size (1024 * ((size + 1023) / 1024)) = size := by omega
  rw [skip, skip_rounds input size _ (Nat.le_refl _), all]

end Input

def bookCodec : Codec Book where
  version := 0
  initial id := { (default : Book) with id }
  Storable book := book.id < 2 ^ 64 ∧ (-2 ^ 31 ≤ book.a ∧ book.a < 2 ^ 31) ∧ -2 ^ 31 ≤ book.b ∧ book.b < 2 ^ 31
  save book := BigEndian.encode 8 book.id ++ BigEndian.encodeSigned 4 book.a ++ BigEndian.encodeSigned 4 book.b
  extent _ bytes := if 16 ≤ bytes.length then some 16 else none
  load _ bytes old :=
    { id := if 8 ≤ bytes.length then BigEndian.decode (bytes.take 8) else old.id
      a := if 12 ≤ bytes.length then BigEndian.decodeSigned ((bytes.drop 8).take 4) else old.a
      b := if 16 ≤ bytes.length then BigEndian.decodeSigned ((bytes.drop 12).take 4) else old.b }
  extent_le read := by
    split at read
    next whole => exact Option.some.inj read ▸ whole
    · cases read
  extent_append more read := by
    split at read
    next whole => simpa [Nat.le_add_right_of_le whole] using read
    · cases read
  extent_save _ := by simp
  load_save {book} more old storable := by
    obtain ⟨id, a, b⟩ := storable
    have first := @BigEndian.decode_encode_of_lt 8 book.id (by omega)
    have second := @BigEndian.decodeSigned_encodeSigned 4 book.a (by omega) (by omega)
    have third := @BigEndian.decodeSigned_encodeSigned 4 book.b (by omega) (by omega)
    have reached : 12 ≤ 8 + (4 + (4 + more.length)) ∧ 16 ≤ 8 + (4 + (4 + more.length)) := by omega
    have before : (BigEndian.encode 8 book.id).drop 12 = [] := by simp
    simp [List.drop_append, first, second, third, reached, before]

instance : DecidablePred bookCodec.Storable := fun book =>
  inferInstanceAs (Decidable (book.id < 2 ^ 64 ∧ (-2 ^ 31 ≤ book.a ∧ book.a < 2 ^ 31) ∧ -2 ^ 31 ≤ book.b ∧ book.b < 2 ^ 31))

end ChainBase
