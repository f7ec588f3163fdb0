import ChainBase.Journal.Archive

/-! The bytes of a journal: every entry is a header of four numbers and a payload. -/

namespace ChainBase

/-- `journal_op`. -/
inductive JournalOp where
  | create
  | insert
  | modify
  | remove
  | level (op : LevelOp)
deriving DecidableEq, Repr

namespace JournalOp

/-- `to_underlying`. -/
def toUnderlying : JournalOp → UInt32
  | create => 1
  | insert => 2
  | modify => 3
  | remove => 4
  | level .startUndo => 5
  | level .commit => 6
  | level .undo => 7
  | level .undoAll => 8
  | level .revision => 9

/-- `from_underlying`. Other numbers fall under no case of a `switch`. -/
def fromUnderlying (type : UInt32) : Option JournalOp :=
  match type.toNat with
  | 1 => some create
  | 2 => some insert
  | 3 => some modify
  | 4 => some remove
  | 5 => some (level .startUndo)
  | 6 => some (level .commit)
  | 7 => some (level .undo)
  | 8 => some (level .undoAll)
  | 9 => some (level .revision)
  | _ => none

@[simp] theorem fromUnderlying_toUnderlying (op : JournalOp) : fromUnderlying op.toUnderlying = some op := by
  rcases op with _ | _ | _ | _ | op
  case level => cases op <;> rfl
  all_goals rfl

end JournalOp

/-- `journal_log`, in the byte order of the machine. -/
structure JournalLog where
  crc : UInt32
  size : UInt32
  type : UInt32
  version : UInt32
deriving DecidableEq, Repr

namespace JournalLog

def bytes (log : JournalLog) : List UInt8 :=
  BigEndian.encode 4 log.crc.toNat ++ (BigEndian.encode 4 log.size.toNat ++
    (BigEndian.encode 4 log.type.toNat ++ BigEndian.encode 4 log.version.toNat))

/-- The number in the four bytes from an offset on. -/
def field (bytes : List UInt8) (offset : Nat) : UInt32 := UInt32.ofNat (BigEndian.decode ((bytes.drop offset).take 4))

def ofBytes (bytes : List UInt8) : JournalLog := ⟨field bytes 0, field bytes 4, field bytes 8, field bytes 12⟩

@[simp] theorem length_bytes (log : JournalLog) : log.bytes.length = 16 := by simp [bytes]

private theorem ofNat_decode (n : UInt32) : UInt32.ofNat (BigEndian.decode (BigEndian.encode 4 n.toNat)) = n := by
  rw [BigEndian.decode_encode_of_lt n.toNat_lt, UInt32.ofNat_toNat]

theorem ofBytes_bytes (log : JournalLog) : ofBytes log.bytes = log := by
  simp [ofBytes, field, bytes, List.drop_append, List.drop_eq_nil_of_le, List.take_of_length_le, ofNat_decode]

private theorem encode_field {four : List UInt8} (length : four.length = 4) :
    BigEndian.encode 4 (UInt32.ofNat (BigEndian.decode four)).toNat = four := by
  have inside := BigEndian.decode_lt four
  rw [length] at inside
  rw [UInt32.toNat_ofNat_of_lt' inside, BigEndian.encode_decode length]

theorem bytes_ofBytes {header : List UInt8} (length : header.length = 16) : (ofBytes header).bytes = header := by
  have first := @encode_field ((header.drop 0).take 4) (by simp; omega)
  have second := @encode_field ((header.drop 4).take 4) (by simp; omega)
  have third := @encode_field ((header.drop 8).take 4) (by simp; omega)
  have fourth := @encode_field ((header.drop 12).take 4) (by simp; omega)
  have last : (header.drop 12).take 4 = header.drop 12 := List.take_of_length_le (by simp; omega)
  have parts : ∀ offset, (header.drop offset).take 4 ++ header.drop (offset + 4) = header.drop offset := fun offset => by
    rw [← List.drop_drop, List.take_append_drop]
  simp only [bytes, ofBytes, field, first, second, third, fourth]
  rw [last, parts 8, parts 4, parts 0, List.drop_zero]

theorem bytes_append_inj {log other : JournalLog} {payload more : List UInt8} (same : log.bytes ++ payload = other.bytes ++ more) :
    log = other ∧ payload = more := by
  obtain ⟨header, rest⟩ := List.append_inj same (by simp)
  exact ⟨by rw [← ofBytes_bytes log, header, ofBytes_bytes], rest⟩

end JournalLog

/-- What an entry of a journal holds, apart from its size and checksum. -/
structure Frame where
  type : UInt32
  version : UInt32
  payload : List UInt8
deriving DecidableEq, Repr

namespace Entry
variable {T : Type} (codec : Codec T)

def op : Entry T → JournalOp
  | insert _ => .insert
  | modify _ _ => .modify
  | remove _ => .remove
  | level op _ => .level op

def payload : Entry T → List UInt8
  | insert obj => codec.save obj
  | modify id obj => BigEndian.encode 8 id ++ codec.save obj
  | remove id => BigEndian.encode 8 id
  | level _ revision => BigEndian.encodeSigned 8 revision

/-- Entries of the undo stack have no version. -/
def version : Entry T → UInt32
  | level _ _ => 0
  | _ => codec.version

def frame (entry : Entry T) : Frame := ⟨entry.op.toUnderlying, entry.version codec, entry.payload codec⟩

def log (entry : Entry T) : JournalLog where
  crc := Crc32.checksum (entry.payload codec)
  size := UInt32.ofNat (entry.payload codec).length
  type := entry.op.toUnderlying
  version := entry.version codec

def encode (entry : Entry T) : List UInt8 := (entry.log codec).bytes ++ entry.payload codec

def encodeAll (entries : List (Entry T)) : List UInt8 := entries.flatMap (encode codec)

/-- The members of an entry are in the range of their types, and so is its size. -/
def Fits (entry : Entry T) : Prop :=
  (entry.payload codec).length < 2 ^ 32 ∧
    match entry with
    | insert obj => codec.Storable obj
    | modify id obj => id < 2 ^ 64 ∧ codec.Storable obj
    | remove id => id < 2 ^ 64
    | level _ revision => -2 ^ 63 ≤ revision ∧ revision ≤ UndoMultiIndex.int64Max

/-- The same for entries of any size. -/
def Typed : Entry T → Prop
  | insert obj => codec.Storable obj
  | modify id obj => id < 2 ^ 64 ∧ codec.Storable obj
  | remove id => id < 2 ^ 64
  | level _ revision => -2 ^ 63 ≤ revision ∧ revision ≤ UndoMultiIndex.int64Max

instance [DecidablePred codec.Storable] : ∀ entry : Entry T, Decidable (entry.Fits codec)
  | insert obj => inferInstanceAs (Decidable (_ < 2 ^ 32 ∧ codec.Storable obj))
  | modify id obj => inferInstanceAs (Decidable (_ < 2 ^ 32 ∧ id < 2 ^ 64 ∧ codec.Storable obj))
  | remove id => inferInstanceAs (Decidable (_ < 2 ^ 32 ∧ id < 2 ^ 64))
  | level _ revision => inferInstanceAs (Decidable (_ < 2 ^ 32 ∧ -2 ^ 63 ≤ revision ∧ revision ≤ UndoMultiIndex.int64Max))

variable {codec}

theorem length_encode (entry : Entry T) : (entry.encode codec).length = 16 + (entry.payload codec).length := by
  simp [encode]

theorem encode_take (entry : Entry T) (n : Nat) :
    (entry.encode codec).take (16 + n) = (entry.log codec).bytes ++ (entry.payload codec).take n := by
  rw [encode, List.take_append, List.take_of_length_le (by simp), JournalLog.length_bytes, Nat.add_sub_cancel_left]

theorem encodeAll_cons (entry : Entry T) (entries : List (Entry T)) :
    encodeAll codec (entry :: entries) = entry.encode codec ++ encodeAll codec entries := rfl

theorem encodeAll_append (first second : List (Entry T)) :
    encodeAll codec (first ++ second) = encodeAll codec first ++ encodeAll codec second :=
  List.flatMap_append

theorem length_le_encodeAll (codec : Codec T) (entries : List (Entry T)) : entries.length ≤ (encodeAll codec entries).length := by
  induction entries with
  | nil => exact Nat.le_refl 0
  | cons entry entries ih =>
    rw [encodeAll_cons, List.length_append, length_encode, List.length_cons]
    omega

theorem Fits.typed {entry : Entry T} (fits : entry.Fits codec) : entry.Typed codec := by
  cases entry <;> exact fits.2

theorem Typed.fits {entry : Entry T} (typed : entry.Typed codec) (small : (entry.payload codec).length < 2 ^ 32) :
    entry.Fits codec := by
  cases entry <;> exact ⟨small, typed⟩

theorem Fits.size {entry : Entry T} (fits : entry.Fits codec) :
    (entry.log codec).size.toNat = (entry.payload codec).length :=
  UInt32.toNat_ofNat_of_lt' fits.1

end Entry
end ChainBase
