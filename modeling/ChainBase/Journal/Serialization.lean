import ChainBase.Journal.Archive

/-! `binary_oarchive` and `binary_iarchive` over every type whose `serialize` visits
members of the types the archives know. Either end may run on a machine of either
byte order. -/

namespace ChainBase

inductive Width where
  | one
  | two
  | four
  | eight
deriving DecidableEq, Repr

def Width.size : Width → Nat
  | one => 1
  | two => 2
  | four => 4
  | eight => 8

/-- `std::endian::native`. -/
inductive Endian where
  | little
  | big
deriving DecidableEq, Repr

def byteswap (w : Width) (n : Nat) : Nat :=
  match w with
  | .two | .four | .eight => BigEndian.decode (BigEndian.encode w.size n).reverse
  | .one => n

namespace Endian

/-- The bytes of an unsigned integer in memory, and the integer of these bytes. -/
def toMemory (native : Endian) (w : Width) (n : Nat) : List UInt8 :=
  match native with
  | little => (BigEndian.encode w.size n).reverse
  | big => BigEndian.encode w.size n

def ofMemory (native : Endian) (bytes : List UInt8) : Nat :=
  match native with
  | little => BigEndian.decode bytes.reverse
  | big => BigEndian.decode bytes

def bigEndianOrder (native : Endian) (w : Width) (n : Nat) : Nat :=
  match native with
  | little => byteswap w n
  | big => n

theorem toMemory_bigEndianOrder (native : Endian) (w : Width) (n : Nat) :
    native.toMemory w (native.bigEndianOrder w n) = BigEndian.encode w.size n := by
  have swapped : ∀ size, BigEndian.encode size (BigEndian.decode (BigEndian.encode size n).reverse) =
      (BigEndian.encode size n).reverse := fun size => BigEndian.encode_decode (by simp)
  cases native with
  | big => rfl
  | little =>
    cases w with
    | one => rfl
    | two | four | eight => simp [toMemory, bigEndianOrder, byteswap, swapped]

theorem bigEndianOrder_ofMemory (native : Endian) {w : Width} {bytes : List UInt8} (length : bytes.length = w.size) :
    native.bigEndianOrder w (native.ofMemory bytes) = BigEndian.decode bytes := by
  have swapped : ∀ size, bytes.length = size →
      (BigEndian.encode size (BigEndian.decode bytes.reverse)).reverse = bytes := fun size length => by
    rw [BigEndian.encode_decode (by simpa using length), List.reverse_reverse]
  cases native with
  | big => rfl
  | little =>
    cases w with
    | one =>
      obtain ⟨byte, rfl⟩ := List.length_eq_one_iff.mp length
      rfl
    | two | four | eight => simp [ofMemory, bigEndianOrder, byteswap, swapped _ length]

end Endian

/-- `binary_oarchive`: what it has written, and the register of the checksum. -/
structure Output where
  out : List UInt8
  crc : UInt32
deriving DecidableEq, Repr

namespace Output

def serializeBytes (output : Output) (bytes : List UInt8) : Output :=
  ⟨output.out ++ bytes, Crc32.process output.crc bytes⟩

def serializeUnsignedIntegral (output : Output) (native : Endian) (w : Width) (n : Nat) : Output :=
  output.serializeBytes (native.toMemory w (native.bigEndianOrder w n))

def checksum (output : Output) : UInt32 × Output := (Crc32.finish output.crc, { output with crc := Crc32.initial })

theorem serializeBytes_append (output : Output) (first second : List UInt8) :
    (output.serializeBytes first).serializeBytes second = output.serializeBytes (first ++ second) := by
  simp [serializeBytes, Crc32.process_append]

theorem serializeBytes_nil (output : Output) : output.serializeBytes [] = output := by
  simp [serializeBytes]

end Output

def Input.serializeUnsignedIntegral (input : Input) (native : Endian) (w : Width) : Except Failure (Nat × Input) := do
  let (bytes, input) ← input.serializeBytes w.size
  .ok (native.bigEndianOrder w (native.ofMemory bytes), input)

/-- What is visited when an object is saved or loaded. Both kinds of arrays are
visited item by item, and an object member by member. -/
inductive Schema where
  | bool
  | unsigned (w : Width)
  | signed (w : Width)
  | string
  | array (size : Nat) (item : Schema)
  | object (members : List Schema)

namespace Schema

mutual

/-- The values of a type. Strings are as long as their saved size can say. -/
def Value : Schema → Type
  | bool => Bool
  | unsigned w => { n : Nat // n < 256 ^ w.size }
  | signed w => { n : Int // -(256 ^ w.size : Nat) ≤ n * 2 ∧ n * 2 < (256 ^ w.size : Nat) }
  | string => { bytes : List UInt8 // bytes.length < 2 ^ 32 }
  | array size item => { items : List item.Value // items.length = size }
  | object members => Values members

def Values : List Schema → Type
  | [] => Unit
  | member :: members => member.Value × Values members

end

mutual

/-- `save`, for all of its overloads. -/
def save (native : Endian) : (schema : Schema) → schema.Value → Output → Output
  | bool, (value : Bool), output => output.serializeUnsignedIntegral native .one value.toNat
  | unsigned w, value, output => output.serializeUnsignedIntegral native w value.val
  -- the conversion to the unsigned type
  | signed w, value, output => output.serializeUnsignedIntegral native w (value.val % (256 ^ w.size : Nat)).toNat
  | string, value, output =>
    (output.serializeUnsignedIntegral native .four (value.val.length % 2 ^ 32)).serializeBytes value.val
  | array _ item, value, output => value.val.foldl (fun output value => item.save native value output) output
  | object members, values, output => saveAll native members values output

def saveAll (native : Endian) : (members : List Schema) → Values members → Output → Output
  | [], _, output => output
  | member :: members, (value, values), output => saveAll native members values (member.save native value output)

end

def loadItems {α : Type} (load : Input → Except Failure (α × Input)) :
    (size : Nat) → Input → Except Failure ({ items : List α // items.length = size } × Input)
  | 0, input => .ok (⟨[], rfl⟩, input)
  | size + 1, input => do
    let (value, input) ← load input
    let (values, input) ← loadItems load size input
    .ok (⟨value :: values.val, congrArg (· + 1) values.property⟩, input)

/-- The conversion from the unsigned type. -/
def toSigned (w : Width) (n : Nat) : { n : Int // -(256 ^ w.size : Nat) ≤ n * 2 ∧ n * 2 < (256 ^ w.size : Nat) } :=
  ⟨Int.bmod n (256 ^ w.size), by
    have positive : 0 < 256 ^ w.size := Nat.pow_pos (by decide)
    have least := @Int.le_bmod n _ positive
    have bounded := @Int.bmod_lt n _ positive
    omega⟩

mutual

/-- `load`, for all of its overloads. -/
def load (native : Endian) : (schema : Schema) → Input → Except Failure (schema.Value × Input)
  | bool, input => do
    let (n, input) ← input.serializeUnsignedIntegral native .one
    .ok ((n != 0 : Bool), input)
  | unsigned w, input => do
    let (n, input) ← input.serializeUnsignedIntegral native w
    .ok (⟨n % 256 ^ w.size, Nat.mod_lt n (Nat.pow_pos (by decide))⟩, input)
  | signed w, input => do
    let (n, input) ← input.serializeUnsignedIntegral native w
    .ok (toSigned w n, input)
  | string, input => do
    let (size, input) ← input.serializeUnsignedIntegral native .four
    let (bytes, input) ← input.serializeBytes size
    -- four bytes never say more
    if fits : bytes.length < 2 ^ 32 then .ok (⟨bytes, fits⟩, input) else .error Input.inputReadError
  | array size item, input => loadItems (item.load native) size input
  | object members, input => loadAll native members input

def loadAll (native : Endian) : (members : List Schema) → Input → Except Failure (Values members × Input)
  | [], input => .ok ((), input)
  | member :: members, input => do
    let (value, input) ← member.load native input
    let (values, input) ← loadAll native members input
    .ok ((value, values), input)

end

/-- Saving appends the bytes of a value, and loading takes them off the stream again. -/
def Inverse {α : Type} (save : α → Output → Output) (load : Input → Except Failure (α × Input)) : Prop :=
  ∀ value, ∃ bytes, (∀ output, save value output = output.serializeBytes bytes) ∧
    ∀ more position crc, load ⟨bytes ++ more, position, crc⟩ =
      .ok (value, ⟨more, position + bytes.length, Crc32.process crc bytes⟩)

theorem serializeBytes_append (bytes more : List UInt8) (position : Nat) (crc : UInt32) :
    Input.serializeBytes ⟨bytes ++ more, position, crc⟩ bytes.length =
      .ok (bytes, ⟨more, position + bytes.length, Crc32.process crc bytes⟩) := by
  simp [Input.serializeBytes, Input.advance]

theorem serializeUnsignedIntegral_saved (output : Output) (native : Endian) (w : Width) (n : Nat) :
    output.serializeUnsignedIntegral native w n = output.serializeBytes (BigEndian.encode w.size n) := by
  rw [Output.serializeUnsignedIntegral, Endian.toMemory_bigEndianOrder]

theorem serializeUnsignedIntegral_loaded (native : Endian) (w : Width) {n : Nat} (inside : n < 256 ^ w.size)
    (more : List UInt8) (position : Nat) (crc : UInt32) :
    Input.serializeUnsignedIntegral ⟨BigEndian.encode w.size n ++ more, position, crc⟩ native w =
      .ok (n, ⟨more, position + w.size, Crc32.process crc (BigEndian.encode w.size n)⟩) := by
  have read := serializeBytes_append (BigEndian.encode w.size n) more position crc
  have number := native.bigEndianOrder_ofMemory (BigEndian.length_encode w.size n)
  rw [BigEndian.decode_encode_of_lt inside] at number
  rw [BigEndian.length_encode] at read
  simp [Input.serializeUnsignedIntegral, read, number, bind, Except.bind]

variable (writer reader : Endian)

private theorem inverse_bool : Inverse (save writer bool) (load reader bool) := by
  intro value
  refine ⟨BigEndian.encode 1 (Bool.toNat value), fun output => ?_, fun more position crc => ?_⟩
  · exact serializeUnsignedIntegral_saved output writer .one (Bool.toNat value)
  · have small : Bool.toNat value < 256 ^ Width.one.size := by
      cases value <;> decide
    have read := serializeUnsignedIntegral_loaded reader .one small more position crc
    have back : (Bool.toNat value != 0) = value := by
      cases value <;> rfl
    simp only [Width.size] at read
    simp [load, read, back, bind, Except.bind]

private theorem inverse_unsigned (w : Width) : Inverse (save writer (unsigned w)) (load reader (unsigned w)) := by
  intro ⟨n, inside⟩
  refine ⟨BigEndian.encode w.size n, fun output => ?_, fun more position crc => ?_⟩
  · exact serializeUnsignedIntegral_saved output writer w n
  · have read := serializeUnsignedIntegral_loaded reader w inside more position crc
    simp [load, read, Nat.mod_eq_of_lt inside, bind, Except.bind]

private theorem inverse_signed (w : Width) : Inverse (save writer (signed w)) (load reader (signed w)) := by
  intro ⟨n, least, bounded⟩
  have positive : 0 < 256 ^ w.size := Nat.pow_pos (by decide)
  have nonneg : 0 ≤ n % (256 ^ w.size : Nat) := Int.emod_nonneg n (by omega)
  refine ⟨BigEndian.encode w.size (n % (256 ^ w.size : Nat)).toNat, fun output => ?_, fun more position crc => ?_⟩
  · exact serializeUnsignedIntegral_saved output writer w _
  · have inside : (n % (256 ^ w.size : Nat)).toNat < 256 ^ w.size := by
      have below := Int.emod_lt_of_pos n (b := (256 ^ w.size : Nat)) (by omega)
      omega
    have read := serializeUnsignedIntegral_loaded reader w inside more position crc
    have back : toSigned w (n % (256 ^ w.size : Nat)).toNat = ⟨n, least, bounded⟩ := by
      apply Subtype.ext
      show Int.bmod ((n % (256 ^ w.size : Nat)).toNat : Int) _ = n
      rw [Int.toNat_of_nonneg nonneg, Int.emod_bmod]
      exact Int.bmod_eq_of_le_mul_two least bounded
    simp only [load, bind, Except.bind, BigEndian.length_encode]
    rw [read]
    simp only [back]

private theorem inverse_string : Inverse (save writer string) (load reader string) := by
  intro ⟨bytes, short⟩
  refine ⟨BigEndian.encode 4 bytes.length ++ bytes, fun output => ?_, fun more position crc => ?_⟩
  · have size := serializeUnsignedIntegral_saved output writer .four bytes.length
    simp only [save]
    rw [Nat.mod_eq_of_lt short, size, Output.serializeBytes_append]
    rfl
  · have size := serializeUnsignedIntegral_loaded reader .four short (bytes ++ more) position crc
    simp only [Width.size] at size
    have text := serializeBytes_append bytes more (position + 4) (Crc32.process crc (BigEndian.encode 4 bytes.length))
    simp only [load, bind, Except.bind, List.append_assoc, List.length_append, BigEndian.length_encode]
    rw [size]
    simp only [text, dif_pos short, Crc32.process_append, Nat.add_assoc]

variable {α : Type} {save : α → Output → Output} {load : Input → Except Failure (α × Input)}

private theorem Inverse.items (inverse : Inverse save load) (size : Nat) :
    Inverse (fun (items : { items : List α // items.length = size }) output =>
      items.val.foldl (fun output value => save value output) output) (loadItems load size) := by
  induction size with
  | zero =>
    intro ⟨items, length⟩
    obtain rfl := List.length_eq_zero_iff.mp length
    exact ⟨[], fun output => (output.serializeBytes_nil).symm, fun more position crc => rfl⟩
  | succ size ih =>
    intro ⟨items, length⟩
    obtain ⟨value, values, rfl⟩ := List.exists_cons_of_length_eq_add_one length
    have rest : values.length = size := by simpa using length
    obtain ⟨first, saves, loads⟩ := inverse value
    obtain ⟨others, savesAll, loadsAll⟩ := ih ⟨values, rest⟩
    refine ⟨first ++ others, fun output => ?_, fun more position crc => ?_⟩
    · simp only [List.foldl_cons, saves, ← Output.serializeBytes_append]
      exact savesAll _
    · simp only [loadItems, bind, Except.bind, List.append_assoc, loads, loadsAll, List.length_append,
        Crc32.process_append, Nat.add_assoc]

mutual

theorem inverse : (schema : Schema) → Inverse (schema.save writer) (schema.load reader)
  | bool => inverse_bool writer reader
  | unsigned w => inverse_unsigned writer reader w
  | signed w => inverse_signed writer reader w
  | string => inverse_string writer reader
  | array size item => (inverse item).items size
  | object members => inverseAll members

theorem inverseAll : (members : List Schema) → Inverse (saveAll writer members) (loadAll reader members)
  | [] => fun _ => ⟨[], fun output => (output.serializeBytes_nil).symm, fun more position crc => rfl⟩
  | member :: members => by
    intro (value, values)
    obtain ⟨first, saves, loads⟩ := inverse member value
    obtain ⟨others, savesAll, loadsAll⟩ := inverseAll members values
    refine ⟨first ++ others, fun output => ?_, fun more position crc => ?_⟩
    · simp only [saveAll, saves, savesAll, Output.serializeBytes_append]
    · simp only [loadAll, bind, Except.bind, List.append_assoc, loads, loadsAll, List.length_append,
        Crc32.process_append, Nat.add_assoc]

end

/-- What has been saved, whatever was written before, is loaded from any stream that
goes on with it, no byte more is taken, and both ends have the same checksum; and
no value is saved as the beginning of another one. -/
theorem archives_inverse (schema : Schema) (value : schema.Value) :
    (∀ (before : List UInt8) (crc : UInt32), ∃ bytes,
      (schema.save writer value ⟨before, crc⟩).out = before ++ bytes ∧
      ∀ (more : List UInt8) (position : Nat), ∃ later,
        schema.load reader ⟨bytes ++ more, position, crc⟩ = .ok (value, later) ∧
        later.rest = more ∧ later.position = position + bytes.length ∧
        later.checksum.1 = (schema.save writer value ⟨before, crc⟩).checksum.1) ∧
    ∀ other : schema.Value,
      (schema.save writer value ⟨[], Crc32.initial⟩).out <+: (schema.save writer other ⟨[], Crc32.initial⟩).out →
        value = other := by
  constructor
  · intro before crc
    obtain ⟨bytes, saves, loads⟩ := schema.inverse writer reader value
    refine ⟨bytes, by rw [saves]; rfl, fun more position => ⟨_, loads more position crc, rfl, rfl, ?_⟩⟩
    rw [saves]
    rfl
  · intro other ⟨more, same⟩
    obtain ⟨bytes, saves, loads⟩ := schema.inverse writer reader value
    obtain ⟨others, savesOther, loadsOther⟩ := schema.inverse writer reader other
    have front : bytes ++ more = others ++ [] := by
      simpa [saves, savesOther, Output.serializeBytes] using same
    have first := loads more 0 Crc32.initial
    have second := loadsOther [] 0 Crc32.initial
    rw [front, second] at first
    exact (congrArg Prod.fst (Except.ok.inj first)).symm

end Schema
end ChainBase
