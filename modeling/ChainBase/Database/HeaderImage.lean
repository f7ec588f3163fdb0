import ChainBase.Database.Locking
import ChainBase.Library.BigEndian

/-! The header of a database file, byte by byte, and the constructor on a file of bytes. Other
builds are told by their environment, which is compared as it lies in memory. -/

namespace ChainBase

/-- The bytes of a text. -/
def utf8 (text : String) : List UInt8 := text.toByteArray.data.toList

theorem utf8_append (first second : String) : utf8 (first ++ second) = utf8 first ++ utf8 second := by
  simp [utf8, String.toByteArray_append]

theorem utf8_inj {first second : String} : utf8 first = utf8 second ↔ first = second := by
  rw [← String.toByteArray_inj, utf8, utf8, Array.toList_inj]
  exact ⟨ByteArray.ext, congrArg ByteArray.data⟩

/-- At most so many bytes of a text, with zeros behind them. -/
def strncpy (text : List UInt8) (n : Nat) : List UInt8 :=
  let copied := (text.takeWhile (· ≠ 0)).take n
  copied ++ List.replicate (n - copied.length) 0

/-- A text that ends at a zero byte, if there is one. -/
def cString (bytes : List UInt8) : Option (List UInt8) := if 0 ∈ bytes then some (bytes.takeWhile (· ≠ 0)) else none

def byteOf (flag : Bool) : UInt8 := if flag then 1 else 0

theorem length_strncpy (text : List UInt8) (n : Nat) : (strncpy text n).length = n := by
  have short := List.length_take_le n (text.takeWhile (· ≠ 0))
  simp only [strncpy, List.length_append, List.length_replicate]
  omega

theorem strncpy_short {text : List UInt8} {n : Nat} (short : text.length ≤ n) (zeros : 0 ∉ text) :
    strncpy text n = text ++ List.replicate (n - text.length) 0 := by
  have all : ∀ byte ∈ text, decide (byte ≠ 0) = true := by
    intro byte member
    simpa using fun zero : byte = 0 => zeros (zero ▸ member)
  have joined : (text ++ []).takeWhile (fun byte => byte ≠ 0) = text ++ [].takeWhile fun byte => byte ≠ 0 :=
    List.takeWhile_append_of_pos all
  have whole : text.takeWhile (fun byte => byte ≠ 0) = text := by simpa using joined
  rw [strncpy, whole, List.take_of_length_le short]

theorem cString_strncpy {text : List UInt8} {n : Nat} (short : text.length ≤ n) (zeros : 0 ∉ text) (rest : List UInt8) :
    cString (strncpy text n ++ 0 :: rest) = some text := by
  have all : ∀ byte ∈ text, decide (byte ≠ 0) = true := by
    intro byte member
    simpa using fun zero : byte = 0 => zeros (zero ▸ member)
  have ends : (List.replicate (n - text.length) 0 ++ 0 :: rest).takeWhile (fun byte : UInt8 => byte ≠ 0) = [] := by
    cases n - text.length <;> simp [List.replicate_succ]
  rw [cString, if_pos (by simp), strncpy_short short zeros, List.append_assoc, List.takeWhile_append_of_pos all, ends, List.append_nil]

/-! ## The environment -/

namespace Os

def toByte : Os → UInt8
  | linux => 0
  | macos => 1
  | windows => 2
  | unknown code => code

def ofByte (code : UInt8) : Os :=
  match code.toNat with
  | 0 => linux
  | 1 => macos
  | 2 => windows
  | _ => unknown code

def known : Os → Bool
  | unknown _ => false
  | _ => true

theorem ofByte_toByte {os : Os} (known : os.known) : ofByte os.toByte = os := by
  cases os <;> first | rfl | cases known

end Os

namespace Arch

def toByte : Arch → UInt8
  | x86_64 => 0
  | arm => 1
  | unknown code => code

def ofByte (code : UInt8) : Arch :=
  match code.toNat with
  | 0 => x86_64
  | 1 => arm
  | _ => unknown code

def known : Arch → Bool
  | unknown _ => false
  | _ => true

theorem ofByte_toByte {arch : Arch} (known : arch.known) : ofByte arch.toByte = arch := by
  cases arch <;> first | rfl | cases known

end Arch

namespace Environment

/-- What the members of an `environment` can be in a build. -/
structure Built (dt : Environment) : Prop where
  os : dt.os.known
  arch : dt.arch.known
  boostVersion : dt.boostVersion < 2 ^ 32
  length : (utf8 dt.compiler).length ≤ 255
  zeros : 0 ∉ utf8 dt.compiler

instance (dt : Environment) : Decidable dt.Built :=
  decidable_of_iff (dt.os.known ∧ dt.arch.known ∧ dt.boostVersion < 2 ^ 32 ∧ (utf8 dt.compiler).length ≤ 255 ∧ 0 ∉ utf8 dt.compiler)
    ⟨fun ⟨os, arch, boost, length, zeros⟩ => ⟨os, arch, boost, length, zeros⟩,
      fun built => ⟨built.os, built.arch, built.boostVersion, built.length, built.zeros⟩⟩

def bytes (dt : Environment) : List UInt8 :=
  byteOf dt.debug :: dt.os.toByte :: dt.arch.toByte :: (LittleEndian.encode 4 dt.boostVersion ++ (strncpy (utf8 dt.compiler) 255 ++ [0]))

@[simp] theorem length_bytes (dt : Environment) : dt.bytes.length = 263 := by simp [bytes, length_strncpy]

/-- `memcmp` tells two builds apart exactly if they differ. -/
theorem bytes_inj {first second : Environment} (built : first.Built) (other : second.Built) :
    first.bytes = second.bytes ↔ first = second := by
  refine ⟨fun same => ?_, fun same => same ▸ rfl⟩
  simp only [bytes, List.cons.injEq] at same
  obtain ⟨debug, os, arch, rest⟩ := same
  obtain ⟨boost, compiler⟩ := List.append_inj rest (by simp)
  have flags : first.debug = second.debug := by
    revert debug
    cases first.debug <;> cases second.debug <;> simp [byteOf]
  have systems : first.os = second.os := by rw [← Os.ofByte_toByte built.os, os, Os.ofByte_toByte other.os]
  have machines : first.arch = second.arch := by rw [← Arch.ofByte_toByte built.arch, arch, Arch.ofByte_toByte other.arch]
  have numbers : first.boostVersion = second.boostVersion := by
    have number : LittleEndian.decode (LittleEndian.encode 4 first.boostVersion) = first.boostVersion :=
      LittleEndian.decode_encode_of_lt built.boostVersion
    rw [boost, LittleEndian.decode_encode_of_lt other.boostVersion] at number
    exact number.symm
  have texts : first.compiler = second.compiler := by
    have text := cString_strncpy built.length built.zeros []
    rw [compiler, cString_strncpy other.length other.zeros] at text
    exact (utf8_inj.mp (Option.some.inj text)).symm
  cases first
  cases second
  rw [mk.injEq]
  exact ⟨flags, systems, machines, numbers, texts⟩

end Environment

/-! ## The header -/

def DbHeader.bytes (header : DbHeader) : List UInt8 :=
  LittleEndian.encode 8 header.id ++ (LittleEndian.encode 4 header.size ++ (byteOf header.dirty :: header.dbenviron.bytes))

@[simp] theorem DbHeader.length_bytes (header : DbHeader) : header.bytes.length = 276 := by simp [bytes]

def headerDirtyBitOffset : Nat := 12

/-- An exception, with its text in bytes. -/
structure ByteError where
  code : Errc
  what : List UInt8
deriving DecidableEq, Repr

def ByteError.throwError (fpath : Path) (code : Errc) (reason : List UInt8) : ByteError :=
  ⟨code, utf8 "\"" ++ (utf8 fpath.string ++ (utf8 "\" database " ++ reason))⟩

def SystemError.bytes (error : SystemError) : ByteError := ⟨error.code, utf8 error.what⟩

theorem SystemError.bytes_throwError (fpath : Path) (code : Errc) (reason : String) :
    (SystemError.throwError fpath code reason).bytes = ByteError.throwError fpath code (utf8 reason) := by
  simp [SystemError.bytes, SystemError.throwError, ByteError.throwError, utf8_append]

namespace Header
variable (header : List UInt8)

def id : Nat := LittleEndian.decode (header.take 8)
def size : Nat := LittleEndian.decode ((header.drop 8).take 4)
def dirty : Bool := header[headerDirtyBitOffset]?.any (· ≠ 0)
def dbenviron : List UInt8 := (header.drop 13).take 263

/-- The environment that the bytes are taken for, with the text of its compiler apart: it
ends at the first zero, wherever that is, and there may be none in what has been read. -/
def environment : Environment where
  debug := header[13]?.any (· ≠ 0)
  os := Os.ofByte (header.getD 14 0)
  arch := Arch.ofByte (header.getD 15 0)
  boostVersion := LittleEndian.decode ((header.drop 16).take 4)
  compiler := ""

/-- What is printed behind the compiler. -/
def parameters (dt : Environment) : String :=
  "\n" ++ Environment.label "Debug: " ++ (if dt.debug then "Yes" else "No") ++ "\n" ++
  Environment.label "OS: " ++ Environment.printOs dt.os ++ "\n" ++
  Environment.label "Arch: " ++ Environment.printArch dt.arch ++ "\n" ++
  Environment.label "Boost: " ++ toString (dt.boostVersion / 100000) ++ "." ++ toString (dt.boostVersion / 100 % 1000) ++ "." ++
    toString (dt.boostVersion % 100) ++ "\n"

def str : Option (List UInt8) :=
  (cString (header.drop 20)).map fun compiler =>
    utf8 (Environment.label "Compiler: ") ++ (compiler ++ utf8 (parameters (environment header)))

theorem str_eq (dt : Environment) : dt.str = Environment.label "Compiler: " ++ (dt.compiler ++ parameters dt) := by
  unfold Environment.str parameters
  simp only [String.append_assoc]

end Header

/-- `validate_db_header` on the bytes of a file; it has no result where it reads on behind
the header it has in memory. -/
def validateImage (fpath : Path) (own : Environment) (file : Option (List UInt8)) : Option (Except ByteError Bool) :=
  match file with
  | none => some (.error (.throwError fpath .badHeader (utf8 "invalid header")))
  | some image =>
    let header := image.take headerSize
    if header.length < headerSize then some (.error (.throwError fpath .badHeader (utf8 "invalid header")))
    else if Header.id header ≠ headerId ∨ Header.size header ≠ headerSize then
      some (.error (.throwError fpath .incorrectDbVersion (utf8 "incompatible version")))
    else if Header.dbenviron header ≠ own.bytes then
      (Header.str header).map fun text =>
        .error (.throwError fpath .incompatible (utf8 "was created on a different environment:\n" ++ text))
    else some (.ok !Header.dirty header)

/-! ## What is read of a header that has been written -/

namespace DbHeader

/-- The members of the header fit into its bytes. -/
structure Stored (header : DbHeader) : Prop where
  id : header.id < 256 ^ 8
  size : header.size < 256 ^ 4
  environ : header.dbenviron.Built

theorem getElem?_dirty (header : DbHeader) : header.bytes[12]? = some (byteOf header.dirty) := by
  simp [bytes]

theorem set_dirty (header : DbHeader) (flag : Bool) : header.bytes.set 12 (byteOf flag) = { header with dirty := flag }.bytes := by
  simp [bytes]

variable {header : DbHeader}

theorem Stored.read_id (stored : header.Stored) (rest : List UInt8) : Header.id (header.bytes ++ rest) = header.id := by
  rw [Header.id, bytes, List.append_assoc, List.take_left' (by simp), LittleEndian.decode_encode_of_lt stored.id]

theorem Stored.read_size (stored : header.Stored) (rest : List UInt8) : Header.size (header.bytes ++ rest) = header.size := by
  rw [Header.size, bytes, List.append_assoc, List.drop_left' (by simp), List.append_assoc, List.take_left' (by simp),
    LittleEndian.decode_encode_of_lt stored.size]

theorem read_dirty (header : DbHeader) (rest : List UInt8) : Header.dirty (header.bytes ++ rest) = header.dirty := by
  rw [Header.dirty, headerDirtyBitOffset, List.getElem?_append_left (by simp), getElem?_dirty]
  cases header.dirty <;> rfl

theorem drop_bytes (header : DbHeader) (rest : List UInt8) (n : Nat) :
    (header.bytes ++ rest).drop (13 + n) = (header.dbenviron.bytes ++ rest).drop n := by
  have front : (LittleEndian.encode 8 header.id ++ (LittleEndian.encode 4 header.size ++ [byteOf header.dirty])).length = 13 := by simp
  have parts : header.bytes = LittleEndian.encode 8 header.id ++ (LittleEndian.encode 4 header.size ++ [byteOf header.dirty]) ++
      header.dbenviron.bytes := by simp [bytes]
  rw [parts, List.append_assoc, ← List.drop_drop, List.drop_left' front]

theorem read_dbenviron (header : DbHeader) (rest : List UInt8) : Header.dbenviron (header.bytes ++ rest) = header.dbenviron.bytes := by
  rw [Header.dbenviron, header.drop_bytes rest 0, List.drop_zero, List.take_left' header.dbenviron.length_bytes]

theorem getElem?_bytes (header : DbHeader) (rest : List UInt8) (n : Nat) :
    (header.bytes ++ rest)[13 + n]? = (header.dbenviron.bytes ++ rest)[n]? := by
  rw [← Nat.add_zero (13 + n), ← List.getElem?_drop, drop_bytes, List.getElem?_drop, Nat.add_zero]

/-- The environment is printed as it is, though its text is only known to end. -/
theorem Stored.read_str (stored : header.Stored) (rest : List UInt8) :
    Header.str (header.bytes ++ rest) = some (utf8 header.dbenviron.str) := by
  let dt := header.dbenviron
  have compiler : (header.bytes ++ rest).drop 20 = strncpy (utf8 dt.compiler) 255 ++ 0 :: rest := by
    rw [header.drop_bytes rest 7]
    simp [Environment.bytes, dt]
  have debug : (header.bytes ++ rest)[13]? = some (byteOf dt.debug) := header.getElem?_bytes rest 0
  have os : (header.bytes ++ rest)[14]? = some dt.os.toByte := header.getElem?_bytes rest 1
  have arch : (header.bytes ++ rest)[15]? = some dt.arch.toByte := header.getElem?_bytes rest 2
  have boost : ((header.bytes ++ rest).drop 16).take 4 = LittleEndian.encode 4 dt.boostVersion := by
    rw [header.drop_bytes rest 3]
    simp [Environment.bytes, dt]
  have read : Header.environment (header.bytes ++ rest) = { dt with compiler := "" } := by
    rw [Header.environment, debug, List.getD_eq_getElem?_getD, os, List.getD_eq_getElem?_getD, arch, boost,
      LittleEndian.decode_encode_of_lt stored.environ.boostVersion, Option.getD_some, Option.getD_some,
      Os.ofByte_toByte stored.environ.os, Arch.ofByte_toByte stored.environ.arch]
    cases header.dbenviron.debug <;> rfl
  have text : Header.parameters { dt with compiler := "" } = Header.parameters dt := rfl
  rw [Header.str, compiler, cString_strncpy stored.environ.length stored.environ.zeros, Option.map_some, read, text, ← utf8_append,
    ← utf8_append, ← Header.str_eq]

end DbHeader

/-- What `new db_header` writes, but for the flag. -/
def headerOf (own : Environment) (flag : UInt8) : List UInt8 :=
  LittleEndian.encode 8 headerId ++ (LittleEndian.encode 4 headerSize ++ (flag :: own.bytes))

/-- The first twelve bytes. -/
def versionBytes : List UInt8 := LittleEndian.encode 8 headerId ++ LittleEndian.encode 4 headerSize

section
variable {image : List UInt8} {own : Environment}

theorem version_iff (long : headerSize ≤ image.length) :
    (Header.id (image.take headerSize) = headerId ∧ Header.size (image.take headerSize) = headerSize) ↔
      image.take 12 = versionBytes := by
  have long_ : 1024 ≤ image.length := long
  have first : (image.take headerSize).take 8 = (image.take 12).take 8 := by
    rw [List.take_take, List.take_take]
    rfl
  have second : ((image.take headerSize).drop 8).take 4 = (image.take 12).drop 8 := by
    rw [List.take_drop, List.take_take]
    rfl
  have eight : ((image.take 12).take 8).length = 8 := by
    simp
    omega
  have four : ((image.take 12).drop 8).length = 4 := by
    simp
    omega
  rw [Header.id, Header.size, first, second, LittleEndian.decode_eq_iff eight (by decide), LittleEndian.decode_eq_iff four (by decide)]
  constructor
  · rintro ⟨id, size⟩
    rw [← List.take_append_drop 8 (image.take 12), id, size, versionBytes]
  · intro version
    rw [version, versionBytes]
    exact ⟨List.take_left' (by simp), List.drop_left' (by simp)⟩

theorem dbenviron_eq (image : List UInt8) : Header.dbenviron (image.take headerSize) = (image.drop 13).take 263 := by
  rw [Header.dbenviron, List.drop_take, List.take_take]
  rfl

theorem dirty_eq (image : List UInt8) : Header.dirty (image.take headerSize) = image[12]?.any (· ≠ 0) := by
  rw [Header.dirty, List.getElem?_take_of_lt (by decide)]
  rfl

/-- The first 276 bytes are the header of a build exactly if the first twelve and the last
263 of them are. -/
theorem headerOf_iff (long : headerSize ≤ image.length) (flag : UInt8) :
    image.take 276 = headerOf own flag ↔
      image.take 12 = versionBytes ∧ image[12]? = some flag ∧ (image.drop 13).take 263 = own.bytes := by
  have long_ : 1024 ≤ image.length := long
  have inside : 12 < image.length := by omega
  have parts : image.take 276 = image.take 12 ++ (image[12] :: (image.drop 13).take 263) := by
    have cut : image.take 276 = image.take 12 ++ (image.drop 12).take 264 := by rw [← List.take_add]
    rw [cut, List.drop_eq_getElem_cons inside, List.take_succ_cons]
  have whole : headerOf own flag = versionBytes ++ (flag :: own.bytes) := by rw [headerOf, versionBytes, List.append_assoc]
  rw [parts, whole, List.getElem?_eq_getElem inside, Option.some.injEq]
  constructor
  · intro same
    obtain ⟨version, rest⟩ := List.append_inj same (by simp [versionBytes]; omega)
    exact ⟨version, (List.cons.inj rest).1, (List.cons.inj rest).2⟩
  · rintro ⟨version, byte, environ⟩
    rw [version, byte, environ]

/-- How the bytes of a file, whatever they are, decide what becomes of the constructor: the
file is taken for a database of the same build exactly if it begins with the header of one. -/
theorem validateImage_outcomes (fpath : Path) (own : Environment) (image : List UInt8) :
    let outcome := validateImage fpath own (some image)
    let foreign := image.take 12 = versionBytes ∧ (image.drop 13).take 263 ≠ own.bytes
    (outcome = some (.error (.throwError fpath .badHeader (utf8 "invalid header"))) ↔ image.length < headerSize) ∧
    (outcome = some (.error (.throwError fpath .incorrectDbVersion (utf8 "incompatible version"))) ↔
      headerSize ≤ image.length ∧ image.take 12 ≠ versionBytes) ∧
    ((∃ text, outcome = some (.error (.throwError fpath .incompatible (utf8 "was created on a different environment:\n" ++ text)))) ↔
      headerSize ≤ image.length ∧ foreign ∧ 0 ∈ (image.take headerSize).drop 20) ∧
    (outcome = none ↔ headerSize ≤ image.length ∧ foreign ∧ 0 ∉ (image.take headerSize).drop 20) ∧
    ∀ clean, outcome = some (.ok clean) ↔
      headerSize ≤ image.length ∧ ∃ flag, image.take 276 = headerOf own flag ∧ clean = (flag == 0) := by
  intro outcome foreign
  by_cases short : image.length < headerSize
  · have bad : outcome = some (.error (.throwError fpath .badHeader (utf8 "invalid header"))) := by
      simp [outcome, validateImage, List.length_take, short]
    have under : ¬ headerSize ≤ image.length := by omega
    rw [bad]
    simp [under, short, ByteError.throwError]
  · have long : headerSize ≤ image.length := by omega
    have read : ¬ (image.take headerSize).length < headerSize := by
      rw [List.length_take]
      omega
    by_cases version : image.take 12 = versionBytes
    · have known : ¬ (Header.id (image.take headerSize) ≠ headerId ∨ Header.size (image.take headerSize) ≠ headerSize) := by
        simpa [not_or] using (version_iff long).mpr version
      by_cases same : (image.drop 13).take 263 = own.bytes
      · have inside : 12 < image.length := by
          have wide : 1024 ≤ image.length := long
          omega
        have accepted : outcome = some (.ok (image[12] == 0)) := by
          simp only [outcome, validateImage, read, known, if_false, dbenviron_eq, same, ne_eq, not_true_eq_false, dirty_eq,
            List.getElem?_eq_getElem inside]
          simp [Bool.beq_eq_decide_eq]
        have own_header (flag : UInt8) : image.take 276 = headerOf own flag ↔ flag = image[12] := by
          simp [headerOf_iff long, version, same, List.getElem?_eq_getElem inside, eq_comm]
        rw [accepted]
        simp [foreign, version, same, short, own_header, long, eq_comm]
      · have other : outcome = (Header.str (image.take headerSize)).map fun text =>
            .error (.throwError fpath .incompatible (utf8 "was created on a different environment:\n" ++ text)) := by
          simp only [outcome, validateImage, read, known, if_false, dbenviron_eq, ne_eq, same, not_false_eq_true, if_true]
        rw [other, Header.str, cString]
        by_cases zero : 0 ∈ (image.take headerSize).drop 20
        · simp [zero, foreign, version, same, short, headerOf_iff long, long, ByteError.throwError]
        · simp [zero, foreign, version, same, short, headerOf_iff long, long]
    · have unknown : Header.id (image.take headerSize) ≠ headerId ∨ Header.size (image.take headerSize) ≠ headerSize := by
        by_contra neither
        rw [not_or, not_not, not_not] at neither
        exact version ((version_iff long).mp neither)
      have refused : outcome = some (.error (.throwError fpath .incorrectDbVersion (utf8 "incompatible version"))) := by
        simp only [outcome, validateImage, read, unknown, if_false, if_true]
      rw [refused]
      simp [foreign, version, short, long, headerOf_iff long, ByteError.throwError]

end

end ChainBase
