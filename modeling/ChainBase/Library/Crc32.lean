import Mathlib.Data.List.Basic

/-! The checksum of Ethernet and zip: the reflected CRC with 32 bits. -/

namespace Crc32

/-- The bits of the polynomial, the highest power last. -/
def polynomial : UInt32 := 0xEDB88320

/-- The register before the first byte. -/
def initial : UInt32 := 0xFFFFFFFF

def shift (register : UInt32) : UInt32 :=
  if register &&& 1 = 1 then (register >>> 1) ^^^ polynomial else register >>> 1

def processByte (register : UInt32) (byte : UInt8) : UInt32 :=
  (List.range 8).foldl (fun register _ => shift register) (register ^^^ byte.toUInt32)

def process (register : UInt32) (bytes : List UInt8) : UInt32 := bytes.foldl processByte register

def finish (register : UInt32) : UInt32 := register ^^^ 0xFFFFFFFF

def checksum (bytes : List UInt8) : UInt32 := finish (process initial bytes)

@[simp] theorem process_nil (register : UInt32) : process register [] = register := rfl

theorem process_append (register : UInt32) (first second : List UInt8) :
    process register (first ++ second) = process (process register first) second :=
  List.foldl_append

@[simp] theorem checksum_nil : checksum [] = 0 := by decide

/-- The check value of the algorithm, over the digits from 1 to 9. -/
example : checksum [0x31, 0x32, 0x33, 0x34, 0x35, 0x36, 0x37, 0x38, 0x39] = 0xCBF43926 := by decide +kernel

end Crc32
