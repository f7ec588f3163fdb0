import ChainBase.Library.Crc32
import Mathlib.Data.Nat.Bitwise
import Mathlib.Logic.Function.Iterate

/-! What the checksum tells apart. The register is linear in the bits that go into it, and
no step loses any of it: of two strings of bits that differ only in a window as wide as
the register, one never passes for the other. -/

namespace Crc32

/-! ## The register -/

private theorem low_bit (register : UInt32) : register &&& 1 = 1 ↔ register.toNat % 2 = 1 := by
  rw [← UInt32.toNat_inj, UInt32.toNat_and, UInt32.toNat_one, Nat.and_one_is_mod]

private theorem low_bit_xor (register other : UInt32) :
    (register ^^^ other) &&& 1 = 1 ↔ ¬ (register &&& 1 = 1 ↔ other &&& 1 = 1) := by
  simp only [low_bit, UInt32.toNat_xor, Nat.xor_mod_two_eq_one]

private theorem toNat_half (register : UInt32) : (register >>> 1).toNat = register.toNat / 2 := by
  rw [UInt32.toNat_shiftRight]
  exact Nat.shiftRight_eq_div_pow _ 1

theorem shift_xor (register other : UInt32) : shift (register ^^^ other) = shift register ^^^ shift other := by
  have swap : ∀ a b p : UInt32, a ^^^ p ^^^ (b ^^^ p) = a ^^^ b := fun a b p => by
    rw [UInt32.xor_comm b p, UInt32.xor_assoc, ← UInt32.xor_assoc p, UInt32.xor_self, UInt32.zero_xor]
  simp only [shift, low_bit_xor, UInt32.shiftRight_xor]
  by_cases first : register &&& 1 = 1
  · by_cases second : other &&& 1 = 1
    · simp only [first, second, not_true_eq_false, if_false, if_true, swap]
    · simp only [first, second, iff_false, not_true_eq_false, not_false_eq_true, if_false, if_true]
      rw [UInt32.xor_assoc, UInt32.xor_comm (other >>> 1), ← UInt32.xor_assoc]
  · by_cases second : other &&& 1 = 1
    · simp only [first, second, false_iff, not_true_eq_false, not_false_eq_true, if_false, if_true, UInt32.xor_assoc]
    · simp only [first, second, not_true_eq_false, if_false]

/-- The polynomial has the highest bit, which a shift leaves empty. -/
theorem eq_zero_of_shift {register : UInt32} (lost : shift register = 0) : register = 0 := by
  have small := register.toNat_lt
  rw [← UInt32.toNat_inj, UInt32.toNat_zero]
  unfold shift at lost
  split at lost
  next odd =>
    have half := congrArg UInt32.toNat (UInt32.xor_eq_zero_iff.mp lost)
    rw [toNat_half, show polynomial.toNat = 0xEDB88320 from rfl] at half
    omega
  next even =>
    have half := congrArg UInt32.toNat lost
    rw [toNat_half, UInt32.toNat_zero] at half
    rw [low_bit] at even
    omega

theorem shift_injective : Function.Injective shift := by
  intro register other same
  apply UInt32.xor_eq_zero_iff.mp
  apply eq_zero_of_shift
  rw [shift_xor, same, UInt32.xor_self]

theorem shift_double {n : Nat} (fits : 2 * n < 2 ^ 32) : shift (UInt32.ofNat (2 * n)) = UInt32.ofNat n := by
  have double : (UInt32.ofNat (2 * n)).toNat = 2 * n := UInt32.toNat_ofNat_of_lt' fits
  have even : ¬ UInt32.ofNat (2 * n) &&& 1 = 1 := by
    rw [low_bit, double]
    omega
  rw [shift, if_neg even, ← UInt32.toNat_inj, toNat_half, double, UInt32.toNat_ofNat_of_lt' (by simp only [UInt32.size]; omega)]
  omega

/-! ## Bits -/

/-- The number with these bits, the lowest one first. -/
def number : List Bool → Nat
  | [] => 0
  | bit :: rest => bit.toNat + 2 * number rest

theorem number_lt (bits : List Bool) : number bits < 2 ^ bits.length := by
  induction bits with
  | nil => exact Nat.one_pos
  | cons bit bits ih =>
    have := bit.toNat_le
    simp only [number, List.length_cons, Nat.pow_succ]
    omega

theorem number_inj {bits others : List Bool} (length : bits.length = others.length) (same : number bits = number others) :
    bits = others := by
  induction bits generalizing others with
  | nil => exact (List.eq_nil_of_length_eq_zero length.symm).symm
  | cons bit bits ih =>
    cases others with
    | nil => cases length
    | cons other others =>
      simp only [number] at same
      have first : bit = other := by cases bit <;> cases other <;> simp at same ⊢ <;> omega
      subst first
      rw [ih (Nat.succ.inj length) (by omega)]

/-- So many bits of a number. -/
def bitsOf : Nat → Nat → List Bool
  | 0, _ => []
  | count + 1, n => (n % 2 == 1) :: bitsOf count (n / 2)

@[simp] theorem length_bitsOf (count n : Nat) : (bitsOf count n).length = count := by
  induction count generalizing n with
  | zero => rfl
  | succ count ih => simp [bitsOf, ih]

theorem number_bitsOf {count n : Nat} (fits : n < 2 ^ count) : number (bitsOf count n) = n := by
  induction count generalizing n with
  | zero =>
    rw [Nat.pow_zero, Nat.lt_one_iff] at fits
    rw [fits]
    rfl
  | succ count ih =>
    have low : (n % 2 == 1).toNat = n % 2 := by
      rcases Nat.mod_two_eq_zero_or_one n with even | odd <;> simp [*]
    rw [bitsOf, number, ih (by omega), low]
    omega

/-- The bits of a string, as they go into the register. -/
def bits (bytes : List UInt8) : List Bool := bytes.flatMap fun byte => bitsOf 8 byte.toNat

theorem bits_append (first second : List UInt8) : bits (first ++ second) = bits first ++ bits second :=
  List.flatMap_append

theorem bits_inj {first second : List UInt8} (same : bits first = bits second) : first = second := by
  induction first generalizing second with
  | nil =>
    cases second with
    | nil => rfl
    | cons byte second => cases same
  | cons byte first ih =>
    cases second with
    | nil => cases same
    | cons other second =>
      obtain ⟨here, rest⟩ := List.append_inj same (by simp)
      have number := congrArg number here
      rw [number_bitsOf byte.toNat_lt, number_bitsOf other.toNat_lt] at number
      rw [UInt8.toNat_inj.mp number, ih rest]

theorem length_bits (bytes : List UInt8) : (bits bytes).length = 8 * bytes.length := by
  induction bytes with
  | nil => rfl
  | cons byte bytes ih =>
    simp only [bits, List.flatMap_cons, List.length_append, length_bitsOf, List.length_cons] at ih ⊢
    omega

/-! ## Bit by bit -/

def processBit (register : UInt32) (bit : Bool) : UInt32 := shift (register ^^^ UInt32.ofNat bit.toNat)

private theorem ofNat_number {bit : Bool} {rest : List Bool} (fits : rest.length < 32) :
    UInt32.ofNat (number (bit :: rest)) = UInt32.ofNat bit.toNat ^^^ UInt32.ofNat (2 * number rest) := by
  have small : 2 * number rest < 2 ^ 32 := by
    have := number_lt rest
    have := Nat.pow_le_pow_right (n := 2) (by decide) (Nat.le_of_lt_succ fits)
    omega
  cases bit with
  | false => simp [number]
  | true =>
    have one : 1 ^^^ 2 * number rest = 1 + 2 * number rest := by
      rw [Nat.xor_comm, Nat.add_comm]
      exact Nat.xor_one_of_even (even_two_mul _)
    rw [← UInt32.toNat_inj, UInt32.toNat_xor, UInt32.toNat_ofNat_of_lt' (by simp only [number, UInt32.size, Bool.toNat_true]; omega),
      UInt32.toNat_ofNat_of_lt' small]
    exact one.symm

/-- So many bits as fit the register all go into it before it is shifted. -/
theorem processBits_window {window : List Bool} (fits : window.length ≤ 32) (register : UInt32) :
    window.foldl processBit register = shift^[window.length] (register ^^^ UInt32.ofNat (number window)) := by
  induction window generalizing register with
  | nil => simp [number]
  | cons bit window ih =>
    have small : 2 * number window < 2 ^ 32 := by
      have := number_lt window
      have := Nat.pow_le_pow_right (n := 2) (by decide) (Nat.le_of_lt_succ fits)
      omega
    calc (bit :: window).foldl processBit register
        = shift^[window.length] (processBit register bit ^^^ UInt32.ofNat (number window)) :=
          ih (Nat.le_of_succ_le fits) _
      _ = shift^[window.length] (processBit register bit ^^^ shift (UInt32.ofNat (2 * number window))) := by
          rw [shift_double small]
      _ = shift^[window.length] (shift (register ^^^ UInt32.ofNat (number (bit :: window)))) := by
          rw [processBit, ← shift_xor, UInt32.xor_assoc, ofNat_number (Nat.lt_of_succ_le fits)]
      _ = shift^[(bit :: window).length] (register ^^^ UInt32.ofNat (number (bit :: window))) := rfl

theorem processByte_eq (register : UInt32) (byte : UInt8) :
    processByte register byte = (bitsOf 8 byte.toNat).foldl processBit register := by
  rw [processBits_window (by simp), number_bitsOf byte.toNat_lt, length_bitsOf, UInt32.ofNat_uInt8ToNat]
  rfl

theorem process_eq (register : UInt32) (bytes : List UInt8) : process register bytes = (bits bytes).foldl processBit register := by
  induction bytes generalizing register with
  | nil => rfl
  | cons byte bytes ih =>
    rw [bits, List.flatMap_cons, List.foldl_append, ← processByte_eq]
    exact ih _

theorem processBits_injective (rest : List Bool) : Function.Injective (rest.foldl processBit) := by
  induction rest with
  | nil => exact fun _ _ same => same
  | cons bit rest ih =>
    intro register other same
    exact (UInt32.xor_left_inj _).mp (shift_injective (ih same))

/-! ## Bursts -/

/-- The bits of two strings differ, and only in a window of so many bits. -/
def Burst (width : Nat) (sent received : List UInt8) : Prop :=
  ∃ front window altered back, bits sent = front ++ (window ++ back) ∧ bits received = front ++ (altered ++ back) ∧
    window.length = altered.length ∧ window.length ≤ width ∧ window ≠ altered

/-- Bytes in a row are a window of their bits. -/
theorem burst_bytes {width : Nat} {window altered : List UInt8} (front back : List UInt8) (length : window.length = altered.length)
    (fits : 8 * window.length ≤ width) (differ : window ≠ altered) :
    Burst width (front ++ (window ++ back)) (front ++ (altered ++ back)) := by
  refine ⟨bits front, bits window, bits altered, bits back, ?_, ?_, ?_, ?_, fun same => differ (bits_inj same)⟩
  · rw [bits_append, bits_append]
  · rw [bits_append, bits_append]
  · rw [length_bits, length_bits, length]
  · rw [length_bits]
    exact fits

/-- No burst that is as short as the checksum goes unnoticed by it. -/
theorem Burst.checksum_ne {sent received : List UInt8} (burst : Burst 32 sent received) : checksum sent ≠ checksum received := by
  obtain ⟨front, window, altered, back, left, right, length, fits, differ⟩ := burst
  intro same
  have registers := (UInt32.xor_left_inj _).mp same
  rw [process_eq, process_eq, left, right] at registers
  simp only [List.foldl_append] at registers
  have windows := processBits_injective back registers
  rw [@processBits_window window fits, @processBits_window altered (length ▸ fits), ← length] at windows
  have numbers := (UInt32.xor_right_inj _).mp (shift_injective.iterate _ windows)
  have small : ∀ bits : List Bool, bits.length ≤ 32 → number bits < 2 ^ 32 := fun bits fits =>
    Nat.lt_of_lt_of_le (number_lt bits) (Nat.pow_le_pow_right (by decide) fits)
  have equal := congrArg UInt32.toNat numbers
  rw [UInt32.toNat_ofNat_of_lt' (small window fits), UInt32.toNat_ofNat_of_lt' (small altered (length ▸ fits))] at equal
  exact differ (number_inj length equal)

theorem Burst.length_eq {width : Nat} {sent received : List UInt8} (burst : Burst width sent received) :
    sent.length = received.length := by
  obtain ⟨front, window, altered, back, left, right, length, -, -⟩ := burst
  have bits := congrArg List.length left
  have others := congrArg List.length right
  simp only [length_bits, List.length_append] at bits others
  omega

end Crc32
