import Mathlib.Data.List.Induction
import Mathlib.Tactic.Ring

/-! Integers of a fixed width as bytes, the most significant first; negative ones in
two's complement. -/

namespace BigEndian

/-- The last `width` bytes of a number. -/
def encode : Nat → Nat → List UInt8
  | 0, _ => []
  | width + 1, n => UInt8.ofNat (n / 256 ^ width) :: encode width n

def decode (bytes : List UInt8) : Nat := bytes.foldl (fun n byte => n * 256 + byte.toNat) 0

@[simp] theorem length_encode (width n : Nat) : (encode width n).length = width := by
  induction width with
  | zero => rfl
  | succ width ih => simp [encode, ih]

private theorem foldl_encode (width n high : Nat) :
    (encode width n).foldl (fun n byte => n * 256 + byte.toNat) high = high * 256 ^ width + n % 256 ^ width := by
  induction width generalizing high with
  | zero => simp [encode, Nat.mod_one]
  | succ width ih =>
    have split : n % 256 ^ (width + 1) = n % 256 ^ width + 256 ^ width * (n / 256 ^ width % 256) := Nat.mod_mul
    have byte : (UInt8.ofNat (n / 256 ^ width)).toNat = n / 256 ^ width % 256 := UInt8.toNat_ofNat'
    rw [encode, List.foldl_cons, ih, byte, split]
    ring

theorem decode_encode (width n : Nat) : decode (encode width n) = n % 256 ^ width := by
  simp [decode, foldl_encode]

theorem decode_encode_of_lt {width n : Nat} (inside : n < 256 ^ width) : decode (encode width n) = n := by
  rw [decode_encode, Nat.mod_eq_of_lt inside]

theorem decode_concat (bytes : List UInt8) (last : UInt8) :
    decode (bytes ++ [last]) = decode bytes * 256 + last.toNat := by
  simp [decode]

theorem decode_lt (bytes : List UInt8) : decode bytes < 256 ^ bytes.length := by
  induction bytes using List.reverseRecOn with
  | nil => simp [decode]
  | append_singleton bytes last ih =>
    have byte := last.toNat_lt
    rw [decode_concat, List.length_append, List.length_singleton, Nat.pow_succ]
    omega

private theorem encode_concat (width n : Nat) :
    encode (width + 1) n = encode width (n / 256) ++ [UInt8.ofNat n] := by
  induction width with
  | zero => simp [encode]
  | succ width ih =>
    rw [encode, ih, encode, List.cons_append, Nat.div_div_eq_div_mul, Nat.pow_succ, Nat.mul_comm 256]

theorem encode_decode {width : Nat} {bytes : List UInt8} (length : bytes.length = width) :
    encode width (decode bytes) = bytes := by
  subst length
  induction bytes using List.reverseRecOn with
  | nil => rfl
  | append_singleton bytes last ih =>
    have byte := last.toNat_lt
    have high : (decode bytes * 256 + last.toNat) / 256 = decode bytes := by omega
    have low : UInt8.ofNat (decode bytes * 256 + last.toNat) = last :=
      UInt8.toNat.inj (by rw [UInt8.toNat_ofNat']; omega)
    rw [decode_concat, List.length_append, List.length_singleton, encode_concat, high, ih, low]

theorem decode_append (front back : List UInt8) : decode (front ++ back) = decode front * 256 ^ back.length + decode back := by
  induction back using List.reverseRecOn with
  | nil => simp [decode]
  | append_singleton back last ih =>
    rw [← List.append_assoc, decode_concat, ih, decode_concat, List.length_append, List.length_singleton, Nat.pow_succ]
    ring

theorem take_encode {width k : Nat} (inside : k ≤ width) (n : Nat) : (encode width n).take k = encode k (n / 256 ^ (width - k)) := by
  induction width generalizing k with
  | zero =>
    obtain rfl := Nat.le_zero.mp inside
    rfl
  | succ width ih =>
    cases k with
    | zero => rfl
    | succ k =>
      have shorter : k ≤ width := Nat.le_of_succ_le_succ inside
      rw [encode, List.take_succ_cons, ih shorter, encode, Nat.add_sub_add_right, Nat.div_div_eq_div_mul, ← Nat.pow_add,
        Nat.sub_add_cancel shorter]

theorem drop_encode (width k n : Nat) : (encode width n).drop k = encode (width - k) n := by
  induction width generalizing k with
  | zero => simp [encode]
  | succ width ih =>
    cases k with
    | zero => rfl
    | succ k => rw [encode, List.drop_succ_cons, ih, Nat.add_sub_add_right]

/-- Some of the bytes of a number in place of those of another. -/
theorem decode_mixed {width k : Nat} (inside : k ≤ width) (first second : Nat) (bounded : second < 256 ^ width) :
    decode ((encode width second).take k ++ (encode width first).drop k) =
      second / 256 ^ (width - k) * 256 ^ (width - k) + first % 256 ^ (width - k) := by
  have high : second / 256 ^ (width - k) < 256 ^ k := by
    rw [Nat.div_lt_iff_lt_mul (Nat.pow_pos (by decide)), ← Nat.pow_add, Nat.add_sub_cancel' inside]
    exact bounded
  rw [decode_append, take_encode inside, drop_encode, decode_encode_of_lt high, decode_encode, length_encode]

/-! ## Signed integers -/

def encodeSigned (width : Nat) (n : Int) : List UInt8 := encode width (n % (256 ^ width : Nat)).toNat

def decodeSigned (bytes : List UInt8) : Int := Int.bmod (decode bytes) (256 ^ bytes.length)

@[simp] theorem length_encodeSigned (width : Nat) (n : Int) : (encodeSigned width n).length = width :=
  length_encode width _

theorem decodeSigned_encodeSigned {width : Nat} {n : Int} (least : -(256 ^ width : Nat) ≤ n * 2)
    (bounded : n * 2 < (256 ^ width : Nat)) : decodeSigned (encodeSigned width n) = n := by
  have positive : 0 < 256 ^ width := Nat.pow_pos (by decide)
  have residue : (((n % (256 ^ width : Nat)).toNat : Nat) : Int) = n % (256 ^ width : Nat) :=
    Int.toNat_of_nonneg (Int.emod_nonneg n (by omega))
  rw [decodeSigned, length_encodeSigned, encodeSigned, decode_encode, Int.natCast_emod, residue, Int.emod_emod, Int.emod_bmod]
  exact Int.bmod_eq_of_le_mul_two least bounded

theorem encode_mod (width n : Nat) : encode width (n % 256 ^ width) = encode width n := by
  rw [← decode_encode]
  exact encode_decode (length_encode width n)

theorem encodeSigned_natCast (width n : Nat) : encodeSigned width n = encode width n := by
  rw [encodeSigned, ← Int.natCast_emod, Int.toNat_natCast, encode_mod]

theorem decodeSigned_of_lt {bytes : List UInt8} (small : decode bytes * 2 < 256 ^ bytes.length) : decodeSigned bytes = decode bytes :=
  Int.bmod_eq_of_le_mul_two (by omega) (by exact_mod_cast small)

theorem decodeSigned_range (bytes : List UInt8) :
    -((256 ^ bytes.length : Nat) / 2 : Int) ≤ decodeSigned bytes ∧ decodeSigned bytes < ((256 ^ bytes.length : Nat) + 1) / 2 := by
  have positive : 0 < 256 ^ bytes.length := Nat.pow_pos (by decide)
  exact ⟨Int.le_bmod positive, Int.bmod_lt positive⟩

end BigEndian

/-! ## The least significant byte first -/

namespace LittleEndian

def encode (width n : Nat) : List UInt8 := (BigEndian.encode width n).reverse

def decode (bytes : List UInt8) : Nat := BigEndian.decode bytes.reverse

@[simp] theorem length_encode (width n : Nat) : (encode width n).length = width := by simp [encode]

theorem decode_encode_of_lt {width n : Nat} (inside : n < 256 ^ width) : decode (encode width n) = n := by
  rw [decode, encode, List.reverse_reverse, BigEndian.decode_encode_of_lt inside]

theorem encode_decode {width : Nat} {bytes : List UInt8} (length : bytes.length = width) : encode width (decode bytes) = bytes := by
  rw [encode, decode, BigEndian.encode_decode (by rw [List.length_reverse, length]), List.reverse_reverse]

/-- Bytes are those of a number that fits exactly if the number is read from them. -/
theorem decode_eq_iff {width n : Nat} {bytes : List UInt8} (length : bytes.length = width) (inside : n < 256 ^ width) :
    decode bytes = n ↔ bytes = encode width n := by
  constructor
  · rintro rfl
    exact (encode_decode length).symm
  · rintro rfl
    exact decode_encode_of_lt inside

end LittleEndian
