import GroupCommit.Bytes.LittleEndian
import GroupCommit.Checksum
import Mathlib.Data.Nat.Bitwise
import Mathlib.Logic.Function.Iterate

/-!
# The register of the checksum

One step of the division is linear over exclusive or (`Crc32.shift_xor`), and it can be undone
(`Crc32.shift_injective`): the polynomial has its top bit set, and a word that is shifted down has
not. So feeding can be undone as well, and two registers that differ still differ after the same bytes
(`Crc32.foldl_feed_injective`).

Up to four bytes in a row act like one word, the number that they spell least significant byte first:
it is added to the register before all of its bits are shifted out (`Crc32.foldl_feed`). The checksum
of a byte string is such a word, and the register after the string and its checksum does not depend on
the string. So a word behind a string is its checksum just when it leaves that register
(`Crc32.foldl_feed_append_eq_iff`).
-/

namespace GroupCommit.Crc32

open Function

/-! ### One step -/

/-- One step, as a sum of which the low bit chooses the second part. -/
theorem shift_eq (x : UInt32) :
    shift x = (x >>> 1) ^^^ if x.toNat.testBit 0 then polynomial else 0 := by
  have h_low : x &&& 1 = 1 ↔ x.toNat.testBit 0 = true := by
    rw [← UInt32.toNat_inj, UInt32.toNat_and, Nat.testBit_zero, decide_eq_true_iff]
    exact Eq.congr_left (Nat.and_one_is_mod x.toNat)
  simp only [shift, h_low]
  split
  · rfl
  · exact UInt32.xor_zero.symm

theorem toNat_half (x : UInt32) : (x >>> 1).toNat = x.toNat / 2 := by
  rw [UInt32.toNat_shiftRight]
  exact Nat.shiftRight_one x.toNat

/-- **One step is linear.** -/
theorem shift_xor (a b : UInt32) : shift (a ^^^ b) = shift a ^^^ shift b := by
  have h_half : (a ^^^ b) >>> 1 = (a >>> 1) ^^^ (b >>> 1) := UInt32.shiftRight_xor
  -- where both low bits are set, the polynomial is subtracted twice
  have h_low : (if a.toNat.testBit 0 ^^ b.toNat.testBit 0 then polynomial else 0) =
      (if a.toNat.testBit 0 then polynomial else 0) ^^^
        if b.toNat.testBit 0 then polynomial else 0 := by
    cases a.toNat.testBit 0 <;> cases b.toNat.testBit 0 <;> simp
  simp only [shift_eq, UInt32.toNat_xor, Nat.testBit_xor, h_half]
  rw [h_low]
  ac_rfl

/-- Only zero is shifted to zero. -/
theorem eq_zero_of_shift {x : UInt32} (h : shift x = 0) : x = 0 := by
  rw [shift_eq, UInt32.xor_eq_zero_iff] at h
  have h_half := toNat_half x
  have h_lt := x.toNat_lt
  have h_top : polynomial.toNat = 3988292384 := rfl
  rw [h, Nat.testBit_zero] at h_half
  apply UInt32.toNat_inj.1
  change x.toNat = 0
  -- an odd register is halved and the polynomial added, an even one only halved
  by_cases h_odd : x.toNat % 2 = 1
  · -- the half of a word has no top bit
    simp only [h_odd, decide_true, if_true] at h_half
    omega
  · simp only [h_odd, decide_false, Bool.false_eq_true, if_false] at h_half
    change 0 = x.toNat / 2 at h_half
    omega

/-- **One step can be undone.** -/
theorem shift_injective : Injective shift := by
  intro a b h
  have h_sum : shift (a ^^^ b) = 0 := by rw [shift_xor, h, UInt32.xor_self]
  exact UInt32.xor_eq_zero_iff.1 (eq_zero_of_shift h_sum)

/-! ### Many steps -/

/-- Many steps of the register are linear, as one is. -/
theorem iterate_shift_xor (n : ℕ) (a b : UInt32) :
    shift^[n] (a ^^^ b) = shift^[n] a ^^^ shift^[n] b := by
  induction n generalizing a b with
  | zero => rfl
  | succ n ih => rw [iterate_succ_apply, shift_xor, ih, iterate_succ_apply, iterate_succ_apply]

/-- A step halves an even register. -/
theorem shift_double {x : ℕ} (h : 2 * x < 2 ^ 32) :
    shift (UInt32.ofNat (2 * x)) = UInt32.ofNat x := by
  have h_value : (UInt32.ofNat (2 * x)).toNat = 2 * x := UInt32.toNat_ofNat_of_lt' h
  have h_even : (2 * x).testBit 0 = false := by simp
  rw [shift_eq, h_value, h_even]
  apply UInt32.toNat_inj.1
  simp only [Bool.false_eq_true, if_false, UInt32.xor_zero]
  rw [toNat_half, h_value, UInt32.toNat_ofNat_of_lt' (lt_of_le_of_lt (by omega) h)]
  omega

/-- A word with low zeros is shifted down as it is. -/
theorem iterate_shift_two_pow_mul {n x : ℕ} (h : 2 ^ n * x < 2 ^ 32) :
    shift^[n] (UInt32.ofNat (2 ^ n * x)) = UInt32.ofNat x := by
  induction n with
  | zero => simp
  | succ n ih =>
    have h_double : 2 ^ (n + 1) * x = 2 * (2 ^ n * x) := by rw [pow_succ', mul_assoc]
    rw [h_double] at h ⊢
    rw [iterate_succ_apply, shift_double h, ih (by omega)]

/-! ### Words and their bytes -/

/-- Numbers with no bit in common are added by exclusive or. -/
theorem ofNat_add_two_pow_mul {low k : ℕ} (h : low < 2 ^ k) (high : ℕ) :
    UInt32.ofNat (low + 2 ^ k * high) = UInt32.ofNat low ^^^ UInt32.ofNat (2 ^ k * high) := by
  rw [← UInt32.ofNat_xor]
  congr 1
  apply Nat.eq_of_testBit_eq
  intro i
  rw [Nat.add_comm, Nat.testBit_two_pow_mul_add high h, Nat.testBit_xor, Nat.testBit_two_pow_mul]
  by_cases h_low : i < k
  · simp [h_low, Nat.not_le.2 h_low]
  · have h_le : k ≤ i := Nat.le_of_not_lt h_low
    have h_none : low.testBit i = false :=
      Nat.testBit_lt_two_pow (h.trans_le (Nat.pow_le_pow_right (by decide) h_le))
    simp [h_low, h_none, h_le]

theorem bound_eq (width : ℕ) : LittleEndian.bound width = 2 ^ (8 * width) := by
  induction width with
  | zero => rfl
  | succ width ih =>
    rw [LittleEndian.bound, ih, Nat.mul_succ, pow_add, Nat.mul_comm]
    rfl

theorem decode_lt (bytes : Bytes) : LittleEndian.decode bytes < 2 ^ (8 * bytes.length) :=
  (LittleEndian.decode_lt_bound bytes).trans_eq (bound_eq bytes.length)

/-- Four bytes spell a word, and no others spell the same. -/
theorem decode_inj {bytes bytes' : Bytes} (h : bytes.length = 4) (h' : bytes'.length = 4)
    (h_word : UInt32.ofNat (LittleEndian.decode bytes) = UInt32.ofNat (LittleEndian.decode bytes')) :
    bytes = bytes' := by
  rw [← LittleEndian.encode_uInt32 h, h_word, LittleEndian.encode_uInt32 h']

/-! ### Feeding bytes -/

theorem repeat_eq_iterate {α : Type} (f : α → α) (n : ℕ) (a : α) : Nat.repeat f n a = f^[n] a := by
  induction n with
  | zero => rfl
  | succ n ih => rw [Nat.repeat, ih, iterate_succ_apply']

/-- Feeding a byte is eight steps of the register with the byte added. -/
theorem feed_eq (register : UInt32) (byte : UInt8) :
    feed register byte = shift^[8] (register ^^^ byte.toUInt32) :=
  repeat_eq_iterate shift 8 _

/-- **Feeding can be undone.** -/
theorem foldl_feed_injective (bytes : Bytes) : Injective (bytes.foldl feed) := by
  induction bytes with
  | nil => exact injective_id
  | cons byte bytes ih =>
    intro a b h
    have h_first : feed a byte = feed b byte := ih h
    rw [feed_eq, feed_eq] at h_first
    exact (UInt32.xor_left_inj _).1 (shift_injective.iterate 8 h_first)

/-- **Up to four bytes act like one word**, the number that they spell. -/
theorem foldl_feed {bytes : Bytes} (h : bytes.length ≤ 4) (register : UInt32) :
    bytes.foldl feed register =
      shift^[8 * bytes.length] (register ^^^ UInt32.ofNat (LittleEndian.decode bytes)) := by
  -- on the bytes, the first of which are the lowest bits of the word
  induction bytes generalizing register with
  | nil => simp [LittleEndian.decode]
  | cons byte bytes ih =>
    rw [List.length_cons] at h
    have h_rest : 2 ^ 8 * LittleEndian.decode bytes < 2 ^ 32 :=
      calc 2 ^ 8 * LittleEndian.decode bytes
          < 2 ^ 8 * 2 ^ (8 * bytes.length) := Nat.mul_lt_mul_of_pos_left (decode_lt bytes) (by decide)
        _ = 2 ^ (8 * (bytes.length + 1)) := by rw [← pow_add, Nat.mul_succ, Nat.add_comm]
        _ ≤ 2 ^ 32 := Nat.pow_le_pow_right (by decide) (by omega)
    have h_word : UInt32.ofNat (LittleEndian.decode (byte :: bytes)) =
        byte.toUInt32 ^^^ UInt32.ofNat (2 ^ 8 * LittleEndian.decode bytes) := by
      rw [← UInt32.ofNat_uInt8ToNat]
      exact ofNat_add_two_pow_mul byte.toNat_lt _
    -- the later bytes stand above the first, where its eight steps only shift them down
    have h_first : feed register byte ^^^ UInt32.ofNat (LittleEndian.decode bytes) =
        shift^[8] (register ^^^ UInt32.ofNat (LittleEndian.decode (byte :: bytes))) := by
      rw [h_word, ← UInt32.xor_assoc, iterate_shift_xor, iterate_shift_two_pow_mul h_rest, feed_eq]
    rw [List.foldl_cons, ih (by omega), h_first, ← iterate_add_apply, List.length_cons, Nat.mul_succ]

/-- **A checksum in its place.** A word behind a byte string is its checksum just when both together
leave this register. -/
theorem foldl_feed_append_eq_iff {body tail : Bytes} (h : tail.length = 4) :
    (body ++ tail).foldl feed 0xFFFFFFFF = shift^[32] 0xFFFFFFFF ↔
      UInt32.ofNat (LittleEndian.decode tail) = checksum body := by
  rw [List.foldl_append, foldl_feed h.le, h, (shift_injective.iterate 32).eq_iff, checksum,
    ← UInt32.xor_right_inj (body.foldl feed 0xFFFFFFFF), ← UInt32.xor_assoc, UInt32.xor_self,
    UInt32.zero_xor]

end GroupCommit.Crc32
