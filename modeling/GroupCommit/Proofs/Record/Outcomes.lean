import GroupCommit.Proofs.Record.RoundTrip
import Mathlib.Algebra.BigOperators.Ring.Finset

/-!
# What reading a record comes to

A reader looks for a record with a payload whose length comes from elsewhere, so any buffer may meet
any length. The length of the whole record is computed first, and where no word holds it reading ends
in a fault; from there on everything is safe. A buffer that is too short is refused, one whose checksum
does not match is refused as well, and any other is read.

* `Record.wordAt`: the number that stands at an offset, from its bytes.
* `Record.decode_outcomes`: when reading ends in which way, for every buffer and every length.
* `Record.decode_faults_unaddressable`: lengths that fit in a word and make reading fault.
-/

namespace GroupCommit.Record

variable {bytes : Bytes} {n : ℕ}

/-- The number of four bytes at an offset, the least significant first. -/
def wordAt (bytes : Bytes) (offset : ℕ) : UInt32 :=
  UInt32.ofNat (∑ k ∈ Finset.range 4, (bytes.read (offset + k)).toNat * 256 ^ k)

/-- Reading a number byte by byte gives the sum of its digits. -/
theorem decode_take {width : ℕ} (h : width ≤ bytes.length) :
    LittleEndian.decode (bytes.take width) =
      ∑ k ∈ Finset.range width, (bytes.read k).toNat * 256 ^ k := by
  induction width generalizing bytes with
  | zero => rfl
  | succ width ih =>
    cases bytes with
    | nil => exact absurd h (Nat.not_succ_le_zero _)
    | cons b rest =>
      -- the first byte counts once, and each of the others 256 times as much as in the rest
      have h_digit : ∀ k ∈ Finset.range width, (Bytes.read (b :: rest) (k + 1)).toNat * 256 ^ (k + 1) =
          256 * ((Bytes.read rest k).toNat * 256 ^ k) := by
        intro k _
        rw [pow_succ, Nat.mul_left_comm 256, Nat.mul_comm 256]
        rfl
      calc
        LittleEndian.decode ((b :: rest).take (width + 1))
          = b.toNat + 256 * LittleEndian.decode (rest.take width) := rfl
        _ = b.toNat + 256 * ∑ k ∈ Finset.range width, (Bytes.read rest k).toNat * 256 ^ k := by
          rw [ih (Nat.le_of_succ_le_succ h)]
        _ = ∑ k ∈ Finset.range (width + 1), (Bytes.read (b :: rest) k).toNat * 256 ^ k := by
          rw [Finset.sum_range_succ', Finset.sum_congr rfl h_digit, ← Finset.mul_sum, pow_zero,
            mul_one, add_comm]
          rfl

/-- The checksum that a reader finds is the number behind the payload. -/
theorem storedOf_eq_wordAt (h : overhead + n ≤ bytes.length) :
    storedOf bytes n = wordAt bytes (timestampSize + n) := by
  have h_room : checksumSize ≤ List.length (bytes.drop (timestampSize + n)) := by
    rw [List.length_drop]
    simp only [overhead] at h
    omega
  have h_read : ∀ k, Bytes.read (bytes.drop (timestampSize + n)) k =
      bytes.read (timestampSize + n + k) := by
    intro k
    simp only [Bytes.read, List.getD_eq_getElem?_getD, List.getElem?_drop]
  rw [storedOf, wordAt, decode_take h_room]
  simp only [h_read]
  rfl

/-- Where no word holds the length of the record, reading does not get further. -/
theorem decode_of_limit_le (h : Word.limit ≤ overhead + n) :
    decode bytes n = .error (.fault .addOverflow) := by
  rw [decode, encodedLength, Word.add, if_neg (Nat.not_lt.2 h)]
  rfl

/-- **How reading ends**, for every buffer and every length of a payload. In a fault just where no word
holds the length of the record. Otherwise a buffer is refused as truncated just when it is shorter than
that, and as corrupt just when it is not and the number behind the payload is not the checksum of the
payload. Everything else is read. -/
theorem decode_outcomes (bytes : Bytes) (n : ℕ) :
    (∀ broken, decode bytes n = .error (.fault broken) ↔
      Word.limit ≤ overhead + n ∧ broken = .addOverflow) ∧
    (∀ error, decode bytes n = .error (.refused error) ↔
      overhead + n < Word.limit ∧
        (bytes.length < overhead + n ∧
            error = .invalidRecord (.truncated (overhead + n) bytes.length) ∨
          overhead + n ≤ bytes.length ∧
            wordAt bytes (timestampSize + n) ≠ GroupCommit.checksum (bodyOf bytes n) ∧
            error = .corruption (.checksumMismatch (wordAt bytes (timestampSize + n))
              (GroupCommit.checksum (bodyOf bytes n))))) ∧
    (∀ r, decode bytes n = .ok r ↔
      overhead + n < Word.limit ∧ overhead + n ≤ bytes.length ∧
        wordAt bytes (timestampSize + n) = GroupCommit.checksum (bodyOf bytes n) ∧
        r = ⟨UInt64.ofNat (LittleEndian.decode (bytes.take timestampSize)), bodyOf bytes n,
          wordAt bytes (timestampSize + n)⟩) := by
  -- the reader checks the length, the room and the checksum, in this order; each check decides one case
  by_cases h_word : overhead + n < Word.limit
  case neg =>
    rw [decode_of_limit_le (Nat.le_of_not_lt h_word)]
    grind
  by_cases h_room : overhead + n ≤ bytes.length
  case neg =>
    rw [decode_short h_word (Nat.lt_of_not_le h_room)]
    grind
  have h_stored := storedOf_eq_wordAt h_room
  by_cases h_intact : Intact bytes n
  · have h_same := (intact_iff h_room).1 h_intact
    rw [decode_of_intact h_word h_room h_intact]
    grind
  · have h_differ := (intact_iff h_room).not.1 h_intact
    rw [decode_of_not_intact h_word h_room h_intact]
    grind

/-- Fifteen bytes are the record of a payload of three bytes. Taken for one of four they are truncated, and
for one of two corrupt; and no buffer is taken for one whose length leaves the words. -/
theorem decode_outcomes_threeBytes :
    (∃ r, decode [7, 0, 0, 0, 0, 0, 0, 0, 1, 2, 3, 0x1D, 0x80, 0xBC, 0x55] 3 = .ok r) ∧
    decode [7, 0, 0, 0, 0, 0, 0, 0, 1, 2, 3, 0x1D, 0x80, 0xBC, 0x55] 4 =
      .error (.refused (.invalidRecord (.truncated 16 15))) ∧
    decode [7, 0, 0, 0, 0, 0, 0, 0, 1, 2, 3, 0x1D, 0x80, 0xBC, 0x55] 2 =
      .error (.refused (.corruption (.checksumMismatch 0xBC801D03 0xB6CC4292))) ∧
    decode [7, 0, 0, 0, 0, 0, 0, 0, 1, 2, 3, 0x1D, 0x80, 0xBC, 0x55] 18446744073709551615 =
      .error (.fault .addOverflow) := by
  -- the right length, one too many, one too few, and one that does not fit a word
  obtain ⟨-, -, h_read⟩ := decode_outcomes [7, 0, 0, 0, 0, 0, 0, 0, 1, 2, 3, 0x1D, 0x80, 0xBC, 0x55] 3
  obtain ⟨-, h_short, -⟩ := decode_outcomes [7, 0, 0, 0, 0, 0, 0, 0, 1, 2, 3, 0x1D, 0x80, 0xBC, 0x55] 4
  obtain ⟨-, h_broken, -⟩ := decode_outcomes [7, 0, 0, 0, 0, 0, 0, 0, 1, 2, 3, 0x1D, 0x80, 0xBC, 0x55] 2
  obtain ⟨h_fault, -, -⟩ := decode_outcomes [7, 0, 0, 0, 0, 0, 0, 0, 1, 2, 3, 0x1D, 0x80, 0xBC, 0x55]
    18446744073709551615
  exact ⟨⟨_, (h_read _).2 ⟨by decide, by decide, by decide +kernel, rfl⟩⟩,
    (h_short _).2 ⟨by decide, .inl ⟨by decide, rfl⟩⟩,
    (h_broken _).2 ⟨by decide, .inr ⟨by decide, by decide +kernel, by decide +kernel⟩⟩,
    (h_fault _).2 ⟨by decide, rfl⟩⟩

/-- **A length that fits in a word can make reading fault**: that of a payload whose record would not fit.
The empty buffer is shorter than any record, and is not refused as truncated then. So it is not true
that reading never faults. -/
theorem decode_faults_unaddressable :
    18446744073709551604 < Word.limit ∧
    decode [] 18446744073709551604 = .error (.fault .addOverflow) ∧
    ¬ ∀ (bytes : Bytes) (n : ℕ), n < Word.limit →
      ∀ broken, decode bytes n ≠ .error (.fault broken) := by
  have h_fault : decode [] 18446744073709551604 = .error (.fault .addOverflow) := by decide
  exact ⟨by decide, h_fault, fun h_all => h_all [] 18446744073709551604 (by decide) _ h_fault⟩

end GroupCommit.Record
