import GroupCommit.Proofs.Checksum.Period
import GroupCommit.Proofs.Word
import GroupCommit.Record
import Mathlib.Order.Interval.Finset.Nat

/-!
# What a reader takes for a record

A record's payload and the checksum behind it are its sealed part; the timestamp in front and the
padding behind are not protected. The sealed part of a record leaves one and the same register
whatever the payload is (`Record.Intact`), and a reader accepts just what leaves this register
(`Record.decode_of_intact`, `Record.decode_of_not_intact`).

* `Record.decode_tampered`: a reader notices every change of the sealed part that stays within four
  bytes in a row, and changes of the other bytes do not touch the payload.
* `Record.decode_blank`: space that was never written is taken for a record only if the reader looks
  for a payload whose length is a multiple of the period of the checksum.
-/

namespace GroupCommit.Record

open Crc32

/-! ### The sealed part -/

/-- The offsets of the payload and the checksum in a record with `n` bytes of payload. -/
def sealedOffsets (n : ℕ) : Finset ℕ := Finset.Ico timestampSize (overhead + n)

/-- The payload and the checksum of a record with `n` bytes of payload. -/
def sealedPart (bytes : Bytes) (n : ℕ) : Bytes := (bytes.drop timestampSize).take (n + checksumSize)

/-- The sealed part leaves the register that a byte string leaves together with its checksum. -/
def Intact (bytes : Bytes) (n : ℕ) : Prop :=
  (sealedPart bytes n).foldl feed 0xFFFFFFFF = shift^[32] 0xFFFFFFFF

/-- The payload that a reader finds. -/
def bodyOf (bytes : Bytes) (n : ℕ) : Bytes := (bytes.drop timestampSize).take n

/-- The checksum that a reader finds behind the payload. -/
def storedOf (bytes : Bytes) (n : ℕ) : UInt32 :=
  UInt32.ofNat (LittleEndian.decode ((bytes.drop (timestampSize + n)).take checksumSize))

variable {bytes bytes' : Bytes} {n : ℕ}

/-- The sealed part is the payload and its checksum. -/
theorem length_sealedPart (h : overhead + n ≤ bytes.length) :
    (sealedPart bytes n).length = n + checksumSize := by
  simp only [overhead, timestampSize, checksumSize] at h
  simp only [sealedPart, List.length_take, List.length_drop, timestampSize, checksumSize]
  omega

/-- A record is intact iff the checksum it stores is that of its body. -/
theorem intact_iff (h : overhead + n ≤ bytes.length) :
    Intact bytes n ↔ storedOf bytes n = GroupCommit.checksum (bodyOf bytes n) := by
  have h_stored : ((bytes.drop (timestampSize + n)).take checksumSize).length = 4 := by
    simp only [overhead, timestampSize, checksumSize] at h
    simp only [List.length_take, List.length_drop, timestampSize, checksumSize]
    omega
  rw [Intact, sealedPart, List.take_add, List.drop_drop]
  exact foldl_feed_append_eq_iff h_stored

/-- **What is accepted.** An intact sealed part is read as a record. -/
theorem decode_of_intact (h_word : overhead + n < Word.limit) (h : overhead + n ≤ bytes.length)
    (h_intact : Intact bytes n) :
    decode bytes n = .ok ⟨UInt64.ofNat (LittleEndian.decode (bytes.take timestampSize)),
      bodyOf bytes n, GroupCommit.checksum (bodyOf bytes n)⟩ := by
  have h_same := (intact_iff h).1 h_intact
  rw [← h_same]
  unfold storedOf bodyOf at h_same
  rw [decode, encodedLength, Word.add, if_pos h_word]
  simp only [Fault.guard, bind, Except.bind]
  rw [if_neg (Nat.not_lt.2 h), if_neg (not_not.2 h_same)]
  rfl

/-- **What is refused.** Everything else is corruption. -/
theorem decode_of_not_intact (h_word : overhead + n < Word.limit) (h : overhead + n ≤ bytes.length)
    (h_broken : ¬ Intact bytes n) :
    decode bytes n = .error (.refused (.corruption
      (.checksumMismatch (storedOf bytes n) (GroupCommit.checksum (bodyOf bytes n))))) := by
  have h_differ := (intact_iff h).not.1 h_broken
  unfold storedOf bodyOf at h_differ
  rw [decode, encodedLength, Word.add, if_pos h_word]
  simp only [Fault.guard, bind, Except.bind]
  rw [if_neg (Nat.not_lt.2 h), if_pos h_differ]
  rfl

/-! ### Tampering -/

/-- **A short burst shows in the register.** Byte strings that differ within four bytes in a row leave
different registers. -/
theorem eq_of_foldl_feed_eq {a b : Bytes} {start : ℕ} {register : UInt32}
    (h_length : a.length = b.length) (h_window : start + 4 ≤ a.length)
    (h_before : a.take start = b.take start) (h_behind : a.drop (start + 4) = b.drop (start + 4))
    (h_register : a.foldl feed register = b.foldl feed register) : a = b := by
  -- each string is what stands before the window, the window, and what stands behind it
  have h_parts : ∀ c : Bytes,
      c = c.take start ++ ((c.drop start).take 4 ++ c.drop (start + 4)) := by
    intro c
    rw [← List.drop_drop, List.take_append_drop, List.take_append_drop]
  have h_four : ∀ c : Bytes, start + 4 ≤ c.length → ((c.drop start).take 4).length = 4 := by
    intro c h_c
    rw [List.length_take, List.length_drop]
    omega
  have h_a := h_four a h_window
  have h_b := h_four b (h_length ▸ h_window)
  have h_middle : (a.drop start).take 4 = (b.drop start).take 4 := by
    rw [h_parts a, h_parts b, h_before, h_behind] at h_register
    simp only [List.foldl_append] at h_register
    -- the bytes behind the window are taken back first, then the shifts of the window itself
    have h_after := foldl_feed_injective _ h_register
    rw [foldl_feed h_a.le, foldl_feed h_b.le, h_a, h_b] at h_after
    exact decode_inj h_a h_b ((UInt32.xor_right_inj _).1 (shift_injective.iterate _ h_after))
  rw [h_parts a, h_parts b, h_before, h_middle, h_behind]

/-- Bytes that agree below an offset have the same beginning. -/
theorem take_eq_of_getElem? {a b : Bytes} {k : ℕ} (h : ∀ i < k, a[i]? = b[i]?) :
    a.take k = b.take k := by
  apply List.ext_getElem?
  intro i
  rw [List.getElem?_take, List.getElem?_take]
  split
  · exact h i ‹_›
  · rfl

/-- Bytes that agree from an offset on have the same end. -/
theorem drop_eq_of_getElem? {a b : Bytes} {k : ℕ} (h : ∀ i, k ≤ i → a[i]? = b[i]?) :
    a.drop k = b.drop k := by
  apply List.ext_getElem?
  intro i
  rw [List.getElem?_drop, List.getElem?_drop]
  exact h (k + i) (Nat.le_add_right k i)

/-- The sealed part begins behind the timestamp. -/
theorem getElem?_sealedPart (bytes : Bytes) {i : ℕ} (h : i < n + checksumSize) :
    (sealedPart bytes n)[i]? = bytes[timestampSize + i]? := by
  rw [sealedPart, List.getElem?_take_of_lt h, List.getElem?_drop]

/-- Byte strings that agree at the sealed offsets have the same sealed part. -/
theorem sealedPart_congr (h : ∀ i ∈ sealedOffsets n, bytes[i]? = bytes'[i]?) :
    sealedPart bytes n = sealedPart bytes' n := by
  apply take_eq_of_getElem?
  intro i h_i
  rw [List.getElem?_drop, List.getElem?_drop]
  apply h
  rw [sealedOffsets, Finset.mem_Ico, overhead]
  omega

/-- Of two intact byte strings that differ within four bytes in a row at most, the sealed part is the
same. -/
theorem sealedPart_eq_of_intact {start : ℕ} (h : overhead + n ≤ bytes.length)
    (h' : overhead + n ≤ bytes'.length)
    (h_burst : ∀ i ∈ sealedOffsets n, bytes[i]? ≠ bytes'[i]? → start ≤ i ∧ i < start + 4)
    (h_intact : Intact bytes n) (h_intact' : Intact bytes' n) :
    sealedPart bytes n = sealedPart bytes' n := by
  -- the window, moved into the sealed part where it reaches over one of its ends
  set window := min (start - timestampSize) n with h_def
  have h_length := length_sealedPart h
  have h_length' := length_sealedPart h'
  have h_outside : ∀ i, i < window ∨ window + 4 ≤ i →
      (sealedPart bytes n)[i]? = (sealedPart bytes' n)[i]? := by
    intro i h_i
    by_cases h_inside : i < n + checksumSize
    · rw [getElem?_sealedPart bytes h_inside, getElem?_sealedPart bytes' h_inside]
      have h_mem : timestampSize + i ∈ sealedOffsets n := by
        rw [sealedOffsets, Finset.mem_Ico, overhead]
        omega
      by_contra h_differ
      have h_within := h_burst _ h_mem h_differ
      have h_four : checksumSize = 4 := rfl
      omega
    · rw [List.getElem?_eq_none (by omega), List.getElem?_eq_none (by omega)]
  apply eq_of_foldl_feed_eq (h_length.trans h_length'.symm)
    (by rw [h_length]; exact Nat.add_le_add_right (Nat.min_le_right _ n) 4)
    (take_eq_of_getElem? fun i h_i => h_outside i (.inl h_i))
    (drop_eq_of_getElem? fun i h_i => h_outside i (.inr h_i))
  exact h_intact.trans h_intact'.symm

variable {timestamp : UInt64} {payload record copy : Bytes} {space : ℕ}

/-- What an encoded record starts with. -/
theorem of_encode (h : encode timestamp payload space = .ok record) :
    overhead + payload.length < Word.limit ∧ ∃ padding, record = frame timestamp payload ++ padding := by
  obtain ⟨needed, h_needed, h⟩ := bind_eq_ok.1 h
  obtain ⟨h_word, rfl⟩ := Word.add_eq_ok.1 h_needed
  split at h
  · cases h
  · obtain ⟨_, -, h⟩ := bind_eq_ok.1 h
    cases h
    exact ⟨h_word, _, rfl⟩

/-- The sealed part of a record that was encoded. -/
theorem sealedPart_frame (timestamp : UInt64) (payload padding : Bytes) :
    sealedPart (frame timestamp payload ++ padding) payload.length =
      payload ++ LittleEndian.encode checksumSize (GroupCommit.checksum payload).toNat := by
  have h_length : (payload ++
      LittleEndian.encode checksumSize (GroupCommit.checksum payload).toNat).length =
        payload.length + checksumSize := by
    rw [List.length_append, LittleEndian.length_encode]
  rw [sealedPart, frame, List.append_assoc, List.append_assoc,
    List.drop_left' (LittleEndian.length_encode _ _), ← List.append_assoc, List.take_left' h_length]

/-- A record that was encoded is intact. -/
theorem intact_frame (timestamp : UInt64) (payload padding : Bytes) :
    Intact (frame timestamp payload ++ padding) payload.length := by
  rw [Intact, sealedPart_frame]
  apply (foldl_feed_append_eq_iff (LittleEndian.length_encode _ _)).2
  rw [LittleEndian.decode_encode]
  have h_fits : (GroupCommit.checksum payload).toNat < LittleEndian.bound 4 :=
    (GroupCommit.checksum payload).toNat_lt
  rw [Nat.mod_eq_of_lt h_fits, UInt32.ofNat_toNat]

/-- The body is the beginning of the sealed part. -/
theorem bodyOf_eq_take (bytes : Bytes) (n : ℕ) : bodyOf bytes n = (sealedPart bytes n).take n := by
  rw [bodyOf, sealedPart, List.take_take, Nat.min_eq_left (Nat.le_add_right n checksumSize)]

/-- **Tampering.** A copy of a record in which the sealed part was changed, but only within four bytes
in a row, is refused as corrupt. A copy in which it was not changed gives the payload back, whatever
was done to the timestamp and the padding. -/
theorem decode_tampered (h_encode : encode timestamp payload space = .ok record)
    (h_length : overhead + payload.length ≤ copy.length) :
    (∀ start,
      (∀ i ∈ sealedOffsets payload.length, copy[i]? ≠ record[i]? → start ≤ i ∧ i < start + 4) →
      (∃ i ∈ sealedOffsets payload.length, copy[i]? ≠ record[i]?) →
      decode copy payload.length = .error (.refused (.corruption
        (.checksumMismatch (storedOf copy payload.length)
          (GroupCommit.checksum (bodyOf copy payload.length)))))) ∧
    ((∀ i ∈ sealedOffsets payload.length, copy[i]? = record[i]?) →
      decode copy payload.length =
        .ok ⟨UInt64.ofNat (LittleEndian.decode (copy.take timestampSize)), payload,
          GroupCommit.checksum payload⟩) := by
  -- the record is its frame with padding behind it
  obtain ⟨h_word, padding, rfl⟩ := of_encode h_encode
  have h_intact := intact_frame timestamp payload padding
  have h_record : overhead + payload.length ≤ (frame timestamp payload ++ padding).length := by
    simp only [frame, List.length_append, LittleEndian.length_encode, overhead]
    omega
  constructor
  · rintro start h_burst ⟨i, h_i, h_differ⟩
    apply decode_of_not_intact h_word h_length
    intro h_copy
    -- an intact copy would have the sealed part of the record, and so the same byte at `i`
    have h_same := sealedPart_eq_of_intact h_length h_record h_burst h_copy h_intact
    rw [sealedOffsets, Finset.mem_Ico, overhead] at h_i
    have h_offset : timestampSize + (i - timestampSize) = i := by omega
    apply h_differ
    rw [← h_offset, ← getElem?_sealedPart copy (by omega : _ < payload.length + checksumSize),
      ← getElem?_sealedPart (frame timestamp payload ++ padding)
        (by omega : _ < payload.length + checksumSize), h_same]
  · intro h_same
    -- only the timestamp and the padding may differ, and neither is checked
    have h_part := sealedPart_congr h_same
    have h_copy : Intact copy payload.length := by
      rw [Intact, h_part]
      exact h_intact
    have h_body : bodyOf copy payload.length = payload := by
      rw [bodyOf_eq_take, h_part, sealedPart_frame, List.take_left' rfl]
    rw [decode_of_intact h_word h_length h_copy, h_body]

/-- Four bytes changed on both sides of the start of the checksum, and a copy in which just the
timestamp and the padding were changed. -/
theorem decode_tampered_straddling :
    (∃ cause, decode [8, 0, 0, 0, 0, 0, 0, 0, 1, 9, 9, 9, 9, 0xBC, 0x55, 0xFF] 3 =
        .error (.refused (.corruption cause))) ∧
      decode [8, 0, 0, 0, 0, 0, 0, 0, 1, 2, 3, 0x1D, 0x80, 0xBC, 0x55, 0xFF] 3 =
        .ok ⟨8, [1, 2, 3], GroupCommit.checksum [1, 2, 3]⟩ := by
  have h_encode : encode 7 [1, 2, 3] 16 =
      .ok [7, 0, 0, 0, 0, 0, 0, 0, 1, 2, 3, 0x1D, 0x80, 0xBC, 0x55, 0] := by decide +kernel
  constructor
  · exact ⟨_, (decode_tampered h_encode (by decide)).1 9 (by decide) ⟨9, by decide⟩⟩
  · exact (decode_tampered h_encode (by decide)).2 (by decide)

/-! ### Blank space -/

theorem bodyOf_zeros {count : ℕ} (h : overhead + n ≤ count) :
    bodyOf (Bytes.zeros count) n = Bytes.zeros n := by
  simp only [overhead] at h
  rw [bodyOf, Bytes.zeros, List.drop_replicate, List.take_replicate, Nat.min_eq_left (by omega)]
  rfl

theorem decode_zeros (n : ℕ) : LittleEndian.decode (Bytes.zeros n) = 0 := by
  induction n with
  | zero => rfl
  | succ n ih =>
    rw [Bytes.zeros, List.replicate_succ, LittleEndian.decode]
    change 0 + 256 * LittleEndian.decode (Bytes.zeros n) = 0
    rw [ih]

theorem storedOf_zeros (count n : ℕ) : storedOf (Bytes.zeros count) n = 0 := by
  rw [storedOf, Bytes.zeros, List.drop_replicate, List.take_replicate]
  exact congrArg UInt32.ofNat (decode_zeros _)

/-- A blank region passes for a record iff the length is a multiple of the period of the register. -/
theorem intact_zeros_iff {count : ℕ} (h : overhead + n ≤ count) :
    Intact (Bytes.zeros count) n ↔ 2 ^ 32 - 1 ∣ n := by
  rw [intact_iff (by rwa [Bytes.zeros, List.length_replicate]), storedOf_zeros, bodyOf_zeros h, eq_comm]
  exact checksum_zeros_eq_zero_iff n

/-- **Blank space is not a record.** What a reader of a payload of length `n` makes of zeros: corruption
just when `n` is not a multiple of the period of the checksum, and otherwise the record of zeros. -/
theorem decode_blank (h_word : overhead + n < Word.limit) (h_length : overhead + n ≤ bytes.length)
    (h_blank : ∀ byte ∈ bytes, byte = 0) :
    ((∃ cause, decode bytes n = .error (.refused (.corruption cause))) ↔ ¬ 2 ^ 32 - 1 ∣ n) ∧
    (2 ^ 32 - 1 ∣ n → decode bytes n = .ok ⟨0, Bytes.zeros n, 0⟩) ∧
    (1 ≤ n → n < 2 ^ 32 - 1 → ∃ cause, decode bytes n = .error (.refused (.corruption cause))) := by
  -- the stored checksum of blank space is zero, so all depends on the checksum of `n` zeros
  obtain ⟨count, rfl⟩ : ∃ count, bytes = Bytes.zeros count :=
    ⟨bytes.length, List.eq_replicate_iff.2 ⟨rfl, h_blank⟩⟩
  have h_count : overhead + n ≤ count := by rwa [Bytes.zeros, List.length_replicate] at h_length
  have h_refused : ¬ 2 ^ 32 - 1 ∣ n →
      ∃ cause, decode (Bytes.zeros count) n = .error (.refused (.corruption cause)) := by
    intro h_other
    exact ⟨_, decode_of_not_intact h_word h_length ((intact_zeros_iff h_count).not.2 h_other)⟩
  have h_read : 2 ^ 32 - 1 ∣ n → decode (Bytes.zeros count) n = .ok ⟨0, Bytes.zeros n, 0⟩ := by
    intro h_multiple
    have h_timestamp : (Bytes.zeros count).take timestampSize = Bytes.zeros (min timestampSize count) :=
      List.take_replicate
    rw [decode_of_intact h_word h_length ((intact_zeros_iff h_count).2 h_multiple),
      bodyOf_zeros h_count, (checksum_zeros_eq_zero_iff n).2 h_multiple, h_timestamp, decode_zeros]
    rfl
  refine ⟨⟨?_, h_refused⟩, h_read, fun h_pos h_short => h_refused (Nat.not_dvd_of_pos_of_lt h_pos h_short)⟩
  rintro ⟨cause, h_error⟩ h_multiple
  rw [h_read h_multiple] at h_error
  cases h_error

/-- The empty payload is found in blank space, and a payload of one byte is not. -/
theorem decode_blank_short :
    decode (Bytes.zeros 16) 0 = .ok ⟨0, [], 0⟩ ∧
      ∃ cause, decode (Bytes.zeros 16) 1 = .error (.refused (.corruption cause)) :=
  ⟨(decode_blank (by decide) (by decide) fun _ => List.eq_of_mem_replicate).2.1 (by decide),
    (decode_blank (by decide) (by decide) fun _ => List.eq_of_mem_replicate).2.2 (by decide) (by decide)⟩

end GroupCommit.Record
