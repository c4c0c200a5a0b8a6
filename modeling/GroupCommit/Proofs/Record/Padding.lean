import GroupCommit.Proofs.Word
import GroupCommit.Record
import Mathlib.Order.Bounds.Basic

/-!
# The length of a record

What a format makes of the length of a payload, as a number that need not fit in a word, and that
encoding succeeds just when no buffer is asked for that cannot be.

* `encode_of_le`: a record that there is room for is encoded if there is a buffer.
* `Format.paddedLength`: the bytes that a record occupies.
* `Format.encode_ok_iff`, `Format.encode_error`: when encoding succeeds, and what stops it.
* `Format.length_of_encode`: the record has just that many bytes.
* `Format.isLeast_paddedLength`: it is the least number of bytes that a record may be padded to.
* `Format.paddedLength_mono`, `Format.paddedLength_padded`: longer payloads, and payloads that need no
  padding.
-/

namespace GroupCommit.Record

@[simp] theorem length_frame (timestamp : UInt64) (payload : Bytes) :
    (frame timestamp payload).length = overhead + payload.length := by
  simp only [frame, List.length_append, LittleEndian.length_encode, overhead]
  omega

/-- Where there is room for a record, all that encoding it takes is a buffer. -/
theorem encode_of_le {timestamp : UInt64} {payload : Bytes} {space : Nat}
    (h_word : overhead + payload.length < Word.limit) (h : overhead + payload.length ≤ space) :
    encode timestamp payload space = (Word.allocate space >>= fun _ =>
      .ok (frame timestamp payload ++ Bytes.zeros (space - (overhead + payload.length)))) := by
  rw [encode, encodedLength, Word.add, if_pos h_word]
  simp only [bind, Except.bind]
  rw [if_neg (Nat.not_lt.2 h)]
  rfl

namespace Format

variable (format : Format)

/-- The bytes that a record with `payload` bytes of payload occupies: all of it, no less than the
least length, in whole chunks. -/
def paddedLength (payload : Nat) : Nat :=
  Word.chunksCovering (max (overhead + payload) format.minWriteSize) format.chunkSize * format.chunkSize

variable {format}

/-- The chunks that cover a length are no shorter. -/
theorem le_chunks {chunk : Nat} (h : 0 < chunk) (n : Nat) : n ≤ Word.chunksCovering n chunk * chunk := by
  -- rounding up loses less than a chunk
  have h_div := Nat.div_add_mod (n + chunk - 1) chunk
  have h_mod := Nat.mod_lt (n + chunk - 1) h
  rw [Word.chunksCovering, Nat.mul_comm]
  omega

/-- A padded record has room for its frame. -/
theorem overhead_le_paddedLength (payload : Nat) : overhead + payload ≤ format.paddedLength payload :=
  calc
    overhead + payload ≤ max (overhead + payload) format.minWriteSize := Nat.le_max_left _ _
    _ ≤ format.paddedLength payload := le_chunks format.chunkSize_pos _

theorem paddedLength_pos (payload : Nat) : 0 < format.paddedLength payload := by
  have h : 12 + payload ≤ format.paddedLength payload := overhead_le_paddedLength payload
  omega

/-- The length is computed exactly while it fits a word. -/
theorem totalLength_eq {payload : Nat} (h : format.paddedLength payload < Word.limit) :
    format.totalLength payload = .ok (format.paddedLength payload) := by
  have h_needed := Nat.lt_of_le_of_lt (overhead_le_paddedLength payload) h
  rw [totalLength, encodedLength, Word.add, if_pos h_needed]
  exact if_pos h

/-- A length that is computed is the padded one. -/
theorem totalLength_ok {payload total : Nat} (h : format.totalLength payload = .ok total) :
    total = format.paddedLength payload := by
  rw [totalLength, encodedLength, Word.add] at h
  split at h
  · change Word.mul _ _ = _ at h
    rw [Word.mul] at h
    split at h
    · exact (Except.ok.inj h).symm
    · cases h
  · cases h

variable {timestamp : UInt64} {payload record : Bytes}

/-- Once the length of a record is computed, all that encoding it takes is a buffer. -/
theorem encode_of_totalLength {total : Nat} (h : format.totalLength payload.length = .ok total) :
    format.encode timestamp payload = (Word.allocate total >>= fun _ =>
      .ok (frame timestamp payload ++ Bytes.zeros (total - (overhead + payload.length)))) := by
  obtain ⟨needed, h_needed, -⟩ := bind_eq_ok.1 h
  obtain ⟨h_word, rfl⟩ := Word.add_eq_ok.1 h_needed
  -- the check that the record fits into its padded length is passed
  have h_fits : overhead + payload.length ≤ total := by
    rw [totalLength_ok h]
    exact overhead_le_paddedLength payload.length
  rw [encode, h]
  exact encode_of_le h_word h_fits

/-- **When a record can be encoded.** -/
theorem encode_ok_iff : (∃ record, format.encode timestamp payload = .ok record) ↔
    format.paddedLength payload.length < Word.allocationLimit := by
  constructor
  · rintro ⟨record, h_ok⟩
    obtain ⟨total, h_total, -⟩ := bind_eq_ok.1 h_ok
    rw [encode_of_totalLength h_total, totalLength_ok h_total, Word.allocate] at h_ok
    split at h_ok
    · assumption
    · cases h_ok
  · intro h_small
    have h_total := totalLength_eq (Nat.lt_trans h_small (by decide : Word.allocationLimit < Word.limit))
    rw [encode_of_totalLength h_total, Word.allocate, if_pos h_small]
    exact ⟨_, rfl⟩

/-- **What stops the encoder.** A record that is not encoded is larger than any buffer, and it is the
arithmetic on its length or the buffer itself that fails, never that the record does not fit into its
padded length. -/
theorem encode_error {broken : Fault} (h : format.encode timestamp payload = .error broken) :
    Word.allocationLimit ≤ format.paddedLength payload.length ∧
      (broken = .addOverflow ∨ broken = .mulOverflow ∨ broken = .capacityOverflow) := by
  constructor
  · refine Nat.le_of_not_lt fun h_small => ?_
    obtain ⟨record, h_ok⟩ : ∃ record, format.encode timestamp payload = .ok record :=
      encode_ok_iff.2 h_small
    rw [h] at h_ok
    cases h_ok
  · -- go through the encoder: the sum, then the product, then the buffer
    cases h_needed : encodedLength payload.length with
    | error cause =>
      rw [encode, totalLength, h_needed] at h
      cases h
      exact .inl (Word.add_eq_error.1 h_needed).1
    | ok needed =>
      cases h_total : format.totalLength payload.length with
      | error cause =>
        rw [encode, h_total] at h
        cases h
        rw [totalLength, h_needed] at h_total
        exact .inr (.inl (Word.mul_eq_error h_total))
      | ok total =>
        rw [encode_of_totalLength h_total] at h
        cases h_space : Word.allocate total with
        | error cause =>
          rw [h_space] at h
          cases h
          exact .inr (.inr (Word.allocate_eq_error h_space))
        | ok _ =>
          rw [h_space] at h
          cases h

/-- **The length of an encoded record.** -/
theorem length_of_encode (h : format.encode timestamp payload = .ok record) :
    record.length = format.paddedLength payload.length := by
  obtain ⟨total, h_total, -⟩ := bind_eq_ok.1 h
  have h_needed : overhead + payload.length ≤ total := by
    rw [totalLength_ok h_total]
    exact overhead_le_paddedLength payload.length
  rw [encode_of_totalLength h_total] at h
  obtain ⟨_, -, h⟩ := bind_eq_ok.1 h
  cases h
  -- the frame is the overhead and the payload, and zeros make up the rest
  rw [← totalLength_ok h_total, List.length_append, length_frame, Bytes.zeros, List.length_replicate]
  omega

theorem length_pos_of_encode (h : format.encode timestamp payload = .ok record) : 0 < record.length := by
  rw [length_of_encode h]
  exact paddedLength_pos _

/-- A record that was encoded has the length that was computed for it. -/
theorem totalLength_of_encode (h : format.encode timestamp payload = .ok record) :
    format.totalLength payload.length = .ok record.length := by
  obtain ⟨total, h_total, -⟩ := bind_eq_ok.1 h
  rw [length_of_encode h, ← totalLength_ok h_total]
  exact h_total

/-! ### The least length -/

/-- A length that is computed fits a word. -/
theorem totalLength_lt {payload total : Nat} (h : format.totalLength payload = .ok total) :
    total < Word.limit := by
  obtain ⟨needed, -, h⟩ := bind_eq_ok.1 h
  obtain ⟨h_lt, rfl⟩ := Word.mul_eq_ok.1 h
  exact h_lt

/-- **A record is padded as little as possible**: to whole chunks, and to the least length of all
records. -/
theorem isLeast_paddedLength (payload : Nat) :
    IsLeast {n | format.chunkSize ∣ n ∧ max (overhead + payload) format.minWriteSize ≤ n}
      (format.paddedLength payload) := by
  have h_pos := format.chunkSize_pos
  constructor
  · exact ⟨Nat.dvd_mul_left _ _, le_chunks h_pos _⟩
  · rintro _ ⟨⟨k, rfl⟩, h_le⟩
    -- as many bytes have no fewer chunks
    rw [paddedLength, Nat.mul_comm format.chunkSize k]
    refine Nat.mul_le_mul_right _ (Nat.le_of_lt_succ ?_)
    rw [Word.chunksCovering, Nat.div_lt_iff_lt_mul h_pos, Nat.succ_mul, Nat.mul_comm k]
    omega

example : totalLength ⟨512, 256, by decide⟩ 600 = .ok 768 := rfl

/-- A longer payload has no shorter record. -/
theorem paddedLength_mono {payload payload' : Nat} (h : payload ≤ payload') :
    format.paddedLength payload ≤ format.paddedLength payload' := by
  -- what the longer record is padded to is long enough for the other
  obtain ⟨⟨h_dvd, h_le⟩, -⟩ := format.isLeast_paddedLength payload'
  refine (format.isLeast_paddedLength payload).2 ⟨h_dvd, le_trans ?_ h_le⟩
  exact max_le ((Nat.add_le_add_left h _).trans (le_max_left _ _)) (le_max_right _ _)

/-- **Padding is done once.** A payload that comes up to a padded length with its overhead needs no
padding. -/
theorem paddedLength_padded (payload : Nat) :
    format.paddedLength (format.paddedLength payload - overhead) = format.paddedLength payload := by
  have h_overhead : overhead + (format.paddedLength payload - overhead) = format.paddedLength payload :=
    Nat.add_sub_cancel' ((Nat.le_add_right _ _).trans (overhead_le_paddedLength payload))
  obtain ⟨⟨h_dvd, h_le⟩, -⟩ := format.isLeast_paddedLength payload
  refine le_antisymm ?_ ?_
  · refine (format.isLeast_paddedLength _).2 ⟨h_dvd, max_le h_overhead.le ?_⟩
    exact (le_max_right _ _).trans h_le
  · calc format.paddedLength payload
        = overhead + (format.paddedLength payload - overhead) := h_overhead.symm
      _ ≤ format.paddedLength (format.paddedLength payload - overhead) := overhead_le_paddedLength _

/-- The length of a record is computed just when it is a word. -/
theorem totalLength_error {payload : Nat} (h : Word.limit ≤ format.paddedLength payload) :
    ∃ broken, format.totalLength payload = .error broken := by
  cases h_total : format.totalLength payload with
  | error broken => exact ⟨broken, rfl⟩
  | ok total =>
    have h_lt := totalLength_lt h_total
    rw [totalLength_ok h_total] at h_lt
    exact absurd h (Nat.not_le.2 h_lt)

end Format

end GroupCommit.Record
