import GroupCommit.Proofs.Record.Integrity
import GroupCommit.Proofs.Record.Padding

/-!
# Records and their bytes

Writing and reading are inverse to one another. A record is its frame and padding; whatever begins with
a frame is read as the record of this frame (`Record.decode_frame_append`), and whatever is read as a
record begins with its frame (`Record.frame_of_decode`). The rest is a matter of lengths: a reader needs
the whole frame, and a writer needs a buffer.

* `Record.codec_inverse`: both ways round, for every length, cut and suffix.
* `Record.oversized_not_encoded`: a format can ask for more space than any buffer has.
-/

namespace GroupCommit.Record

variable {timestamp : UInt64} {payload bytes : Bytes} {n space : ℕ} {r : Record}

/-! ### From a record to its bytes and back -/

/-- What `encode` makes when there is room: the frame, and zeros behind it. -/
theorem encode_of_lt (h : overhead + payload.length ≤ space) (h_room : space < Word.allocationLimit) :
    encode timestamp payload space =
      .ok (frame timestamp payload ++ Bytes.zeros (space - (overhead + payload.length))) := by
  have h_word : overhead + payload.length < Word.limit :=
    (h.trans_lt h_room).trans (by decide)
  rw [encode_of_le h_word h, Word.allocate_eq_ok.2 h_room]
  rfl

/-- Space beyond the largest buffer is not to be had. -/
theorem encode_of_limit_le (h : overhead + payload.length ≤ space) (h_word : space < Word.limit)
    (h_large : Word.allocationLimit ≤ space) :
    encode timestamp payload space = .error .capacityOverflow := by
  rw [encode_of_le (h.trans_lt h_word) h, Word.allocate, if_neg (not_lt.2 h_large)]
  rfl

/-- The body of a frame is its payload. -/
theorem bodyOf_frame_append (timestamp : UInt64) (payload rest : Bytes) :
    bodyOf (frame timestamp payload ++ rest) payload.length = payload := by
  rw [bodyOf_eq_take, sealedPart_frame, List.take_left' rfl]

/-- **What begins with a frame is read as its record.** -/
theorem decode_frame_append (h_word : overhead + payload.length < Word.limit) (rest : Bytes) :
    decode (frame timestamp payload ++ rest) payload.length =
      .ok ⟨timestamp, payload, GroupCommit.checksum payload⟩ := by
  have h_room : overhead + payload.length ≤ (frame timestamp payload ++ rest).length := by
    rw [List.length_append, length_frame]
    exact Nat.le_add_right _ _
  have h_front : (frame timestamp payload ++ rest).take timestampSize =
      LittleEndian.encode timestampSize timestamp.toNat := by
    rw [frame, List.append_assoc, List.append_assoc, List.take_left' (LittleEndian.length_encode _ _)]
  rw [decode_of_intact h_word h_room (intact_frame timestamp payload rest), bodyOf_frame_append, h_front,
    LittleEndian.decode_encode]
  exact congrArg (fun t => Except.ok (Record.mk t payload _)) (LittleEndian.uInt64_mod_bound timestamp)

/-- A buffer too short for the length is refused as truncated. -/
theorem decode_short (h_word : overhead + n < Word.limit) (h : bytes.length < overhead + n) :
    decode bytes n =
      .error (.refused (.invalidRecord (.truncated (overhead + n) bytes.length))) := by
  rw [decode, encodedLength, Word.add, if_pos h_word]
  simp only [Fault.guard, bind, Except.bind]
  rw [if_pos h]
  rfl

/-- **When bytes are read as a record, and as which one.** -/
theorem decode_eq_ok : decode bytes n = .ok r ↔
    overhead + n < Word.limit ∧ overhead + n ≤ bytes.length ∧ Intact bytes n ∧
      r = ⟨UInt64.ofNat (LittleEndian.decode (bytes.take timestampSize)), bodyOf bytes n,
        GroupCommit.checksum (bodyOf bytes n)⟩ := by
  constructor
  · intro h
    -- the length must fit a word, or nothing is read at all
    obtain ⟨needed, h_needed, -⟩ := bind_eq_ok.1 h
    obtain ⟨h_word, -⟩ := Word.add_eq_ok.1 (Fault.guard_eq_ok.1 h_needed)
    have h_room : overhead + n ≤ bytes.length := by
      by_contra h_few
      cases h.symm.trans (decode_short h_word (not_le.1 h_few))
    -- any record that is not intact is refused
    have h_intact : Intact bytes n := by
      by_contra h_broken
      cases h.symm.trans (decode_of_not_intact h_word h_room h_broken)
    exact ⟨h_word, h_room, h_intact,
      Except.ok.inj (h.symm.trans (decode_of_intact h_word h_room h_intact))⟩
  · rintro ⟨h_word, h_room, h_intact, rfl⟩
    exact decode_of_intact h_word h_room h_intact

/-- **What is read as a record begins with its frame.** -/
theorem frame_of_decode (h : decode bytes n = .ok r) :
    frame r.timestamp r.payload = bytes.take (overhead + n) := by
  obtain ⟨-, h_room, h_intact, rfl⟩ := decode_eq_ok.1 h
  have h_stored := (intact_iff h_room).1 h_intact
  simp only [overhead, timestampSize, checksumSize] at h_room
  have h_front : (bytes.take timestampSize).length = 8 := by
    rw [List.length_take, timestampSize]
    omega
  have h_tail : ((bytes.drop (timestampSize + n)).take checksumSize).length = 4 := by
    rw [List.length_take, List.length_drop, timestampSize, checksumSize]
    omega
  have h_sum : overhead + n = timestampSize + (n + checksumSize) := by
    simp only [overhead]
    omega
  -- each part of the frame is what stands in its place
  calc
    frame (UInt64.ofNat (LittleEndian.decode (bytes.take timestampSize))) (bodyOf bytes n)
      = bytes.take timestampSize ++ bodyOf bytes n ++
          (bytes.drop (timestampSize + n)).take checksumSize := by
        rw [frame, ← h_stored, storedOf]
        exact congrArg₂ (· ++ bodyOf bytes n ++ ·) (LittleEndian.encode_uInt64 h_front)
          (LittleEndian.encode_uInt32 h_tail)
    _ = bytes.take (overhead + n) := by
        rw [h_sum, List.take_add, List.take_add, List.drop_drop, List.append_assoc]
        rfl

/-- A record that was cut off behind its frame is read from there, whatever follows. -/
theorem decode_take_append (h_word : overhead + payload.length < Word.limit) (padding rest : Bytes)
    {cut : ℕ} (h : overhead + payload.length ≤ cut) :
    decode ((frame timestamp payload ++ padding).take cut ++ rest) payload.length =
      .ok ⟨timestamp, payload, GroupCommit.checksum payload⟩ := by
  have h_kept : (frame timestamp payload).take cut = frame timestamp payload :=
    List.take_of_length_le (by rwa [length_frame])
  rw [List.take_append, h_kept, List.append_assoc]
  exact decode_frame_append h_word _

/-- **What a format makes of a record.** As many bytes as its total length, if there is a buffer of this
length. -/
theorem Format.encode_of_totalLength_lt {format : Format} {total : ℕ}
    (h : format.totalLength payload.length = .ok total) (h_room : total < Word.allocationLimit) :
    ∃ record, format.encode timestamp payload = .ok record ∧ record.length = total := by
  obtain ⟨record, h_record⟩ : ∃ record, format.encode timestamp payload = .ok record :=
    encode_ok_iff.2 (totalLength_ok h ▸ h_room)
  exact ⟨record, h_record, (length_of_encode h_record).trans (totalLength_ok h).symm⟩

/-- What is read as a record is encoded to the bytes it was read from. -/
theorem encode_of_decode (h : decode bytes n = .ok r) :
    r.payload.length = n ∧ r.checksum = GroupCommit.checksum r.payload ∧
      (overhead + n < Word.allocationLimit →
        encode r.timestamp r.payload (overhead + n) = .ok (bytes.take (overhead + n))) := by
  have h_frame := frame_of_decode h
  obtain ⟨-, h_room, -, rfl⟩ := decode_eq_ok.1 h
  have h_length : (bodyOf bytes n).length = n := by
    simp only [overhead, timestampSize] at h_room
    rw [bodyOf, List.length_take, List.length_drop, timestampSize]
    omega
  refine ⟨h_length, rfl, fun h_buffer => ?_⟩
  -- there is no padding in as much space as the frame takes
  rw [encode_of_lt (by rw [h_length]) h_buffer, h_length, Nat.sub_self, ← h_frame]
  exact congrArg Except.ok (List.append_nil _)

/-! ### Both ways round -/

/-- **Writing and reading are inverse.** A record that there is room for in a buffer is encoded to just
that many bytes; cut off anywhere behind its frame, with anything behind the cut, it is read back, and
cut off within its frame it is refused. A format encodes to just its total length, if there is a buffer
of that length. And of a byte string that is read as a record, the record encodes to its beginning. -/
theorem codec_inverse (timestamp : UInt64) (payload : Bytes) :
    (∀ space, overhead + payload.length ≤ space → space < Word.allocationLimit →
      ∃ record, encode timestamp payload space = .ok record ∧ record.length = space ∧
        (∀ cut, overhead + payload.length ≤ cut → ∀ rest,
          decode (record.take cut ++ rest) payload.length =
            .ok ⟨timestamp, payload, GroupCommit.checksum payload⟩) ∧
        (∀ cut < overhead + payload.length, decode (record.take cut) payload.length =
          .error (.refused (.invalidRecord (.truncated (overhead + payload.length) cut))))) ∧
    (∀ space, overhead + payload.length ≤ space → space < Word.limit → Word.allocationLimit ≤ space →
      encode timestamp payload space = .error .capacityOverflow) ∧
    (∀ format : Format,
      (∀ total, format.totalLength payload.length = .ok total → total < Word.allocationLimit →
        ∃ record, format.encode timestamp payload = .ok record ∧ record.length = total) ∧
      (∀ total, format.totalLength payload.length = .ok total → Word.allocationLimit ≤ total →
        format.encode timestamp payload = .error .capacityOverflow) ∧
      (∀ broken, format.totalLength payload.length = .error broken →
        format.encode timestamp payload = .error broken)) ∧
    (∀ bytes n r, decode bytes n = .ok r →
      r.payload.length = n ∧ r.checksum = GroupCommit.checksum r.payload ∧
        (overhead + n < Word.allocationLimit →
          encode r.timestamp r.payload (overhead + n) = .ok (bytes.take (overhead + n)))) := by
  refine ⟨?_, fun _ => encode_of_limit_le, fun format => ⟨?_, ?_, ?_⟩, fun _ _ _ => encode_of_decode⟩
  · intro space h h_room
    have h_word : overhead + payload.length < Word.limit :=
      (h.trans_lt h_room).trans (by decide)
    -- a record is its frame with zeros behind it
    have h_length : (frame timestamp payload ++
        Bytes.zeros (space - (overhead + payload.length))).length = space := by
      rw [List.length_append, length_frame, Bytes.zeros, List.length_replicate]
      omega
    refine ⟨_, encode_of_lt h h_room, h_length, ?_, ?_⟩
    · -- the frame is whole, and what lies behind it is not read
      intro cut h_cut rest
      exact decode_take_append h_word _ rest h_cut
    · intro cut h_cut
      have h_short : ((frame timestamp payload ++
          Bytes.zeros (space - (overhead + payload.length))).take cut).length = cut := by
        rw [List.length_take, h_length]
        omega
      rw [decode_short h_word (h_short.trans_lt h_cut), h_short]
  · intro total h_total h_room
    exact Format.encode_of_totalLength_lt h_total h_room
  · intro total h_total h_large
    -- the buffer is what cannot be had
    rw [Format.encode_of_totalLength h_total, Word.allocate, if_neg (not_lt.2 h_large)]
    rfl
  · intro broken h_broken
    rw [Format.encode, h_broken]
    rfl

/-- A record of fifteen bytes in a buffer of sixteen: cut off behind its frame it is read, and within its
frame it is refused; the standard format makes it 512 bytes long. -/
theorem codec_inverse_padded :
    (∃ record, encode 7 [1, 2, 3] 16 = .ok record ∧
      decode (record.take 15 ++ [9, 9]) 3 = .ok ⟨7, [1, 2, 3], GroupCommit.checksum [1, 2, 3]⟩ ∧
      decode (record.take 14) 3 = .error (.refused (.invalidRecord (.truncated 15 14)))) ∧
    (∃ record, Format.standard.encode 7 [1, 2, 3] = .ok record ∧ record.length = 512) ∧
    encode 7 [1, 2, 3] 15 = .ok [7, 0, 0, 0, 0, 0, 0, 0, 1, 2, 3, 0x1D, 0x80, 0xBC, 0x55] := by
  obtain ⟨h_spaces, -, h_formats, h_reads⟩ := codec_inverse 7 [1, 2, 3]
  refine ⟨?_, ?_, ?_⟩
  · obtain ⟨record, h_record, -, h_behind, h_within⟩ := h_spaces 16 (by decide) (by decide)
    exact ⟨record, h_record, h_behind 15 (by decide) [9, 9], h_within 14 (by decide)⟩
  · exact (h_formats Format.standard).1 512 (by decide) (by decide)
  · have h_read : decode [7, 0, 0, 0, 0, 0, 0, 0, 1, 2, 3, 0x1D, 0x80, 0xBC, 0x55, 6] 3 =
        .ok ⟨7, [1, 2, 3], 0x55BC801D⟩ := by decide +kernel
    exact (h_reads _ 3 _ h_read).2.2 (by decide)

/-- **A format can ask for more space than there is.** With a least length that no buffer has, a total
length is computed, and nothing is encoded. So not every format encodes to its total length. -/
theorem oversized_not_encoded :
    Format.totalLength ⟨9223372036854775808, 1, by decide⟩ 2 = .ok 9223372036854775808 ∧
    Format.encode ⟨9223372036854775808, 1, by decide⟩ 1 [1, 2] = .error .capacityOverflow ∧
    ¬ ∀ (format : Format) (timestamp : UInt64) (payload : Bytes),
      ∃ total record, format.totalLength payload.length = .ok total ∧
        format.encode timestamp payload = .ok record ∧ record.length = total := by
  have h_refused : Format.encode ⟨9223372036854775808, 1, by decide⟩ 1 [1, 2] =
      .error .capacityOverflow := by decide +kernel
  refine ⟨by decide +kernel, h_refused, fun h_all => ?_⟩
  obtain ⟨total, record, -, h_record, -⟩ := h_all ⟨9223372036854775808, 1, by decide⟩ 1 [1, 2]
  cases h_refused.symm.trans h_record

end GroupCommit.Record
