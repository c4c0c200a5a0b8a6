import GroupCommit.Metadata
import GroupCommit.Proofs.Word
import Mathlib.Algebra.Group.Nat.Defs

/-!
# The format of metadata records

A metadata record is a header and the addresses behind it. Every byte string that is long enough begins
with a header (`Metadata.exists_header`), and what follows a header begins with as many addresses as
there is room for (`Metadata.exists_addresses`). So it is enough to say what a reader makes of a header
with addresses behind it, and of a header with too few bytes behind it.

* `Metadata.decode_complete`, `Metadata.decode_truncated`: what is read and what is refused.
* `Metadata.encode_eq_ok`: what is written.
* `Metadata.decode_cases`, `Metadata.encode_of_decode`: how a reader decides, and what was read then.
* `Metadata.decode_encoded`: what is written is read back, up to the addresses that the count loses.
* `Metadata.decode_exact`: a byte string is read as a record just when it begins with the bytes of that
  record.
-/

namespace GroupCommit.Metadata

open IndexedPosition

variable {timestamp : UInt64} {indexed count : ℕ} {addresses : List UInt64} {bytes : Bytes}
variable {m : Metadata}

/-! ### Addresses -/

theorem encodeAddresses_cons (address : UInt64) (addresses : List UInt64) :
    encodeAddresses (address :: addresses) =
      LittleEndian.encode 8 address.toNat ++ encodeAddresses addresses := rfl

@[simp] theorem length_encodeAddresses (addresses : List UInt64) :
    (encodeAddresses addresses).length = 8 * addresses.length := by
  induction addresses with
  | nil => rfl
  | cons address addresses ih =>
    rw [encodeAddresses_cons, List.length_append, LittleEndian.length_encode, ih, List.length_cons]
    omega

/-- As many addresses are read as were asked for, if that many were written. -/
theorem decodeAddresses_encodeAddresses (h : count ≤ addresses.length) (rest : Bytes) :
    decodeAddresses count (encodeAddresses addresses ++ rest) = .ok (addresses.take count) := by
  induction count generalizing addresses with
  | zero => rfl
  | succ count ih =>
    cases addresses with
    | nil => cases h
    | cons address addresses =>
      have h_rest := ih (Nat.le_of_succ_le_succ h)
      rw [decodeAddresses, encodeAddresses_cons, List.append_assoc, LittleEndian.next_encode_append]
      simp only [bind, Except.bind, h_rest, LittleEndian.uInt64_mod_bound]
      rfl

/-- Bytes that there is room for some addresses in begin with that many addresses. -/
theorem exists_addresses (h : 8 * count ≤ bytes.length) :
    ∃ addresses rest, addresses.length = count ∧ bytes = encodeAddresses addresses ++ rest := by
  -- on the number of addresses, eight bytes for each from the front
  induction count generalizing bytes with
  | zero => exact ⟨[], bytes, rfl, rfl⟩
  | succ count ih =>
    have h_room : 8 * count ≤ (bytes.drop 8).length := by
      rw [List.length_drop]
      omega
    obtain ⟨addresses, rest, h_length, h_rest⟩ := ih h_room
    have h_front : (bytes.take 8).length = 8 := by
      rw [List.length_take]
      omega
    refine ⟨UInt64.ofNat (LittleEndian.decode (bytes.take 8)) :: addresses, rest, ?_, ?_⟩
    · rw [List.length_cons, h_length]
    · rw [encodeAddresses_cons, LittleEndian.encode_uInt64 h_front, List.append_assoc, ← h_rest,
        List.take_append_drop]

/-! ### Headers -/

/-- The bytes of a header. -/
def header (timestamp : UInt64) (indexed count : ℕ) : Bytes :=
  LittleEndian.encode 8 timestamp.toNat ++ LittleEndian.encode 8 indexed ++ LittleEndian.encode 4 count

/-- The count in a header: the four bytes from offset 16 on. -/
def announced (bytes : Bytes) : ℕ := LittleEndian.decode ((bytes.drop 16).take 4)

@[simp] theorem length_header (timestamp : UInt64) (indexed count : ℕ) :
    (header timestamp indexed count).length = headerSize := by
  simp only [header, List.length_append, LittleEndian.length_encode, headerSize]

/-- Every byte string that is long enough begins with a header. -/
theorem exists_header (h : headerSize ≤ bytes.length) : ∃ timestamp indexed rest,
    indexed < Word.limit ∧ announced bytes < 2 ^ 32 ∧
      bytes = header timestamp indexed (announced bytes) ++ rest := by
  simp only [headerSize] at h
  -- the fields of the header, each of which spells a number of its width
  have h_timestamp : (bytes.take 8).length = 8 := by
    rw [List.length_take]
    omega
  have h_indexed : ((bytes.drop 8).take 8).length = 8 := by
    rw [List.length_take, List.length_drop]
    omega
  have h_count : ((bytes.drop 16).take 4).length = 4 := by
    rw [List.length_take, List.length_drop]
    omega
  have h_second := LittleEndian.encode_decode ((bytes.drop 8).take 8)
  have h_third := LittleEndian.encode_decode ((bytes.drop 16).take 4)
  have h_second_lt := LittleEndian.decode_lt_bound ((bytes.drop 8).take 8)
  have h_third_lt := LittleEndian.decode_lt_bound ((bytes.drop 16).take 4)
  rw [h_indexed] at h_second h_second_lt
  rw [h_count] at h_third h_third_lt
  refine ⟨UInt64.ofNat (LittleEndian.decode (bytes.take 8)),
    LittleEndian.decode ((bytes.drop 8).take 8), bytes.drop 20, h_second_lt, h_third_lt, ?_⟩
  calc
    bytes = bytes.take 8 ++ ((bytes.drop 8).take 8 ++ ((bytes.drop 16).take 4 ++ bytes.drop 20)) := by
      have h_16 : bytes.drop 16 = (bytes.drop 8).drop 8 := by rw [List.drop_drop]
      have h_20 : bytes.drop 20 = (bytes.drop 16).drop 4 := by rw [List.drop_drop]
      rw [h_20, List.take_append_drop, h_16, List.take_append_drop, List.take_append_drop]
    _ = header _ _ (announced bytes) ++ bytes.drop 20 := by
      rw [header, LittleEndian.encode_uInt64 h_timestamp, h_second, announced, h_third, List.append_assoc,
        List.append_assoc]

/-! ### What is read -/

/-- The length is computed exactly while it fits a word. -/
theorem encodedLength_eq (h : headerSize + 8 * count < Word.limit) :
    encodedLength count = .ok (headerSize + 8 * count) := by
  rw [encodedLength, Word.mul, if_pos (by omega)]
  exact if_pos h

/-- **Too short for a header.** -/
theorem decode_short (h : bytes.length < headerSize) : decode bytes =
    .error (.refused (.invalidRecord (.headerTruncated headerSize bytes.length))) := by
  rw [decode, if_pos h]
  rfl

/-- A reader takes the header apart, compares what it announces with what is there, and reads that many
addresses. -/
theorem decode_header (timestamp : UInt64) (h_indexed : indexed < Word.limit) (count : ℕ) (rest : Bytes) :
    decode (header timestamp indexed count ++ rest) =
      if rest.length < 8 * (count % 2 ^ 32) then
        .error (.refused (.invalidRecord (.addressesTruncated (count % 2 ^ 32)
          (headerSize + 8 * (count % 2 ^ 32)) (headerSize + rest.length))))
      else
        Fault.guard (decodeAddresses (count % 2 ^ 32) rest) >>= fun addresses =>
          .ok ⟨timestamp, (unpack indexed).1, (unpack indexed).2, addresses⟩ := by
  have h_length : (header timestamp indexed count ++ rest).length = headerSize + rest.length := by
    rw [List.length_append, length_header]
  have h_word : LittleEndian.bound 8 = Word.limit := rfl
  have h_timestamp : UInt64.ofNat (timestamp.toNat % Word.limit) = timestamp :=
    LittleEndian.uInt64_mod_bound timestamp
  have h_half : LittleEndian.bound 4 = 2 ^ 32 := rfl
  have h_count : count % 2 ^ 32 < 2 ^ 32 := Nat.mod_lt count (by decide)
  have h_needed : encodedLength (count % 2 ^ 32) = .ok (headerSize + 8 * (count % 2 ^ 32)) := by
    apply encodedLength_eq
    simp only [headerSize, Word.limit]
    omega
  rw [decode, h_length, if_neg (Nat.not_lt.2 (Nat.le_add_right _ _)), header, List.append_assoc,
    List.append_assoc]
  simp only [LittleEndian.next_encode_append, Fault.guard, bind, Except.bind, pure, Except.pure, h_half,
    h_needed, h_word, h_timestamp, Nat.mod_eq_of_lt h_indexed, Nat.add_lt_add_iff_left]
  -- the header is not too short, so what is left is the comparison
  split <;> rfl

/-- **Too short for its addresses.** -/
theorem decode_truncated (timestamp : UInt64) (h_indexed : indexed < Word.limit) {rest : Bytes}
    (h : rest.length < 8 * (count % 2 ^ 32)) :
    decode (header timestamp indexed count ++ rest) =
      .error (.refused (.invalidRecord (.addressesTruncated (count % 2 ^ 32)
        (headerSize + 8 * (count % 2 ^ 32)) (headerSize + rest.length)))) := by
  rw [decode_header timestamp h_indexed, if_pos h]

/-- **A complete record**, read from a header and no fewer addresses than it announces. -/
theorem decode_complete (timestamp : UInt64) (h_indexed : indexed < Word.limit)
    (h : count % 2 ^ 32 ≤ addresses.length) (rest : Bytes) :
    decode (header timestamp indexed count ++ (encodeAddresses addresses ++ rest)) =
      .ok ⟨timestamp, (unpack indexed).1, (unpack indexed).2, addresses.take (count % 2 ^ 32)⟩ := by
  have h_room : 8 * (count % 2 ^ 32) ≤ (encodeAddresses addresses ++ rest).length := by
    rw [List.length_append, length_encodeAddresses]
    omega
  rw [decode_header timestamp h_indexed, if_neg (Nat.not_lt.2 h_room),
    decodeAddresses_encodeAddresses h]
  rfl

/-! ### What is written -/

/-- **When a record can be encoded, and to what.** -/
theorem encode_eq_ok : m.encode = .ok bytes ↔
    headerSize + 8 * m.addresses.length < Word.allocationLimit ∧
      ∃ indexed, pack m.position m.stream = .ok indexed ∧
        bytes = header m.timestamp indexed m.addresses.length ++ encodeAddresses m.addresses := by
  constructor
  · intro h
    -- the four steps of the encoder, each of which has succeeded
    obtain ⟨space, h_space, h_rest⟩ := bind_eq_ok.1 h
    obtain ⟨_, h_room, h_rest⟩ := bind_eq_ok.1 h_rest
    obtain ⟨indexed, h_pack, h_bytes⟩ := bind_eq_ok.1 h_rest
    obtain ⟨eights, h_eights, h_sum⟩ := bind_eq_ok.1 h_space
    obtain ⟨-, rfl⟩ := Word.mul_eq_ok.1 h_eights
    obtain ⟨-, rfl⟩ := Word.add_eq_ok.1 h_sum
    exact ⟨Word.allocate_eq_ok.1 h_room, indexed, h_pack, (Except.ok.inj h_bytes).symm⟩
  · rintro ⟨h_room, indexed, h_pack, rfl⟩
    have h_space : m.length = .ok (headerSize + 8 * m.addresses.length) :=
      encodedLength_eq (Nat.lt_trans h_room (by decide))
    rw [encode, h_space, h_pack]
    simp only [bind, Except.bind, Word.allocate_eq_ok.2 h_room]
    rfl

/-- **What is too wide.** A position beyond the limit is refused, whatever the addresses are. -/
theorem encode_wide (h_room : headerSize + 8 * m.addresses.length < Word.allocationLimit)
    (h : positionLimit ≤ m.position) : m.encode = .error (.positionTooWide m.position) := by
  have h_space : m.length = .ok (headerSize + 8 * m.addresses.length) :=
    encodedLength_eq (Nat.lt_trans h_room (by decide))
  rw [encode, h_space, pack, if_neg (Nat.not_lt.2 h)]
  simp only [bind, Except.bind, Word.allocate_eq_ok.2 h_room]

/-! ### Both ways round -/

/-- **What is written is read back.** A record is encoded just when its position is narrow enough and its
bytes fit in a buffer: these are 20 and eight more for each of its addresses, and have to be fewer than
`2 ^ 63`. So a record of `2 ^ 60 - 2` addresses or more has no bytes, whatever its position. A position
that is too wide is refused. From the bytes of a record, with anything behind them, that record is read
with as many of its addresses as the count still announces. These are all of them just when there are
fewer than `2 ^ 32`. -/
theorem decode_encoded (m : Metadata) :
    ((∃ bytes, m.encode = .ok bytes) ↔ m.position < positionLimit ∧
      headerSize + 8 * m.addresses.length < Word.allocationLimit) ∧
    (positionLimit ≤ m.position → headerSize + 8 * m.addresses.length < Word.allocationLimit →
      m.encode = .error (.positionTooWide m.position)) ∧
    ∀ bytes, m.encode = .ok bytes → ∀ trailing,
      decode (bytes ++ trailing) =
        .ok { m with addresses := m.addresses.take (m.addresses.length % 2 ^ 32) } ∧
      (decode (bytes ++ trailing) = .ok m ↔ m.addresses.length < 2 ^ 32) ∧
      (2 ^ 32 ≤ m.addresses.length →
        (m.addresses.take (m.addresses.length % 2 ^ 32)).length < m.addresses.length) := by
  -- the count loses addresses just when it does not hold their number
  have h_kept : (m.addresses.take (m.addresses.length % 2 ^ 32)).length = m.addresses.length % 2 ^ 32 :=
    List.length_take_of_le (Nat.mod_le _ _)
  have h_mod : m.addresses.length % 2 ^ 32 < 2 ^ 32 := Nat.mod_lt _ (by decide)
  refine ⟨⟨?_, ?_⟩, fun h_wide h_room => encode_wide h_room h_wide, ?_⟩
  · rintro ⟨bytes, h⟩
    obtain ⟨h_room, indexed, h_pack, -⟩ := encode_eq_ok.1 h
    exact ⟨(pack_eq_ok.1 h_pack).1, h_room⟩
  · rintro ⟨h_narrow, h_room⟩
    -- a position that fits and a length that can be had are all that is needed
    exact ⟨_, encode_eq_ok.2 ⟨h_room, _, pack_eq_ok.2 ⟨h_narrow, rfl⟩, rfl⟩⟩
  · intro bytes h trailing
    obtain ⟨-, indexed, h_pack, rfl⟩ := encode_eq_ok.1 h
    have h_read : decode (header m.timestamp indexed m.addresses.length ++ encodeAddresses m.addresses ++
        trailing) = .ok { m with addresses := m.addresses.take (m.addresses.length % 2 ^ 32) } := by
      rw [List.append_assoc, decode_complete m.timestamp (lt_limit_of_pack h_pack) (Nat.mod_le _ _),
        unpack_of_pack h_pack]
    refine ⟨h_read, ⟨fun h_same => ?_, fun h_few => ?_⟩, fun h_many => ?_⟩
    · -- if the stream is read back whole, the count has kept all addresses
      have h_all : m.addresses.take (m.addresses.length % 2 ^ 32) = m.addresses :=
        congrArg Metadata.addresses (Except.ok.inj (h_read.symm.trans h_same))
      rw [h_all] at h_kept
      omega
    · rw [h_read, Nat.mod_eq_of_lt h_few, List.take_length]
    · omega

/-- A record of `2 ^ 32 + 1` addresses is read back with one, and a position of 57 bits is refused. -/
theorem decode_encoded_overlong :
    (∃ bytes, encode ⟨7, 5, 2, List.replicate (2 ^ 32 + 1) 4⟩ = .ok bytes ∧
      decode (bytes ++ [9]) = .ok ⟨7, 5, 2, [4]⟩ ∧
      decode (bytes ++ [9]) ≠ .ok ⟨7, 5, 2, List.replicate (2 ^ 32 + 1) 4⟩) ∧
    encode ⟨7, 2 ^ 56, 2, [4]⟩ = .error (.positionTooWide (2 ^ 56)) := by
  -- one address more than the count can hold
  have h_length : (List.replicate (2 ^ 32 + 1) (4 : UInt64)).length = 2 ^ 32 + 1 := List.length_replicate
  obtain ⟨h_encodes, -, h_reads⟩ := decode_encoded ⟨7, 5, 2, List.replicate (2 ^ 32 + 1) 4⟩
  simp only [h_length] at h_encodes h_reads
  obtain ⟨bytes, h⟩ := h_encodes.2 ⟨by decide, by decide⟩
  obtain ⟨h_read, h_same, -⟩ := h_reads bytes h [9]
  refine ⟨⟨bytes, h, ?_, ?_⟩, ?_⟩
  · rw [h_read, List.take_replicate]
    rfl
  · exact fun h_all => absurd (h_same.1 h_all) (by decide)
  · exact (decode_encoded ⟨7, 2 ^ 56, 2, [4]⟩).2.1 (by decide) (by decide)

/-- **How a reader decides.** It is the header that is missing, or some of the addresses, or the bytes
begin with those of the record that is read. -/
theorem decode_cases (bytes : Bytes) :
    (bytes.length < headerSize ∧ decode bytes =
      .error (.refused (.invalidRecord (.headerTruncated headerSize bytes.length)))) ∨
    (headerSize ≤ bytes.length ∧ bytes.length < headerSize + 8 * announced bytes ∧ decode bytes =
      .error (.refused (.invalidRecord (.addressesTruncated (announced bytes)
        (headerSize + 8 * announced bytes) bytes.length)))) ∨
    (headerSize + 8 * announced bytes ≤ bytes.length ∧ ∃ m, decode bytes = .ok m ∧
      m.encode = .ok (bytes.take (headerSize + 8 * announced bytes))) := by
  rcases Nat.lt_or_ge bytes.length headerSize with h_short | h_long
  · exact .inl ⟨h_short, decode_short h_short⟩
  -- bytes enough for a header are a header, with the number of addresses it announces
  · obtain ⟨timestamp, indexed, rest, h_indexed, h_count, h_bytes⟩ := exists_header h_long
    have h_mod := Nat.mod_eq_of_lt h_count
    have h_length : bytes.length = headerSize + rest.length := by
      rw [congrArg List.length h_bytes, List.length_append, length_header]
    rcases Nat.lt_or_ge rest.length (8 * announced bytes) with h_few | h_room
    · have h_read := decode_truncated timestamp h_indexed (h_mod.symm ▸ h_few)
      rw [← h_bytes, h_mod, ← h_length] at h_read
      exact .inr (.inl ⟨h_long, by omega, h_read⟩)
    -- the addresses are all there, and whatever lies behind them is not read
    · obtain ⟨addresses, trailing, h_addresses, rfl⟩ := exists_addresses h_room
      have h_read := decode_complete timestamp h_indexed (Nat.le_of_eq (h_mod.trans h_addresses.symm))
        trailing
      rw [← h_bytes, h_mod, ← h_addresses, List.take_length] at h_read
      have h_written : (header timestamp indexed addresses.length ++ encodeAddresses addresses).length =
          headerSize + 8 * announced bytes := by
        rw [List.length_append, length_header, length_encodeAddresses, h_addresses]
      have h_front : bytes.take (headerSize + 8 * announced bytes) =
          header timestamp indexed addresses.length ++ encodeAddresses addresses := by
        rw [← List.append_assoc, ← h_addresses] at h_bytes
        exact (congrArg (List.take _) h_bytes).trans (List.take_left' h_written)
      refine .inr (.inr ⟨by omega, _, h_read,
        encode_eq_ok.2 ⟨?_, indexed, pack_unpack h_indexed, h_front⟩⟩)
      simp only [h_addresses, headerSize, Word.allocationLimit]
      omega

/-- **When bytes are read as a record.** -/
theorem exists_decode_iff : (∃ m, decode bytes = .ok m) ↔
    headerSize ≤ bytes.length ∧ headerSize + 8 * announced bytes ≤ bytes.length := by
  constructor
  · rintro ⟨m, h⟩
    rcases decode_cases bytes with ⟨-, h_read⟩ | ⟨-, -, h_read⟩ | ⟨h_room, -⟩
    · cases h.symm.trans h_read
    · cases h.symm.trans h_read
    · exact ⟨Nat.le_of_add_right_le h_room, h_room⟩
  · rintro ⟨h_long, h_room⟩
    rcases decode_cases bytes with ⟨h_short, -⟩ | ⟨-, h_few, -⟩ | ⟨-, m, h_read, -⟩
    · exact absurd h_long (Nat.not_le.2 h_short)
    · exact absurd h_room (Nat.not_le.2 h_few)
    · exact ⟨m, h_read⟩

/-- What is read is encoded to just the bytes that were read. -/
theorem encode_of_decode (h : decode bytes = .ok m) :
    m.encode = .ok (bytes.take (headerSize + 8 * announced bytes)) := by
  rcases decode_cases bytes with ⟨-, h_read⟩ | ⟨-, -, h_read⟩ | ⟨-, m', h_read, h_encode⟩
  · cases h.symm.trans h_read
  · cases h.symm.trans h_read
  · cases h.symm.trans h_read
    exact h_encode

/-- **Nothing shorter.** A record that is cut off anywhere is refused. -/
theorem decode_cut (h : m.encode = .ok bytes) (h_few : m.addresses.length < 2 ^ 32) {k : ℕ}
    (h_cut : k < bytes.length) :
    ∃ defect, decode (bytes.take k) = .error (.refused (.invalidRecord defect)) := by
  obtain ⟨-, indexed, h_pack, rfl⟩ := encode_eq_ok.1 h
  rw [List.length_append, length_header, length_encodeAddresses] at h_cut
  rcases Nat.lt_or_ge k headerSize with h_short | h_long
  · exact ⟨_, decode_short (Nat.lt_of_le_of_lt (List.length_take_le k _) h_short)⟩
  · -- the header is whole, and some address is not
    have h_rest : ((encodeAddresses m.addresses).take (k - headerSize)).length <
        8 * (m.addresses.length % 2 ^ 32) := by
      rw [List.length_take, length_encodeAddresses, Nat.mod_eq_of_lt h_few]
      omega
    rw [List.take_append, length_header, List.take_of_length_le (by rwa [length_header])]
    exact ⟨_, decode_truncated m.timestamp (lt_limit_of_pack h_pack) h_rest⟩

/-- **A byte string is read as a record just when it begins with the bytes of one.** Reading never
faults. Bytes are refused for want of a header or of addresses that the header announces; what is read is
encoded to just the bytes that were read, so no two such beginnings are read as the same record, and
nothing shorter than a record is read as one. -/
theorem decode_exact (bytes : Bytes) :
    (∀ broken, decode bytes ≠ .error (.fault broken)) ∧
    ((∃ m, decode bytes = .ok m) ↔
      headerSize ≤ bytes.length ∧ headerSize + 8 * announced bytes ≤ bytes.length) ∧
    ((∀ m, decode bytes ≠ .ok m) → decode bytes = .error (.refused (.invalidRecord
      (if bytes.length < headerSize then .headerTruncated headerSize bytes.length
      else .addressesTruncated (announced bytes) (headerSize + 8 * announced bytes) bytes.length)))) ∧
    (∀ m, decode bytes = .ok m → m.encode = .ok (bytes.take (headerSize + 8 * announced bytes))) ∧
    (∀ bytes' m, decode bytes = .ok m → decode bytes' = .ok m →
      bytes.take (headerSize + 8 * announced bytes) =
        bytes'.take (headerSize + 8 * announced bytes')) ∧
    (∀ m : Metadata, m.encode = .ok bytes → m.addresses.length < 2 ^ 32 → ∀ k < bytes.length,
      ∃ defect, decode (bytes.take k) = .error (.refused (.invalidRecord defect))) := by
  refine ⟨?_, exists_decode_iff, ?_, fun m => encode_of_decode, ?_, ?_⟩
  · intro broken h
    -- the reader refuses or reads; in no case does it panic
    rcases decode_cases bytes with ⟨-, h_read⟩ | ⟨-, -, h_read⟩ | ⟨-, m, h_read, -⟩ <;>
      cases h.symm.trans h_read
  · intro h_none
    rcases decode_cases bytes with ⟨h_short, h_read⟩ | ⟨h_long, -, h_read⟩ | ⟨-, m, h_read, -⟩
    · rw [h_read, if_pos h_short]
    · rw [h_read, if_neg (Nat.not_lt.2 h_long)]
    · exact absurd h_read (h_none m)
  · -- both prefixes are the encoding of what was read
    intro bytes' m h h'
    exact Except.ok.inj ((encode_of_decode h).symm.trans (encode_of_decode h'))
  · intro m h_bytes h_few k h_cut
    exact decode_cut h_bytes h_few h_cut

/-- One address with a byte behind it, the same cut off within the address, and three bytes. -/
theorem decode_exact_oneAddress :
    encode ⟨1, 5, 2, [3]⟩ = .ok [1, 0, 0, 0, 0, 0, 0, 0, 2, 5, 0, 0, 0, 0, 0, 0, 1, 0, 0, 0,
      3, 0, 0, 0, 0, 0, 0, 0] ∧
    (∃ defect, decode [1, 0, 0, 0, 0, 0, 0, 0, 2, 5, 0, 0, 0, 0, 0, 0, 1, 0, 0, 0, 3, 0] =
      .error (.refused (.invalidRecord defect))) ∧
    decode [1, 2, 3] = .error (.refused (.invalidRecord (.headerTruncated 20 3))) := by
  -- the trailing byte is not part of the record
  have h_read : decode [1, 0, 0, 0, 0, 0, 0, 0, 2, 5, 0, 0, 0, 0, 0, 0, 1, 0, 0, 0,
      3, 0, 0, 0, 0, 0, 0, 0, 9] = .ok ⟨1, 5, 2, [3]⟩ := rfl
  have h_encode : encode ⟨1, 5, 2, [3]⟩ = .ok [1, 0, 0, 0, 0, 0, 0, 0, 2, 5, 0, 0, 0, 0, 0, 0,
      1, 0, 0, 0, 3, 0, 0, 0, 0, 0, 0, 0] := (decode_exact _).2.2.2.1 _ h_read
  refine ⟨h_encode, ?_, ?_⟩
  · exact (decode_exact _).2.2.2.2.2 _ h_encode (by decide) 22 (by decide)
  · refine (decode_exact [1, 2, 3]).2.2.1 fun m h => ?_
    have h_room := (decode_exact [1, 2, 3]).2.1.1 ⟨m, h⟩
    exact absurd h_room.1 (by decide)

end GroupCommit.Metadata
