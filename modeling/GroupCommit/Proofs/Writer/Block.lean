import GroupCommit.Proofs.Record.Padding
import GroupCommit.Proofs.Writer.File
import GroupCommit.Writer.Block
import Mathlib.Tactic.Ring

/-!
# What a block device does

A block device takes whole blocks, so a call reaches further than its bytes go, up to the end of their
last block, and sets what it reaches beyond them to zero. It is not a medium, for these zeros may come to
lie on bytes that some other call has written. A disk takes the blocks of a call just when its address
lies at the start of a block, as long as it has the offsets; the call succeeds if the fsync does that
belongs to it.

* `BlockWriter.origin`, `BlockWriter.reach`: where the log begins on the device, and how far a call
  reaches.
* `BlockWriter.write_eq`, `BlockWriter.sets_of_write`: what a call does on a disk.
-/

namespace GroupCommit.BlockWriter

variable {w w' : BlockWriter} {data : Bytes} {address a : Nat} {hint : Int32}
  {outcome : Except (Stop IoError) Unit}

/-- The offset of the log on the device. -/
def origin (w : BlockWriter) : Nat := w.baseBlock * 2 ^ w.bits

/-- The bytes of the blocks that `length` bytes take up, if they begin at the start of a block. -/
def reach (bits length : Nat) : Nat := Word.chunksCovering length (2 ^ bits) * 2 ^ bits

theorem blockSize_eq (w : BlockWriter) : w.blockSize = 2 ^ w.bits := Nat.one_shiftLeft _

/-- Rounding up to whole blocks never shortens. -/
theorem le_reach (bits length : Nat) : length ≤ reach bits length :=
  Record.Format.le_chunks (Nat.two_pow_pos bits) length

theorem reach_zero (bits : Nat) : reach bits 0 = 0 := by
  have h_lt : 0 + 2 ^ bits - 1 < 2 ^ bits := by
    have := Nat.two_pow_pos bits
    omega
  rw [reach, Word.chunksCovering, Nat.div_eq_of_lt h_lt, Nat.zero_mul]

/-- Bytes that begin at the start of a block take up the first address of every block they reach. -/
theorem first_of_reach {bits start length : Nat} (h_aligned : 2 ^ bits ∣ start) (h_from : start ≤ a)
    (h_to : a < start + reach bits length) :
    start ≤ 2 ^ bits * (a / 2 ^ bits) ∧ 2 ^ bits * (a / 2 ^ bits) < start + length := by
  obtain ⟨n, rfl⟩ := h_aligned
  have h_pos := Nat.two_pow_pos bits
  rw [reach, Word.chunksCovering, Nat.mul_comm _ (2 ^ bits), ← Nat.mul_add] at h_to
  generalize 2 ^ bits = size at h_from h_to h_pos ⊢
  -- in blocks: the bytes begin with block `n`, and the block of `a` is one of those behind it
  have h_le : n ≤ a / size := by
    rw [Nat.le_div_iff_mul_le h_pos, Nat.mul_comm]
    exact h_from
  have h_lt : a / size < n + (length + size - 1) / size := Nat.div_lt_of_lt_mul h_to
  refine ⟨Nat.mul_le_mul_left size h_le, ?_⟩
  obtain ⟨d, hd⟩ := Nat.exists_eq_add_of_le h_le
  have h_blocks : d + 1 ≤ (length + size - 1) / size := by omega
  rw [Nat.le_div_iff_mul_le h_pos, Nat.add_mul] at h_blocks
  rw [hd, Nat.mul_add, Nat.mul_comm size d]
  omega

/-- Padding appends zeros up to a whole number of blocks. -/
theorem padded_eq (w : BlockWriter) (data : Bytes) :
    w.padded data = data ++ Bytes.zeros (reach w.bits data.length - data.length) := by
  rw [padded, blocksCovering, blockSize_eq, reach]

theorem length_padded (w : BlockWriter) (data : Bytes) :
    (w.padded data).length = reach w.bits data.length := by
  have h_le := le_reach w.bits data.length
  rw [padded_eq, List.length_append, Bytes.zeros, List.length_replicate]
  omega

/-- Beyond the end all bytes are zero as it is. -/
theorem read_padded (w : BlockWriter) (data : Bytes) (i : Nat) :
    (w.padded data).read i = data.read i := by
  rw [padded_eq]
  simp only [Bytes.read, Bytes.zeros, List.getD_eq_getElem?_getD, List.getElem?_append,
    List.getElem?_replicate]
  split
  · rfl
  · next h_ge =>
    rw [List.getElem?_eq_none (Nat.le_of_not_lt h_ge)]
    split <;> rfl

/-- The mask test of the writer asks for a multiple of the block size. -/
theorem aligned_iff (w : BlockWriter) (address : Nat) :
    address &&& (w.blockSize - 1) = 0 ↔ 2 ^ w.bits ∣ address := by
  rw [blockSize_eq, Nat.and_two_pow_sub_one_eq_mod, Nat.dvd_iff_mod_eq_zero]

/-- The offset of an address that a block begins with, as a word. -/
theorem offsetOf_eq (w : BlockWriter) (h_aligned : 2 ^ w.bits ∣ address) :
    w.offsetOf (w.baseBlock + address >>> w.bits) = (w.origin + address) % Word.limit := by
  obtain ⟨n, rfl⟩ := h_aligned
  rw [offsetOf, Nat.shiftRight_eq_div_pow, Nat.mul_div_cancel_left n (Nat.two_pow_pos _),
    Nat.shiftLeft_eq, Nat.add_mul, origin, Nat.mul_comm n]

/-! ### Calls -/

/-- The device with the blocks of `data` from `offset` on, after the fsync that belongs to them. No bytes
take up no block. -/
def placed (w : BlockWriter) (offset : Nat) (data : Bytes) : BlockWriter :=
  { w with device := { w.device with
      image := if data = [] then w.image else w.image.write offset (w.padded data)
      syncs := w.device.syncs.tail } }

/-- Nothing is put on the device for an empty buffer. -/
theorem image_placed (w : BlockWriter) (offset : Nat) (data : Bytes) :
    (w.placed offset data).image =
      if data = [] then w.image else w.image.write offset (w.padded data) := rfl

/-- A write shows its own bytes and the padding over its blocks, and leaves the rest. -/
theorem read_placed (w : BlockWriter) (offset : Nat) (data : Bytes) (a : Nat) :
    (w.placed offset data).image.read a =
      if offset ≤ a ∧ a < offset + reach w.bits data.length then data.read (a - offset)
      else w.image.read a := by
  rw [image_placed]
  split
  · next h_data =>
    rw [h_data, List.length_nil, reach_zero, if_neg (by omega)]
  · rw [Image.read_write, length_padded, read_padded]

/-- A write makes the device no larger than the end of its last block. -/
theorem size_placed_le_iff (w : BlockWriter) (offset : Nat) (data : Bytes) (n : Nat) :
    (w.placed offset data).image.size ≤ n ↔
      w.image.size ≤ n ∧ (data ≠ [] → offset + reach w.bits data.length ≤ n) := by
  rw [image_placed]
  split
  · next h_data => exact ⟨fun h => ⟨h, fun h_ne => absurd h_data h_ne⟩, And.left⟩
  · next h_data =>
    rw [Image.size_write, length_padded, Nat.max_le]
    exact and_congr_right fun _ => ⟨fun h _ => h, fun h => h h_data⟩

theorem padded_eq_nil_iff (w : BlockWriter) (data : Bytes) : w.padded data = [] ↔ data = [] := by
  rw [← List.length_eq_zero_iff, length_padded, ← List.length_eq_zero_iff (l := data)]
  refine ⟨fun h => Nat.eq_zero_of_le_zero (h ▸ le_reach w.bits data.length), fun h => ?_⟩
  rw [h, reach_zero]

/-- A disk takes blocks that end at an offset. -/
theorem writeAt_padded (w : BlockWriter) (offset : Nat) (data : Bytes) :
    writeAt w.image offset (w.padded data) =
      if offset + reach w.bits data.length < seekLimit then .ok (w.placed offset data).image
      else .error .offsetTooLarge := by
  rw [writeAt, image_placed]
  simp only [List.isEmpty_iff, padded_eq_nil_iff, length_padded]
  by_cases h_start : seekLimit ≤ offset
  · rw [if_pos h_start, if_neg (by omega)]
  · rw [if_neg h_start]
    by_cases h_data : data = []
    · -- an empty buffer needs no room beyond its start
      rw [if_pos h_data, if_pos h_data, h_data, List.length_nil, reach_zero, if_pos (by omega)]
    · rw [if_neg h_data, if_neg h_data]
      by_cases h_stop : seekLimit ≤ offset + reach w.bits data.length
      · rw [if_pos h_stop, if_neg (Nat.not_lt.2 h_stop)]
      · rw [if_neg h_stop, if_pos (Nat.lt_of_not_le h_stop)]

/-- What a call does on a disk whose address lies at the start of a block. The number of that block has to
fit into a word, and what does not fit of its offset is lost. The call ends as the fsync does. -/
theorem write_eq (h_disk : w.device.backing = .disk) (h_aligned : 2 ^ w.bits ∣ address) :
    w.write data address hint =
      if w.baseBlock + address >>> w.bits < Word.limit then
        if (w.origin + address) % Word.limit + reach w.bits data.length < seekLimit then
          (w.device.syncAnswer.mapError .refused,
            w.placed ((w.origin + address) % Word.limit) data)
        else (.error (.refused .offsetTooLarge), w)
      else (.error (.fault .addOverflow), w) := by
  -- aligned, so what is left is the block number and the room on the device
  have h_write := writeAt_padded w ((w.origin + address) % Word.limit) data
  rw [write, if_neg (not_not.2 ((aligned_iff w address).2 h_aligned)), blockOf, Word.add]
  by_cases h_block : w.baseBlock + address >>> w.bits < Word.limit
  · rw [if_pos h_block, if_pos h_block]
    -- the shift of the block number drops what does not fit a word
    simp only [offsetOf_eq w h_aligned, File.write_of_disk h_disk]
    rw [image] at h_write
    rw [h_write]
    by_cases h_room : (w.origin + address) % Word.limit + reach w.bits data.length < seekLimit
    · rw [if_pos h_room, if_pos h_room]
      rfl
    · rw [if_neg h_room, if_neg h_room]
      rfl
  · rw [if_neg h_block, if_neg h_block]

/-- An address within a block is refused before the device is asked. -/
theorem write_misaligned (w : BlockWriter) (h_aligned : ¬ 2 ^ w.bits ∣ address) :
    w.write data address hint = (.error (.refused (.misaligned address w.blockSize)), w) := by
  rw [write, if_pos (mt (aligned_iff w address).1 h_aligned)]

/-- A block number is no larger than the byte offset it stands for. -/
theorem block_le_offset (w : BlockWriter) (address : Nat) :
    w.baseBlock + address >>> w.bits ≤ w.origin + address := by
  rw [Nat.shiftRight_eq_div_pow, origin]
  exact Nat.add_le_add (Nat.le_mul_of_pos_right _ (Nat.two_pow_pos _)) (Nat.div_le_self _ _)

/-- What such a call does if its offset is a word. -/
theorem write_of_aligned (h_disk : w.device.backing = .disk) (h_aligned : 2 ^ w.bits ∣ address)
    (h_word : w.origin + address < Word.limit) :
    w.write data address hint =
      if w.origin + address + reach w.bits data.length < seekLimit then
        (w.device.syncAnswer.mapError .refused, w.placed (w.origin + address) data)
      else (.error (.refused .offsetTooLarge), w) := by
  rw [write_eq h_disk h_aligned, if_pos ((block_le_offset w address).trans_lt h_word),
    Nat.mod_eq_of_lt h_word]

/-- A write that succeeds had an aligned address. -/
theorem aligned_of_write (h : w.write data address hint = (.ok (), w')) : 2 ^ w.bits ∣ address := by
  by_contra h_aligned
  rw [write_misaligned w h_aligned] at h
  cases h

/-- What is known of a call whose blocks a disk has taken: it sets just what it reaches. -/
structure Sets (w w' : BlockWriter) (data : Bytes) (address : Nat) : Prop where
  aligned : 2 ^ w.bits ∣ address
  bits_eq : w'.bits = w.bits
  baseBlock_eq : w'.baseBlock = w.baseBlock
  backing_eq : w'.device.backing = w.device.backing
  read_eq : ∀ a, w'.image.read (w.origin + a) =
    if address ≤ a ∧ a < address + reach w.bits data.length then data.read (a - address)
    else w.image.read (w.origin + a)

/-- **What a call does on a disk.** It sets its blocks, or it fails and changes nothing. -/
theorem sets_of_write (h_disk : w.device.backing = .disk)
    (h : w.write data address hint = (outcome, w')) (h_room : w.origin + address < seekLimit) :
    Sets w w' data address ∨ w' = w ∧ ∃ stop, outcome = .error stop := by
  by_cases h_aligned : 2 ^ w.bits ∣ address
  · -- the offset is below the limit, so it is not reduced
    rw [write_of_aligned h_disk h_aligned (h_room.trans (by decide))] at h
    split at h
    · cases h
      -- the bytes read are those of the request, counted from the origin
      refine .inl ⟨h_aligned, rfl, rfl, rfl, fun a => ?_⟩
      rw [read_placed, Nat.add_assoc, Nat.add_sub_add_left]
      simp only [Nat.add_le_add_iff_left, Nat.add_lt_add_iff_left]
    · cases h
      exact .inr ⟨rfl, _, rfl⟩
  · rw [write_misaligned w h_aligned] at h
    cases h
    exact .inr ⟨rfl, _, rfl⟩

end GroupCommit.BlockWriter
