import GroupCommit.Proofs.Writer.Block
import GroupCommit.Proofs.Writer.Requests

/-!
# Where blocks land

The number of a block is a sum of words that stops with a fault when it is too large. Its offset on the
device is that number shifted by the size of a block, and there what goes beyond a word is lost. So a
call lands at its offset as long as this is a word, and fails if the device does not have it; but a log
that begins far enough out, at a block whose number is still a word, is written to where the rest of the
offset points, over blocks that are not its own.

* `BlockWriter.LandsExactly`: a call lands where the log has its address, or fails.
* `BlockWriter.lands_at_word_offset`: where a call lands on any device, and when it lands exactly.
* `BlockWriter.lands_at_word_offset_distantLog`: a call that does not.
-/

namespace GroupCommit.BlockWriter

variable {data : Bytes} {address : Nat} {hint : Int32}

/-- A write puts its bytes at its offset. -/
theorem contains_placed (w : BlockWriter) (offset : Nat) (data : Bytes) :
    (w.placed offset data).image.Contains offset data := by
  have h_le := le_reach w.bits data.length
  refine Image.contains_of_read (fun h_data => ?_) fun k hk => ?_
  · have h_stop := ((w.size_placed_le_iff offset data _).1 (Nat.le_refl _)).2 h_data
    omega
  · rw [read_placed, if_pos (by omega), Nat.add_sub_cancel_left]

/-- A call that succeeds has put its bytes where the log has its address, and has changed nothing in
front of the log. -/
def LandsExactly (w : BlockWriter) (data : Bytes) (address : Nat) (hint : Int32) : Prop :=
  ∀ w', w.write data address hint = (.ok (), w') →
    w'.image.Contains (w.origin + address) data ∧ ∀ a < w.origin, w'.image.read a = w.image.read a

/-- A call that succeeds has placed its blocks at its offset, as far as that is a word. -/
theorem eq_placed_of_write {w w' : BlockWriter} (h_disk : w.device.backing = .disk)
    (h : w.write data address hint = (.ok (), w')) :
    w' = w.placed ((w.origin + address) % Word.limit) data := by
  rw [write_eq h_disk (aligned_of_write h)] at h
  split at h
  · split at h
    · exact (congrArg Prod.snd h).symm
    · cases h
  · cases h

/-- An aligned write succeeds iff its block has a number, its bytes fit the device and the fsync
succeeds. -/
theorem write_ok_iff {w : BlockWriter} (h_disk : w.device.backing = .disk) (data : Bytes) (hint : Int32)
    (h_aligned : 2 ^ w.bits ∣ address) :
    (∃ w', w.write data address hint = (.ok (), w')) ↔
      w.baseBlock + address >>> w.bits < Word.limit ∧
        (w.origin + address) % Word.limit + reach w.bits data.length < seekLimit ∧
        w.device.syncAnswer = .ok () := by
  rw [write_eq h_disk h_aligned]
  split
  · next h_block =>
    split
    · next h_room =>
      -- the bytes are placed, and the fsync answers for the write
      cases w.device.syncAnswer with
      | ok => exact ⟨fun _ => ⟨h_block, h_room, rfl⟩, fun _ => ⟨_, rfl⟩⟩
      | error e => exact ⟨nofun, fun h => nomatch h.2.2⟩
    · next h_room => exact ⟨nofun, fun h => absurd h.2.1 h_room⟩
  · next h_block => exact ⟨nofun, fun h => absurd h.1 h_block⟩

/-- A call whose blocks the disk does not take fails and leaves it as it is. -/
theorem write_of_not_taken {w : BlockWriter} (h_disk : w.device.backing = .disk) (data : Bytes)
    (hint : Int32) (h_aligned : 2 ^ w.bits ∣ address)
    (h : ¬ (w.baseBlock + address >>> w.bits < Word.limit ∧
      (w.origin + address) % Word.limit + reach w.bits data.length < seekLimit)) :
    ∃ stop, w.write data address hint = (.error stop, w) := by
  rw [write_eq h_disk h_aligned]
  split
  · next h_block =>
    split
    · next h_room => exact absurd ⟨h_block, h_room⟩ h
    · exact ⟨_, rfl⟩
  · exact ⟨_, rfl⟩

/-- What goes beyond a word is lost, and no address makes up for it. -/
theorem lost_lt_origin (w : BlockWriter) (h_address : address < Word.limit)
    (h_far : Word.limit ≤ w.origin + address) : (w.origin + address) % Word.limit < w.origin := by
  rw [Nat.mod_eq_sub_mod h_far]
  have h_le := Nat.mod_le (w.origin + address - Word.limit) Word.limit
  omega

/-- **Where a call lands.** On a disk, a call that begins at the start of a block succeeds just when the
number of that block is a word, the disk has what its offset is as a word, and the fsync that belongs to
it does not fail; it has then set the blocks at that offset and nothing else. If one of the first two is
missing, the call fails and changes nothing. If the offset is a word, it has landed where the log has its
address, and a disk that does not have the offset refuses it. If it is not, the call has landed in front
of the log. -/
theorem lands_at_word_offset {w : BlockWriter} (h_disk : w.device.backing = .disk) (data : Bytes)
    (hint : Int32) (h_aligned : 2 ^ w.bits ∣ address) :
    ((∃ w', w.write data address hint = (.ok (), w')) ↔
      w.baseBlock + address >>> w.bits < Word.limit ∧
        (w.origin + address) % Word.limit + reach w.bits data.length < seekLimit ∧
        w.device.syncAnswer = .ok ()) ∧
    (∀ w', w.write data address hint = (.ok (), w') →
      w'.image.Contains ((w.origin + address) % Word.limit) data ∧
      ∀ a, (a < (w.origin + address) % Word.limit ∨
          (w.origin + address) % Word.limit + reach w.bits data.length ≤ a) →
        w'.image.read a = w.image.read a) ∧
    (¬ (w.baseBlock + address >>> w.bits < Word.limit ∧
        (w.origin + address) % Word.limit + reach w.bits data.length < seekLimit) →
      ∃ stop, w.write data address hint = (.error stop, w)) ∧
    (w.origin + address < Word.limit →
      w.LandsExactly data address hint ∧
      (seekLimit ≤ w.origin + address + reach w.bits data.length →
        w.write data address hint = (.error (.refused .offsetTooLarge), w))) ∧
    (address < Word.limit → Word.limit ≤ w.origin + address →
      (w.origin + address) % Word.limit < w.origin) := by
  refine ⟨write_ok_iff h_disk data hint h_aligned, fun w' h => ?_,
    write_of_not_taken h_disk data hint h_aligned, fun h_word => ⟨fun w' h => ?_, fun h_far => ?_⟩,
    w.lost_lt_origin⟩
  · rw [eq_placed_of_write h_disk h]
    refine ⟨contains_placed w _ _, fun a h_apart => ?_⟩
    rw [read_placed, if_neg (by omega)]
  · -- the offset fits a word, so it is the offset that was meant
    rw [eq_placed_of_write h_disk h, Nat.mod_eq_of_lt h_word]
    refine ⟨contains_placed w _ _, fun a h_before => ?_⟩
    rw [read_placed, if_neg (by omega)]
  · rw [write_of_aligned h_disk h_aligned h_word, if_neg (Nat.not_lt.2 h_far)]

/-- A log that begins at the third block of a device. -/
def nearLog : BlockWriter := ⟨{ image := .ofBytes [1, 2, 3] }, 9, 2⟩

/-- A call to its second block. -/
theorem lands_at_word_offset_nearLog :
    nearLog.device.backing = .disk ∧ 2 ^ nearLog.bits ∣ 512 ∧
      ∃ w', nearLog.write [7, 7] 512 0 = (.ok (), w') ∧ w'.image.Contains 1536 [7, 7] ∧
        ∀ a < 1024, w'.image.read a = nearLog.image.read a := by
  have h_aligned : 2 ^ nearLog.bits ∣ 512 := ⟨1, rfl⟩
  obtain ⟨h_ok_iff, -, -, h_exact, -⟩ := lands_at_word_offset (w := nearLog) rfl [7, 7] 0 h_aligned
  obtain ⟨w', h⟩ := h_ok_iff.2 ⟨by decide, by decide, rfl⟩
  exact ⟨rfl, h_aligned, w', h, (h_exact (by decide)).1 w' h⟩

/-- A log that begins at the block with the number two to the power of 55. Its offset would be two to
the power of 64. -/
def distantLog : BlockWriter := ⟨{ image := .ofBytes [1, 2, 3] }, 9, 36028797018963968⟩

/-- **A call that strays.** The first call to the distant log succeeds and is found in the first block of
the device. -/
theorem lands_at_word_offset_distantLog :
    distantLog.device.backing = .disk ∧ distantLog.bits = 9 ∧ distantLog.baseBlock < Word.limit ∧
      2 ^ distantLog.bits ∣ 0 ∧ ¬ distantLog.LandsExactly [7] 0 0 := by
  refine ⟨rfl, rfl, by decide, Nat.dvd_zero _, fun h_exact => ?_⟩
  obtain ⟨w', h⟩ :=
    (write_ok_iff (w := distantLog) rfl [7] 0 (Nat.dvd_zero _)).2 ⟨by decide, by decide, rfl⟩
  have h_kept : w'.image.read 0 = distantLog.image.read 0 := (h_exact w' h).2 0 (by decide)
  rw [eq_placed_of_write rfl h, read_placed] at h_kept
  exact absurd h_kept (by decide)

end GroupCommit.BlockWriter
