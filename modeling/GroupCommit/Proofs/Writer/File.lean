import GroupCommit.Proofs.Word
import GroupCommit.Writer.File

/-!
# What a file does

A file on a disk keeps the bytes that it takes. A Writer to a file passes a call on, counts it and
makes the file durable when that is due, and each of the three can stop it: the file refuses the bytes,
the count has no room for one more, the fsync fails. After the first of these everything is as it was;
after the other two the file has the bytes all the same.

* `File.SyncsSucceed`: files of which no fsync fails.
* `read_writeAt`: the bytes of a file on a disk after a write.
* `FileWriter.Wrote`, `FileWriter.wrote`: all that a call can do.
* `FileWriter.image_of_write`: what it does to the bytes of a disk.
-/

namespace GroupCommit

/-- A write into a file sets the bytes of its range. -/
theorem read_writeAt {file file' : Image} {offset : Nat} {data : Bytes}
    (h : writeAt file offset data = .ok file') (a : Nat) :
    file'.read a =
      if offset ≤ a ∧ a < offset + data.length then data.read (a - offset) else file.read a := by
  rw [writeAt] at h
  split at h
  · cases h
  · split at h
    · next h_empty =>
      -- writing nothing changes nothing
      cases h
      rw [List.isEmpty_iff.1 h_empty, if_neg (by simp)]
    · split at h
      · cases h
      · cases h
        rw [Image.read_write]

/-- A write that ends below the limit of a file offset is made. -/
theorem writeAt_of_lt (file : Image) {offset : Nat} {data : Bytes} (h_data : data ≠ [])
    (h_stop : offset + data.length < seekLimit) :
    writeAt file offset data = .ok (file.write offset data) := by
  have h_start : ¬ seekLimit ≤ offset :=
    Nat.not_le.2 (Nat.lt_of_le_of_lt (Nat.le_add_right _ _) h_stop)
  rw [writeAt, if_neg h_start, if_neg (mt List.isEmpty_iff.1 h_data)]
  exact if_neg (Nat.not_le.2 h_stop)

/-- An offset beyond the limit is refused, even for no bytes. -/
theorem writeAt_of_limit_le (file : Image) {offset : Nat} (data : Bytes) (h : seekLimit ≤ offset) :
    writeAt file offset data = .error .offsetTooLarge := if_pos h

namespace File

variable {f f' : File} {offset : Nat} {data : Bytes}

/-- No fsync of the file fails. -/
structure SyncsSucceed (f : File) : Prop where
  next : ∀ s ∈ f.syncs, s = none
  later : f.laterSyncs = none

/-- The next fsync succeeds if all do. -/
theorem SyncsSucceed.syncAnswer (h : f.SyncsSucceed) : f.syncAnswer = .ok () := by
  have h_next : f.syncs.headD f.laterSyncs = none := by
    cases h_syncs : f.syncs with
    | nil => exact h.later
    | cons s rest => exact h.next s (h_syncs ▸ List.mem_cons_self)
  rw [File.syncAnswer, h_next]

/-- The fsyncs after the next one succeed as well. -/
theorem SyncsSucceed.tail (h : f.SyncsSucceed) (image : Image) :
    ({ f with image, syncs := f.syncs.tail } : File).SyncsSucceed :=
  ⟨fun s h_mem => h.next s (List.mem_of_mem_tail h_mem), h.later⟩

/-- On a disk the device adds no refusal of its own. -/
theorem write_of_disk (h_disk : f.backing = .disk) (offset : Nat) (data : Bytes) :
    f.write offset data = (writeAt f.image offset data).map fun image => { f with image } := by
  rw [File.write, h_disk]

/-- A write changes nothing but the bytes. -/
theorem eq_of_write (h : f.write offset data = .ok f') : f' = { f with image := f'.image } := by
  rw [File.write] at h
  -- a disk stores the bytes, the other devices keep no more than they had
  split at h
  · next h_backing =>
    cases h_image : writeAt f.image offset data with
    | error e =>
      rw [h_image] at h
      cases h
    | ok image =>
      rw [h_image] at h
      cases h
      rfl
  · cases h
    rfl
  · split at h
    · cases h
      rfl
    · cases h
  · cases h

/-- What a disk file holds after a write is what `writeAt` makes of it. -/
theorem writeAt_of_write (h_disk : f.backing = .disk) {image : Image}
    (h : f.write offset data = .ok { f with image }) : writeAt f.image offset data = .ok image := by
  rw [write_of_disk h_disk] at h
  cases h_image : writeAt f.image offset data with
  | error e =>
    rw [h_image] at h
    cases h
  | ok image' =>
    rw [h_image] at h
    exact congrArg Except.ok (congrArg File.image (Except.ok.inj h))

end File

namespace FileWriter

variable {w w' : FileWriter} {data : Bytes} {address : Nat} {hint : Int32}
  {outcome : Except (Stop IoError) Unit}

/-- All that a call to a file can do, with how it ends. -/
inductive Wrote (w : FileWriter) (data : Bytes) (address : Nat) :
    Except (Stop IoError) Unit × FileWriter → Prop
  /-- The file does not take the bytes. -/
  | refused (e : IoError) (h_write : w.file.write address data = .error e) :
      Wrote w data address (.error (.refused e), w)
  /-- The file takes the bytes, and the count has no room for the call. -/
  | uncounted (image : Image) (h_write : w.file.write address data = .ok { w.file with image })
      (h_full : Word.limit ≤ w.unsynced + 1) :
      Wrote w data address (.error (.fault .addOverflow), { w with file := { w.file with image } })
  /-- The file takes the bytes and is not to be made durable yet. -/
  | counted (image : Image) (h_write : w.file.write address data = .ok { w.file with image })
      (h_room : w.unsynced + 1 < Word.limit) (h_due : w.strategy.isDue (w.unsynced + 1) = false) :
      Wrote w data address
        (.ok (), { w with file := { w.file with image }, unsynced := w.unsynced + 1 })
  /-- The file takes the bytes and is made durable. -/
  | synced (image : Image) (h_write : w.file.write address data = .ok { w.file with image })
      (h_room : w.unsynced + 1 < Word.limit) (h_due : w.strategy.isDue (w.unsynced + 1) = true)
      (h_sync : w.file.syncAnswer = .ok ()) :
      Wrote w data address
        (.ok (), { w with file := { w.file with image, syncs := w.file.syncs.tail }, unsynced := 0 })
  /-- The file takes the bytes, and the fsync fails. The call stays counted. -/
  | missed (image : Image) (e : IoError)
      (h_write : w.file.write address data = .ok { w.file with image })
      (h_room : w.unsynced + 1 < Word.limit) (h_due : w.strategy.isDue (w.unsynced + 1) = true)
      (h_sync : w.file.syncAnswer = .error e) :
      Wrote w data address (.error (.refused e),
        { w with
          file := { w.file with image, syncs := w.file.syncs.tail }, unsynced := w.unsynced + 1 })

/-- An fsync that succeeds clears the counter. -/
theorem sync_of_ok (h : w.file.syncAnswer = .ok ()) :
    w.sync = (.ok (), { w with file := { w.file with syncs := w.file.syncs.tail }, unsynced := 0 }) := by
  rw [sync, File.sync, h]

/-- An fsync that fails leaves the counter. -/
theorem sync_of_error {e : IoError} (h : w.file.syncAnswer = .error e) :
    w.sync = (.error e, { w with file := { w.file with syncs := w.file.syncs.tail } }) := by
  rw [sync, File.sync, h]

/-- **What a call to a file does.** -/
theorem wrote (w : FileWriter) (data : Bytes) (address : Nat) (hint : Int32) :
    Wrote w data address (w.write data address hint) := by
  rw [write]
  split
  · -- the device refuses: nothing is counted
    next e h_write => exact .refused e h_write
  · next file h_write =>
    obtain ⟨image, rfl⟩ : ∃ image, file = { w.file with image } := ⟨_, File.eq_of_write h_write⟩
    split
    · next broken h_add =>
      -- the counter is full: the bytes are written and not counted
      obtain ⟨rfl, h_full⟩ := Word.add_eq_error.1 h_add
      exact .uncounted image h_write h_full
    · next unsynced h_add =>
      obtain ⟨h_room, rfl⟩ := Word.add_eq_ok.1 h_add
      by_cases h_due : w.strategy.isDue (w.unsynced + 1) = true
      · -- how the next fsync ends does not depend on the bytes
        rw [if_pos h_due]
        cases h_sync : w.file.syncAnswer with
        | ok =>
          rw [sync_of_ok (w := ⟨{ w.file with image }, w.strategy, w.unsynced + 1⟩) h_sync]
          exact .synced image h_write h_room h_due h_sync
        | error e =>
          rw [sync_of_error (w := ⟨{ w.file with image }, w.strategy, w.unsynced + 1⟩) h_sync]
          exact .missed image e h_write h_room h_due h_sync
      · rw [if_neg h_due]
        exact .counted image h_write h_room (Bool.eq_false_iff.2 h_due)

/-- **What a call does to the bytes of a disk**: it writes them, or it is refused and leaves everything as
it is. -/
theorem image_of_write (h_disk : w.file.backing = .disk)
    (h : w.write data address hint = (outcome, w')) :
    w'.file.backing = .disk ∧
      (writeAt w.image address data = .ok w'.image ∨ w' = w ∧ ∃ e, outcome = .error (.refused e)) := by
  have h_wrote := wrote w data address hint
  rw [h] at h_wrote
  cases h_wrote with
  | refused e h_write => exact ⟨h_disk, .inr ⟨rfl, e, rfl⟩⟩
  | uncounted image h_write | counted image h_write | synced image h_write | missed image e h_write =>
    exact ⟨h_disk, .inl (File.writeAt_of_write h_disk h_write)⟩

/-- A writer stays on the device that it was opened on. -/
theorem backing_write (h_disk : w.file.backing = .disk) (data : Bytes) (address : Nat) (hint : Int32) :
    (w.write data address hint).2.file.backing = .disk :=
  (image_of_write h_disk (Prod.eta (w.write data address hint)).symm).1

end FileWriter

end GroupCommit
