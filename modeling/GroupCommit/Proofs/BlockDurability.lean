import GroupCommit.Proofs.Log.Answers
import GroupCommit.Proofs.Writer.Block

/-!
# Durability on a block device

A block device fills up the last block of every call with zeros, over addresses that may belong to other
slots, to another commit or to the rest of an open generation. No record that has been acknowledged is
ever harmed by that, whatever the sizes of slots and blocks are and whichever calls fail: those that do
not begin at the start of a block, those whose fsync fails, and any others.

Calls that a disk takes begin at the start of a block. So if the zeros of one come to lie in a block into
which another one has written, then both have written the first address of that block, and
the later call has written over all of the earlier one (`Run.covers_of_meets`): its bytes, not its
zeros. As far as calls have written, the device therefore holds what the journal replays
(`Run.Replayed`).

* `Write.Reaches`, `Run.OnDevice`: how far a call reaches, and runs for which the device is large enough.
* `block_commit_durable`: the bytes of a record on the device, and the later calls that reach them.
-/

namespace GroupCommit.Log

/-! ### Calls in blocks -/

/-- The call reaches this address on a device with blocks of `2 ^ bits` bytes, with its bytes or with the
zeros behind them. -/
def Write.Reaches (bits : Nat) (w : Write) (a : Nat) : Prop :=
  w.address ≤ a ∧ a < w.address + BlockWriter.reach bits w.data.length

namespace Write

variable {bits a : Nat} {v w : Write}

/-- A call reaches what it covers. -/
theorem Covers.reaches (h : w.Covers a) (bits : Nat) : w.Reaches bits a :=
  ⟨h.1, h.2.trans_le (Nat.add_le_add_left (BlockWriter.le_reach bits _) _)⟩

/-- A call that reaches into a block writes its first address. -/
theorem Reaches.covers_first (h : w.Reaches bits a) (h_aligned : 2 ^ bits ∣ w.address) :
    w.Covers (2 ^ bits * (a / 2 ^ bits)) :=
  BlockWriter.first_of_reach h_aligned h.1 h.2

end Write

section Reach

variable {W : Type} [Writer W] {r : Run W} {bits a : Nat} {v w : Write}

/-- **No zeros on written bytes.** When two calls have returned that begin at the start of a block, then
the later one reaches what the earlier one covers with its own bytes only. -/
theorem Run.covers_of_reaches (h_fits : r.Fits) {o o' : Except (Stop IoError) Unit}
    (h_sub : [.returned v o, .returned w o'].Sublist r.journal)
    (hv_aligned : 2 ^ bits ∣ v.address) (hw_aligned : 2 ^ bits ∣ w.address) (hv : v.Covers a)
    (hw : w.Reaches bits a) : w.Covers a :=
  r.covers_of_meets h_fits h_sub ((hv.reaches bits).covers_first hv_aligned)
    (hw.covers_first hw_aligned) hv

end Reach

/-! ### The device of a run -/

namespace Run

variable {r r' r₁ r₂ : Run BlockWriter} {e : Event Task Verdict} {w : Write} {a : Nat}

/-- The log is on a disk that has offsets for all addresses that are reserved in the run: they stay below
two to the power of 63. -/
structure OnDevice (r : Run BlockWriter) : Prop where
  disk : r.writer.device.backing = .disk
  offsets : r.writer.baseBlock * 2 ^ r.writer.bits + (Journal.content r.journal).length < seekLimit

/-- A later run began with the same writer. -/
theorem Before.writer_eq (h : r.Before r') : r.writer = r'.writer := by
  rw [← (create_ok r.created).writer_eq, h.log, (create_ok r'.created).writer_eq]

/-- What a run has room for on the device, the earlier part of it has room for. -/
theorem Before.onDevice (h : r.Before r') (h_device : r'.OnDevice) : r.OnDevice := by
  obtain ⟨K, h_eq⟩ := h.journal
  obtain ⟨h_disk, h_offsets⟩ := h_device
  rw [h_eq, Journal.content_append, List.length_append, ← h.writer_eq] at h_offsets
  rw [← h.writer_eq] at h_disk
  exact ⟨h_disk, by omega⟩

/-- A ring takes up half of the address space at most, as its sizes are powers of two. -/
theorem gap_le (r : Run BlockWriter) : r.config.slotCapacity * r.config.ringSize ≤ seekLimit := by
  have h_room := (create_ok r.created).room
  obtain ⟨c, hc⟩ := r.log.geometry.capacity_pow
  obtain ⟨s, hs⟩ := r.log.geometry.ringSize_pow
  rw [← r.capacity_eq, ← r.ringSize_eq]
  rw [hc, hs, ← Nat.pow_add, show Word.limit = 2 ^ 64 from rfl,
    Nat.pow_lt_pow_iff_right (by decide)] at h_room
  rw [hc, hs, ← Nat.pow_add, show seekLimit = 2 ^ 63 from rfl]
  exact Nat.pow_le_pow_right (by decide) (by omega)

/-- A device that has the offsets leaves room for another generation of every slot. -/
theorem OnDevice.fits (h : r.OnDevice) : r.Fits := by
  have h_gap := r.gap_le
  have h_limit : seekLimit + seekLimit = Word.limit := rfl
  have h_offsets := h.offsets
  rw [Fits]
  omega

/-- A call that has returned begins at an offset that the device has. -/
theorem OnDevice.room (h : r.OnDevice) {outcome : Except (Stop IoError) Unit}
    (hw : .returned w outcome ∈ r.journal) : r.writer.origin + w.address < seekLimit := by
  obtain ⟨P, hm, -⟩ := r.exists_matches h.fits r.within_all
  have h_started := r.started_of_returned hw
  rw [← hm.journal] at h_started
  have h_le := hm.inv.account.stop_le_of_started h_started
  rw [Account.content, hm.journal, Write.stop] at h_le
  have h_offsets := h.offsets
  rw [BlockWriter.origin]
  omega

/-- A call that returns last returns after every earlier one. -/
theorem sublist_returned {J K : Journal} {v w : Write} {o o' : Except (Stop IoError) Unit}
    (hv : .returned v o ∈ J) (h_journal : K = J ++ [.returned w o']) :
    [.returned v o, .returned w o'].Sublist K := by
  rw [h_journal]
  exact (List.singleton_sublist.2 hv).append (List.Sublist.refl _)

/-- As far as calls have written, the device holds what the journal replays. -/
structure Replayed (r : Run BlockWriter) : Prop where
  bits_eq : r.machine.state.writer.bits = r.writer.bits
  baseBlock_eq : r.machine.state.writer.baseBlock = r.writer.baseBlock
  backing_eq : r.machine.state.writer.device.backing = r.writer.device.backing
  aligned : ∀ w, .returned w (.ok ()) ∈ r.journal → 2 ^ r.writer.bits ∣ w.address
  read_eq : ∀ a b, r.journal.replay a = some b →
    r.machine.state.writer.image.read (r.writer.origin + a) = b

/-- The origin of the log on the device never moves. -/
theorem Replayed.origin_eq (h : Replayed r) : r.machine.state.writer.origin = r.writer.origin := by
  rw [BlockWriter.origin, h.bits_eq, h.baseBlock_eq, BlockWriter.origin]

/-- Nothing is written, and no success is noted. -/
theorem Replayed.kept (h : Replayed r₁) (h_next : r₁.Next e r₂)
    (h_writer : r₂.machine.state.writer = r₁.machine.state.writer)
    (h_notes : ∀ w, .returned w (.ok ()) ∉ notes r₁.machine e) : Replayed r₂ := by
  have h_same := h_next.before.writer_eq
  refine ⟨?_, ?_, ?_, fun w hw => ?_, fun a b hb => ?_⟩
  · rw [h_writer, h.bits_eq, h_same]
  · rw [h_writer, h.baseBlock_eq, h_same]
  · rw [h_writer, h.backing_eq, h_same]
  · rw [h_next.journal] at hw
    rw [← h_same]
    exact h.aligned w ((List.mem_append.1 hw).resolve_right (h_notes w))
  · rw [h_next.journal] at hb
    rw [h_writer, ← h_same]
    exact h.read_eq a b (Journal.of_replay_append h_notes hb)

/-- The blocks of a call are set, whether the call succeeds or not. -/
theorem Replayed.set (h : Replayed r₁) (h_next : r₁.Next e r₂) (h_fits : r₂.Fits)
    {outcome : Except (Stop IoError) Unit} (h_notes : notes r₁.machine e = [.returned w outcome])
    (h_sets : BlockWriter.Sets r₁.machine.state.writer r₂.machine.state.writer w.data w.address) :
    Replayed r₂ := by
  have h_same := h_next.before.writer_eq
  have h_journal : r₂.journal = r₁.journal ++ [.returned w outcome] := h_notes ▸ h_next.journal
  obtain ⟨h_aligned, h_bits, h_base, h_backing, h_read⟩ := h_sets
  rw [h.bits_eq] at h_aligned h_read h_bits
  rw [h.baseBlock_eq] at h_base
  rw [h.backing_eq] at h_backing
  rw [h.origin_eq] at h_read
  -- the call that sets the bytes was aligned, as were the earlier ones
  have h_all : ∀ v, .returned v (.ok ()) ∈ r₂.journal → 2 ^ r₂.writer.bits ∣ v.address := by
    intro v hv
    rw [← h_same]
    rw [h_journal] at hv
    rcases List.mem_append.1 hv with hv | hv
    · exact h.aligned v hv
    · cases List.mem_singleton.1 hv
      exact h_aligned
  refine ⟨h_same ▸ h_bits, h_same ▸ h_base, h_same ▸ h_backing, h_all, fun a b hb => ?_⟩
  rw [← h_same, h_read a]
  rw [h_journal, Journal.replay_concat] at hb
  by_cases h_covers : w.Covers a
  · -- the last call has written the byte itself
    rw [if_pos (show _ ∧ _ from h_covers.reaches _)]
    exact Note.replay_of_covers h_covers hb
  · rw [Note.replay_of_not_covers h_covers] at hb
    -- some earlier call has written the byte, so the zeros of this one do not reach it
    have h_beyond : ¬ w.Reaches r₁.writer.bits a := by
      intro h_reaches
      obtain ⟨v, hv, hv_covers⟩ := Journal.exists_returned hb
      exact h_covers (covers_of_reaches h_fits (sublist_returned hv h_journal)
        (h.aligned v hv) h_aligned hv_covers h_reaches)
    rw [if_neg (show ¬ (_ ∧ _) from h_beyond)]
    exact h.read_eq a b hb

/-- A call to the Writer sets its blocks, or it fails and changes nothing. -/
theorem Replayed.asked (h : Replayed r₁) (h_next : r₁.Next e r₂) (h_device : r₂.OnDevice)
    {outcome : Except (Stop IoError) Unit}
    (h_write : r₁.machine.state.writer.write w.data w.address w.hint
      = (outcome, r₂.machine.state.writer))
    (h_notes : notes r₁.machine e = [.returned w outcome]) : Replayed r₂ := by
  have h_same := h_next.before.writer_eq
  -- the device is the disk that the run began with, and the call starts below the limit
  have h_disk : r₁.machine.state.writer.device.backing = .disk := by
    rw [h.backing_eq, h_same, h_device.disk]
  have h_room : r₁.machine.state.writer.origin + w.address < seekLimit := by
    have h_last : .returned w outcome ∈ r₂.journal := by simp [h_next.journal, h_notes]
    rw [h.origin_eq, h_same]
    exact h_device.room h_last
  rcases BlockWriter.sets_of_write h_disk h_write h_room with h_sets | ⟨h_writer, stop, rfl⟩
  · exact h.set h_next h_device.fits h_notes h_sets
  · exact h.kept h_next h_writer (by simp [h_notes])

/-- **The device of a run.** -/
theorem replayed (r : Run BlockWriter) (h_device : r.OnDevice) : Replayed r := by
  refine r.induction (motive := fun r => r.OnDevice → Replayed r) ?_ ?_ h_device
  · intro _
    have h_writer := (create_ok r.created).writer_eq
    exact ⟨congrArg _ h_writer, congrArg _ h_writer, congrArg (·.device.backing) h_writer, nofun, nofun⟩
  · intro r₁ e r₂ h_next _ ih h_device
    have h := ih (h_next.before.onDevice h_device)
    cases written_step h_next.step with
    | kept h_writer h_notes => exact h.kept h_next h_writer h_notes
    | asked w outcome h_write h_notes => exact h.asked h_next h_device h_write h_notes

/-! ### Records -/

/-- What a commit that has returned has left in the journal, then and later. -/
theorem Before.replay_record (h_before : r.Before r') (h_fits : r'.Fits) {i head : Nat}
    {timestamp : UInt64} {payload : Bytes} {hint : Int32}
    (h_call : r.starts[i]? = some (.commit timestamp payload hint))
    (h_returned : r.machine.calls[i]? = some (.finished (.ok (.appended head)))) :
    ∃ record, r.config.recordFormat.encode timestamp payload = .ok record ∧
      ∀ k < record.length, r'.journal.replay (head + k) = some (record.read k) := by
  obtain ⟨P, h, -⟩ := r'.exists_matches h_fits r'.within_all
  obtain ⟨timestamp', payload', hint', record, h_start, h_encode, -, h_replay⟩ :=
    h.appended (h_before.finished h_returned)
  cases (h_before.getElem?_starts h_call).symm.trans h_start
  rw [← h_before.log, r.format_eq] at h_encode
  exact ⟨record, h_encode, h_replay⟩

/-- A call that succeeds after a byte was written writes it anew. -/
theorem covers_of_replay (h_next : r₁.Next e r₂) (h_device : r₂.OnDevice)
    (h_notes : notes r₁.machine e = [.returned w (.ok ())]) {b b' : UInt8}
    (h_before : r₁.journal.replay a = some b) (h_after : r₂.journal.replay a = some b')
    (h_reaches : w.Reaches r₂.writer.bits a) :
    w.Covers a ∧ Bytes.read w.data (a - w.address) = b' := by
  have h_journal : r₂.journal = r₁.journal ++ [.returned w (.ok ())] := h_notes ▸ h_next.journal
  have h_aligned := (r₂.replayed h_device).aligned
  obtain ⟨v, hv, hv_covers⟩ := Journal.exists_returned h_before
  have h_covers : w.Covers a :=
    covers_of_reaches h_device.fits (sublist_returned hv h_journal)
      (h_aligned v (h_next.before.mem_journal hv)) (h_aligned w (by simp [h_journal])) hv_covers
      h_reaches
  rw [h_journal, Journal.replay_concat] at h_after
  exact ⟨h_covers, Note.replay_of_covers h_covers h_after⟩

/-- While a byte stays as it is in the journal, all calls that succeed and reach it write it anew. -/
theorem Before.covers_of_returned (h_before : r.Before r') (h_device : r'.OnDevice) {b : UInt8}
    (h_replay : ∀ r₁, r.Before r₁ → r₁.Before r' → r₁.journal.replay a = some b) :
    ∀ w, .returned w (.ok ()) ∈ r'.journal.drop r.journal.length → w.Reaches r.writer.bits a →
      w.Covers a ∧ Bytes.read w.data (a - w.address) = b := by
  -- by induction on what comes after `r`
  refine h_before.induction (motive := fun r₂ => r₂.Before r' → ∀ w,
    .returned w (.ok ()) ∈ r₂.journal.drop r.journal.length → w.Reaches r.writer.bits a →
      w.Covers a ∧ Bytes.read w.data (a - w.address) = b) ?_ ?_ (.refl r')
  · intro _ w hw
    rw [List.drop_length] at hw
    cases hw
  · intro r₁ e r₂ h₁ h_next _ ih h₂ w hw h_reaches
    have h_before₁ := h_next.before.trans h₂
    obtain ⟨K, h_eq⟩ := h₁.journal
    rw [h_next.journal, List.drop_append_of_le_length (by simp [h_eq])] at hw
    rcases List.mem_append.1 hw with hw | hw
    · exact ih h_before₁ w hw h_reaches
    · cases written_step h_next.step with
      | kept h_writer h_notes => exact absurd hw (h_notes w)
      | asked v outcome h_write h_notes =>
        rw [h_notes] at hw
        cases List.mem_singleton.1 hw
        rw [(h₁.trans h_next.before).writer_eq] at h_reaches
        exact covers_of_replay h_next (h₂.onDevice h_device) h_notes (h_replay r₁ h₁ h_before₁)
          (h_replay r₂ (h₁.trans h_next.before) h₂) h_reaches

end Run

section Later

variable {r r' : Run BlockWriter}

/-- **Durability on a block device.** When a commit has returned an address in the run `r`, its encoded
record lies on the device from there on, in `r` and in every run `r'` that begins with `r`. Every call
that succeeds after `r` and reaches a byte of the record writes this very byte, as one of its own and
not as one of the zeros behind them. -/
theorem block_commit_durable (h_before : r.Before r') (h_device : r'.OnDevice) {i head : Nat}
    {timestamp : UInt64} {payload : Bytes} {hint : Int32}
    (h_call : r.starts[i]? = some (.commit timestamp payload hint))
    (h_returned : r.machine.calls[i]? = some (.finished (.ok (.appended head)))) :
    ∃ record, r.config.recordFormat.encode timestamp payload = .ok record ∧
      r.config.recordFormat.totalLength payload.length = .ok record.length ∧
      r'.machine.state.writer.image.window (r.writer.baseBlock * 2 ^ r.writer.bits + head)
        record.length = record ∧
      ∀ w, .returned w (.ok ()) ∈ r'.journal.drop r.journal.length → ∀ k < record.length,
        w.Reaches r.writer.bits (head + k) →
          w.Covers (head + k) ∧ Bytes.read w.data (head + k - w.address) = record.read k := by
  obtain ⟨record, h_encode, h_replay⟩ := h_before.replay_record h_device.fits h_call h_returned
  refine ⟨record, h_encode, Record.Format.totalLength_of_encode h_encode, ?_, ?_⟩
  · -- what the calls have written, replayed in order, is on the device
    refine Bytes.eq_of_read (Image.length_window _ _ _) fun k hk => ?_
    rw [Image.read_window _ _ hk, Nat.add_assoc, h_before.writer_eq]
    exact (r'.replayed h_device).read_eq _ _ (h_replay k hk)
  · intro w hw k hk
    refine h_before.covers_of_returned h_device (fun r₁ h₁ h₂ => ?_) w hw
    -- in every run in between the record is there, and it is the same one
    obtain ⟨record', h_encode', h_replay'⟩ :=
      h₁.replay_record (h₂.onDevice h_device).fits h_call h_returned
    cases h_encode.symm.trans h_encode'
    exact h_replay' k hk

end Later

/-! ### Two records in one block -/

/-- Two records fill a slot, and eight slots would fill a block. -/
def blockConfig : Config := { smallConfig with minWriteSize := 32 }

/-- A device with blocks of 512 bytes; the log begins at block 3. -/
def blockDevice : BlockWriter := ⟨{}, 9, 3⟩

/-- A log on the device, before any commit. -/
def blockLog : Log BlockWriter where
  config := blockConfig
  allocator := {}
  ring := ⟨smallGeometry, [firstSlot smallGeometry 0], false⟩
  writer := blockDevice
  stats := {}

/-- A run of this log. -/
def Run.onBlocks (events : List (Event Task Verdict))
    (calls : ∀ start, .call start ∈ events → start.IsCommit ∨ start.IsPoison)
    (possible : ((Machine.idle blockLog).steps (program BlockWriter) events).isSome) :
    Run BlockWriter where
  config := blockConfig
  writer := blockDevice
  log := blockLog
  created := rfl
  events
  calls
  machine := Option.get _ possible
  reached := (Option.some_get possible).symm

/-- A commit fills half of the slot, writes that when its deadline passes and returns. -/
def halfCommit : List (Event Task Verdict) :=
  [.call (.commit 7 [1, 2, 3] 0), .run 0, .run 0, .run 0, .run 0, .run 0, .expire 0, .run 0,
    .answer 0 .pass, .run 0, .run 0, .run 0]

/-- A second commit fills the slot and writes all of it. -/
def otherCommit : List (Event Task Verdict) :=
  [.call (.commit 8 [4] 0), .run 1, .run 1, .run 1, .run 1, .run 1, .answer 1 .pass, .run 1,
    .run 1, .run 1]

/-- The half makes only calls of the interface. -/
theorem halfCommit_calls (start : Task) (h : .call start ∈ halfCommit) :
    start.IsCommit ∨ start.IsPoison := by
  simp only [halfCommit, List.mem_cons, Event.call.injEq, reduceCtorEq, List.not_mem_nil, or_false]
    at h
  exact .inl ⟨_, _, _, h⟩

/-- So does the rest. -/
theorem otherCommit_calls (start : Task) (h : .call start ∈ otherCommit) :
    start.IsCommit ∨ start.IsPoison := by
  simp only [otherCommit, List.mem_cons, Event.call.injEq, reduceCtorEq, List.not_mem_nil, or_false]
    at h
  exact .inl ⟨_, _, _, h⟩

set_option maxRecDepth 100000 in
/-- A run with the first of these commits. -/
def Run.half : Run BlockWriter := Run.onBlocks halfCommit halfCommit_calls rfl

set_option maxRecDepth 100000 in
/-- The same run, later. -/
def Run.whole : Run BlockWriter :=
  Run.onBlocks (halfCommit ++ otherCommit)
    (fun start h => (List.mem_append.1 h).elim (halfCommit_calls start) (otherCommit_calls start)) rfl

/-- The half comes before the whole. -/
theorem Run.half_before : Run.half.Before Run.whole where
  log := (rfl : blockLog = blockLog)
  events := List.prefix_append halfCommit otherCommit

set_option maxRecDepth 100000 in
/-- The whole run stays within the device. -/
theorem Run.whole_onDevice : Run.whole.OnDevice := by
  refine ⟨rfl, ?_⟩
  decide +kernel

set_option maxRecDepth 100000 in
/-- The second call has written over the first record and the zeros behind it, and the record is still
there. -/
theorem block_commit_durable_whole :
    (BlockWriter.create (.file {}) 9).map (·.withBaseBlock 3) = .ok Run.half.writer ∧
      Run.half.Before Run.whole ∧ Run.whole.OnDevice ∧
      ∃ record w, blockConfig.recordFormat.encode 7 [1, 2, 3] = .ok record ∧
        Run.whole.machine.state.writer.image.window (3 * 2 ^ 9 + 0) record.length = record ∧
        .returned w (.ok ()) ∈ Run.whole.journal.drop Run.half.journal.length ∧
        w.Covers 0 ∧ Bytes.read w.data (0 - w.address) = record.read 0 := by
  have h_call : Run.half.starts[0]? = some (.commit 7 [1, 2, 3] 0) := rfl
  have h_returned : Run.half.machine.calls[0]? = some (.finished (.ok (.appended 0))) := rfl
  obtain ⟨record, h_encode, h_total, h_window, h_later⟩ :=
    block_commit_durable Run.half_before Run.whole_onDevice h_call h_returned
  have h_length : record.length = 32 := by
    have h_eq : blockConfig.recordFormat.totalLength 3 = .ok 32 := rfl
    exact Except.ok.inj (h_total.symm.trans h_eq)
  -- the second commit fills the slot, whose flush writes the first record once more
  obtain ⟨n, w, h_drop, h_address, h_data⟩ : ∃ n w,
      Run.whole.journal.drop Run.half.journal.length = [n, .started w, .returned w (.ok ())] ∧
        w.address = 0 ∧ w.data.length = 64 := ⟨_, _, rfl, rfl, rfl⟩
  have hw : .returned w (.ok ()) ∈ Run.whole.journal.drop Run.half.journal.length := by
    simp [h_drop]
  have h_covers : w.Covers 0 := by
    rw [Write.Covers, Write.stop]
    omega
  obtain ⟨-, h_same⟩ := h_later w hw 0 (by omega) (h_covers.reaches 9)
  exact ⟨rfl, Run.half_before, Run.whole_onDevice, record, w, h_encode, h_window, hw, h_covers, h_same⟩

end GroupCommit.Log
