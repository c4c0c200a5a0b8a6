import GroupCommit.Proofs.Log.SlotHistory

/-!
# Padding and alignment

A record is padded to the least number of whole chunks that is large enough, and a slot holds sixty-four
chunks. In every run of a log everything then is in whole chunks: what is reserved, what is copied into
the slots and what is written. So no generation takes in more than sixty-four pieces.

No room has to be left in the address space for that.

* `Run.chunked`: the log and its calls work in chunks.
* `Run.chunked_journal`, `Run.tally`: what is noted of them, and what is filled into a slot.
* `padded_and_aligned`: the theorem.
-/

namespace GroupCommit

/-! ### Sizes -/

/-- A slot holds sixty-four chunks. -/
theorem Config.chunkSize_eq {c : Config} (h : c.validate = .ok ()) :
    c.chunkSize = c.slotCapacity / 64 ∧ c.chunkSize * 64 = c.slotCapacity := by
  have h_slots : c.slotCapacity.isPowerOfTwo ∧ 64 ≤ c.slotCapacity := by
    rw [Config.validate] at h
    split at h
    · cases h
    · next h_valid =>
      rw [not_or, not_not, Nat.not_lt] at h_valid
      exact h_valid
  obtain ⟨⟨k, h_pow⟩, h_le⟩ := h_slots
  -- a power of two of at least sixty-four is a multiple of it
  have h_six : 6 ≤ k := (Nat.pow_le_pow_iff_right (by decide : 1 < 2)).1 (h_pow ▸ h_le)
  have h_dvd : 64 ∣ c.slotCapacity := h_pow ▸ Nat.pow_dvd_pow 2 h_six
  have h_pos : 1 ≤ c.slotCapacity / 64 := Nat.div_pos h_le (by decide)
  have h_eq : c.chunkSize = c.slotCapacity / 64 := Nat.max_eq_left h_pos
  exact ⟨h_eq, h_eq ▸ Nat.div_mul_cancel h_dvd⟩

/-- There is a whole number of slots in the address space. -/
theorem Geometry.capacity_dvd_limit (g : Geometry) (h : g.capacity < Word.limit) :
    g.capacity ∣ Word.limit := by
  obtain ⟨k, h_pow⟩ := g.capacity_pow
  rw [h_pow] at h ⊢
  have h_limit : Word.limit = 2 ^ 64 := rfl
  rw [h_limit] at h ⊢
  exact Nat.pow_dvd_pow 2 ((Nat.pow_lt_pow_iff_right (by decide : 1 < 2)).1 h).le

namespace Log

variable {W : Type} [Writer W] {r r₁ r₂ : Run W} {c i k : Nat} {status : Status Task Result}
  {o : Move Task Result × Log W} {ev : Event Task Verdict}

/-! ### Runs in chunks -/

/-- A call begins with nothing of its own to align. -/
theorem chunked_of_start {start : Task} (h : start.IsCommit ∨ start.IsPoison) : start.Chunked c := by
  rcases h with ⟨timestamp, payload, hint, rfl⟩ | ⟨reason, rfl⟩ <;> exact trivial

namespace Run

/-- The capacity of a slot fits a word. -/
theorem capacity_lt (r : Run W) : r.log.geometry.capacity < Word.limit :=
  (Nat.le_mul_of_pos_right _ r.log.geometry.ringSize_pos).trans_lt (create_ok r.created).room

/-- A slot is a whole number of chunks. -/
theorem chunkSize_dvd_capacity (r : Run W) : r.config.chunkSize ∣ r.log.geometry.capacity := by
  rw [r.capacity_eq, ← (Config.chunkSize_eq (create_ok r.created).valid).2]
  exact Nat.dvd_mul_right _ _

/-- Where a slot comes from that is there at the beginning. -/
theorem slot_start (r : Run W) {s : Slot} (hs : r.log.ring.slots[k]? = some s) :
    s = firstSlot r.log.geometry k := by
  have h_slots : r.log.ring.slots = (List.range r.log.geometry.ringSize).map (firstSlot r.log.geometry) :=
    ((create_ok r.created).picture ⟨true, true⟩).slots
  rw [h_slots, List.getElem?_map] at hs
  obtain ⟨k', hk', rfl⟩ := Option.map_eq_some_iff.1 hs
  obtain ⟨h_lt, rfl⟩ := List.getElem?_eq_some_iff.1 hk'
  rw [List.getElem_range]

/-- A log just created stands at a chunk. -/
theorem aligned_start (r : Run W) : Aligned r.config.chunkSize r.log := by
  have h_capacity := r.chunkSize_dvd_capacity
  constructor
  case chunkSize => exact congrArg Record.Format.chunkSize r.format_eq
  case capacity => exact h_capacity
  case limit => exact h_capacity.trans (r.log.geometry.capacity_dvd_limit r.capacity_lt)
  case room => exact r.capacity_lt.le
  case position =>
    rw [((create_ok r.created).picture ⟨true, true⟩).position]
    exact Nat.dvd_zero _
  case slot =>
    intro k s hs
    rw [r.slot_start hs]
    exact ⟨h_capacity, h_capacity.mul_right _, h_capacity.mul_left k, Nat.dvd_zero _⟩

/-- At its deadline a call looks after its ticket, and goes on as before. -/
theorem chunked_late (r : Run W) {wake late : Task}
    (hi : r.machine.calls[i]? = some (.parked k wake (some late))) (h : wake.Chunked c) :
    late.Chunked c := by
  obtain ⟨task, next, rfl, h_late, -⟩ := r.blocked i k wake _ hi
  cases task <;> cases h_late
  exact ⟨slotTaskChunked_of rfl, h.2⟩

/-- **Every event keeps to chunks.** -/
theorem chunked_acts (h_log : Aligned c r.machine.state) (h_status : Status.Chunked c status)
    (h_acts : Machine.Acts (program W) r.machine ev i status o) :
    Aligned c o.2 ∧ ∀ status', o.1.Leads status' → Status.Chunked c status' := by
  cases h_acts with
  | run hi => exact ⟨aligned_run h_log h_status, fun _ => chunked_run h_log h_status⟩
  | expire hi =>
    have h_late := r.chunked_late hi h_status
    exact ⟨aligned_run h_log h_late, fun _ => chunked_run h_log h_late⟩
  | answer hi => exact ⟨aligned_answered h_log, fun _ => chunked_answered h_status⟩

/-- **A run works in chunks**, the log and every call on it. -/
theorem chunked (r : Run W) : Aligned r.config.chunkSize r.machine.state ∧
    ∀ (i : Nat) status, r.machine.calls[i]? = some status → Status.Chunked r.config.chunkSize status := by
  generalize h_chunk : r.config.chunkSize = c
  refine r.induction (motive := fun r₁ => Aligned c r₁.machine.state ∧
    ∀ (i : Nat) status, r₁.machine.calls[i]? = some status → Status.Chunked c status) ?_ ?_
  · -- by induction on the run: the log and all tasks are aligned together
    refine ⟨h_chunk ▸ r.aligned_start, fun i status hi => ?_⟩
    cases (r.getElem?_calls_start i).symm.trans hi
  · rintro r₁ ev r₂ h_next - ⟨h_log, h_calls⟩
    constructor
    · rcases Machine.step_cases h_next.step with ⟨start, -, h_eq⟩ | ⟨i, status, o, h_acts, h_stepped⟩
      · rw [h_eq]
        exact h_log
      · rw [h_stepped.state]
        exact (chunked_acts h_log (h_calls i status h_acts.before) h_acts).1
    · intro j status' hj
      cases Machine.came h_next.step hj with
      | made start => exact chunked_of_start h_next.begins
      | stepped h_acts h_stepped h_leads =>
        exact (chunked_acts h_log (h_calls j _ h_acts.before) h_acts).2 _ h_leads
      | remained hj h_remains => exact (h_calls j _ hj).remains h_remains

end Run

/-! ### Journals in chunks -/

/-- The note is about chunks. -/
def Note.Chunked (c : Nat) : Note → Prop
  | .reserved x => c ∣ x.head ∧ c ∣ x.record.length
  | .started w => c ∣ w.address ∧ c ∣ w.data.length
  | .returned w _ => c ∣ w.address ∧ c ∣ w.data.length

/-- What a task writes begins and ends at chunks. -/
theorem Task.Chunked.write {t : Task} {w : Write} (h : t.Chunked c) (hw : t.write? i = some w) :
    c ∣ w.address ∧ c ∣ w.data.length := by
  cases t <;> cases hw
  · exact h.1
  · exact ⟨h.1.start, h.1.direct⟩

omit [Writer W] in
/-- A step inside the program notes nothing that is not aligned. -/
theorem chunked_runNotes {log : Log W} {t : Task} (h_log : Aligned c log) (h : t.Chunked c) :
    ∀ n ∈ runNotes log i t, n.Chunked c := by
  intro n hn
  unfold runNotes at hn
  split at hn
  · rw [List.mem_singleton.1 hn]
    exact ⟨h_log.position, h⟩
  · rw [Option.mem_toList, Option.map_eq_some_iff] at hn
    obtain ⟨w, hw, rfl⟩ := hn
    exact Task.Chunked.write h hw

/-- An answer notes the call that it answers, which was aligned. -/
theorem chunked_answerNotes {log : Log W} {t : Task} {verdict : Verdict} (h : t.Chunked c) :
    ∀ n ∈ answerNotes log i verdict t, n.Chunked c := by
  intro n hn
  rw [answerNotes, Option.mem_toList, Option.map_eq_some_iff] at hn
  obtain ⟨w, hw, rfl⟩ := hn
  exact Task.Chunked.write h hw

/-- **The journal of a run is about chunks.** -/
theorem Run.chunked_journal (r : Run W) : ∀ n ∈ r.journal, n.Chunked r.config.chunkSize := by
  generalize h_chunk : r.config.chunkSize = c
  refine r.induction (motive := fun r₁ => ∀ n ∈ r₁.journal, n.Chunked c) (fun n hn => by cases hn) ?_
  intro r₁ ev r₂ h_next h_before ih n hn
  obtain ⟨h_log, h_calls⟩ := r₁.chunked
  rw [(h_next.before.trans h_before).config_eq, h_chunk] at h_log h_calls
  rw [h_next.journal] at hn
  rcases List.mem_append.1 hn with h_old | h_new
  · exact ih n h_old
  · rcases Machine.step_cases h_next.step with ⟨start, rfl, -⟩ | ⟨i, status, o, h_acts, -⟩
    · cases h_new
    · -- the notes of an event are those of the task that it lets act
      have h_status := h_calls i status h_acts.before
      cases h_acts with
      | run hi =>
        rw [notes_run hi] at h_new
        exact chunked_runNotes h_log h_status n h_new
      | expire hi => cases h_new
      | answer hi =>
        rw [notes_answer hi] at h_new
        exact chunked_answerNotes h_status n h_new

/-! ### Slots in chunks -/

/-- **What is filled on a slot of a log.** -/
theorem Run.tally (r : Run W) (k : Nat) :
    Tally r.log.geometry r.config.chunkSize k r.machine.state (r.slotHistory k) := by
  generalize h_chunk : r.config.chunkSize = c
  generalize h_geometry : r.log.geometry = g
  -- by induction on the run; an event notes nothing on the slot but the fills of a step there
  refine r.induction (motive := fun r₁ => Tally g c k r₁.machine.state (r₁.slotHistory k)) ?_ ?_
  · have hs : ∀ s, r.start.machine.state.ring.slots[k]? = some s → s = firstSlot g k :=
      fun s hs => h_geometry ▸ r.slot_start hs
    refine ⟨?_, fun _ => rfl, ?_, ?_, fun s _ => .empty s⟩
    · exact fun fill h_mem => by cases h_mem
    · exact fun s h_some => congrArg Slot.gap (hs s h_some)
    · exact fun s h_some => congrArg Slot.capacity (hs s h_some)
  · intro r₁ ev r₂ h_next h_before ih
    obtain ⟨-, h_calls⟩ := r₁.chunked
    rw [(h_next.before.trans h_before).config_eq, h_chunk] at h_calls
    rw [h_next.slotHistory]
    rcases Machine.step_cases h_next.step with ⟨start, rfl, h_eq⟩ | ⟨i, status, o, h_acts, h_stepped⟩
    · rw [h_eq, slotNotes_call, List.append_nil]
      exact ih
    · rw [h_stepped.state]
      have h_status := h_calls i status h_acts.before
      cases h_acts with
      | run hi =>
        rw [slotNotes_run hi]
        exact ih.run h_status i
      | expire hi =>
        rw [slotNotes_expire hi]
        exact ih.run (r₁.chunked_late hi h_status) i
      | @answer i t verdict hi =>
        have h_ring : (answered t verdict r₁.machine.state).2.ring = r₁.machine.state.ring :=
          ring_answered t verdict _
        rw [slotNotes_answer, List.append_nil]
        exact ih.congr (congrArg (·.slots[k]?) h_ring)

/-! ### The theorem -/

/-- All that is done in a run is done in chunks of `c` bytes, and no generation of a slot takes more than
sixty-four pieces. -/
structure Run.InChunks (r : Run W) (c : Nat) : Prop where
  /-- What is reserved. -/
  reserved : ∀ x, .reserved x ∈ r.journal → c ∣ x.head ∧ c ∣ x.record.length
  /-- What calls are about to copy into a slot, whether it accepts that or not. -/
  copied : ∀ (i k : Nat) task next, r.machine.calls[i]? = some (.ready (.onSlot k task next)) →
    ∀ offset data, task.Copies offset data → c ∣ offset ∧ c ∣ data.length
  /-- What slots have taken. -/
  filled : ∀ k, ∀ fill ∈ (r.slotHistory k).fills, c ∣ fill.offset ∧ c ∣ fill.data.length
  /-- What the Writer is called for. -/
  written : ∀ w, .started w ∈ r.journal → c ∣ w.address ∧ c ∣ w.data.length
  few : ∀ k tag, ((r.slotHistory k).fills.filter fun fill => fill.tag = tag).length ≤ 64

/-- A run works in chunks, with at most sixty-four fills to a generation of a slot. -/
theorem Run.inChunks (r : Run W) : r.InChunks r.config.chunkSize where
  reserved := fun x h_mem => r.chunked_journal _ h_mem
  copied := fun i k task next hi offset data h_copies => by
    have h_chunks := (r.chunked.2 i _ hi).1.1 offset data h_copies
    exact ⟨h_chunks.offset, h_chunks.length⟩
  filled := fun k fill h_mem => by
    have h_chunks := (r.tally k).chunks fill h_mem
    exact ⟨h_chunks.offset, h_chunks.length⟩
  written := fun w h_mem => r.chunked_journal _ h_mem
  few := fun k tag => by
    have h_tally := r.tally k
    cases hs : r.machine.state.ring.slots[k]? with
    | none =>
      rw [h_tally.none hs]
      exact Nat.zero_le _
    | some s =>
      -- as many chunks have room in the slot
      have h_slot := (Config.chunkSize_eq (create_ok r.created).valid).2
      have h_le := (h_tally.filled s hs).chunks_le h_tally.chunks tag
      rw [h_tally.capacity s hs, r.capacity_eq, ← h_slot, Nat.mul_comm] at h_le
      exact Nat.le_of_mul_le_mul_left h_le r.config.recordFormat.chunkSize_pos

/-- **Padding is exact, and everything is aligned.** The length of a record with its padding is the least
number of whole chunks that is large enough, if that is a word, and otherwise the arithmetic faults. It
grows with the payload, and a payload that fills its padding is not padded any further. And in every run of
a log all is done in chunks, of which there are sixty-four to a slot. -/
theorem padded_and_aligned :
    (∀ (format : Record.Format) (payload : Nat), ∃ least,
      IsLeast {n | format.chunkSize ∣ n ∧ max (12 + payload) format.minWriteSize ≤ n} least ∧
      (least < Word.limit → format.totalLength payload = .ok least ∧
        format.totalLength (least - 12) = .ok least) ∧
      (Word.limit ≤ least → ∃ broken, format.totalLength payload = .error broken) ∧
      ∀ shorter, shorter ≤ payload → least < Word.limit →
        ∃ less ≤ least, format.totalLength shorter = .ok less) ∧
    ∀ r : Run W, r.config.chunkSize = r.config.slotCapacity / 64 ∧
      r.config.chunkSize * 64 = r.config.slotCapacity ∧ r.InChunks (r.config.slotCapacity / 64) := by
  constructor
  · intro format payload
    refine ⟨format.paddedLength payload, Record.Format.isLeast_paddedLength payload, ?_,
      Record.Format.totalLength_error, ?_⟩
    · intro h_word
      -- padding fills up to the length itself, so it pads no further
      have h_again : format.paddedLength (format.paddedLength payload - 12) = format.paddedLength payload :=
        Record.Format.paddedLength_padded payload
      refine ⟨Record.Format.totalLength_eq h_word, ?_⟩
      exact (Record.Format.totalLength_eq (h_again.trans_lt h_word)).trans (congrArg Except.ok h_again)
    · intro shorter h_le h_word
      have h_mono : format.paddedLength shorter ≤ format.paddedLength payload :=
        Record.Format.paddedLength_mono h_le
      exact ⟨_, h_mono, Record.Format.totalLength_eq (h_mono.trans_lt h_word)⟩
  · intro r
    obtain ⟨h_eq, h_slot⟩ := Config.chunkSize_eq (create_ok r.created).valid
    exact ⟨h_eq, h_slot, h_eq ▸ r.inChunks⟩

end Log

end GroupCommit
