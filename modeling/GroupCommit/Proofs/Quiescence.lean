import GroupCommit.Proofs.Durability
import GroupCommit.Proofs.Log.Rest

/-!
# The end of a run

When all commits of a run over memory have returned and no call to the Writer has failed, the order in
which the calls made their steps and the deadlines that passed have left no trace. What is left follows
from the addresses that the records were given:

* The records follow one another from address 0 up to the position, and they are the image.
* Every slot waits for the first of its generations that is not reserved to its end. Only the
  generation of the position holds bytes, those that are reserved of it.

* `Quiet`: a run that has come to rest.
* `Settled`, `Quiet.settled`: what is left of it.
* `schedule_independent`: that this depends on nothing but which record was given which addresses.
-/

namespace GroupCommit.Log

/-! ### Runs that have come to rest -/

/-- A run over an empty memory in which all commits have returned, no call to the Writer has failed and
nobody has asked for the log to be poisoned. -/
structure Quiet (r : Run MemoryWriter) : Prop where
  fits : r.Fits
  blank : r.writer.image = .blank
  succeeded : ¬ r.journal.Failed
  unpoisoned : ¬ r.Poisons
  returned : ∀ (i : Nat) status, r.machine.calls[i]? = some status →
    ∃ result, status = .finished result

/-- The commit `i` has returned `head` as the address of its record. -/
def Run.Appended (r : Run MemoryWriter) (i head : Nat) (record : Bytes) : Prop :=
  r.machine.calls[i]? = some (.finished (.ok (.appended head))) ∧
    ∃ timestamp payload hint, r.starts[i]? = some (.commit timestamp payload hint) ∧
      r.config.recordFormat.encode timestamp payload = .ok record

/-- What is left of a run in which the records of `rs` were appended, in the order of their
addresses. -/
structure Settled (r : Run MemoryWriter) (rs : List Reservation) : Prop where
  tiles : Tiles 0 rs
  /-- These are the commits that have succeeded, each of them once. -/
  appended : ∀ i head record, ⟨i, head, record⟩ ∈ rs ↔ r.Appended i head record
  once : (rs.map Reservation.call).Nodup
  position : r.machine.state.position = (rs.flatMap Reservation.record).length
  size : r.machine.state.writer.image.size = r.machine.state.position
  content : r.machine.state.writer.image.content = rs.flatMap Reservation.record
  ring : r.machine.state.ring.slots.length = r.config.ringSize
  slot : ∀ (k : Nat) s, r.machine.state.ring.slots[k]? = some s →
    Settles r.log.geometry r.machine.state.position k s

section Quiet

variable {r : Run MemoryWriter} {P : Picture}

/-- A quiet run is still. -/
theorem Quiet.still (h : Quiet r) : r.Still := ⟨h.succeeded, h.unpoisoned, h.returned⟩

/-- A quiet run has a picture without failures. -/
theorem Quiet.exists_matches (h : Quiet r) :
    ∃ P, Matches r.log.geometry r.log.format r.starts r.machine r.journal P ∧ ¬ P.account.Failed :=
  h.still.exists_matches h.fits

/-- All calls of a quiet run rest. -/
theorem Quiet.resting (h : Quiet r)
    (hm : Matches r.log.geometry r.log.format r.starts r.machine r.journal P)
    (h_clean : ¬ P.account.Failed) : Resting P :=
  h.still.resting hm h_clean

/-- What is reserved is what was appended. -/
theorem Quiet.appended_iff (h : Quiet r)
    (hm : Matches r.log.geometry r.log.format r.starts r.machine r.journal P)
    (h_clean : ¬ P.account.Failed) (i head : Nat) (record : Bytes) :
    ⟨i, head, record⟩ ∈ r.journal.reservations ↔ r.Appended i head record := by
  have h_format := r.format_eq
  rw [Journal.mem_reservations]
  constructor
  · intro h_mem
    obtain ⟨timestamp, payload, hint, h_start, h_encode⟩ := hm.reserved _ h_mem
    refine ⟨?_, timestamp, payload, hint, h_start, h_format ▸ h_encode⟩
    -- the call has a view with this reservation, and all its work is done
    obtain ⟨h_lt, -⟩ := List.getElem?_eq_some_iff.1 h_start
    have hi := List.getElem?_eq_getElem (hm.starts_length ▸ h_lt)
    obtain ⟨result, h_result⟩ := h.returned i _ hi
    rw [h_result] at hi
    obtain ⟨start, v, -, hv, h_stands⟩ := hm.exists_view hi
    have h_view := hm.inv.call i v hv
    rcases h.resting hm h_clean i v hv with rfl | ⟨w, rfl, -⟩
    · rw [← hm.journal] at h_mem
      exact absurd rfl (h_view _ (Journal.mem_reservations.2 h_mem))
    · obtain ⟨record', h_mem', h_cut⟩ := WorkInv.cut h_view
      rw [← hm.journal] at h_mem
      have h_same := hm.inv.account.layout.eq_of_call (Journal.mem_reservations.2 h_mem)
        (Journal.mem_reservations.2 h_mem') rfl
      have h_head : head = w.entry.span.head := congrArg Reservation.head h_same
      cases h_stands with
      | appended h_done => rw [hi, h_head]
  · rintro ⟨h_returned, timestamp, payload, hint, h_start, h_encode⟩
    obtain ⟨timestamp', payload', hint', record', h_start', h_encode', h_mem, -⟩ :=
      hm.appended h_returned
    -- the call has returned the head of its own reservation
    cases h_start.symm.trans h_start'
    rw [h_format, h_encode] at h_encode'
    cases h_encode'
    exact h_mem

/-- Whatever is reserved is durable by now, so the journal replays the records. -/
theorem Quiet.replay (h : Quiet r)
    (hm : Matches r.log.geometry r.log.format r.starts r.machine r.journal P)
    (h_clean : ¬ P.account.Failed) {a : Nat} (ha : a < r.journal.content.length) :
    r.journal.replay a = some (r.journal.content.read a) := by
  rw [← hm.journal] at ha
  obtain ⟨-, h_replay⟩ := hm.inv.durable_of_resting (h.resting hm h_clean) ha
  rw [hm.journal, Account.content, hm.journal] at h_replay
  exact h_replay

/-- The image reaches as far as something is reserved. -/
theorem Quiet.size_image (h : Quiet r)
    (hm : Matches r.log.geometry r.log.format r.starts r.machine r.journal P)
    (h_clean : ¬ P.account.Failed) :
    r.machine.state.writer.image.size = r.journal.content.length := by
  have h_image := image_journal r.reached
  change _ = r.journal.image r.log.writer.image at h_image
  rw [(create_ok r.created).writer_eq, h.blank] at h_image
  rw [h_image]
  refine Nat.le_antisymm ?_ ?_
  · -- no call of the writer went past the end of the log
    refine Journal.size_image_le_iff.2 ⟨Nat.zero_le _, fun w hw => ?_⟩
    have h_le := hm.inv.account.written_le w (hm.journal ▸ hw)
    rwa [Account.content, hm.journal] at h_le
  · -- the last address is written
    rcases Nat.eq_zero_or_pos r.journal.content.length with h_zero | h_pos
    · rw [h_zero]
      exact Nat.zero_le _
    · have h_replay := h.replay hm h_clean (Nat.sub_lt h_pos Nat.one_pos)
      obtain ⟨w, hw, h_covers⟩ := Journal.exists_returned h_replay
      have h_stop := (Journal.size_image_le_iff.1 (le_refl (r.journal.image .blank).size)).2 w hw
      have := h_covers.2
      omega

/-- The image holds the content of the log and nothing else. -/
theorem Quiet.content_image (h : Quiet r)
    (hm : Matches r.log.geometry r.log.format r.starts r.machine r.journal P)
    (h_clean : ¬ P.account.Failed) : r.machine.state.writer.image.content = r.journal.content := by
  refine Bytes.eq_of_read ?_ fun a ha => ?_
  · rw [Image.length_content, h.size_image hm h_clean]
  · rw [Image.read_content]
    exact read_journal r.reached (h.replay hm h_clean ha)

/-- **What is left of a run** that has come to rest. -/
theorem Quiet.settled (h : Quiet r) : Settled r r.journal.reservations := by
  obtain ⟨P, hm, h_clean⟩ := h.exists_matches
  have h_layout := hm.inv.account.layout
  rw [hm.journal] at h_layout
  have h_position : r.machine.state.position = r.journal.content.length := by
    rw [hm.log.position, Account.content, hm.journal]
  refine ⟨h_layout.tiles, h.appended_iff hm h_clean, h_layout.nodup, h_position, ?_, ?_, ?_, ?_⟩
  · rw [h.size_image hm h_clean, h_position]
  · exact h.content_image hm h_clean
  · -- slot by slot, since all calls rest
    rw [hm.log.slots, hm.inv.ring]
    exact r.ringSize_eq
  · intro k s hs
    rw [hm.log.slots] at hs
    rw [hm.log.position]
    exact hm.inv.settles (h.resting hm h_clean) h_clean hs

end Quiet

/-! ### Independence of the schedule -/

/-- In two runs of one configuration the same records were given the same addresses. -/
structure SameRecords (r r' : Run MemoryWriter) : Prop where
  config : r.config = r'.config
  records : ∀ head record, (∃ i, r.Appended i head record) ↔ ∃ i, r'.Appended i head record

/-- Two slots are left in the same state. -/
structure SameSlot (s s' : Slot) : Prop where
  phase : s.phase = s'.phase
  waiters : s.waiters = s'.waiters
  skipped : s.skipped = s'.skipped
  tag : s.tag = s'.tag
  dirty : s.dirty = s'.dirty
  highWater : s.highWater = s'.highWater

/-- Two runs have come to the same end. -/
structure SameEnd (r r' : Run MemoryWriter) : Prop where
  position : r.machine.state.position = r'.machine.state.position
  size : r.machine.state.writer.image.size = r'.machine.state.writer.image.size
  content : r.machine.state.writer.image.content = r'.machine.state.writer.image.content
  slot : ∀ (k : Nat) s s', r.machine.state.ring.slots[k]? = some s →
    r'.machine.state.ring.slots[k]? = some s' → SameSlot s s'

/-- How a slot settles depends on the end of the log only. -/
theorem Settles.same {g : Geometry} {position k : Nat} {s s' : Slot} (h : Settles g position k s)
    (h' : Settles g position k s') : SameSlot s s' := by
  -- there is one least generation
  have h_tag : s.tag = s'.tag := h.tag.unique h'.tag
  have h_dirty : s.dirty = s'.dirty := by rw [h.dirty, h'.dirty, h_tag]
  exact {
    phase := h.phase.trans h'.phase.symm
    waiters := h.waiters.trans h'.waiters.symm
    skipped := h.skipped.trans h'.skipped.symm
    tag := h_tag
    dirty := h_dirty
    highWater := by rw [h.highWater, h'.highWater, h_dirty] }

/-- No record is empty. -/
theorem Settled.record_pos {r : Run MemoryWriter} {rs : List Reservation} (h : Settled r rs) :
    ∀ res ∈ rs, 0 < res.record.length := by
  rintro ⟨i, head, record⟩ h_mem
  obtain ⟨-, timestamp, payload, hint, -, h_encode⟩ := (h.appended i head record).1 h_mem
  rw [Record.Format.length_of_encode h_encode]
  exact Record.Format.paddedLength_pos _

/-- Settled runs with the same records end the same. -/
theorem Settled.sameEnd {r r' : Run MemoryWriter} {rs rs' : List Reservation} (h : Settled r rs)
    (h' : Settled r' rs') (h_same : SameRecords r r') : SameEnd r r' := by
  -- both contents consist of the same records at the same addresses
  have h_content : rs.flatMap Reservation.record = rs'.flatMap Reservation.record := by
    refine h.tiles.flatMap_eq h'.tiles h.record_pos h'.record_pos fun head record => ?_
    simp only [h.appended, h'.appended]
    exact h_same.records head record
  have h_position : r.machine.state.position = r'.machine.state.position :=
    calc r.machine.state.position
        = (rs.flatMap Reservation.record).length := h.position
      _ = (rs'.flatMap Reservation.record).length := by rw [h_content]
      _ = r'.machine.state.position := h'.position.symm
  have h_geometry : r.log.geometry = r'.log.geometry := by
    refine Geometry.eq_of_sizes ?_ ?_
    · rw [r.capacity_eq, r'.capacity_eq, h_same.config]
    · rw [r.ringSize_eq, r'.ringSize_eq, h_same.config]
  refine ⟨h_position, ?_, ?_, fun k s s' hs hs' => ?_⟩
  · rw [h.size, h'.size, h_position]
  · rw [h.content, h'.content, h_content]
  · -- slots are left as geometry and position make them
    have h_settles' := h'.slot k s' hs'
    rw [← h_geometry, ← h_position] at h_settles'
    exact (h.slot k s hs).same h_settles'

/-- **The end of a run does not depend on its schedule.** When all commits have returned and no call to
the Writer has failed, the records lie one after another on the medium, and the slots are as the
position makes them, so another run in which the same records were given the same addresses has come
to the same end. -/
theorem schedule_independent {r : Run MemoryWriter} (h : Quiet r) :
    Settled r r.journal.reservations ∧
      ∀ r' : Run MemoryWriter, Quiet r' → SameRecords r r' → SameEnd r r' :=
  ⟨h.settled, fun _ h' h_same => h.settled.sameEnd h'.settled h_same⟩

set_option maxRecDepth 100000 in
/-- The run with the deadline is quiet. -/
theorem Quiet.hurried : Quiet Run.hurried where
  fits := Run.hurried_fits
  blank := rfl
  succeeded := Run.hurried_still.succeeded
  unpoisoned := Run.hurried_still.unpoisoned
  returned := Run.hurried_still.returned

set_option maxRecDepth 100000 in
/-- So is the run without. -/
theorem Quiet.patient : Quiet Run.patient where
  fits := Run.patient_fits
  blank := rfl
  succeeded := Run.patient_still.succeeded
  unpoisoned := Run.patient_still.unpoisoned
  returned := Run.patient_still.returned

/-- Runs with the same calls and the same results append the same records. -/
theorem sameRecords_of_results {r r' : Run MemoryWriter} (h_config : r.config = r'.config)
    (h_starts : r.starts = r'.starts)
    (h_results : r.machine.calls.map Status.result? = r'.machine.calls.map Status.result?) :
    SameRecords r r' := by
  -- a call has returned iff it has a result
  have h_finished : ∀ {r : Run MemoryWriter} {i : Nat} {result : Result},
      r.machine.calls[i]? = some (.finished result) ↔
        (r.machine.calls.map Status.result?)[i]? = some (some result) := by
    intro r i result
    rw [List.getElem?_map, Option.map_eq_some_iff]
    refine ⟨fun h => ⟨_, h, rfl⟩, fun ⟨status, h, h_result⟩ => ?_⟩
    cases status with
    | finished result' => cases h_result; exact h
    | _ => cases h_result
  refine ⟨h_config, fun head record => exists_congr fun i => ?_⟩
  rw [Run.Appended, Run.Appended, h_finished, h_finished, h_config, h_starts, h_results]

set_option maxRecDepth 100000 in
/-- The same three commits, with a slot that is written at a deadline and without. -/
theorem schedule_independent_hurried : Quiet Run.hurried ∧ Quiet Run.patient ∧
    SameRecords Run.hurried Run.patient ∧ Settled Run.hurried Run.hurried.journal.reservations ∧
      SameEnd Run.hurried Run.patient := by
  have h_same : SameRecords Run.hurried Run.patient := by
    refine sameRecords_of_results (Eq.trans (b := pairConfig) rfl rfl)
      (Eq.trans (b := [callTask 0 8, callTask 1 138, callTask 2 10]) rfl rfl) ?_
    decide +kernel
  obtain ⟨h_settled, h_end⟩ := schedule_independent Quiet.hurried
  exact ⟨Quiet.hurried, Quiet.patient, h_same, h_settled, h_end Run.patient Quiet.patient h_same⟩

end GroupCommit.Log
