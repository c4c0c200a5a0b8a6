import GroupCommit.Proofs.Log.Run
import GroupCommit.Proofs.Protocol.Resting
import GroupCommit.Proofs.Writer.Medium

/-!
# Durability

When a commit returns the address of its record, the record is on the medium, and it stays there. It
does not matter who wrote it: the call itself or another one, with a full flush, with one of several
early flushes or past the slots, nor what is written to the same slot or fails later on.

The invariant says of every portion that is done, and of every middle, that the last successful call
over each of its addresses wrote the byte of the record. As the invariant holds in every state of a
run, so it does in every later one.

* `Matches.appended`: a commit that has returned, in terms of the journal.
* `commit_durable`: the bytes of its record on the medium, then and later.
-/

namespace GroupCommit.Log

variable {W : Type}

/-- **A commit that has returned.** Its record was reserved where it says, and the calls to the Writer have
left each byte of it. -/
theorem Matches.appended {g : Geometry} {format : Record.Format} {starts : List Task}
    {m : Machine (Log W) Task Result} {J : Journal} {P : Picture}
    (h : Matches g format starts m J P) {i head : Nat}
    (h_returned : m.calls[i]? = some (.finished (.ok (.appended head)))) :
    ∃ timestamp payload hint record, starts[i]? = some (.commit timestamp payload hint) ∧
      format.encode timestamp payload = .ok record ∧ .reserved ⟨i, head, record⟩ ∈ J ∧
      ∀ k < record.length, J.replay (head + k) = some (record.read k) := by
  obtain ⟨start, v, h_start, hv, h_stands⟩ := h.exists_view h_returned
  cases h_stands with
  | stopped h_result => cases h_result
  | @appended w h_done =>
    -- the call is done with its record, so all of it is durable
    have h_work : WorkInv g P i w := h.inv.call i _ hv
    obtain ⟨record, h_mem, h_cut⟩ := h_work.cut
    have h_account := h.inv.account
    obtain ⟨timestamp, payload, hint, h_start, h_encode⟩ := h.reserved _ (h.journal ▸ h_mem)
    refine ⟨timestamp, payload, hint, record, h_start, h_encode, h.journal ▸ h_mem, fun k hk => ?_⟩
    obtain ⟨-, h_replay⟩ := h_work.durable (a := w.entry.span.head + k) h_done h_cut (by omega)
      (by omega)
    rw [h.journal] at h_replay
    rw [h_replay, h_account.read_content h_mem (by omega) (by omega), Nat.add_sub_cancel_left]

section Later

variable [Writer W] {r r' : Run W}

/-- A call that has returned stays so. -/
theorem Run.Before.finished (h : r.Before r') {i : Nat} {result : Result}
    (h_returned : r.machine.calls[i]? = some (.finished result)) :
    r'.machine.calls[i]? = some (.finished result) := by
  obtain ⟨more, h_events⟩ := h.events
  have h_reached := r'.reached
  rw [← h_events, ← h.log, Machine.steps_append, r.reached] at h_reached
  exact Machine.steps_finished h_reached h_returned

/-- A later run has made the same calls and perhaps more. -/
theorem Run.Before.getElem?_starts (h : r.Before r') {i : Nat} {start : Task}
    (h_start : r.starts[i]? = some start) : r'.starts[i]? = some start := by
  obtain ⟨more, h_events⟩ := h.events
  obtain ⟨h_lt, -⟩ := List.getElem?_eq_some_iff.1 h_start
  rw [Run.starts, ← h_events, List.flatMap_append]
  exact (List.getElem?_append_left h_lt).trans h_start

variable [Medium W]

/-- **Durability before return, and for good.** When a commit has returned an address in the run `r`,
its encoded record lies on the medium from there on, in `r` and in every run `r'` that begins with
`r`. -/
theorem commit_durable (h_before : r.Before r') (h_fits : r'.Fits) {i head : Nat}
    {timestamp : UInt64} {payload : Bytes} {hint : Int32}
    (h_call : r.starts[i]? = some (.commit timestamp payload hint))
    (h_returned : r.machine.calls[i]? = some (.finished (.ok (.appended head)))) :
    ∃ record, r.config.recordFormat.encode timestamp payload = .ok record ∧
      r.config.recordFormat.totalLength payload.length = .ok record.length ∧
      Medium.bytes r'.machine.state.writer head record.length = record := by
  -- the invariant is looked at in the later run, where the call has still returned
  obtain ⟨P, h, -⟩ := r'.exists_matches h_fits r'.within_all
  obtain ⟨timestamp', payload', hint', record, h_start, h_encode, -, h_replay⟩ :=
    h.appended (h_before.finished h_returned)
  cases (h_before.getElem?_starts h_call).symm.trans h_start
  rw [← h_before.log, r.format_eq] at h_encode
  -- what the calls have written, replayed in order, is on the medium
  refine ⟨record, h_encode, Record.Format.totalLength_of_encode h_encode, Medium.bytes_eq ?_⟩
  exact fun k hk => read_journal r'.reached (h_replay k hk)

end Later

set_option maxRecDepth 100000 in
/-- The first record is still there when writing over its slot has failed. -/
theorem commit_durable_second :
    Run.first.Before Run.second ∧ Run.second.Fits ∧
      ∃ record, smallConfig.recordFormat.encode 7 [1, 2, 3] = .ok record ∧
        Medium.bytes Run.second.machine.state.writer 0 record.length = record := by
  have h_call : Run.first.starts[0]? = some (.commit 7 [1, 2, 3] 0) := rfl
  have h_returned : Run.first.machine.calls[0]? = some (.finished (.ok (.appended 0))) := rfl
  obtain ⟨record, h_encode, -, h_bytes⟩ :=
    commit_durable Run.first_before Run.second_fits h_call h_returned
  exact ⟨Run.first_before, Run.second_fits, record, h_encode, h_bytes⟩

end GroupCommit.Log
