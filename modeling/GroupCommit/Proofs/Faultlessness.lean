import GroupCommit.Proofs.Log.Run

/-!
# Commits do not fault

The slots, the cutting of records and the machine words are full of checks that end a call in a fault.
No commit ever fails one of them, in whatever order the calls make their steps, whichever deadlines
pass and whichever calls to the Writer fail. The invariant says of every check who makes it true: a
portion is copied in where nobody has copied before, a block is skipped once and before any byte of it
is copied in, a flush is handed back to the slot that gave it out.

Two kinds of faults are left. A record can be too large for a buffer, and then its commit ends before
anything is reserved. And the Writer may fault itself.

* `commit_faults`: where the fault of a commit comes from.
-/

namespace GroupCommit.Log

section Faults

variable {W : Type} [Writer W]

/-- **No commit fails a check.** A commit that has ended in a fault has not got as far as reserving
addresses, because no buffer could hold its record; or it was its call to the Writer that faulted. -/
theorem commit_faults (r : Run W) (h_fits : r.Fits) {i : Nat} {broken : Fault}
    (h_faulted : r.machine.calls[i]? = some (.finished (.error (.fault broken)))) :
    (∃ timestamp payload hint, r.starts[i]? = some (.commit timestamp payload hint) ∧
      r.config.recordFormat.encode timestamp payload = .error broken ∧
      Word.allocationLimit ≤ r.config.recordFormat.paddedLength payload.length ∧
      (broken = .addOverflow ∨ broken = .mulOverflow ∨ broken = .capacityOverflow) ∧
      ∀ reserved ∈ r.journal.reservations, reserved.call ≠ i) ∨
    ∃ w, w.call = i ∧ .returned w (.error (.fault broken)) ∈ r.journal := by
  obtain ⟨P, h, -⟩ := r.exists_matches h_fits r.within_all
  obtain ⟨start, v, h_start, hv, h_stands⟩ := h.exists_view h_faulted
  -- of all the ways in which a call can have ended, two are faults
  cases h_stands with
  | @unencoded timestamp payload hint _ h_commit h_encode =>
    left
    rw [r.format_eq] at h_encode
    obtain ⟨h_large, h_cause⟩ := Record.Format.encode_error h_encode
    have h_fresh : ViewInv r.log.geometry P i .fresh := h.inv.call i _ hv
    refine ⟨timestamp, payload, hint, h_start.trans (congrArg _ h_commit), h_encode, h_large,
      h_cause, ?_⟩
    rw [← h.journal]
    exact h_fresh
  | crashed h_call h_mem => exact .inr ⟨_, h_call, h_mem⟩
  | stopped h_result => cases h_result

end Faults

/-! ### A record that is too large -/

/-- Records of half the address space, which no buffer can hold. -/
def oversizedConfig : Config := { smallConfig with minWriteSize := 9223372036854775808 }

def oversizedCommit : List (Event Task Verdict) := [.call (.commit 1 [1] 0), .run 0]

/-- A run with one commit of such a record. -/
def Run.oversized : Run MemoryWriter where
  config := oversizedConfig
  writer := {}
  log := { smallLog with config := oversizedConfig }
  created := rfl
  events := oversizedCommit
  calls := by
    intro start h
    simp only [oversizedCommit, List.mem_cons, Event.call.injEq, reduceCtorEq, List.not_mem_nil,
      or_false] at h
    exact .inl ⟨_, _, _, h⟩
  machine := ⟨{ smallLog with config := oversizedConfig },
    [.finished (.error (.fault .capacityOverflow))]⟩
  reached := rfl

/-- Nothing is reserved in this run, so it fits. -/
theorem Run.oversized_fits : Run.oversized.Fits := by
  show _ < _
  decide +kernel

/-- The commit of that run faults, and has reserved nothing. -/
theorem commit_faults_oversized : Run.oversized.Fits ∧
    ∃ timestamp payload hint, Run.oversized.starts[0]? = some (.commit timestamp payload hint) ∧
      oversizedConfig.recordFormat.encode timestamp payload = .error .capacityOverflow ∧
      Word.allocationLimit ≤ oversizedConfig.recordFormat.paddedLength payload.length ∧
      (Fault.capacityOverflow = .addOverflow ∨ Fault.capacityOverflow = .mulOverflow ∨
        Fault.capacityOverflow = .capacityOverflow) ∧
      ∀ reserved ∈ Run.oversized.journal.reservations, reserved.call ≠ 0 := by
  -- the record cannot be had, so the call ends before it has noted anything
  have h_journal : Run.oversized.journal = [] := rfl
  have h_faulted : Run.oversized.machine.calls[0]? =
      some (.finished (.error (.fault .capacityOverflow))) := rfl
  refine ⟨Run.oversized_fits, ?_⟩
  rcases commit_faults Run.oversized Run.oversized_fits h_faulted with h | ⟨w, -, h_mem⟩
  · exact h
  · -- the Writer was not called
    rw [h_journal] at h_mem
    cases h_mem

/-- So it is not true that no commit ever faults. -/
theorem exists_faulted_commit : ¬ ∀ r : Run MemoryWriter, r.Fits → ∀ (i : Nat) (broken : Fault),
    r.machine.calls[i]? ≠ some (.finished (.error (.fault broken))) :=
  fun h => h Run.oversized Run.oversized_fits 0 .capacityOverflow rfl

end GroupCommit.Log
