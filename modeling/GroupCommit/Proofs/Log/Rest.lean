import GroupCommit.Proofs.Log.Induction
import GroupCommit.Proofs.Protocol.Resting

/-!
# Runs that have come to rest

When all calls have returned, nobody has asked for the log to be poisoned and no call to the Writer has
failed, then nothing is under way in the picture of the run.

* `Run.Clean`: nothing has failed in a run, and `Matches.rests` says what is left of its calls.
* `Run.Still`, `Run.Still.resting`: a run that has come to rest, and its picture.
-/

namespace GroupCommit.Log

variable {W : Type} [Writer W] {r : Run W} {P : Picture}

/-- No call to the Writer has failed and nobody has asked for the log to be poisoned. -/
structure Run.Clean (r : Run W) : Prop where
  succeeded : ¬ r.journal.Failed
  unpoisoned : ¬ r.Poisons

/-- A run that is clean was so all the time. -/
theorem Run.Before.clean {r' : Run W} (h : r.Before r') (h_clean : r'.Clean) : r.Clean := by
  constructor
  · rintro ⟨w, stop, h_mem⟩
    exact h_clean.succeeded ⟨w, stop, h.mem_journal h_mem⟩
  · rintro ⟨start, h_mem, h_poison⟩
    exact h_clean.unpoisoned ⟨start, h.events.subset h_mem, h_poison⟩

/-- There is no reason for the log to be poisoned. -/
theorem Run.Clean.exists_matches (h : r.Clean) (h_fits : r.Fits) :
    ∃ P, Matches r.log.geometry r.log.format r.starts r.machine r.journal P ∧ ¬ P.account.Failed := by
  -- nobody asks for poisoning, so that a failure would have to be one of the Writer
  have h_within : r.Within ⟨true, false⟩ :=
    ⟨fun _ => rfl, fun h_poisons => absurd h_poisons h.unpoisoned⟩
  obtain ⟨P, hm, h_allowed⟩ := r.exists_matches h_fits h_within
  refine ⟨P, hm, ?_⟩
  rintro (h_failed | h_poisoning)
  · exact h.succeeded (hm.journal ▸ h_failed)
  · rw [h_allowed] at h_poisoning
    cases h_poisoning

/-- A call that has returned has either not got as far as reserving, or all its work is done. -/
theorem Matches.rests {i : Nat} {result : Result} {v : View}
    (hm : Matches r.log.geometry r.log.format r.starts r.machine r.journal P)
    (h_clean : ¬ P.account.Failed) (hi : r.machine.calls[i]? = some (.finished result))
    (hv : P.calls[i]? = some v) : v = .fresh ∨ ∃ w, v = .working w ∧ w.Done := by
  obtain ⟨start, v', h_start, hv', h_stands⟩ := hm.exists_view hi
  obtain rfl : v = v' := Option.some.inj (hv.symm.trans hv')
  -- a call that had failed would have failed its writes
  have h_live : v ≠ .failed := by
    rintro rfl
    exact h_clean (hm.inv.call i _ hv)
  cases h_stands with
  | appended h_done => exact .inr ⟨_, rfl, h_done⟩
  | turnedAway => exact .inl rfl
  | unencoded => exact .inl rfl
  | stopped => exact absurd rfl h_live
  | crashed => exact absurd rfl h_live

/-- All calls have returned, no call to the Writer has failed and nobody has asked for the log to be
poisoned. -/
structure Run.Still (r : Run W) : Prop where
  succeeded : ¬ r.journal.Failed
  unpoisoned : ¬ r.Poisons
  returned : ∀ (i : Nat) status, r.machine.calls[i]? = some status →
    ∃ result, status = .finished result

namespace Run.Still

/-- When all is done and nothing has failed, the run is clean. -/
theorem clean (h : r.Still) : r.Clean := ⟨h.succeeded, h.unpoisoned⟩

theorem exists_matches (h : r.Still) (h_fits : r.Fits) :
    ∃ P, Matches r.log.geometry r.log.format r.starts r.machine r.journal P ∧ ¬ P.account.Failed :=
  h.clean.exists_matches h_fits

/-- In the picture of such a run everything is at rest. -/
theorem resting (h : r.Still)
    (hm : Matches r.log.geometry r.log.format r.starts r.machine r.journal P)
    (h_clean : ¬ P.account.Failed) : Resting P := by
  intro i v hv
  obtain ⟨h_lt, -⟩ := List.getElem?_eq_some_iff.1 hv
  have hi := List.getElem?_eq_getElem (hm.calls_length ▸ h_lt)
  obtain ⟨result, h_result⟩ := h.returned i _ hi
  exact hm.rests h_clean (hi.trans (congrArg some h_result)) hv

end Run.Still

/-- How to see of a given run that it is still. -/
theorem Run.still_of (h_fails : r.journal.any Note.fails = false) (h_commits : commitsOnly r.events = true)
    (h_results : r.machine.calls.all (·.result?.isSome) = true) : r.Still where
  succeeded := by
    rw [Journal.failed_iff, h_fails]
    decide
  unpoisoned := by
    -- nobody but a commit is there to poison the log
    rintro ⟨start, h_call, reason, rfl⟩
    obtain ⟨timestamp, payload, hint, h_eq⟩ := isCommit_of_commitsOnly h_commits _ h_call
    cases h_eq
  returned := by
    intro i status hi
    have h_some := List.all_eq_true.1 h_results status (List.mem_of_getElem? hi)
    cases status with
    | finished result => exact ⟨result, rfl⟩
    | _ => cases h_some

set_option maxRecDepth 100000 in
theorem Run.hurried_still : Run.hurried.Still := Run.still_of (by decide +kernel) rfl (by decide +kernel)

set_option maxRecDepth 100000 in
theorem Run.patient_still : Run.patient.Still := Run.still_of (by decide +kernel) rfl (by decide +kernel)

end GroupCommit.Log
