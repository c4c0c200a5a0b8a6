import GroupCommit.Proofs.DeadlockFreedom
import GroupCommit.Proofs.Log.Balance
import GroupCommit.Proofs.Log.Entries
import GroupCommit.Proofs.Log.Rest
import GroupCommit.Proofs.Protocol.Alone

/-!
# Commits one after another

In some runs every commit is made when all commits before it have returned. Then one call at most is
under way at a time, its record is the last one of the log, and nobody disturbs it.

* `Run.Sequential`: commits are made one after another.
* `Run.Sequential.pending_unique`, `Run.Sequential.last`: the call that is under way.
* `Run.Sequential.exists_alone`: its picture.
* `Run.exists_last_call`, `Run.Before.call_eq`: the last call, and what is noted from then on.
-/

namespace GroupCommit.Log

variable {W : Type} [Writer W] {r r' : Run W} {i j : Nat} {ev : Event Task Verdict}

namespace Run

/-- Every call is made when all calls before it have returned. -/
def Sequential (r : Run W) : Prop :=
  ∀ r₁ start r₂, Next r₁ (.call start) r₂ → r₂.Before r → ∀ i, ¬ r₁.Pending i

/-- What leads to a sequential run is one. -/
theorem Before.sequential (h : r.Before r') (h_seq : r'.Sequential) : r.Sequential :=
  fun r₁ start r₂ h_next h_before => h_seq r₁ start r₂ h_next (h_before.trans h)

/-- A call that is under way was so before the event, or it is made now. -/
theorem Next.pending (h : r.Next ev r') (hi : r'.Pending i) :
    r.Pending i ∨ ∃ start, ev = .call start ∧ i = r.machine.calls.length := by
  obtain ⟨status', hi', h_open⟩ := hi
  cases Machine.came h.step hi' with
  | made start => exact .inr ⟨start, rfl, rfl⟩
  | stepped h_acts h_stepped h_leads =>
    refine .inl ⟨_, h_acts.before, ?_⟩
    rintro result rfl
    cases h_acts
  | remained hi h_remains =>
    refine .inl ⟨_, hi, ?_⟩
    rintro result rfl
    cases h_remains
    exact h_open result rfl

/-- The call that makes a step is under way. -/
theorem pending_of_acts {status : Status Task Result} {o : Move Task Result × Log W}
    (h : Machine.Acts (program W) r.machine ev i status o) : r.Pending i := by
  refine ⟨status, h.before, ?_⟩
  rintro result rfl
  cases h

/-- A step reserves nothing, or it is the one that reserves the addresses of its call. -/
theorem reserves_of_acts {status : Status Task Result} {o : Move Task Result × Log W}
    (h : Machine.Acts (program W) r.machine ev i status o) :
    (notes r.machine ev).reservations = [] ∨ ∃ record hint, ev = .run i ∧
      status = .ready (.reserve record hint) ∧
      notes r.machine ev = [.reserved ⟨i, r.machine.state.position, record⟩] := by
  cases h with
  | @run i t hi =>
    rw [notes_run hi]
    cases t with
    -- the one task that reserves
    | reserve record hint => exact .inr ⟨record, hint, rfl, rfl, rfl⟩
    | _ => exact .inl rfl
  | expire hi => exact .inl rfl
  | @answer i t verdict hi =>
    rw [notes_answer hi]
    cases t <;> exact .inl rfl

/-- The position of a log is the number of the bytes that are reserved. -/
theorem position_eq (h_fits : r.Fits) : r.machine.state.position = r.journal.content.length := by
  obtain ⟨P, hm, -⟩ := r.exists_matches h_fits r.within_all
  rw [hm.log.position, Account.content, hm.journal]

/-- What is reserved once for a call stays its only reservation. -/
theorem eq_of_call (h_fits : r.Fits) {res res' : Reservation} (h : res ∈ r.journal.reservations)
    (h' : res' ∈ r.journal.reservations) (h_call : res.call = res'.call) : res = res' := by
  obtain ⟨P, hm, -⟩ := r.exists_matches h_fits r.within_all
  have h_layout := hm.inv.account.layout
  rw [hm.journal] at h_layout
  exact h_layout.eq_of_call h h' h_call

namespace Sequential

variable (h_seq : r.Sequential)

include h_seq

/-- **One call at a time.** -/
theorem pending_unique : ∀ i j, r.Pending i → r.Pending j → i = j := by
  refine r.induction ?_ fun r₁ ev r₂ h_next h_before ih i j hi hj => ?_
  · rintro i j ⟨status, hi, -⟩
    cases (r.getElem?_calls_start i).symm.trans hi
  · -- when a call is made now, no other one is under way
    have h_none : ∀ start, ev = .call start → ∀ k, ¬ r₁.Pending k := by
      rintro start rfl
      exact h_seq r₁ start r₂ h_next h_before
    rcases h_next.pending hi with hi | ⟨start, h_call, rfl⟩
    · rcases h_next.pending hj with hj | ⟨start, h_call, rfl⟩
      · -- both were pending before
        exact ih i j hi hj
      · exact absurd hi (h_none start h_call i)
    · rcases h_next.pending hj with hj | ⟨start', -, rfl⟩
      · exact absurd hj (h_none start h_call j)
      · rfl

/-- **The record of a call that is under way is the last one of the log.** -/
theorem last (h_fits : r.Fits) : ∀ i, r.Pending i → ∀ res ∈ r.journal.reservations,
    res.call = i → res.stop = r.journal.content.length := by
  refine r.induction ?_ fun r₁ ev r₂ h_next h_before ih i hi res h_mem h_call => ?_
  · rintro i ⟨status, hi, -⟩
    cases (r.getElem?_calls_start i).symm.trans hi
  · have h_journal := h_next.journal
    rcases Machine.step_cases h_next.step with
      ⟨start, rfl, -⟩ | ⟨k, status, o, h_acts, -⟩
    · -- a call that is made now has reserved nothing
      have h_same : r₂.journal = r₁.journal := h_journal.trans (List.append_nil _)
      rw [h_same] at h_mem
      have h_lt := r₁.call_lt _ (Journal.mem_reservations.1 h_mem)
      rcases h_next.pending hi with hi | ⟨start', -, rfl⟩
      · exact absurd hi (h_seq r₁ start r₂ h_next h_before i)
      · exact absurd h_call h_lt.ne
    · have h_seq₁ := (h_next.before.trans h_before).sequential h_seq
      have hi₁ : r₁.Pending i := by
        rcases h_next.pending hi with hi | ⟨start, rfl, -⟩
        · exact hi
        · cases h_acts
      obtain rfl := h_seq₁.pending_unique i k hi₁ (pending_of_acts h_acts)
      have h_content := congrArg Journal.content h_journal
      rw [Journal.content_append] at h_content
      rcases reserves_of_acts h_acts with h_none | ⟨record, hint, -, -, h_notes⟩
      · have h_nothing : Journal.content (notes r₁.machine ev) = [] := by
          rw [Journal.content, h_none]
          rfl
        rw [h_content, h_nothing, List.append_nil]
        rw [h_journal, Journal.reservations_append, h_none, List.append_nil] at h_mem
        exact ih i hi₁ res h_mem h_call
      · -- the record that is reserved now is the last one
        have h_new : ⟨i, r₁.machine.state.position, record⟩ ∈ r₂.journal.reservations := by
          rw [h_journal, h_notes]
          exact Journal.mem_reservations.2 (List.mem_append_right _ (List.mem_singleton_self _))
        have h_fits₂ := h_before.fits h_fits
        rw [eq_of_call h_fits₂ h_mem h_new h_call, h_content, h_notes, Reservation.stop,
          position_eq (h_next.before.fits h_fits₂), List.length_append]
        simp [Journal.content, Journal.reservations, Note.reservation?]

/-- **The picture of a call that is under way.** -/
theorem exists_alone (h_fits : r.Fits) (h_clean : r.Clean) {status : Status Task Result}
    (hi : r.machine.calls[i]? = some status) (h_open : ∀ result, status ≠ .finished result) :
    ∃ P start v, Matches r.log.geometry r.log.format r.starts r.machine r.journal P ∧
      ¬ P.account.Failed ∧ r.starts[i]? = some start ∧ P.calls[i]? = some v ∧
      Stands r.log.geometry r.log.format start r.journal i status v ∧
      ∀ w, v = .working w → Alone P i w := by
  obtain ⟨P, hm, h_unfailed⟩ := h_clean.exists_matches h_fits
  obtain ⟨start, v, h_start, hv, h_stands⟩ := hm.exists_view hi
  refine ⟨P, start, v, hm, h_unfailed, h_start, hv, h_stands, ?_⟩
  rintro w rfl
  refine ⟨hv, fun j v hj hv' => ?_, ?_⟩
  · -- all others have returned
    obtain ⟨h_lt, -⟩ := List.getElem?_eq_some_iff.1 hv'
    obtain ⟨status', hj'⟩ : ∃ status', r.machine.calls[j]? = some status' :=
      ⟨_, List.getElem?_eq_getElem (hm.calls_length ▸ h_lt)⟩
    by_cases h_done : ∃ result, status' = .finished result
    · obtain ⟨result, rfl⟩ := h_done
      exact hm.rests h_unfailed hj' hv'
    · rw [not_exists] at h_done
      exact absurd (h_seq.pending_unique j i ⟨_, hj', h_done⟩ ⟨_, hi, h_open⟩) hj
  · -- the record was reserved last, so it ends where the content does
    have h_work : WorkInv r.log.geometry P i w := hm.inv.call i _ hv
    obtain ⟨record, h_mem, h_cut⟩ := h_work.cut
    rw [hm.journal] at h_mem
    have h_last := h_seq.last h_fits i ⟨_, hi, h_open⟩ _ (Journal.mem_reservations.2 h_mem) rfl
    rw [entryStop, h_cut.total, Account.content, hm.journal]
    exact h_last

end Sequential

/-! ### The last call -/

/-- The moment at which the last call is made. -/
theorem exists_last_call (r : Run W) : ∀ starts start, r.starts = starts ++ [start] →
    ∃ r₁ r₂, Next r₁ (.call start) r₂ ∧ r₂.Before r ∧ r₁.starts = starts := by
  refine r.induction ?_ fun r₁ ev r₂ h_next h_before ih starts start h_starts => ?_
  · intro starts start h_starts
    exact absurd h_starts (List.append_ne_nil_of_right_ne_nil _ (List.cons_ne_nil _ _)).symm
  · rw [h_next.starts] at h_starts
    cases ev with
    | call start' =>
      obtain ⟨h_same, h_start⟩ := List.append_inj' h_starts rfl
      cases h_start
      exact ⟨r₁, r₂, h_next, .refl r₂, h_same⟩
    | _ =>
      obtain ⟨r₃, r₄, h_call, h_earlier, h_eq⟩ := ih _ _ ((List.append_nil _).symm.trans h_starts)
      exact ⟨r₃, r₄, h_call, h_earlier.trans h_next.before, h_eq⟩

/-- When all calls have returned, then only those that are made later can be under way. -/
theorem Before.length_le (h : r.Before r') (h_done : ∀ i, ¬ r.Pending i) (hi : r'.Pending i) :
    r.machine.calls.length ≤ i := by
  obtain ⟨status, hi, h_open⟩ := hi
  refine Nat.le_of_not_lt fun h_lt => ?_
  -- a call that was made before has returned, and still has
  have hi₀ := List.getElem?_eq_getElem h_lt
  refine h_done i ⟨_, hi₀, fun result h_eq => ?_⟩
  rw [h_eq] at hi₀
  exact h_open _ (Option.some.inj (hi.symm.trans (h.finished hi₀)))

/-- From the moment on at which all calls have returned, everything is about the next call until one more
is made. -/
theorem Before.call_eq (h : r.Before r') (h_done : ∀ i, ¬ r.Pending i)
    (h_length : r'.machine.calls.length ≤ r.machine.calls.length + 1) :
    ∃ K, r'.journal = r.journal ++ K ∧ ∀ n ∈ K, n.call = r.machine.calls.length := by
  refine h.induction ⟨[], (List.append_nil _).symm, fun n hn => by cases hn⟩ ?_
  rintro r₁ ev r₂ h_before₁ h_next h_before₂ ⟨K, h_journal, h_calls⟩
  refine ⟨K ++ notes r₁.machine ev, ?_, fun n hn => ?_⟩
  · rw [h_next.journal, h_journal, List.append_assoc]
  · rcases List.mem_append.1 hn with hn | hn
    · exact h_calls n hn
    · rcases Machine.step_cases h_next.step with ⟨start, rfl, -⟩ | ⟨i, status, o, h_acts, -⟩
      · cases hn
      · rw [call_of_notes h_acts hn]
        -- only a call that was made since is still pending
        have h_ge := h_before₁.length_le h_done (pending_of_acts h_acts)
        obtain ⟨h_lt, -⟩ := List.getElem?_eq_some_iff.1 h_acts.before
        have := (h_next.before.trans h_before₂).length_calls
        omega

end Run

end GroupCommit.Log
