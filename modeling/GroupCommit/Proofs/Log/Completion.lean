import GroupCommit.Proofs.Log.Progress
import GroupCommit.Proofs.Log.Trace

/-!
# Commits return

A commit that is made when all others have returned will return itself, if the Writer goes on with every
call and the deadline of every wait passes. The commit is never blocked for good, and each of its steps
brings it closer to its end.

* `Succeeds`: a Writer that goes on with every call.
* `Run.Calm`, `Run.Calm.exists_step`: a run in which commits are made one after another and nothing fails
  can go on until they have returned.
* `Run.Calm.exists_committed`: one more commit, from the call to its return.
-/

namespace GroupCommit.Log

variable {W : Type} [Writer W]

/-! ### Writers that go on -/

/-- In this state and in all that come later, the Writer succeeds with every call that ends at `limit` at
the latest. -/
def Succeeds (limit : Nat) (writer : W) : Prop :=
  ∃ good : W → Prop, good writer ∧ ∀ w data address hint, good w → address + data.length ≤ limit →
    ∃ w', Writer.write w data address hint = (.ok (), w') ∧ good w'

/-- A Writer that succeeds within a limit takes what ends there, and goes on so. -/
theorem Succeeds.write {limit : Nat} {writer : W} (h : Succeeds limit writer) {data : Bytes}
    {address : Nat} (hint : Int32) (h_limit : address + data.length ≤ limit) :
    ∃ writer', Writer.write writer data address hint = (.ok (), writer') ∧ Succeeds limit writer' := by
  obtain ⟨good, h_good, h_write⟩ := h
  obtain ⟨writer', h_ok, h_good'⟩ := h_write writer data address hint h_good h_limit
  exact ⟨writer', h_ok, good, h_good', h_write⟩

/-! ### One more event -/

namespace Run

variable {r r' : Run W} {i limit : Nat} {e : Entry} {ev : Event Task Verdict}
  {status : Status Task Result}

/-- A run goes on with any event that is possible. -/
theorem exists_next {m : Machine (Log W) Task Result} (h : r.machine.step (program W) ev = some m)
    (h_call : ∀ start, ev = .call start → start.IsCommit) :
    ∃ r', r.Next ev r' ∧ r'.machine = m := by
  have h_reached : (Machine.idle r.log).steps (program W) (r.events ++ [ev]) = some m := by
    rw [Machine.steps_append, r.reached, Option.bind_some, Machine.steps, h]
    rfl
  refine ⟨⟨r.config, r.writer, r.log, r.created, r.events ++ [ev], ?_, m, h_reached⟩, ⟨rfl, rfl⟩, rfl⟩
  intro start h_mem
  rcases List.mem_append.1 h_mem with h_mem | h_mem
  · exact r.calls start h_mem
  · exact .inl (h_call start (List.mem_singleton.1 h_mem).symm)

theorem starts?_of_ne (h : ∀ start, ev ≠ .call start) : starts? ev = [] := by
  cases ev with
  | call start => exact absurd rfl (h start)
  | _ => rfl

/-- A run stays sequential if calls are made only when nobody is under way. -/
theorem Next.sequential (h : r.Next ev r') (h_seq : r.Sequential)
    (h_call : ∀ start, ev = .call start → ∀ i, ¬ r.Pending i) : r'.Sequential := by
  intro r₁ start r₂ h_next h_before
  have h_grows := h_before.events
  rw [h.events, List.prefix_concat_iff] at h_grows
  rcases h_grows with h_last | h_grows
  · -- the call is the event that has come
    rw [h_next.events] at h_last
    obtain ⟨h_events, h_ev⟩ := List.append_inj' h_last rfl
    obtain rfl := eq_of_events (h_next.log.trans (h_before.log.trans h.log.symm)) h_events
    exact h_call start (List.singleton_inj.1 h_ev).symm
  · exact h_seq r₁ start r₂ h_next ⟨h_before.log.trans h.log.symm, h_grows⟩

/-- A run stays clean if what happens next does not fail and is no poisoning. -/
theorem Next.clean (h : r.Next ev r') (h_clean : r.Clean)
    (h_call : ∀ start, ev = .call start → start.IsCommit)
    (h_notes : ¬ Journal.Failed (notes r.machine ev)) : r'.Clean := by
  constructor
  · rintro ⟨w, stop, h_mem⟩
    rw [h.journal] at h_mem
    rcases List.mem_append.1 h_mem with h_mem | h_mem
    · exact h_clean.succeeded ⟨w, stop, h_mem⟩
    · exact h_notes ⟨w, stop, h_mem⟩
  · rintro ⟨start, h_mem, h_poison⟩
    rw [h.events] at h_mem
    rcases List.mem_append.1 h_mem with h_mem | h_mem
    · exact h_clean.unpoisoned ⟨start, h_mem, h_poison⟩
    · -- the new call is a commit
      obtain ⟨timestamp, payload, hint, rfl⟩ := h_call start (List.mem_singleton.1 h_mem).symm
      obtain ⟨reason, h_eq⟩ := h_poison
      cases h_eq

/-! ### Calm runs -/

/-- Commits are made one after another, nothing has failed, and the Writer goes on with every call up to
`limit`, which leaves room in the address space. -/
structure Calm (r : Run W) (limit : Nat) : Prop where
  sequential : r.Sequential
  clean : r.Clean
  writer : Succeeds limit r.machine.state.writer
  content_le : r.journal.content.length ≤ limit
  limit_lt : limit + r.config.slotCapacity * r.config.ringSize < Word.limit

namespace Calm

/-- A calm run has room. -/
theorem fits (h : r.Calm limit) : r.Fits := by
  have := h.content_le
  have := h.limit_lt
  rw [Run.Fits]
  omega

/-- A calm run does not crash. -/
theorem sane (h : r.Calm limit) : ¬ r.Crashes :=
  fun ⟨w, broken, h_mem⟩ => h.clean.succeeded ⟨w, .fault broken, h_mem⟩

/-- The call to the Writer that a commit waits for ends within the limit. -/
theorem stop_le (h : r.Calm limit) {t : Task} {w : Write} (hi : r.machine.calls[i]? = some (.outside t))
    (h_write : t.write? i = some w) : w.stop ≤ limit := by
  have h_pending : r.pending i = some w := by rw [pending, hi, Option.bind_some]; exact h_write
  have h_mem : w ∈ r.journal.writes.filter (·.call = i) := by
    rw [r.writes_of_call, h_pending]
    exact List.mem_append_right _ (List.mem_singleton_self _)
  have h_plan := h.sequential.onPlan h.fits h.clean List.prefix_rfl
  obtain ⟨e, record, -, -, h_stop, h_le⟩ :=
    h_plan.exists_place h.fits List.prefix_rfl (List.mem_filter.1 h_mem).1
  exact h_stop.trans (h_le.trans h.content_le)

/-- A call that is made when all others have returned. -/
theorem call (h : r.Calm limit) {start : Task} (h_next : r.Next (.call start) r')
    (h_commit : start.IsCommit) (h_done : ∀ i, ¬ r.Pending i) : r'.Calm limit where
  sequential := h_next.sequential h.sequential fun _ _ => h_done
  clean := by
    refine h_next.clean h.clean (fun start' h_eq => ?_) fun ⟨_, _, h_mem⟩ => by cases h_mem
    cases h_eq
    exact h_commit
  writer := by
    rw [← Option.some.inj h_next.step]
    exact h.writer
  content_le := by
    -- nothing is noted yet
    have h_same : r'.journal = r.journal := h_next.journal.trans (List.append_nil _)
    rw [h_same]
    exact h.content_le
  limit_lt := h_next.before.config_eq ▸ h.limit_lt

/-- A call to the Writer that returns. -/
theorem answer (h : r.Calm limit) {t : Task} {w : Write}
    (hi : r.machine.calls[i]? = some (.outside t)) (h_write : t.write? i = some w) :
    ∃ writer, r.machine.state.write .pass w.data w.address w.hint = (.ok (), writer) ∧
      Succeeds limit writer :=
  h.writer.write w.hint (h.stop_le hi h_write)

/-- A step of a commit notes no failure, and the Writer goes on. -/
theorem written (h : r.Calm limit) {o : Move Task Result × Log W}
    (h_acts : Machine.Acts (program W) r.machine ev i status o)
    (h_pass : ∀ verdict, ev = .answer i verdict → verdict = .pass) :
    ¬ Journal.Failed (notes r.machine ev) ∧ Succeeds limit o.2.writer := by
  -- a step of a call leaves the Writer alone; only an answer of the Writer changes it
  have h_run : ∀ t, Succeeds limit (run t r.machine.state).2.writer := fun t => by
    rw [writer_run]
    exact h.writer
  cases h_acts with
  | @run i t hi =>
    refine ⟨?_, h_run t⟩
    rw [notes_run hi]
    rintro ⟨w, stop, h_mem⟩
    exact not_mem_runNotes _ _ _ _ _ h_mem
  | @expire i c wake late hi =>
    refine ⟨?_, h_run late⟩
    rintro ⟨w, stop, h_mem⟩
    cases h_mem
  | @answer i t verdict hi =>
    -- the Writer has room for what this call gives it, so the outcome is a success
    cases h_pass verdict rfl
    rw [notes_answer hi, answerNotes]
    show _ ∧ Succeeds limit (answered t .pass r.machine.state).2.writer
    cases h_write : t.write? i with
    | none =>
      constructor
      · rintro ⟨w, stop, h_mem⟩
        cases h_mem
      cases t with
      | writeSlot k f data e p tk => cases h_write
      | writeDirect e tk => cases h_write
      | _ => exact h.writer
    | some w =>
      obtain ⟨writer, h_ok, h_writer⟩ := h.answer hi h_write
      have h_outcome : r.machine.state.outcome .pass w = .ok () := by rw [outcome, h_ok]
      constructor
      · rw [Option.map_some, h_outcome]
        rintro ⟨w', stop, h_mem⟩
        cases List.mem_singleton.1 h_mem
      · cases t with
        | writeSlot k f data e p tk =>
          cases h_write
          rw [answered, h_ok]
          exact h_writer
        | writeDirect e tk =>
          cases h_write
          rw [answered, h_ok]
          exact h_writer
        | _ => cases h_write

/-- A step of a commit. -/
theorem step (h : r.Calm limit) {o : Move Task Result × Log W} (h_next : r.Next ev r')
    (h_acts : Machine.Acts (program W) r.machine ev i status o)
    (h_stepped : Machine.Stepped r.machine r'.machine i o)
    (h_pass : ∀ verdict, ev = .answer i verdict → verdict = .pass)
    (h_room : r'.journal.content.length ≤ limit) : r'.Calm limit := by
  -- the event is a step, and no call is made by it
  have h_call : ∀ start, ev ≠ .call start := by
    rintro start rfl
    cases h_acts
  obtain ⟨h_notes, h_writer⟩ := h.written h_acts h_pass
  exact {
    sequential := h_next.sequential h.sequential fun start h_eq => absurd h_eq (h_call start)
    clean := h_next.clean h.clean (fun start h_eq => absurd h_eq (h_call start)) h_notes
    writer := h_stepped.state ▸ h_writer
    content_le := h_room
    limit_lt := h_next.before.config_eq ▸ h.limit_lt }

/-! ### Until a commit returns -/

/-- Each step brings a commit closer to its end, and so does its deadline when it takes a flush then. -/
theorem toGo_acts (h : r.Calm limit) {o : Move Task Result × Log W} {status' : Status Task Result}
    {P : Picture} {start : Task} {w : Work} (h_active : r.Active i status P start w)
    (h_acts : Machine.Acts (program W) r.machine ev i status o) (h_leads : o.1.Leads status')
    (h_pass : ∀ verdict, ev = .answer i verdict → verdict = .pass)
    (h_late : ev = .expire i → ∃ t, status' = .ready t ∧ (t.write? i).isSome) :
    Status.toGo status' < Status.toGo status := by
  have hm := h_active.shown
  cases h_acts with
  | @run i t hi =>
    -- a commit that stands at a portion or a write has reserved its place before
    obtain ⟨h_at⟩ := h_active.stands
    cases t with
    | commit timestamp payload hint => cases h_at
    | reserve record hint => cases h_at
    | onSlot k task next => exact toGo_onSlot h_leads h_at.sweep?_eq_none
    | writeSlot k f data e p tk =>
      cases h_leads
      exact Nat.lt_succ_self _
    | writeDirect e tk =>
      cases h_leads
      exact Nat.lt_succ_self _
    | complete head =>
      cases h_leads
      exact Nat.succ_pos _
    | poison reason result => cases h_at
  | @expire i c wake late hi =>
    -- a deadline brings it no closer unless it takes a flush, which is written next
    cases h_active.stands with
    | parked h_at h_deadline =>
      obtain ⟨k, τ, next⟩ := h_deadline _ rfl
      obtain ⟨s, hs⟩ := hm.inv.slot_of_lt h_at.slot_lt
      obtain ⟨t, rfl, h_write⟩ := h_late rfl
      cases lands (hm.log.slots ▸ hs) h_leads with
      | resumed h_result h_resumed =>
        refine (toGo_resume h_resumed h_at.sweep?_eq_none).trans_lt ?_
        show 2 * _ + 1 < 2 * (1 + _)
        omega
      | join => cases h_write
      | announce => cases h_write
  | @answer i t verdict hi =>
    -- the Writer goes on, so the answer is not a failure
    cases h_pass verdict rfl
    cases h_active.stands with
    | outside h_at =>
      cases h_at with
      | writeSlot =>
        obtain ⟨writer, h_ok, -⟩ := h.answer hi rfl
        exact toGo_answered h_leads rfl h_ok
      | writeDirect =>
        obtain ⟨writer, h_ok, -⟩ := h.answer hi rfl
        exact toGo_answered h_leads rfl h_ok

/-- The only call that is under way can make a step. -/
theorem exists_acts (h : r.Calm limit) (h_pending : r.Pending i) : ∃ ev m,
    r.machine.step (program W) ev = some m ∧ (∀ start, ev ≠ .call start) ∧
      (∀ verdict, ev = .answer i verdict → verdict = .pass) ∧
      (ev = .expire i → ∃ t, m.calls[i]? = some (.ready t) ∧ (t.write? i).isSome) := by
  obtain ⟨j, -, h_able⟩ := exists_able h.fits h.sane h_pending
  -- whichever call can make a step, it is this one
  have h_own : ∀ {status}, r.machine.calls[j]? = some status → (∀ result, status ≠ .finished result) →
      i = j := fun hj h_open => h.sequential.pending_unique i j h_pending ⟨_, hj, h_open⟩
  cases h_able with
  | run h_step =>
    refine ⟨_, _, h_step, ?_, ?_, ?_⟩
    · rintro start ⟨⟩
    · rintro verdict ⟨⟩
    · rintro ⟨⟩
  | answer h_some =>
    obtain ⟨m, h_step⟩ := Option.isSome_iff_exists.1 (h_some .pass)
    refine ⟨_, m, h_step, ?_, ?_, ?_⟩
    · rintro start ⟨⟩
    · rintro verdict ⟨⟩
      rfl
    · rintro ⟨⟩
  | expire h_step h_early hj =>
    obtain ⟨c, wake, late, hj', -⟩ := Machine.step_expire h_step
    obtain rfl := h_own hj' (by rintro result ⟨⟩)
    refine ⟨_, _, h_step, ?_, ?_, fun _ => ⟨_, hj, rfl⟩⟩
    · rintro start ⟨⟩
    · rintro verdict ⟨⟩

/-- **A commit comes closer to its end** with its next event, once its record has its place. -/
theorem exists_step (h : r.Calm limit) (hi : r.machine.calls[i]? = some status)
    (h_open : ∀ result, status ≠ .finished result) (h_enters : r.Enters i e) :
    ∃ ev r' status', r.Next ev r' ∧ (∀ start, ev ≠ .call start) ∧ r'.Calm limit ∧
      r'.journal.content = r.journal.content ∧ r'.machine.calls[i]? = some status' ∧
      Status.toGo status' < Status.toGo status := by
  obtain ⟨ev, m, h_step, h_call, h_pass, h_late⟩ := h.exists_acts ⟨status, hi, h_open⟩
  obtain ⟨r', h_next, rfl⟩ := exists_next h_step fun start h_eq => absurd h_eq (h_call start)
  rcases Machine.step_cases h_step with ⟨start, h_eq, -⟩ | ⟨j, status₁, o, h_acts, h_stepped⟩
  · exact absurd h_eq (h_call start)
  · obtain rfl := h.sequential.pending_unique i j ⟨status, hi, h_open⟩ (pending_of_acts h_acts)
    cases hi.symm.trans h_acts.before
    obtain ⟨status', hi', h_leads⟩ := h_stepped.self
    obtain ⟨P, start, w, h_active⟩ :=
      h.sequential.exists_active h.fits h.clean hi h_open h_enters
    -- the record has been reserved before, so that the content stays
    have h_content : r'.journal.content = r.journal.content := by
      rcases reserves_of_acts h_acts with h_none | ⟨record, hint, -, rfl, -⟩
      · rw [h_next.journal, Journal.content_append, Journal.content, Journal.content, h_none]
        exact List.append_nil _
      · exact absurd h_enters (r.not_enters_of_reserve h.fits hi)
    refine ⟨ev, r', status', h_next, h_call, ?_, h_content, hi', ?_⟩
    · exact h.step h_next h_acts h_stepped h_pass (h_content ▸ h.content_le)
    · refine h.toGo_acts h_active h_acts h_leads h_pass fun h_eq => ?_
      obtain ⟨t, hi'', h_write⟩ := h_late h_eq
      exact ⟨t, Option.some.inj (hi'.symm.trans hi''), h_write⟩

/-- **A commit returns** once its record has its place. -/
theorem exists_returned (h : r.Calm limit) (hi : r.machine.calls[i]? = some status)
    (h_enters : r.Enters i e) : ∃ r', r.Before r' ∧ r'.Calm limit ∧ r'.starts = r.starts ∧
      ∃ result, r'.machine.calls[i]? = some (.finished result) := by
  -- by induction on how far the commit is from its end
  induction h_toGo : Status.toGo status using Nat.strong_induction_on generalizing r status with
  | _ n ih =>
    subst h_toGo
    by_cases h_done : ∃ result, status = .finished result
    · obtain ⟨result, rfl⟩ := h_done
      exact ⟨r, .refl r, h, rfl, result, hi⟩
    · rw [not_exists] at h_done
      obtain ⟨ev, r₁, status₁, h_next, h_call, h_calm, -, hi₁, h_lt⟩ := h.exists_step hi h_done h_enters
      obtain ⟨r', h_before, h_calm', h_starts, h_result⟩ :=
        ih _ h_lt h_calm hi₁ (h_next.before.enters h_enters) rfl
      refine ⟨r', h_next.before.trans h_before, h_calm', h_starts.trans ?_, h_result⟩
      rw [h_next.starts, starts?_of_ne h_call, List.append_nil]

end Calm

/-! ### One more commit -/

/-- A record that is reserved has its entry. -/
theorem exists_enters (h_fits : r.Fits) {head : Nat} {record : Bytes}
    (h_mem : ⟨i, head, record⟩ ∈ r.journal.reservations) : ∃ e, r.Enters i e ∧ e.span.head = head := by
  obtain ⟨P, hm, -⟩ := r.exists_matches h_fits r.within_all
  rw [Journal.mem_reservations] at h_mem
  obtain ⟨timestamp, payload, hint, h_start, h_encode⟩ := hm.reserved _ h_mem
  obtain ⟨e, h_cut, rfl, -⟩ :=
    hm.exists_cut h_mem (Record.Format.length_pos_of_encode h_encode) hint
  exact ⟨e, ⟨timestamp, payload, hint, record, h_start, h_encode, h_mem, h_cut⟩, rfl⟩

/-- When one more call has been made and has returned, no call is under way again. -/
theorem Before.not_pending (h : r.Before r') (h_done : ∀ i, ¬ r.Pending i)
    (h_length : r'.starts.length = r.starts.length + 1) {result : Result}
    (h_last : r'.machine.calls[r.starts.length]? = some (.finished result)) : ∀ i, ¬ r'.Pending i := by
  intro i h_pending
  have h_ge := h.length_le h_done h_pending
  obtain ⟨status, hi, h_open⟩ := h_pending
  obtain ⟨h_lt, -⟩ := List.getElem?_eq_some_iff.1 hi
  rw [← r'.starts_length, h_length] at h_lt
  rw [← r.starts_length] at h_ge
  obtain rfl : i = r.starts.length := by omega
  exact h_open _ (Option.some.inj (hi.symm.trans h_last))

namespace Calm

/-- A commit that is ready makes its step. -/
theorem run (h : r.Calm limit) {t : Task} (hi : r.machine.calls[i]? = some (.ready t))
    (h_room : (r.journal ++ runNotes r.machine.state i t).content.length ≤ limit) :
    ∃ r' status', r.Next (.run i) r' ∧ r'.Calm limit ∧ r'.starts = r.starts ∧
      r'.journal = r.journal ++ runNotes r.machine.state i t ∧
      r'.machine.calls[i]? = some status' ∧ (Log.run t r.machine.state).1.Leads status' := by
  have h_step : r.machine.step (program W) (.run i) =
      some (r.machine.perform i (Log.run t r.machine.state)) := by rw [Machine.step, hi]; rfl
  obtain ⟨r', h_next, -⟩ := exists_next h_step fun start h_eq => by cases h_eq
  have h_journal : r'.journal = r.journal ++ runNotes r.machine.state i t := by
    rw [h_next.journal, notes_run hi]
  rcases Machine.step_cases h_next.step with ⟨start, h_eq, -⟩ | ⟨j, status, o, h_acts, h_stepped⟩
  · cases h_eq
  · have h_calm := h.step h_next h_acts h_stepped (fun verdict h_eq => by cases h_eq) (h_journal ▸ h_room)
    have h_starts : r'.starts = r.starts := h_next.starts.trans (List.append_nil _)
    obtain ⟨status', hi', h_leads⟩ := h_stepped.self
    cases h_acts with
    -- the step is that of the task which the call had
    | run hi₁ =>
      cases hi.symm.trans hi₁
      exact ⟨r', status', h_next, h_calm, h_starts, h_journal, hi', h_leads⟩

/-- A commit returns that is about to reserve its addresses. -/
theorem exists_returned_of_reserve (h : r.Calm limit) {record : Bytes} {hint : Int32}
    (hi : r.machine.calls[i]? = some (.ready (.reserve record hint)))
    (h_room : r.journal.content.length + record.length ≤ limit) :
    ∃ r', r.Before r' ∧ r'.Calm limit ∧ r'.starts = r.starts ∧
      ∃ result, r'.machine.calls[i]? = some (.finished result) := by
  have h_content : (r.journal ++ runNotes r.machine.state i (.reserve record hint)).content =
      r.journal.content ++ record := by
    rw [Journal.content_append]
    exact congrArg (r.journal.content ++ ·) (List.append_nil record)
  obtain ⟨r₁, status, h_next, h_calm, h_starts, h_journal, hi₁, -⟩ :=
    h.run hi (by rw [h_content, List.length_append]; exact h_room)
  -- now the record has its place
  have h_mem : ⟨i, r.machine.state.position, record⟩ ∈ r₁.journal.reservations := by
    rw [h_journal, Journal.mem_reservations]
    exact List.mem_append_right _ (List.mem_singleton_self _)
  obtain ⟨e, h_enters, -⟩ := r₁.exists_enters h_calm.fits h_mem
  obtain ⟨r', h_before, h_calm', h_starts', h_result⟩ := h_calm.exists_returned hi₁ h_enters
  exact ⟨r', h_next.before.trans h_before, h_calm', h_starts'.trans h_starts, h_result⟩

/-- A commit returns that has just been made. -/
theorem exists_returned_of_commit (h : r.Calm limit) {timestamp : UInt64} {payload : Bytes}
    {hint : Int32} (hi : r.machine.calls[i]? = some (.ready (.commit timestamp payload hint)))
    (h_room : ∀ record, r.log.format.encode timestamp payload = .ok record →
      r.journal.content.length + record.length ≤ limit) :
    ∃ r', r.Before r' ∧ r'.Calm limit ∧ r'.starts = r.starts ∧
      ∃ result, r'.machine.calls[i]? = some (.finished result) := by
  have h_same : r.journal ++ runNotes r.machine.state i (.commit timestamp payload hint) = r.journal :=
    List.append_nil _
  obtain ⟨r₁, status, h_next, h_calm, h_starts, h_journal, hi₁, h_leads⟩ :=
    h.run hi (by rw [h_same]; exact h.content_le)
  rw [h_same] at h_journal
  obtain ⟨P, hm, -⟩ := r.exists_matches h.fits r.within_all
  have h_effect := run_effect (.commit timestamp payload hint) r.machine.state
  generalize Log.run _ r.machine.state = o at h_leads h_effect
  cases h_effect with
  | refused | unencoded =>
    cases h_leads
    exact ⟨r₁, h_next.before, h_calm, h_starts, _, hi₁⟩
  | @encoded _ _ _ record h_live h_encode =>
    cases h_leads
    rw [hm.log.format] at h_encode
    obtain ⟨r', h_before, h_calm', h_starts', h_result⟩ :=
      h_calm.exists_returned_of_reserve hi₁ (h_journal ▸ h_room record h_encode)
    exact ⟨r', h_next.before.trans h_before, h_calm', h_starts'.trans h_starts, h_result⟩

/-- **One more commit** returns, when it is made after all others have returned. -/
theorem exists_committed (h : r.Calm limit) (h_done : ∀ i, ¬ r.Pending i) (timestamp : UInt64)
    (payload : Bytes) (hint : Int32)
    (h_room : ∀ record, r.log.format.encode timestamp payload = .ok record →
      r.journal.content.length + record.length ≤ limit) :
    ∃ r', r.Before r' ∧ r'.Calm limit ∧ (∀ i, ¬ r'.Pending i) ∧
      r'.starts = r.starts ++ [.commit timestamp payload hint] := by
  have h_commit : (Task.commit timestamp payload hint).IsCommit := ⟨_, _, _, rfl⟩
  have h_step : r.machine.step (program W) (.call (.commit timestamp payload hint)) =
      some { r.machine with calls := r.machine.calls ++ [.ready (.commit timestamp payload hint)] } := rfl
  obtain ⟨r₁, h_next, h_machine⟩ := exists_next h_step fun start h_eq => by
    cases h_eq
    exact h_commit
  have h_starts₁ : r₁.starts = r.starts ++ [.commit timestamp payload hint] := h_next.starts
  have h_journal : r₁.journal = r.journal := h_next.journal.trans (List.append_nil _)
  have hi : r₁.machine.calls[r.starts.length]? = some (.ready (.commit timestamp payload hint)) := by
    rw [h_machine, r.starts_length]
    exact List.getElem?_concat_length
  obtain ⟨r', h_before, h_calm, h_starts, result, h_result⟩ :=
    (h.call h_next h_commit h_done).exists_returned_of_commit hi (by rwa [h_journal, ← h_next.log])
  have h_before' := h_next.before.trans h_before
  rw [h_starts₁] at h_starts
  refine ⟨r', h_before', h_calm, h_before'.not_pending h_done ?_ h_result, h_starts⟩
  rw [h_starts, List.length_append, List.length_singleton]

end Calm

end Run

end GroupCommit.Log
