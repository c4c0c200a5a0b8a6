import GroupCommit.Proofs.Log.Closing

/-!
# Poisoning

What the failing of calls to the Writer does to a log. The call that has failed stops its slot, marks
the log and then sweeps the ring, while other calls fill slots, skip generations, hand back flushes that
were written and may fail themselves. Every one of these races ends in the same way:

* A commit returns an error of the Writer if and only if its own call to the Writer has failed with it.
* A commit is turned away only if some call to the Writer has failed, or somebody has asked for the log
  to be poisoned.
* Once a call has swept the ring, every slot is stopped for good, and nobody is blocked on one. Whoever
  was blocked is turned away when it looks at its slot again.
* A commit that is made once the log is marked does nothing but return.

* `Unharmed`, `Run.unharmed`: what is known while there is no reason for anything to be stopped.
* `Run.turnedAway`: what becomes of the commits that are made once the log is marked.
* `Stays`, `Rejected`, `Poisoning`: the statement.
* `poisoning`: the theorem.
-/

namespace GroupCommit.Log

variable {W : Type}

/-! ### Logs that nothing has happened to -/

/-- The call has been turned away, or a slot is about to tell it so. -/
inductive Refused : Status Task Result → Prop
  | finished (reason : PoisonReason) : Refused (.finished (.error (.refused (.poisoned reason))))
  | told (k : Nat) (error : LogError) (next : Next) :
      Refused (.ready (.onSlot k (.announce (.error (.refused error))) next))

/-- No part of the log has been stopped, and no call has been turned away. -/
structure Unharmed (m : Machine (Log W) Task Result) : Prop where
  live : ∀ (k : Nat) s, m.state.ring.slots[k]? = some s → ¬ s.Stopped
  unmarked : m.state.ring.poisoned ≠ true
  unrefused : ∀ (i : Nat) status, m.calls[i]? = some status → ¬ Refused status

section Step

variable {g : Geometry} {format : Record.Format} {start : Task} {v : View} {log : Log W} {t : Task}
  {status : Status Task Result}

/-- A call that goes on is refused only if the slot has refused it. -/
theorem Resumes.not_refused {next : Next} {answer : Slot.Result} (h : Resumes g next answer status)
    (h_answer : ∀ error, answer ≠ .error (.refused error)) : ¬ Refused status := by
  intro h_refused
  cases h with
  | error next stop =>
    cases h_refused
    exact h_answer _ rfl
  | reply => cases h_refused
  | fault => cases h_refused
  | plain next answer h_plain =>
    cases h_refused
    cases h_plain.begins _ _ _ rfl
  | fillTail => cases h_refused

/-- On a slot that is not stopped no call is turned away. -/
theorem not_refused_onSlot {k : Nat} {s : Slot} (hs : log.ring.slots[k]? = some s)
    (h_live : ¬ s.Stopped) {task : Slot.Task} {next : Next} (h_next : next.sweep? = none)
    (h_reply : ∀ error, task ≠ .announce (.error (.refused error)))
    (h : (run (.onSlot k task next) log).1.Leads status) : ¬ Refused status := by
  -- a slot refuses only when it is stopped
  have h_refuses : ∀ {result}, s.Refuses result → ∀ error, result ≠ .error (.refused error) := by
    intro result h_result error h_eq
    obtain ⟨reason, h_phase, -⟩ := h_result error h_eq
    exact h_live ⟨reason, h_phase⟩
  cases lands hs h with
  | parked => exact fun h_refused => by cases h_refused
  | join => exact fun h_refused => by cases h_refused
  | announce h_result =>
    intro h_refused
    cases h_refused
    exact h_refuses h_result _ rfl
  | resumed h_result h =>
    refine (resumes h_next h).not_refused fun error h_eq => ?_
    rcases h_result with h_task | ⟨-, h_result⟩
    · exact h_reply error (h_task.trans (congrArg _ h_eq))
    · exact h_refuses h_result error h_eq

/-- What a step leaves of a log that nothing has happened to, if the call does not sweep the ring. -/
theorem unharmed_run {m : Machine (Log W) Task Result} (h : Unharmed m)
    (h_sweep : t.sweep? = none)
    (h_task : ∀ k task next, t = .onSlot k task next → ¬ Slot.Halts task ∧
      ∀ error, task ≠ .announce (.error (.refused error))) :
    (∀ (k : Nat) s, (run t m.state).2.ring.slots[k]? = some s → ¬ s.Stopped) ∧
      (run t m.state).2.ring.poisoned ≠ true ∧
      ∀ status, (run t m.state).1.Leads status → ¬ Refused status := by
  -- a slot, the mark and the answer of the call are each spoilt by a sweep only, or were before
  refine ⟨?_, ?_, ?_⟩
  · intro k s' hs' h_stopped
    obtain ⟨s, hs, rfl | ⟨task, next, rfl, rfl⟩⟩ := exists_slot_run hs'
    · exact h.live k _ hs h_stopped
    · rcases (Slot.onward_run task s).stopped h_stopped with h_before | h_halts
      · exact h.live k s hs h_before
      · exact (h_task k task next rfl).1 h_halts
  · intro h_poisoned
    rcases (poisoned_run_iff _ _).1 h_poisoned with h_before | ⟨reason, result, rfl⟩
    · exact h.unmarked h_before
    · cases h_sweep
  · intro status h_leads h_refused
    have h_effect := run_effect t m.state
    generalize run t m.state = o at h_leads h_effect
    cases h_effect with
    | refused h_poisoned => exact h.unmarked h_poisoned
    | placed =>
      -- a commit that has reserved its addresses begins with an operation on a slot
      cases h_leads
      generalize h_entry : entryTask _ _ = t at h_refused
      have h_plain := h_entry ▸ plain_entryTask _
      cases h_refused
      cases h_plain.begins _ _ _ rfl
    | @onSlot k task next s hs =>
      obtain ⟨-, h_reply⟩ := h_task k task next rfl
      exact not_refused_onSlot hs (h.live k s hs) h_sweep h_reply h_leads h_refused
    | poisons => cases h_sweep
    | _ =>
      cases h_leads
      cases h_refused

theorem not_refused_answered [Writer W] {i : Nat} {verdict : Verdict} (h_at : AtOutside g i t v)
    (h : (answered t verdict log).1.Leads status) : ¬ Refused status := by
  intro h_refused
  have h_reaction := answered_reaction t verdict log
  generalize answered t verdict log = o at h h_reaction
  -- after a direct write a commit goes on with its tail, which does not begin with a refusal
  cases h_reaction with
  | directWritten =>
    cases h
    generalize h_tail : tailTask _ _ _ = t at h_refused
    have h_plain := h_tail ▸ plain_tailTask _ _
    cases h_refused
    cases h_plain.begins _ _ _ rfl
  -- a call outside has a write to be answered
  | idle h_none => cases h_at <;> cases h_none 0
  | _ =>
    cases h
    cases h_refused

end Step

namespace Run

variable [Writer W] {r r' r₁ r₂ : Run W} {e : Event Task Verdict} {i : Nat}

theorem unharmed_start (r : Run W) : Unharmed r.start.machine := by
  -- a log just created shows empty slots
  have h_shows := (create_ok r.created).picture ⟨false, false⟩
  have h_slots : r.start.machine.state.ring.slots =
      (List.range r.log.geometry.ringSize).map (firstSlot r.log.geometry) := h_shows.slots
  refine ⟨?_, ?_, ?_⟩
  · intro k s hs
    rw [h_slots, List.getElem?_map] at hs
    obtain ⟨index, -, rfl⟩ := Option.map_eq_some_iff.1 hs
    exact Slot.not_stopped rfl nofun
  · intro h_marked
    rcases h_shows.poisoned h_marked with ⟨w, stop, h_mem⟩ | h_asked
    · cases h_mem
    · cases h_asked
  · intro i status hi
    rw [getElem?_calls_start] at hi
    cases hi

theorem unharmed_acts (h : Unharmed r₁.machine) (h_caused : ¬ r₁.Caused) (h_fits : r₁.Fits)
    {status : Status Task Result} {o : Move Task Result × Log W}
    (h_acts : r₁.machine.Acts (program W) e i status o) :
    (∀ (k : Nat) s, o.2.ring.slots[k]? = some s → ¬ s.Stopped) ∧ o.2.ring.poisoned ≠ true ∧
      ∀ status, o.1.Leads status → ¬ Refused status := by
  have h_blames := r₁.blames h_fits
  obtain ⟨P, hm, -⟩ := r₁.exists_matches h_fits r₁.within_all
  -- nobody sweeps the ring, since there would be a reason for it
  have h_none : ∀ {status}, r₁.machine.calls[i]? = some status → Status.sweep? status = none := by
    intro status hi
    rw [Option.eq_none_iff_forall_ne_some]
    exact fun result h_sweep => h_caused (h_blames.caused hi h_sweep)
  obtain ⟨start, v, -, -, h_stands⟩ := hm.exists_view h_acts.before
  cases h_acts with
  | @run i t hi =>
    cases h_stands with
    | ready h_at =>
      refine unharmed_run h (h_none hi) ?_
      rintro k task next rfl
      refine ⟨?_, ?_⟩
      · -- only a call that sweeps the ring stops a slot
        intro h_halts
        have h_sweep := h_none hi
        cases h_halts with
        | abandon flush reason =>
          cases h_at with
          | failing h_failing => cases h_failing; cases h_sweep
        | poison reason =>
          cases h_at with
          | failing h_failing => cases h_failing; cases h_sweep
      · rintro error rfl
        exact h.unrefused i _ hi (.told k error next)
  | @expire i c wake late hi =>
    cases h_stands with
    | parked h_at h_late =>
      have h_sweep := h_none hi
      cases h_late late rfl with
      | rejoin k τ next =>
        -- a deadline ends in a rejoin, which stops no slot
        refine unharmed_run h h_sweep ?_
        rintro _ _ _ ⟨⟩
        exact ⟨fun h_halts => (by cases h_halts), fun error h_eq => by cases h_eq⟩
  | @answer i t verdict hi =>
    have h_ring := ring_answered t verdict r₁.machine.state
    rw [show (program W).reply t verdict r₁.machine.state =
      answered t verdict r₁.machine.state from rfl, h_ring]
    cases h_stands with
    | outside h_at => exact ⟨h.live, h.unmarked, fun status => not_refused_answered h_at⟩

/-- **Without a reason nothing is stopped.** -/
theorem unharmed (r : Run W) (h_fits : r.Fits) : r.Caused ∨ Unharmed r.machine := by
  refine r.induction (motive := fun r => r.Fits → r.Caused ∨ Unharmed r.machine) ?_ ?_ h_fits
  · exact fun _ => .inr r.unharmed_start
  · intro r₁ e r₂ h_next _ ih h_fits₂
    have h_fits₁ := h_next.before.fits h_fits₂
    by_cases h_caused : r₁.Caused
    · exact .inl (h_next.before.caused h_caused)
    · have h := (ih h_fits₁).resolve_left h_caused
      -- an event that lets no call act changes nothing, and the others are those of `unharmed_acts`
      have h_state : (∀ (k : Nat) s, r₂.machine.state.ring.slots[k]? = some s → ¬ s.Stopped) ∧
          r₂.machine.state.ring.poisoned ≠ true := by
        rcases Machine.step_cases h_next.step with ⟨start, -, h_eq⟩ | ⟨i, status, o, h_acts, h_stepped⟩
        · rw [h_eq]
          exact ⟨h.live, h.unmarked⟩
        · rw [h_stepped.state]
          obtain ⟨h_live, h_unmarked, -⟩ := unharmed_acts h h_caused h_fits₁ h_acts
          exact ⟨h_live, h_unmarked⟩
      refine .inr ⟨h_state.1, h_state.2, fun j status₂ hj => ?_⟩
      cases Machine.came h_next.step hj with
      | made start =>
        -- a call does not begin on a slot
        intro h_refused
        rcases h_next.begins with ⟨_, _, _, rfl⟩ | ⟨_, rfl⟩ <;> cases h_refused
      | stepped h_acts h_stepped h_leads =>
        exact (unharmed_acts h h_caused h_fits₁ h_acts).2.2 _ h_leads
      | remained hj₁ h_remains =>
        cases h_remains with
        | same => exact h.unrefused j _ hj₁
        | woken c wake late =>
          obtain ⟨task, next, rfl, -, h_blocks⟩ := r₁.blocked j c wake late hj₁
          intro h_told
          cases h_told
          cases h_blocks

/-! ### Calls that are made once the log is marked -/

/-- The commit has not begun yet or has been turned away, and nothing is noted for it. -/
structure TurnedAway (r : Run W) (i : Nat) (start : Task) : Prop where
  status : r.machine.calls[i]? = some (.ready start) ∨
    r.machine.calls[i]? = some (.finished (.error (.refused (.poisoned .earlierFailure))))
  unnoted : ∀ note ∈ r.journal, note.call ≠ i

variable {start : Task}

/-- A commit that finds the log marked is turned away in its first step, and has changed nothing. -/
theorem TurnedAway.next (h : TurnedAway r₁ i start) (h_commit : start.IsCommit)
    (h_marked : r₁.machine.state.ring.poisoned = true) (h_next : r₁.Next e r₂) :
    TurnedAway r₂ i start := by
  obtain ⟨h_status, h_unnoted⟩ := h
  have h_notes : (∀ note ∈ notes r₁.machine e, note.call ≠ i) → ∀ note ∈ r₂.journal, note.call ≠ i := by
    intro h_new note hn
    rw [h_next.journal] at hn
    exact (List.mem_append.1 hn).elim (h_unnoted note) (h_new note)
  rcases Machine.step_cases h_next.step with ⟨start', rfl, h_eq⟩ | ⟨j, status, o, h_acts, h_stepped⟩
  · -- a further call leaves the others in their places
    have h_kept : ∀ {status}, r₁.machine.calls[i]? = some status →
        r₂.machine.calls[i]? = some status := by
      intro status hi
      obtain ⟨h_lt, -⟩ := List.getElem?_eq_some_iff.1 hi
      rw [h_eq]
      exact (List.getElem?_append_left h_lt).trans hi
    exact ⟨h_status.imp h_kept h_kept, h_notes fun note hn => by cases hn⟩
  · by_cases h_self : i = j
    · subst h_self
      obtain ⟨status', hi', h_leads⟩ := h_stepped.self
      obtain ⟨timestamp, payload, hint, rfl⟩ := h_commit
      have hi := h_acts.before
      rcases h_status with h_ready | h_finished
      · cases h_ready.symm.trans hi
        cases h_acts with
        | run hi =>
          -- the first step looks at the mark of the ring and ends the call
          have h_run : (program W).run (.commit timestamp payload hint) r₁.machine.state =
              (.finish (.error (.refused (.poisoned .earlierFailure))), r₁.machine.state) :=
            if_pos h_marked
          rw [h_run] at h_leads
          cases h_leads
          have h_quiet : notes r₁.machine (.run i) = [] := notes_run hi
          exact ⟨.inr hi', h_notes fun note hn => by rw [h_quiet] at hn; cases hn⟩
      · -- a call that has returned does not act
        cases h_finished.symm.trans hi
        cases h_acts
    · -- the call is not blocked, so another one does not wake it
      refine ⟨h_status.imp (h_stepped.ready h_self) (fun hi => ?_), h_notes fun note hn => ?_⟩
      · obtain ⟨status', hi', h_remains⟩ := h_stepped.other i _ h_self hi
        cases h_remains
        exact hi'
      · rw [call_of_notes h_acts hn]
        exact Ne.symm h_self

/-- **Once the log is marked**, every commit that is made is turned away. -/
theorem turnedAway (h_before : r.Before r') (h_marked : r.machine.state.ring.poisoned = true) :
    ∀ i ≥ r.machine.calls.length, ∀ start, r'.starts[i]? = some start → start.IsCommit →
      TurnedAway r' i start := by
  refine h_before.induction ?_ ?_
  · intro i hi start h_start
    -- the calls made so far are not meant
    obtain ⟨h_lt, -⟩ := List.getElem?_eq_some_iff.1 h_start
    rw [r.starts_length] at h_lt
    omega
  · intro r₁ e r₂ h_before₁ h_next _ ih i hi start h_start h_commit
    rcases h_next.start_cases h_start with h_start | ⟨rfl, rfl⟩
    · exact (ih i hi start h_start h_commit).next h_commit (h_before₁.poisoned h_marked) h_next
    · -- a call just made is ready and has noted nothing
      have h_eq : r₂.machine.calls = r₁.machine.calls ++ [.ready start] :=
        (congrArg Machine.calls (Option.some.inj h_next.step)).symm
      refine ⟨.inl (h_eq ▸ List.getElem?_concat_length), fun note hn => ?_⟩
      rw [h_next.journal, show notes r₁.machine (.call start) = [] from rfl, List.append_nil] at hn
      exact (r₁.call_lt note hn).ne

end Run

/-! ### The statement -/

section Poisoning

variable [Writer W]

/-- A call has returned after it has swept the ring: with the error of its call to the Writer, or as it
was asked to. -/
def Run.HasSwept (r : Run W) : Prop :=
  ∃ i : Nat, (∃ e, r.machine.calls[i]? = some (.finished (.error (.refused (.io e))))) ∨
    r.machine.calls[i]? = some (.finished (.ok .poisoned))

/-- What is left in the later run `r'` of a log that was stopped in the run `r`. -/
structure Stays (r r' : Run W) : Prop where
  ring : r'.machine.state.ring.slots.length = r.config.ringSize
  /-- Every slot is stopped for the same reason, and stays in its generation with as many bytes. -/
  slot : ∀ k < r.config.ringSize, ∃ s s' reason,
    r.machine.state.ring.slots[k]? = some s ∧ r'.machine.state.ring.slots[k]? = some s' ∧
      s.phase = .poisoned reason ∧ s'.phase = .poisoned reason ∧
      s'.tag = s.tag ∧ s'.dirty = s.dirty ∧ s'.highWater = s.highWater
  /-- Nobody is blocked. -/
  free : ∀ (j k : Nat) wake late, r'.machine.calls[j]? ≠ some (.parked k wake late)
  /-- Whoever was blocked and has been woken is turned away when it looks at its slot. -/
  woken : ∀ (j k : Nat) task next, r'.machine.calls[j]? = some (.ready (.onSlot k task next)) →
    Slot.Blocks task → ∃ reason log', run (.onSlot k task next) r'.machine.state =
      (.finish (.error (.refused (.poisoned reason))), log')

/-- How far a commit gets that is made once the log is marked: it is turned away in its first step,
which changes nothing, and no address, no slot and no call to the Writer is noted for it. -/
structure Rejected (r' : Run W) (i : Nat) (start : Task) : Prop where
  status : r'.machine.calls[i]? = some (.ready start) ∨
    r'.machine.calls[i]? = some (.finished (.error (.refused (.poisoned .earlierFailure))))
  step : run start r'.machine.state =
    (.finish (.error (.refused (.poisoned .earlierFailure))), r'.machine.state)
  unnoted : ∀ note ∈ r'.journal, note.call ≠ i

/-- What failing calls to the Writer do to a log. -/
structure Poisoning (r : Run W) : Prop where
  /-- A commit that returns an error of the Writer had it from its own call. -/
  io : ∀ (i : Nat) e, r.machine.calls[i]? = some (.finished (.error (.refused (.io e)))) →
    r.WriteFailed i e
  /-- A commit whose call to the Writer has failed has returned the error, or it is on its way to do so
  and waits for nobody. -/
  failed : ∀ (i : Nat) e, r.WriteFailed i e →
    r.machine.calls[i]? = some (.finished (.error (.refused (.io e)))) ∨
      ∃ t, r.machine.calls[i]? = some (.ready t)
  /-- A commit is turned away only if some call to the Writer has failed before, or somebody has asked
  for the log to be poisoned. -/
  poisoned : ∀ (i : Nat) reason,
    r.machine.calls[i]? = some (.finished (.error (.refused (.poisoned reason)))) → r.Caused
  /-- Once all slots have been swept the log is stopped for good. -/
  swept : r.HasSwept → ∀ r', r.Before r' → r'.Fits → Stays r r'
  /-- Once the log is marked, no commit that is made gets anywhere. -/
  marked : r.machine.state.ring.poisoned = true → ∀ r', r.Before r' →
    ∀ i ≥ r.machine.calls.length, ∀ start, r'.starts[i]? = some start → start.IsCommit →
      Rejected r' i start

variable {r r' : Run W}

/-- A call that looks at a stopped slot once more is turned away. -/
theorem Run.refused_of_stopped (h_fits : r.Fits) {j k : Nat} {task : Slot.Task} {next : Log.Next} {s : Slot}
    {reason : PoisonReason}
    (hj : r.machine.calls[j]? = some (.ready (.onSlot k task next))) (h_blocks : Slot.Blocks task)
    (hs : r.machine.state.ring.slots[k]? = some s) (h_phase : s.phase = .poisoned reason) :
    ∃ log', run (.onSlot k task next) r.machine.state =
      (.finish (.error (.refused (.poisoned reason))), log') := by
  obtain ⟨P, hm, -⟩ := r.exists_matches h_fits r.within_all
  obtain ⟨start, v, -, hv, h_stands⟩ := hm.exists_view hj
  rw [run_onSlot hs]
  cases h_stands with
  | ready h_at =>
    -- whoever waits for its bytes has been counted
    have h_counted : ∀ ticket, task = .rejoin ticket → 0 < s.waiters := by
      rintro ticket rfl
      rw [hm.log.slots] at hs
      cases h_at with
      | rejoin h_hold h_waits => exact hm.inv.waiters_pos hv h_waits hs
      | failing h_failing => cases h_failing
    obtain ⟨s', h_run⟩ := Slot.run_of_stopped h_phase h_blocks h_counted
    rw [h_run]
    -- the call on the log ends as the one on the slot
    have h_next : resume r.machine.state.geometry next (.error (Slot.poisonedStop reason)) =
        .finish (.error (Slot.poisonedStop reason)) := by
      cases h_at with
      | failing h_failing => cases h_failing <;> cases h_blocks
      | acquire => rfl
      | fillJoin => rfl
      | rejoin => rfl
      | fillTail => rfl
      | _ => cases h_blocks
    exact ⟨_, Prod.ext h_next rfl⟩

theorem Run.HasSwept.stays (h : r.HasSwept) (h_fits : r.Fits) (h_before : r.Before r')
    (h_fits' : r'.Fits) : Stays r r' := by
  -- in both runs all slots are closed, since the call has returned in both of them
  have h_closed : ∀ r₁ : Run W, r.Before r₁ → r₁.Fits → ∀ k < r.config.ringSize,
      Closed r₁.machine k := by
    intro r₁ h_before₁ h_fits₁ k hk
    rw [h_before₁.config_eq, ← r₁.ringSize_eq] at hk
    obtain ⟨i, ⟨e, hi⟩ | hi⟩ := h
    · exact r₁.closed_of_finished h_fits₁ (h_before₁.finished hi) rfl hk
    · exact r₁.closed_of_finished h_fits₁ (h_before₁.finished hi) rfl hk
  obtain ⟨P, hm, -⟩ := r'.exists_matches h_fits' r'.within_all
  have h_ring : r'.machine.state.ring.slots.length = r.config.ringSize := by
    rw [hm.log.slots, hm.inv.ring, r'.ringSize_eq, h_before.config_eq]
  refine ⟨h_ring, ?_, ?_, ?_⟩
  · intro k hk
    obtain ⟨s, hs, reason, h_phase⟩ := (h_closed r (.refl r) h_fits k hk).stopped
    -- a stopped slot changes no more but for its waiters and its buffer
    obtain ⟨s', hs', waiters, buffer, rfl⟩ := h_before.frozen hs ⟨reason, h_phase⟩
    exact ⟨s, _, reason, hs, hs', h_phase, h_phase, rfl, rfl, rfl⟩
  · intro j k wake late hj
    obtain ⟨task, next, rfl, -, -⟩ := r'.blocked j k wake late hj
    obtain ⟨start, v, -, -, h_stands⟩ := hm.exists_view hj
    cases h_stands with
    | parked h_at h_late =>
      have hk := h_at.slot_lt
      rw [r'.ringSize_eq, ← h_before.config_eq] at hk
      -- nobody is blocked on a closed slot
      exact (h_closed r' h_before h_fits' k hk).free j _ _ hj
  · intro j k task next hj h_blocks
    obtain ⟨start, v, -, -, h_stands⟩ := hm.exists_view hj
    cases h_stands with
    | ready h_at =>
      have hk := h_at.slot_lt
      rw [r'.ringSize_eq, ← h_before.config_eq] at hk
      obtain ⟨s, hs, reason, h_phase⟩ := (h_closed r' h_before h_fits' k hk).stopped
      exact ⟨reason, Run.refused_of_stopped h_fits' hj h_blocks hs h_phase⟩

/-- Every commit made after the mark is turned away in all later runs. -/
theorem Run.rejected (h_marked : r.machine.state.ring.poisoned = true) (h_before : r.Before r')
    {i : Nat} (hi : r.machine.calls.length ≤ i) {start : Task} (h_start : r'.starts[i]? = some start)
    (h_commit : start.IsCommit) : Rejected r' i start := by
  obtain ⟨h_status, h_unnoted⟩ := Run.turnedAway h_before h_marked i hi start h_start h_commit
  obtain ⟨timestamp, payload, hint, rfl⟩ := h_commit
  exact ⟨h_status, if_pos (h_before.poisoned h_marked), h_unnoted⟩

end Poisoning

/-! ### A log that is stopped -/

/-- The call whose write has failed stops the only slot and returns; a third commit is turned away. -/
def thirdCommit : List (Event Task Verdict) :=
  [.run 1, .run 1, .call (.commit 9 [5] 0), .run 2]

set_option maxRecDepth 100000 in
/-- The run of the second commit, until the log is stopped and a third commit has returned. -/
def Run.third : Run MemoryWriter :=
  Run.small (firstCommit ++ secondCommit ++ thirdCommit) (isCommit_of_commitsOnly rfl) rfl

set_option maxRecDepth 100000 in
/-- The third run fits the address space. -/
theorem Run.third_fits : Run.third.Fits := by
  show _ < _
  decide +kernel

/-- The second run comes before the third. -/
theorem Run.second_before : Run.second.Before Run.third where
  log := (rfl : smallLog = smallLog)
  events := List.prefix_append (firstCommit ++ secondCommit) thirdCommit

end GroupCommit.Log
