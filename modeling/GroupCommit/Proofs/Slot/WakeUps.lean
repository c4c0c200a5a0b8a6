import GroupCommit.Proofs.Machine.Bookkeeping
import GroupCommit.Proofs.Slot.Steps

/-!
# No wake-up is lost on a slot

Nobody is left waiting on a slot for what has come. Whenever a step of some call brings what a blocked
call waits for, that call goes on to wake everybody who is blocked, unless it has run out of addresses.
So once all calls that are about to wake the others have done so, every call that is still blocked
would only go on waiting if it looked at the slot again.

* `Slot.Vigilant`: the statement.
* `Slot.no_lost_wakeUp`: the theorem.
-/

namespace GroupCommit.Slot

/-- The call is about to wake the others. -/
def Announces (task : Task) : Prop := ∃ result, task = .announce result

/-- The call was made to end a generation, and it has run out of addresses while it moved the slot on. The
calls of `m` began with the tasks `starts`. -/
def RanOut (starts : List Task) (m : Machine Slot Task Result) (i : Nat) : Prop :=
  (∃ start, starts[i]? = some start ∧ Ends start) ∧
    m.calls[i]? = some (.finished (.error (.fault .addOverflow)))

/-- No wake-up is lost in the state `m`, whose calls began with the tasks `starts`. -/
structure Vigilant (starts : List Task) (m : Machine Slot Task Result) : Prop where
  /-- When an event brings what a blocked call waits for, the call that brings it goes on to wake the
  others, unless it has run out of addresses. -/
  announced : ∀ e m', m.step program e = some m' → ∀ (j c : Nat) wake late,
    m.calls[j]? = some (.parked c wake late) → m.state.Waits wake → ¬ m'.state.Waits wake →
      ∃ i, (e = .run i ∨ e = .expire i) ∧
        ((∃ result, m'.calls[i]? = some (.ready (.announce result))) ∨ RanOut starts m' i)
  /-- To wake the others is a step of its own. It is possible at any time and leaves no call blocked. -/
  announces : ∀ (i : Nat) result, m.calls[i]? = some (.ready (.announce result)) →
    ∃ m', m.step program (.run i) = some m' ∧ m'.state = m.state ∧
      m'.calls[i]? = some (.finished result) ∧
      ∀ (j c : Nat) wake late, m.calls[j]? = some (.parked c wake late) →
        m'.calls[j]? = some (.ready wake)
  /-- When nobody is about to wake the others, every blocked call would only go on waiting if it looked
  at the slot again, unless some call has run out of addresses. -/
  settled : (∀ i, ¬ RanOut starts m i) →
    (∀ (i : Nat) result, m.calls[i]? ≠ some (.ready (.announce result))) →
    ∀ (j c : Nat) wake late, m.calls[j]? = some (.parked c wake late) →
      run wake m.state = (.park c wake late, m.state)

/-! ### Runs -/

section Runs

variable {m m' : Machine Slot Task Result} {e : Event Task Empty} {i : Nat}
  {s : Slot} {task : Task} {o : Move Task Result × Slot} {status : Status Task Result}

variable {starts : List Task}

/-- A call that moves the slot on does not wait. -/
theorem Waits.not_ends (h : s.Waits task) : ¬ Ends task := by
  rintro (_ | _) <;> exact h

/-- A call goes on to wait or to wake the others, and ends no generation then. -/
theorem Outcome.not_ends (h : Outcome task s o) {next : Task} (h_leads : o.1.Leads (.ready next)) :
    ¬ Ends next := by
  cases h with
  | join | announce => cases h_leads; nofun
  | park | finish => cases h_leads

/-- Calls are blocked on the only condition that there is, and with the deadline of their task. -/
def Placed (m : Machine Slot Task Result) : Prop :=
  ∀ (j c : Nat) wake late, m.calls[j]? = some (.parked c wake late) →
    c = 0 ∧ late = deadline wake ∧ ¬ Ends wake

/-- A call that ends a generation does so with the task that it began with. -/
def Direct (starts : List Task) (m : Machine Slot Task Result) : Prop :=
  ∀ (j : Nat) task, m.calls[j]? = some (.ready task) → Ends task → starts[j]? = some task

/-- A step wakes the others, or it is one of those that `Outcome` lists, or it is to end a generation and
runs out of addresses. -/
theorem outcome_of_acts (h : m.Acts program e i status o) (h_placed : Placed m) :
    (e = .run i ∨ e = .expire i) ∧
      ((∃ result, status = .ready (.announce result) ∧
        o = (.notify 0 fun _ => .finish result, m.state)) ∨
      ∃ task, Outcome task m.state o ∨
        (status = .ready task ∧ Ends task ∧ Overflows task m.state o)) := by
  cases h with
  | @run i task hi =>
    refine ⟨.inl rfl, ?_⟩
    by_cases h_task : ∃ result, task = .announce result
    · obtain ⟨result, rfl⟩ := h_task
      exact .inl ⟨result, rfl, rfl⟩
    · -- all steps but the announcing one end in one of the ways of `Outcome`
      have h_outcome := run_outcome m.state fun result h_eq => h_task ⟨result, h_eq⟩
      exact .inr ⟨task, h_outcome.imp_right fun h => ⟨rfl, h⟩⟩
  | @expire i c wake late hi =>
    -- a deadline leads to the last look at a ticket
    obtain ⟨-, h_late, -⟩ := h_placed i c wake _ hi
    cases wake with
    | rejoin ticket =>
      cases h_late
      refine ⟨.inr rfl, .inr ⟨.joinLate ticket, .inl ?_⟩⟩
      have h_task : ∀ result, Task.joinLate ticket ≠ .announce result := nofun
      exact (run_outcome m.state h_task).resolve_right fun h => nomatch h.1
    | _ => cases h_late
  | @answer i task answer hi => exact answer.elim

/-- Every blocked call stays placed. -/
theorem Placed.step (h : Placed m) (h_step : m.step program e = some m') : Placed m' := by
  intro j c wake late hj
  cases Machine.came h_step hj with
  | stepped h_acts h_stepped h_leads =>
    rcases (outcome_of_acts h_acts h).2 with ⟨result, -, rfl⟩ | ⟨task, h_outcome | ⟨-, -, h_over⟩⟩
    · -- the call that woke the others has ended
      exact absurd h_leads not_parked_announce
    · obtain ⟨h_zero, h_late, h_waits⟩ := h_outcome.placed h_leads
      exact ⟨h_zero, h_late, Waits.not_ends h_waits⟩
    · cases h_over.finished h_leads
  | remained hj h_remains =>
    cases h_remains
    exact h j c wake late hj

/-- A call that can run out of addresses is still in its first step. -/
theorem Direct.step (h : Direct starts m) (h_placed : Placed m)
    (h_length : starts.length = m.calls.length) (h_step : m.step program e = some m') :
    Direct (starts ++ e.start?.toList) m' := by
  intro j task hj h_ends
  cases Machine.came h_step hj with
  | made start =>
    rw [← h_length]
    exact List.getElem?_concat_length
  | stepped h_acts h_stepped h_leads =>
    rcases (outcome_of_acts h_acts h_placed).2 with
      ⟨result, -, rfl⟩ | ⟨task, h_outcome | ⟨-, -, h_over⟩⟩
    · cases h_leads with
      | notify h_leads => cases h_leads
    · -- what a call goes on with moves no slot on
      exact absurd h_ends (h_outcome.not_ends h_leads)
    · cases h_over.finished h_leads
  | remained hj h_remains =>
    cases h_remains with
    | same =>
      obtain ⟨h_lt, -⟩ := List.getElem?_eq_some_iff.1 hj
      rw [List.getElem?_append_left (h_length ▸ h_lt)]
      exact h j task hj h_ends
    -- nor does what a woken call goes on with
    | woken c wake late => exact absurd h_ends (h_placed j c _ late hj).2.2

/-- A step that runs out of addresses is the first one of its call. -/
theorem RanOut.of_stepped (h_direct : Direct starts m) (h_acts : m.Acts program e i status o)
    (h_stepped : m.Stepped m' i o) (h_status : status = .ready task) (h_ends : Ends task)
    (h_over : Overflows task m.state o) : RanOut starts m' i := by
  subst h_status
  obtain ⟨status', hi', h_leads⟩ := h_stepped.self
  refine ⟨⟨task, h_direct i task h_acts.before h_ends, h_ends⟩, ?_⟩
  exact hi'.trans (congrArg some (h_over.finished h_leads))

/-- One step loses no wake-up, unless it runs out of addresses. -/
theorem heard_step (h : Machine.Heard Waits Announces 0 m) (h_placed : Placed m)
    (h_direct : Direct starts m) (h_step : m.step program e = some m') :
    (∃ i, RanOut starts m' i) ∨ Machine.Heard Waits Announces 0 m' := by
  rcases Machine.step_cases h_step with ⟨start, rfl, rfl⟩ | ⟨i, status, o, h_acts, h_stepped⟩
  · exact .inr (h.call start)
  · rcases (outcome_of_acts h_acts h_placed).2 with
      ⟨result, h_status, rfl⟩ | ⟨task, h_outcome | ⟨h_status, h_ends, h_over⟩⟩
    · -- the step that wakes the others changes nothing else
      refine .inr (h.stepped h_acts.before h_stepped ?_ (.inr fun _ => id) fun _ _ _ => ⟨_, rfl⟩)
      exact fun wake late h_leads => absurd h_leads not_parked_announce
    · have h_park : ∀ wake late, o.1.Leads (.parked 0 wake late) → o.2.Waits wake :=
        fun wake late h_leads => (h_outcome.placed h_leads).2.2
      -- a call that is about to wake the others does just that
      have h_other : ∀ task, status = .ready task → Announces task →
          ∃ next, o.1 = .notify 0 next := by
        rintro task rfl ⟨result, rfl⟩
        cases h_acts
        exact ⟨_, rfl⟩
      refine .inr (h.stepped h_acts.before h_stepped h_park ?_ h_other)
      cases h_outcome with
      | park h_quiet h_waits => exact .inr fun _ => h_quiet.waits
      | join h_quiet => exact .inr fun _ => h_quiet.waits
      | finish h_quiet h_result => exact .inr fun _ => h_quiet.waits
      | announce => exact .inl ⟨_, rfl, _, rfl⟩
    · -- out of addresses, the call has changed the slot and wakes nobody
      exact .inl ⟨i, .of_stepped h_direct h_acts h_stepped h_status h_ends h_over⟩

/-- The first tasks of the calls are not changed by those of later calls. -/
theorem RanOut.append (h : RanOut starts m i) (more : List Task) : RanOut (starts ++ more) m i := by
  obtain ⟨⟨start, h_start, h_ends⟩, h_over⟩ := h
  obtain ⟨h_lt, -⟩ := List.getElem?_eq_some_iff.1 h_start
  exact ⟨⟨start, (List.getElem?_append_left h_lt).trans h_start, h_ends⟩, h_over⟩

/-- As long as no call has run out of addresses, every change has been heard or is about to be. -/
theorem heard_steps {slot : Slot} {es : List (Event Task Empty)}
    (h_steps : (Machine.idle slot).steps program es = some m) :
    Placed m ∧ Direct (Machine.starts es) m ∧
      ((∃ i, RanOut (Machine.starts es) m i) ∨ Machine.Heard Waits Announces 0 m) := by
  induction es using List.reverseRecOn generalizing m with
  | nil =>
    cases h_steps
    refine ⟨fun j c wake late hj => ?_, fun j task hj => ?_, .inr (Machine.heard_idle slot)⟩
    · rw [Machine.getElem?_idle] at hj
      cases hj
    · rw [Machine.getElem?_idle] at hj
      cases hj
  | append_singleton es e ih =>
    obtain ⟨m₁, h₁, h_step⟩ := Machine.steps_concat _ h_steps
    obtain ⟨h_placed, h_direct, h_heard⟩ := ih h₁
    rw [Machine.starts_concat]
    refine ⟨h_placed.step h_step, h_direct.step h_placed (Machine.length_starts h₁) h_step, ?_⟩
    rcases h_heard with ⟨i, h_first, h_over⟩ | h_heard
    · -- a call that has ended so stays ended
      exact .inl ⟨i, RanOut.append ⟨h_first, Machine.step_finished h_step h_over⟩ _⟩
    · refine (heard_step h_heard h_placed h_direct h_step).imp_left ?_
      exact fun ⟨i, hi⟩ => ⟨i, hi.append _⟩

/-- **No wake-up is lost on a slot**, whatever calls are made on it and in whatever order they make
their steps. -/
theorem no_lost_wakeUp {slot : Slot} {es : List (Event Task Empty)}
    (h_steps : (Machine.idle slot).steps program es = some m) : Vigilant (Machine.starts es) m := by
  obtain ⟨h_placed, h_direct, h_heard⟩ := heard_steps h_steps
  refine ⟨?_, ?_, ?_⟩
  · -- a change that lets a blocked call go on has an announcer
    intro e m' h_step j c wake late hj h_waits h_over
    rcases Machine.step_cases h_step with ⟨start, rfl, rfl⟩ | ⟨i, status, o, h_acts, h_stepped⟩
    · exact absurd h_waits h_over
    · obtain ⟨h_event, h_cases⟩ := outcome_of_acts h_acts h_placed
      obtain ⟨status', hi', h_leads⟩ := h_stepped.self
      rw [h_stepped.state] at h_over
      refine ⟨i, h_event, ?_⟩
      rcases h_cases with ⟨result, -, rfl⟩ | ⟨task, h_outcome | ⟨h_status, h_ends, h_room⟩⟩
      · exact absurd h_waits h_over
      · -- the change is not quiet
        cases h_outcome with
        | park h_quiet => exact absurd (h_quiet.waits h_waits) h_over
        | join h_quiet => exact absurd (h_quiet.waits h_waits) h_over
        | finish h_quiet => exact absurd (h_quiet.waits h_waits) h_over
        | announce =>
          cases h_leads
          exact .inl ⟨_, hi'⟩
      · exact .inr (.of_stepped h_direct h_acts h_stepped h_status h_ends h_room)
  · -- the announcer wakes all, and ends
    intro i result hi
    obtain ⟨h_lt, -⟩ := List.getElem?_eq_some_iff.1 hi
    have h_stepped := Machine.stepped_perform m h_lt (run (.announce result) m.state)
    refine ⟨_, by rw [Machine.step, hi]; rfl, h_stepped.state, ?_, ?_⟩
    · obtain ⟨status', hi', h_leads⟩ := h_stepped.self
      cases h_leads with
      | notify h_leads =>
        cases h_leads
        exact hi'
    · intro j c wake late hj
      obtain ⟨rfl, -⟩ := h_placed j c wake late hj
      refine h_stepped.notified 0 _ rfl j wake late ?_ hj
      rintro rfl
      cases hi.symm.trans hj
  · -- with nobody about to announce, those that are blocked have to be
    intro h_room h_silent j c wake late hj
    obtain ⟨rfl, rfl, -⟩ := h_placed j c wake late hj
    rcases h_heard.resolve_left (not_exists.2 h_room) with ⟨i, task, hi, result, rfl⟩ | h_waits
    · exact absurd hi (h_silent i result)
    · exact run_of_waits (h_waits j wake _ hj)

end Runs

/-! ### A slot with two bytes -/

/-- A slot of two bytes, alone in its ring. -/
def smallSlot : Slot where
  index := 0
  capacity := 2
  gap := 2
  tag := 0
  dirty := 0
  highWater := 0
  phase := .filling
  waiters := 0
  skipped := []
  claims := 0
  durable := ⟨0, 0⟩
  buffer := .blank 2

/-- One call waits for the second generation and one for its byte in the first, which a third call
completes. -/
def sharedFill : List (Event Task Empty) :=
  [.call (.acquire 2), .run 0, .call (.fillJoin 0 0 [1]), .run 1, .run 1, .call (.fill 0 1 [2]),
    .run 2]

/-- The third call wakes the others. The first of them waits on, and the second one takes the flush. -/
def sharedFlush : List (Event Task Empty) := sharedFill ++ [.run 2, .run 0, .run 1]

set_option maxRecDepth 10000 in
/-- Two calls are blocked, and the third one, which has brought what one of them waits for, is about to wake
them. When it has done so and they have looked at the slot, the one that is blocked still would only go on
waiting. -/
theorem no_lost_wakeUp_sharedFill : ∃ m m', (Machine.idle smallSlot).steps program sharedFill = some m ∧
    m.calls = [.parked 0 (.acquire 2) none,
      .parked 0 (.rejoin ⟨0, 1, 0⟩) (some (.joinLate ⟨0, 1, 0⟩)),
      .ready (.announce (.ok (.filled ⟨0, 2, 0⟩)))] ∧
    (∃ m₁, m.step program (.run 2) = some m₁ ∧ m₁.state = m.state ∧
      m₁.calls[1]? = some (.ready (.rejoin ⟨0, 1, 0⟩))) ∧
    (Machine.idle smallSlot).steps program sharedFlush = some m' ∧
    m'.calls = [.parked 0 (.acquire 2) none,
      .finished (.ok (.joined (some ⟨0, 2, .full, ⟨2, [1, 2]⟩⟩))),
      .finished (.ok (.filled ⟨0, 2, 0⟩))] ∧
    run (.acquire 2) m'.state = (.park 0 (.acquire 2) none, m'.state) := by
  have h_possible : ((Machine.idle smallSlot).steps program sharedFill).isSome := rfl
  have h_possible' : ((Machine.idle smallSlot).steps program sharedFlush).isSome := rfl
  have h_steps := (Option.some_get h_possible).symm
  have h_steps' := (Option.some_get h_possible').symm
  obtain ⟨m₁, h_step, h_state, -, h_woken⟩ := (no_lost_wakeUp h_steps).announces 2 _ rfl
  refine ⟨_, _, h_steps, rfl, ⟨m₁, h_step, h_state, h_woken 1 0 _ _ rfl⟩, h_steps', rfl, ?_⟩
  refine (no_lost_wakeUp h_steps').settled ?_ ?_ 0 0 _ _ rfl
  · -- none of the calls has run out of addresses
    rintro (_ | _ | _ | i) ⟨-, h_over⟩ <;> cases h_over
  · -- and none is about to announce
    rintro (_ | _ | _ | i) result h_announces <;> cases h_announces

end GroupCommit.Slot
