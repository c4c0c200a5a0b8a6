import GroupCommit.Proofs.Machine.WakeUps
import GroupCommit.Proofs.Slot.Operations

/-!
# Steps of calls on a slot

What one step of a call does to a slot, as far as the other calls on it are concerned.

A call that is blocked waits for its generation to be accepted, or for its ticket to be settled. Most
operations of a slot never bring what somebody waits for: a fill that leaves the slot open, the taking
of a flush and all that waiting callers do themselves. They are `Quiet`, and wake nobody. All other
operations go on to wake everybody, except for one that runs out of addresses while it moves the slot
on, which ends in a fault.

A slot never goes back to an earlier generation, and once it is stopped it stays as it is: a step can
bring back its buffer or change the number of its waiters, and nothing else. Nobody is blocked on a slot
that is stopped, and whoever looks at it is turned away.

* `Slot.Waits`: what a blocked call waits for has not come.
* `Slot.MovesOn`: what the end of a generation does to a slot.
* `Slot.Outcome`, `Slot.run_outcome`: how a step ends, and which steps are quiet.
* `Slot.onward_run`: generations go forward, and few tasks stop a slot.
* `Slot.step_goto`, `Slot.step_finish`, `Slot.step_announce`: the step of the call made last.
* `Slot.Frozen`, `Slot.run_stopped`, `Slot.run_of_stopped`: slots that are stopped.
* `Slot.exists_flush`: a join ends with a flush unless somebody else has written the bytes.
-/

namespace GroupCommit.Slot

variable {s s' s₁ : Slot} {tag : Nat} {ticket : Ticket} {task : Task}

/-! ### Waiting -/

/-- A call that is blocked with this task still has to wait. -/
def Waits (s : Slot) : Task → Prop
  | .acquire tag => s.accepts tag = .ok false
  | .fill tag _ _ => s.accepts tag = .ok false
  | .fillJoin tag _ _ => s.accepts tag = .ok false
  | .rejoin ticket => (s.poll ticket).1 = none
  | _ => False

/-- When a fill is taken or waits. -/
theorem accepts_eq_ok {accepted : Bool} : s.accepts tag = .ok accepted ↔
    ¬ s.Stopped ∧ s.tag ≤ tag ∧ decide (s.tag = tag ∧ s.phase = .filling) = accepted := by
  by_cases h_stopped : s.Stopped
  · obtain ⟨reason, h_phase⟩ := h_stopped
    rw [accepts_stopped h_phase]
    exact ⟨nofun, fun h => absurd ⟨reason, h_phase⟩ h.1⟩
  · -- open slots are told apart by whether they have reached the generation
    by_cases h_le : s.tag ≤ tag
    · rw [accepts_ok h_stopped h_le, Except.ok.injEq]
      exact ⟨fun h => ⟨h_stopped, h_le, h⟩, fun h => h.2.2⟩
    · -- the generation is over
      refine ⟨fun h => ?_, fun h => absurd h.2.1 h_le⟩
      unfold accepts at h
      split at h
      · cases h
      · rw [if_pos (by omega)] at h
        cases h

/-- When a fill waits. -/
theorem accepts_eq_false : s.accepts tag = .ok false ↔
    ¬ s.Stopped ∧ s.tag ≤ tag ∧ ¬ (s.tag = tag ∧ s.phase = .filling) := by
  rw [accepts_eq_ok, decide_eq_false_iff_not]

/-- When a fill is taken. -/
theorem accepts_eq_true : s.accepts tag = .ok true ↔
    ¬ s.Stopped ∧ s.tag = tag ∧ s.phase = .filling := by
  rw [accepts_eq_ok, decide_eq_true_iff]
  exact and_congr_right fun _ => and_iff_right_of_imp fun h => h.1.le

/-- When a poll finds nothing, so that the call goes on waiting. -/
theorem poll_eq_none : (s.poll ticket).1 = none ↔
    ¬ s.Stopped ∧ ticket.tag ≤ s.tag ∧ ¬ s.Settles ticket ∧ s.phase ≠ .full := by
  -- `poll` decides in this order: stopped, behind the ticket, settled, full
  by_cases h_stopped : s.Stopped
  · obtain ⟨reason, h_phase⟩ := h_stopped
    rw [poll_stopped h_phase]
    exact ⟨nofun, fun h => absurd ⟨reason, h_phase⟩ h.1⟩
  · by_cases h_le : ticket.tag ≤ s.tag
    · rw [poll_ok h_stopped h_le]
      by_cases h_settles : s.Settles ticket
      · rw [if_pos h_settles]
        exact ⟨nofun, fun h => absurd h_settles h.2.2.1⟩
      · rw [if_neg h_settles]
        by_cases h_full : s.phase = .full
        · rw [if_pos h_full]
          exact ⟨nofun, fun h => absurd h_full h.2.2.2⟩
        · rw [if_neg h_full]
          exact ⟨fun _ => ⟨h_stopped, h_le, h_settles, h_full⟩, fun _ => rfl⟩
    · -- the ticket is of a later generation, which is a fault
      refine ⟨fun h => ?_, fun h => absurd h.2.1 h_le⟩
      unfold poll at h
      split at h
      · cases h
      · rw [if_pos (by omega)] at h
        cases h

/-- A call that finds nothing to do leaves the slot as it is. -/
theorem poll_none (h : (s.poll ticket).1 = none) : s.poll ticket = (none, s) := by
  obtain ⟨h_live, h_le, h_settles, h_full⟩ := poll_eq_none.1 h
  rw [poll_ok h_live h_le, if_neg h_settles, if_neg h_full]

/-- What a blocked call does at its deadline. -/
def deadline : Task → Option Task
  | .rejoin ticket => some (.joinLate ticket)
  | _ => none

/-- A call that still has to wait goes on waiting when it is woken, and leaves the slot as it is. -/
theorem run_of_waits (h : s.Waits task) : run task s = (.park 0 task (deadline task), s) := by
  cases task with
  | acquire tag =>
    have h : s.accepts tag = .ok false := h
    rw [run, whenAccepted, h]
    rfl
  | fill tag offset data =>
    have h : s.accepts tag = .ok false := h
    rw [run, whenAccepted, h]
    rfl
  | fillJoin tag offset data =>
    have h : s.accepts tag = .ok false := h
    rw [run, whenAccepted, h]
    rfl
  | rejoin ticket =>
    rw [run, await, pollOr, poll_none h]
    rfl
  | _ => exact h.elim

/-- At its deadline a call that still has to wait takes the early flush of an open slot. -/
theorem run_joinLate (h : s.Waits (.rejoin ticket)) (h_phase : s.phase = .filling)
    (h_counted : 0 < s.waiters) (h_high : 0 < s.highWater) :
    (run (.joinLate ticket) s).1 = .finish (.ok (.joined (some s.claimEarly.1))) := by
  have h_poll : s.poll ticket = (none, s) := poll_none h
  have h_leave : s.leave = (.ok (), { s with waiters := s.waiters - 1 }) := by
    rw [leave, if_neg (by omega)]
  -- the slot is filling and holds something, so there is a flush to claim
  simp only [run, pollOr, h_poll, giveUp, h_leave, claimAtDeadline, if_pos h_phase,
    if_neg (Nat.ne_of_gt h_high)]
  rfl

/-! ### Quiet changes -/

/-- A change of a slot that brings nothing that a call could wait for: the generation and what is
durable of it stay, and if the phase does not, then because a flush was taken. -/
structure Quiet (s s' : Slot) : Prop where
  tag : s'.tag = s.tag
  durable : s'.durable = s.durable
  phase : s'.phase = s.phase ∨ s'.phase = .flushing ∨ s'.phase = .reserving

namespace Quiet

@[refl]
theorem refl (s : Slot) : Quiet s s := ⟨rfl, rfl, .inl rfl⟩

theorem trans (h : Quiet s s₁) (h' : Quiet s₁ s') : Quiet s s' where
  tag := h'.tag.trans h.tag
  durable := h'.durable.trans h.durable
  phase := h'.phase.elim (fun h_same => h_same ▸ h.phase) .inr

/-- A phase that calls wait to see is not brought about by a quiet change. -/
theorem phase_eq (h : Quiet s s') {phase : Phase} (h_phase : s'.phase = phase)
    (h_flushing : phase ≠ .flushing) (h_reserving : phase ≠ .reserving) : s.phase = phase := by
  rcases h.phase with h_same | h_taken | h_taken
  · exact h_same.symm.trans h_phase
  · exact absurd (h_phase.symm.trans h_taken) h_flushing
  · exact absurd (h_phase.symm.trans h_taken) h_reserving

/-- A quiet step stops no slot. -/
theorem stopped (h : Quiet s s') (h_stopped : s'.Stopped) : s.Stopped := by
  obtain ⟨reason, h_phase⟩ := h_stopped
  exact ⟨reason, h.phase_eq h_phase nofun nofun⟩

/-- What waits to fill goes on waiting behind a quiet step. -/
theorem accepts (h : Quiet s s') (h_waits : s.accepts tag = .ok false) :
    s'.accepts tag = .ok false := by
  rw [accepts_eq_false] at h_waits ⊢
  obtain ⟨h_live, h_le, h_not⟩ := h_waits
  rw [h.tag]
  exact ⟨fun h_stopped => h_live (h.stopped h_stopped), h_le,
    fun ⟨h_tag, h_phase⟩ => h_not ⟨h_tag, h.phase_eq h_phase nofun nofun⟩⟩

/-- What waits for a ticket goes on waiting behind a quiet step. -/
theorem poll (h : Quiet s s') (h_waits : (s.poll ticket).1 = none) :
    (s'.poll ticket).1 = none := by
  rw [poll_eq_none] at h_waits ⊢
  obtain ⟨h_live, h_le, h_settles, h_full⟩ := h_waits
  refine ⟨fun h_stopped => h_live (h.stopped h_stopped), h.tag ▸ h_le, ?_, fun h_phase =>
    h_full (h.phase_eq h_phase nofun nofun)⟩
  rw [Settles, covers, h.tag, h.durable]
  exact h_settles

/-- Whoever waits has to wait on after a quiet change. -/
theorem waits (h : Quiet s s') (h_waits : s.Waits task) : s'.Waits task := by
  cases task with
  | acquire tag => exact h.accepts h_waits
  | fill tag offset data => exact h.accepts h_waits
  | fillJoin tag offset data => exact h.accepts h_waits
  | rejoin ticket => exact h.poll h_waits
  | _ => exact h_waits.elim

end Quiet

theorem quiet_copyIn (s : Slot) (offset : Nat) (data : Bytes) :
    Quiet s (s.copyIn offset data).2 := by
  have h_copied := s.copied offset data
  generalize s.copyIn offset data = o at h_copied ⊢
  cases h_copied <;> exact ⟨rfl, rfl, .inl rfl⟩

/-- A poll changes the phase only from full to flushing. -/
theorem quiet_poll (s : Slot) (ticket : Ticket) : Quiet s (s.poll ticket).2 := by
  unfold poll
  split
  · rfl
  split
  · rfl
  split
  · rfl
  split
  · exact ⟨rfl, rfl, .inr (.inl rfl)⟩
  · rfl

theorem quiet_leave (s : Slot) : Quiet s s.leave.2 := by
  unfold leave
  split
  · rfl
  · exact ⟨rfl, rfl, .inl rfl⟩

theorem quiet_claimAtDeadline (s : Slot) (ticket : Ticket) :
    Quiet s (s.claimAtDeadline ticket).2 := by
  unfold claimAtDeadline
  split
  · split
    · rfl
    · exact ⟨rfl, rfl, .inr (.inr rfl)⟩
  · rfl

/-! ### The end of a generation -/

/-- What is known of an operation that may move a slot on: it leads to no earlier generation, it does not
stop the slot, and where it faults it has run out of addresses or done nothing. -/
structure MovesOn (s s' : Slot) (faults : Fault → Prop) : Prop where
  tag_le : s.tag ≤ s'.tag
  stopped : s'.Stopped → s.Stopped
  fault : ∀ broken, faults broken → broken = .addOverflow ∨ Quiet s s'

/-- A quiet step goes along with any faults. -/
theorem Quiet.movesOn (h : Quiet s s') (faults : Fault → Prop) : MovesOn s s' faults :=
  ⟨h.tag.ge, h.stopped, fun _ _ => .inr h⟩

/-- Passing skips goes forward, stops no slot, and fails only for want of an address. -/
theorem passSkips_cases (fuel : Nat) (s : Slot) : s.tag ≤ (passSkips fuel s).2.tag ∧
    (passSkips fuel s).2.phase = s.phase ∧
      ∀ broken, (passSkips fuel s).1 = .error broken → broken = .addOverflow := by
  induction fuel generalizing s with
  | zero => exact ⟨le_rfl, rfl, fun broken h => by cases h⟩
  | succ fuel ih =>
    rw [passSkips]
    split
    · dsimp only
      split
      · obtain ⟨h_tag, h_phase, h_fault⟩ :=
          ih { s with skipped := s.skipped.erase s.tag, tag := s.tag + s.gap }
        exact ⟨(Nat.le_add_right _ _).trans h_tag, h_phase, h_fault⟩
      · refine ⟨le_rfl, rfl, fun broken h => ?_⟩
        exact (Except.error.inj h).symm
    · exact ⟨le_rfl, rfl, fun broken h => by cases h⟩

/-- Moving on leads forward, and what fails is the sum of the address and the gap. -/
theorem movesOn_advance (s : Slot) : MovesOn s s.advance.2 (s.advance.1 = .error ·) := by
  unfold advance
  split
  · exact (Quiet.refl s).movesOn _
  · dsimp only
    split
    · obtain ⟨h_tag, h_phase, h_fault⟩ := passSkips_cases s.skipped.length
        { s with buffer := s.buffer.clear s.highWater, tag := s.tag + s.gap, dirty := 0, highWater := 0,
                 phase := .filling }
      refine ⟨(Nat.le_add_right _ _).trans h_tag, ?_, fun broken h => .inl (h_fault broken h)⟩
      -- a slot that moves on is open
      rintro ⟨reason, h_stopped⟩
      cases h_phase.symm.trans h_stopped
    · refine ⟨le_rfl, id, fun broken h => .inl ?_⟩
      exact (Except.error.inj h).symm

/-- Handing a flush back brings the buffer back, and moves the slot on if the flush was of the whole of
it. -/
theorem movesOn_handBack (s : Slot) (flush : Flush) :
    MovesOn s (s.handBack flush).2 fun broken => (s.handBack flush).1 = .error (.fault broken) := by
  have h_buffer : Quiet s { s with buffer := flush.buffer } := ⟨rfl, rfl, .inl rfl⟩
  unfold handBack
  split
  · exact (Quiet.refl s).movesOn _
  · dsimp only
    split
    · exact h_buffer.movesOn _
    · -- the generation ends
      have h_advance := movesOn_advance { s with buffer := flush.buffer }
      generalize ({ s with buffer := flush.buffer } : Slot).advance = o at h_advance
      obtain ⟨result, s'⟩ := o
      refine ⟨h_advance.tag_le, h_advance.stopped, fun broken h => ?_⟩
      refine (h_advance.fault broken ?_).imp_right h_buffer.trans
      cases result with
      | ok _ => cases h
      | error broken' =>
        cases h
        rfl
    · refine ⟨le_rfl, ?_, fun broken h => by cases h⟩
      rintro ⟨reason, h_phase⟩
      cases h_phase
    · exact h_buffer.movesOn _

/-- A skip moves the slot on or is kept. -/
theorem movesOn_skipOver (s : Slot) (tag : Nat) :
    MovesOn s (s.skipOver tag).2 ((s.skipOver tag).1 = .error ·) := by
  unfold skipOver
  split
  · exact (Quiet.refl s).movesOn _
  · split
    · split
      · exact movesOn_advance s
      · exact (Quiet.refl s).movesOn _
    · split
      · exact (Quiet.refl s).movesOn _
      · split
        · exact (Quiet.refl s).movesOn _
        · exact ⟨le_rfl, id, fun _ h => by cases h⟩

/-- Only a slot that is stopped refuses a flush. -/
theorem phase_of_handBack {flush : Flush} {error : LogError}
    (h : (s.handBack flush).1 = .error (.refused error)) :
    ∃ reason, s.phase = .poisoned reason ∧ error = .poisoned reason := by
  unfold handBack at h
  split at h
  · cases h
  · dsimp only at h
    split at h
    · next reason h_phase =>
      cases h
      exact ⟨reason, h_phase, rfl⟩
    · -- moving on fails with faults alone, which are no refusals
      cases h_advance : ({ s with buffer := flush.buffer } : Slot).advance with
      | mk result s' =>
        rw [h_advance] at h
        cases result <;> cases h
    · cases h
    · cases h

/-! ### Steps -/

/-- If this result is a refusal, then the slot is stopped, and the result gives the reason. -/
def Refuses (s : Slot) (result : Result) : Prop :=
  ∀ error, result = .error (.refused error) →
    ∃ reason, s.phase = .poisoned reason ∧ error = .poisoned reason

/-- The task stops the slot. -/
inductive Halts : Task → Prop
  | abandon (flush : Flush) (reason : PoisonReason) : Halts (.abandon flush reason)
  | poison (reason : PoisonReason) : Halts (.poison reason)

/-- A change of a slot that may bring what calls wait for. It leads to no earlier generation, and it
stops the slot only if that is what the task is for. -/
structure Onward (task : Task) (s s' : Slot) : Prop where
  tag_le : s.tag ≤ s'.tag
  stopped : s'.Stopped → s.Stopped ∨ Halts task

/-- How a step on a slot ends, unless it is the one that wakes the others. -/
inductive Outcome (task : Task) (s : Slot) : Move Task Result × Slot → Prop
  /-- The call is blocked. When it is woken it tries again, or looks after its ticket. -/
  | park {wake : Task} {s' : Slot} (h_quiet : Quiet s s') (h_waits : s'.Waits wake)
      (h_wake : wake = task ∨ ∃ ticket, wake = .rejoin ticket) :
      Outcome task s (.park 0 wake (deadline wake), s')
  | join {ticket : Ticket} {s' : Slot} (h_quiet : Quiet s s') :
      Outcome task s (.goto (.join ticket), s')
  | finish {result : Result} {s' : Slot} (h_quiet : Quiet s s') (h_result : s.Refuses result) :
      Outcome task s (.finish result, s')
  /-- The call goes on to wake the others. -/
  | announce {result : Result} {s' : Slot} (h_onward : Onward task s s')
      (h_result : s.Refuses result) : Outcome task s (.goto (.announce result), s')

/-- The step runs out of addresses. -/
structure Overflows (task : Task) (s : Slot) (o : Move Task Result × Slot) : Prop where
  move : o.1 = faulting .addOverflow
  onward : Onward task s o.2

theorem Quiet.onward (h : Quiet s s') : Onward task s s' :=
  ⟨h.tag.ge, fun h_stopped => .inl (h.stopped h_stopped)⟩

theorem MovesOn.onward {faults : Fault → Prop} (h : MovesOn s s' faults) (task : Task) :
    Onward task s s' :=
  ⟨h.tag_le, fun h_stopped => .inl (h.stopped h_stopped)⟩

theorem Refuses.ok (s : Slot) (reply : Reply) : s.Refuses (.ok reply) := nofun

theorem Refuses.fault (s : Slot) (broken : Fault) : s.Refuses (.error (.fault broken)) := nofun

theorem Refuses.poisoned {reason : PoisonReason} (h : s.phase = .poisoned reason) :
    s.Refuses (.error (poisonedStop reason)) := by
  rintro error ⟨⟩
  exact ⟨reason, h, rfl⟩

/-- Turning a reply into another keeps its refusals. -/
theorem Refuses.map {α : Type} {result : Except (Stop LogError) α} {f : α → Reply}
    (h : ∀ error, result = .error (.refused error) →
      ∃ reason, s.phase = .poisoned reason ∧ error = .poisoned reason) :
    s.Refuses (result.map f) := by
  cases result with
  | ok a => exact .ok s _
  | error stop =>
    rintro error h_eq
    exact h error (by rw [Except.error.inj h_eq])

namespace Outcome

variable {t : Task} {o : Move Task Result × Slot}

/-- A quiet change in front of a step that ends well. -/
theorem trans (h : Quiet s s₁) (h_phase : s₁.phase = s.phase) (h' : Outcome t s₁ o) :
    Outcome t s o := by
  have h_refuses : ∀ {result}, s₁.Refuses result → s.Refuses result := by
    intro result h_result error h_eq
    obtain ⟨reason, h_stopped, h_error⟩ := h_result error h_eq
    exact ⟨reason, h_phase.symm.trans h_stopped, h_error⟩
  cases h' with
  | park h_quiet h_waits h_wake => exact .park (h.trans h_quiet) h_waits h_wake
  | join h_quiet => exact .join (h.trans h_quiet)
  | finish h_quiet h_result => exact .finish (h.trans h_quiet) (h_refuses h_result)
  -- only this outcome changes more of the slot than a quiet step does
  | announce h_onward h_result =>
    refine .announce ⟨h.tag.ge.trans h_onward.tag_le, fun h_stopped => ?_⟩ (h_refuses h_result)
    exact (h_onward.stopped h_stopped).imp_left h.stopped

/-- A quiet step may end in a fault. -/
theorem faulting (h : Quiet s s') (broken : Fault) : Outcome t s (Slot.faulting broken, s') :=
  .finish h (.fault s broken)

/-- What turns a fill away is the reason of a stopped slot, or a fault. -/
theorem accepts_error {stop : Stop LogError} (h : s.accepts tag = .error stop) :
    s.Refuses (.error stop) := by
  unfold accepts at h
  split at h
  · next reason h_phase =>
    cases h
    exact .poisoned h_phase
  · split at h
    · cases h
      exact .fault s _
    · cases h

/-- A fill waits, is turned away or goes on. -/
theorem whenAccepted (h_wait : s.accepts tag = .ok false → s.Waits t)
    (h_deadline : deadline t = none) (h_next : Outcome t s o) :
    Outcome t s (s.whenAccepted tag t o) := by
  rw [Slot.whenAccepted]
  split
  · next stop h_stop => exact .finish (.refl s) (accepts_error h_stop)
  · next h_not =>
    -- no call has a deadline while it waits to fill
    rw [← h_deadline]
    exact .park (.refl s) (h_wait h_not) (.inl rfl)
  · exact h_next

/-- A fill that is taken copies and goes on with its ticket. -/
theorem copyThen {offset : Nat} {data : Bytes}
    {completing other : Ticket → Slot → Move Task Result × Slot}
    (h_completing : ∀ ticket s', Quiet s s' → Outcome t s (completing ticket s'))
    (h_other : ∀ ticket s', Quiet s s' → Outcome t s (other ticket s')) :
    Outcome t s (s.copyThen offset data completing other) := by
  have h_quiet := quiet_copyIn s offset data
  rw [Slot.copyThen]
  cases h_copy : s.copyIn offset data with
  | mk result s' =>
    rw [h_copy] at h_quiet
    cases result with
    | error broken => exact .faulting h_quiet broken
    | ok ticket =>
      dsimp only
      split
      · exact h_completing ticket s' h_quiet
      · exact h_other ticket s' h_quiet

/-- Waiting is counted, and whoever counts himself out is quiet. -/
theorem leaveWith {result : Result} (h : Quiet s s₁) (h_result : s.Refuses result) :
    Outcome t s (s₁.leaveWith result) := by
  have h_quiet := h.trans (quiet_leave s₁)
  rw [Slot.leaveWith]
  cases h_leave : s₁.leave with
  | mk left s' =>
    rw [h_leave] at h_quiet
    cases left with
    | ok _ => exact .finish h_quiet h_result
    | error broken => exact .faulting h_quiet broken

/-- What a poll fails with is the reason of a stopped slot, or a fault. -/
theorem poll_error {stop : Stop LogError} (h : s.poll ticket = (some (.error stop), s')) :
    s.Refuses (.error stop) := by
  unfold poll at h
  split at h
  · next reason h_phase =>
    cases h
    exact .poisoned h_phase
  · split at h
    · cases h
      exact .fault s _
    · split at h
      · cases h
      · split at h <;> cases h

/-- A poll settles the call, or the call waits. -/
theorem pollOr {wait : Slot → Move Task Result × Slot}
    (h_wait : (s.poll ticket).1 = none → Outcome t s (wait s)) :
    Outcome t s (s.pollOr ticket wait) := by
  have h_quiet := quiet_poll s ticket
  rw [Slot.pollOr]
  cases h_poll : s.poll ticket with
  | mk found s' =>
    rw [h_poll] at h_quiet
    match found with
    | none =>
      have h_none : (s.poll ticket).1 = none := by rw [h_poll]
      -- nothing was found, so nothing has changed
      cases h_poll.symm.trans (poll_none h_none)
      exact h_wait h_none
    | some (.error (.fault broken)) => exact .faulting h_quiet broken
    | some (.error (.refused error)) => exact .leaveWith h_quiet (poll_error h_poll)
    | some (.ok flush) => exact .leaveWith h_quiet (.ok s _)

theorem await (s : Slot) (ticket : Ticket) : Outcome t s (s.await ticket) := by
  refine .pollOr fun h_none => ?_
  exact .park (.refl s) (show s.Waits (.rejoin ticket) from h_none) (.inr ⟨ticket, rfl⟩)

/-- A call whose deadline has passed leaves, with a flush of what there is, or joins again. -/
theorem giveUp (s : Slot) (ticket : Ticket) : Outcome t s (s.giveUp ticket) := by
  have h_left := quiet_leave s
  rw [Slot.giveUp]
  cases h_leave : s.leave with
  | mk left s₁ =>
    rw [h_leave] at h_left
    cases left with
    | error broken => exact .faulting h_left broken
    | ok _ =>
      have h_quiet := h_left.trans (quiet_claimAtDeadline s₁ ticket)
      dsimp only
      cases h_claim : s₁.claimAtDeadline ticket with
      | mk claimed s' =>
        rw [h_claim] at h_quiet
        match claimed with
        | .error broken => exact .faulting h_quiet broken
        | .ok (some flush) => exact .finish h_quiet (.ok s _)
        -- an early flush is under way, so the call goes back to wait for it
        | .ok none => exact .join h_quiet

/-- A flush that is handed back. This is where a slot may run out of addresses. -/
theorem release (s : Slot) (flush : Flush) :
    Outcome (.release flush) s (run (.release flush) s) ∨
      Overflows (.release flush) s (run (.release flush) s) := by
  have h_moves := movesOn_handBack s flush
  rw [run]
  cases h_back : s.handBack flush with
  | mk result s' =>
    rw [h_back] at h_moves
    match result with
    | .error (.fault broken) =>
      rcases h_moves.fault broken rfl with rfl | h_quiet
      · -- the tag of the next generation is no word
        exact .inr ⟨rfl, h_moves.onward _⟩
      · exact .inl (.faulting h_quiet broken)
    | .ok _ => exact .inl (.announce (h_moves.onward _) (.ok s _))
    | .error (.refused error) =>
      -- the others are woken even if the flush is refused
      refine .inl (.announce (h_moves.onward _) ?_)
      rintro error' ⟨⟩
      exact phase_of_handBack (congrArg Prod.fst h_back)

/-- A skip. This too may run out of addresses. -/
theorem skip (s : Slot) (tag : Nat) :
    Outcome (.skip tag) s (run (.skip tag) s) ∨ Overflows (.skip tag) s (run (.skip tag) s) := by
  have h_moves := movesOn_skipOver s tag
  rw [run]
  cases h_skip : s.skipOver tag with
  | mk result s' =>
    rw [h_skip] at h_moves
    cases result with
    | error broken =>
      rcases h_moves.fault broken rfl with rfl | h_quiet
      · exact .inr ⟨rfl, h_moves.onward _⟩
      · exact .inl (.faulting h_quiet broken)
    | ok _ => exact .inl (.announce (h_moves.onward _) (.ok s _))

end Outcome

/-- The task ends a generation, so that the slot is to be moved on. -/
inductive Ends : Task → Prop
  | release (flush : Flush) : Ends (.release flush)
  | skip (tag : Nat) : Ends (.skip tag)

/-- **Every step on a slot** is quiet, or its call goes on to wake the others, or it runs out of
addresses at the end of a generation. -/
theorem run_outcome (s : Slot) (h_task : ∀ result, task ≠ .announce result) :
    Outcome task s (run task s) ∨ (Ends task ∧ Overflows task s (run task s)) := by
  cases task with
  | acquire tag => exact .inl (.whenAccepted id rfl (.finish (.refl s) (.ok s _)))
  | tryAcquire tag =>
    refine .inl (.finish (.refl s) (.map fun error h_error => ?_))
    exact Outcome.accepts_error h_error error rfl
  | fill tag offset data =>
    refine .inl (.whenAccepted id rfl (.copyThen ?_ fun _ _ h_quiet => .finish h_quiet (.ok s _)))
    -- the slot is full now
    intro _ s' h_quiet
    refine .announce ⟨h_quiet.tag.ge, fun h_stopped => ?_⟩ (.ok s _)
    obtain ⟨reason, h_phase⟩ := h_stopped
    cases h_phase
  | fillJoin tag offset data =>
    refine .inl (.whenAccepted id rfl (.copyThen ?_ fun _ _ h_quiet => .join h_quiet))
    -- the flush is taken at once
    exact fun _ s' h_quiet => .finish (h_quiet.trans ⟨rfl, rfl, .inr (.inl rfl)⟩) (.ok s _)
  | join ticket =>
    have h_counted : Quiet s { s with waiters := s.waiters + 1 } := ⟨rfl, rfl, .inl rfl⟩
    exact .inl (.trans h_counted rfl (.await _ ticket))
  | rejoin ticket => exact .inl (.await s ticket)
  | joinLate ticket => exact .inl (.pollOr fun _ => .giveUp s ticket)
  | release flush => exact (Outcome.release s flush).imp_right fun h => ⟨.release flush, h⟩
  | abandon flush reason =>
    exact .inl (.announce ⟨le_rfl, fun _ => .inr (.abandon flush reason)⟩ (.ok s _))
  | skip tag => exact (Outcome.skip s tag).imp_right fun h => ⟨.skip tag, h⟩
  | poison reason => exact .inl (.announce ⟨le_rfl, fun _ => .inr (.poison reason)⟩ (.ok s _))
  | announce result => exact absurd rfl (h_task result)

/-- A slot never goes back to an earlier generation, and only two operations stop it. -/
theorem onward_run (task : Task) (s : Slot) : Onward task s (run task s).2 := by
  by_cases h_task : ∃ result, task = .announce result
  · obtain ⟨result, rfl⟩ := h_task
    exact (Quiet.refl s).onward
  · rcases run_outcome s fun result h_eq => h_task ⟨result, h_eq⟩ with h_outcome | ⟨-, h_over⟩
    · generalize run task s = o at h_outcome
      cases h_outcome with
      | park h_quiet => exact h_quiet.onward
      | join h_quiet => exact h_quiet.onward
      | finish h_quiet => exact h_quiet.onward
      | announce h_onward => exact h_onward
    · exact h_over.onward

/-! ### Where a step leaves its call -/

section Leads

variable {o : Move Task Result × Slot} {status : Status Task Result}

/-- A call that a step blocks waits for what its slot cannot give it yet. -/
theorem Outcome.placed (h : Outcome task s o) {c : Nat} {wake : Task} {late : Option Task}
    (h_leads : o.1.Leads (.parked c wake late)) : c = 0 ∧ late = deadline wake ∧ o.2.Waits wake := by
  cases h with
  | park h_quiet h_waits =>
    cases h_leads
    exact ⟨rfl, rfl, h_waits⟩
  | _ => cases h_leads

/-- A call that runs out of addresses has ended. -/
theorem Overflows.finished (h : Overflows task s o) (h_leads : o.1.Leads status) :
    status = .finished (.error (.fault .addOverflow)) := by
  rw [h.move] at h_leads
  cases h_leads
  rfl

/-- Who wakes the others is not blocked by it. -/
theorem not_parked_announce {result : Result} {c : Nat} {wake : Task} {late : Option Task} :
    ¬ Move.Leads (.notify 0 fun _ => .finish result : Move Task Result) (.parked c wake late) := by
  intro h_leads
  cases h_leads with
  | notify h_leads => cases h_leads

/-- A call that is blocked by a step has to wait. -/
theorem waits_of_parked {c : Nat} {wake : Task} {late : Option Task}
    (h : (run task s).1.Leads (.parked c wake late)) :
    late = deadline wake ∧ (run task s).2.Waits wake := by
  by_cases h_task : ∃ result, task = .announce result
  · obtain ⟨result, rfl⟩ := h_task
    exact absurd h not_parked_announce
  · rcases run_outcome s fun result h_eq => h_task ⟨result, h_eq⟩ with h_outcome | ⟨-, h_over⟩
    · exact (h_outcome.placed h).2
    · -- a call that runs out of addresses is at its end
      cases h_over.finished h

end Leads

/-! ### The step of the last call -/

section LastCall

variable {next : Task} {result : Result} (calls : List (Status Task Result))

/-- A call that is the last of the machine goes on to its next task. -/
theorem step_goto (h : run task s = (.goto next, s')) :
    Machine.step program ⟨s, calls ++ [.ready task]⟩ (.run calls.length) =
      some ⟨s', calls ++ [.ready next]⟩ := by
  have h_run : program.run task s = (.goto next, s') := h
  rw [Machine.step_last, h_run, Machine.perform, Machine.apply_goto, Machine.setCall,
    Machine.set_last]

/-- A call that is the last of the machine ends. -/
theorem step_finish (h : run task s = (.finish result, s')) :
    Machine.step program ⟨s, calls ++ [.ready task]⟩ (.run calls.length) =
      some ⟨s', calls ++ [.finished result]⟩ := by
  have h_run : program.run task s = (.finish result, s') := h
  rw [Machine.step_last, h_run, Machine.perform, Machine.apply_finish, Machine.setCall,
    Machine.set_last]

/-- A call that is the last of the machine wakes all others and ends. -/
theorem step_announce (s : Slot) (result : Result) :
    Machine.step program ⟨s, calls ++ [.ready (.announce result)]⟩ (.run calls.length) =
      some ⟨s, calls.map (Status.woken 0) ++ [.finished result]⟩ := by
  have h_run : program.run (.announce result) s = (.notify 0 fun _ => .finish result, s) := rfl
  rw [Machine.step_last, h_run, Machine.perform, Machine.apply_notify, Machine.apply_finish,
    Machine.wake, Machine.setCall, List.map_append, List.map_singleton]
  -- the call itself is not blocked, so waking leaves it alone
  have h_set := Machine.set_last (calls.map (Status.woken 0))
    (Status.woken 0 (.ready (.announce result))) (.finished result)
  rw [List.length_map] at h_set
  rw [h_set]

end LastCall

/-! ### Slots that are stopped -/

/-- Of two slots, the second differs from the first at most in its buffer and in the number of its
waiters. -/
def Frozen (s s' : Slot) : Prop := ∃ waiters buffer, s' = { s with waiters, buffer }

theorem Frozen.refl (s : Slot) : Frozen s s := ⟨_, _, rfl⟩

theorem Frozen.trans (h : Frozen s s₁) (h' : Frozen s₁ s') : Frozen s s' := by
  obtain ⟨waiters, buffer, rfl⟩ := h
  obtain ⟨waiters', buffer', rfl⟩ := h'
  exact ⟨waiters', buffer', rfl⟩

/-- The phase is frozen too. -/
theorem Frozen.phase_eq (h : Frozen s s') : s'.phase = s.phase := by
  obtain ⟨waiters, buffer, rfl⟩ := h
  rfl

section Stopped

variable {reason : PoisonReason} (h : s.phase = .poisoned reason)

include h

/-- The first reason stays. -/
theorem poisonWith_stopped (reason' : PoisonReason) : s.poisonWith reason' = s := by
  obtain ⟨⟩ := s
  cases h
  rfl

/-- No fill begins in a stopped slot. -/
theorem whenAccepted_stopped (tag : Nat) (task : Task) (o : Move Task Result × Slot) :
    s.whenAccepted tag task o = (.finish (.error (poisonedStop reason)), s) := by
  rw [whenAccepted, accepts_stopped h]

omit h in
/-- Leaving a stopped slot ends the call and changes the number of those that wait. -/
theorem leaveWith_eq (s : Slot) (result : Result) : ∃ result' s', Frozen s s' ∧
    s.leaveWith result = (.finish result', s') := by
  rw [leaveWith, leave]
  by_cases h_none : s.waiters = 0
  · rw [if_pos h_none]
    exact ⟨_, s, .refl s, rfl⟩
  · rw [if_neg h_none]
    exact ⟨result, _, ⟨_, _, rfl⟩, rfl⟩

/-- Whoever looks at a stopped slot leaves it with the reason. -/
theorem pollOr_stopped (ticket : Ticket) (wait : Slot → Move Task Result × Slot) :
    s.pollOr ticket wait = s.leaveWith (.error (poisonedStop reason)) := by
  rw [pollOr, poll_stopped h]
  rfl

/-- A step on a stopped slot freezes it, and blocks nobody. -/
theorem run_stopped (task : Task) :
    Frozen s (run task s).2 ∧ ∀ c wake late, ¬ (run task s).1.Leads (.parked c wake late) := by
  -- most steps end their calls
  have h_finish : ∀ {o : Move Task Result × Slot},
      (∃ result s', Frozen s s' ∧ o = (.finish result, s')) →
        Frozen s o.2 ∧ ∀ c wake late, ¬ o.1.Leads (.parked c wake late) := by
    rintro o ⟨result, s', h_frozen, rfl⟩
    exact ⟨h_frozen, fun c wake late h_leads => by cases h_leads⟩
  cases task with
  | acquire tag => exact h_finish ⟨_, s, .refl s, whenAccepted_stopped h tag _ _⟩
  | tryAcquire tag => exact h_finish ⟨_, s, .refl s, rfl⟩
  | fill tag offset data => exact h_finish ⟨_, s, .refl s, whenAccepted_stopped h tag _ _⟩
  | fillJoin tag offset data => exact h_finish ⟨_, s, .refl s, whenAccepted_stopped h tag _ _⟩
  | join ticket =>
    have h_counted : ({ s with waiters := s.waiters + 1 } : Slot).phase = .poisoned reason := h
    obtain ⟨result, s', h_frozen, h_eq⟩ := leaveWith_eq { s with waiters := s.waiters + 1 }
      (.error (poisonedStop reason))
    refine h_finish ⟨result, s', Frozen.trans ⟨_, _, rfl⟩ h_frozen, ?_⟩
    rw [run, await, pollOr_stopped h_counted, h_eq]
  | rejoin ticket =>
    obtain ⟨result, s', h_frozen, h_eq⟩ := leaveWith_eq s (.error (poisonedStop reason))
    exact h_finish ⟨result, s', h_frozen, by rw [run, await, pollOr_stopped h, h_eq]⟩
  | joinLate ticket =>
    obtain ⟨result, s', h_frozen, h_eq⟩ := leaveWith_eq s (.error (poisonedStop reason))
    exact h_finish ⟨result, s', h_frozen, by rw [run, pollOr_stopped h, h_eq]⟩
  -- a flush of another generation is a fault, and the rest is refused
  | release flush =>
    by_cases h_tag : flush.tag = s.tag
    · rw [run, handBack_stopped h_tag h]
      exact ⟨⟨_, _, rfl⟩, fun c wake late h_leads => by cases h_leads⟩
    · refine h_finish ⟨.error (.fault (.releasedGeneration s.index flush.tag s.tag)), s, .refl s, ?_⟩
      rw [run, handBack, if_pos (Ne.symm h_tag)]
      rfl
  | abandon flush reason' =>
    have h_same := poisonWith_stopped (s := { s with buffer := flush.buffer }) h reason'
    refine ⟨⟨s.waiters, flush.buffer, h_same⟩, fun c wake late h_leads => ?_⟩
    cases h_leads
  | skip tag =>
    rw [run, skipOver_stopped ⟨reason, h⟩]
    exact ⟨.refl s, fun c wake late h_leads => by cases h_leads⟩
  | poison reason' =>
    refine ⟨⟨s.waiters, s.buffer, poisonWith_stopped h reason'⟩, fun c wake late h_leads => ?_⟩
    cases h_leads
  | announce result =>
    refine ⟨.refl s, fun c wake late h_leads => ?_⟩
    cases h_leads with
    | notify h_leads => cases h_leads

end Stopped

/-- No step starts a slot again that is stopped. -/
theorem Stopped.run (h : s.Stopped) (task : Task) : (Slot.run task s).2.Stopped := by
  obtain ⟨reason, h_phase⟩ := h
  exact ⟨reason, (run_stopped h_phase task).1.phase_eq.trans h_phase⟩

/-- The tasks with which a call can be blocked. -/
inductive Blocks : Task → Prop
  | acquire (tag : Nat) : Blocks (.acquire tag)
  | fill (tag offset : Nat) (data : Bytes) : Blocks (.fill tag offset data)
  | fillJoin (tag offset : Nat) (data : Bytes) : Blocks (.fillJoin tag offset data)
  | rejoin (ticket : Ticket) : Blocks (.rejoin ticket)

/-- Only tasks of these kinds can wait. -/
theorem Waits.blocks (h : s.Waits task) : Blocks task := by
  cases task with
  | acquire tag => exact .acquire tag
  | fill tag offset data => exact .fill tag offset data
  | fillJoin tag offset data => exact .fillJoin tag offset data
  | rejoin ticket => exact .rejoin ticket
  | _ => exact h.elim

/-- **Turned away.** A call that was blocked and looks at a stopped slot ends with the reason for which
the slot is stopped; one that waited for its bytes has to have been counted. -/
theorem run_of_stopped {reason : PoisonReason} (h : s.phase = .poisoned reason) (h_task : Blocks task)
    (h_counted : ∀ ticket, task = .rejoin ticket → 0 < s.waiters) :
    ∃ s', run task s = (.finish (.error (poisonedStop reason)), s') := by
  cases h_task with
  | acquire tag => exact ⟨s, whenAccepted_stopped h tag _ _⟩
  | fill tag offset data => exact ⟨s, whenAccepted_stopped h tag _ _⟩
  | fillJoin tag offset data => exact ⟨s, whenAccepted_stopped h tag _ _⟩
  -- the call was counted when it began to wait, so that it can leave
  | rejoin ticket =>
    have h_pos := h_counted ticket rfl
    refine ⟨{ s with waiters := s.waiters - 1 }, ?_⟩
    rw [run, await, pollOr_stopped h, leaveWith, leave, if_neg (by omega)]

/-! ### Who gets a flush -/

/-- The task joins, and nobody has written its bytes so far. -/
def Unmet (s : Slot) : Task → Prop
  | .fillJoin _ _ _ => True
  | .join ticket => ¬ s.Settles ticket
  | .rejoin ticket => ¬ s.Settles ticket
  | .joinLate ticket => ¬ s.Settles ticket
  | _ => False

/-- A call that leaves with an error has no reply. -/
theorem leaveWith_error (s : Slot) (stop : Stop LogError) (reply : Reply) :
    (s.leaveWith (.error stop)).1 ≠ .finish (.ok reply) := by
  rw [leaveWith]
  split <;> nofun

/-- Looking after a ticket that is not settled ends with a flush, if it ends well. -/
theorem exists_flush_of_pollOr {reply : Reply} {wait : Slot → Move Task Result × Slot}
    (h_open : ¬ s.Settles ticket) (h : (s.pollOr ticket wait).1 = .finish (.ok reply))
    (h_wait : (wait s).1 = .finish (.ok reply) → ∃ flush, reply = .joined (some flush)) :
    ∃ flush, reply = .joined (some flush) := by
  rw [pollOr] at h
  by_cases h_stopped : s.Stopped
  · obtain ⟨reason, h_phase⟩ := h_stopped
    rw [poll_stopped h_phase] at h
    exact absurd h (leaveWith_error s _ reply)
  · rcases Nat.lt_or_ge s.tag ticket.tag with h_ahead | h_tag
    · -- a ticket of a later generation is a fault
      have h_poll : s.poll ticket = (some (.error (.fault (.joinedAhead ticket.tag s.tag))), s) := by
        unfold poll
        split
        · next reason h_phase => exact absurd ⟨reason, h_phase⟩ h_stopped
        · rw [if_pos h_ahead]
      rw [h_poll] at h
      cases h
    · rw [poll_ok h_stopped h_tag, if_neg h_open] at h
      by_cases h_full : s.phase = .full
      · -- the slot is full, and the poll has claimed its flush
        rw [if_pos h_full] at h
        dsimp only at h
        rw [leaveWith] at h
        split at h
        · cases h
          exact ⟨_, rfl⟩
        · cases h
      · rw [if_neg h_full] at h
        exact h_wait h

/-- **A join that nobody else has met** ends with a flush, if it ends well. -/
theorem exists_flush {reply : Reply} (h_task : s.Unmet task)
    (h : (run task s).1 = .finish (.ok reply)) : ∃ flush, reply = .joined (some flush) := by
  cases task with
  | fillJoin tag offset data =>
    -- the call has a flush when its bytes complete the slot; else it goes on to join
    rw [run, whenAccepted] at h
    split at h
    · cases h
    · cases h
    · rw [copyThen] at h
      split at h
      · cases h
      · split at h
        · cases h
          exact ⟨_, rfl⟩
        · cases h
  | join ticket =>
    exact exists_flush_of_pollOr (s := { s with waiters := s.waiters + 1 }) h_task h nofun
  | rejoin ticket => exact exists_flush_of_pollOr h_task h nofun
  | joinLate ticket =>
    -- at its deadline a call that has met nobody gives up, and takes an early flush if there are bytes
    refine exists_flush_of_pollOr h_task h fun h_late => ?_
    rw [giveUp] at h_late
    split at h_late
    · cases h_late
    · split at h_late
      · cases h_late
      · cases h_late
        exact ⟨_, rfl⟩
      · cases h_late
  | _ => exact h_task.elim

end GroupCommit.Slot
