import GroupCommit.Proofs.Machine.Bookkeeping
import GroupCommit.Proofs.Slot.History
import GroupCommit.Proofs.Slot.WakeUps

/-!
# The waiters of a slot

A slot counts the calls that wait for the bytes of a ticket. A call is counted when it begins to wait,
and counts itself out when its wait ends, however it ends; one that finds somebody else writing at its
deadline counts itself out and is counted again when it joins anew. The only call that stays counted
when it returns is one that faults because its ticket is of a generation that the slot has not reached.

So the number is right after every event, and nobody can count himself out of a slot that counts none.

* `Slot.waits`: the calls that wait.
* `Slot.Counts`, `Slot.counts_run`: one step.
* `Slot.waiters_eq`: the number of waiters in every run, also after faults.
* `Slot.waiters_exact`: the number of waiters while no call has faulted.
-/

namespace GroupCommit.Slot

variable {slot s s' : Slot} {m m' : Machine Slot Task Result} {es : List (Event Task Empty)}
  {i n tag : Nat} {task : Task} {ticket : Ticket} {broken : Fault} {result : Result}
  {status : Status Task Result} {o : Move Task Result × Slot}

/-! ### Calls that are counted -/

/-- The task looks after a ticket for a call that is counted. -/
def Task.isCounted : Task → Bool
  | .rejoin _ => true
  | .joinLate _ => true
  | _ => false

/-- The call waits for the bytes of a ticket. -/
def waits : Status Task Result → Bool
  | .ready task => task.isCounted
  | .parked _ wake _ => wake.isCounted
  | _ => false

/-- The call has returned from its wait without counting itself out. -/
def stranded : Status Task Result → Bool
  | .finished (.error (.fault (.joinedAhead _ _))) => true
  | _ => false

/-- The call is one of those that the slot counts. -/
def counted (status : Status Task Result) : Bool := waits status || stranded status

/-- Waking a call leaves it counted, if it was. -/
theorem counted_woken (c : Nat) (status : Status Task Result) :
    counted (status.woken c) = counted status := by
  cases status with
  | parked c' wake late =>
    rw [Status.woken]
    split <;> rfl
  | _ => rfl

/-! ### Faults of the count -/

/-- A fault that only the end of a wait has: it leaves a call counted, or there was none to count out. -/
inductive OfWait : Fault → Prop
  | joinedAhead (tag current : Nat) : OfWait (.joinedAhead tag current)
  | subOverflow : OfWait .subOverflow

/-- The result does not come from a fault of the count. -/
def Plain (result : Result) : Prop := ∀ broken, result = .error (.fault broken) → ¬ OfWait broken

theorem Plain.ok (reply : Reply) : Plain (.ok reply) := nofun

theorem Plain.refused (error : LogError) : Plain (.error (.refused error)) := nofun

/-- A fault that is no fault of waiting. -/
theorem Plain.fault (h : ¬ OfWait broken) : Plain (.error (.fault broken)) := by
  rintro _ ⟨⟩
  exact h

/-- A call that has ended so is not counted any more. -/
theorem Plain.counted (h : Plain result) : counted (.finished result) = false := by
  unfold Slot.counted stranded
  split
  · next tag current h_eq =>
    cases h_eq
    exact absurd (.joinedAhead tag current) (h _ rfl)
  · rfl

/-- A fill that is turned away has not waited. -/
theorem plain_accepts {stop : Stop LogError} (h : s.accepts tag = .error stop) :
    Plain (.error stop) := by
  unfold accepts at h
  split at h
  · cases h
    exact .refused _
  · split at h <;> cases h
    exact .fault nofun

/-- No fault of copying is one of waiting. -/
theorem copyIn_fault {offset : Nat} {data : Bytes} (h : (s.copyIn offset data).1 = .error broken) :
    ¬ OfWait broken := by
  unfold copyIn at h
  dsimp only at h
  split at h
  · cases h
    nofun
  split at h
  · cases h
    nofun
  split at h
  · next h_range =>
    cases h
    -- what is wrong with a range is not a matter of waiting
    unfold Bytes.checkRange at h_range
    split at h_range
    · cases h_range
      nofun
    split at h_range
    · cases h_range
      nofun
    split at h_range
    · cases h_range
      nofun
    · cases h_range
  split at h
  · next h_add =>
    cases h
    rw [(Word.add_eq_error.1 h_add).1]
    nofun
  split at h
  · cases h
    nofun
  · cases h

/-- A poll fails only on a ticket ahead of the slot. -/
theorem poll_fault (h : (s.poll ticket).1 = some (.error (.fault broken))) :
    broken = .joinedAhead ticket.tag s.tag := by
  unfold poll at h
  split at h
  · cases h
  split at h
  · cases h
    rfl
  split at h
  · cases h
  split at h <;> cases h

/-- A claim fails only on an empty generation. -/
theorem claimAtDeadline_fault (h : (s.claimAtDeadline ticket).1 = .error broken) :
    ¬ OfWait broken := by
  unfold claimAtDeadline at h
  split at h
  · split at h
    · cases h
      nofun
    · cases h
  · cases h

/-- Moving on fails only for want of an address. -/
theorem advance_fault (h : s.advance.1 = .error broken) : ¬ OfWait broken := by
  unfold advance at h
  split at h
  · cases h
    nofun
  · dsimp only at h
    split at h
    · -- moving on can only run out of addresses
      obtain ⟨-, -, h_over⟩ := passSkips_cases s.skipped.length
        { s with
          buffer := s.buffer.clear s.highWater
          tag := s.tag + s.gap
          dirty := 0
          highWater := 0
          phase := .filling }
      rw [h_over broken h]
      nofun
    · cases h
      nofun

/-- No fault of handing a flush back is one of waiting. -/
theorem handBack_fault {flush : Flush} (h : (s.handBack flush).1 = .error (.fault broken)) :
    ¬ OfWait broken := by
  unfold handBack at h
  split at h
  · cases h
    nofun
  · dsimp only at h
    split at h
    · cases h
    · cases h_advance : ({ s with buffer := flush.buffer } : Slot).advance with
      | mk result s' =>
        rw [h_advance] at h
        cases result with
        | ok _ => cases h
        | error broken' =>
          cases h
          -- the flush of the whole slot
          exact advance_fault (congrArg Prod.fst h_advance)
    · cases h
    · cases h
      nofun

/-- No fault of a skip is one of waiting. -/
theorem skipOver_fault (h : (s.skipOver tag).1 = .error broken) : ¬ OfWait broken := by
  unfold skipOver at h
  split at h
  · cases h
  split at h
  · split at h
    · exact advance_fault h
    · cases h
      nofun
  split at h
  · cases h
    nofun
  split at h
  · cases h
    nofun
  · cases h

/-! ### Steps -/

/-- A call may be ready for the task: it has no fault to announce, and is not about to look at a ticket
for the last time, which is done at the deadline itself. -/
def Task.Composed : Task → Prop
  | .announce result => ∀ broken, result ≠ .error (.fault broken)
  | .joinLate _ => False
  | _ => True

/-- The call has not counted itself out of a slot that counts none, and will not fault when it is about
to wake the others. -/
def Composed : Status Task Result → Prop
  | .ready task => task.Composed
  | .parked _ wake _ => wake.Composed
  | .finished result => result ≠ .error (.fault .subOverflow)
  | .outside _ => True

/-- A call that has ended so is composed. -/
theorem Plain.composed (h : Plain result) : Composed (.finished result) :=
  fun h_eq => h _ h_eq .subOverflow

theorem composed_done (reply : Reply) : (Task.announce (.ok reply)).Composed := nofun

theorem composed_refused (error : LogError) :
    (Task.announce (.error (.refused error))).Composed := nofun

theorem Task.Composed.plain (h : task.Composed) (h_task : task = .announce result) : Plain result := by
  subst h_task
  exact fun broken h_eq => absurd h_eq (h broken)

/-- After a step the slot counts `n` waiters, and the call of the step if it is to be counted. -/
def Counts (n : Nat) (o : Move Task Result × Slot) : Prop :=
  ∀ status, o.1.Leads status → o.2.waiters = n + (counted status).toNat ∧ Composed status

namespace Counts

/-- A step that ends the call and leaves the number of waiters. -/
theorem finish (h : s.waiters = n) (h_result : Plain result) : Counts n (.finish result, s) := by
  rintro _ ⟨⟩
  rw [h_result.counted]
  exact ⟨h, h_result.composed⟩

theorem faulting (h : s.waiters = n) (h_broken : ¬ OfWait broken) :
    Counts n (Slot.faulting broken, s) := .finish h (.fault h_broken)

/-- A step that goes on with a task which is not counted. -/
theorem goto (h : s.waiters = n) (h_task : task.isCounted = false) (h_composed : task.Composed) :
    Counts n (.goto task, s) := by
  rintro _ ⟨⟩
  refine ⟨?_, h_composed⟩
  rw [counted, waits, h_task]
  exact h

/-- A call that leaves is counted no more. -/
theorem leaveWith (h : s.waiters = n + 1) (h_result : Plain result) :
    Counts n (s.leaveWith result) := by
  rw [Slot.leaveWith, Slot.leave, if_neg (by omega)]
  exact .finish (show s.waiters - 1 = n by omega) h_result

/-- A poll leaves, or goes on as what follows it does. -/
theorem pollOr (h : s.waiters = n + 1) {wait : Slot → Move Task Result × Slot}
    (h_wait : Counts n (wait s)) : Counts n (s.pollOr ticket wait) := by
  obtain ⟨phase, buffer, h_frame⟩ := poll_frame s ticket
  rw [Slot.pollOr]
  cases h_poll : s.poll ticket with
  | mk found s' =>
    rw [h_poll] at h_frame
    have h_same : s'.waiters = s.waiters := (congrArg waiters h_frame :)
    rcases found with _ | (error | broken) | flush
    · -- nothing was found, so nothing has changed
      cases h_poll.symm.trans (poll_none (congrArg Prod.fst h_poll))
      exact h_wait
    · exact .leaveWith (h_same.trans h) (.refused error)
    · -- the call returns and stays counted
      obtain rfl := poll_fault (congrArg Prod.fst h_poll)
      rintro _ ⟨⟩
      exact ⟨h_same.trans h, fun h_eq => by cases h_eq⟩
    · exact .leaveWith (h_same.trans h) (.ok _)

theorem await (h : s.waiters = n + 1) (ticket : Ticket) : Counts n (s.await ticket) := by
  refine .pollOr h ?_
  -- the call waits on, and it is the one that is not among the `n`
  rintro _ ⟨⟩
  exact ⟨h, trivial⟩

/-- A call that gives up leaves first, and is counted again only by its next step. -/
theorem giveUp (h : s.waiters = n + 1) (ticket : Ticket) : Counts n (s.giveUp ticket) := by
  obtain ⟨phase, claims, buffer, h_frame⟩ :=
    claimAtDeadline_frame { s with waiters := s.waiters - 1 } ticket
  rw [Slot.giveUp, Slot.leave, if_neg (by omega)]
  dsimp only
  cases h_claim : ({ s with waiters := s.waiters - 1 } : Slot).claimAtDeadline ticket with
  | mk claimed s' =>
    rw [h_claim] at h_frame
    have h_same : s'.waiters = s.waiters - 1 := (congrArg waiters h_frame :)
    rcases claimed with broken | _ | flush
    · exact .faulting (by omega) (claimAtDeadline_fault (congrArg Prod.fst h_claim))
    · exact .goto (by omega) rfl trivial
    · exact .finish (by omega) (.ok _)

/-- A fill that waits is not counted. -/
theorem whenAccepted (h : s.waiters = n) (h_task : task.isCounted = false)
    (h_composed : task.Composed) (h_next : Counts n o) : Counts n (s.whenAccepted tag task o) := by
  rw [Slot.whenAccepted]
  split
  · next stop h_stop => exact .finish h (plain_accepts h_stop)
  · rintro _ ⟨⟩
    refine ⟨?_, h_composed⟩
    rw [counted, waits, h_task]
    exact h
  · exact h_next

/-- A copy leaves the number of waiters. -/
theorem copyThen (h : s.waiters = n) {offset : Nat} {data : Bytes}
    {completing other : Ticket → Slot → Move Task Result × Slot}
    (h_completing : ∀ ticket s', s'.waiters = n → Counts n (completing ticket s'))
    (h_other : ∀ ticket s', s'.waiters = n → Counts n (other ticket s')) :
    Counts n (s.copyThen offset data completing other) := by
  obtain ⟨dirty, highWater, buffer, h_frame⟩ := copyIn_frame s offset data
  rw [Slot.copyThen]
  cases h_copy : s.copyIn offset data with
  | mk copied s' =>
    rw [h_copy] at h_frame
    -- copying does not touch the count
    have h_same : s'.waiters = s.waiters := (congrArg waiters h_frame :)
    cases copied with
    | error broken =>
      exact .faulting (h_same.trans h) (copyIn_fault (congrArg Prod.fst h_copy))
    | ok ticket =>
      dsimp only
      split
      · exact h_completing ticket s' (h_same.trans h)
      · exact h_other ticket s' (h_same.trans h)

/-- Handing a flush back leaves the number of waiters. -/
theorem release (h : s.waiters = n) (flush : Flush) : Counts n (run (.release flush) s) := by
  obtain ⟨tag, dirty, highWater, phase, skipped, durable, buffer, h_frame⟩ := handBack_frame s flush
  rw [run]
  cases h_back : s.handBack flush with
  | mk result s' =>
    rw [h_back] at h_frame
    have h_same : s'.waiters = n := (congrArg waiters h_frame).trans h
    rcases result with (error | broken) | _
    · exact .goto h_same rfl (composed_refused error)
    · exact .faulting h_same (handBack_fault (congrArg Prod.fst h_back))
    · exact .goto h_same rfl (composed_done .done)

/-- A skip leaves the number of waiters. -/
theorem skip (h : s.waiters = n) (tag : Nat) : Counts n (run (.skip tag) s) := by
  obtain ⟨tag', dirty, highWater, phase, skipped, buffer, h_frame⟩ := skipOver_frame s tag
  rw [run]
  cases h_skip : s.skipOver tag with
  | mk result s' =>
    rw [h_skip] at h_frame
    have h_same : s'.waiters = n := (congrArg waiters h_frame).trans h
    cases result with
    | error broken => exact .faulting h_same (skipOver_fault (congrArg Prod.fst h_skip))
    | ok _ => exact .goto h_same rfl (composed_done .done)

end Counts

/-- **A step keeps the count.** -/
theorem counts_run (h : s.waiters = n + task.isCounted.toNat)
    (h_announces : ∀ result, task = .announce result → Plain result) : Counts n (run task s) := by
  cases task with
  | acquire tag => exact .whenAccepted h rfl trivial (.finish h (.ok _))
  | tryAcquire tag =>
    rw [run]
    cases h_accepts : s.accepts tag with
    | error stop => exact .finish h (plain_accepts h_accepts)
    | ok now => exact .finish h (.ok _)
  | fill tag offset data =>
    refine .whenAccepted h rfl trivial (.copyThen h ?_ fun _ _ h' => .finish h' (.ok _))
    exact fun ticket s' h' =>
      .goto (s := { s' with phase := .full }) h' rfl (composed_done (.filled ticket))
  | fillJoin tag offset data =>
    refine .whenAccepted h rfl trivial (.copyThen h ?_ fun _ _ h' => .goto h' rfl trivial)
    exact fun _ s' h' => .finish (s := s'.claimFull.2) h' (.ok _)
  | join ticket => exact .await (s := { s with waiters := s.waiters + 1 }) (congrArg Nat.succ h) ticket
  | rejoin ticket => exact .await h ticket
  | joinLate ticket => exact .pollOr h (.giveUp h ticket)
  | release flush => exact .release h flush
  | abandon flush reason => exact .goto (s := s.takeBack flush reason) h rfl (composed_done .done)
  | skip tag => exact .skip h tag
  | poison reason => exact .goto (s := s.poisonWith reason) h rfl (composed_done .done)
  | announce result =>
    -- waking the others changes nothing
    rintro status h_leads
    cases h_leads with
    | notify h_leads => exact Counts.finish h (h_announces result rfl) status h_leads

/-! ### Runs -/

/-- What callers begin with is not counted yet. -/
theorem Task.IsOperation.uncounted (h : task.IsOperation) :
    task.isCounted = false ∧ task.Composed := by
  cases task with
  | rejoin ticket => exact h.elim
  | joinLate ticket => exact h.elim
  | announce result => exact h.elim
  | _ => exact ⟨rfl, trivial⟩

/-- The slot counts `n` calls and those that are to be counted. -/
structure Tallied (n : Nat) (m : Machine Slot Task Result) : Prop where
  placed : Placed m
  count : m.state.waiters = n + m.calls.countP counted
  composed : ∀ (i : Nat) status, m.calls[i]? = some status → Composed status

namespace Tallied

variable {e : Event Task Empty}

/-- Before the first call nobody is counted. -/
theorem idle (slot : Slot) : Tallied slot.waiters (Machine.idle slot) where
  placed := fun j c wake late hj => by rw [Machine.getElem?_idle] at hj; cases hj
  count := rfl
  composed := fun i status hi => by rw [Machine.getElem?_idle] at hi; cases hi

/-- A call that makes a step does so with a task that is counted if the call is. -/
theorem exists_task (h : Tallied n m) (h_acts : m.Acts program e i status o) :
    ∃ task, o = run task m.state ∧ task.isCounted = counted status ∧
      ∀ result, task = .announce result → Plain result := by
  cases h_acts with
  | @run i task hi =>
    have h_composed : task.Composed := h.composed i _ hi
    exact ⟨task, rfl, (Bool.or_false _).symm, fun result => h_composed.plain⟩
  | @expire i c wake late hi =>
    -- only who waits for a ticket has a deadline
    obtain ⟨-, h_late, -⟩ := h.placed i c wake _ hi
    cases wake with
    | rejoin ticket =>
      cases h_late
      exact ⟨.joinLate ticket, rfl, rfl, nofun⟩
    | _ => cases h_late
  | @answer i task answer hi => exact answer.elim

/-- The call that acts is one of those counted. -/
theorem toNat_counted_le (h_acts : m.Acts program e i status o) :
    (counted status).toNat ≤ m.calls.countP counted := by
  cases h_counted : counted status with
  | false => exact Nat.zero_le _
  | true => exact List.countP_pos_iff.2 ⟨status, List.mem_of_getElem? h_acts.before, h_counted⟩

/-- The calls that make no step stay counted. -/
theorem counts (h : Tallied n m) (h_acts : m.Acts program e i status o) :
    Counts (n + m.calls.countP counted - (counted status).toNat) o := by
  obtain ⟨task, rfl, h_task, h_announces⟩ := h.exists_task h_acts
  have h_self := toNat_counted_le h_acts
  refine counts_run ?_ h_announces
  rw [h.count, h_task]
  omega

/-- The count is kept by every event. -/
theorem step (h : Tallied n m) (h_step : m.step program e = some m')
    (h_operation : ∀ start, e = .call start → start.IsOperation) : Tallied n m' where
  placed := h.placed.step h_step
  count := by
    rcases Machine.counted counted_woken h_step with
      ⟨start, rfl, rfl⟩ | ⟨i, status, o, status', h_acts, h_leads, h_state, h_counted⟩
    · -- callers do not come with a task that is counted
      have h_first : counted (.ready start) = false := by
        rw [counted, waits, (h_operation start rfl).uncounted.1]
        rfl
      rw [List.countP_append, List.countP_singleton, h_first]
      exact h.count
    · -- the step brings one side as much as the other
      have h_self := toNat_counted_le h_acts
      have h_after := (h.counts h_acts status' h_leads).1
      have h_count := h_counted.count
      rw [h_state]
      omega
  composed := by
    intro j status' hj
    cases Machine.came h_step hj with
    | made start => exact (h_operation start rfl).uncounted.2
    | stepped h_acts h_stepped h_leads => exact (h.counts h_acts status' h_leads).2
    | remained hj₀ h_remains =>
      have h_before := h.composed j _ hj₀
      cases h_remains <;> exact h_before

/-- A call that waits is blocked until the bytes of its ticket are written, or has been woken and is
about to look again. -/
theorem waits_iff (h : Tallied n m) (hi : m.calls[i]? = some status) : waits status = true ↔
    ∃ ticket, status = .parked 0 (.rejoin ticket) (some (.joinLate ticket)) ∨
      status = .ready (.rejoin ticket) := by
  constructor
  · intro h_waits
    have h_composed := h.composed i status hi
    cases status with
    | ready task =>
      cases task with
      | rejoin ticket => exact ⟨ticket, .inr rfl⟩
      | joinLate ticket => exact h_composed.elim
      | _ => cases h_waits
    | parked c wake late =>
      -- a blocked call is placed, so its deadline goes with its ticket
      obtain ⟨rfl, rfl, -⟩ := h.placed i c wake late hi
      cases wake with
      | rejoin ticket => exact ⟨ticket, .inl rfl⟩
      | joinLate ticket => exact h_composed.elim
      | _ => cases h_waits
    | _ => cases h_waits
  · rintro ⟨ticket, rfl | rfl⟩ <;> rfl

/-- While no call has faulted, those that are counted are those that wait. -/
theorem countP_waits (h_sound : ¬ Faulted m) : m.calls.countP counted = m.calls.countP waits := by
  refine List.countP_congr fun status h_mem => ?_
  -- a call that stays counted has faulted
  have h_live : stranded status = false := by
    unfold stranded
    split
    · obtain ⟨i, hi⟩ := List.mem_iff_getElem?.1 h_mem
      exact absurd ⟨i, _, hi⟩ h_sound
    · rfl
  rw [counted, h_live, Bool.or_false]

end Tallied

/-- **The waiters in every run**: the slot counts those that wait, and those that faulted while they
were counted. -/
theorem tallied (h_operations : ∀ start ∈ Machine.starts es, start.IsOperation)
    (h_steps : (Machine.idle slot).steps program es = some m) : Tallied slot.waiters m := by
  induction es using List.reverseRecOn generalizing m with
  | nil =>
    cases h_steps
    exact .idle slot
  | append_singleton es e ih =>
    obtain ⟨m₁, h₁, h_step⟩ := Machine.steps_concat _ h_steps
    rw [Machine.starts_concat] at h_operations
    refine (ih (fun start h_mem => h_operations start (List.mem_append_left _ h_mem)) h₁).step
      h_step ?_
    rintro start rfl
    exact h_operations start (List.mem_append_right _ (List.mem_singleton_self start))

/-- While a call waits, the number of waiters is positive. -/
theorem waiters_pos (h_operations : ∀ start ∈ Machine.starts es, start.IsOperation)
    (h_steps : (Machine.idle slot).steps program es = some m) (hi : m.calls[i]? = some status)
    (h_waits : waits status = true) : 0 < m.state.waiters := by
  have h_counted : counted status = true := by rw [counted, h_waits, Bool.true_or]
  have h_pos := List.countP_pos_iff.2 ⟨status, List.mem_of_getElem? hi, h_counted⟩
  have h_count := (tallied h_operations h_steps).count
  omega

/-- **The waiters are counted exactly.** Callers come to a slot that counts no waiters with whatever
operations of it. In every state that they bring about without a fault, the number of waiters is the
number of calls that are blocked in a join, or have been woken there and have not looked again. And no
call ever counts itself out of a slot that counts none, faults or no faults. -/
theorem waiters_exact (h_slot : slot.waiters = 0)
    (h_operations : ∀ start ∈ Machine.starts es, start.IsOperation)
    (h_steps : (Machine.idle slot).steps program es = some m) :
    (¬ Faulted m → m.state.waiters = m.calls.countP waits) ∧
      (∀ i : Nat, m.calls[i]? ≠ some (.finished (.error (.fault .subOverflow)))) ∧
        ∀ (i : Nat) status, m.calls[i]? = some status → (waits status = true ↔
          ∃ ticket, status = .parked 0 (.rejoin ticket) (some (.joinLate ticket)) ∨
            status = .ready (.rejoin ticket)) := by
  have h_tallied := tallied h_operations h_steps
  refine ⟨fun h_sound => ?_, fun i hi => h_tallied.composed i _ hi rfl, fun i status hi =>
    h_tallied.waits_iff hi⟩
  rw [h_tallied.count, h_slot, Nat.zero_add, Tallied.countP_waits h_sound]

/-- One call copies a byte in and waits for it, and so does a second one. The deadline of the first
passes, and it takes the early flush. Then that of the second passes; since somebody is writing, it
joins anew. -/
def busyDeadline : List (Event Task Empty) :=
  [.call (.fillJoin 0 0 [1]), .run 0, .run 0, .call (.join ⟨0, 1, 0⟩), .run 1, .expire 0, .expire 1,
    .run 1]

/-- The second call waits then, and is the only one that is counted. -/
theorem waiters_exact_busyDeadline : ∃ m,
    (Machine.idle smallSlot).steps program busyDeadline = some m ∧
      m.calls = [.finished (.ok (.joined (some ⟨0, 1, .early, ⟨2, [1]⟩⟩))),
        .parked 0 (.rejoin ⟨0, 1, 0⟩) (some (.joinLate ⟨0, 1, 0⟩))] ∧
      m.state.waiters = m.calls.countP waits ∧
      (∀ i : Nat, m.calls[i]? ≠ some (.finished (.error (.fault .subOverflow)))) ∧
      ∀ (i : Nat) status, m.calls[i]? = some status → (waits status = true ↔
        ∃ ticket, status = .parked 0 (.rejoin ticket) (some (.joinLate ticket)) ∨
          status = .ready (.rejoin ticket)) := by
  have h_possible : ((Machine.idle smallSlot).steps program busyDeadline).isSome := rfl
  have h_steps := (Option.some_get h_possible).symm
  have h_calls : (((Machine.idle smallSlot).steps program busyDeadline).get h_possible).calls =
      [.finished (.ok (.joined (some ⟨0, 1, .early, ⟨2, [1]⟩⟩))),
        .parked 0 (.rejoin ⟨0, 1, 0⟩) (some (.joinLate ⟨0, 1, 0⟩))] := rfl
  obtain ⟨h_exact, h_rest⟩ := waiters_exact rfl (by decide) h_steps
  refine ⟨_, h_steps, h_calls, h_exact ?_, h_rest⟩
  rintro ⟨i, broken, hi⟩
  have h_mem := List.mem_of_getElem? hi
  rw [h_calls] at h_mem
  simp at h_mem

end GroupCommit.Slot
