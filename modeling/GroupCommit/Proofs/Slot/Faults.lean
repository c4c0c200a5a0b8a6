import GroupCommit.Proofs.Slot.FullFlushes
import GroupCommit.Proofs.Slot.Waiters

/-!
# What a fault leaves behind

A slot goes on after a fault: its lock is given up, and other callers find whatever the call has left
that faulted. Most checks come before anything is changed, and a call that waits counts itself out
before it looks whether there is anything to flush. So nearly every fault leaves the slot as it was
before the step. There are exceptions. Bytes that the slot does not hold are noticed when they have been
copied and counted, or copied where there are too many to be counted; a call that joins a generation which the slot has not reached stays counted; a skip
that runs out of addresses has begun to move the slot on; and a flush that cannot be handed back has
brought its buffer with it.

A slot that counts more bytes than it holds stays so for good. It is never full and never flushed whole,
so its generation does not end.

* `Slot.Leaves`: what a fault leaves behind.
* `Slot.Begins`, `Slot.Looks`: how the steps of a call end, and what they leave if they fault.
* `Slot.Tallied.treads`: every step in a run is one of these.
* `Slot.Overfull`, `Slot.overflows_iff`: a slot counts more bytes than it holds exactly if some call has
  found that out.
-/

namespace GroupCommit.Slot

variable {slot s s' : Slot} {m m' : Machine Slot Task Result} {es : List (Event Task Empty)}
  {e : Event Task Empty} {i n tag offset : Nat} {data : Bytes} {start task : Task} {ticket : Ticket}
  {broken : Fault} {status : Status Task Result} {o : Move Task Result × Slot}

/-! ### Faults -/

/-- The call does not end in a fault with this result. -/
def Faultless (result : Result) : Prop := ∀ broken, result ≠ .error (.fault broken)

theorem Faultless.ok (reply : Reply) : Faultless (.ok reply) := nofun

theorem Faultless.refused (error : LogError) : Faultless (.error (.refused error)) := nofun

/-- The slot with one more waiter. -/
def counting (s : Slot) : Slot := { s with waiters := s.waiters + 1 }

/-- What the last step of a call with this first task leaves of a slot if it ends in a fault. The place of
the call among the waiters is not part of the slot here. -/
inductive Leaves (start : Task) (s : Slot) : Fault → Slot → Prop
  | unchanged {broken : Fault} (h : ¬ IsOverflow broken) (h_wait : ¬ OfWait broken) :
      Leaves start s broken s
  /-- The bytes have been copied and counted. -/
  | overfilled {offset : Nat} {data : Bytes} (h_copies : start.Copies offset data)
      (h_open : s.phase = .filling) (h_word : s.dirty + data.length < Word.limit)
      (h_over : s.capacity < s.dirty + data.length) :
      Leaves start s (.slotOverflow s.tag (s.dirty + data.length) s.capacity)
        (s.overfilledWith offset data)
  /-- The bytes have been copied, but with those before there are too many to be counted. -/
  | uncounted {offset : Nat} {data : Bytes} (h_copies : start.Copies offset data)
      (h_open : s.phase = .filling) (h_over : Word.limit ≤ s.dirty + data.length) :
      Leaves start s .addOverflow (s.copiedWith offset data)
  /-- The call stays counted. -/
  | stranded {ticket : Ticket} (h_start : start = .join ticket) (h_ahead : s.tag < ticket.tag) :
      Leaves start s (.joinedAhead ticket.tag s.tag) s.counting
  /-- There is no address for the next generation. -/
  | ranOut (h_start : start = .skip s.tag) (h_over : s.advance.1 = .error .addOverflow) :
      Leaves start s .addOverflow s.advance.2
  /-- Handing a flush back brings its buffer with it. -/
  | handedBack {flush : Flush} {broken : Fault} (h_start : start = .release flush)
      (h : ¬ IsOverflow broken) (h_wait : ¬ OfWait broken) :
      Leaves start s broken (s.handBack flush).2

/-- Moving on fails without a change, or for want of an address. -/
theorem advance_overflow (h : s.advance.1 = .error broken) :
    (broken = .addOverflow ∨ s.advance.2 = s) ∧ ¬ IsOverflow broken := by
  unfold advance at h ⊢
  split at h
  · next h_size =>
    cases h
    rw [if_pos h_size]
    exact ⟨.inr rfl, nofun⟩
  · next h_size =>
    rw [if_neg h_size]
    -- the slot is at its next generation already when it passes over those that were skipped
    dsimp only at h ⊢
    split at h
    · obtain ⟨-, -, h_over⟩ := passSkips_cases s.skipped.length
        { s with
          buffer := s.buffer.clear s.highWater
          tag := s.tag + s.gap
          dirty := 0
          highWater := 0
          phase := .filling }
      rw [h_over broken h]
      exact ⟨.inl rfl, nofun⟩
    · cases h
      exact ⟨.inl rfl, nofun⟩

/-- A fill that is turned away with a fault has changed nothing. -/
theorem leaves_accepts (h : s.accepts tag = .error (.fault broken)) (start : Task) :
    Leaves start s broken s := by
  refine .unchanged ?_ (plain_accepts h broken rfl)
  unfold accepts at h
  split at h
  · cases h
  · split at h <;> cases h
    nofun

/-- What a skip leaves that ends in a fault. -/
theorem leaves_skipOver (h : s.skipOver tag = (.error broken, s')) :
    Leaves (.skip tag) s broken s' := by
  have h_wait : ¬ OfWait broken := skipOver_fault (congrArg Prod.fst h)
  unfold skipOver at h
  split at h
  · cases h
  split at h
  · next h_tag =>
    -- the generation is the one of the slot, which goes on from it
    split at h
    · have h_fault : s.advance.1 = .error broken := by rw [h]
      have h_state : s.advance.2 = s' := by rw [h]
      obtain ⟨rfl | h_same, h_overflow⟩ := advance_overflow h_fault
      · exact h_state ▸ .ranOut (by rw [h_tag]) h_fault
      · exact (h_same.symm.trans h_state) ▸ .unchanged h_overflow h_wait
    · cases h
      exact .unchanged nofun h_wait
  split at h
  · cases h
    exact .unchanged nofun h_wait
  split at h
  · cases h
    exact .unchanged nofun h_wait
  · cases h

/-- A flush that comes back is never found to be too much. -/
theorem handBack_overflow {flush : Flush} (h : (s.handBack flush).1 = .error (.fault broken)) :
    ¬ IsOverflow broken := by
  unfold handBack at h
  split at h
  · cases h
    nofun
  · dsimp only at h
    split at h
    · cases h
    · cases h_advance : ({ s with buffer := flush.buffer } : Slot).advance with
      | mk result s' =>
        rw [h_advance] at h
        cases result with
        | ok _ => cases h
        | error broken' =>
          cases h
          exact (advance_overflow (congrArg Prod.fst h_advance)).2
    · cases h
    · cases h
      nofun

/-! ### The first step of a call -/

/-- How the first step of a call ends, or one that tries the same again; a join is left aside. -/
inductive Begins (start : Task) (s : Slot) : Move Task Result × Slot → Prop
  | blocked : Begins start s (.park 0 start none, s)
  | returns {result : Result} {s' : Slot} (h : Faultless result) :
      Begins start s (.finish result, s')
  | announces {result : Result} {s' : Slot} (h : Faultless result) :
      Begins start s (.goto (.announce result), s')
  /-- The bytes are copied in, and the call goes on to wait for them. -/
  | joins {tag offset : Nat} {data : Bytes} (h_start : start = .fillJoin tag offset data) :
      Begins start s
        (.goto (.join ⟨s.tag, offset + data.length, s.claims⟩), s.filledWith offset data)
  | faults {broken : Fault} {s' : Slot} (h : Leaves start s broken s') :
      Begins start s (faulting broken, s')

namespace Begins

/-- A fill begins by being accepted, or waits, or is turned away. -/
theorem accepted (h_next : s.phase = .filling → Begins start s o) :
    Begins start s (s.whenAccepted tag start o) := by
  rw [whenAccepted]
  split
  · next stop h_accepts =>
    cases stop with
    | refused error => exact .returns (.refused error)
    | fault broken => exact .faults (leaves_accepts h_accepts _)
  · exact .blocked
  · next h_accepts => exact h_next (accepts_eq_true.1 h_accepts).2.2

/-- What a fill that is accepted does to the slot, ending in a fault or not. -/
theorem copying (h_copies : start.Copies offset data) (h_open : s.phase = .filling)
    {completing other : Ticket → Slot → Move Task Result × Slot}
    (h_completing : ∀ ticket s', Begins start s (completing ticket s'))
    (h_other : Begins start s
      (other ⟨s.tag, offset + data.length, s.claims⟩ (s.filledWith offset data))) :
    Begins start s (s.copyThen offset data completing other) := by
  have h_copied := s.copied offset data
  have h_fault : ∀ broken, (s.copyIn offset data).1 = .error broken → ¬ OfWait broken :=
    fun _ => copyIn_fault
  rw [copyThen]
  generalize s.copyIn offset data = o at h_copied h_fault
  cases h_copied with
  | refused h => exact .faults (.unchanged h (h_fault _ rfl))
  | uncounted h => exact .faults (.uncounted h_copies h_open h)
  | overflows h_word h => exact .faults (.overfilled h_copies h_open h_word h)
  | fits =>
    dsimp only
    split
    · exact h_completing _ _
    · exact h_other

/-- How a release begins. -/
theorem release (s : Slot) (flush : Flush) :
    Begins (.release flush) s (run (.release flush) s) := by
  rw [run]
  cases h_back : s.handBack flush with
  | mk result s' =>
    have h_state : (s.handBack flush).2 = s' := by rw [h_back]
    rcases result with (error | broken) | _
    · exact .announces (.refused error)
    · have h_fault := congrArg Prod.fst h_back
      exact .faults (h_state ▸ .handedBack rfl (handBack_overflow h_fault) (handBack_fault h_fault))
    · exact .announces (.ok _)

/-- How a skip begins. -/
theorem skip (s : Slot) (tag : Nat) : Begins (.skip tag) s (run (.skip tag) s) := by
  rw [run]
  cases h_skip : s.skipOver tag with
  | mk result s' =>
    cases result with
    | error broken => exact .faults (leaves_skipOver h_skip)
    | ok _ => exact .announces (.ok _)

end Begins

theorem begins_run (h : start.IsOperation) (h_join : ∀ ticket, start ≠ .join ticket) (s : Slot) :
    Begins start s (run start s) := by
  cases start with
  | acquire tag => exact .accepted fun _ => .returns (.ok _)
  | tryAcquire tag =>
    rw [run]
    cases h_accepts : s.accepts tag with
    | ok now => exact .returns (.ok _)
    | error stop =>
      cases stop with
      | refused error => exact .returns (.refused error)
      | fault broken => exact .faults (leaves_accepts h_accepts _)
  | fill tag offset data =>
    exact .accepted fun h_open =>
      .copying .fill h_open (fun _ _ => .announces (.ok _)) (.returns (.ok _))
  | fillJoin tag offset data =>
    exact .accepted fun h_open =>
      .copying .fillJoin h_open (fun _ _ => .returns (.ok _)) (.joins rfl)
  | join ticket => exact absurd rfl (h_join ticket)
  | rejoin ticket => exact h.elim
  | joinLate ticket => exact h.elim
  | release flush => exact .release s flush
  | abandon flush reason => exact .announces (.ok _)
  | skip tag => exact .skip s tag
  | poison reason => exact .announces (.ok _)
  | announce result => exact h.elim

/-! ### The steps of a call that waits -/

/-- How a step ends in which a call looks after a ticket. The slot is taken apart from the call. -/
inductive Looks (ticket : Ticket) (s : Slot) : Move Task Result × Slot → Prop
  | waits : Looks ticket s (.park 0 (.rejoin ticket) (some (.joinLate ticket)), s.counting)
  | again : Looks ticket s (.goto (.join ticket), s)
  | returns {result : Result} {s' : Slot} (h : Faultless result) :
      Looks ticket s (.finish result, s')
  | ahead (h : s.tag < ticket.tag) :
      Looks ticket s (faulting (.joinedAhead ticket.tag s.tag), s.counting)
  /-- The call has counted itself out before it faults. -/
  | empty (h_tag : s.tag = ticket.tag) (h_high : s.highWater = 0) :
      Looks ticket s (faulting (.joinedEmpty ticket.tag), s)

/-- A poll that fails has met a ticket of a later generation. -/
theorem poll_ahead (h : s.poll ticket = (some (.error (.fault broken)), s')) :
    s' = s ∧ s.tag < ticket.tag ∧ broken = .joinedAhead ticket.tag s.tag := by
  unfold poll at h
  split at h
  · cases h
  split at h
  · next h_ahead =>
    cases h
    exact ⟨rfl, h_ahead, rfl⟩
  split at h
  · cases h
  split at h <;> cases h

namespace Looks

/-- A call that is counted can leave. -/
theorem leaving (h : 0 < s'.waiters) (h_result : Faultless result) :
    Looks ticket s (s'.leaveWith result) := by
  rw [leaveWith, leave, if_neg (by omega)]
  exact .returns h_result

/-- A call looks after its ticket and leaves, unless nothing is found. -/
theorem polling {wait : Slot → Move Task Result × Slot}
    (h_wait : (s.counting.poll ticket).1 = none → Looks ticket s (wait s.counting)) :
    Looks ticket s (s.counting.pollOr ticket wait) := by
  obtain ⟨phase, buffer, h_frame⟩ := poll_frame s.counting ticket
  rw [pollOr]
  cases h_poll : s.counting.poll ticket with
  | mk found s' =>
    rw [h_poll] at h_frame
    -- the call itself is counted, so that it can leave
    have h_pos : 0 < s'.waiters := by
      rw [show s'.waiters = s.waiters + 1 from congrArg waiters h_frame]
      exact Nat.succ_pos _
    rcases found with _ | (error | broken) | flush
    · cases h_poll.symm.trans (poll_none (congrArg Prod.fst h_poll))
      exact h_wait (congrArg Prod.fst h_poll)
    · exact .leaving h_pos (.refused error)
    · obtain ⟨rfl, h_ahead, rfl⟩ := poll_ahead h_poll
      exact .ahead h_ahead
    · exact .leaving h_pos (.ok _)

theorem awaiting (s : Slot) (ticket : Ticket) : Looks ticket s (s.counting.await ticket) :=
  .polling fun _ => .waits

/-- At its deadline a call finds its generation open and empty, or takes the flush, or joins anew. -/
theorem givingUp (h_none : (s.counting.poll ticket).1 = none) :
    Looks ticket s (s.counting.giveUp ticket) := by
  have h_leave : s.counting.leave = (.ok (), s) := if_neg (Nat.succ_ne_zero s.waiters)
  obtain ⟨-, h_le, h_open, -⟩ := poll_eq_none.1 h_none
  have h_tag : s.tag = ticket.tag :=
    Nat.le_antisymm (Nat.le_of_not_lt fun h_lt => h_open (.inl h_lt)) h_le
  rw [giveUp, h_leave]
  dsimp only
  rw [claimAtDeadline]
  by_cases h_phase : s.phase = .filling
  · rw [if_pos h_phase]
    by_cases h_high : s.highWater = 0
    · -- nothing has been filled in: the ticket is of an empty generation
      rw [if_pos h_high]
      exact .empty h_tag h_high
    · rw [if_neg h_high]
      exact .returns (.ok _)
  · rw [if_neg h_phase]
    exact .again

end Looks

/-! ### The steps of a call -/

/-- The slot apart from a call with this status, which has a place among the waiters while it waits. -/
def apart (status : Status Task Result) (s : Slot) : Slot :=
  { s with waiters := s.waiters - (waits status).toNat }

/-- Apart from a call that does not wait, the slot is the slot. -/
theorem apart_of_not_waits (h : waits status = false) (s : Slot) : apart status s = s := by
  rw [apart, h]
  rfl

/-- The slot apart from a call that waits, and the call, make the slot. -/
theorem counting_apart (h : waits status = true) (h_pos : 0 < s.waiters) :
    (apart status s).counting = s := by
  have h_waiters : s.waiters - 1 + 1 = s.waiters := Nat.sub_add_cancel h_pos
  rw [apart, h, counting]
  exact congrArg (fun n => { s with waiters := n }) h_waiters

/-- The call looks after a ticket, or is about to. -/
inductive AtTicket (ticket : Ticket) : Status Task Result → Prop
  | joins : AtTicket ticket (.ready (.join ticket))
  | rejoins : AtTicket ticket (.ready (.rejoin ticket))
  | waits : AtTicket ticket (.parked 0 (.rejoin ticket) (some (.joinLate ticket)))

/-- Which step a call makes: one of its first task, one that looks after a ticket, or the one that wakes
the others. -/
inductive Treads (s : Slot) : Status Task Result → Move Task Result × Slot → Prop
  | begins {start : Task} (h_operation : start.IsOperation) (h_join : ∀ ticket, start ≠ .join ticket) :
      Treads s (.ready start) (run start s)
  | looks {status : Status Task Result} {ticket : Ticket} {o : Move Task Result × Slot}
      (h_at : AtTicket ticket status) (h_looks : Looks ticket (apart status s) o) : Treads s status o
  | announces {result : Result} (h : Faultless result) :
      Treads s (.ready (.announce result)) (.notify 0 fun _ => .finish result, s)

theorem Tallied.treads (h : Tallied n m) (h_acts : m.Acts program e i status o) :
    Treads m.state status o := by
  -- a call that waits is one of those counted
  have h_waiting : waits status = true → 0 < m.state.waiters := by
    intro h_waits
    have h_counted : counted status = true := by rw [counted, h_waits, Bool.true_or]
    have h_self := toNat_counted_le h_acts
    have h_count := h.count
    rw [h_counted, Bool.toNat_true] at h_self
    omega
  cases h_acts with
  | @run i task hi =>
    have h_composed : task.Composed := h.composed i _ hi
    cases task with
    | join ticket =>
      have h_apart : apart (.ready (.join ticket)) m.state = m.state := apart_of_not_waits rfl _
      exact .looks .joins (h_apart ▸ Looks.awaiting m.state ticket)
    | rejoin ticket =>
      -- it is counted while it looks after its ticket
      have h_looks := Looks.awaiting (apart (.ready (.rejoin ticket)) m.state) ticket
      rw [counting_apart rfl (h_waiting rfl)] at h_looks
      exact .looks .rejoins h_looks
    | joinLate ticket => exact h_composed.elim
    | announce result => exact .announces h_composed
    | _ =>
      refine .begins trivial ?_
      rintro _ ⟨⟩
  | @expire i c wake late hi =>
    obtain ⟨rfl, h_late, -⟩ := h.placed i c wake _ hi
    -- only who waits for a ticket has a deadline
    cases wake with
    | rejoin ticket =>
      cases h_late
      have h_looks : Looks ticket (apart (.parked 0 (.rejoin ticket) (some (.joinLate ticket))) m.state)
          (run (.joinLate ticket) (apart (.parked 0 (.rejoin ticket) (some (.joinLate ticket)))
            m.state).counting) := .polling .givingUp
      rw [counting_apart rfl (h_waiting rfl)] at h_looks
      exact .looks .waits h_looks
    | _ => cases h_late
  | @answer i task answer hi => exact answer.elim

/-! ### Slots that count more than they hold -/

/-- The slot counts more bytes than it holds. Then it is not full, and is not flushed whole. -/
structure Overfull (s : Slot) : Prop where
  beyond : s.capacity < s.dirty
  not_full : s.phase ≠ .full
  not_flushing : s.phase ≠ .flushing

/-- Nothing gets a slot back that counts more than it holds. -/
theorem Overfull.keepsThrough : KeepsThrough (fun _ _ => True) Overfull where
  count := fun _ h => ⟨h.beyond, h.not_full, h.not_flushing⟩
  copyIn := fun {s} offset data _ h _ => by
    have h_more : s.capacity < s.dirty + data.length := h.beyond.trans_le (Nat.le_add_right _ _)
    have h_copied := s.copied offset data
    generalize s.copyIn offset data = o at h_copied
    cases h_copied with
    | refused | uncounted => exact ⟨h.beyond, h.not_full, h.not_flushing⟩
    | overflows | fits => exact ⟨h_more, h.not_full, h.not_flushing⟩
  complete := fun h _ h_full => absurd h.beyond h_full.le.not_gt
  claimFull := fun h h_full => absurd h_full h.not_full
  claimEarly := fun h _ => ⟨h.beyond, nofun, nofun⟩
  stop := fun _ _ h => ⟨h.beyond, nofun, nofun⟩
  buffer := fun _ h => ⟨h.beyond, h.not_full, h.not_flushing⟩
  later := fun _ h => ⟨h.beyond, h.not_full, h.not_flushing⟩
  reopen := fun _ h _ => ⟨h.beyond, nofun, nofun⟩
  advance := fun {s} h h_phase => by
    -- only a slot is moved on that is flushed whole or empty
    rcases h_phase with h_flushing | ⟨-, h_empty⟩
    · exact absurd h_flushing h.not_flushing
    · exact absurd h.beyond (h_empty ▸ Nat.not_lt_zero _)

/-- A slot that counts no more than it holds does so until bytes are copied in. -/
theorem keepsThrough_room :
    KeepsThrough (fun _ _ => False) fun s => 0 < s.gap ∧ s.dirty ≤ s.capacity where
  count := fun _ h => h
  copyIn := fun _ _ h _ _ => h.elim
  complete := fun h _ _ => h
  claimFull := fun h _ => h
  claimEarly := fun h _ => h
  stop := fun _ _ h => h
  buffer := fun _ h => h
  later := fun _ h => h
  reopen := fun _ h _ => h
  advance := fun {s} h _ => by
    rcases advance_cases h.1 with ⟨buffer, h_eq⟩ | ⟨-, tag, skipped, buffer, h_eq⟩
    · rw [h_eq]
      exact h
    · rw [h_eq]
      exact ⟨h.1, Nat.zero_le _⟩

/-- A copy that goes through leaves no more than the slot holds, if what follows it counts nothing. -/
theorem room_copying {completing other : Ticket → Slot → Move Task Result × Slot}
    (h : s.dirty ≤ s.capacity)
    (h_completing : ∀ ticket s', s'.dirty ≤ s'.capacity →
      (completing ticket s').2.dirty ≤ (completing ticket s').2.capacity)
    (h_other : ∀ ticket s', s'.dirty ≤ s'.capacity →
      (other ticket s').2.dirty ≤ (other ticket s').2.capacity)
    (h_o : o = s.whenAccepted tag task (s.copyThen offset data completing other))
    (h_sound : ∀ broken, IsOverflow broken → o.1 ≠ faulting broken) : o.2.dirty ≤ o.2.capacity := by
  rw [whenAccepted] at h_o
  split at h_o
  · exact h_o ▸ h
  · exact h_o ▸ h
  · have h_copied := s.copied offset data
    rw [copyThen] at h_o
    generalize s.copyIn offset data = copied at h_copied h_o
    cases h_copied with
    | refused | uncounted => exact h_o ▸ h
    | overflows => exact absurd (congrArg Prod.fst h_o) (h_sound _ ⟨_, _, _, rfl⟩)
    | fits _ h_fits =>
      -- there is room, and neither way of going on counts any further
      dsimp only at h_o
      split at h_o
      · exact h_o ▸ h_completing _ (s.filledWith offset data) h_fits
      · exact h_o ▸ h_other _ (s.filledWith offset data) h_fits

/-- A step that does not find out that bytes do not fit leaves no more than the slot holds. -/
theorem room_run (h_gap : 0 < s.gap) (h : s.dirty ≤ s.capacity)
    (h_sound : ∀ broken, IsOverflow broken → (run task s).1 ≠ faulting broken) :
    (run task s).2.dirty ≤ (run task s).2.capacity := by
  cases task with
  | fill tag offset data => exact room_copying h (fun _ _ => id) (fun _ _ => id) rfl h_sound
  | fillJoin tag offset data => exact room_copying h (fun _ _ => id) (fun _ _ => id) rfl h_sound
  | _ =>
    refine (keeps_run keepsThrough_room.keeps _ ?_ ⟨h_gap, h⟩).2
    rintro _ _ ⟨⟩

/-- The call that finds out that its bytes do not fit leaves the slot with too many. -/
theorem Leaves.overfull (h : Leaves start s broken s') (h_overflow : IsOverflow broken) :
    Overfull s' := by
  cases h with
  | unchanged h => exact absurd h_overflow h
  -- the slot was filling, and nothing but that has been found out
  | overfilled _ h_open _ h_over =>
    refine ⟨h_over, ?_, ?_⟩ <;> rw [overfilledWith, copiedWith, h_open] <;> nofun
  | handedBack _ h => exact absurd h_overflow h
  | _ => obtain ⟨_, _, _, h_eq⟩ := h_overflow; cases h_eq

/-- A step that finds out that bytes do not fit leaves the slot with them. -/
theorem Treads.overfull (h : Treads s status o) (h_overflow : IsOverflow broken)
    (h_leads : o.1.Leads (.finished (.error (.fault broken)))) : Overfull o.2 := by
  cases h with
  | @begins start h_operation h_join =>
    have h_begins := begins_run h_operation h_join s
    generalize run start s = o at h_begins h_leads
    cases h_begins with
    | returns h => cases h_leads; exact absurd rfl (h broken)
    | faults h => cases h_leads; exact h.overfull h_overflow
    | _ => cases h_leads
  -- a call that waits finds out nothing of the kind
  | looks h_at h_looks =>
    obtain ⟨_, _, _, rfl⟩ := h_overflow
    cases h_looks with
    | returns h => cases h_leads; exact absurd rfl (h _)
    | _ => cases h_leads
  | announces h =>
    cases h_leads with
    | notify h_leads => cases h_leads; exact absurd rfl (h broken)

/-- The call has found out that its bytes do not fit. -/
def FoundOver (status : Status Task Result) : Prop :=
  ∃ broken, IsOverflow broken ∧ status = .finished (.error (.fault broken))

/-- Some call has found out that its bytes do not fit, and there are too many in the slot, or neither. -/
def Weighed (m : Machine Slot Task Result) : Prop :=
  ((∃ (i : Nat) (status : Status Task Result), m.calls[i]? = some status ∧ FoundOver status) ∧
      Overfull m.state) ∨
    ((∀ (i : Nat) status, m.calls[i]? = some status → ¬ FoundOver status) ∧
      m.state.dirty ≤ m.state.capacity)

/-- Every event keeps it. -/
theorem Weighed.step (h : Weighed m) (h_tallied : Tallied n m) (h_gap : 0 < m.state.gap)
    (h_step : m.step program e = some m') : Weighed m' := by
  rcases h with ⟨⟨i, _, hi, broken, h_overflow, rfl⟩, h_over⟩ | ⟨h_none, h_room⟩
  · exact .inl ⟨⟨i, _, Machine.step_finished h_step hi, broken, h_overflow, rfl⟩,
      keeps_step Overfull.keepsThrough.keeps h_over h_step⟩
  by_cases h_any : ∃ (i : Nat) (status : Status Task Result), m'.calls[i]? = some status ∧ FoundOver status
  · -- the call has found it out in this very step
    obtain ⟨i, _, hi, broken, h_overflow, rfl⟩ := h_any
    refine .inl ⟨⟨i, _, hi, broken, h_overflow, rfl⟩, ?_⟩
    cases Machine.came h_step hi with
    | stepped h_acts h_stepped h_leads =>
      rw [h_stepped.state]
      exact (h_tallied.treads h_acts).overfull h_overflow h_leads
    | remained hi₀ h_remains =>
      cases h_remains
      exact absurd ⟨broken, h_overflow, rfl⟩ (h_none i _ hi₀)
  · -- nobody has found it out, so the step has left room
    have h_none' : ∀ (i : Nat) status, m'.calls[i]? = some status → ¬ FoundOver status :=
      fun i status hi h_found => h_any ⟨i, status, hi, h_found⟩
    refine .inr ⟨h_none', ?_⟩
    rcases Machine.step_cases h_step with ⟨start, rfl, rfl⟩ | ⟨i, status, o, h_acts, h_stepped⟩
    · exact h_room
    · obtain ⟨task, rfl, -⟩ := h_tallied.exists_task h_acts
      obtain ⟨status', hi', h_leads⟩ := h_stepped.self
      rw [h_stepped.state]
      refine room_run h_gap h_room fun broken h_overflow h_fault => ?_
      rw [h_fault] at h_leads
      cases h_leads
      exact h_none' i _ hi' ⟨broken, h_overflow, rfl⟩

/-- **A slot counts more bytes than it holds exactly if some call has found that out.** -/
theorem overflows_iff (h_gap : 0 < slot.gap) (h_room : slot.dirty ≤ slot.capacity)
    (h_operations : ∀ start ∈ Machine.starts es, start.IsOperation)
    (h_steps : (Machine.idle slot).steps program es = some m) :
    m.state.capacity < m.state.dirty ↔
      ∃ (i : Nat) (status : Status Task Result), m.calls[i]? = some status ∧ FoundOver status := by
  -- in every state either somebody has found it out, or nobody has and there is room
  have h_weighed : Weighed m := by
    induction es using List.reverseRecOn generalizing m with
    | nil =>
      cases h_steps
      refine .inr ⟨fun i status hi => ?_, h_room⟩
      rw [Machine.getElem?_idle] at hi
      cases hi
    | append_singleton es e ih =>
      obtain ⟨m₁, h₁, h_step⟩ := Machine.steps_concat _ h_steps
      have h_before : ∀ start ∈ Machine.starts es, start.IsOperation := fun start h_mem =>
        h_operations start (Machine.mem_starts_concat h_mem e)
      have h_gap₁ : 0 < m₁.state.gap := (gap_steps h₁).symm ▸ h_gap
      exact (ih h_before h₁).step (tallied h_before h₁) h_gap₁ h_step
  rcases h_weighed with ⟨h_found, h_over⟩ | ⟨h_none, h_room⟩
  · exact iff_of_true h_over.beyond h_found
  · refine iff_of_false h_room.not_gt ?_
    rintro ⟨i, status, hi, h_found⟩
    exact h_none i status hi h_found

end GroupCommit.Slot
