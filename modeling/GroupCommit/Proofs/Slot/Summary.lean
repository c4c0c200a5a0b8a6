import GroupCommit.Proofs.Slot.Ledger
import GroupCommit.Proofs.Slot.WakeUps
import GroupCommit.Proofs.Word

/-!
# A run on a slot

Whatever calls are made on a slot and in whatever order they make their steps, the slot is a summary of
its history as long as it is not stopped, if no step faults and whoever hands a flush back was given it.

That only a flush which is out comes back is a matter of counting. For every flush that callers hand
back there is a call that is still to make its step, or the flush has come back; so the flush of a call
that is about to make its step was given out more often than it has come back.

* `Slot.event_cases`: what an event does to a slot and notes in its history.
* `Slot.handed_eq`, `Slot.owned_of_performs`: the count.
* `Slot.summary`: the result.
-/

namespace GroupCommit.Slot

variable {slot s : Slot} {m m' : Machine Slot Task Result} {es : List (Event Task Empty)}
  {e : Event Task Empty} {task : Task} {status : Status Task Result} {flush : Flush} {i : Nat}

/-! ### Calls that hand a flush back -/

/-- The call is about to hand the flush back. -/
def hands (flush : Flush) : Status Task Result → Bool
  | .ready task => task.flush? = some flush
  | .parked _ wake _ => wake.flush? = some flush
  | _ => false

/-- Waking a call does not change which flush it hands back. -/
theorem hands_woken (flush : Flush) (c : Nat) (status : Status Task Result) :
    hands flush (status.woken c) = hands flush status := by
  cases status with
  | parked c' wake late =>
    rw [Status.woken]
    split <;> rfl
  | _ => rfl

/-- Blocked calls hand nothing back. -/
theorem Blocks.flush? (h : Blocks task) : task.flush? = none := by
  cases h <;> rfl

/-- After its step a call has nothing to hand back any more. -/
theorem hands_of_leads (h : (run task s).1.Leads status) (flush : Flush) :
    hands flush status = false := by
  -- announcing ends the call; the other steps have told their outcomes apart
  by_cases h_task : ∃ result, task = .announce result
  · obtain ⟨result, rfl⟩ := h_task
    cases h with
    | notify h =>
      cases h
      rfl
  · rcases run_outcome s fun result h_eq => h_task ⟨result, h_eq⟩ with h_outcome | ⟨-, h_over⟩
    · generalize run task s = o at h h_outcome
      cases h_outcome with
      | park h_quiet h_waits =>
        cases h
        -- what blocks is a fill or a wait
        exact decide_eq_false (by rw [h_waits.blocks.flush?]; exact nofun)
      | join h_quiet =>
        cases h
        rfl
      | finish h_quiet =>
        cases h
        rfl
      | announce h_onward =>
        cases h
        rfl
    · rw [h_over.finished h]
      rfl

/-- What is noted at the end of a step hands nothing back. -/
theorem returned_endNotes (call : Nat) (ticket : Option Ticket) (move : Move Task Result) :
    (endNotes call ticket move).returned = [] := by
  unfold endNotes
  split
  · rfl
  · cases ticket <;> rfl
  · rfl

/-- A step brings back just the flush that its task hands back. -/
theorem returned_stepNotes (s : Slot) (call : Nat) (task : Task) :
    (s.stepNotes call task).returned = task.flush?.toList := by
  -- bytes that are filled in hand back no flush
  have h_fill : ∀ tag offset data, (s.fillNotes call tag offset data).returned = [] := by
    intro tag offset data
    rw [fillNotes]
    split <;> rfl
  cases task with
  | fill tag offset data => exact h_fill tag offset data
  | fillJoin tag offset data =>
    rw [stepNotes, History.returned_append, h_fill, returned_endNotes]
    rfl
  | join ticket => exact returned_endNotes _ _ _
  | rejoin ticket => exact returned_endNotes _ _ _
  | joinLate ticket => exact returned_endNotes _ _ _
  | release flush =>
    rw [stepNotes]
    split <;> rfl
  | _ => rfl

/-! ### Events -/

/-- In this event the call `i` makes the step of this task. -/
def Performs (m : Machine Slot Task Result) (e : Event Task Empty) (i : Nat) (task : Task) : Prop :=
  (e = .run i ∧ m.calls[i]? = some (.ready task)) ∨
    ∃ c wake, e = .expire i ∧ m.calls[i]? = some (.parked c wake (some task))

theorem Performs.notes (h : Performs m e i task) : notes m e = m.state.stepNotes i task := by
  rcases h with ⟨rfl, hi⟩ | ⟨c, wake, rfl, hi⟩ <;> rw [Slot.notes, hi]

theorem history_concat (h : (Machine.idle slot).steps program es = some m)
    (h_step : m.step program e = some m') :
    history slot (es ++ [e]) = history slot es ++ notes m e :=
  Machine.noted_concat h h_step

/-- What an event does: a call is made, or one makes a step. -/
theorem event_cases (h_step : m.step program e = some m') :
    (∃ start, e = .call start ∧ notes m e = [] ∧ m'.state = m.state) ∨
      ∃ i task, Performs m e i task ∧ m'.state = (run task m.state).2 ∧
        ∃ status, m'.calls[i]? = some status ∧ (run task m.state).1.Leads status := by
  rcases Machine.step_cases h_step with ⟨start, rfl, rfl⟩ | ⟨i, status, o, h_acts, h_stepped⟩
  · exact .inl ⟨start, rfl, rfl, rfl⟩
  · refine .inr ?_
    cases h_acts with
    | @run i task hi => exact ⟨i, task, .inl ⟨rfl, hi⟩, h_stepped.state, h_stepped.self⟩
    | @expire i c wake late hi =>
      exact ⟨i, late, .inr ⟨c, wake, rfl, hi⟩, h_stepped.state, h_stepped.self⟩
    | @answer i task answer hi => exact answer.elim

/-- No step of a run faults that has no fault in the end. -/
theorem sound_of_step (h_sound : ¬ Faulted m') (h_self : m'.calls[i]? = some status)
    (h_leads : (run task s).1.Leads status) (broken : Fault) : (run task s).1 ≠ faulting broken := by
  intro h_fault
  rw [h_fault] at h_leads
  cases h_leads
  exact h_sound ⟨i, broken, h_self⟩

theorem not_faulted_of_step (h_sound : ¬ Faulted m') (h_step : m.step program e = some m') :
    ¬ Faulted m := by
  rintro ⟨i, broken, hi⟩
  exact h_sound ⟨i, broken, Machine.step_finished h_step hi⟩

/-- A run that ends without a fault has none after any of its events. -/
theorem not_faulted_of_event {es₁ es₂ : List (Event Task Empty)} {m₁ m₂ : Machine Slot Task Result}
    (h_steps : (Machine.idle slot).steps program (es₁ ++ e :: es₂) = some m) (h_sound : ¬ Faulted m)
    (h₁ : (Machine.idle slot).steps program es₁ = some m₁) (h_step : m₁.step program e = some m₂) :
    ¬ Faulted m₂ := by
  rintro ⟨i, broken, hi⟩
  rw [Machine.steps_append, h₁, Option.bind_some, Machine.steps, h_step, Option.bind_some] at h_steps
  exact h_sound ⟨i, broken, Machine.steps_finished h_steps hi⟩

/-! ### The books -/

/-- A call counts for the flush that it hands back, once. -/
theorem count_flush? (task : Task) (flush : Flush) :
    task.flush?.toList.count flush = (hands flush (.ready task)).toNat := by
  rw [hands]
  cases task.flush? with
  | none => rfl
  | some flush' =>
    rw [Option.toList_some, List.count_singleton]
    by_cases h_eq : flush' = flush <;> simp [h_eq]

/-- A call that is made brings the flush that it hands back. -/
theorem handed_concat (es : List (Event Task Empty)) (e : Event Task Empty) :
    handed (es ++ [e]) = handed es ++ (e.start?.bind Task.flush?).toList := by
  rw [handed, handed, Machine.starts_concat, List.filterMap_append]
  cases e.start? with
  | none => rfl
  | some start =>
    cases h_flush : start.flush? with
    | none => rw [Option.toList_some, List.filterMap_cons_none h_flush, Option.bind_some, h_flush]; rfl
    | some flush =>
      rw [Option.toList_some, List.filterMap_cons_some h_flush, Option.bind_some, h_flush]; rfl

/-- For every flush that callers hand back there is a call that is still to do so, or it has come
back. -/
theorem handed_eq (h_steps : (Machine.idle slot).steps program es = some m) (flush : Flush) :
    (handed es).count flush =
      m.calls.countP (hands flush) + (history slot es).returned.count flush := by
  induction es using List.reverseRecOn generalizing m with
  | nil =>
    cases h_steps
    rfl
  | append_singleton es e ih =>
    obtain ⟨m₁, h₁, h_step⟩ := Machine.steps_concat _ h_steps
    have h_before := ih h₁
    rw [history_concat h₁ h_step, History.returned_append, List.count_append, handed_concat,
      List.count_append]
    rcases Machine.counted (hands_woken flush) h_step with
      ⟨start, rfl, rfl⟩ | ⟨i, status, o, status', h_acts, h_leads, -, h_counted⟩
    · -- the call that is made is one more that is still to hand its flush back
      have h_new : (Event.call start : Event Task Empty).start?.bind Task.flush? = start.flush? := rfl
      have h_notes : (notes m₁ (.call start)).returned.count flush = 0 := rfl
      rw [h_new, count_flush?, h_notes, List.countP_append, List.countP_singleton]
      cases hands flush (.ready start) <;> simp only [Bool.toNat_true, Bool.toNat_false] <;> simp <;>
        omega
    · have h_count := h_counted.count
      cases h_acts with
      | @run i task hi =>
        have h_new : (Event.run i : Event Task Empty).start?.bind Task.flush? = none := rfl
        rw [hands_of_leads h_leads, ← count_flush?] at h_count
        rw [h_new, Performs.notes (.inl ⟨rfl, hi⟩), returned_stepNotes]
        simp only [Option.toList_none, List.count_nil, Bool.toNat_false] at h_count ⊢
        omega
      | @expire i c wake late hi =>
        -- only who waits for a ticket has a deadline
        obtain ⟨-, h_late, -⟩ := (heard_steps h₁).1 i c wake _ hi
        have h_new : (Event.expire i : Event Task Empty).start?.bind Task.flush? = none := rfl
        rw [hands_of_leads h_leads] at h_count
        rw [h_new, Performs.notes (.inr ⟨c, wake, rfl, hi⟩), returned_stepNotes]
        cases wake with
        | rejoin ticket =>
          cases h_late
          simp only [hands, Task.flush?, Option.toList_none, List.count_nil, Bool.toNat_false,
            reduceCtorEq, decide_false] at h_count ⊢
          omega
        | _ => cases h_late
      | @answer i task answer hi => exact answer.elim

/-- No flush is handed back more often than it was given out. -/
theorem handed_le (h_orderly : Orderly slot es)
    (h_steps : (Machine.idle slot).steps program es = some m) (flush : Flush) :
    (handed es).count flush ≤ (history slot es).claimed.count flush := by
  induction es using List.reverseRecOn generalizing m with
  | nil => exact Nat.zero_le _
  | append_singleton es e ih =>
    obtain ⟨m₁, h₁, h_step⟩ := Machine.steps_concat _ h_steps
    have h_before := ih h_orderly.of_append h₁
    rw [history_concat h₁ h_step, History.claimed_append, List.count_append, handed_concat,
      List.count_append]
    -- a call that hands the flush back has to own it, so it was given out once more than handed back
    by_cases h_start : ∃ start, e = .call start ∧ start.flush? = some flush
    · obtain ⟨start, rfl, h_flush⟩ := h_start
      have h_owned := h_orderly.owned_last h_flush
      have h_new : (Event.call start : Event Task Empty).start?.bind Task.flush? = start.flush? := rfl
      rw [h_new, h_flush, Option.toList_some, List.count_singleton_self]
      omega
    · have h_other : (e.start?.bind Task.flush?).toList.count flush = 0 := by
        rw [List.count_eq_zero, Option.mem_toList]
        intro h_mem
        cases e with
        | call start => exact h_start ⟨start, rfl, h_mem⟩
        | _ => cases h_mem
      omega

/-- A call that is about to hand back a flush has one that is out. -/
theorem owned_of_performs (h_orderly : Orderly slot es)
    (h_steps : (Machine.idle slot).steps program es = some m) (h : Performs m e i task) :
    ∀ flush ∈ (notes m e).returned,
      (history slot es).returned.count flush < (history slot es).claimed.count flush := by
  intro flush h_mem
  rw [h.notes, returned_stepNotes, Option.mem_toList] at h_mem
  have h_handed := handed_eq h_steps flush
  have h_le := handed_le h_orderly h_steps flush
  -- the call that acts is one of those that still have the flush to hand back
  have h_pos : 0 < m.calls.countP (hands flush) := by
    rw [List.countP_pos_iff]
    rcases h with ⟨-, hi⟩ | ⟨c, wake, -, hi⟩
    · exact ⟨_, List.mem_of_getElem? hi, decide_eq_true h_mem⟩
    · obtain ⟨-, h_late, -⟩ := (heard_steps h_steps).1 i c wake _ hi
      cases wake <;> cases h_late
      cases h_mem
  omega

/-! ### The summary of a run -/

/-- What a slot is like that nothing has happened on. -/
structure New (slot : Slot) : Prop where
  gap_pos : 0 < slot.gap
  phase : slot.phase = .filling
  highWater : slot.highWater = 0
  durable : slot.durable = ⟨0, 0⟩
  buffer : slot.buffer = .blank slot.capacity

/-- A slot that has just been created is new. -/
theorem of_create {index capacity ringSize : Nat}
    (h_create : Slot.create index capacity ringSize = .ok slot) (h_capacity : 0 < capacity)
    (h_ring : 0 < ringSize) : slot.capacity = capacity ∧ New slot := by
  obtain ⟨-, rfl⟩ := eq_of_create h_create
  exact ⟨rfl, Nat.mul_pos h_capacity h_ring, rfl, rfl, rfl, rfl⟩

/-- Nothing has happened to a new slot, and its buffer is blank. -/
theorem New.live (h : New slot) : Live slot slot [] where
  capacity := rfl
  gap_pos := h.gap_pos
  tag_le := fun _ h_mem => absurd h_mem List.not_mem_nil
  high_le := h.highWater ▸ Nat.zero_le _
  stop_le := fun _ h_mem => absurd h_mem List.not_mem_nil
  furthest := fun h_pos => absurd h_pos (by rw [h.highWater]; exact lt_irrefl 0)
  clean := fun _ _ h_mem => absurd h_mem List.not_mem_nil
  numbered := h.durable ▸ Nat.zero_le _
  written := fun A _ _ _ h_eq => by cases A <;> cases h_eq
  ledger := by
    refine ⟨none, .inside (.inl h.phase) ⟨h.buffer ▸ rfl, fun i => ?_⟩, fun flush => rfl⟩
    rw [h.buffer]
    exact Buffer.read_blank _ i

/-- **A slot that is not stopped is a summary of its history.** -/
theorem summary (h_new : New slot) (h_orderly : Orderly slot es)
    (h_steps : (Machine.idle slot).steps program es = some m) (h_sound : ¬ Faulted m)
    (h_live : ¬ m.state.Stopped) : Live slot m.state (history slot es) := by
  induction es using List.reverseRecOn generalizing m with
  | nil =>
    cases h_steps
    exact h_new.live
  | append_singleton es e ih =>
    obtain ⟨m₁, h₁, h_step⟩ := Machine.steps_concat _ h_steps
    have h_before := ih h_orderly.of_append h₁ (not_faulted_of_step h_sound h_step)
    rw [history_concat h₁ h_step]
    -- by induction on the run: its last event is a new call or one step
    rcases event_cases h_step with ⟨start, rfl, h_notes, h_state⟩ |
      ⟨i, task, h_performs, h_state, status, h_self, h_leads⟩
    · rw [h_notes, List.append_nil, h_state]
      -- a call that is made changes nothing yet
      exact h_before (h_state ▸ h_live)
    · have h_owned := owned_of_performs h_orderly.of_append h₁ h_performs
      rw [h_performs.notes] at h_owned ⊢
      rw [h_state] at h_live ⊢
      cases run_effect i (sound_of_step h_sound h_self h_leads) with
      | changes h_changes => exact Live.changes h_before h_changes h_live
      | settling h_change =>
        exact (h_before h_change.not_stopped).settling h_change h_owned

end GroupCommit.Slot
