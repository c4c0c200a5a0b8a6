import GroupCommit.Proofs.Slot.Accounts
import GroupCommit.Proofs.Slot.Waiters

/-!
# A slot that is stopped stays so

Once a slot is poisoned, or a flush of it is abandoned, nothing happens on it any more. Its generation
and what was filled stay as they are, the first reason is the one that everybody is told, and nobody is
blocked: a call that comes later is turned away in its first step, a call that was blocked is woken by
the one that stopped the slot and returns the reason, and so does whoever hands back the flush that was
out. None of these steps faults, since waiting calls are counted and the flush that is out belongs to
the generation of the slot, whatever faults there were before.

* `Slot.verdict`: what a call returns from a slot that is stopped.
* `Slot.Becomes`: how a call goes on from where it stood.
* `Slot.Final`: the statement.
* `Slot.stopped_final`: the theorem.
-/

namespace GroupCommit.Slot

variable {slot s s' : Slot} {m m₀ m' : Machine Slot Task Result} {es : List (Event Task Empty)}
  {e : Event Task Empty} {i j : Nat} {task : Task} {reason : PoisonReason} {flush : Flush}
  {status status₀ status' : Status Task Result} {later : List Task}

/-! ### Steps on a stopped slot -/

/-- What a call returns that does this on a slot which is stopped for this reason. -/
def Task.verdict (reason : PoisonReason) : Task → Result
  | .skip _ => .ok .done
  | .abandon _ _ => .ok .done
  | .poison _ => .ok .done
  | .announce result => result
  | _ => .error (poisonedStop reason)

/-- What a call returns that stands so. -/
def verdict (reason : PoisonReason) : Status Task Result → Result
  | .ready task => task.verdict reason
  | .parked _ wake _ => wake.verdict reason
  | .outside pending => pending.verdict reason
  | .finished result => result

/-- The task is that of a call which wants its bytes to be taken or to be written. -/
def Task.Enters : Task → Prop
  | .acquire _ => True
  | .tryAcquire _ => True
  | .fill _ _ _ => True
  | .fillJoin _ _ _ => True
  | .join _ => True
  | _ => False

section Stopped

variable (h : s.phase = .poisoned reason)

include h

/-- Whoever polls a stopped slot is refused. -/
theorem pollOr_poisoned (h_counted : 0 < s.waiters) (ticket : Ticket)
    (wait : Slot → Move Task Result × Slot) :
    (s.pollOr ticket wait).1 = .finish (.error (poisonedStop reason)) := by
  rw [pollOr_stopped h, leaveWith, leave, if_neg (by omega)]

/-- **Turned away.** -/
theorem run_enters (h_task : task.Enters) :
    (run task s).1 = .finish (.error (poisonedStop reason)) := by
  cases task with
  | acquire tag => rw [run, whenAccepted_stopped h]
  | tryAcquire tag => rw [run, accepts_stopped h]; rfl
  | fill tag offset data => rw [run, whenAccepted_stopped h]
  | fillJoin tag offset data => rw [run, whenAccepted_stopped h]
  | join ticket =>
    exact pollOr_poisoned (s := { s with waiters := s.waiters + 1 }) h (Nat.succ_pos _) _ _
  | _ => exact h_task.elim

/-- The flush that was out comes back. -/
theorem run_release (h_tag : flush.tag = s.tag) :
    (run (.release flush) s).1 = .goto (.announce (.error (poisonedStop reason))) := by
  rw [run, handBack_stopped h_tag h]
  rfl

/-- A skip has no effect. -/
theorem run_skip (tag : Nat) : run (.skip tag) s = (.goto (.announce (.ok .done)), s) := by
  rw [run, skipOver_stopped ⟨reason, h⟩]

/-- Whoever stops the slot again does not replace the reason. -/
theorem run_halts (h_task : Halts task) :
    (run task s).1 = .goto (.announce (.ok .done)) ∧ (run task s).2.phase = .poisoned reason := by
  refine ⟨?_, (run_stopped h task).1.phase_eq.trans h⟩
  cases h_task <;> rfl

/-- **Every step** on a stopped slot ends its call as the verdict says, or leaves it to wake the others
before. -/
theorem run_poisoned (h_counted : task.isCounted = true → 0 < s.waiters)
    (h_tag : ∀ flush, task = .release flush → flush.tag = s.tag) :
    (run task s).1 = .finish (task.verdict reason) ∨
      (run task s).1 = .goto (.announce (task.verdict reason)) ∨
        ∃ result, task = .announce result := by
  cases task with
  | acquire tag => exact .inl (run_enters h trivial)
  | tryAcquire tag => exact .inl (run_enters h trivial)
  | fill tag offset data => exact .inl (run_enters h trivial)
  | fillJoin tag offset data => exact .inl (run_enters h trivial)
  | join ticket => exact .inl (run_enters h trivial)
  | rejoin ticket => exact .inl (pollOr_poisoned h (h_counted rfl) ticket _)
  | joinLate ticket => exact .inl (pollOr_poisoned h (h_counted rfl) ticket _)
  -- its flush is of the slot's generation, so that it is refused and no fault
  | release flush => exact .inr (.inl (run_release h (h_tag flush rfl)))
  | abandon flush reason' => exact .inr (.inl rfl)
  | skip tag => exact .inr (.inl (congrArg Prod.fst (run_skip h tag)))
  | poison reason' => exact .inr (.inl rfl)
  | announce result => exact .inr (.inr ⟨result, rfl⟩)

end Stopped

/-! ### From where a call stood -/

/-- How a call stands that stood so when the slot was stopped, or before its first step. -/
inductive Becomes (reason : PoisonReason) : Status Task Result → Status Task Result → Prop
  | same (status : Status Task Result) : Becomes reason status status
  | woken (c : Nat) (wake : Task) (late : Option Task) :
      Becomes reason (.parked c wake late) (.ready wake)
  | announces (task : Task) :
      Becomes reason (.ready task) (.ready (.announce (task.verdict reason)))
  | returned (status : Status Task Result) : Becomes reason status (.finished (verdict reason status))

/-- What blocked is refused with the reason. -/
theorem Blocks.verdict (h : Blocks task) : task.verdict reason = .error (poisonedStop reason) := by
  cases h <;> rfl

namespace Becomes

/-- A call that only stands by stays between where it was and its end. -/
theorem remains (h : Becomes reason status₀ status) (h_remains : status.Remains status') :
    Becomes reason status₀ status' := by
  cases h_remains with
  | same => exact h
  | woken c wake late =>
    cases h with
    | same => exact .woken c wake late

/-- The step of a call that was blocked and was woken. -/
theorem step_woken {c : Nat} {late : Option Task} (h_phase : s.phase = .poisoned reason)
    (h_blocks : Blocks task) (h_counted : task.isCounted = true → 0 < s.waiters)
    (h_leads : (run task s).1.Leads status) : Becomes reason (.parked c task late) status := by
  have h_ticket : ∀ ticket, task = .rejoin ticket → 0 < s.waiters := by
    rintro ticket rfl
    exact h_counted rfl
  obtain ⟨s', h_eq⟩ := run_of_stopped h_phase h_blocks h_ticket
  rw [h_eq, ← h_blocks.verdict] at h_leads
  cases h_leads
  exact .returned (.parked c task late)

/-- The step of a call on a stopped slot. -/
theorem step (h : Becomes reason status₀ (.ready task)) (h_phase : s.phase = .poisoned reason)
    (h_counted : task.isCounted = true → 0 < s.waiters)
    (h_tag : ∀ flush, task = .release flush → flush.tag = s.tag)
    (h_blocks : ∀ c wake late, status₀ = .parked c wake late → Blocks wake)
    (h_leads : (run task s).1.Leads status) : Becomes reason status₀ status := by
  cases h with
  | woken c wake late => exact step_woken h_phase (h_blocks c _ late rfl) h_counted h_leads
  | announces task =>
    cases h_leads with
    | notify h_leads =>
      cases h_leads
      exact .returned (.ready task)
  | same =>
    -- on a stopped slot a step returns with the verdict, or has its result and wakes the others first
    rcases run_poisoned h_phase h_counted h_tag with h_move | h_move | ⟨result, rfl⟩
    · rw [h_move] at h_leads
      cases h_leads
      exact .returned (.ready task)
    · rw [h_move] at h_leads
      cases h_leads
      exact .announces task
    · cases h_leads with
      | notify h_leads =>
        cases h_leads
        exact .returned (.ready (.announce result))

/-- The step of a call at its deadline. -/
theorem late {c : Nat} {ticket : Ticket}
    (h : Becomes reason status₀ (.parked c (.rejoin ticket) (some (.joinLate ticket))))
    (h_phase : s.phase = .poisoned reason) (h_counted : 0 < s.waiters)
    (h_leads : (run (.joinLate ticket) s).1.Leads status) : Becomes reason status₀ status := by
  cases h with
  | same =>
    have h_move : (run (.joinLate ticket) s).1 = .finish (.error (poisonedStop reason)) :=
      pollOr_poisoned h_phase h_counted ticket _
    rw [h_move] at h_leads
    cases h_leads
    exact .returned (.parked c (.rejoin ticket) (some (.joinLate ticket)))

/-- What a call returns that has returned. -/
theorem finished {result : Result} (h : Becomes reason status₀ (.finished result)) :
    result = verdict reason status₀ := by
  cases h <;> rfl

end Becomes

/-! ### Runs -/

/-- Calls are blocked only with tasks that block. -/
theorem blocks_of_parked (h_steps : (Machine.idle slot).steps program es = some m) :
    ∀ (j c : Nat) wake late, m.calls[j]? = some (.parked c wake late) → Blocks wake := by
  induction es using List.reverseRecOn generalizing m with
  | nil =>
    cases h_steps
    intro j c wake late hj
    rw [Machine.getElem?_idle] at hj
    cases hj
  | append_singleton es e ih =>
    obtain ⟨m₁, h₁, h_step⟩ := Machine.steps_concat _ h_steps
    intro j c wake late hj
    cases Machine.came h_step hj with
    | stepped h_acts h_stepped h_leads =>
      cases h_acts with
      | run hi => exact (waits_of_parked h_leads).2.blocks
      | expire hi => exact (waits_of_parked h_leads).2.blocks
      | @answer _ _ answer hi => exact answer.elim
    | remained hi h_remains =>
      -- a call that stays parked was parked before
      cases h_remains with
      | same => exact ih h₁ j c wake late hi

/-- How things stand after the slot was stopped by the call `i` in the state `m₀`, when calls with the
tasks `later` have been made since. -/
structure Past (reason : PoisonReason) (i : Nat) (m₀ m : Machine Slot Task Result)
    (later : List Task) : Prop where
  frozen : Frozen (m₀.state.poisonWith reason) m.state
  phase : m.state.phase = .poisoned reason
  length : m.calls.length = m₀.calls.length + later.length
  calls : ∀ (j : Nat) status, m.calls[j]? = some status →
    ∃ status₀, (m₀.calls ++ later.map Status.ready)[j]? = some status₀ ∧
      Becomes reason status₀ status
  /-- The call that stopped the slot is about to wake the others, or nobody is blocked. -/
  awake : m.calls[i]? = some (.ready (.announce (.ok .done))) ∨
    ∀ (j c : Nat) wake late, m.calls[j]? ≠ some (.parked c wake late)

/-- The task stops the slot for this reason, if it is not stopped yet. -/
inductive StopsFor (reason : PoisonReason) : Task → Prop
  | abandon (flush : Flush) : StopsFor reason (.abandon flush reason)
  | poison : StopsFor reason (.poison reason)

/-- The step that stops a slot. -/
theorem StopsFor.run (h : StopsFor reason task) (s : Slot) :
    (Slot.run task s).1 = .goto (.announce (.ok .done)) ∧
      Frozen (s.poisonWith reason) (Slot.run task s).2 ∧ task.verdict reason = .ok .done := by
  cases h with
  | abandon flush => exact ⟨rfl, ⟨s.waiters, flush.buffer, rfl⟩, rfl⟩
  | poison => exact ⟨rfl, .refl _, rfl⟩

/-- The first to stop an open slot gives the reason. -/
theorem poisonWith_live (h : ¬ s.Stopped) (reason : PoisonReason) :
    (s.poisonWith reason).phase = .poisoned reason := by
  change s.phase.poison reason = .poisoned reason
  cases h_phase : s.phase with
  | poisoned reason' => exact absurd ⟨reason', h_phase⟩ h
  | _ => rfl

namespace Past

/-- The slot is stopped. -/
theorem begins (h_live : ¬ m₀.state.Stopped) (hi : m₀.calls[i]? = some (.ready task))
    (h_task : StopsFor reason task) (h_step : m₀.step program (.run i) = some m) :
    Past reason i m₀ m [] := by
  obtain ⟨h_move, h_frozen, h_verdict⟩ := h_task.run m₀.state
  rcases Machine.step_cases h_step with ⟨start, ⟨⟩, -⟩ | ⟨k, status, o, h_acts, h_stepped⟩
  cases h_acts with
  | @run k task' hk =>
    cases hi.symm.trans hk
    -- the call that stops the slot is left to wake the others
    obtain ⟨status', h_self, h_leads⟩ := h_stepped.self
    change (run task m₀.state).1.Leads status' at h_leads
    rw [h_move] at h_leads
    cases h_leads
    have h_state : Frozen (m₀.state.poisonWith reason) m.state := by
      rw [h_stepped.state]
      exact h_frozen
    refine ⟨h_state, h_state.phase_eq.trans (poisonWith_live h_live reason), h_stepped.length, ?_,
      .inl h_self⟩
    -- of the other calls, none has made a step yet
    intro j status hj
    rw [List.map_nil, List.append_nil]
    by_cases h_eq : j = i
    · subst h_eq
      cases h_self.symm.trans hj
      refine ⟨_, hi, ?_⟩
      rw [← h_verdict]
      exact .announces task
    · obtain ⟨status₀, h_before, h_remains⟩ := h_stepped.exists_before h_eq hj
      exact ⟨status₀, h_before, (Becomes.same _).remains h_remains⟩

/-- A call that stood blocked was there when the slot was stopped. -/
theorem parked_origin {c : Nat} {wake : Task} {late : Option Task}
    (h : (m₀.calls ++ later.map Status.ready)[j]? = some (.parked c wake late)) :
    m₀.calls[j]? = some (.parked c wake late) := by
  rw [List.getElem?_append] at h
  split at h
  · exact h
  · rw [List.getElem?_map] at h
    obtain ⟨start, -, h_eq⟩ := Option.map_eq_some_iff.1 h
    cases h_eq

/-- The calls after an event. -/
theorem calls_next (h : Past reason i m₀ m later) (h_orderly : Orderly slot es)
    (h_steps : (Machine.idle slot).steps program es = some m)
    (h_blocks : ∀ (j c : Nat) wake late, m₀.calls[j]? = some (.parked c wake late) → Blocks wake)
    (h_step : m.step program e = some m') (hj : m'.calls[j]? = some status') :
    ∃ status₀, (m₀.calls ++ (later ++ e.start?.toList).map Status.ready)[j]? = some status₀ ∧
      Becomes reason status₀ status' := by
  rw [List.map_append, ← List.append_assoc]
  -- where a call stood stays known
  have h_known : ∀ {status}, m.calls[j]? = some status →
      (∀ status₀, (∀ c wake late, status₀ = .parked c wake late → Blocks wake) →
        Becomes reason status₀ status → Becomes reason status₀ status') →
      ∃ status₀, ((m₀.calls ++ later.map Status.ready) ++ e.start?.toList.map Status.ready)[j]? =
        some status₀ ∧ Becomes reason status₀ status' := by
    intro status h_before h_becomes
    obtain ⟨status₀, h_origin, h_stood⟩ := h.calls j status h_before
    obtain ⟨h_lt, -⟩ := List.getElem?_eq_some_iff.1 h_origin
    refine ⟨status₀, (List.getElem?_append_left h_lt).trans h_origin, h_becomes status₀ ?_ h_stood⟩
    rintro c wake late rfl
    exact h_blocks j c wake late (parked_origin h_origin)
  cases Machine.came h_step hj with
  | made start =>
    refine ⟨.ready start, ?_, .same _⟩
    have h_length : m.calls.length = (m₀.calls ++ later.map Status.ready).length := by
      rw [List.length_append, List.length_map]
      exact h.length
    rw [h_length]
    exact List.getElem?_concat_length
  | remained h_before h_remains =>
    exact h_known h_before fun status₀ _ h_stood => h_stood.remains h_remains
  | stepped h_acts h_stepped h_leads =>
    cases h_acts with
    | @run _ task hi =>
      refine h_known hi fun status₀ h_blocks₀ h_stood => h_stood.step h.phase ?_ ?_ h_blocks₀ h_leads
      · exact waiters_pos h_orderly.operations h_steps hi
      · rintro flush rfl
        -- whoever hands the flush back has it, so it is the one that is out
        have h_performs : Performs m (.run j) j (.release flush) := .inl ⟨rfl, hi⟩
        refine (lent h_orderly h_steps).tag_eq (owned_of_performs h_orderly h_steps h_performs flush ?_)
        rw [h_performs.notes, returned_stepNotes]
        exact List.mem_singleton_self flush
    | @expire _ c wake late hi =>
      obtain ⟨-, h_late, -⟩ := (heard_steps h_steps).1 j c wake _ hi
      cases wake with
      | rejoin ticket =>
        cases h_late
        exact h_known hi fun status₀ _ h_stood =>
          h_stood.late h.phase (waiters_pos h_orderly.operations h_steps hi rfl) h_leads
      | _ => cases h_late
    | @answer _ task answer hi => exact answer.elim

/-- Nobody is blocked, or the call that stopped the slot is still to wake the others. -/
theorem awake_next (h : Past reason i m₀ m later)
    (h_steps : (Machine.idle slot).steps program es = some m) (h_step : m.step program e = some m') :
    m'.calls[i]? = some (.ready (.announce (.ok .done))) ∨
      ∀ (j c : Nat) wake late, m'.calls[j]? ≠ some (.parked c wake late) := by
  rcases Machine.step_cases h_step with ⟨start, rfl, rfl⟩ | ⟨k, status, o, h_acts, h_stepped⟩
  · refine h.awake.imp (fun hi => ?_) fun h_none j c wake late hj => ?_
    · obtain ⟨h_lt, -⟩ := List.getElem?_eq_some_iff.1 hi
      exact (List.getElem?_append_left h_lt).trans hi
    · rcases Machine.getElem?_call hj with hj | ⟨-, h_eq⟩
      · -- a call that is made is not blocked yet
        exact h_none j c wake late hj
      · cases h_eq
  · -- the call of the step is not blocked afterwards
    have h_self : ∀ c wake late, m'.calls[k]? ≠ some (.parked c wake late) := by
      obtain ⟨status', hk, h_leads⟩ := h_stepped.self
      rintro c wake late h_parked
      cases hk.symm.trans h_parked
      cases h_acts with
      | run hi => exact (run_stopped h.phase _).2 c wake late h_leads
      | expire hi => exact (run_stopped h.phase _).2 c wake late h_leads
      | @answer _ task answer hi => exact answer.elim
    rcases h.awake with hi | h_none
    · by_cases h_eq : i = k
      · -- it wakes the others
        subst h_eq
        refine .inr fun j c wake late hj => ?_
        have h_other : j ≠ i := by
          rintro rfl
          exact h_self c wake late hj
        obtain ⟨rfl, -⟩ := (heard_steps h_steps).1 j c wake late (h_stepped.parked h_other hj)
        cases h_acts with
        | run hk =>
          cases hi.symm.trans hk
          exact h_stepped.not_parked h_other rfl wake late hj
        | expire hk => cases hi.symm.trans hk
        | @answer _ task answer hk => exact answer.elim
      · exact .inl (h_stepped.ready h_eq hi)
    · refine .inr fun j c wake late hj => ?_
      by_cases h_eq : j = k
      · subst h_eq
        exact h_self c wake late hj
      · exact h_none j c wake late (h_stepped.parked h_eq hj)

/-- **An event on a stopped slot** changes nothing of this. -/
theorem next (h : Past reason i m₀ m later) (h_orderly : Orderly slot es)
    (h_steps : (Machine.idle slot).steps program es = some m)
    (h_blocks : ∀ (j c : Nat) wake late, m₀.calls[j]? = some (.parked c wake late) → Blocks wake)
    (h_step : m.step program e = some m') : Past reason i m₀ m' (later ++ e.start?.toList) := by
  have h_frozen : Frozen m.state m'.state := by
    rcases event_cases h_step with ⟨_, -, -, h_state⟩ | ⟨k, task, -, h_state, -⟩
    · rw [h_state]
      exact .refl m.state
    · rw [h_state]
      exact (run_stopped h.phase task).1
  refine ⟨h.frozen.trans h_frozen, h_frozen.phase_eq.trans h.phase, ?_,
    fun j status' hj => h.calls_next h_orderly h_steps h_blocks h_step hj, h.awake_next h_steps h_step⟩
  -- a call that is made counts on both sides, and a step makes none
  rcases Machine.step_cases h_step with ⟨start, rfl, rfl⟩ | ⟨k, status, o, h_acts, h_stepped⟩
  · rw [List.length_append, h.length, List.length_append]
    exact Nat.add_assoc _ _ _
  · rw [h_stepped.length, h.length]
    cases h_acts <;> simp [Event.start?]

end Past

/-- What is past stays past, whatever calls are made. -/
theorem past {es₁ es₂ : List (Event Task Empty)}
    (h_orderly : Orderly slot (es₁ ++ .run i :: es₂))
    (h₀ : (Machine.idle slot).steps program es₁ = some m₀) (h_live : ¬ m₀.state.Stopped)
    (hi : m₀.calls[i]? = some (.ready task)) (h_task : StopsFor reason task)
    (h_steps : (Machine.idle slot).steps program (es₁ ++ .run i :: es₂) = some m) :
    Past reason i m₀ m (Machine.starts es₂) := by
  have h_assoc : ∀ fs : List (Event Task Empty), es₁ ++ .run i :: fs = (es₁ ++ [.run i]) ++ fs :=
    fun fs => by rw [List.append_assoc]; rfl
  rw [h_assoc] at h_orderly h_steps
  induction es₂ using List.reverseRecOn generalizing m with
  | nil =>
    rw [List.append_nil] at h_steps
    obtain ⟨m₁, h₁, h_step⟩ := Machine.steps_concat _ h_steps
    cases h₀.symm.trans h₁
    -- the event that stops the slot
    exact .begins h_live hi h_task h_step
  | append_singleton es₂ e ih =>
    rw [← List.append_assoc] at h_orderly h_steps
    obtain ⟨m₁, h₁, h_step⟩ := Machine.steps_concat _ h_steps
    rw [Machine.starts_concat]
    exact (ih h_orderly.of_append h₁).next h_orderly.of_append h₁ (blocks_of_parked h₀) h_step

/-! ### Finality -/

/-- How things stand on a slot that the call `i` has stopped for this reason in the state `m₀`, after
these events and in the state `m`, when calls with the tasks `later` have been made since. -/
structure Final (slot : Slot) (es : List (Event Task Empty)) (reason : PoisonReason) (i : Nat)
    (m₀ m : Machine Slot Task Result) (later : List Task) : Prop where
  phase : m.state.phase = .poisoned reason
  tag : m.state.tag = m₀.state.tag
  dirty : m.state.dirty = m₀.state.dirty
  highWater : m.state.highWater = m₀.state.highWater
  /-- Whoever comes for bytes is turned away at once, whatever generation or ticket he names. -/
  refuses : ∀ task, task.Enters → (run task m.state).1 = .finish (.error (poisonedStop reason))
  /-- Whoever hands back a flush that is out is told the reason, once he has woken the others. -/
  releases : ∀ flush,
    (history slot es).returned.count flush < (history slot es).claimed.count flush →
      (run (.release flush) m.state).1 = .goto (.announce (.error (poisonedStop reason)))
  skips : ∀ tag, run (.skip tag) m.state = (.goto (.announce (.ok .done)), m.state)
  /-- The first reason stays. -/
  halts : ∀ task, Halts task → (run task m.state).1 = .goto (.announce (.ok .done)) ∧
    (run task m.state).2.phase = .poisoned reason
  /-- A call that was blocked has returned the reason, or is ready and its step returns it, or the call
  that stopped the slot is still to wake it. -/
  blocked : ∀ (j c : Nat) wake late, m₀.calls[j]? = some (.parked c wake late) →
    m.calls[j]? = some (.finished (.error (poisonedStop reason))) ∨
      (∃ task, m.calls[j]? = some (.ready task) ∧
        (run task m.state).1 = .finish (.error (poisonedStop reason))) ∨
      (m.calls[j]? = some (.parked c wake late) ∧
        m.calls[i]? = some (.ready (.announce (.ok .done))))
  /-- Every call returns what it was to return where it stood when the slot was stopped, or where it
  began since. -/
  answers : ∀ (j : Nat) status result, (m₀.calls ++ later.map Status.ready)[j]? = some status →
    m.calls[j]? = some (.finished result) → result = verdict reason status

/-- **A slot that is stopped is final.** Whatever state it was in and whatever faults there were before,
after `poison` or `abandon` has stopped it for this reason, and whatever calls are made on it since. -/
theorem stopped_final {es₁ es₂ : List (Event Task Empty)}
    (h_orderly : Orderly slot (es₁ ++ .run i :: es₂))
    (h₀ : (Machine.idle slot).steps program es₁ = some m₀) (h_live : ¬ m₀.state.Stopped)
    (hi : m₀.calls[i]? = some (.ready task)) (h_task : StopsFor reason task)
    (h_steps : (Machine.idle slot).steps program (es₁ ++ .run i :: es₂) = some m) :
    Final slot (es₁ ++ .run i :: es₂) reason i m₀ m (Machine.starts es₂) := by
  have h_past := past h_orderly h₀ h_live hi h_task h_steps
  obtain ⟨waiters, buffer, h_state⟩ := h_past.frozen
  have h_phase := h_past.phase
  constructor
  case phase => exact h_phase
  case tag => rw [h_state]; rfl
  case dirty => rw [h_state]; rfl
  case highWater => rw [h_state]; rfl
  case refuses => exact fun task h_enters => run_enters h_phase h_enters
  case releases =>
    exact fun flush h_owned => run_release h_phase ((lent h_orderly h_steps).tag_eq h_owned)
  case skips => exact run_skip h_phase
  case halts => exact fun task h_halts => run_halts h_phase h_halts
  case blocked =>
    intro j c wake late h_parked
    have h_wake := blocks_of_parked h₀ j c wake late h_parked
    -- the call is still there
    obtain ⟨h_lt, -⟩ := List.getElem?_eq_some_iff.1 h_parked
    obtain ⟨status, hj⟩ : ∃ status, m.calls[j]? = some status :=
      ⟨_, List.getElem?_eq_getElem (by rw [h_past.length]; omega)⟩
    obtain ⟨status₀, h_origin, h_becomes⟩ := h_past.calls j _ hj
    rw [List.getElem?_append_left h_lt, h_parked] at h_origin
    cases h_origin
    cases h_becomes with
    | same =>
      rcases h_past.awake with h_announces | h_none
      · exact .inr (.inr ⟨hj, h_announces⟩)
      · exact absurd hj (h_none j c wake late)
    -- woken, it can act, and is refused when it does
    | woken =>
      have h_ticket : ∀ ticket, wake = .rejoin ticket → 0 < m.state.waiters := by
        rintro ticket rfl
        exact waiters_pos h_orderly.operations h_steps hj rfl
      obtain ⟨s', h_eq⟩ := run_of_stopped h_phase h_wake h_ticket
      exact .inr (.inl ⟨wake, hj, by rw [h_eq]⟩)
    | returned =>
      refine .inl (hj.trans ?_)
      change some (Status.finished (wake.verdict reason)) = _
      rw [h_wake.verdict]
  case answers =>
    intro j status result h_origin hj
    obtain ⟨status₀, h_origin', h_becomes⟩ := h_past.calls j _ hj
    cases h_origin.symm.trans h_origin'
    exact h_becomes.finished

/-- A call has the early flush of the first byte, one waits for a later generation, and one waits for the
byte to be written; then somebody comes to stop the slot. -/
def beforeStop : List (Event Task Empty) :=
  [.call (.fillJoin 0 0 [1]), .run 0, .run 0, .expire 0, .call (.acquire 2), .run 1,
    .call (.join ⟨0, 1, 0⟩), .run 2, .call (.poison .earlierFailure)]

/-- The flush is handed back, the others are woken and look again, and somebody comes with bytes. -/
def afterStop : List (Event Task Empty) :=
  [.call (.release firstByte), .run 4, .run 3, .run 1, .run 2, .run 4, .call (.fill 7 0 [1]), .run 5]

/-- All of them are told the reason. -/
theorem stopped_final_beforeStop : ∃ m₀ m,
    (Machine.idle smallSlot).steps program beforeStop = some m₀ ∧
      (Machine.idle smallSlot).steps program (beforeStop ++ .run 3 :: afterStop) = some m ∧
      m.calls = [.finished (.ok (.joined (some firstByte))),
        .finished (.error (poisonedStop .earlierFailure)),
        .finished (.error (poisonedStop .earlierFailure)), .finished (.ok .done),
        .finished (.error (poisonedStop .earlierFailure)),
        .finished (.error (poisonedStop .earlierFailure))] ∧
      Final smallSlot (beforeStop ++ .run 3 :: afterStop) .earlierFailure 3 m₀ m
        [.release firstByte, .fill 7 0 [1]] := by
  have h_orderly : Orderly smallSlot (beforeStop ++ .run 3 :: afterStop) := by decide +kernel
  have h_before : ((Machine.idle smallSlot).steps program beforeStop).isSome := rfl
  have h_possible :
      ((Machine.idle smallSlot).steps program (beforeStop ++ .run 3 :: afterStop)).isSome := rfl
  have h₀ := (Option.some_get h_before).symm
  have h_steps := (Option.some_get h_possible).symm
  have h_live : ¬ (((Machine.idle smallSlot).steps program beforeStop).get h_before).state.Stopped :=
    not_stopped (show _ = Phase.reserving from rfl) nofun
  have hi : (((Machine.idle smallSlot).steps program beforeStop).get h_before).calls[3]? =
      some (.ready (.poison .earlierFailure)) := rfl
  exact ⟨_, _, h₀, h_steps, rfl, stopped_final h_orderly h₀ h_live hi .poison h_steps⟩

end GroupCommit.Slot
