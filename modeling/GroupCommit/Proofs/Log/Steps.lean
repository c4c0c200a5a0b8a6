import GroupCommit.Proofs.Durability
import GroupCommit.Proofs.Log.Effects
import GroupCommit.Proofs.Log.Induction
import GroupCommit.Proofs.Slot.Steps

/-!
# Steps of a log, slot by slot

What a step of a call on a log does to one slot of its ring: it leaves the slot alone, or it makes a
step of a call on that slot. So what is known of slots carries over to logs: their generations go
forward, and a slot that is stopped stays as it is in every later state of a run.

* `slot_run`, `slot_acts`: the slots after a step.
* `GoesOn`, `onSlot_of_parked`: only a step on a slot blocks its call, and on that slot.
* `Run.Before.slot`, `Run.Before.frozen`: a slot in later states of a run.
-/

namespace GroupCommit.Log

variable {W : Type}

/-! ### One step -/

section Step

variable {log : Log W} {k : Nat} {s : Slot}

/-- The mark is set by calls that poison the log, and by nobody else, and it stays. -/
theorem poisoned_run_iff (t : Task) (log : Log W) : (run t log).2.ring.poisoned = true ↔
    log.ring.poisoned = true ∨ ∃ reason result, t = .poison reason result := by
  have h_effect := run_effect t log
  generalize run t log = o at h_effect ⊢
  cases h_effect with
  | poisons => exact iff_of_true rfl (.inr ⟨_, _, rfl⟩)
  | onSlot hs =>
    rw [run_onSlot hs]
    exact (or_iff_left fun ⟨_, _, h_eq⟩ => by cases h_eq).symm
  | _ => exact (or_iff_left fun ⟨_, _, h_eq⟩ => by cases h_eq).symm

/-- What a step leaves of one slot: the slot itself, or the slot after a step on it. -/
theorem slot_run (hs : log.ring.slots[k]? = some s) (t : Task) :
    ∃ s', (run t log).2.ring.slots[k]? = some s' ∧
      (s' = s ∨ ∃ task next, t = .onSlot k task next ∧ s' = (Slot.run task s).2) := by
  have h_effect := run_effect t log
  generalize run t log = o at h_effect ⊢
  cases h_effect with
  | @onSlot k' task next s' hs' =>
    rw [run_onSlot hs']
    by_cases h_eq : k' = k
    · subst h_eq
      cases hs.symm.trans hs'
      obtain ⟨h_lt, -⟩ := List.getElem?_eq_some_iff.1 hs
      exact ⟨_, List.getElem?_set_self h_lt, .inr ⟨task, next, rfl, rfl⟩⟩
    · -- a step on another slot
      exact ⟨s, (List.getElem?_set_ne h_eq).trans hs, .inl rfl⟩
  | _ => exact ⟨s, hs, .inl rfl⟩

/-- No step adds a slot or takes one away. -/
theorem length_slots_run (t : Task) (log : Log W) :
    (run t log).2.ring.slots.length = log.ring.slots.length := by
  have h_effect := run_effect t log
  generalize run t log = o at h_effect ⊢
  cases h_effect with
  | onSlot hs =>
    rw [run_onSlot hs]
    exact List.length_set
  | _ => rfl

/-- Where a slot comes from that is there after a step. -/
theorem exists_slot_run {t : Task} {s' : Slot} (hs' : (run t log).2.ring.slots[k]? = some s') :
    ∃ s, log.ring.slots[k]? = some s ∧
      (s' = s ∨ ∃ task next, t = .onSlot k task next ∧ s' = (Slot.run task s).2) := by
  obtain ⟨h_lt, -⟩ := List.getElem?_eq_some_iff.1 hs'
  have hs := List.getElem?_eq_getElem (length_slots_run t log ▸ h_lt)
  obtain ⟨s₁, hs₁, h_cases⟩ := slot_run hs t
  cases hs₁.symm.trans hs'
  exact ⟨_, hs, h_cases⟩

/-- The call goes on or has ended: it neither is blocked nor waits for the outside world. -/
inductive GoesOn : Status Task Result → Prop
  | ready (t : Task) : GoesOn (.ready t)
  | finished (result : Result) : GoesOn (.finished result)

section GoesOn

variable {g : Geometry} {t : Task} {status : Status Task Result}

/-- Poisoning the rest of the ring does not block by itself. -/
theorem GoesOn.poisonFrom {index : Nat} {reason : PoisonReason} {result : Result}
    (h : (poisonFrom g index reason result).Leads status) : GoesOn status := by
  cases poisonsFrom h <;> constructor

/-- Behind its call on a slot, the log does not block by itself. -/
theorem GoesOn.resume {next : Next} {result : Slot.Result}
    (h : (resume g next result).Leads status) : GoesOn status := by
  cases goesWith h with
  | poisoned h => exact .poisonFrom h
  | _ => constructor

end GoesOn

/-- **Only a step on a slot blocks its call**, and the call waits for that slot then. -/
theorem onSlot_of_parked {t : Task} {c : Nat} {wake : Task} {late : Option Task}
    (h : (run t log).1.Leads (.parked c wake late)) :
    ∃ task next s c' wake' late', t = .onSlot c task next ∧ log.ring.slots[c]? = some s ∧
      (Slot.run task s).1.Leads (.parked c' wake' late') ∧ wake = .onSlot c wake' next ∧
      late = late'.map (.onSlot c · next) := by
  have h_effect := run_effect t log
  generalize run t log = o at h h_effect
  cases h_effect with
  | @onSlot k task next s hs =>
    rw [run_onSlot hs] at h
    obtain ⟨rfl, c', wake', late', h_leads, h_wake, h_late⟩ := h.embed_parked
      fun result c wake late h_leads => by cases GoesOn.resume h_leads
    exact ⟨task, next, s, c', wake', late', rfl, hs, h_leads, h_wake, h_late⟩
  -- all other steps go on
  | poisons => cases GoesOn.poisonFrom h
  | _ => cases h

/-- Where a step with this task on the slot `k`, which is `s` before, leaves its call. -/
inductive Lands (g : Geometry) (k : Nat) (task : Slot.Task) (next : Next) (s : Slot) :
    Status Task Result → Prop
  /-- The call is blocked, and tries again or looks after its ticket when it is woken. -/
  | parked {wake : Slot.Task} {late : Option Task}
      (h_wake : wake = task ∨ ∃ ticket, wake = .rejoin ticket) :
      Lands g k task next s (.parked k (.onSlot k wake next) late)
  | join {ticket : Ticket} : Lands g k task next s (.ready (.onSlot k (.join ticket) next))
  | announce {result : Slot.Result} (h_result : s.Refuses result)
      (h_run : (Slot.run task s).1 = .goto (.announce result)) :
      Lands g k task next s (.ready (.onSlot k (.announce result) next))
  /-- The call on the slot ends, and the one on the log goes on. -/
  | resumed {result : Slot.Result} {status : Status Task Result}
      (h_result : task = .announce result ∨
        ((Slot.run task s).1 = .finish result ∧ s.Refuses result))
      (h : (resume g next result).Leads status) : Lands g k task next s status

/-- **Where a step on a slot leaves its call.** -/
theorem lands {task : Slot.Task} {next : Next} {status : Status Task Result}
    (hs : log.ring.slots[k]? = some s)
    (h : (run (.onSlot k task next) log).1.Leads status) : Lands log.geometry k task next s status := by
  rw [run_onSlot hs] at h
  by_cases h_task : ∃ reply, task = .announce reply
  · obtain ⟨reply, rfl⟩ := h_task
    cases h with
    | notify h => exact .resumed (.inl rfl) h
  · rcases Slot.run_outcome s fun reply h_eq => h_task ⟨reply, h_eq⟩ with h_outcome | ⟨-, h_over⟩
    · generalize h_run : Slot.run task s = o at h h_outcome
      cases h_outcome with
      | park h_quiet h_waits h_wake => cases h; exact .parked h_wake
      | join => cases h; exact .join
      | announce h_onward h_result => cases h; exact .announce h_result (by rw [h_run])
      | finish h_quiet h_result => exact .resumed (.inr ⟨by rw [h_run], h_result⟩) h
    · rw [h_over.move] at h
      exact .resumed (.inr ⟨h_over.move, .fault s _⟩) h

variable [Writer W]

/-- The ring does not change while the Writer answers. -/
theorem ring_answered (t : Task) (verdict : Verdict) (log : Log W) :
    (answered t verdict log).2.ring = log.ring := by
  have h_reaction := answered_reaction t verdict log
  generalize answered t verdict log = o at h_reaction ⊢
  cases h_reaction <;> rfl

/-- A call that has had its answer goes on. -/
theorem GoesOn.answered {t : Task} {verdict : Verdict} {status : Status Task Result}
    (h : (answered t verdict log).1.Leads status) : GoesOn status := by
  have h_reaction := answered_reaction t verdict log
  generalize Log.answered t verdict log = o at h h_reaction
  cases h_reaction <;> cases h <;> constructor

end Step

/-! ### One event -/

section Events

variable [Writer W] {m m' : Machine (Log W) Task Result} {e : Event Task Verdict} {i k : Nat}
  {status : Status Task Result} {o : Move Task Result × Log W} {s : Slot}

/-- The slots after an event. -/
theorem slot_acts (h : m.Acts (program W) e i status o) (hs : m.state.ring.slots[k]? = some s) :
    ∃ s', o.2.ring.slots[k]? = some s' ∧ (s' = s ∨ ∃ task, s' = (Slot.run task s).2) := by
  have h_run : ∀ t, ∃ s', (run t m.state).2.ring.slots[k]? = some s' ∧
      (s' = s ∨ ∃ task, s' = (Slot.run task s).2) := by
    intro t
    obtain ⟨s', hs', h_cases⟩ := slot_run hs t
    exact ⟨s', hs', h_cases.imp_right fun ⟨task, _, _, h_eq⟩ => ⟨task, h_eq⟩⟩
  cases h with
  | run hi => exact h_run _
  | expire hi => exact h_run _
  -- the answer of the Writer leaves the ring alone
  | @answer i t verdict hi =>
    have h_ring : (answered t verdict m.state).2.ring = m.state.ring := ring_answered t verdict _
    refine ⟨s, ?_, .inl rfl⟩
    rw [show (program W).reply t verdict m.state = answered t verdict m.state from rfl, h_ring]
    exact hs

/-- A log that is poisoned stays so, event by event. -/
theorem poisoned_acts (h : m.Acts (program W) e i status o)
    (h_poisoned : m.state.ring.poisoned = true) : o.2.ring.poisoned = true := by
  cases h with
  | run hi => exact (poisoned_run_iff _ _).2 (.inl h_poisoned)
  | expire hi => exact (poisoned_run_iff _ _).2 (.inl h_poisoned)
  | @answer i t verdict hi =>
    have h_ring : (answered t verdict m.state).2.ring = m.state.ring := ring_answered t verdict _
    rw [show (program W).reply t verdict m.state = answered t verdict m.state from rfl, h_ring]
    exact h_poisoned

/-- A call is blocked on a slot by a step there, and waits as that slot says. -/
theorem blocked_acts (h : m.Acts (program W) e i status o) {wake : Task} {late : Option Task}
    (h_leads : o.1.Leads (.parked k wake late)) :
    ∃ task next, wake = .onSlot k task next ∧
      late = (Slot.deadline task).map (.onSlot k · next) ∧ Slot.Blocks task := by
  have h_run : ∀ t, (run t m.state).1.Leads (.parked k wake late) →
      ∃ task next, wake = .onSlot k task next ∧
        late = (Slot.deadline task).map (.onSlot k · next) ∧ Slot.Blocks task := by
    intro t h_leads
    obtain ⟨task, next, s, c, wake', late', -, -, h_slot, rfl, rfl⟩ := onSlot_of_parked h_leads
    obtain ⟨rfl, h_waits⟩ := Slot.waits_of_parked h_slot
    exact ⟨wake', next, rfl, rfl, h_waits.blocks⟩
  cases h with
  | run hi => exact h_run _ h_leads
  | expire hi => exact h_run _ h_leads
  | answer hi => cases GoesOn.answered h_leads

end Events

/-! ### Later states -/

namespace Run

variable [Writer W] {r r' : Run W} {k : Nat} {s : Slot}

/-- What single steps do to a slot is done to it in the course of a run. -/
theorem Before.slot (h : r.Before r') {R : Slot → Slot → Prop} (h_refl : ∀ s, R s s)
    (h_step : ∀ s s₁ task, R s s₁ → R s (Slot.run task s₁).2)
    (hs : r.machine.state.ring.slots[k]? = some s) :
    ∃ s', r'.machine.state.ring.slots[k]? = some s' ∧ R s s' := by
  refine h.induction ⟨s, hs, h_refl s⟩ ?_
  rintro r₁ e r₂ - h_next - ⟨s₁, hs₁, h_rel⟩
  rcases Machine.step_cases h_next.step with ⟨start, rfl, h_eq⟩ | ⟨i, status, o, h_acts, h_stepped⟩
  · exact ⟨s₁, by rw [h_eq]; exact hs₁, h_rel⟩
  · rw [h_stepped.state]
    obtain ⟨s₂, hs₂, rfl | ⟨task, rfl⟩⟩ := slot_acts h_acts hs₁
    · exact ⟨s₂, hs₂, h_rel⟩
    · exact ⟨_, hs₂, h_step s s₁ task h_rel⟩

/-- **A slot that is stopped stays as it is.** -/
theorem Before.frozen (h : r.Before r') (hs : r.machine.state.ring.slots[k]? = some s)
    (h_stopped : s.Stopped) : ∃ s', r'.machine.state.ring.slots[k]? = some s' ∧ s.Frozen s' := by
  obtain ⟨reason, h_phase⟩ := h_stopped
  refine h.slot (R := fun s s' => s.phase = .poisoned reason → s.Frozen s') ?_ ?_ hs |>.imp
    fun s' ⟨hs', h_frozen⟩ => ⟨hs', h_frozen h_phase⟩
  · exact fun s _ => .refl s
  · intro s s₁ task h_frozen h_phase
    have h_frozen := h_frozen h_phase
    exact h_frozen.trans (Slot.run_stopped (h_frozen.phase_eq.trans h_phase) task).1

/-- A log that is poisoned stays so. -/
theorem Before.poisoned (h : r.Before r') (h_poisoned : r.machine.state.ring.poisoned = true) :
    r'.machine.state.ring.poisoned = true := by
  refine h.induction h_poisoned fun r₁ e r₂ _ h_next _ h_poisoned => ?_
  rcases Machine.step_cases h_next.step with ⟨start, rfl, h_eq⟩ | ⟨i, status, o, h_acts, h_stepped⟩
  · rw [h_eq]
    exact h_poisoned
  · rw [h_stepped.state]
    exact poisoned_acts h_acts h_poisoned

/-- **Blocked calls.** Every call that is blocked waits for a slot, with a task that can block a call
there, and it has a deadline only if it waits for its bytes. -/
theorem blocked (r : Run W) : ∀ (j k : Nat) wake late,
    r.machine.calls[j]? = some (.parked k wake late) → ∃ task next, wake = .onSlot k task next ∧
      late = (Slot.deadline task).map (.onSlot k · next) ∧ Slot.Blocks task := by
  refine r.induction (fun j k wake late hj => ?_) ?_
  · rw [getElem?_calls_start] at hj
    cases hj
  · intro r₁ e r₂ h_next _ ih j k wake late hj
    cases Machine.came h_next.step hj with
    | stepped h_acts h_stepped h_leads => exact blocked_acts h_acts h_leads
    | remained hj h_remains =>
      cases h_remains
      exact ih j k wake late hj

end Run

end GroupCommit.Log
