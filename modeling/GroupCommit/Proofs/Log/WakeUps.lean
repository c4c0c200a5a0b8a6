import GroupCommit.Proofs.Log.Sweep

/-!
# Waking up on a log

The calls on a log wait for the slots of its ring, so no wake-up is lost on a log as none is lost on a
slot: either every call that is blocked on a slot still has to wait for it, or some call is about to wake
them all. A slot that is moved on without that would have run out of addresses, which cannot happen
where a run leaves room for them.

A call that fills its tail ahead of its turn has asked the slot before, and a slot never goes back. So if
it is blocked there it is not because the slot is behind.

* `WaitsAt`, `AnnouncesAt`, `Run.heard`: no wake-up is lost on a slot of the ring.
* `Run.tail_reached`: whoever fills its tail ahead of its turn finds the slot at its generation, or past
  it.
-/

namespace GroupCommit.Log

variable {W : Type}

/-- A call that is blocked on the slot `k` with this task still has to wait. -/
def WaitsAt (k : Nat) (log : Log W) (t : Task) : Prop :=
  ∃ s task next, log.ring.slots[k]? = some s ∧ t = .onSlot k task next ∧ s.Waits task

/-- The call is about to wake everybody who is blocked on the slot `k`. -/
def AnnouncesAt (k : Nat) (t : Task) : Prop := ∃ reply next, t = .onSlot k (.announce reply) next

/-! ### One step -/

section Step

variable {log : Log W} {k : Nat} {t : Task}

/-- A call that a step has blocked waits for what the slot cannot give it. -/
theorem waitsAt_of_parked {wake : Task} {late : Option Task}
    (h : (run t log).1.Leads (.parked k wake late)) : WaitsAt k (run t log).2 wake := by
  obtain ⟨task, next, s, c, wake', late', rfl, hs, h_slot, rfl, -⟩ := onSlot_of_parked h
  obtain ⟨h_lt, -⟩ := List.getElem?_eq_some_iff.1 hs
  refine ⟨(Slot.run task s).2, wake', next, ?_, rfl, (Slot.waits_of_parked h_slot).2⟩
  rw [run_onSlot hs]
  exact List.getElem?_set_self h_lt

/-- A step that does not run out of addresses goes on to wake those who are blocked on a slot, or all of
them have to wait on. -/
theorem waitsAt_run (h_room : ∀ task next s, t = .onSlot k task next →
      log.ring.slots[k]? = some s → Slot.Ends task → ¬ Slot.Overflows task s (Slot.run task s)) :
    (∃ t', (run t log).1 = .goto t' ∧ AnnouncesAt k t') ∨
      ∀ wake, WaitsAt k log wake → WaitsAt k (run t log).2 wake := by
  by_cases h_task : ∃ task next, t = .onSlot k task next
  · obtain ⟨task, next, rfl⟩ := h_task
    cases hs : log.ring.slots[k]? with
    | none =>
      refine .inr ?_
      rintro wake ⟨s, task', next', hs', -⟩
      cases hs.symm.trans hs'
    | some s =>
      obtain ⟨h_lt, -⟩ := List.getElem?_eq_some_iff.1 hs
      have h_quiet : s.Quiet (Slot.run task s).2 →
          ∀ wake, WaitsAt k log wake → WaitsAt k (run (.onSlot k task next) log).2 wake := by
        rintro h_quiet wake ⟨s₁, task', next', hs₁, rfl, h_waits⟩
        cases hs.symm.trans hs₁
        refine ⟨_, task', next', ?_, rfl, h_quiet.waits h_waits⟩
        rw [run_onSlot hs]
        exact List.getElem?_set_self h_lt
      by_cases h_silent : ∃ reply, task = .announce reply
      · obtain ⟨reply, rfl⟩ := h_silent
        exact .inr (h_quiet (.refl s))
      · rcases Slot.run_outcome s fun reply h_eq => h_silent ⟨reply, h_eq⟩ with
          h_outcome | ⟨h_ends, h_over⟩
        · rw [run_onSlot hs] at h_quiet ⊢
          generalize Slot.run task s = o at h_quiet h_outcome
          cases h_outcome with
          | park h => exact .inr (h_quiet h)
          | join h => exact .inr (h_quiet h)
          | finish h => exact .inr (h_quiet h)
          | announce => exact .inl ⟨_, rfl, _, _, rfl⟩
        · -- out of addresses, which there is no lack of
          exact absurd h_over (h_room task next s rfl hs h_ends)
  · -- the slot stays as it is
    refine .inr ?_
    rintro wake ⟨s, task, next, hs, rfl, h_waits⟩
    obtain ⟨s', hs', rfl | ⟨task', next', h_eq, -⟩⟩ := slot_run hs t
    · exact ⟨s', task, next, hs', rfl, h_waits⟩
    · exact absurd ⟨task', next', h_eq⟩ h_task

end Step

/-! ### Runs -/

section Runs

variable [Writer W]

namespace Run

variable {r r₁ r₂ : Run W} {i j k : Nat}

/-- A call to the Writer has ended in a fault, so that its call on the log will never return. -/
def Crashes (r : Run W) : Prop := ∃ w broken, .returned w (.error (.fault broken)) ∈ r.journal

/-- A run that has crashed stays so. -/
theorem Before.crashes {r' : Run W} (h : r.Before r') (h_crashes : r.Crashes) : r'.Crashes := by
  obtain ⟨w, broken, h_mem⟩ := h_crashes
  exact ⟨w, broken, h.mem_journal h_mem⟩

/-- A call with a record does not fault. -/
theorem not_faulted (h_fits : r.Fits) (h_sane : ¬ r.Crashes) {head : Nat} {record : Bytes}
    (h_reserved : .reserved ⟨i, head, record⟩ ∈ r.journal) (broken : Fault) :
    r.machine.calls[i]? ≠ some (.finished (.error (.fault broken))) := by
  intro hi
  obtain ⟨P, hm, -⟩ := r.exists_matches h_fits r.within_all
  obtain ⟨start, v, -, hv, h_stands⟩ := hm.exists_view hi
  cases h_stands with
  | stopped h_result => cases h_result
  | unencoded =>
    have h_fresh : ViewInv r.log.geometry P i .fresh := hm.inv.call i _ hv
    exact h_fresh _ (Journal.mem_reservations.2 (hm.journal ▸ h_reserved)) rfl
  | crashed h_call h_mem => exact h_sane ⟨_, _, h_mem⟩

/-- No step runs out of addresses: its call has a record, and would have faulted. -/
theorem not_overflows (h_fits : r₂.Fits) (h_sane : ¬ r₂.Crashes) (h_next : r₁.Next (.run i) r₂)
    {task : Slot.Task} {next : Log.Next} (hi : r₁.machine.calls[i]? = some (.ready (.onSlot k task next)))
    {s : Slot} (hs : r₁.machine.state.ring.slots[k]? = some s)
    (h_stepped : r₁.machine.Stepped r₂.machine i (run (.onSlot k task next) r₁.machine.state))
    (h_ends : Slot.Ends task) : ¬ Slot.Overflows task s (Slot.run task s) := by
  intro h_over
  obtain ⟨status, hi', h_leads⟩ := h_stepped.self
  rw [run_onSlot hs, h_over.move] at h_leads
  obtain ⟨P, hm, -⟩ := r₁.exists_matches (h_next.before.fits h_fits) r₁.within_all
  obtain ⟨start, v, -, hv, h_stands⟩ := hm.exists_view hi
  -- a call that is under way has reserved its addresses, and such a call does not fault
  have h_reserved : ∀ {w}, P.calls[i]? = some (.working w) →
      ∃ head record, .reserved ⟨i, head, record⟩ ∈ r₂.journal := by
    intro w hv
    obtain ⟨record, h_mem, -⟩ := WorkInv.cut (hm.inv.call i _ hv)
    exact ⟨_, record, h_next.before.mem_journal (hm.journal ▸ h_mem)⟩
  cases h_stands with
  | ready h_at =>
    cases h_ends with
    | release flush =>
      cases h_at with
      | release =>
        obtain ⟨head, record, h_mem⟩ := h_reserved hv
        cases h_leads
        exact not_faulted h_fits h_sane h_mem _ hi'
      | failing h_failing => cases h_failing
    | skip tag =>
      cases h_at with
      | skip =>
        obtain ⟨head, record, h_mem⟩ := h_reserved hv
        cases h_leads
        exact not_faulted h_fits h_sane h_mem _ hi'
      | failing h_failing => cases h_failing

theorem heard_next {e : Event Task Verdict} (h : Machine.Heard (WaitsAt k) (AnnouncesAt k) k r₁.machine)
    (h_fits : r₂.Fits) (h_sane : ¬ r₂.Crashes) (h_next : r₁.Next e r₂) :
    Machine.Heard (WaitsAt k) (AnnouncesAt k) k r₂.machine := by
  rcases Machine.step_cases h_next.step with ⟨start, rfl, h_eq⟩ | ⟨i, status, o, h_acts, h_stepped⟩
  · rw [h_eq]
    exact h.call start
  · cases h_acts with
    | @run i t hi =>
      refine h.stepped hi h_stepped (fun wake late => waitsAt_of_parked) (waitsAt_run ?_) ?_
      · rintro task next s rfl hs h_ends
        exact not_overflows h_fits h_sane h_next hi hs h_stepped h_ends
      · rintro _ ⟨⟩ ⟨reply, next, rfl⟩
        obtain ⟨P, hm, -⟩ := r₁.exists_matches (h_next.before.fits h_fits) r₁.within_all
        obtain ⟨start, v, -, -, h_stands⟩ := hm.exists_view hi
        cases h_stands with
        | ready h_at =>
          -- the slot is there, so that its waiting calls are told
          obtain ⟨s, hs⟩ := hm.inv.slot_of_lt h_at.slot_lt
          rw [← hm.log.slots] at hs
          exact ⟨_, by rw [show (program W).run = run from rfl, run_onSlot hs]; rfl⟩
    | @expire i c wake late hi =>
      refine h.stepped hi h_stepped (fun wake late => waitsAt_of_parked) (waitsAt_run ?_)
        fun _ h_eq => by cases h_eq
      -- a call does not end a generation at its deadline
      rintro task next s rfl - h_ends
      obtain ⟨task', next', -, h_late, -⟩ := r₁.blocked i c wake _ hi
      cases task' <;> cases h_late
      cases h_ends
    -- an answer changes no slot and blocks nobody
    | @answer i t verdict hi =>
      refine h.stepped hi h_stepped (fun wake late h_leads => by cases GoesOn.answered h_leads)
        (.inr ?_) fun _ h_eq => by cases h_eq
      rintro wake ⟨s, task, next, hs, h_wake, h_waits⟩
      refine ⟨s, task, next, ?_, h_wake, h_waits⟩
      rw [show (program W).reply t verdict r₁.machine.state = answered t verdict r₁.machine.state from rfl,
        ring_answered]
      exact hs

/-- **No wake-up is lost** on a slot of the ring. -/
theorem heard (r : Run W) (h_fits : r.Fits) (h_sane : ¬ r.Crashes) (k : Nat) :
    Machine.Heard (WaitsAt k) (AnnouncesAt k) k r.machine := by
  refine r.induction (motive := fun r => r.Fits → ¬ r.Crashes →
    Machine.Heard (WaitsAt k) (AnnouncesAt k) k r.machine) ?_ ?_ h_fits h_sane
  · exact fun _ _ => Machine.heard_idle _
  · intro r₁ e r₂ h_next _ ih h_fits₂ h_sane₂
    refine heard_next (ih (h_next.before.fits h_fits₂) fun h_crashes => ?_) h_fits₂ h_sane₂ h_next
    exact h_sane₂ (h_next.before.crashes h_crashes)

end Run

end Runs

/-! ### Tails that are filled ahead of their turn -/

/-- The slot and the generation, if it is the tail of its record that the call is about to copy in. -/
def Task.tail? : Task → Option (Nat × Nat)
  | .onSlot k (.fill tag _ _) _ => some (k, tag)
  | _ => none

/-- The slot and the generation, if it is the tail of its record that the call is about to copy in or
is blocked with. -/
def Status.tail? : Status Task Result → Option (Nat × Nat)
  | .ready t => t.tail?
  | .parked _ wake _ => wake.tail?
  | _ => none

section Tails

variable {log : Log W} {k : Nat} {t : Task} {next : Next} {status : Status Task Result}

theorem Task.Plain.tail? (h : t.Plain) : t.tail? = none := by
  unfold Task.tail?
  split
  · cases h.begins _ _ _ rfl
  · rfl

/-- Waking a call leaves its tail as it was. -/
theorem tail?_remains {status' : Status Task Result} (h : status.Remains status') :
    Status.tail? status' = Status.tail? status := by
  cases h <;> rfl

/-- A call that poisons the ring fills no tail. -/
theorem tail?_poisonFrom {g : Geometry} {index : Nat} {reason : PoisonReason} {result : Result}
    (h : (poisonFrom g index reason result).Leads status) : Status.tail? status = none := by
  cases poisonsFrom h <;> rfl

/-- A call goes on to fill its tail when the slot of the tail accepts it. -/
theorem tail?_resume {g : Geometry} {answer : Slot.Result} (h : (resume g next answer).Leads status) :
    Status.tail? status = none ∨ ∃ e afterHead, next = .tailOffered e afterHead ∧
      answer = .ok (.accepted true) ∧
      Status.tail? status = some (portionSlot g e .tail, e.span.tailTag) := by
  cases h_next : next.sweep? with
  | some result =>
    left
    cases next with
    | stopped error reason => cases h; rfl
    | poisoned index reason result => exact tail?_poisonFrom h
    | _ => cases h_next
  | none =>
    cases resumes h_next h with
    | error => exact .inl rfl
    | reply => exact .inl rfl
    | fault => exact .inl rfl
    | plain next answer h_plain => exact .inl h_plain.tail?
    | fillTail e afterHead => exact .inr ⟨e, afterHead, rfl, rfl, rfl⟩

theorem tail?_onSlot {task : Slot.Task} {s : Slot} (hs : log.ring.slots[k]? = some s)
    (h_offer : ∀ e afterHead, next = .tailOffered e afterHead →
      task = .tryAcquire e.span.tailTag ∧ k = portionSlot log.geometry e .tail)
    (h : (run (.onSlot k task next) log).1.Leads status) :
    Status.tail? status = none ∨ Status.tail? status = Task.tail? (.onSlot k task next) ∨
      Status.tail? status = some (k, s.tag) := by
  cases lands hs h with
  | parked h_wake =>
    rcases h_wake with rfl | ⟨τ, rfl⟩
    · exact .inr (.inl rfl)
    · exact .inl rfl
  | join => exact .inl rfl
  | announce => exact .inl rfl
  | resumed h_result h =>
    rcases tail?_resume h with h_none | ⟨e, afterHead, rfl, rfl, h_some⟩
    · exact .inl h_none
    · -- the tail has been offered to this slot, and it has taken it
      obtain ⟨rfl, rfl⟩ := h_offer e afterHead rfl
      rcases h_result with h_task | ⟨h_finish, -⟩
      · cases h_task
      · -- the slot is at the generation that it accepts
        have h_accepts : s.accepts e.span.tailTag = .ok true := by
          have h_map : (s.accepts e.span.tailTag).map Slot.Reply.accepted = .ok (.accepted true) :=
            Move.finish.inj h_finish
          cases h_accepts : s.accepts e.span.tailTag with
          | error stop => rw [h_accepts] at h_map; cases h_map
          | ok now => rw [h_accepts] at h_map; cases h_map; rfl
        have h_tag : s.tag = e.span.tailTag := (Slot.accepts_eq_true.1 h_accepts).2.1
        exact .inr (.inr (h_some.trans (by rw [h_tag])))

/-- **Who fills a tail ahead of its turn** was about to do so before, or has just been told that the slot
is at the generation. -/
theorem tail?_run {format : Record.Format} {start : Task} {v : View}
    (h_at : At log.geometry format start t v) (h : (run t log).1.Leads status) :
    Status.tail? status = none ∨ Status.tail? status = t.tail? ∨
      ∃ k s, log.ring.slots[k]? = some s ∧ Status.tail? status = some (k, s.tag) := by
  have h_effect := run_effect t log
  generalize run t log = o at h h_effect
  cases h_effect with
  | @onSlot k task next s hs =>
    -- the slot has been asked whether it is at the generation of the tail
    refine (tail?_onSlot hs ?_ h).imp_right (Or.imp_right fun h_some => ⟨k, _, hs, h_some⟩)
    rintro e afterHead rfl
    cases h_at with
    | offer => exact ⟨rfl, rfl⟩
    | failing h_failing => cases h_failing
  | placed =>
    cases h
    exact .inl (plain_entryTask _).tail?
  | poisons => exact .inl (tail?_poisonFrom h)
  | _ =>
    cases h
    exact .inl rfl

/-- A call that has had the Writer's answer fills no tail. -/
theorem tail?_answered [Writer W] {g : Geometry} {i : Nat} {v : View} {verdict : Verdict}
    (h_at : AtOutside g i t v) (h : (answered t verdict log).1.Leads status) :
    Status.tail? status = none := by
  have h_reaction := answered_reaction t verdict log
  generalize answered t verdict log = o at h h_reaction
  cases h_reaction with
  | directWritten =>
    cases h
    exact (plain_tailTask _ _).tail?
  | idle h_none => cases h_at <;> cases h_none 0
  | _ =>
    cases h
    rfl

end Tails

namespace Run

variable [Writer W] {r r' : Run W} {k tag : Nat}

/-- A slot stays at its generation or goes forward. -/
theorem Before.reached (h : r.Before r')
    (h_reached : ∃ s, r.machine.state.ring.slots[k]? = some s ∧ tag ≤ s.tag) :
    ∃ s, r'.machine.state.ring.slots[k]? = some s ∧ tag ≤ s.tag := by
  obtain ⟨s, hs, h_le⟩ := h_reached
  obtain ⟨s', hs', h_tag⟩ := h.slot (R := fun s s' => s.tag ≤ s'.tag) (fun _ => le_rfl)
    (fun _ s₁ task h_le => h_le.trans (Slot.onward_run task s₁).tag_le) hs
  exact ⟨s', hs', h_le.trans h_tag⟩

/-- **Whoever fills its tail ahead of its turn** finds the slot at its generation, or past it. -/
theorem tail_reached (r : Run W) (h_fits : r.Fits) : ∀ (i : Nat) status k tag,
    r.machine.calls[i]? = some status → Status.tail? status = some (k, tag) →
      ∃ s, r.machine.state.ring.slots[k]? = some s ∧ tag ≤ s.tag := by
  refine r.induction (motive := fun r => r.Fits → ∀ (i : Nat) status k tag,
    r.machine.calls[i]? = some status → Status.tail? status = some (k, tag) →
      ∃ s, r.machine.state.ring.slots[k]? = some s ∧ tag ≤ s.tag) ?_ ?_ h_fits
  · intro _ i status k tag hi
    rw [getElem?_calls_start] at hi
    cases hi
  · intro r₁ e r₂ h_next _ ih h_fits₂ j status₂ k tag hj h_tail
    have h_fits₁ := h_next.before.fits h_fits₂
    have h_before : ∀ {j status}, r₁.machine.calls[j]? = some status →
        Status.tail? status = some (k, tag) →
          ∃ s, r₂.machine.state.ring.slots[k]? = some s ∧ tag ≤ s.tag :=
      fun hj h_tail => h_next.before.reached (ih h_fits₁ _ _ k tag hj h_tail)
    cases Machine.came h_next.step hj with
    | made start =>
      -- no call begins with a tail
      rcases h_next.begins with ⟨_, _, _, rfl⟩ | ⟨_, rfl⟩ <;> cases h_tail
    | remained hj₁ h_remains => exact h_before hj₁ ((tail?_remains h_remains).symm.trans h_tail)
    | stepped h_acts h_stepped h_leads =>
      obtain ⟨P, hm, -⟩ := r₁.exists_matches h_fits₁ r₁.within_all
      have h_slots : r₁.machine.state.ring.slots.length = r₁.machine.state.geometry.ringSize := by
        rw [hm.log.slots, hm.inv.ring, hm.log.geometry]
      obtain ⟨start, v, -, -, h_stands⟩ := hm.exists_view h_acts.before
      rw [← hm.log.geometry] at h_stands
      cases h_acts with
      | @run i t hi =>
        cases h_stands with
        | ready h_at =>
          rcases tail?_run h_at h_leads with h_none | h_same | ⟨k', s, hs, h_some⟩
          · cases h_none.symm.trans h_tail
          · exact h_before hi (h_same.symm.trans h_tail)
          · cases h_some.symm.trans h_tail
            exact h_next.before.reached ⟨s, hs, le_rfl⟩
      | @expire i c wake late hi =>
        cases h_stands with
        | @parked _ task next _ _ h_at h_late =>
          cases h_late late rfl with
          | rejoin =>
            have hs := List.getElem?_eq_getElem
              (h_slots ▸ h_at.slot_lt : c < r₁.machine.state.ring.slots.length)
            have h_none : ∀ e afterHead, next ≠ .tailOffered e afterHead := by
              rintro e afterHead rfl
              cases h_at with
              | failing h_failing => cases h_failing
            -- at its deadline a call looks after its ticket, and has offered no tail
            rcases tail?_onSlot hs (fun e afterHead h => absurd h (h_none e afterHead)) h_leads with
              h_none | h_none | h_some
            · cases h_none.symm.trans h_tail
            · cases h_none.symm.trans h_tail
            · cases h_some.symm.trans h_tail
              exact h_next.before.reached ⟨_, hs, le_rfl⟩
      | answer hi =>
        cases h_stands with
        | outside h_at => cases (tail?_answered h_at h_leads).symm.trans h_tail

end Run

end GroupCommit.Log
