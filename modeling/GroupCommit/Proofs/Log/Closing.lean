import GroupCommit.Proofs.Log.Sweep

/-!
# How far a sweep has come

A call that sweeps the ring stops one slot after another and wakes whoever is blocked there. Nobody can
be blocked on a slot that is stopped, so a slot that is behind the sweep is closed for good. When the
call returns, all slots are.

* `Closed`, `Run.closed_next`: slots that are stopped and on which nobody is blocked.
* `Sweeping`, `Run.sweeping`: a call has closed the slots that it has swept.
* `Run.closed_of_finished`: all slots are closed once a call that sweeps the ring has returned.
-/

namespace GroupCommit.Log

section Closing

variable {W : Type} [Writer W]

/-- The slot is stopped, and nobody is blocked on it. -/
structure Closed (m : Machine (Log W) Task Result) (k : Nat) : Prop where
  stopped : ∃ s, m.state.ring.slots[k]? = some s ∧ s.Stopped
  free : ∀ (j : Nat) wake late, m.calls[j]? ≠ some (.parked k wake late)

omit [Writer W] in
/-- A slot that is stopped is closed once all that were blocked on it have been woken, if whoever has woken
them goes on. -/
theorem Closed.of_notified {m m' : Machine (Log W) Task Result} {i k : Nat}
    {o : Move Task Result × Log W} {next : Nat → Move Task Result}
    (h_stopped : ∃ s, m'.state.ring.slots[k]? = some s ∧ s.Stopped) (h_stepped : m.Stepped m' i o)
    (h_notify : o.1 = .notify k next)
    (h_self : ∀ wake late, m'.calls[i]? ≠ some (.parked k wake late)) : Closed m' k where
  stopped := h_stopped
  free := by
    intro j wake late hj
    by_cases h_eq : j = i
    · subst h_eq
      exact h_self wake late hj
    · exact h_stepped.not_parked h_eq h_notify wake late hj

/-- How many slots the call has closed. A call that has returned has closed them all. -/
def Status.swept (ringSize : Nat) : Status Task Result → Nat
  | .ready (.onSlot _ _ (.poisoned index _ _)) => index
  | .finished result => if (sweepResult? result).isSome then ringSize else 0
  | _ => 0

omit [Writer W] in
/-- A call that does not sweep has swept no slot. -/
theorem swept_eq_zero {ringSize : Nat} {status : Status Task Result}
    (h : Status.sweep? status = none) : Status.swept ringSize status = 0 := by
  unfold Status.swept
  split
  · cases h
  · rw [show sweepResult? _ = none from h]
    rfl
  · rfl

/-- A call has closed the slots that it has swept, and it has stopped the one that it is about to
close. -/
structure Sweeping (m : Machine (Log W) Task Result) (ringSize : Nat)
    (status : Status Task Result) : Prop where
  closed : ∀ k < Status.swept ringSize status, Closed m k
  stopped : ∀ k reply index reason result,
    status = .ready (.onSlot k (.announce reply) (.poisoned index reason result)) →
      ∃ s, m.state.ring.slots[k]? = some s ∧ s.Stopped

omit [Writer W] in
/-- Such a call has nothing to show for it. -/
theorem Sweeping.of_none {m : Machine (Log W) Task Result} {ringSize : Nat}
    {status : Status Task Result} (h : Status.sweep? status = none) : Sweeping m ringSize status where
  closed := by
    rw [swept_eq_zero h]
    exact fun k hk => absurd hk (Nat.not_lt_zero k)
  stopped := by
    rintro k reply index reason result rfl
    cases h

namespace Run

variable {r r' r₁ r₂ : Run W} {e : Event Task Verdict} {k : Nat}

/-- A slot that is stopped stays so. -/
theorem Before.stopped (h : r.Before r')
    (h_stopped : ∃ s, r.machine.state.ring.slots[k]? = some s ∧ s.Stopped) :
    ∃ s, r'.machine.state.ring.slots[k]? = some s ∧ s.Stopped := by
  obtain ⟨s, hs, reason, h_phase⟩ := h_stopped
  obtain ⟨s', hs', h_frozen⟩ := h.frozen hs ⟨reason, h_phase⟩
  exact ⟨s', hs', reason, h_frozen.phase_eq.trans h_phase⟩

/-- A slot that is closed stays closed: nobody is blocked on a slot that is stopped. -/
theorem closed_next (h_next : r₁.Next e r₂) (h : Closed r₁.machine k) : Closed r₂.machine k where
  stopped := h_next.before.stopped h.stopped
  free := by
    intro j wake late hj
    cases Machine.came h_next.step hj with
    | stepped h_acts h_stepped h_leads =>
      have h_run : ∀ t, ¬ (run t r₁.machine.state).1.Leads (.parked k wake late) := by
        intro t h_leads
        obtain ⟨task, next, s, c, wake', late', -, hs, h_slot, -⟩ := onSlot_of_parked h_leads
        obtain ⟨s', hs', reason, h_phase⟩ := h.stopped
        cases hs.symm.trans hs'
        exact (Slot.run_stopped h_phase task).2 _ _ _ h_slot
      -- the step is that of the slot, which is stopped and blocks nobody
      cases h_acts with
      | run hj => exact h_run _ h_leads
      | expire hj => exact h_run _ h_leads
      | answer hj => cases GoesOn.answered h_leads
    | remained hj h_remains =>
      cases h_remains
      exact h.free j wake late hj

end Run

section Step

variable {r₁ r₂ : Run W} {m : Machine (Log W) Task Result} {e : Event Task Verdict} {i ringSize : Nat}
  {status status' : Status Task Result} {o : Move Task Result × Log W}

/-- What has been swept stays swept through the next event. -/
theorem Sweeping.next (h_next : r₁.Next e r₂)
    (h : Sweeping r₁.machine ringSize status) : Sweeping r₂.machine ringSize status where
  closed := fun k hk => Run.closed_next h_next (h.closed k hk)
  stopped := fun k reply index reason result h_eq =>
    h_next.before.stopped (h.stopped k reply index reason result h_eq)

omit [Writer W] in
/-- A call that sweeps the ring but has not come to the first slot has closed none. -/
theorem Sweeping.of_ready {t : Task}
    (h : ∀ k task index reason result, t ≠ .onSlot k task (.poisoned index reason result)) :
    Sweeping m ringSize (.ready t) where
  closed := by
    intro k hk
    unfold Status.swept at hk
    split at hk
    · next h_eq =>
      cases h_eq
      exact absurd rfl (h _ _ _ _ _)
    · next h_eq => cases h_eq
    · exact absurd hk (Nat.not_lt_zero k)
  stopped := by
    rintro k reply index reason result ⟨⟩
    exact absurd rfl (h _ _ _ _ _)

omit [Writer W] in
/-- The slots up to `index` are closed, so the sweep goes on there, or ends. -/
theorem Sweeping.poisonFrom {g : Geometry} {index : Nat} {reason : PoisonReason} {result : Result}
    (h_closed : ∀ k < index, Closed m k)
    (h_leads : (Log.poisonFrom g index reason result).Leads status') :
    Sweeping m g.ringSize status' := by
  cases poisonsFrom h_leads with
  | slot => exact ⟨h_closed, fun _ _ _ _ _ h_eq => by cases h_eq⟩
  | all h_end =>
    refine ⟨fun k hk => ?_, fun _ _ _ _ _ h_eq => by cases h_eq⟩
    -- the ring has no more slots
    have h_le : Status.swept g.ringSize (.finished result) ≤ g.ringSize := by
      show (if (sweepResult? result).isSome then g.ringSize else 0) ≤ g.ringSize
      split
      · exact le_rfl
      · exact Nat.zero_le _
    exact h_closed k (by omega)

theorem sweeping_answered {g : Geometry} {v : View} {t : Task} {verdict : Verdict} {log : Log W}
    (h_at : AtOutside g i t v) (h_leads : (answered t verdict log).1.Leads status') :
    Sweeping m ringSize status' := by
  have h_reaction := answered_reaction t verdict log
  generalize answered t verdict log = o at h_leads h_reaction
  cases h_reaction with
  -- the call begins to stop the slot, or the log, and has swept nothing
  | slotRefused | directRefused =>
    cases h_leads
    exact .of_ready fun _ _ _ _ _ h_eq => by cases h_eq
  | directWritten =>
    cases h_leads
    exact .of_none (plain_tailTask _ _).sweep
  | idle h_none => cases h_at <;> cases h_none 0
  | _ =>
    cases h_leads
    exact .of_none rfl

/-- The step of a call that sweeps the ring. -/
theorem Failing.sweeping {t : Task} (h : Sweeping r₁.machine r₁.log.geometry.ringSize (.ready t))
    (h_failing : Failing r₁.log.geometry t)
    (h_geometry : r₁.machine.state.geometry = r₁.log.geometry)
    (h_slots : r₁.machine.state.ring.slots.length = r₁.log.geometry.ringSize)
    (h_next : r₁.Next e r₂)
    (h_stepped : r₁.machine.Stepped r₂.machine i (run t r₁.machine.state))
    (hi' : r₂.machine.calls[i]? = some status')
    (h_leads : (run t r₁.machine.state).1.Leads status') :
    Sweeping r₂.machine r₁.log.geometry.ringSize status' := by
  have h_later := h.next h_next
  have h_slot : ∀ {k}, k < r₁.log.geometry.ringSize →
      ∃ s, r₁.machine.state.ring.slots[k]? = some s :=
    fun hk => ⟨_, List.getElem?_eq_getElem (h_slots ▸ hk)⟩
  cases h_failing with
  | poison reason h_result =>
    rw [run, h_geometry] at h_leads
    exact .poisonFrom (fun k hk => absurd hk (Nat.not_lt_zero k)) h_leads
  | abandon hk flush reason error =>
    obtain ⟨s, hs⟩ := h_slot hk
    rw [run_onSlot hs] at h_leads
    cases h_leads
    exact .of_ready fun _ _ _ _ _ h_eq => by cases h_eq
  | abandoned hk reason error =>
    obtain ⟨s, hs⟩ := h_slot hk
    rw [run_onSlot hs] at h_leads
    cases h_leads with
    | notify h_leads =>
      cases h_leads
      exact .of_ready fun _ _ _ _ _ h_eq => by cases h_eq
  | handedBack hk reason e p tk =>
    obtain ⟨s, hs⟩ := h_slot hk
    rw [run_onSlot hs] at h_leads
    cases h_leads with
    | notify h_leads =>
      cases h_leads
      exact .of_none rfl
  | @poisonSlot k hk reason result h_result =>
    obtain ⟨s, hs⟩ := h_slot hk
    have h_run := run_onSlot hs (.poison reason) (.poisoned k reason result)
    rw [h_run] at h_leads
    cases h_leads
    refine ⟨h_later.closed, ?_⟩
    -- the slot is stopped by this very step
    rintro _ _ _ _ _ ⟨⟩
    rw [h_stepped.state, h_run]
    obtain ⟨h_lt, -⟩ := List.getElem?_eq_some_iff.1 hs
    exact ⟨_, List.getElem?_set_self h_lt, _, rfl⟩
  | @poisonedSlot k hk reason result h_result =>
    obtain ⟨s, hs⟩ := h_slot hk
    have h_run := run_onSlot hs (.announce (.ok .done)) (.poisoned k reason result)
    rw [h_run] at h_leads h_stepped
    rw [h_geometry] at h_leads h_stepped
    -- the slot was stopped in the step before
    have h_stopped := h_later.stopped k _ k reason result rfl
    cases h_leads with
    | notify h_leads =>
      have h_leads : (poisonFrom r₁.log.geometry (k + 1) reason result).Leads status' := h_leads
      refine .poisonFrom (fun k' hk' => ?_) h_leads
      rcases Nat.lt_succ_iff_lt_or_eq.1 hk' with h_lt | rfl
      · exact h_later.closed k' h_lt
      · refine .of_notified h_stopped h_stepped rfl fun wake late hi => ?_
        cases hi'.symm.trans hi
        cases poisonsFrom h_leads

/-- **How far a sweep has come** after a step of the call itself. -/
theorem Sweeping.step (h : Sweeping r₁.machine r₁.log.geometry.ringSize status)
    (h_blames : r₁.Blames) (h_fits : r₁.Fits) (h_next : r₁.Next e r₂)
    (h_acts : r₁.machine.Acts (program W) e i status o)
    (h_stepped : r₁.machine.Stepped r₂.machine i o) (hi' : r₂.machine.calls[i]? = some status')
    (h_leads : o.1.Leads status') : Sweeping r₂.machine r₁.log.geometry.ringSize status' := by
  obtain ⟨P, hm, -⟩ := r₁.exists_matches h_fits r₁.within_all
  have h_slots : r₁.machine.state.ring.slots.length = r₁.log.geometry.ringSize := by
    rw [hm.log.slots, hm.inv.ring]
  obtain ⟨start, v, -, -, h_stands⟩ := hm.exists_view h_acts.before
  cases h_acts with
  | @expire i c wake late hi =>
    cases h_stands with
    | parked h_at h_late => exact .of_none ((h_late late rfl).sweep? h_at h_slots h_leads).2
  | @answer i t verdict hi =>
    cases h_stands with
    | outside h_at => exact sweeping_answered h_at h_leads
  | @run i t hi =>
    cases h_stands with
    | ready h_at =>
      -- a step keeps its call sweeping or not sweeping, and only a call that has failed sweeps
      have h_same := h_at.sweep?_run hm.log.geometry h_slots
        (fun result => h_blames.final i _ result hi) h_leads
      cases h_at with
      | failing h_failing =>
        exact h_failing.sweeping h hm.log.geometry h_slots h_next h_stepped hi' h_leads
      | _ => exact .of_none h_same

end Step

namespace Run

variable {r r' : Run W} {i k : Nat}

theorem sweeping (r : Run W) (h_fits : r.Fits) : ∀ (i : Nat) status,
    r.machine.calls[i]? = some status → Sweeping r.machine r.log.geometry.ringSize status := by
  refine r.induction (motive := fun r => r.Fits → ∀ (i : Nat) status,
    r.machine.calls[i]? = some status → Sweeping r.machine r.log.geometry.ringSize status) ?_ ?_ h_fits
  · intro _ i status hi
    rw [getElem?_calls_start] at hi
    cases hi
  · intro r₁ e r₂ h_next _ ih h_fits₂ j status₂ hj
    have h_fits₁ := h_next.before.fits h_fits₂
    rw [← h_next.log]
    cases Machine.came h_next.step hj with
    | made start =>
      refine .of_ready fun k task index reason result h_start => ?_
      rcases h_next.begins with ⟨_, _, _, h_commit⟩ | ⟨_, h_poison⟩
      · -- no call begins by sweeping
        cases h_commit.symm.trans h_start
      · cases h_poison.symm.trans h_start
    | stepped h_acts h_stepped h_leads =>
      exact (ih h_fits₁ j _ h_acts.before).step (r₁.blames h_fits₁) h_fits₁ h_next h_acts h_stepped
        hj h_leads
    | remained hj₁ h_remains =>
      cases h_remains with
      | same => exact (ih h_fits₁ j _ hj₁).next h_next
      | woken c wake late =>
        -- a call that is blocked does not sweep the ring
        obtain ⟨task, next, rfl, -, h_blocks⟩ := r₁.blocked j c wake late hj₁
        obtain ⟨P, hm, -⟩ := r₁.exists_matches h_fits₁ r₁.within_all
        obtain ⟨start, v, -, -, h_stands⟩ := hm.exists_view hj₁
        cases h_stands with
        | parked h_at h_late =>
          refine .of_ready ?_
          rintro _ _ _ _ _ ⟨⟩
          cases h_at with
          | failing h_failing => cases h_failing <;> cases h_blocks

/-- **All slots are closed** once a call that sweeps the ring has returned. -/
theorem closed_of_finished (h_fits : r.Fits) {result : Result}
    (hi : r.machine.calls[i]? = some (.finished result)) (h_sweep : (sweepResult? result).isSome)
    (hk : k < r.log.geometry.ringSize) : Closed r.machine k := by
  refine (r.sweeping h_fits i _ hi).closed k ?_
  rw [Status.swept, if_pos h_sweep]
  exact hk

end Run

end Closing

end GroupCommit.Log
