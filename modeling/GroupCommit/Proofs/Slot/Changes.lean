import GroupCommit.Proofs.Slot.History

/-!
# What steps do to a slot and its history

Every step of a call that does not end in a fault is made up of a few changes, each with what a history
notes of it. Most of them settle no ticket: they leave the generation as it is and what is durable of
it. The others are the two ways to take a written flush back, and the end of a generation into which no
bytes were copied. Such a change is all that its step does.

* `Slot.Change`, `Slot.Changes`: the changes that settle no ticket.
* `Slot.Settling`: those that may.
* `Slot.run_effect`: every step is made up of them.
-/

namespace GroupCommit.Slot

variable {s s₁ s' : Slot} {call tag offset : Nat} {data : Bytes} {ticket : Ticket} {task : Task}
  {N N' : History} {flush : Flush}

/-! ### Changes -/

/-- A change of a slot that settles no ticket, with what is noted of it. -/
inductive Change (call : Nat) (s : Slot) : History → Slot → Prop
  /-- The number of waiting calls changes. -/
  | count (n : Nat) : Change call s [] { s with waiters := n }
  | fill {offset : Nat} {data : Bytes} {phase : Phase} (h_open : s.phase = .filling)
      (h_fits : offset + data.length ≤ s.capacity)
      (h_phase : phase = if s.dirty + data.length = s.capacity then .full else .filling) :
      Change call s [.filled call ⟨s.tag, offset, data, s.claims⟩]
        { s.filledWith offset data with phase }
  | claimFull (h : s.phase = .full) : Change call s [.claimed call s.claimFull.1] s.claimFull.2
  | claimEarly (h : s.phase = .filling) (h_high : 0 < s.highWater) :
      Change call s [.claimed call s.claimEarly.1] s.claimEarly.2
  | spare {ticket : Ticket} (h_live : ¬ s.Stopped) (h : s.Settles ticket) :
      Change call s [.spared call ticket] s
  /-- The end of a later generation is recorded. -/
  | skipLater {tag : Nat} (h_live : ¬ s.Stopped) (h_later : s.tag < tag) (h_new : tag ∉ s.skipped) :
      Change call s [] { s with skipped := insertSkip tag s.skipped }
  /-- The slot is stopped after the change. No flush that comes back is taken then. -/
  | stop {N : History} {reason : PoisonReason} {buffer : Buffer}
      (h_notes : ∀ n ∈ N, ∃ flush, n = .dropped call flush) :
      Change call s N { s with phase := .poisoned reason, buffer }

/-- Changes that settle no ticket, one after another. -/
inductive Changes (call : Nat) : Slot → History → Slot → Prop
  | refl (s : Slot) : Changes call s [] s
  | step {s s₁ s' : Slot} {N N' : History} (h : Change call s N s₁)
      (h_rest : Changes call s₁ N' s') : Changes call s (N ++ N') s'

/-- A change of a slot that may settle tickets, with what is noted of it. -/
inductive Settling (call : Nat) (s : Slot) : History → Slot → Prop
  /-- A written flush comes back that ends its generation. -/
  | full {flush : Flush} {tag : Nat} {skipped : List Nat} (h_phase : s.phase = .flushing)
      (h_tag : flush.tag = s.tag) (h_passes : Passes s.gap (s.tag + s.gap) s.skipped tag skipped) :
      Settling call s [.released call flush] (renewed { s with buffer := flush.buffer } tag skipped)
  /-- A written flush comes back after which the generation goes on. -/
  | early {flush : Flush} (h_phase : s.phase = .reserving) (h_tag : flush.tag = s.tag) :
      Settling call s [.released call flush]
        { s with buffer := flush.buffer, durable := ⟨flush.length, s.claims⟩, phase := .filling }
  /-- A generation ends that has no bytes. -/
  | skip {tag : Nat} {skipped : List Nat} (h_phase : s.phase = .filling) (h_dirty : s.dirty = 0)
      (h_passes : Passes s.gap (s.tag + s.gap) s.skipped tag skipped) :
      Settling call s [] (s.renewed tag skipped)

theorem Change.changes (h : Change call s N s') : Changes call s N s' := by
  rw [← List.append_nil N]
  exact .step h (.refl s')

theorem Changes.single {s s' : Slot} (h : Change call s [] s₁) (h_rest : Changes call s₁ N s') :
    Changes call s N s' := .step h h_rest

/-- Nothing revives a slot that is stopped. -/
theorem Change.stopped (h : Change call s N s') (h_stopped : s.Stopped) : s'.Stopped := by
  have h_never : ∀ {phase}, s.phase = phase → (∀ reason, phase ≠ .poisoned reason) → False :=
    fun h_phase h_live => not_stopped h_phase h_live h_stopped
  cases h with
  | count n => exact h_stopped
  | fill h_open => exact (h_never h_open nofun).elim
  | claimFull h_full => exact (h_never h_full nofun).elim
  | claimEarly h_open => exact (h_never h_open nofun).elim
  | spare h_live => exact absurd h_stopped h_live
  | skipLater h_live => exact absurd h_stopped h_live
  | stop h_notes => exact ⟨_, rfl⟩

/-- Only a slot that is open settles tickets. -/
theorem Settling.not_stopped (h : Settling call s N s') : ¬ s.Stopped := by
  cases h with
  | full h_phase => exact not_stopped h_phase nofun
  | early h_phase => exact not_stopped h_phase nofun
  | skip h_phase => exact not_stopped h_phase nofun

/-- No change touches the generation or what is durable. -/
theorem Change.same (h : Change call s N s') : s'.tag = s.tag ∧ s'.durable = s.durable := by
  cases h <;> exact ⟨rfl, rfl⟩

theorem Changes.same (h : Changes call s N s') : s'.tag = s.tag ∧ s'.durable = s.durable := by
  induction h with
  | refl s => exact ⟨rfl, rfl⟩
  | step h h_rest ih =>
    rw [ih.1, ih.2]
    exact h.same

/-- So the changes of a step settle no ticket. -/
theorem Changes.settles (h : Changes call s N s') : s'.Settles ticket ↔ s.Settles ticket := by
  rw [Settles, Settles, covers, covers, h.same.1, h.same.2]

/-! ### Copying bytes in -/

/-- What a copy that succeeds has done. -/
theorem of_copyIn (h : s.copyIn offset data = (.ok ticket, s')) :
    offset + data.length ≤ s.capacity ∧ ticket = ⟨s.tag, offset + data.length, s.claims⟩ ∧
      s' = s.filledWith offset data := by
  have h_copied := s.copied offset data
  rw [h] at h_copied
  cases h_copied with
  | fits h_place => exact ⟨h_place, rfl, rfl⟩

/-- A step that finds its generation not open does nothing. -/
theorem whenAccepted_closed (h : s.accepts tag ≠ .ok true) {next : Move Task Result × Slot} :
    (s.whenAccepted tag task next).2 = s ∧
      ∀ call t, endNotes call t (s.whenAccepted tag task next).1 = [] := by
  rw [whenAccepted]
  cases h_accepts : s.accepts tag with
  | error stop => exact ⟨rfl, fun call t => rfl⟩
  | ok now =>
    cases now with
    | false => exact ⟨rfl, fun call t => rfl⟩
    | true => exact absurd h_accepts h

/-- A fill that is not taken is not noted. -/
theorem fillNotes_closed (h : s.accepts tag ≠ .ok true) : s.fillNotes call tag offset data = [] :=
  if_neg fun h_both => h h_both.1

/-- A fill that is taken is noted with its range and bytes. -/
theorem fillNotes_open (h : s.accepts tag = .ok true) (h_copy : s.copyIn offset data = (.ok ticket, s')) :
    s.fillNotes call tag offset data = [.filled call ⟨s.tag, offset, data, s.claims⟩] := by
  rw [fillNotes, if_pos ⟨h, by rw [h_copy]; rfl⟩]

/-- What a copying step does whose generation is open. -/
theorem copyThen_open {completing other : Ticket → Slot → Move Task Result × Slot}
    (h_sound : ∀ broken, (s.copyThen offset data completing other).1 ≠ faulting broken) :
    ∃ ticket s', s.copyIn offset data = (.ok ticket, s') ∧
      s.copyThen offset data completing other =
        if s'.dirty = s'.capacity then completing ticket s' else other ticket s' := by
  rw [copyThen] at h_sound ⊢
  cases h_copy : s.copyIn offset data with
  | mk copied s' =>
    cases copied with
    | error broken =>
      rw [h_copy] at h_sound
      exact absurd rfl (h_sound broken)
    | ok ticket => exact ⟨ticket, s', rfl, rfl⟩

/-- A step that fills an open generation. -/
theorem run_fill (h_open : s.accepts tag = .ok true) (h_copy : s.copyIn offset data = (.ok ticket, s')) :
    run (.fill tag offset data) s =
      if s'.dirty = s'.capacity then
        (.goto (.announce (.ok (.filled ticket))), { s' with phase := .full })
      else (.finish (.ok (.filled ticket)), s') := by
  rw [run, whenAccepted, h_open, copyThen, h_copy]

/-- A fill that also joins takes the full flush at once, or goes on to wait. -/
theorem run_fillJoin (h_open : s.accepts tag = .ok true)
    (h_copy : s.copyIn offset data = (.ok ticket, s')) :
    run (.fillJoin tag offset data) s =
      if s'.dirty = s'.capacity then
        (.finish (.ok (.joined (some s'.claimFull.1))), s'.claimFull.2)
      else (.goto (.join ticket), s') := by
  rw [run, whenAccepted, h_open, copyThen, h_copy]

/-- What a fill changes is what it notes. -/
theorem fill_changes (h_sound : ∀ broken, (run (.fill tag offset data) s).1 ≠ faulting broken) :
    Changes call s (s.fillNotes call tag offset data) (run (.fill tag offset data) s).2 := by
  rw [run] at h_sound ⊢
  by_cases h_open : s.accepts tag = .ok true
  · rw [whenAccepted, h_open] at h_sound ⊢
    obtain ⟨-, -, h_phase⟩ := accepts_eq_true.1 h_open
    obtain ⟨ticket, s', h_copy, h_eq⟩ := copyThen_open h_sound
    obtain ⟨h_fits, -, rfl⟩ := of_copyIn h_copy
    rw [fillNotes_open h_open h_copy]
    dsimp only
    rw [h_eq]
    split
    · next h_full => exact Change.changes (.fill h_phase h_fits (if_pos h_full).symm)
    · next h_full =>
      -- the copy leaves the slot filling
      have h_change : Change call s _ { s.filledWith offset data with phase := .filling } :=
        .fill h_phase h_fits (if_neg h_full).symm
      rw [← h_phase] at h_change
      exact h_change.changes
  · rw [fillNotes_closed h_open, (whenAccepted_closed h_open).1]
    exact .refl s

/-- What a fill that also joins changes is what it notes. -/
theorem fillJoin_changes
    (h_sound : ∀ broken, (run (.fillJoin tag offset data) s).1 ≠ faulting broken) :
    Changes call s (s.stepNotes call (.fillJoin tag offset data))
      (run (.fillJoin tag offset data) s).2 := by
  rw [stepNotes, run] at *
  by_cases h_open : s.accepts tag = .ok true
  · rw [whenAccepted, h_open] at h_sound ⊢
    obtain ⟨-, -, h_phase⟩ := accepts_eq_true.1 h_open
    obtain ⟨ticket, s', h_copy, h_eq⟩ := copyThen_open h_sound
    obtain ⟨h_fits, -, rfl⟩ := of_copyIn h_copy
    rw [fillNotes_open h_open h_copy]
    dsimp only
    rw [h_eq]
    split
    · next h_full =>
      -- the slot is full in between, and the flush is taken at once
      have h_change : Change call s _ { s.filledWith offset data with phase := .full } :=
        .fill h_phase h_fits (if_pos h_full).symm
      exact .step h_change (Change.claimFull rfl).changes
    · next h_full =>
      have h_change : Change call s _ { s.filledWith offset data with phase := .filling } :=
        .fill h_phase h_fits (if_neg h_full).symm
      rw [← h_phase] at h_change
      exact .step h_change (.refl _)
  · obtain ⟨h_same, h_notes⟩ := whenAccepted_closed h_open
    rw [fillNotes_closed h_open, h_notes, h_same]
    exact .refl s

/-! ### Waiting -/

/-- Whoever stops waiting is counted out. -/
theorem leaveWith_sound {result : Result}
    (h_sound : ∀ broken, (s.leaveWith result).1 ≠ faulting broken) :
    ∃ n, s.leaveWith result = (.finish result, { s with waiters := n }) := by
  rw [leaveWith, leave] at h_sound ⊢
  by_cases h_none : s.waiters = 0
  · rw [if_pos h_none] at h_sound
    exact absurd rfl (h_sound .subOverflow)
  · rw [if_neg h_none]
    exact ⟨_, rfl⟩

/-- A poll changes the slot as its notes say, if what follows it does. -/
theorem pollOr_changes {wait : Slot → Move Task Result × Slot}
    (h_sound : ∀ broken, (s.pollOr ticket wait).1 ≠ faulting broken)
    (h_wait : ¬ s.Stopped → (∀ broken, (wait s).1 ≠ faulting broken) →
      Changes call s (endNotes call (some ticket) (wait s).1) (wait s).2) :
    Changes call s (endNotes call (some ticket) (s.pollOr ticket wait).1)
      (s.pollOr ticket wait).2 := by
  by_cases h_stopped : s.Stopped
  · obtain ⟨reason, h_phase⟩ := h_stopped
    rw [pollOr_stopped h_phase] at h_sound ⊢
    obtain ⟨n, h_eq⟩ := leaveWith_sound h_sound
    rw [h_eq]
    exact (Change.count n).changes
  by_cases h_le : ticket.tag ≤ s.tag
  · rw [pollOr, poll_ok h_stopped h_le] at h_sound ⊢
    by_cases h_settles : s.Settles ticket
    · -- the bytes are written
      rw [if_pos h_settles] at h_sound ⊢
      obtain ⟨n, h_eq⟩ := leaveWith_sound h_sound
      dsimp only
      rw [h_eq]
      exact .step (.spare h_stopped h_settles) (Change.count n).changes
    rw [if_neg h_settles] at h_sound ⊢
    by_cases h_full : s.phase = .full
    · -- the whole slot is due, and this call gets its flush
      rw [if_pos h_full] at h_sound ⊢
      obtain ⟨n, h_eq⟩ := leaveWith_sound h_sound
      dsimp only
      rw [h_eq]
      exact .step (.claimFull h_full) (Change.count n).changes
    · rw [if_neg h_full] at h_sound ⊢
      exact h_wait h_stopped h_sound
  · -- it is a fault to wait for a generation that the slot has not reached
    have h_poll : s.poll ticket = (some (.error (.fault (.joinedAhead ticket.tag s.tag))), s) := by
      unfold poll
      split
      · next reason h_phase => exact absurd ⟨reason, h_phase⟩ h_stopped
      · rw [if_pos (by omega)]
    rw [pollOr, h_poll] at h_sound
    exact absurd rfl (h_sound _)

theorem await_changes (h_sound : ∀ broken, (s.await ticket).1 ≠ faulting broken) :
    Changes call s (endNotes call (some ticket) (s.await ticket).1) (s.await ticket).2 :=
  pollOr_changes h_sound fun _ _ => .refl s

/-- A call that gives up leaves and claims an early flush. -/
theorem giveUp_changes (h_sound : ∀ broken, (s.giveUp ticket).1 ≠ faulting broken) :
    Changes call s (endNotes call (some ticket) (s.giveUp ticket).1) (s.giveUp ticket).2 := by
  rw [giveUp, leave] at h_sound ⊢
  by_cases h_none : s.waiters = 0
  · rw [if_pos h_none] at h_sound
    exact absurd rfl (h_sound .subOverflow)
  rw [if_neg h_none] at h_sound ⊢
  dsimp only at h_sound ⊢
  rw [claimAtDeadline] at h_sound ⊢
  dsimp only at h_sound ⊢
  by_cases h_open : s.phase = .filling
  · rw [if_pos h_open] at h_sound ⊢
    by_cases h_empty : s.highWater = 0
    · -- an empty slot has no early flush, which is a fault
      rw [if_pos h_empty] at h_sound
      exact absurd rfl (h_sound _)
    · rw [if_neg h_empty]
      -- the call leaves first and claims then
      have h_claim : Change call { s with waiters := s.waiters - 1 } _ _ :=
        .claimEarly h_open (Nat.pos_of_ne_zero h_empty)
      exact .single (.count (s.waiters - 1)) h_claim.changes
  · rw [if_neg h_open]
    exact (Change.count (s.waiters - 1)).changes

/-! ### Ending a generation -/

/-- Where the end of a generation does not fault, the slot is at the next that is not skipped. -/
theorem of_advance (h : s.advance = (.ok (), s')) :
    ∃ tag skipped, s' = s.renewed tag skipped ∧
      Passes s.gap (s.tag + s.gap) s.skipped tag skipped := by
  rw [advance] at h
  split at h
  · cases h
  dsimp only at h
  split at h
  · rcases passSkips_passes s.skipped.length
      { s with
        buffer := s.buffer.clear s.highWater
        tag := s.tag + s.gap
        dirty := 0
        highWater := 0
        phase := .filling } le_rfl with ⟨tag, skipped, h_eq, h_passes⟩ | ⟨h_fault, -⟩
    · -- the skips have all been passed
      cases h.symm.trans h_eq
      exact ⟨tag, skipped, rfl, h_passes⟩
    · rw [h] at h_fault
      cases h_fault
  · cases h

/-- What a step does to a slot, with what is noted of it. -/
inductive Effect (call : Nat) (s : Slot) (N : History) (s' : Slot) : Prop
  | changes (h : Changes call s N s')
  | settling (h : Settling call s N s')

/-- A full flush that is taken back ends its generation. -/
theorem of_handBack_full (h_kind : flush.kind = .full) (h : s.handBack flush = (.ok (), s')) :
    s.phase = .flushing ∧ flush.tag = s.tag ∧ ∃ tag skipped,
      s' = renewed { s with buffer := flush.buffer } tag skipped ∧
      Passes s.gap (s.tag + s.gap) s.skipped tag skipped := by
  rw [handBack] at h
  split at h
  · cases h
  · next h_tag =>
    rw [h_kind] at h
    dsimp only at h
    split at h
    · cases h
    · next h_phase _ =>
      -- the bytes come back to the slot, which goes on to its next generation
      cases h_advance : ({ s with buffer := flush.buffer } : Slot).advance with
      | mk advanced s₁ =>
        rw [h_advance] at h
        cases advanced with
        | error broken => cases h
        | ok _ =>
          cases h
          exact ⟨h_phase, (not_not.1 h_tag).symm, of_advance h_advance⟩
    · next h_early => cases h_early
    · cases h

/-- After an early flush the generation goes on. -/
theorem of_handBack_early (h_kind : flush.kind = .early) (h : s.handBack flush = (.ok (), s')) :
    s.phase = .reserving ∧ flush.tag = s.tag ∧
      s' = { s with buffer := flush.buffer, durable := ⟨flush.length, s.claims⟩, phase := .filling } := by
  rw [handBack] at h
  split at h
  · cases h
  · next h_tag =>
    rw [h_kind] at h
    dsimp only at h
    split at h
    · cases h
    · -- this would be the flush of the whole slot
      next h_full => cases h_full
    · next h_phase _ =>
      cases h
      exact ⟨h_phase, (not_not.1 h_tag).symm, rfl⟩
    · cases h

/-- A flush that is taken back settles the tickets of its kind. -/
theorem of_handBack (h : s.handBack flush = (.ok (), s')) :
    Settling call s [.released call flush] s' := by
  cases h_kind : flush.kind with
  | full =>
    obtain ⟨h_phase, h_tag, tag, skipped, rfl, h_passes⟩ := of_handBack_full h_kind h
    exact .full h_phase h_tag h_passes
  | early =>
    obtain ⟨h_phase, h_tag, rfl⟩ := of_handBack_early h_kind h
    exact .early h_phase h_tag

/-- A flush that is refused leaves its buffer with the stopped slot. -/
theorem of_handBack_refused {error : LogError}
    (h : s.handBack flush = (.error (.refused error), s')) :
    ∃ reason, s' = { s with phase := .poisoned reason, buffer := flush.buffer } := by
  obtain ⟨reason, h_phase, -⟩ := phase_of_handBack (congrArg Prod.fst h)
  by_cases h_tag : flush.tag = s.tag
  · rw [handBack_stopped h_tag h_phase] at h
    cases h
    exact ⟨reason, by rw [← h_phase]⟩
  · rw [handBack, if_pos (Ne.symm h_tag)] at h
    cases h

/-- What a release changes is what it notes. -/
theorem release_effect (h_sound : ∀ broken, (run (.release flush) s).1 ≠ faulting broken) :
    Effect call s (s.stepNotes call (.release flush)) (run (.release flush) s).2 := by
  rw [run] at h_sound ⊢
  rw [stepNotes]
  cases h_back : s.handBack flush with
  | mk result s' =>
    cases result with
    | ok _ => exact .settling (of_handBack h_back)
    | error stop =>
      cases stop with
      | refused error =>
        -- the slot is stopped, so that the flush is dropped
        obtain ⟨reason, rfl⟩ := of_handBack_refused h_back
        have h_stop : Change call s [.dropped call flush]
            { s with phase := .poisoned reason, buffer := flush.buffer } :=
          .stop fun n h_mem => ⟨flush, List.mem_singleton.1 h_mem⟩
        exact .changes h_stop.changes
      | fault broken =>
        rw [h_back] at h_sound
        exact absurd rfl (h_sound broken)

/-- What a skip does that is no fault: it ends the present generation, or is recorded for a later one. -/
theorem of_skipOver (h_live : ¬ s.Stopped) (h : s.skipOver tag = (.ok (), s')) :
    (s.tag = tag ∧ s.phase = .filling ∧ s.dirty = 0 ∧ ∃ tag' skipped, s' = s.renewed tag' skipped ∧
        Passes s.gap (s.tag + s.gap) s.skipped tag' skipped) ∨
      (s.tag < tag ∧ tag ∉ s.skipped ∧ s' = { s with skipped := insertSkip tag s.skipped }) := by
  rw [skipOver] at h
  split at h
  · next reason h_phase => exact absurd ⟨reason, h_phase⟩ h_live
  split at h
  · next h_tag =>
    split at h
    · -- the open generation is the one skipped
      next h_idle => exact .inl ⟨h_tag, h_idle.1, h_idle.2, of_advance h⟩
    · cases h
  · split at h
    · cases h
    split at h
    · cases h
    · next h_tag h_retired h_new =>
      cases h
      exact .inr ⟨by omega, h_new, rfl⟩

/-- A skip settles the tickets of its generation, or is kept for later. -/
theorem skip_effect (h_sound : ∀ broken, (run (.skip tag) s).1 ≠ faulting broken) :
    Effect call s [] (run (.skip tag) s).2 := by
  rw [run] at h_sound ⊢
  cases h_skip : s.skipOver tag with
  | mk result s' =>
    cases result with
    | error broken =>
      rw [h_skip] at h_sound
      exact absurd rfl (h_sound broken)
    | ok _ =>
      dsimp only
      by_cases h_stopped : s.Stopped
      · -- a stopped slot takes no notice
        cases (skipOver_stopped h_stopped).symm.trans h_skip
        exact .changes (.refl s)
      · rcases of_skipOver h_stopped h_skip with
          ⟨-, h_phase, h_dirty, tag', skipped, rfl, h_passes⟩ | ⟨h_later, h_new, rfl⟩
        · exact .settling (.skip h_phase h_dirty h_passes)
        · exact .changes (Change.skipLater h_stopped h_later h_new).changes

/-! ### Steps -/

/-- **Every step** that does not end in a fault is a change that may settle tickets, or made up of
changes that do not. -/
theorem run_effect (call : Nat) (h_sound : ∀ broken, (run task s).1 ≠ faulting broken) :
    Effect call s (s.stepNotes call task) (run task s).2 := by
  -- a step that leaves the slot and notes nothing is made up of no changes
  have h_same : (run task s).2 = s → s.stepNotes call task = [] →
      Effect call s (s.stepNotes call task) (run task s).2 := by
    intro h_state h_notes
    rw [h_state, h_notes]
    exact .changes (.refl s)
  cases task with
  | acquire tag =>
    refine h_same ?_ rfl
    rw [run, whenAccepted]
    split <;> rfl
  | tryAcquire tag => exact h_same rfl rfl
  | fill tag offset data => exact .changes (fill_changes h_sound)
  | fillJoin tag offset data => exact .changes (fillJoin_changes h_sound)
  | join ticket => exact .changes (.single (.count (s.waiters + 1)) (await_changes h_sound))
  | rejoin ticket => exact .changes (await_changes h_sound)
  | joinLate ticket =>
    exact .changes (pollOr_changes h_sound fun _ h_sound => giveUp_changes h_sound)
  | release flush => exact release_effect h_sound
  | abandon flush reason =>
    have h_stop : Change call s [.dropped call flush] (s.takeBack flush reason) :=
      .stop fun n h_mem => ⟨flush, List.mem_singleton.1 h_mem⟩
    exact .changes h_stop.changes
  | skip tag => exact skip_effect h_sound
  | poison reason =>
    have h_stop : Change call s [] (s.poisonWith reason) :=
      .stop fun n h_mem => absurd h_mem List.not_mem_nil
    exact .changes h_stop.changes
  | announce result => exact h_same rfl rfl

end GroupCommit.Slot
