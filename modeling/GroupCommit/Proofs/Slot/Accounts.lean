import GroupCommit.Proofs.Slot.Contents
import GroupCommit.Proofs.Slot.Generations

/-!
# The flush that is out

A flush that was given out and has not come back belongs to the generation that the slot is in, which
takes no bytes until then. That is so in every run, also after steps that ended in a fault.

* `Slot.Shut`, `Slot.shut_run`: slots that neither take bytes nor give out a flush.
* `Slot.given_run`: a step that gives out a flush.
* `Slot.Lent`, `Slot.lent`: the flush that is out.
-/

namespace GroupCommit.Slot

variable {slot s s' : Slot} {m : Machine Slot Task Result} {es : List (Event Task Empty)}
  {H N : History} {call i tag : Nat} {task : Task} {ticket : Ticket} {flush : Flush}
  {o : Move Task Result × Slot}

/-! ### Slots that are shut -/

/-- The slot neither takes bytes nor gives out a flush. -/
def Shut (s : Slot) : Prop := s.phase ≠ .filling ∧ s.phase ≠ .full

theorem Stopped.shut (h : s.Stopped) : s.Shut := by
  obtain ⟨reason, h_phase⟩ := h
  exact ⟨by simp [h_phase], by simp [h_phase]⟩

/-- Quiet steps open no slot. -/
theorem Quiet.shut (h : Quiet s s') (h_shut : s.Shut) : s'.Shut := by
  rcases h.phase with h_same | h_taken | h_taken
  · exact ⟨h_same ▸ h_shut.1, h_same ▸ h_shut.2⟩
  · exact ⟨by simp [h_taken], by simp [h_taken]⟩
  · exact ⟨by simp [h_taken], by simp [h_taken]⟩

/-- No change opens a slot that is shut. -/
theorem Change.shut (h : Change call s N s') (h_shut : s.Shut) : s'.Shut := by
  cases h with
  -- a slot that is shut takes no fill and gives out no flush
  | fill h_open => exact absurd h_open h_shut.1
  | claimFull h_full => exact absurd h_full h_shut.2
  | claimEarly h_open => exact absurd h_open h_shut.1
  | stop h_notes => exact Stopped.shut ⟨_, rfl⟩
  | count n => exact h_shut
  | spare => exact h_shut
  | skipLater => exact h_shut

theorem Changes.shut (h : Changes call s N s') (h_shut : s.Shut) : s'.Shut := by
  induction h with
  | refl s => exact h_shut
  | step h h_rest ih => exact ih (h.shut h_shut)

/-- A slot gives out a flush of its generation, and is shut from then on. -/
theorem Change.gives (h : Change call s N s') (h_mem : .claimed i flush ∈ N) :
    ¬ s.Shut ∧ flush.tag = s'.tag ∧ s'.Shut := by
  obtain ⟨rfl, -⟩ := h.claims h_mem
  cases h with
  | claimFull h_full => exact ⟨fun h_shut => h_shut.2 h_full, rfl, nofun, nofun⟩
  | claimEarly h_open => exact ⟨fun h_shut => h_shut.1 h_open, rfl, nofun, nofun⟩
  | stop h_notes =>
    obtain ⟨_, h_eq⟩ := h_notes _ (List.mem_singleton_self _)
    cases h_eq

/-- Within a step a flush is given out by an open slot, which is shut behind it. -/
theorem Changes.gives (h : Changes call s N s') (h_mem : .claimed i flush ∈ N) :
    ¬ s.Shut ∧ flush.tag = s'.tag ∧ s'.Shut := by
  induction h with
  | refl s => cases h_mem
  | step h h_rest ih =>
    rcases List.mem_append.1 h_mem with h_here | h_later
    · obtain ⟨h_open, h_tag, h_shut⟩ := h.gives h_here
      -- it is given out first, and what follows keeps the slot shut
      exact ⟨h_open, h_tag.trans h_rest.same.1.symm, h_rest.shut h_shut⟩
    · obtain ⟨h_open, h_after⟩ := ih h_later
      -- it is given out later, so the slot was open until then
      exact ⟨fun h_shut => h_open (h.shut h_shut), h_after⟩

/-- The flush that a step gives its caller. -/
def given? : Move Task Result → Option Flush
  | .finish (.ok (.joined flush)) => flush
  | _ => none

/-- What is noted at the end of a step takes the flush that the step gives out. -/
theorem claimed_endNotes (call : Nat) (ticket : Option Ticket) (move : Move Task Result) :
    (endNotes call ticket move).claimed = (given? move).toList := by
  unfold endNotes
  split
  · rfl
  · cases ticket <;> rfl
  · next h_some h_none =>
    unfold given?
    split
    · next flush =>
      cases flush with
      | none => exact absurd rfl h_none
      | some flush => exact absurd rfl (h_some flush)
    · rfl

/-- A step notes the flush that it gives its caller. -/
theorem claimed_stepNotes (s : Slot) (call : Nat) (task : Task) :
    (s.stepNotes call task).claimed = (given? (run task s).1).toList := by
  -- bytes that are filled in are noted, but give no flush
  have h_fill : ∀ tag offset data, (s.fillNotes call tag offset data).claimed = [] := by
    intro tag offset data
    rw [fillNotes]
    split <;> rfl
  cases task with
  | acquire tag =>
    rw [run, whenAccepted]
    split <;> rfl
  | tryAcquire tag =>
    rw [run]
    cases s.accepts tag <;> rfl
  | fill tag offset data =>
    rw [stepNotes, h_fill, run, whenAccepted]
    split
    · rfl
    · rfl
    · rw [copyThen]
      split
      · rfl
      · split <;> rfl
  | fillJoin tag offset data =>
    rw [stepNotes, History.claimed_append, h_fill, claimed_endNotes]
    rfl
  | join ticket => exact claimed_endNotes _ _ _
  | rejoin ticket => exact claimed_endNotes _ _ _
  | joinLate ticket => exact claimed_endNotes _ _ _
  -- what hands a flush back gives none out
  | release flush =>
    rw [stepNotes, run]
    rcases s.handBack flush with ⟨(error | broken) | _, s'⟩ <;> rfl
  | abandon flush reason => rfl
  | skip tag =>
    rw [run]
    rcases s.skipOver tag with ⟨broken | _, s'⟩ <;> rfl
  | poison reason => rfl
  | announce result => rfl

/-- A step that gives out a flush is made up of changes, and notes the flush. -/
theorem changes_of_given (h : given? (run task s).1 = some flush) :
    ∃ i, Changes 0 s (s.stepNotes 0 task) (run task s).2 ∧ .claimed i flush ∈ s.stepNotes 0 task := by
  have h_sound : ∀ broken, (run task s).1 ≠ faulting broken := by
    intro broken h_fault
    rw [h_fault] at h
    cases h
  have h_mem : flush ∈ (s.stepNotes 0 task).claimed := by
    rw [claimed_stepNotes, h]
    exact List.mem_singleton_self flush
  obtain ⟨n, h_note, h_flush⟩ := List.mem_filterMap.1 h_mem
  -- of all notes only one tells of a flush that is taken
  cases n <;> cases h_flush
  cases run_effect 0 h_sound with
  | changes h_changes => exact ⟨_, h_changes, h_note⟩
  | settling h_change => exact absurd h_note h_change.not_claimed

/-- A step that gives out a flush. -/
theorem given_run (h : given? (run task s).1 = some flush) :
    ¬ s.Shut ∧ flush.tag = (run task s).2.tag ∧ (run task s).2.Shut := by
  obtain ⟨i, h_changes, h_note⟩ := changes_of_given h
  exact h_changes.gives h_note

/-- A slot that is shut records a skip at most. -/
theorem skipOver_shut (h : s.Shut) (tag : Nat) :
    ∃ skipped, (s.skipOver tag).2 = { s with skipped } := by
  unfold skipOver
  split
  · exact ⟨_, rfl⟩
  · split
    · -- the slot does not move on, since it is not filling
      rw [if_neg fun h_open => h.1 h_open.1]
      exact ⟨_, rfl⟩
    · split
      · exact ⟨_, rfl⟩
      · split <;> exact ⟨_, rfl⟩

/-- A step that waits for the bytes of a ticket wakes nobody. -/
theorem Outcome.quiet (h : Outcome task s o) (h_ends : WaitEnds ticket o.1) : Quiet s o.2 := by
  cases h with
  | park h_quiet => exact h_quiet
  | join h_quiet => exact h_quiet
  | finish h_quiet => exact h_quiet
  | announce => cases h_ends

/-- **A slot that is shut stays so**, and in its generation, until a flush is handed back. -/
theorem shut_run (h : s.Shut) (h_flush : task.flush? = none) :
    (run task s).2.tag = s.tag ∧ (run task s).2.Shut := by
  -- a slot that is shut accepts no generation, so nothing is copied into it
  have h_closed : ∀ tag, s.accepts tag ≠ .ok true := fun tag h_open =>
    h.1 (accepts_eq_true.1 h_open).2.2
  -- and waits leave it in its generation
  have h_quiet : ∀ {s'}, Quiet s s' → s'.tag = s.tag ∧ s'.Shut := fun h_quiet =>
    ⟨h_quiet.tag, h_quiet.shut h⟩
  cases task with
  | acquire tag =>
    rw [run, (whenAccepted_closed (h_closed tag)).1]
    exact ⟨rfl, h⟩
  | tryAcquire tag => exact ⟨rfl, h⟩
  | fill tag offset data =>
    rw [run, (whenAccepted_closed (h_closed tag)).1]
    exact ⟨rfl, h⟩
  | fillJoin tag offset data =>
    rw [run, (whenAccepted_closed (h_closed tag)).1]
    exact ⟨rfl, h⟩
  | join ticket =>
    have h_counted : Quiet s { s with waiters := s.waiters + 1 } := ⟨rfl, rfl, .inl rfl⟩
    have h_outcome : Outcome (.join ticket) _ _ := .await { s with waiters := s.waiters + 1 } ticket
    exact h_quiet (h_counted.trans (h_outcome.quiet (waitEnds_await _ _)))
  | rejoin ticket =>
    have h_outcome : Outcome (.rejoin ticket) _ _ := .await s ticket
    exact h_quiet (h_outcome.quiet (waitEnds_await _ _))
  | joinLate ticket =>
    have h_outcome : Outcome (.joinLate ticket) s (s.pollOr ticket fun s => s.giveUp ticket) :=
      .pollOr fun _ => .giveUp s ticket
    exact h_quiet (h_outcome.quiet (waitEnds_pollOr (fun s => waitEnds_giveUp s ticket) s))
  | release flush => cases h_flush
  | abandon flush reason => cases h_flush
  | skip tag =>
    obtain ⟨skipped, h_eq⟩ := skipOver_shut h tag
    rw [run]
    cases h_skip : s.skipOver tag with
    | mk result s' =>
      rw [h_skip] at h_eq
      obtain rfl : s' = { s with skipped } := h_eq
      cases result <;> exact ⟨rfl, h⟩
  | poison reason => exact ⟨rfl, Stopped.shut ⟨_, rfl⟩⟩
  | announce result => exact ⟨rfl, h⟩

/-! ### The flush that is out -/

/-- At most one flush is out, and it belongs to the generation of the slot, which is shut. -/
def Lent (s : Slot) (H : History) : Prop :=
  ∃ out : Option Flush,
    (∀ flush, H.claimed.count flush = H.returned.count flush + if out = some flush then 1 else 0) ∧
      ∀ flush, out = some flush → flush.tag = s.tag ∧ s.Shut

/-- A flush that was given out more often than it has come back is the one that is out. -/
theorem out_of_owned {out : Option Flush}
    (h_count : ∀ flush, H.claimed.count flush =
      H.returned.count flush + if out = some flush then 1 else 0)
    (h_owned : H.returned.count flush < H.claimed.count flush) : out = some flush := by
  by_contra h_other
  have h_flush := h_count flush
  rw [if_neg h_other] at h_flush
  omega

/-- Whoever still has a flush has one of the slot's generation. -/
theorem Lent.tag_eq (h : Lent s H) (h_owned : H.returned.count flush < H.claimed.count flush) :
    flush.tag = s.tag := by
  obtain ⟨out, h_count, h_out⟩ := h
  exact (h_out flush (out_of_owned h_count h_owned)).1

/-- Whoever hands a flush back is given none. -/
theorem given_eq_none (h : task.flush? = some flush) : given? (run task s).1 = none := by
  cases task with
  | release flush =>
    rw [run]
    rcases s.handBack flush with ⟨(error | broken) | _, s'⟩ <;> rfl
  | abandon flush reason => rfl
  | _ => cases h

/-- **A step keeps the account of the flush that is out.** -/
theorem Lent.step (h : Lent s H)
    (h_owned : ∀ flush, task.flush? = some flush → H.returned.count flush < H.claimed.count flush) :
    Lent (run task s).2 (H ++ s.stepNotes call task) := by
  obtain ⟨out, h_count, h_out⟩ := h
  have h_claimed : ∀ flush, (H ++ s.stepNotes call task).claimed.count flush =
      H.claimed.count flush + (given? (run task s).1).toList.count flush := fun flush => by
    rw [History.claimed_append, List.count_append, claimed_stepNotes]
  have h_returned : ∀ flush, (H ++ s.stepNotes call task).returned.count flush =
      H.returned.count flush + task.flush?.toList.count flush := fun flush => by
    rw [History.returned_append, List.count_append, returned_stepNotes]
  cases h_flush : task.flush? with
  | some flush =>
    -- the flush that is out comes back
    obtain rfl := out_of_owned h_count (h_owned flush h_flush)
    refine ⟨none, fun flush' => ?_, nofun⟩
    rw [h_claimed, h_returned, given_eq_none h_flush, h_flush, h_count flush']
    simp [List.count_singleton]
  | none =>
    cases h_given : given? (run task s).1 with
    | some flush =>
      -- none was out, since the slot was not shut
      obtain ⟨h_open, h_tag, h_shut⟩ := given_run h_given
      obtain rfl : out = none := Option.eq_none_iff_forall_ne_some.2 fun flush' h_some =>
        h_open (h_out flush' h_some).2
      refine ⟨some flush, fun flush' => ?_, ?_⟩
      · rw [h_claimed, h_returned, h_given, h_flush, h_count flush']
        simp [List.count_singleton]
      · rintro flush' ⟨⟩
        exact ⟨h_tag, h_shut⟩
    | none =>
      refine ⟨out, fun flush' => ?_, fun flush' h_some => ?_⟩
      · rw [h_claimed, h_returned, h_given, h_flush, h_count flush']
        simp
      · obtain ⟨h_tag, h_shut⟩ := h_out flush' h_some
        obtain ⟨h_same, h_still⟩ := shut_run h_shut h_flush
        exact ⟨h_tag.trans h_same.symm, h_still⟩

/-- **The flush that is out** in a run. -/
theorem lent (h_orderly : Orderly slot es)
    (h_steps : (Machine.idle slot).steps program es = some m) : Lent m.state (history slot es) := by
  induction es using List.reverseRecOn generalizing m with
  | nil => exact ⟨none, fun flush => rfl, nofun⟩
  | append_singleton es e ih =>
    obtain ⟨m₁, h₁, h_step⟩ := Machine.steps_concat _ h_steps
    have h_before := ih h_orderly.of_append h₁
    rw [history_concat h₁ h_step]
    rcases event_cases h_step with ⟨_, -, h_notes, h_state⟩ | ⟨i, task, h_performs, h_state, -⟩
    · rw [h_notes, List.append_nil, h_state]
      exact h_before
    · -- who hands a flush back has it, since the script is orderly
      have h_owned := owned_of_performs h_orderly.of_append h₁ h_performs
      rw [h_performs.notes, returned_stepNotes] at h_owned
      rw [h_performs.notes, h_state]
      exact h_before.step fun flush h_flush => h_owned flush (Option.mem_toList.2 h_flush)

end GroupCommit.Slot
