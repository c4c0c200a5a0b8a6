import GroupCommit.Proofs.Slot.Steps

/-!
# What all operations keep

A property of slots that each operation keeps is kept by every step of a call, whether the step faults or
not. Most properties that speak of the generation of a slot are kept only by the operations that do not
end one.

* `Slot.KeepsWithin`, `Slot.keepsWithin_run`: what all operations keep that do not end a generation.
* `Slot.Keeps`, `Slot.keeps_run`: what all operations keep, every step keeps.
* `Slot.KeepsThrough`: what is kept when a generation ends, from the pieces of which its end is made.
* `Slot.keeps_sizes`, `Slot.keeps_numbered`: gaps and capacities, and the numbers of early flushes.
-/

namespace GroupCommit.Slot

variable {s : Slot} {tag : Nat} {task : Task} {ticket : Ticket} {may : Nat → Bytes → Prop}
  {P : Slot → Prop}

/-! ### What every step keeps -/

/-- A property of slots that all operations keep which do not end a generation, each where the calls come
to use it, if only such bytes are copied in as `may` be. -/
structure KeepsWithin (may : Nat → Bytes → Prop) (P : Slot → Prop) : Prop where
  count : ∀ {s} n, P s → P { s with waiters := n }
  copyIn : ∀ {s} offset data, may offset data → P s → s.phase = .filling → P (s.copyIn offset data).2
  complete : ∀ {s}, P s → s.phase = .filling → s.dirty = s.capacity → P { s with phase := .full }
  claimFull : ∀ {s}, P s → s.phase = .full → P s.claimFull.2
  claimEarly : ∀ {s}, P s → s.phase = .filling → P s.claimEarly.2
  stop : ∀ {s} reason buffer, P s → P { s with phase := .poisoned reason, buffer }

/-- A property of slots that all operations keep. -/
structure Keeps (may : Nat → Bytes → Prop) (P : Slot → Prop) : Prop extends KeepsWithin may P where
  handBack : ∀ {s} flush, P s → P (s.handBack flush).2
  skipOver : ∀ {s} tag, P s → P (s.skipOver tag).2

namespace KeepsWithin

variable (h : KeepsWithin may P)

include h

theorem leave (hs : P s) : P s.leave.2 := by
  unfold Slot.leave
  split
  · exact hs
  · exact h.count _ hs

/-- A poll may claim the flush of a full slot. -/
theorem poll (ticket : Ticket) (hs : P s) : P (s.poll ticket).2 := by
  unfold Slot.poll
  split
  · exact hs
  split
  · exact hs
  split
  · exact hs
  split
  · next h_full => exact h.claimFull hs h_full
  · exact hs

theorem claimAtDeadline (ticket : Ticket) (hs : P s) : P (s.claimAtDeadline ticket).2 := by
  unfold Slot.claimAtDeadline
  split
  · next h_open =>
    split
    · exact hs
    · exact h.claimEarly hs h_open
  · exact hs

theorem leaveWith (hs : P s) (result : Result) : P (s.leaveWith result).2 := by
  have h_leave := h.leave hs
  unfold Slot.leaveWith
  cases h_eq : s.leave with
  | mk left s' =>
    rw [h_eq] at h_leave
    cases left <;> exact h_leave

/-- A poll and what may follow it. -/
theorem pollOr {wait : Slot → Move Task Result × Slot} (hs : P s)
    (h_wait : ∀ {s'}, P s' → P (wait s').2) : P (s.pollOr ticket wait).2 := by
  have h_poll := h.poll ticket hs
  unfold Slot.pollOr
  cases h_eq : s.poll ticket with
  | mk found s' =>
    rw [h_eq] at h_poll
    rcases found with _ | (error | broken) | flush
    · exact h_wait h_poll
    · exact h.leaveWith h_poll _
    · exact h_poll
    · exact h.leaveWith h_poll _

theorem await (hs : P s) : P (s.await ticket).2 := h.pollOr hs id

/-- A call gives up by leaving and claiming. -/
theorem giveUp (hs : P s) : P (s.giveUp ticket).2 := by
  have h_leave := h.leave hs
  unfold Slot.giveUp
  cases h_eq : s.leave with
  | mk left s₁ =>
    rw [h_eq] at h_leave
    cases left with
    | error broken => exact h_leave
    | ok _ =>
      have h_claim := h.claimAtDeadline ticket h_leave
      dsimp only
      cases h_eq' : s₁.claimAtDeadline ticket with
      | mk claimed s₂ =>
        rw [h_eq'] at h_claim
        rcases claimed with broken | _ | flush <;> exact h_claim

/-- A step that copies bytes in where its generation is open. -/
theorem copying {offset : Nat} {data : Bytes}
    {completing other : Ticket → Slot → Move Task Result × Slot} (h_may : may offset data) (hs : P s)
    (h_completing : ∀ ticket {s'}, P s' → s'.phase = .filling → s'.dirty = s'.capacity →
      P (completing ticket s').2)
    (h_other : ∀ ticket {s'}, P s' → P (other ticket s').2) :
    P (s.whenAccepted tag task (s.copyThen offset data completing other)).2 := by
  unfold whenAccepted
  split
  · exact hs
  · exact hs
  · next h_accepts =>
    obtain ⟨-, -, h_open⟩ := accepts_eq_true.1 h_accepts
    have h_copied := h.copyIn offset data h_may hs h_open
    -- the copy leaves the phase, so the slot is still open when its bytes complete it
    obtain ⟨dirty, highWater, buffer, h_frame⟩ := copyIn_frame s offset data
    unfold copyThen
    cases h_copy : s.copyIn offset data with
    | mk copied s' =>
      rw [h_copy] at h_copied h_frame
      have h_phase : s'.phase = .filling := (congrArg phase h_frame).trans h_open
      cases copied with
      | error broken => exact h_copied
      | ok ticket =>
        dsimp only
        split
        · next h_full => exact h_completing ticket h_copied h_phase h_full
        · exact h_other ticket h_copied

end KeepsWithin

/-- The task copies these bytes in, to this place. -/
inductive Task.Copies : Task → Nat → Bytes → Prop
  | fill {tag offset : Nat} {data : Bytes} : Copies (.fill tag offset data) offset data
  | fillJoin {tag offset : Nat} {data : Bytes} : Copies (.fillJoin tag offset data) offset data

/-- What the operations within a generation keep, every step keeps that does not end one. -/
theorem keepsWithin_run (h : KeepsWithin may P) (task : Task) (h_ends : ¬ Ends task)
    (h_task : ∀ offset data, task.Copies offset data → may offset data) (hs : P s) :
    P (run task s).2 := by
  cases task with
  | acquire tag =>
    rw [run, whenAccepted]
    split <;> exact hs
  | tryAcquire tag => exact hs
  | fill tag offset data =>
    exact h.copying (h_task _ _ .fill) hs (fun _ _ hs' h_open h_full => h.complete hs' h_open h_full)
      fun _ _ hs' => hs'
  | fillJoin tag offset data =>
    -- the slot is full in between
    refine h.copying (h_task _ _ .fillJoin) hs (fun _ s' hs' h_open h_full => ?_) fun _ _ hs' => hs'
    exact h.claimFull (s := { s' with phase := .full }) (h.complete hs' h_open h_full) rfl
  | join ticket => exact h.await (h.count (s.waiters + 1) hs)
  | rejoin ticket => exact h.await hs
  | joinLate ticket => exact h.pollOr hs h.giveUp
  | release flush => exact absurd (.release flush) h_ends
  | abandon flush reason => exact h.stop (s := s) _ flush.buffer hs
  | skip tag => exact absurd (.skip tag) h_ends
  | poison reason => exact h.stop (s := s) _ s.buffer hs
  | announce result => exact hs

/-- What the step of a release does to the slot. -/
theorem run_release_state (s : Slot) (flush : Flush) :
    (run (.release flush) s).2 = (s.handBack flush).2 := by
  rw [run]
  rcases s.handBack flush with ⟨(error | broken) | _, s'⟩ <;> rfl

/-- What the step of a skip does to the slot. -/
theorem run_skip_state (s : Slot) (tag : Nat) :
    (run (.skip tag) s).2 = (s.skipOver tag).2 := by
  rw [run]
  rcases s.skipOver tag with ⟨broken | _, s'⟩ <;> rfl

/-- **What all operations keep, every step keeps**, whether it faults or not. -/
theorem keeps_run (h : Keeps may P) (task : Task)
    (h_task : ∀ offset data, task.Copies offset data → may offset data) (hs : P s) :
    P (run task s).2 := by
  by_cases h_ends : Ends task
  · cases h_ends with
    | release flush =>
      rw [run_release_state]
      exact h.handBack flush hs
    | skip tag =>
      rw [run_skip_state]
      exact h.skipOver tag hs
  · exact keepsWithin_run h.toKeepsWithin task h_ends h_task hs

/-! ### The end of a generation -/

/-- A slot that is to go on has only cleared its buffer, or is in a later generation then, without
bytes. -/
theorem advance_cases (h_gap : 0 < s.gap) :
    (∃ buffer, s.advance.2 = { s with buffer }) ∨
      (s.tag < s.advance.2.tag ∧ ∃ tag skipped buffer, s.advance.2 =
        { s with tag, dirty := 0, highWater := 0, phase := .filling, skipped, buffer }) := by
  unfold advance
  split
  · exact .inl ⟨s.buffer, rfl⟩
  · dsimp only
    split
    · -- the generation is left, though the skips may then run out of addresses
      refine .inr ⟨Nat.lt_of_lt_of_le ?_ (passSkips_cases _ _).1, ?_⟩
      · exact Nat.lt_add_of_pos_right h_gap
      · obtain ⟨tag, skipped, h_eq⟩ := passSkips_frame s.skipped.length
          { s with
            buffer := s.buffer.clear s.highWater
            tag := s.tag + s.gap
            dirty := 0
            highWater := 0
            phase := .filling }
        exact ⟨tag, skipped, _, h_eq⟩
    · exact .inl ⟨_, rfl⟩

/-- A property of slots that all operations keep within a generation, and the pieces keep of which those
are made that may end one. -/
structure KeepsThrough (may : Nat → Bytes → Prop) (P : Slot → Prop) : Prop
    extends KeepsWithin may P where
  buffer : ∀ {s} buffer, P s → P { s with buffer }
  later : ∀ {s} skipped, P s → P { s with skipped }
  reopen : ∀ {s} durable, P s → s.phase = .reserving → P { s with durable, phase := .filling }
  advance : ∀ {s}, P s → s.phase = .flushing ∨ (s.phase = .filling ∧ s.dirty = 0) → P s.advance.2

/-- Handing back and skipping are made of the changes that a property is kept through. -/
theorem KeepsThrough.keeps (h : KeepsThrough may P) : Keeps may P where
  toKeepsWithin := h.toKeepsWithin
  handBack := fun {s} flush hs => by
    have h_back : P { s with buffer := flush.buffer } := h.buffer flush.buffer hs
    unfold handBack
    split
    · exact hs
    · dsimp only
      split
      · exact h_back
      · -- a full flush ends the generation
        next h_phase _ => exact h.advance h_back (.inl h_phase)
      · -- an early one leaves it open
        next h_phase _ => exact h.reopen _ h_back h_phase
      · exact h_back
  skipOver := fun {s} tag hs => by
    unfold skipOver
    split
    · exact hs
    split
    · split
      · -- a skip of the generation that is open and empty
        next h_open => exact h.advance hs (.inr h_open)
      · exact hs
    split
    · exact hs
    split
    · exact hs
    · exact h.later _ hs

/-! ### Sizes and numbers -/

/-- The sizes of a slot stay what they were. -/
theorem keeps_sizes (gap capacity : Nat) :
    Keeps (fun _ _ => True) fun s => s.gap = gap ∧ s.capacity = capacity where
  count := fun n h => h
  copyIn := fun {s} offset data _ h _ => by
    obtain ⟨dirty, highWater, buffer, h_eq⟩ := copyIn_frame s offset data
    rw [h_eq]
    exact h
  complete := fun h _ _ => h
  claimFull := fun h _ => h
  claimEarly := fun h _ => h
  handBack := fun {s} flush h => by
    obtain ⟨tag, dirty, highWater, phase, skipped, durable, buffer, h_eq⟩ := handBack_frame s flush
    rw [h_eq]
    exact h
  skipOver := fun {s} tag h => by
    obtain ⟨tag', dirty, highWater, phase, skipped, buffer, h_eq⟩ := skipOver_frame s tag
    rw [h_eq]
    exact h
  stop := fun reason buffer h => h

/-- A flush that comes back gets the number of the last claim, if it was an early one. -/
theorem handBack_durable (s : Slot) (flush : Flush) :
    (s.handBack flush).2.claims = s.claims ∧ ((s.handBack flush).2.durable = s.durable ∨
      (s.handBack flush).2.durable.claim = s.claims) := by
  unfold handBack
  split
  · exact ⟨rfl, .inl rfl⟩
  · dsimp only
    split
    · exact ⟨rfl, .inl rfl⟩
    · obtain ⟨tag, dirty, highWater, phase, skipped, buffer, h_eq⟩ :=
        advance_frame { s with buffer := flush.buffer }
      dsimp only
      rw [h_eq]
      exact ⟨rfl, .inl rfl⟩
    · -- an early flush
      exact ⟨rfl, .inr rfl⟩
    · exact ⟨rfl, .inl rfl⟩

/-- The early flush that is durable is one of those that were given out. -/
theorem keeps_numbered : Keeps (fun _ _ => True) fun s => s.durable.claim ≤ s.claims where
  count := fun n h => h
  copyIn := fun {s} offset data _ h _ => by
    obtain ⟨dirty, highWater, buffer, h_eq⟩ := copyIn_frame s offset data
    rw [h_eq]
    exact h
  complete := fun h _ _ => h
  claimFull := fun h _ => h
  claimEarly := fun h _ => h.trans (Nat.le_succ _)
  handBack := fun {s} flush h => by
    -- the slot counts as durable what it did, or the last claim
    obtain ⟨h_claims, h_same | h_last⟩ := handBack_durable s flush
    · rw [h_claims, h_same]
      exact h
    · rw [h_claims]
      exact h_last.le
  skipOver := fun {s} tag h => by
    obtain ⟨tag', dirty, highWater, phase, skipped, buffer, h_eq⟩ := skipOver_frame s tag
    rw [h_eq]
    exact h
  stop := fun reason buffer h => h

end GroupCommit.Slot
