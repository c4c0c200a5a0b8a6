import GroupCommit.Proofs.Slot.Accounts
import GroupCommit.Proofs.Slot.Closure

/-!
# Full flushes

A generation ends with its full flush: once that has been given out, the slot is in the generation only
until the flush is handed back, and takes no bytes and gives out nothing meanwhile. So no generation has
two full flushes, in any run of a slot: whatever callers hand back, and also after steps that ended in a
fault.

* `Slot.keeps_steps`: what all operations keep holds throughout a run.
* `Slot.Spent`: the full flush of a generation has been given out.
* `Slot.full_flush_once`: a generation has one full flush at most.
-/

namespace GroupCommit.Slot

variable {slot s s' : Slot} {m m' : Machine Slot Task Result} {es : List (Event Task Empty)}
  {e : Event Task Empty} {H N : History} {call i tag : Nat} {task : Task} {ticket : Ticket}
  {flush : Flush} {P : Slot → Prop}

/-! ### Runs -/

/-- What all operations keep, every event keeps. -/
theorem keeps_step (h : Keeps (fun _ _ => True) P) (hs : P m.state)
    (h_step : m.step program e = some m') : P m'.state := by
  rcases event_cases h_step with ⟨_, -, -, h_state⟩ | ⟨i, task, -, h_state, -⟩
  · rw [h_state]
    exact hs
  · rw [h_state]
    exact keeps_run h task (fun _ _ _ => trivial) hs

/-- What all operations keep holds throughout a run. -/
theorem keeps_steps (h : Keeps (fun _ _ => True) P) (h_slot : P slot)
    (h_steps : (Machine.idle slot).steps program es = some m) : P m.state := by
  -- by induction on the events, the last one first
  induction es using List.reverseRecOn generalizing m with
  | nil =>
    cases h_steps
    exact h_slot
  | append_singleton es e ih =>
    obtain ⟨m₁, h₁, h_step⟩ := Machine.steps_concat _ h_steps
    exact keeps_step h (ih h₁) h_step

/-- The gap of a slot never changes. -/
theorem gap_steps (h_steps : (Machine.idle slot).steps program es = some m) :
    m.state.gap = slot.gap :=
  (keeps_steps (keeps_sizes slot.gap slot.capacity) ⟨rfl, rfl⟩ h_steps).1

/-! ### Generations whose full flush was given out -/

/-- The full flush of the generation `t` has been given out: it is out, or it has ended the generation,
or the slot is stopped. -/
structure Spent (t : Nat) (s : Slot) : Prop where
  gap_pos : 0 < s.gap
  spent : t < s.tag ∨ s.Stopped ∨ (s.tag = t ∧ s.phase = .flushing)

namespace Spent

variable {t : Nat}

/-- Whether a generation is spent shows in the phase and the generation alone. -/
theorem congr (h : Spent t s) (h_gap : s'.gap = s.gap) (h_tag : s'.tag = s.tag)
    (h_phase : s'.phase = s.phase) : Spent t s' := by
  refine ⟨h_gap ▸ h.gap_pos, ?_⟩
  rw [Stopped, h_tag, h_phase]
  exact h.spent

/-- A spent generation is not ahead of the slot. -/
theorem le (h : Spent t s) (h_live : ¬ s.Stopped) : t ≤ s.tag := by
  rcases h.spent with h_lt | h_stopped | ⟨h_tag, -⟩
  · exact h_lt.le
  · exact absurd h_stopped h_live
  · exact h_tag.ge

/-- A slot that goes on to the next generation leaves the spent one behind. -/
theorem advance (h : Spent t s) (h_live : ¬ s.Stopped) : Spent t s.advance.2 := by
  rcases advance_cases h.gap_pos with ⟨buffer, h_eq⟩ | ⟨h_lt, tag, skipped, buffer, h_eq⟩
  · rw [h_eq]
    exact h.congr rfl rfl rfl
  · rw [h_eq] at h_lt ⊢
    exact ⟨h.gap_pos, .inl ((h.le h_live).trans_lt h_lt)⟩

/-- A slot that is open or full has gone on. -/
theorem lt (h : Spent t s) (h_phase : s.phase = .filling ∨ s.phase = .full) : t < s.tag := by
  rcases h.spent with h_lt | ⟨reason, h_stopped⟩ | ⟨-, h_flushing⟩
  · exact h_lt
  · rw [h_stopped] at h_phase
    rcases h_phase with h_phase | h_phase <;> cases h_phase
  · rw [h_flushing] at h_phase
    rcases h_phase with h_phase | h_phase <;> cases h_phase

/-- Nothing makes a spent generation fresh again. -/
theorem keepsThrough (t : Nat) : KeepsThrough (fun _ _ => True) (Spent t) where
  count := fun n h => h.congr rfl rfl rfl
  copyIn := fun {s} offset data _ h _ => by
    obtain ⟨dirty, highWater, buffer, h_eq⟩ := copyIn_frame s offset data
    rw [h_eq]
    exact h.congr rfl rfl rfl
  -- a slot that can be filled has left the spent generation behind
  complete := fun h h_open _ => ⟨h.gap_pos, .inl (h.lt (.inl h_open))⟩
  claimFull := fun h h_full => ⟨h.gap_pos, .inl (h.lt (.inr h_full))⟩
  claimEarly := fun h h_open => ⟨h.gap_pos, .inl (h.lt (.inl h_open))⟩
  stop := fun reason buffer h => ⟨h.gap_pos, .inr (.inl ⟨reason, rfl⟩)⟩
  buffer := fun buffer h => h.congr rfl rfl rfl
  later := fun skipped h => h.congr rfl rfl rfl
  reopen := fun durable h h_phase => by
    -- an early flush is out, so the slot has gone on from the spent generation
    refine ⟨h.gap_pos, .inl ?_⟩
    rcases h.spent with h_lt | ⟨reason, h_stopped⟩ | ⟨-, h_flushing⟩
    · exact h_lt
    · cases h_stopped.symm.trans h_phase
    · cases h_flushing.symm.trans h_phase
  advance := fun h h_phase =>
    h.advance (h_phase.elim (fun h_phase => not_stopped h_phase nofun)
      fun h_open => not_stopped h_open.1 nofun)

theorem keeps (t : Nat) : Keeps (fun _ _ => True) (Spent t) := (keepsThrough t).keeps

/-- A spent generation has no flush to give out any more. -/
theorem not_given (h : Spent t s) (h_given : given? (run task s).1 = some flush) : flush.tag ≠ t := by
  obtain ⟨h_open, h_tag, -⟩ := given_run h_given
  rcases h.spent with h_lt | h_stopped | ⟨-, h_flushing⟩
  · have h_le := (onward_run task s).tag_le
    omega
  · exact absurd h_stopped.shut h_open
  · exact absurd ⟨by simp [h_flushing], by simp [h_flushing]⟩ h_open

end Spent

/-- The full flush of a generation spends it. -/
theorem Change.spends (h : Change call s N s') (h_gap : 0 < s.gap) (h_mem : .claimed i flush ∈ N)
    (h_kind : flush.kind = .full) : Spent flush.tag s' := by
  obtain ⟨rfl, -⟩ := h.claims h_mem
  cases h with
  | claimFull h_full => exact ⟨h_gap, .inr (.inr ⟨rfl, rfl⟩)⟩
  -- an early flush is not the full one
  | claimEarly h_open => cases h_kind
  | stop h_notes =>
    obtain ⟨_, h_eq⟩ := h_notes _ (List.mem_singleton_self _)
    cases h_eq

/-- A change leaves spent what was spent. -/
theorem Change.spent {t : Nat} (h : Change call s N s') (h_spent : Spent t s) : Spent t s' := by
  have h_keeps := Spent.keeps t
  cases h with
  | count n => exact h_keeps.count n h_spent
  -- a slot that is filling has gone beyond the spent generation
  | fill h_open => exact ⟨h_spent.gap_pos, .inl (h_spent.lt (.inl h_open))⟩
  | claimFull h_full => exact h_keeps.claimFull h_spent h_full
  | claimEarly h_open => exact h_keeps.claimEarly h_spent h_open
  | spare => exact h_spent
  | skipLater => exact h_spent.congr rfl rfl rfl
  | stop => exact h_keeps.stop _ _ h_spent

theorem Change.gap_eq (h : Change call s N s') : s'.gap = s.gap := by
  cases h <;> rfl

theorem Changes.spent {t : Nat} (h : Changes call s N s') (h_spent : Spent t s) : Spent t s' := by
  induction h with
  | refl s => exact h_spent
  | step h h_rest ih => exact ih (h.spent h_spent)

/-- The same of the changes of a whole step. -/
theorem Changes.spends (h : Changes call s N s') (h_gap : 0 < s.gap) (h_mem : .claimed i flush ∈ N)
    (h_kind : flush.kind = .full) : Spent flush.tag s' := by
  induction h with
  | refl s => cases h_mem
  | step h h_rest ih =>
    rcases List.mem_append.1 h_mem with h_here | h_later
    · exact h_rest.spent (h.spends h_gap h_here h_kind)
    · exact ih (h.gap_eq ▸ h_gap) h_later

/-- A step that gives out a full flush spends the generation. -/
theorem spent_run (h_gap : 0 < s.gap) (h_given : given? (run task s).1 = some flush)
    (h_kind : flush.kind = .full) : Spent flush.tag (run task s).2 := by
  obtain ⟨i, h_changes, h_note⟩ := changes_of_given h_given
  exact h_changes.spends h_gap h_note h_kind

/-! ### One full flush for each generation -/

/-- The full flushes of the generation `t` that were given out. -/
def History.fullFlushes (H : History) (t : Nat) : List Flush :=
  H.claimed.filter fun flush => flush.tag = t ∧ flush.kind = .full

theorem History.fullFlushes_append (H N : History) (t : Nat) :
    fullFlushes (H ++ N) t = H.fullFlushes t ++ N.fullFlushes t := by
  rw [fullFlushes, claimed_append, List.filter_append]
  rfl

/-- The full flush of the generation `t` that a step gives out. -/
theorem fullFlushes_stepNotes (s : Slot) (call : Nat) (task : Task) (t : Nat) :
    (s.stepNotes call task).fullFlushes t =
      (given? (run task s).1).toList.filter fun flush => flush.tag = t ∧ flush.kind = .full := by
  rw [History.fullFlushes, claimed_stepNotes]

/-- At most one full flush of the generation was given out, and then the generation is spent. -/
def Once (t : Nat) (s : Slot) (H : History) : Prop :=
  H.fullFlushes t = [] ∨ (Spent t s ∧ ∃ flush, H.fullFlushes t = [flush])

/-- A step gives out no second full flush of a generation. -/
theorem Once.step {t : Nat} (h : Once t s H) (h_gap : 0 < s.gap) :
    Once t (run task s).2 (H ++ s.stepNotes call task) := by
  rw [Once, History.fullFlushes_append, fullFlushes_stepNotes]
  cases h_given : given? (run task s).1 with
  | none =>
    -- the step gives out nothing
    rw [Option.toList_none, List.filter_nil, List.append_nil]
    exact h.imp_right (And.imp_left (keeps_run (Spent.keeps t) task fun _ _ _ => trivial))
  | some flush =>
    rw [Option.toList_some, List.filter_singleton]
    by_cases h_full : flush.tag = t ∧ flush.kind = .full
    · -- none was given out before, for the slot would have had none to give
      obtain ⟨rfl, h_kind⟩ := h_full
      have h_none : H.fullFlushes flush.tag = [] :=
        h.resolve_right fun h_spent => h_spent.1.not_given h_given rfl
      refine .inr ⟨spent_run h_gap h_given h_kind, flush, ?_⟩
      rw [h_none]
      simp [h_kind]
    · -- it gives out the flush of another generation, or an early one
      simp only [h_full, decide_false, cond_false, List.append_nil]
      exact h.imp_right (And.imp_left (keeps_run (Spent.keeps t) task fun _ _ _ => trivial))

/-- **A generation has one full flush at most**, in every run of a slot. -/
theorem full_flush_once (h_gap : 0 < slot.gap) (t : Nat)
    (h_steps : (Machine.idle slot).steps program es = some m) :
    Once t m.state (history slot es) := by
  induction es using List.reverseRecOn generalizing m with
  | nil => exact .inl rfl
  | append_singleton es e ih =>
    obtain ⟨m₁, h₁, h_step⟩ := Machine.steps_concat _ h_steps
    have h_before := ih h₁
    rw [history_concat h₁ h_step]
    rcases event_cases h_step with ⟨_, -, h_notes, h_state⟩ | ⟨i, task, h_performs, h_state, -⟩
    · -- a call that is made has done nothing yet
      rw [h_notes, List.append_nil, h_state]
      exact h_before
    · have h_gap₁ : 0 < m₁.state.gap := (gap_steps h₁).symm ▸ h_gap
      rw [h_performs.notes, h_state]
      exact h_before.step h_gap₁

end GroupCommit.Slot
