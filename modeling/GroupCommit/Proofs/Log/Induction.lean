import GroupCommit.Proofs.Log.Run
import GroupCommit.Proofs.Machine.WakeUps

/-!
# Induction over a run

What is true of the beginning of a run and is kept by every event is true of the run. Every beginning of
a run is a run itself, and if the run leaves room in the address space then so does its beginning, so
the picture of `Run.exists_matches` is at hand at each event.

* `Run.Next`, `Run.Next.start_cases`: a run with one more event, and the calls that are made in it.
* `Run.Before.induction`, `Run.induction`: induction from some beginning of a run, and from its start.
* `Run.Before.journal`, `Run.Before.fits`, `Run.call_lt`: what is known of beginnings.
-/

namespace GroupCommit.Log

variable {W : Type} [Writer W]

namespace Run

variable {r r' r₁ : Run W}

/-! ### Beginnings of runs -/

theorem Before.refl (r : Run W) : r.Before r := ⟨rfl, List.prefix_rfl⟩

theorem Before.trans (h : r.Before r₁) (h' : r₁.Before r') : r.Before r' :=
  ⟨h.log.trans h'.log, h.events.trans h'.events⟩

/-- A run is given by its log and its events. -/
theorem eq_of_events (h_log : r.log = r'.log) (h_events : r.events = r'.events) : r = r' := by
  have h_config := (create_ok r.created).config_eq.symm.trans
    ((congrArg Log.config h_log).trans (create_ok r'.created).config_eq)
  have h_writer := (create_ok r.created).writer_eq.symm.trans
    ((congrArg Log.writer h_log).trans (create_ok r'.created).writer_eq)
  -- the events lead to one machine only
  have h_machine : r.machine = r'.machine := by
    have h_reached := r.reached
    rw [h_log, h_events, r'.reached] at h_reached
    exact (Option.some.inj h_reached).symm
  cases r
  cases r'
  cases h_config
  cases h_writer
  cases h_log
  cases h_events
  cases h_machine
  rfl

/-- The run before its first event. -/
def start (r : Run W) : Run W where
  config := r.config
  writer := r.writer
  log := r.log
  created := r.created
  events := []
  calls := fun _ h => by cases h
  machine := Machine.idle r.log
  reached := rfl

theorem start_before (r : Run W) : r.start.Before r := ⟨rfl, List.nil_prefix⟩

theorem getElem?_calls_start (r : Run W) (i : Nat) : r.start.machine.calls[i]? = none := rfl

/-- The run `r'` is `r` with one more event. -/
structure Next (r : Run W) (e : Event Task Verdict) (r' : Run W) : Prop where
  log : r.log = r'.log
  events : r'.events = r.events ++ [e]

section Next

variable {e : Event Task Verdict} (h : r.Next e r')

include h

/-- The next run begins like this one. -/
theorem Next.before : r.Before r' := ⟨h.log, h.events ▸ List.prefix_append _ _⟩

theorem Next.step : r.machine.step (program W) e = some r'.machine := by
  have h_reached := r'.reached
  rw [h.events, ← h.log] at h_reached
  obtain ⟨m, h_steps, h_step⟩ := Machine.steps_concat _ h_reached
  rw [r.reached] at h_steps
  cases h_steps
  exact h_step

/-- The journal grows by what the event notes. -/
theorem Next.journal : r'.journal = r.journal ++ notes r.machine e := by
  rw [Run.journal, h.events, ← h.log]
  exact journal_concat r.reached h.step

theorem Next.starts : r'.starts = r.starts ++ starts? e := by
  rw [Run.starts, h.events, starts_concat]
  rfl

omit h in
/-- A call begins with a commit, or as one that is to poison the log. -/
theorem Next.begins {start : Task} (h : r.Next (.call start) r') :
    start.IsCommit ∨ start.IsPoison :=
  r'.calls start (h.events ▸ List.mem_append_right _ (List.mem_singleton_self _))

end Next

/-- **Induction over the later events of a run**, from the run `r` on. -/
@[elab_as_elim]
theorem Before.induction {motive : Run W → Prop} (h : r.Before r') (first : motive r)
    (next : ∀ r₁ e r₂, r.Before r₁ → r₁.Next e r₂ → r₂.Before r' → motive r₁ → motive r₂) :
    motive r' := by
  obtain ⟨more, h_events⟩ := h.events
  -- by induction on what comes after `r`, from the end
  induction more using List.reverseRecOn generalizing r' with
  | nil =>
    rw [List.append_nil] at h_events
    exact eq_of_events h.log h_events ▸ first
  | append_singleton more e ih =>
    rw [← List.append_assoc] at h_events
    have h_reached := r'.reached
    rw [← h_events] at h_reached
    obtain ⟨m, h_steps, -⟩ := Machine.steps_concat _ h_reached
    let r₁ : Run W := {
      config := r'.config
      writer := r'.writer
      log := r'.log
      created := r'.created
      events := r.events ++ more
      calls := fun start h_mem => r'.calls start (h_events ▸ List.mem_append_left _ h_mem)
      machine := m
      reached := h_steps }
    have h_before : r.Before r₁ := ⟨h.log, List.prefix_append _ _⟩
    have h_next : r₁.Next e r' := ⟨rfl, h_events.symm⟩
    refine next r₁ e r' h_before h_next (.refl r') (ih h_before ?_ rfl)
    exact fun r₂ e r₃ h₁ h₂ h₃ => next r₂ e r₃ h₁ h₂ (h₃.trans h_next.before)

/-- **Induction over a run.** -/
@[elab_as_elim]
theorem induction {motive : Run W → Prop} (r : Run W) (first : motive r.start)
    (next : ∀ r₁ e r₂, r₁.Next e r₂ → r₂.Before r → motive r₁ → motive r₂) : motive r :=
  r.start_before.induction first fun r₁ e r₂ _ => next r₁ e r₂

/-! ### What later events do not change -/

section Before

variable (h : r.Before r')

include h

theorem Before.config_eq : r.config = r'.config := by
  rw [← (create_ok r.created).config_eq, h.log, (create_ok r'.created).config_eq]

/-- The journal of a later run begins with that of the earlier one. -/
theorem Before.journal : ∃ K, r'.journal = r.journal ++ K := by
  refine h.induction ⟨[], (List.append_nil _).symm⟩ ?_
  rintro r₁ e r₂ - h_next - ⟨K, h_eq⟩
  exact ⟨_, by rw [h_next.journal, h_eq, List.append_assoc]⟩

/-- If a run leaves room in the address space, then so do its beginnings. -/
theorem Before.fits (h_fits : r'.Fits) : r.Fits := by
  obtain ⟨K, h_eq⟩ := h.journal
  rw [Run.Fits, h_eq, Journal.content_append, List.length_append, ← h.config_eq] at h_fits
  rw [Run.Fits]
  omega

theorem Before.mem_journal {n : Note} (hn : n ∈ r.journal) : n ∈ r'.journal := by
  obtain ⟨K, h_eq⟩ := h.journal
  rw [h_eq]
  exact List.mem_append_left K hn

/-- Calls are only added. -/
theorem Before.length_calls : r.machine.calls.length ≤ r'.machine.calls.length := by
  refine h.induction le_rfl fun r₁ e r₂ _ h_next _ h_le => h_le.trans ?_
  rcases Machine.step_cases h_next.step with ⟨start, rfl, h_eq⟩ | ⟨i, status, o, -, h_stepped⟩
  · rw [h_eq, List.length_append]
    exact Nat.le_add_right _ _
  · exact h_stepped.length.ge

end Before

theorem starts_length (r : Run W) : r.starts.length = r.machine.calls.length := by
  refine r.induction rfl fun r₁ e r₂ h_next _ ih => ?_
  rw [h_next.starts, List.length_append, ih]
  rcases Machine.step_cases h_next.step with ⟨start, rfl, h_eq⟩ | ⟨i, status, o, h_acts, h_stepped⟩
  · rw [h_eq, List.length_append]
    rfl
  · rw [h_stepped.length]
    cases h_acts <;> rfl

/-- A call of the longer run was made before, or it is the one that the event makes. -/
theorem Next.start_cases {e : Event Task Verdict} {i : Nat} {start : Task} (h : r.Next e r')
    (h_start : r'.starts[i]? = some start) :
    r.starts[i]? = some start ∨ (i = r.machine.calls.length ∧ e = .call start) := by
  rw [h.starts] at h_start
  rcases Nat.lt_or_ge i r.starts.length with h_lt | h_ge
  · rw [List.getElem?_append_left h_lt] at h_start
    exact .inl h_start
  · rw [List.getElem?_append_right h_ge] at h_start
    -- beyond the first tasks known before stands that of a call just made
    cases e with
    | call start' =>
      rw [show starts? (.call start') = [start'] from rfl, List.getElem?_singleton] at h_start
      split at h_start
      · next h_last =>
        cases h_start
        exact .inr ⟨r.starts_length ▸ (Nat.le_of_sub_eq_zero h_last).antisymm h_ge, rfl⟩
      · cases h_start
    | _ => cases h_start

/-! ### Notes -/

/-- A note is about the call that makes the step. -/
theorem call_of_notes {m : Machine (Log W) Task Result} {e : Event Task Verdict} {i : Nat}
    {status : Status Task Result} {o : Move Task Result × Log W}
    (h : Machine.Acts (program W) m e i status o) {n : Note} (hn : n ∈ notes m e) : n.call = i := by
  cases h with
  | @run i task hi =>
    rw [notes_run hi] at hn
    unfold runNotes at hn
    split at hn
    · rw [List.mem_singleton.1 hn]
      rfl
    · rw [Option.mem_toList, Option.map_eq_some_iff] at hn
      obtain ⟨w, hw, rfl⟩ := hn
      exact call_of_write? hw
  | expire hi => cases hn
  -- an answer notes at most the return of a write of the same call
  | @answer i task verdict hi =>
    rw [notes_answer hi, answerNotes, Option.mem_toList, Option.map_eq_some_iff] at hn
    obtain ⟨w, hw, rfl⟩ := hn
    exact call_of_write? hw

/-- All notes are about calls that have been made. -/
theorem call_lt (r : Run W) : ∀ n ∈ r.journal, n.call < r.machine.calls.length := by
  refine r.induction (fun n hn => by cases hn) ?_
  intro r₁ e r₂ h_next h_before ih n hn
  rw [h_next.journal] at hn
  rcases List.mem_append.1 hn with h_old | h_new
  · exact (ih n h_old).trans_le h_next.before.length_calls
  · rcases Machine.step_cases h_next.step with ⟨start, rfl, -⟩ | ⟨i, status, o, h_acts, h_stepped⟩
    · cases h_new
    · obtain ⟨h_lt, -⟩ := List.getElem?_eq_some_iff.1 h_acts.before
      rw [call_of_notes h_acts h_new, h_stepped.length]
      exact h_lt

end Run

end GroupCommit.Log
