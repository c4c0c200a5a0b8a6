import GroupCommit.Machine.Basic

/-!
# Runs of machines

How the events of a machine compose, and what a step leaves alone.

* `Machine.steps_append`: a run over two lists of events is a run over the one and then over the other.
* `Machine.step_run`, `Machine.step_expire`, `Machine.step_answer`: what is known of a step.
* `Machine.step_last`: the step of the call made last.
* `Machine.step_finished`: a call that has returned keeps its result.
-/

namespace GroupCommit

variable {σ π α ρ : Type}

namespace Machine

/-- A run of two parts is the second after the first. -/
theorem steps_append (program : Program σ π α ρ) (m : Machine σ π ρ) (es fs : List (Event π α)) :
    m.steps program (es ++ fs) = (m.steps program es).bind fun m => m.steps program fs := by
  induction es generalizing m with
  | nil => rfl
  -- both sides stop at the first event that is not possible
  | cons e es ih =>
    rw [List.cons_append, steps, steps]
    cases m.step program e with
    | none => rfl
    | some m => exact ih m

/-- A run ends with one step. -/
theorem steps_concat (program : Program σ π α ρ) {m m' : Machine σ π ρ} {es : List (Event π α)}
    {e : Event π α} (h : m.steps program (es ++ [e]) = some m') :
    ∃ m₁, m.steps program es = some m₁ ∧ m₁.step program e = some m' := by
  rw [steps_append] at h
  obtain ⟨m₁, h₁, h₂⟩ := Option.bind_eq_some_iff.1 h
  refine ⟨m₁, h₁, ?_⟩
  obtain ⟨m₂, h₃, h₄⟩ := Option.bind_eq_some_iff.1 h₂
  rw [h₃, ← h₄]
  rfl

/-! ### The end of a step -/

@[simp] theorem apply_goto (m : Machine σ π ρ) (i : Nat) (task : π) :
    m.apply i (.goto task) = m.setCall i (.ready task) := rfl

@[simp] theorem apply_park (m : Machine σ π ρ) (i condition : Nat) (wake : π) (late : Option π) :
    m.apply i (.park condition wake late) = m.setCall i (.parked condition wake late) := rfl

@[simp] theorem apply_outside (m : Machine σ π ρ) (i : Nat) (pending : π) :
    m.apply i (.outside pending) = m.setCall i (.outside pending) := rfl

@[simp] theorem apply_finish (m : Machine σ π ρ) (i : Nat) (result : ρ) :
    m.apply i (.finish result) = m.setCall i (.finished result) := rfl

/-- Notifying wakes the others first and is told how many they were. -/
@[simp] theorem apply_notify (m : Machine σ π ρ) (i condition : Nat) (next : Nat → Move π ρ) :
    m.apply i (.notify condition next) =
      (m.wake condition).apply i (next (m.waiting condition)) := rfl

@[simp] theorem state_apply (m : Machine σ π ρ) (i : Nat) (move : Move π ρ) :
    (m.apply i move).state = m.state := by
  induction move generalizing m with
  | notify condition next ih => rw [apply_notify, ih]; rfl
  | _ => rfl

@[simp] theorem length_apply (m : Machine σ π ρ) (i : Nat) (move : Move π ρ) :
    (m.apply i move).calls.length = m.calls.length := by
  induction move generalizing m with
  | notify condition next ih => rw [apply_notify, ih, wake, List.length_map]
  | _ => exact List.length_set

/-! ### What is known of a step -/

section Step

variable {program : Program σ π α ρ} {m m' : Machine σ π ρ} {i : Nat}

/-- A call that runs was ready. -/
theorem step_run (h : m.step program (.run i) = some m') :
    ∃ task, m.calls[i]? = some (.ready task) ∧ m' = m.perform i (program.run task m.state) := by
  rw [step] at h
  split at h
  · next task hi => exact ⟨task, hi, (Option.some.inj h).symm⟩
  · cases h

/-- A wait that expires had a deadline. -/
theorem step_expire (h : m.step program (.expire i) = some m') :
    ∃ condition wake late, m.calls[i]? = some (.parked condition wake (some late)) ∧
      m' = (m.setCall i (.ready late)).perform i (program.run late m.state) := by
  rw [step] at h
  split at h
  · next condition wake late hi => exact ⟨condition, wake, late, hi, (Option.some.inj h).symm⟩
  · cases h

/-- A call that is answered was outside. -/
theorem step_answer {answer : α} (h : m.step program (.answer i answer) = some m') :
    ∃ task, m.calls[i]? = some (.outside task) ∧
      m' = m.perform i (program.reply task answer m.state) := by
  rw [step] at h
  split at h
  · next task hi => exact ⟨task, hi, (Option.some.inj h).symm⟩
  · cases h

end Step

/-! ### The step of the last call -/

theorem set_last (calls : List (Status π ρ)) (status status' : Status π ρ) :
    (calls ++ [status]).set calls.length status' = calls ++ [status'] := by
  rw [List.set_append_right _ _ (Nat.le_refl _), Nat.sub_self]
  rfl

/-- A call that came last runs like any other. -/
theorem step_last (program : Program σ π α ρ) (state : σ) (calls : List (Status π ρ)) (task : π) :
    step program ⟨state, calls ++ [.ready task]⟩ (.run calls.length) =
      some (perform ⟨state, calls ++ [.ready task]⟩ calls.length (program.run task state)) := by
  rw [step, List.getElem?_concat_length]

/-! ### Calls that have returned -/

/-- A step of one call changes another call at most by waking it. -/
theorem getElem?_apply_of_ne (m : Machine σ π ρ) {i j : Nat} (hij : i ≠ j) (move : Move π ρ)
    {result : ρ} (h : m.calls[j]? = some (.finished result)) :
    (m.apply i move).calls[j]? = some (.finished result) := by
  induction move generalizing m with
  | notify condition next ih =>
    rw [apply_notify]
    apply ih
    rw [wake, List.getElem?_map, h]
    rfl
  | _ => exact (List.getElem?_set_ne hij).trans h

/-- **Results stay.** A call that has returned is not touched by any later event. -/
theorem step_finished {program : Program σ π α ρ} {m m' : Machine σ π ρ} {e : Event π α}
    (h_step : m.step program e = some m') {j : Nat} {result : ρ}
    (h : m.calls[j]? = some (.finished result)) : m'.calls[j]? = some (.finished result) := by
  -- the call that makes the step has not returned, so it is another one
  have h_other : ∀ i status, m.calls[i]? = some status → status.result? = none → i ≠ j := by
    rintro i status hi h_status rfl
    rw [h] at hi
    cases hi
    simp [Status.result?] at h_status
  cases e with
  | call start =>
    cases h_step
    obtain ⟨hj, -⟩ := List.getElem?_eq_some_iff.1 h
    exact (List.getElem?_append_left hj).trans h
  | run i =>
    obtain ⟨task, hi, rfl⟩ := step_run h_step
    exact getElem?_apply_of_ne _ (h_other i _ hi rfl) _ h
  | expire i =>
    obtain ⟨condition, wake, late, hi, rfl⟩ := step_expire h_step
    -- the deadline makes the call ready before it makes its step
    have hij := h_other i _ hi rfl
    exact getElem?_apply_of_ne _ hij _ ((List.getElem?_set_ne hij).trans h)
  | answer i answer =>
    obtain ⟨task, hi, rfl⟩ := step_answer h_step
    exact getElem?_apply_of_ne _ (h_other i _ hi rfl) _ h

/-- A finished call stays finished. -/
theorem steps_finished {program : Program σ π α ρ} {m m' : Machine σ π ρ} {es : List (Event π α)}
    (h_steps : m.steps program es = some m') {j : Nat} {result : ρ}
    (h : m.calls[j]? = some (.finished result)) : m'.calls[j]? = some (.finished result) := by
  induction es generalizing m with
  | nil =>
    cases h_steps
    exact h
  | cons e es ih =>
    obtain ⟨m₁, h₁, h₂⟩ := Option.bind_eq_some_iff.1 h_steps
    exact ih h₂ (step_finished h₁ h)

end Machine

end GroupCommit
