import GroupCommit.Proofs.Machine.WakeUps
import Mathlib.Data.List.InsertIdx

/-!
# Calls that make no difference

A call that has returned takes part in nothing any more. So a machine that has one such call more goes
through the same states, and its other calls do the same and end in the same way; only the numbers of
the calls that were made later are higher by one.

* `Machine.insert`: the machine with a returned call put in.
* `Event.shift`: an event as the machine with the returned call has it.
* `Machine.steps_insert`: the runs of the two machines.
* `Machine.exists_shift`: every run of the machine with the returned call is one of these.
-/

namespace GroupCommit

variable {σ π α ρ : Type}

/-! ### Numbers of calls -/

/-- The number of the call `k` when another one has been put in before the call `i`. -/
def shiftCall (i k : Nat) : Nat := if k < i then k else k + 1

theorem shiftCall_inj {i k l : Nat} : shiftCall i k = shiftCall i l ↔ k = l := by
  unfold shiftCall
  split <;> split <;> omega

theorem shiftCall_ne (i k : Nat) : shiftCall i k ≠ i := by
  unfold shiftCall
  split <;> omega

/-- Every other number is a shifted one. -/
theorem exists_shiftCall {i k : Nat} (h : k ≠ i) : ∃ l, shiftCall i l = k := by
  rcases Nat.lt_or_gt_of_ne h with h_lt | h_gt
  · exact ⟨k, if_pos h_lt⟩
  · refine ⟨k - 1, ?_⟩
    rw [shiftCall, if_neg (by omega)]
    omega

/-- The event when a call has been put in before the call `i`. -/
def Event.shift (i : Nat) : Event π α → Event π α
  | .call start => .call start
  | .run k => .run (shiftCall i k)
  | .expire k => .expire (shiftCall i k)
  | .answer k reply => .answer (shiftCall i k) reply

namespace Machine

variable {program : Program σ π α ρ} {m m' : Machine σ π ρ} {i : Nat} {result : ρ}

/-! ### One call more -/

/-- The machine with a call that has returned, put in before the call `i`. -/
def insert (i : Nat) (result : ρ) (m : Machine σ π ρ) : Machine σ π ρ :=
  { m with calls := m.calls.insertIdx i (.finished result) }

/-- The other calls are found at their shifted numbers. -/
theorem getElem?_insert (m : Machine σ π ρ) (i : Nat) (result : ρ) (k : Nat) :
    (m.insert i result).calls[shiftCall i k]? = m.calls[k]? := by
  rw [insert, List.getElem?_insertIdx, shiftCall]
  by_cases h_lt : k < i
  · rw [if_pos h_lt, if_pos h_lt]
  · rw [if_neg h_lt, if_neg (by omega), if_neg (by omega), Nat.add_sub_cancel]

/-- The call put in is found at its own number. -/
theorem getElem?_insert_self (h : i ≤ m.calls.length) :
    (m.insert i result).calls[i]? = some (.finished result) := by
  rw [insert, List.getElem?_insertIdx_self, if_pos h]

/-- Two machines are the same if their states are, their calls `i`, and the others. -/
theorem ext_shift {m₁ m₂ : Machine σ π ρ} (i : Nat) (h_state : m₁.state = m₂.state)
    (h_self : m₁.calls[i]? = m₂.calls[i]?)
    (h_others : ∀ k, m₁.calls[shiftCall i k]? = m₂.calls[shiftCall i k]?) : m₁ = m₂ := by
  obtain ⟨state, calls⟩ := m₁
  obtain ⟨state', calls'⟩ := m₂
  obtain rfl : state = state' := h_state
  congr 1
  refine List.ext_getElem? fun k => ?_
  by_cases hk : k = i
  · rw [hk]
    exact h_self
  · obtain ⟨l, rfl⟩ := exists_shiftCall hk
    exact h_others l

/-- Setting another call commutes with putting one in. -/
theorem setCall_insert (h : i ≤ m.calls.length) (k : Nat) (status : Status π ρ) :
    (m.insert i result).setCall (shiftCall i k) status = (m.setCall k status).insert i result := by
  have h_set : i ≤ (m.setCall k status).calls.length := by
    rw [setCall, List.length_set]
    exact h
  -- call by call: the one put in, then the shifted ones
  refine ext_shift i rfl ?_ fun l => ?_
  · rw [getElem?_insert_self h_set, ← getElem?_insert_self h]
    exact List.getElem?_set_ne (shiftCall_ne i k)
  · rw [getElem?_insert]
    by_cases h_eq : l = k
    · subst h_eq
      rw [setCall, setCall, List.getElem?_set_self', List.getElem?_set_self', getElem?_insert]
    · have h_ne : shiftCall i k ≠ shiftCall i l := fun h_same => h_eq (shiftCall_inj.1 h_same).symm
      rw [setCall, setCall, List.getElem?_set_ne h_ne, List.getElem?_set_ne (Ne.symm h_eq),
        getElem?_insert]

/-- A finished call is not woken. -/
theorem wake_insert (c : Nat) (m : Machine σ π ρ) :
    (m.insert i result).wake c = (m.wake c).insert i result := by
  rw [wake, insert, insert, wake, List.map_insertIdx]
  rfl

/-- A finished call does not wait. -/
theorem waiting_insert (h : i ≤ m.calls.length) (c : Nat) :
    (m.insert i result).waiting c = m.waiting c := by
  rw [waiting, insert, (List.perm_insertIdx _ m.calls h).countP_eq]
  exact List.countP_cons_of_neg Bool.false_ne_true

/-- A move of another call commutes with putting one in. -/
theorem apply_insert (h : i ≤ m.calls.length) (k : Nat) (move : Move π ρ) :
    (m.insert i result).apply (shiftCall i k) move = (m.apply k move).insert i result := by
  induction move generalizing m with
  | notify c next ih =>
    have h_wake : i ≤ (m.wake c).calls.length := by
      rw [wake, List.length_map]
      exact h
    rw [apply_notify, apply_notify, wake_insert, waiting_insert h, ih _ h_wake]
  | _ => exact setCall_insert h k _

/-- A step of another call commutes with putting one in. -/
theorem perform_insert (h : i ≤ m.calls.length) (k : Nat) (o : Move π ρ × σ) :
    (m.insert i result).perform (shiftCall i k) o = (m.perform k o).insert i result :=
  apply_insert (m := { m with state := o.2 }) h k o.1

/-! ### Runs -/

theorem insertIdx_append {calls later : List (Status π ρ)} (h : i ≤ calls.length)
    (status : Status π ρ) :
    (calls ++ later).insertIdx i status = calls.insertIdx i status ++ later := by
  induction calls generalizing i with
  | nil =>
    obtain rfl := Nat.le_zero.1 h
    rfl
  | cons first calls ih =>
    cases i with
    | zero => rfl
    | succ i =>
      rw [List.cons_append, List.insertIdx_succ_cons, ih (Nat.le_of_succ_le_succ h)]
      rfl

/-- Whatever another call does, it does the same beside a finished one. -/
theorem step_insert (h : i ≤ m.calls.length) (e : Event π α) :
    (m.insert i result).step program (e.shift i) = (m.step program e).map (insert i result) := by
  cases e with
  | call start =>
    -- the new call comes last, behind the one that was put in
    have h_append : m.calls.insertIdx i (.finished result) ++ [.ready start] =
        (m.calls ++ [Status.ready start]).insertIdx i (.finished result) :=
      (insertIdx_append h _).symm
    rw [Event.shift, step, step, insert, h_append]
    rfl
  | run k =>
    rw [Event.shift, step, getElem?_insert, step]
    cases hk : m.calls[k]? with
    | none => rfl
    | some status =>
      cases status with
      | ready task => exact congrArg some (perform_insert h k _)
      | _ => rfl
  | expire k =>
    -- an expired wait goes on as a ready call, so the call is set and then performs
    rw [Event.shift, step, getElem?_insert, step]
    cases hk : m.calls[k]? with
    | none => rfl
    | some status =>
      cases status with
      | parked c wake late =>
        cases late with
        | none => rfl
        | some late =>
          have h_set : i ≤ (m.setCall k (.ready late)).calls.length := by
            rw [setCall, List.length_set]
            exact h
          dsimp only
          rw [setCall_insert h, perform_insert h_set]
          rfl
      | _ => rfl
  | answer k reply =>
    rw [Event.shift, step, getElem?_insert, step]
    cases hk : m.calls[k]? with
    | none => rfl
    | some status =>
      cases status with
      | outside task => exact congrArg some (perform_insert h k _)
      | _ => rfl

/-- No call is ever taken away. -/
theorem length_le_of_step {e : Event π α} (h : m.step program e = some m') :
    m.calls.length ≤ m'.calls.length := by
  rcases step_cases h with ⟨start, rfl, rfl⟩ | ⟨k, status, o, h_acts, h_stepped⟩
  · rw [List.length_append]
    exact Nat.le_add_right _ _
  · exact Nat.le_of_eq h_stepped.length.symm

/-- **A call that has returned makes no difference** to a run. -/
theorem steps_insert (h : i ≤ m.calls.length) (es : List (Event π α)) :
    (m.insert i result).steps program (es.map (Event.shift i)) =
      (m.steps program es).map (insert i result) := by
  induction es generalizing m with
  | nil => rfl
  | cons e es ih =>
    rw [List.map_cons, steps, step_insert h, steps]
    cases h_step : m.step program e with
    | none => rfl
    | some m₁ => exact ih (Nat.le_trans h (length_le_of_step h_step))

/-- An event of the machine with the returned call is one that the machine without it may have. -/
theorem exists_shift_of_step (h : i ≤ m.calls.length) {e : Event π α}
    (h_step : (m.insert i result).step program e = some m') : ∃ e', Event.shift i e' = e := by
  -- the call that has returned makes no step
  have h_other : ∀ {k status}, (m.insert i result).calls[k]? = some status →
      status.result? = none → ∃ l, shiftCall i l = k := by
    rintro k status hk h_status
    refine exists_shiftCall ?_
    rintro rfl
    rw [getElem?_insert_self h] at hk
    cases hk
    cases h_status
  cases e with
  | call start => exact ⟨.call start, rfl⟩
  | run k =>
    obtain ⟨task, hk, -⟩ := step_run h_step
    obtain ⟨l, rfl⟩ := h_other hk rfl
    exact ⟨.run l, rfl⟩
  | expire k =>
    obtain ⟨c, wake, late, hk, -⟩ := step_expire h_step
    obtain ⟨l, rfl⟩ := h_other hk rfl
    exact ⟨.expire l, rfl⟩
  | answer k reply =>
    obtain ⟨task, hk, -⟩ := step_answer h_step
    obtain ⟨l, rfl⟩ := h_other hk rfl
    exact ⟨.answer l reply, rfl⟩

/-- The events of a run beside a finished call are those of the others, shifted. -/
theorem exists_shift (h : i ≤ m.calls.length) {es : List (Event π α)}
    (h_steps : (m.insert i result).steps program es = some m') :
    ∃ es' : List (Event π α), es = es'.map (Event.shift i) := by
  induction es generalizing m with
  | nil => exact ⟨[], rfl⟩
  | cons e es ih =>
    obtain ⟨m₂, h₂, h_rest⟩ := Option.bind_eq_some_iff.1 h_steps
    obtain ⟨e', rfl⟩ := exists_shift_of_step h h₂
    rw [step_insert h] at h₂
    obtain ⟨m₁, h₁, rfl⟩ := Option.map_eq_some_iff.1 h₂
    obtain ⟨es', rfl⟩ := ih (Nat.le_trans h (length_le_of_step h₁)) h_rest
    exact ⟨e' :: es', rfl⟩

end Machine

end GroupCommit
