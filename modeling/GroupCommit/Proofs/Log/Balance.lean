import GroupCommit.Proofs.Log.Answers

/-!
# Calls to the Writer and their returns

A call on a log waits for each of its calls to the Writer before it makes the next one. So of the calls to
the Writer that one commit makes, all have returned but the one for which it is waiting, if it is; and
of all that a log makes, those that have returned are a part.

* `Journal.returns`, `Journal.successes`: the calls that have returned, and those that have succeeded.
* `Run.pending`: the call that a commit is waiting for.
* `Run.writes_of_call`: the calls that one commit makes.
* `Run.successes_subperm`: no call succeeds more often than it is made.
-/

namespace GroupCommit.Log

/-- The call whose return is noted. -/
def Note.returned? : Note → Option Write
  | .returned w _ => some w
  | _ => none

/-- The call whose success is noted. -/
def Note.succeeded? : Note → Option Write
  | .returned w (.ok ()) => some w
  | _ => none

namespace Journal

/-- The calls to the Writer that have returned, in the order in which they did. -/
def returns (J : Journal) : List Write := J.filterMap Note.returned?

/-- The calls to the Writer that have succeeded, in the order in which they did. -/
def successes (J : Journal) : List Write := J.filterMap Note.succeeded?

variable {J K : Journal} {w : Write}

@[simp] theorem reservations_append :
    reservations (J ++ K) = reservations J ++ reservations K := List.filterMap_append

@[simp] theorem writes_append : writes (J ++ K) = writes J ++ writes K := List.filterMap_append

@[simp] theorem returns_append : returns (J ++ K) = returns J ++ returns K := List.filterMap_append

@[simp] theorem successes_append : successes (J ++ K) = successes J ++ successes K :=
  List.filterMap_append

theorem mem_successes : w ∈ successes J ↔ .returned w (.ok ()) ∈ J := by
  rw [successes, List.mem_filterMap]
  constructor
  · rintro ⟨n, hn, h⟩
    -- no other note is on a success
    match n, h with
    | .returned w (.ok ()), h =>
      cases h
      exact hn
  · exact fun h => ⟨_, h, rfl⟩

/-- What the Writer has taken has returned. -/
theorem successes_sublist : J.successes.Sublist J.returns := by
  induction J with
  | nil => exact .slnil
  | cons n J ih =>
    match n with
    | .reserved r => exact ih
    | .started w => exact ih
    | .returned w (.ok ()) => exact ih.cons_cons w
    | .returned w (.error stop) => exact ih.cons w

/-- If nothing fails, all calls that return succeed. -/
theorem successes_eq (h : ¬ J.Failed) : J.successes = J.returns := by
  induction J with
  | nil => rfl
  | cons n J ih =>
    have h_rest := ih fun ⟨w, stop, h_mem⟩ => h ⟨w, stop, List.mem_cons_of_mem _ h_mem⟩
    match n with
    | .reserved r => exact h_rest
    | .started w => exact h_rest
    | .returned w (.ok ()) => exact congrArg (w :: ·) h_rest
    | .returned w (.error stop) => exact absurd ⟨w, stop, List.mem_cons_self⟩ h

end Journal

/-! ### One step -/

/-- The call to the Writer that the call `i` is waiting for. -/
def Status.asks? (i : Nat) : Status Task Result → Option Write
  | .outside t => t.write? i
  | _ => none

variable {W : Type} {t : Task} {i : Nat}

theorem asks?_remains {status status' : Status Task Result} (h : status.Remains status') :
    Status.asks? i status' = Status.asks? i status := by
  cases h <;> rfl

/-- A call that goes on asks the Writer for nothing. -/
theorem asks?_goesOn {status : Status Task Result} (h : GoesOn status) :
    Status.asks? i status = none := by
  cases h <;> rfl

/-- A step makes the call to the Writer that its task stands for, and waits for it. -/
theorem asks?_run {log : Log W} {status : Status Task Result} (h : (run t log).1.Leads status) :
    Status.asks? i status = t.write? i := by
  have h_effect := run_effect t log
  generalize run t log = o at h h_effect
  cases h_effect with
  | onSlot hs =>
    cases status with
    | outside pending => rw [(run_outside h i).1]; rfl
    | _ => rfl
  | poisons => exact asks?_goesOn (.poisonFrom h)
  | _ =>
    cases h
    rfl

/-- A step notes a write only where it asks for one, and no return. -/
theorem writes_runNotes (log : Log W) (i : Nat) (t : Task) :
    Journal.writes (runNotes log i t) = (t.write? i).toList ∧
      Journal.returns (runNotes log i t) = [] := by
  cases t <;> exact ⟨rfl, rfl⟩

variable [Writer W]

/-- An answer notes the return of what was asked for, and no write. -/
theorem writes_answerNotes (log : Log W) (i : Nat) (verdict : Verdict) (t : Task) :
    Journal.writes (answerNotes log i verdict t) = [] ∧
      Journal.returns (answerNotes log i verdict t) = (t.write? i).toList := by
  rw [answerNotes]
  cases t.write? i <;> exact ⟨rfl, rfl⟩

/-! ### Runs -/

/-- The call to the Writer that the call `i` is waiting for in this state. -/
def Run.pending (r : Run W) (i : Nat) : Option Write :=
  r.machine.calls[i]?.bind (Status.asks? i)

variable {r r' : Run W} {e : Event Task Verdict}

/-- A call that is made now waits for nothing yet. -/
theorem pending_call {start : Task}
    (h : r'.machine = { r.machine with calls := r.machine.calls ++ [.ready start] }) (i : Nat) :
    r'.pending i = r.pending i := by
  rw [Run.pending, Run.pending, h]
  rcases Nat.lt_trichotomy i r.machine.calls.length with h_lt | rfl | h_gt
  · rw [List.getElem?_append_left h_lt]
  · rw [List.getElem?_concat_length, List.getElem?_eq_none le_rfl]
    rfl
  · rw [List.getElem?_eq_none h_gt.le, List.getElem?_eq_none]
    rw [List.length_append]
    exact h_gt

/-- The step of a call does not change what the others are waiting for. -/
theorem pending_of_ne {j : Nat} {o : Move Task Result × Log W}
    (h : Machine.Stepped r.machine r'.machine j o) (h_ne : i ≠ j) : r'.pending i = r.pending i := by
  rw [Run.pending, Run.pending]
  cases hi : r.machine.calls[i]? with
  | none =>
    rw [List.getElem?_eq_none_iff, ← h.length, ← List.getElem?_eq_none_iff] at hi
    rw [hi]
  | some status =>
    obtain ⟨status', hi', h_remains⟩ := h.other i status h_ne hi
    rw [hi', Option.bind_some, Option.bind_some, asks?_remains h_remains]

/-- Notes of other calls say nothing of this one's writes. -/
theorem filter_call_of_ne {L : Journal} (h : ∀ n ∈ L, n.call ≠ i) :
    (Journal.writes L).filter (·.call = i) = [] ∧ (Journal.returns L).filter (·.call = i) = [] := by
  constructor
  · rw [List.filter_eq_nil_iff]
    intro w hw h_call
    exact h _ (Journal.mem_writes.1 hw) (of_decide_eq_true h_call)
  · rw [List.filter_eq_nil_iff]
    intro w hw h_call
    obtain ⟨n, hn, h_some⟩ := List.mem_filterMap.1 hw
    cases n with
    | returned v outcome => cases h_some; exact h _ hn (of_decide_eq_true h_call)
    | _ => cases h_some

theorem filter_call_write? (t : Task) (i : Nat) :
    (t.write? i).toList.filter (·.call = i) = (t.write? i).toList := by
  rw [List.filter_eq_self]
  intro w hw
  exact decide_eq_true (call_of_write? (Option.mem_toList.1 hw))

/-- The step of a call: what it was waiting for has returned, and what it waits for then was made
now. -/
theorem pending_of_acts {status status' : Status Task Result} {o : Move Task Result × Log W}
    (h : Machine.Acts (program W) r.machine e i status o) (h_leads : o.1.Leads status') :
    (Status.asks? i status).toList ++ (notes r.machine e).writes.filter (·.call = i) =
      (notes r.machine e).returns.filter (·.call = i) ++ (Status.asks? i status').toList := by
  cases h with
  | @run i t hi =>
    obtain ⟨h_writes, h_returns⟩ := writes_runNotes r.machine.state i t
    rw [notes_run hi, h_writes, h_returns, filter_call_write?, asks?_run h_leads]
    rfl
  | @expire i c wake late hi =>
    -- a deadline makes its call look at its slot
    obtain ⟨task, next, -, h_late, -⟩ := r.blocked i _ _ _ hi
    obtain ⟨task', -, rfl⟩ := Option.map_eq_some_iff.1 h_late.symm
    rw [asks?_run h_leads]
    rfl
  | @answer i t verdict hi =>
    obtain ⟨h_writes, h_returns⟩ := writes_answerNotes r.machine.state i verdict t
    rw [notes_answer hi, h_writes, h_returns, filter_call_write?, asks?_goesOn (GoesOn.answered h_leads)]
    rfl

/-- **The calls to the Writer that a commit makes**, in the order in which it does: all of them have
returned, in this order, but the one for which the commit is waiting. -/
theorem Run.writes_of_call (r : Run W) (i : Nat) : r.journal.writes.filter (·.call = i) =
    r.journal.returns.filter (·.call = i) ++ (r.pending i).toList := by
  refine r.induction rfl fun r₁ e r₂ h_next _ ih => ?_
  rw [h_next.journal, Journal.writes_append, Journal.returns_append, List.filter_append,
    List.filter_append, ih]
  rcases Machine.step_cases h_next.step with ⟨start, rfl, h_eq⟩ | ⟨j, status, o, h_acts, h_stepped⟩
  · -- a call that is made has asked for nothing yet
    rw [pending_call h_eq]
    show _ ++ [] = _ ++ [] ++ _
    rw [List.append_nil, List.append_nil]
  · by_cases h_eq : i = j
    · -- its own step: whatever it waits for before returns first
      subst h_eq
      obtain ⟨status', hi', h_leads⟩ := h_stepped.self
      have h_before : r₁.pending i = Status.asks? i status := by
        rw [Run.pending, h_acts.before, Option.bind_some]
      have h_after : r₂.pending i = Status.asks? i status' := by
        rw [Run.pending, hi', Option.bind_some]
      rw [h_before, h_after, List.append_assoc, pending_of_acts h_acts h_leads, List.append_assoc]
    · have h_notes : ∀ n ∈ notes r₁.machine e, n.call ≠ i := fun n hn h_call =>
        h_eq (h_call.symm.trans (Run.call_of_notes h_acts hn))
      -- the step of another call
      obtain ⟨h_writes, h_returns⟩ := filter_call_of_ne h_notes
      rw [pending_of_ne h_stepped h_eq, h_writes, h_returns, List.append_nil, List.append_nil]

/-- The calls of one commit are enough to count those that are equal. -/
theorem count_eq_filter (L : List Write) (w : Write) :
    L.count w = (L.filter (·.call = w.call)).count w :=
  (List.count_filter (by simp)).symm

/-- **No call to the Writer succeeds more often than it is made.** -/
theorem Run.successes_subperm (r : Run W) : r.journal.successes.Subperm r.journal.writes := by
  refine r.journal.successes_sublist.subperm.trans (List.subperm_iff_count.2 fun w => ?_)
  rw [count_eq_filter, count_eq_filter r.journal.writes, r.writes_of_call, List.count_append]
  exact Nat.le_add_right _ _

/-- When no commit waits for the Writer any more and nothing has failed, then all calls have succeeded. -/
theorem Run.successes_perm (r : Run W) (h_clean : ¬ r.journal.Failed)
    (h_none : ∀ i, r.pending i = none) : r.journal.successes.Perm r.journal.writes := by
  refine List.perm_iff_count.2 fun w => ?_
  rw [Journal.successes_eq h_clean, count_eq_filter, count_eq_filter r.journal.writes,
    r.writes_of_call, h_none]
  exact congrArg _ (List.append_nil _).symm

end GroupCommit.Log
