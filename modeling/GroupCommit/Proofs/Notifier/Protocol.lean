import GroupCommit.Proofs.Notifier.Courses

/-!
# The waiting protocol of a notifier

A run of a notifier begins with any state and goes through any list of events that are possible one after
another: calls are made to run closures, to notify and to wait, they make their steps, and deadlines pass.
Every event is one of three kinds (`Effect`): a call is made, a notification wakes the parked calls, or a
call makes a step by itself. A closure that keeps something for its next time keeps it in a part of the
state. So the closures that ran lead from the first state to the last one, and every
call is on its course (`Kept`).

* `Effect`, `effect`: what an event does.
* `Run`, `Run.journal`, `Run.kept`: runs, their journals, and what holds in all of them.
* `Run.waiting_protocol`: the waiting protocol.
-/

namespace GroupCommit.Notifier

variable {σ β : Type}

/-! ### What an event does -/

section Effect

variable {m m' : Guarded σ β} {i j : ℕ} {e : Event (Task σ β) Empty} {ns : List (Note σ β)}
  {status : Status (Task σ β) (Reply β)}

/-- Every call is on a course. -/
def OnCourse (m : Guarded σ β) : Prop :=
  ∀ (i : ℕ) status, m.calls[i]? = some status → ∃ start L, Course start L status

/-- What an event does: what is noted of it, and what it leaves. -/
inductive Effect (m : Guarded σ β) :
    Event (Task σ β) Empty → List (Note σ β) → Guarded σ β → Prop
  | made (start : Task σ β) :
      Effect m (.call start) [] { m with calls := m.calls ++ [.ready start] }
  | woke {i : ℕ} (hi : m.calls[i]? = some (.ready .notifyAll)) :
      Effect m (.run i) [.notified i (parkedCalls m)]
        ((m.wake 0).setCall i (.finished (.woken (parkedCalls m).length)))
  | own {e : Event (Task σ β) Empty} {i : ℕ} {status status' : Status (Task σ β) (Reply β)}
      {ns : List (Note σ β)} {s' : σ} (h_caller : e.caller? = some i)
      (hi : m.calls[i]? = some status) (h : Own i m.state status ns status' s') :
      Effect m e ns ⟨s', m.calls.set i status'⟩

/-- An event of a call starts none. -/
theorem start?_of_caller (h : e.caller? = some i) : e.start? = none := by
  cases e with
  | call start => cases h
  | _ => rfl

/-- What a step leaves, by the move that it ends with. -/
theorem perform_run {task : Task σ β} {move : Move (Task σ β) (Reply β)} {s' : σ}
    (h : run task m.state = (move, s')) (i : ℕ) :
    m.perform i ((program σ β).run task m.state) = (⟨s', m.calls⟩ : Guarded σ β).apply i move := by
  rw [Machine.perform, show (program σ β).run task m.state = (move, s') from h]

/-- What a step of a ready call does. -/
theorem effect_run (h_on : OnCourse m) (h : m.step (program σ β) (.run i) = some m') :
    Effect m (.run i) (notes m (.run i)) m' := by
  obtain ⟨task, hi, rfl⟩ := Machine.step_run h
  obtain ⟨start, L, h_course⟩ := h_on i _ hi
  rw [show notes m (.run i) = taskNotes m i task by simp only [notes, hi]]
  cases task with
  | access action => exact .own rfl hi (.accesses action m.state)
  | notifyAll =>
    have h_effect := Effect.woke hi
    rw [length_parkedCalls] at h_effect
    exact h_effect
  | wait pre wake deadline =>
    rcases h_pre : pre m.state with ⟨_ | v, s'⟩
    · rw [taskNotes, h_pre, perform_run (by rw [run, h_pre]) i]
      exact .own rfl hi (.parks h_pre)
    · rw [taskNotes, h_pre, perform_run (by rw [run, h_pre]) i]
      exact .own rfl hi (.enters h_pre)
  | retry wake deadline k =>
    rcases h_wake : wake m.state with ⟨_ | v, s'⟩
    · rw [taskNotes, h_wake, perform_run (by rw [run, h_wake]) i]
      exact .own rfl hi (.parksAgain h_wake)
    · rw [taskNotes, h_wake, perform_run (by rw [run, h_wake]) i]
      exact .own rfl hi (.leaves h_wake)
  | giveUp wake d k =>
    rcases h_wake : wake m.state with ⟨_ | v, s'⟩
    · rw [taskNotes, h_wake, perform_run (by rw [run, h_wake]) i]
      exact .own rfl hi (.timesOut h_wake)
    · rw [taskNotes, h_wake, perform_run (by rw [run, h_wake]) i]
      exact .own rfl hi (.leavesLate h_wake)
  -- no course makes a call ready for this: a deadline carries it out as it passes
  | lapse => cases h_course

/-- What a deadline does. -/
theorem effect_expire (h_on : OnCourse m) (h : m.step (program σ β) (.expire i) = some m') :
    Effect m (.expire i) (notes m (.expire i)) m' := by
  obtain ⟨c, wake, late, hi, rfl⟩ := Machine.step_expire h
  obtain ⟨start, L, h_course⟩ := h_on i _ hi
  rw [show notes m (.expire i) = taskNotes m i late by simp only [notes, hi]]
  obtain ⟨attempt, deadline, k, h_waiting⟩ := h_course.of_parked
  cases deadline with
  | none => cases h_waiting
  | some d =>
    cases h_waiting
    -- the deadline makes the call ready before it makes its step
    have h_after : (m.setCall i (.ready (.lapse attempt d k))).perform i
        ((program σ β).run (.lapse attempt d k) m.state) =
        ⟨m.state, m.calls.set i (.ready (.giveUp attempt d k))⟩ :=
      congrArg (Machine.mk m.state) (List.set_set _)
    rw [h_after]
    exact .own rfl hi (.lapses attempt d k m.state)

/-- **Every event of a notifier has one of these effects.** -/
theorem effect (h_on : OnCourse m) (h : m.step (program σ β) e = some m') :
    Effect m e (notes m e) m' := by
  cases e with
  | call start =>
    cases h
    exact .made start
  | run i => exact effect_run h_on h
  | expire i => exact effect_expire h_on h
  | answer i answer => cases answer

/-- The one step that a parked call makes by itself is for its deadline. -/
theorem event_of_parked (h : m.step (program σ β) e = some m') (h_caller : e.caller? = some j)
    (hj : m.calls[j]? = some status) (h_parked : status.parkedOn 0 = true) : e = .expire j := by
  cases e with
  | call start => cases h_caller
  | run i =>
    cases h_caller
    obtain ⟨task, h_ready, -⟩ := Machine.step_run h
    cases hj.symm.trans h_ready
    cases h_parked
  | expire i =>
    cases h_caller
    rfl
  | answer i answer => cases answer

/-- **Nobody is released without a notification.** A parked call stays as it is, unless its own deadline
passes or somebody notifies. -/
theorem stays_parked (h_on : OnCourse m) (h : m.step (program σ β) e = some m')
    (hj : m.calls[j]? = some status) (h_parked : status.parkedOn 0 = true) (h_lapse : e ≠ .expire j)
    (h_notify : ∀ i, e = .run i → m.calls[i]? ≠ some (.ready .notifyAll)) :
    m'.calls[j]? = some status := by
  have h_effect := effect h_on h
  -- what is noted plays no part here, and as a term it would stand in the way of the cases
  generalize notes m e = ns at h_effect
  cases h_effect with
  | made start =>
    obtain ⟨h_lt, -⟩ := List.getElem?_eq_some_iff.1 hj
    exact (List.getElem?_append_left h_lt).trans hj
  | woke hi => exact absurd hi (h_notify _ rfl)
  | own h_caller hi h_own =>
    refine (List.getElem?_set_ne ?_).trans hj
    rintro rfl
    exact h_lapse (event_of_parked h h_caller hj h_parked)

/-- **A notification** leaves the state alone, wakes the parked calls and returns their number. -/
theorem step_notify (hi : m.calls[i]? = some (.ready .notifyAll)) :
    m.step (program σ β) (.run i) =
      some ((m.wake 0).setCall i (.finished (.woken (parkedCalls m).length))) := by
  rw [Machine.step, hi, length_parkedCalls]
  rfl

/-- The calls that a notification wakes run `wake` next. -/
theorem getElem?_notified (h_on : OnCourse m) (hi : m.calls[i]? = some (.ready .notifyAll))
    (hj : m.calls[j]? = some status) (h_parked : status.parkedOn 0 = true) (count : ℕ) :
    ∃ wake deadline k, status = waitingStatus wake deadline k ∧
      ((m.wake 0).setCall i (.finished (.woken count))).calls[j]? =
        some (.ready (.retry wake deadline k)) := by
  -- its course says what a parked call waits for
  obtain ⟨start, L, h_course⟩ := h_on j _ hj
  cases status with
  | parked c task late =>
    obtain ⟨wake, deadline, k, h_waiting⟩ := h_course.of_parked
    have h_ne : i ≠ j := by
      rintro rfl
      cases hi.symm.trans hj
    refine ⟨wake, deadline, k, h_waiting, ?_⟩
    rw [Machine.setCall, List.getElem?_set_ne h_ne, Machine.wake, List.getElem?_map, hj, h_waiting]
    rfl
  | _ => cases h_parked

/-- **A release that can be seen at the deadline wins.** -/
theorem step_giveUp {wake : Attempt σ β} {d : Deadline σ β} {k : ℕ} {v : β} {s' : σ}
    (hi : m.calls[i]? = some (.ready (.giveUp wake d k))) (h : wake m.state = (some v, s')) :
    m.step (program σ β) (.run i) =
      some ⟨s', m.calls.set i (.finished (.released .wake v (k + 1)))⟩ := by
  rw [Machine.step, hi]
  dsimp only
  rw [perform_run (by rw [run, h]) i]
  rfl

/-- `onTimeout` runs directly behind a `wake` in vain, in the same step. -/
theorem notes_onTimeout (h_on : OnCourse m) (h : m.step (program σ β) e = some m')
    {action : σ → β × σ} {result : Option β} (h_mem : .ran j (.onTimeout action) result ∈ notes m e) :
    ∃ wake, notes m e = [.ran j (.wake wake) none, .ran j (.onTimeout action) result] := by
  have h_effect := effect h_on h
  generalize notes m e = ns at h_effect h_mem ⊢
  cases h_effect with
  | made start => cases h_mem
  | woke hi => simp at h_mem
  | own _ _ h_own => exact h_own.of_onTimeout h_mem

end Effect

/-! ### Runs -/

/-- A call is made to run a closure, to notify or to wait. -/
def Task.Begins : Task σ β → Prop
  | .access _ | .notifyAll | .wait _ _ _ => True
  | .retry _ _ _ | .lapse _ _ _ | .giveUp _ _ _ => False

/-- A call that begins is at the start of its course. -/
theorem Task.Begins.course {start : Task σ β} (h : start.Begins) :
    Course start [] (.ready start) := by
  cases start with
  | access action => exact .accessing action
  | notifyAll => exact .notifying
  | wait pre wake deadline => exact .entering pre wake deadline
  | _ => cases h

/-- A run of a notifier. -/
structure Run (σ β : Type) where
  initial : σ
  /-- One interleaving of the calls, with the deadlines that pass. -/
  events : List (Event (Task σ β) Empty)
  begins : ∀ start ∈ Machine.starts events, start.Begins
  /-- The state and the calls after the events. -/
  machine : Guarded σ β
  reached : (Machine.idle initial).steps (program σ β) events = some machine

/-- What a journal says of a notifier: how its state came about, and where its calls stand. -/
structure Kept (initial : σ) (starts : List (Task σ β)) (J : List (Note σ β)) (m : Guarded σ β) :
    Prop where
  state : Leads initial J m.state
  calls : ∀ (i : ℕ) status, m.calls[i]? = some status →
    ∃ start, starts[i]? = some start ∧ Course start (marks i J) status
  silent : ∀ i, m.calls.length ≤ i → marks i J = []

namespace Kept

variable {initial : σ} {starts : List (Task σ β)} {J ns : List (Note σ β)} {m m' : Guarded σ β}
  {e : Event (Task σ β) Empty}

/-- Every call is on its course. -/
theorem onCourse (h : Kept initial starts J m) : OnCourse m := fun i status hi =>
  let ⟨start, _, h_course⟩ := h.calls i status hi
  ⟨start, marks i J, h_course⟩

/-- A new call begins its course. -/
theorem made {start : Task σ β} (h : Kept initial starts J m)
    (h_length : starts.length = m.calls.length) (h_begins : start.Begins) :
    Kept initial (starts ++ [start]) J { m with calls := m.calls ++ [.ready start] } where
  state := h.state
  calls i status hi := by
    -- the earlier calls are not touched
    rcases Nat.lt_or_ge i m.calls.length with h_lt | h_ge
    · rw [List.getElem?_append_left h_lt] at hi
      rw [List.getElem?_append_left (h_length ▸ h_lt)]
      exact h.calls i status hi
    · -- nothing has been noted of the new call
      obtain ⟨h_lt, -⟩ := List.getElem?_eq_some_iff.1 hi
      rw [List.length_append, List.length_singleton] at h_lt
      obtain rfl : i = m.calls.length := by omega
      rw [List.getElem?_concat_length] at hi
      cases hi
      refine ⟨start, ?_, ?_⟩
      · rw [← h_length, List.getElem?_concat_length]
      · rw [h.silent _ h_ge]
        exact h_begins.course
  silent i hi := h.silent i (by rw [List.length_append] at hi; exact Nat.le_of_add_right_le hi)

/-- A notification ends its own course and continues those of the parked calls. -/
theorem woke {i : ℕ} (h : Kept initial starts J m) (hi : m.calls[i]? = some (.ready .notifyAll)) :
    Kept initial starts (J ++ [.notified i (parkedCalls m)])
      ((m.wake 0).setCall i (.finished (.woken (parkedCalls m).length))) where
  state := h.state.append (.notified i _ (.nil _))
  calls j status hj := by
    rcases eq_or_ne j i with rfl | h_ne
    · obtain ⟨start, h_start, h_course⟩ := h.calls j _ hi
      -- waking the others has left the call itself in its place
      obtain ⟨h_lt, -⟩ := List.getElem?_eq_some_iff.1 hi
      rw [Machine.setCall, List.getElem?_set_self (by rwa [Machine.wake, List.length_map])] at hj
      cases hj
      refine ⟨start, h_start, ?_⟩
      rw [marks_append, marks_notified]
      exact h_course.notify _
    · -- the others are woken, and those that were parked have heard the notification
      rw [Machine.setCall, List.getElem?_set_ne (Ne.symm h_ne), Machine.wake, List.getElem?_map] at hj
      obtain ⟨before, hj_before, rfl⟩ := Option.map_eq_some_iff.1 hj
      obtain ⟨start, h_start, h_course⟩ := h.calls j before hj_before
      refine ⟨start, h_start, ?_⟩
      rw [marks_append, marks_notified_of_ne h_ne]
      simp only [mem_parkedCalls_iff hj_before]
      exact h_course.hear
  silent j hj := by
    rw [Machine.setCall, List.length_set, Machine.wake, List.length_map] at hj
    -- nothing is noted of calls that are yet to come
    have h_none := List.getElem?_eq_none hj
    have h_ne : j ≠ i := by
      rintro rfl
      cases h_none.symm.trans hi
    have h_not : j ∉ parkedCalls m := by
      rw [mem_parkedCalls, h_none]
      rintro ⟨_, h_some, -⟩
      cases h_some
    rw [marks_append, h.silent j hj, marks_notified_of_ne h_ne, if_neg h_not]
    rfl

/-- A step of one call continues its course. -/
theorem own {i : ℕ} {status status' : Status (Task σ β) (Reply β)} {s' : σ}
    (h : Kept initial starts J m) (hi : m.calls[i]? = some status)
    (h_own : Own i m.state status ns status' s') :
    Kept initial starts (J ++ ns) ⟨s', m.calls.set i status'⟩ where
  state := h.state.append h_own.leads
  calls j status₁ hj := by
    -- the marks of the step continue the course of its call and no other
    rcases eq_or_ne j i with rfl | h_ne
    · obtain ⟨start, h_start, h_course⟩ := h.calls j status hi
      obtain ⟨h_lt, -⟩ := List.getElem?_eq_some_iff.1 hi
      obtain rfl := Option.some.inj ((List.getElem?_set_self h_lt).symm.trans hj)
      refine ⟨start, h_start, ?_⟩
      rw [marks_append]
      exact h_course.own h_own
    · have hj_before := (List.getElem?_set_ne (Ne.symm h_ne)).symm.trans hj
      obtain ⟨start, h_start, h_course⟩ := h.calls j status₁ hj_before
      refine ⟨start, h_start, ?_⟩
      rw [marks_append, h_own.marks_of_ne h_ne, List.append_nil]
      exact h_course
  silent j hj := by
    rw [List.length_set] at hj
    have h_ne : j ≠ i := by
      rintro rfl
      cases (List.getElem?_eq_none hj).symm.trans hi
    rw [marks_append, h.silent j hj, h_own.marks_of_ne h_ne]
    rfl

/-- **What an event keeps.** -/
theorem effect (h : Kept initial starts J m) (h_length : starts.length = m.calls.length)
    (h_begins : ∀ start, e = .call start → start.Begins) (h_effect : Effect m e ns m') :
    Kept initial (starts ++ e.start?.toList) (J ++ ns) m' := by
  cases h_effect with
  | made start =>
    rw [List.append_nil]
    exact h.made h_length (h_begins start rfl)
  | woke hi =>
    rw [start?_of_caller rfl, Option.toList_none, List.append_nil]
    exact h.woke hi
  | own h_caller hi h_own =>
    rw [start?_of_caller h_caller, Option.toList_none, List.append_nil]
    exact h.own hi h_own

end Kept

namespace Run

/-- What has been noted of a run. -/
def journal (r : Run σ β) : List (Note σ β) :=
  Machine.noted (program σ β) notes (Machine.idle r.initial) r.events

/-- The first tasks of the calls, by their numbers. -/
def starts (r : Run σ β) : List (Task σ β) := Machine.starts r.events

/-- **What holds in every run,** by induction on its events. -/
theorem kept (r : Run σ β) : Kept r.initial r.starts r.journal r.machine := by
  obtain ⟨initial, events, h_begins, m, h⟩ := r
  -- the events are taken from the end, as the journal and the first tasks grow there
  induction events using List.reverseRecOn generalizing m with
  | nil =>
    cases h
    exact ⟨.nil initial, nofun, fun _ _ => rfl⟩
  | append_singleton es e ih =>
    obtain ⟨m₁, h₁, h_step⟩ := Machine.steps_concat _ h
    have h_before := ih (fun start h_mem => h_begins start (Machine.mem_starts_concat h_mem e)) m₁ h₁
    have h_last : ∀ start, e = .call start → start.Begins := by
      rintro start rfl
      apply h_begins
      rw [Machine.starts_concat]
      exact List.mem_append_right _ (List.mem_singleton_self start)
    rw [starts, journal, Machine.starts_concat, Machine.noted_concat h₁ h_step]
    exact h_before.effect (Machine.length_starts h₁) h_last (effect h_before.onCourse h_step)

/-- The waiting protocol. -/
structure Orderly (r : Run σ β) : Prop where
  /-- The state is what the closures that ran make of the first one, one after another. -/
  state : Leads r.initial r.journal r.machine.state
  /-- The calls are those that were made, and every one is on its course. -/
  made : r.machine.calls.length = r.starts.length
  calls : ∀ (i : ℕ) status, r.machine.calls[i]? = some status →
    ∃ start, r.starts[i]? = some start ∧ Course start (marks i r.journal) status
  /-- A waiting call that has been released ran `pre` once, `wake` for each notification while it was
  parked and for its deadline, and `onTimeout` if that released it; the first value ended it. -/
  released : ∀ (i : ℕ) cause v runs,
    r.machine.calls[i]? = some (.finished (.released cause v runs)) →
    Released (marks i r.journal) cause v runs
  /-- A parked call stays parked until somebody notifies or its deadline passes. -/
  parked : ∀ e m', r.machine.step (program σ β) e = some m' → ∀ (j : ℕ) status,
    r.machine.calls[j]? = some status → status.parkedOn 0 = true → e ≠ .expire j →
    (∀ i, e = .run i → r.machine.calls[i]? ≠ some (.ready .notifyAll)) → m'.calls[j]? = some status
  /-- A notification changes no state, makes every parked call run `wake` next, and returns how many
  these are. -/
  notification : ∀ (i : ℕ), r.machine.calls[i]? = some (.ready .notifyAll) →
    ∃ m', r.machine.step (program σ β) (.run i) = some m' ∧ m'.state = r.machine.state ∧
      m'.calls[i]? = some (.finished (.woken (r.machine.waiting 0))) ∧
      ∀ (j : ℕ) status, r.machine.calls[j]? = some status → status.parkedOn 0 = true →
        ∃ wake deadline k, status = waitingStatus wake deadline k ∧
          m'.calls[j]? = some (.ready (.retry wake deadline k))
  /-- `onTimeout` runs directly behind a `wake` in vain, in the same step. -/
  timeout : ∀ e m', r.machine.step (program σ β) e = some m' → ∀ i action result,
    .ran i (.onTimeout action) result ∈ notes r.machine e →
    ∃ wake, notes r.machine e = [.ran i (.wake wake) none, .ran i (.onTimeout action) result]
  /-- A release that can be seen when the call has the lock again after its deadline wins. -/
  lastWake : ∀ (i : ℕ) wake d k v s', r.machine.calls[i]? = some (.ready (.giveUp wake d k)) →
    wake r.machine.state = (some v, s') →
    r.machine.step (program σ β) (.run i) =
      some ⟨s', r.machine.calls.set i (.finished (.released .wake v (k + 1)))⟩

/-- **Every run follows the waiting protocol.** -/
theorem waiting_protocol (r : Run σ β) : r.Orderly where
  state := r.kept.state
  made := (Machine.length_starts r.reached).symm
  calls := r.kept.calls
  released i cause v runs hi := by
    obtain ⟨start, -, h_course⟩ := r.kept.calls i _ hi
    exact h_course.finished_released
  parked e m' h_step j status hj h_parked h_lapse h_notify :=
    stays_parked r.kept.onCourse h_step hj h_parked h_lapse h_notify
  notification i hi := by
    refine ⟨_, step_notify hi, rfl, ?_, fun j status hj h_parked =>
      getElem?_notified r.kept.onCourse hi hj h_parked _⟩
    obtain ⟨h_lt, -⟩ := List.getElem?_eq_some_iff.1 hi
    -- the one who notifies is told how many it has woken
    rw [← length_parkedCalls]
    exact List.getElem?_set_self (by rwa [Machine.wake, List.length_map])
  timeout e m' h_step i action result h_mem := notes_onTimeout r.kept.onCourse h_step h_mem
  lastWake i wake d k v s' hi h := step_giveUp hi h

/-! ### A small run -/

/-- Takes from a number, if there is something to take. -/
def take : Attempt ℕ ℕ
  | 0 => (none, 0)
  | n + 1 => (some (n + 1), n)

/-- Waits for something to take, for a while. -/
def takeSoon : Task ℕ ℕ := .wait take take (some ⟨5, fun n => (100, n)⟩)

/-- Puts something there. -/
def put : Task ℕ ℕ := .access fun n => (0, n + 1)

/-- Two calls wait. One more is put there, and after a notification the first call takes it. Something is
put there again between the deadline of the second call and its last `wake`. A third call gives up. -/
def contendedEvents : List (Event (Task ℕ ℕ) Empty) :=
  [.call (.wait take take none), .run 0, .call takeSoon, .run 1, .call put, .run 2,
    .call .notifyAll, .run 3, .run 0, .run 1, .expire 1, .call put, .run 4, .run 1,
    .call takeSoon, .run 5, .expire 5, .run 5]

def contended : Run ℕ ℕ where
  initial := 0
  events := contendedEvents
  begins := by
    show ∀ start ∈ [.wait take take none, takeSoon, put, .notifyAll, put, takeSoon], Task.Begins start
    simp [takeSoon, put, Task.Begins]
  machine := ((Machine.idle 0).steps (program ℕ ℕ) contendedEvents).get rfl
  reached := (Option.some_get _).symm

/-- Three waits, two of them released by their wake closures and one at its deadline. -/
theorem waiting_protocol_contended :
    contended.machine.calls.map Status.result? =
        [some (.released .wake 1 1), some (.released .wake 1 2), some (.value 0), some (.woken 2),
          some (.value 0), some (.released .timeout 100 1)] ∧
      contended.machine.state = 0 ∧ contended.Orderly :=
  ⟨rfl, rfl, waiting_protocol contended⟩

end Run

end GroupCommit.Notifier
