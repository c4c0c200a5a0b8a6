import GroupCommit.Proofs.Slot.Summary

/-!
# What calls on a slot return

The notes of a history say what the calls on the slot return. A call that returns a flush was given it;
a call that returns a ticket copied the bytes of the ticket in; and a call that returns because its
bytes are written waited with a ticket, its own or that of a fill of its own.

* `Slot.Awaits`, `Slot.Told`: which ticket a call waits with, and what its result says of the history.
* `Slot.Stands`: what is known of a call, wherever it stands.
* `Slot.told`: every result is told truly.
-/

namespace GroupCommit.Slot

variable {slot s : Slot} {m m' : Machine Slot Task Result} {es : List (Event Task Empty)}
  {e : Event Task Empty} {start task : Task} {status status' : Status Task Result} {i : Nat}
  {H N : History} {result : Result} {ticket : Ticket}

/-- The call `i` with this first task waits for the bytes of a ticket. -/
inductive Awaits (H : History) (i : Nat) : Task → Ticket → Prop
  | join (ticket : Ticket) : Awaits H i (.join ticket) ticket
  | fillJoin {fill : Fill} (h : .filled i fill ∈ H) :
      Awaits H i (.fillJoin fill.tag fill.offset fill.data) fill.ticket

/-- What the result of the call `i` with this first task says of the history. -/
def Told (H : History) (i : Nat) (start : Task) : Result → Prop
  | .ok (.filled ticket) => ∃ fill, start = .fill fill.tag fill.offset fill.data ∧
      .filled i fill ∈ H ∧ fill.ticket = ticket
  | .ok (.joined (some flush)) => .claimed i flush ∈ H
  | .ok (.joined none) =>
    ∃ ticket A B, H = A ++ .spared i ticket :: B ∧ Awaits A i start ticket
  | _ => True

/-- What is known of the call `i` with this first task, wherever it stands. -/
inductive Stands (H : History) (i : Nat) (start : Task) : Status Task Result → Prop
  | begins (h : start.IsOperation) : Stands H i start (.ready start)
  | blocked (h : start.IsOperation) (c : Nat) : Stands H i start (.parked c start none)
  | joins {ticket : Ticket} (h : Awaits H i start ticket) : Stands H i start (.ready (.join ticket))
  | rejoins {ticket : Ticket} (h : Awaits H i start ticket) :
      Stands H i start (.ready (.rejoin ticket))
  | waits {ticket : Ticket} (h : Awaits H i start ticket) (c : Nat) :
      Stands H i start (.parked c (.rejoin ticket) (some (.joinLate ticket)))
  | announces {result : Result} (h : Told H i start result) :
      Stands H i start (.ready (.announce result))
  | returns {result : Result} (h : Told H i start result) : Stands H i start (.finished result)

/-! ### Longer histories -/

/-- Later notes take no ticket away. -/
theorem Awaits.append (h : Awaits H i start ticket) (N : History) : Awaits (H ++ N) i start ticket := by
  cases h with
  | join => exact .join ticket
  | fillJoin h => exact .fillJoin (List.mem_append_left N h)

/-- What a call has been told stays in the history. -/
theorem Told.append (h : Told H i start result) (N : History) : Told (H ++ N) i start result := by
  match result, h with
  | .ok (.filled ticket), h =>
    obtain ⟨fill, h_start, h_mem, h_ticket⟩ := h
    exact ⟨fill, h_start, List.mem_append_left N h_mem, h_ticket⟩
  | .ok (.joined (some flush)), h => exact List.mem_append_left N h
  | .ok (.joined none), h =>
    obtain ⟨ticket, A, B, rfl, h_awaits⟩ := h
    exact ⟨ticket, A, B ++ N, by simp, h_awaits⟩
  | .ok .done, _ => trivial
  | .ok (.accepted now), _ => trivial
  | .error stop, _ => trivial

/-- Later notes leave a call where it stands. -/
theorem Stands.append (h : Stands H i start status) (N : History) :
    Stands (H ++ N) i start status := by
  cases h with
  | begins h => exact .begins h
  | blocked h c => exact .blocked h c
  | joins h => exact .joins (h.append N)
  | rejoins h => exact .rejoins (h.append N)
  | waits h c => exact .waits (h.append N) c
  | announces h => exact .announces (h.append N)
  | returns h => exact .returns (h.append N)

/-- Waking a call leaves it where it stands. -/
theorem Stands.remains (h : Stands H i start status) (h_remains : status.Remains status') :
    Stands H i start status' := by
  cases h_remains with
  | same => exact h
  | woken c wake late =>
    cases h with
    | blocked h => exact .begins h
    | waits h => exact .rejoins h

/-! ### Steps -/

/-- How the step of a call that waits for the bytes of a ticket can end. -/
inductive WaitEnds (ticket : Ticket) : Move Task Result → Prop
  | error (stop : Stop LogError) : WaitEnds ticket (.finish (.error stop))
  | joined (flush : Option Flush) : WaitEnds ticket (.finish (.ok (.joined flush)))
  | wait : WaitEnds ticket (.park 0 (.rejoin ticket) (some (.joinLate ticket)))
  | again : WaitEnds ticket (.goto (.join ticket))

/-- Leaving with what has been found ends the wait. -/
theorem waitEnds_leaveWith (s : Slot) (found : Except (Stop LogError) (Option Flush)) :
    WaitEnds ticket (s.leaveWith (found.map .joined)).1 := by
  rw [leaveWith]
  cases s.leave with
  | mk left s' =>
    cases left with
    | error broken => exact .error _
    | ok _ =>
      cases found with
      | error stop => exact .error stop
      | ok flush => exact .joined flush

/-- A poll ends the wait, unless it finds nothing. -/
theorem waitEnds_pollOr {wait : Slot → Move Task Result × Slot}
    (h_wait : ∀ s, WaitEnds ticket (wait s).1) (s : Slot) :
    WaitEnds ticket (s.pollOr ticket wait).1 := by
  rw [pollOr]
  cases s.poll ticket with
  | mk found s' =>
    rcases found with _ | (error | broken) | flush
    · exact h_wait s'
    · exact waitEnds_leaveWith s' (.error (.refused error))
    · exact .error _
    · exact waitEnds_leaveWith s' (.ok flush)

theorem waitEnds_await (s : Slot) (ticket : Ticket) : WaitEnds ticket (s.await ticket).1 :=
  waitEnds_pollOr (fun _ => .wait) s

/-- Giving up ends the wait or begins it again. -/
theorem waitEnds_giveUp (s : Slot) (ticket : Ticket) : WaitEnds ticket (s.giveUp ticket).1 := by
  rw [giveUp]
  cases s.leave with
  | mk left s' =>
    cases left with
    | error broken => exact .error _
    | ok _ =>
      dsimp only
      cases s'.claimAtDeadline ticket with
      | mk claimed _ =>
        rcases claimed with broken | _ | flush
        · exact .error _
        · exact .again
        · exact .joined (some flush)

/-- A step of a call that waits. -/
theorem Awaits.step (h : Awaits H i start ticket) {move : Move Task Result}
    (h_ends : WaitEnds ticket move) (h_leads : move.Leads status) :
    Stands (H ++ endNotes i (some ticket) move) i start status := by
  cases h_ends with
  | error stop =>
    cases h_leads
    exact .returns trivial
  | joined flush =>
    cases h_leads
    refine .returns ?_
    cases flush with
    -- the note that nothing is due is the one just made
    | none => exact ⟨ticket, H, [], rfl, h⟩
    | some flush => exact List.mem_append_right H (List.mem_singleton_self _)
  | wait =>
    cases h_leads
    exact .waits (h.append _) 0
  | again =>
    cases h_leads
    exact .joins (h.append _)

/-- A step of a call that finds its generation not open, or goes on. -/
theorem stands_whenAccepted {tag : Nat} {next : Move Task Result × Slot} (h : start.IsOperation)
    (h_leads : (s.whenAccepted tag start next).1.Leads status)
    (h_next : s.accepts tag = .ok true → next.1.Leads status → Stands H i start status) :
    Stands H i start status := by
  rw [whenAccepted] at h_leads
  cases h_accepts : s.accepts tag with
  | error stop =>
    rw [h_accepts] at h_leads
    cases h_leads
    exact .returns trivial
  | ok now =>
    rw [h_accepts] at h_leads
    cases now with
    | false =>
      cases h_leads
      exact .blocked h 0
    | true => exact h_next h_accepts h_leads

/-- A step that copies bytes in, and how it goes on. -/
theorem stands_copyThen {offset : Nat} {data : Bytes}
    {completing other : Ticket → Slot → Move Task Result × Slot}
    (h_leads : (s.copyThen offset data completing other).1.Leads status)
    (h_completing : ∀ ticket s', s.copyIn offset data = (.ok ticket, s') →
      s.copyThen offset data completing other = completing ticket s' →
      (completing ticket s').1.Leads status → Stands H i start status)
    (h_other : ∀ ticket s', s.copyIn offset data = (.ok ticket, s') →
      s.copyThen offset data completing other = other ticket s' →
      (other ticket s').1.Leads status → Stands H i start status) :
    Stands H i start status := by
  -- `h_completing` and `h_other` speak of the same copy as the step, so all three are rewritten together
  rw [copyThen] at h_leads h_completing h_other
  cases h_copy : s.copyIn offset data with
  | mk copied s' =>
    rw [h_copy] at h_leads h_completing h_other
    cases copied with
    | error broken =>
      cases h_leads
      exact .returns trivial
    | ok ticket =>
      dsimp only at h_leads h_completing h_other
      by_cases h_full : s'.dirty = s'.capacity
      · rw [if_pos h_full] at h_leads h_completing
        exact h_completing ticket s' rfl rfl h_leads
      · rw [if_neg h_full] at h_leads h_other
        exact h_other ticket s' rfl rfl h_leads

/-- A fill is noted, and its ticket is the one that the caller gets. -/
theorem mem_fillNotes {tag offset : Nat} {data : Bytes} {s' : Slot} (h_open : s.accepts tag = .ok true)
    (h_copy : s.copyIn offset data = (.ok ticket, s')) :
    ∃ fill : Fill, s.fillNotes i tag offset data = [.filled i fill] ∧ fill.tag = tag ∧
      fill.offset = offset ∧ fill.data = data ∧ fill.ticket = ticket := by
  obtain ⟨-, h_tag, -⟩ := accepts_eq_true.1 h_open
  obtain ⟨-, rfl, -⟩ := of_copyIn h_copy
  exact ⟨_, fillNotes_open h_open h_copy, h_tag, rfl, rfl, rfl⟩

/-- The step of a call that only fills. -/
theorem stands_fill {tag offset : Nat} {data : Bytes}
    (h_leads : (run (.fill tag offset data) s).1.Leads status) :
    Stands (H ++ s.stepNotes i (.fill tag offset data)) i (.fill tag offset data) status := by
  refine stands_whenAccepted trivial h_leads fun h_open h_leads => ?_
  -- the ticket is that of the fill which the step has noted
  have h_told : ∀ ticket s', s.copyIn offset data = (.ok ticket, s') →
      Told (H ++ s.stepNotes i (.fill tag offset data)) i (.fill tag offset data)
        (.ok (.filled ticket)) := by
    intro ticket s' h_copy
    obtain ⟨fill, h_notes, rfl, rfl, rfl, h_ticket⟩ := mem_fillNotes (i := i) h_open h_copy
    refine ⟨fill, rfl, List.mem_append_right H ?_, h_ticket⟩
    rw [stepNotes, h_notes]
    exact List.mem_singleton_self _
  refine stands_copyThen h_leads (fun ticket s' h_copy _ h_leads => ?_)
    fun ticket s' h_copy _ h_leads => ?_
  · cases h_leads
    exact .announces (h_told ticket s' h_copy)
  · cases h_leads
    exact .returns (h_told ticket s' h_copy)

/-- The step of a call that fills and then waits. -/
theorem stands_fillJoin {tag offset : Nat} {data : Bytes}
    (h_leads : (run (.fillJoin tag offset data) s).1.Leads status) :
    Stands (H ++ s.stepNotes i (.fillJoin tag offset data)) i (.fillJoin tag offset data) status := by
  refine stands_whenAccepted trivial h_leads fun h_open h_leads => ?_
  refine stands_copyThen h_leads (fun ticket s' h_copy h_eq h_leads => ?_)
    fun ticket s' h_copy h_eq h_leads => ?_
  · -- the slot is complete, and the call has the flush
    cases h_leads
    refine .returns (List.mem_append_right H (List.mem_append_right _ ?_))
    rw [run, whenAccepted, h_open]
    dsimp only
    rw [h_eq]
    exact List.mem_singleton_self _
  · cases h_leads
    obtain ⟨fill, h_notes, rfl, rfl, rfl, rfl⟩ := mem_fillNotes (i := i) h_open h_copy
    refine .joins (.fillJoin (List.mem_append_right H ?_))
    rw [stepNotes, h_notes]
    exact List.mem_cons_self

/-- The first step of a call. -/
theorem stands_first (h : start.IsOperation) (h_leads : (run start s).1.Leads status) :
    Stands (H ++ s.stepNotes i start) i start status := by
  cases start with
  | acquire tag =>
    refine stands_whenAccepted h h_leads fun _ h_leads => ?_
    cases h_leads
    exact .returns trivial
  | tryAcquire tag =>
    cases h_leads
    refine .returns ?_
    cases s.accepts tag <;> trivial
  | fill tag offset data => exact stands_fill h_leads
  | fillJoin tag offset data => exact stands_fillJoin h_leads
  | join ticket => exact Awaits.step (.join ticket) (waitEnds_await _ ticket) h_leads
  | release flush =>
    -- a flush that is handed back wakes the others, also when it is refused, but not after a fault
    rw [run] at h_leads
    cases h_back : s.handBack flush with
    | mk result s' =>
      rw [h_back] at h_leads
      rcases result with (error | broken) | _ <;> cases h_leads
      · exact .announces trivial
      · exact .returns trivial
      · exact .announces trivial
  | abandon flush reason =>
    cases h_leads
    exact .announces trivial
  | skip tag =>
    rw [run] at h_leads
    cases h_skip : s.skipOver tag with
    | mk result s' =>
      rw [h_skip] at h_leads
      cases result with
      | error broken =>
        cases h_leads
        exact .returns trivial
      | ok _ =>
        cases h_leads
        exact .announces trivial
  | poison reason =>
    cases h_leads
    exact .announces trivial
  -- nobody begins with one of the later tasks
  | rejoin ticket => exact h.elim
  | joinLate ticket => exact h.elim
  | announce result => exact h.elim

/-- A step of a call. -/
theorem Stands.step (h : Stands H i start (.ready task)) (h_leads : (run task s).1.Leads status) :
    Stands (H ++ s.stepNotes i task) i start status := by
  cases h with
  | begins h => exact stands_first h h_leads
  | joins h => exact h.step (waitEnds_await _ _) h_leads
  | rejoins h => exact h.step (waitEnds_await _ _) h_leads
  -- waking the others, the call ends with what it was about to return
  | announces h =>
    cases h_leads with
    | notify h_leads =>
      cases h_leads
      exact .returns (h.append _)

/-- A step of a call at its deadline. -/
theorem Stands.late {c : Nat} {wake : Task} (h : Stands H i start (.parked c wake (some task)))
    (h_leads : (run task s).1.Leads status) : Stands (H ++ s.stepNotes i task) i start status := by
  cases h with
  | @waits ticket h c =>
    exact h.step (waitEnds_pollOr (fun s => waitEnds_giveUp s ticket) s) h_leads

/-! ### Runs -/

/-- Every call stands as its first task and the history say. -/
theorem stands (h_orderly : Orderly slot es)
    (h_steps : (Machine.idle slot).steps program es = some m) :
    ∀ (i : Nat) status, m.calls[i]? = some status →
      ∃ start, (Machine.starts es)[i]? = some start ∧ Stands (history slot es) i start status := by
  induction es using List.reverseRecOn generalizing m with
  | nil =>
    cases h_steps
    intro i status hi
    rw [Machine.getElem?_idle] at hi
    cases hi
  | append_singleton es e ih =>
    obtain ⟨m₁, h₁, h_step⟩ := Machine.steps_concat _ h_steps
    have h_before := ih h_orderly.of_append h₁
    intro i status hi
    rw [history_concat h₁ h_step, Machine.starts_concat]
    -- a call that was there before has the same first task
    have h_start : ∀ {start}, (Machine.starts es)[i]? = some start →
        (Machine.starts es ++ e.start?.toList)[i]? = some start := by
      intro start h_start
      obtain ⟨h_lt, -⟩ := List.getElem?_eq_some_iff.1 h_start
      exact (List.getElem?_append_left h_lt).trans h_start
    cases Machine.came h_step hi with
    | made start =>
      refine ⟨start, ?_, .begins h_orderly.operation_last⟩
      rw [← Machine.length_starts h₁]
      exact List.getElem?_concat_length
    | @stepped _ _ status₁ _ o h_acts h_stepped h_leads =>
      cases h_acts with
      | @run _ task hi =>
        obtain ⟨start, h_first, h_stands⟩ := h_before i _ hi
        rw [Performs.notes (.inl ⟨rfl, hi⟩)]
        exact ⟨start, h_start h_first, h_stands.step h_leads⟩
      | @expire _ c wake late hi =>
        obtain ⟨start, h_first, h_stands⟩ := h_before i _ hi
        rw [Performs.notes (.inr ⟨c, wake, rfl, hi⟩)]
        exact ⟨start, h_start h_first, h_stands.late h_leads⟩
      | @answer _ task answer hi => exact answer.elim
    | remained hi h_remains =>
      obtain ⟨start, h_first, h_stands⟩ := h_before i _ hi
      exact ⟨start, h_start h_first, (h_stands.remains h_remains).append _⟩

/-- **What a call returns is in the history.** -/
theorem told (h_orderly : Orderly slot es)
    (h_steps : (Machine.idle slot).steps program es = some m)
    (hi : m.calls[i]? = some (.finished result)) :
    ∃ start, (Machine.starts es)[i]? = some start ∧ Told (history slot es) i start result := by
  obtain ⟨start, h_start, h_stands⟩ := stands h_orderly h_steps i _ hi
  cases h_stands with
  | returns h => exact ⟨start, h_start, h⟩

end GroupCommit.Slot
