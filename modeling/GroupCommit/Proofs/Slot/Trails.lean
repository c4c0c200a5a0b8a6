import GroupCommit.Proofs.Slot.Faults

/-!
# The trail of a call

Between two steps of one call other calls may change the slot, so what a call does to the slot is what
its own steps do, one after another: its trail. A call that ends in a fault has left the slot alone in
each step before the last, except that it may have been counted as a waiter. The steps in which it is
counted in and out cancel out if the slot is looked at apart from the call.

The only call that changes the slot and then goes on to wait is one that fills and joins. It does not
fault any more: the slot has reached its generation, and there is something to flush.

* `Slot.trail`: what the steps of a call do to the slot.
* `Slot.Entered`: the slot has reached the bytes of a ticket.
* `Slot.Trailed`, `Slot.trailed`: what is known of the trail of a call, from where the call stands.
* `Slot.Links`, `Slot.leaves_alone`: a call that nobody comes between.
* `Slot.fault_leaves`: what the slot is after a fault, and when it counts more than it holds.
-/

namespace GroupCommit.Slot

variable {slot s s' now : Slot} {m m' m₁ : Machine Slot Task Result} {es : List (Event Task Empty)}
  {e : Event Task Empty} {i index capacity ringSize : Nat} {start : Task} {ticket : Ticket}
  {broken : Fault} {status status' : Status Task Result} {o : Move Task Result × Slot}
  {T : List (Slot × Slot)}

/-! ### The steps of one call -/

/-- The slot apart from the call `i`. -/
def apartFrom (m : Machine Slot Task Result) (i : Nat) : Slot :=
  match m.calls[i]? with
  | some status => apart status m.state
  | none => m.state

/-- The slot apart from a call is told from the status of the call. -/
theorem apartFrom_eq (hi : m.calls[i]? = some status) : apartFrom m i = apart status m.state := by
  rw [apartFrom, hi]

/-- What an event does to the slot if it is a step of the call `i`. -/
def ownSteps (i : Nat) (m : Machine Slot Task Result) (e : Event Task Empty) : List (Slot × Slot) :=
  if e.caller? = some i then (m.step program e).toList.map fun m' => (apartFrom m i, apartFrom m' i)
  else []

/-- What the steps of the call `i` do to the slot, one after another. -/
def trail (slot : Slot) (es : List (Event Task Empty)) (i : Nat) : List (Slot × Slot) :=
  Machine.noted program (ownSteps i) (Machine.idle slot) es

/-- An event of the call is one step of it. -/
theorem ownSteps_self (h : e.caller? = some i) (h_step : m.step program e = some m') :
    ownSteps i m e = [(apartFrom m i, apartFrom m' i)] := by
  rw [ownSteps, if_pos h, h_step]
  rfl

theorem ownSteps_call (i : Nat) (m : Machine Slot Task Result) (start : Task) :
    ownSteps i m (.call start) = [] := rfl

/-- An event of another call is no step of it. -/
theorem ownSteps_other (h : e.caller? ≠ some i) : ownSteps i m e = [] := if_neg h

/-- The trail grows with each event by the call's own steps. -/
theorem trail_concat (h_steps : (Machine.idle slot).steps program es = some m)
    (h_step : m.step program e = some m') (i : Nat) :
    trail slot (es ++ [e]) i = trail slot es i ++ ownSteps i m e :=
  Machine.noted_concat h_steps h_step

/-- A call that has not been made has made no steps. -/
theorem trail_eq_nil (h_steps : (Machine.idle slot).steps program es = some m)
    (h : m.calls.length ≤ i) : trail slot es i = [] := by
  induction es using List.reverseRecOn generalizing m with
  | nil => rfl
  | append_singleton es e ih =>
    obtain ⟨m₁, h₁, h_step⟩ := Machine.steps_concat _ h_steps
    rw [trail_concat h₁ h_step]
    rcases Machine.step_cases h_step with ⟨start, rfl, rfl⟩ | ⟨j, status, o, h_acts, h_stepped⟩
    · rw [List.length_append] at h
      rw [ih h₁ (Nat.le_of_add_right_le h), ownSteps_call]
      rfl
    · have h_le : m₁.calls.length ≤ i := h_stepped.length ▸ h
      obtain ⟨h_lt, -⟩ := List.getElem?_eq_some_iff.1 h_acts.before
      -- the step is that of a call which had been made
      rw [ih h₁ h_le, ownSteps_other]
      · rfl
      · rw [h_acts.caller]
        rintro ⟨⟩
        exact absurd h_lt h_le.not_gt

/-! ### Bytes that were reached -/

/-- The slot has reached the bytes of the ticket: they are in the generation that it is in, or it has gone
on from that. -/
structure Entered (ticket : Ticket) (s : Slot) : Prop where
  gap_pos : 0 < s.gap
  tag_le : ticket.tag ≤ s.tag
  stop_le : s.tag = ticket.tag → ticket.stop ≤ s.highWater

namespace Entered

/-- A slot that moves on has left the ticket's generation. -/
theorem advance (h : Entered ticket s) : Entered ticket s.advance.2 := by
  rcases advance_cases h.gap_pos with ⟨buffer, h_eq⟩ | ⟨h_lt, tag, skipped, buffer, h_eq⟩
  · rw [h_eq]
    exact ⟨h.gap_pos, h.tag_le, h.stop_le⟩
  · rw [h_eq] at h_lt ⊢
    have h_beyond : ticket.tag < tag := h.tag_le.trans_lt h_lt
    exact ⟨h.gap_pos, h_beyond.le, fun h_tag => absurd h_tag h_beyond.ne'⟩

/-- No change takes back that the ticket's generation has been entered. -/
theorem keepsThrough (ticket : Ticket) : KeepsThrough (fun _ _ => True) (Entered ticket) where
  count := fun _ h => ⟨h.gap_pos, h.tag_le, h.stop_le⟩
  copyIn := fun {s} offset data _ h _ => by
    have h_copied := s.copied offset data
    generalize s.copyIn offset data = o at h_copied
    cases h_copied with
    | refused | uncounted | overflows => exact ⟨h.gap_pos, h.tag_le, h.stop_le⟩
    -- further bytes only raise the mark
    | fits => exact ⟨h.gap_pos, h.tag_le, fun h_tag => (h.stop_le h_tag).trans (le_max_left _ _)⟩
  complete := fun h _ _ => ⟨h.gap_pos, h.tag_le, h.stop_le⟩
  claimFull := fun h _ => ⟨h.gap_pos, h.tag_le, h.stop_le⟩
  claimEarly := fun h _ => ⟨h.gap_pos, h.tag_le, h.stop_le⟩
  stop := fun _ _ h => ⟨h.gap_pos, h.tag_le, h.stop_le⟩
  buffer := fun _ h => ⟨h.gap_pos, h.tag_le, h.stop_le⟩
  later := fun _ h => ⟨h.gap_pos, h.tag_le, h.stop_le⟩
  reopen := fun _ h _ => ⟨h.gap_pos, h.tag_le, h.stop_le⟩
  advance := fun h _ => h.advance

/-- A fill gives a ticket of the generation it enters. -/
theorem of_fill (h_gap : 0 < s.gap) (offset : Nat) (data : Bytes) :
    Entered ⟨s.tag, offset + data.length, s.claims⟩ (s.filledWith offset data) :=
  ⟨h_gap, le_rfl, fun _ => le_max_right _ _⟩

end Entered

/-- Filling in nothing changes nothing. -/
theorem filledWith_nothing (s : Slot) : s.filledWith 0 [] = s := by
  simp [filledWith, Buffer.write, Bytes.overwrite, Bytes.zeros]

/-! ### What is known of the steps -/

/-- The slot stays as it is in these steps. -/
def Untouched (T : List (Slot × Slot)) : Prop := ∀ p ∈ T, p.1 = p.2

/-- One more step that leaves the slot alone. -/
theorem Untouched.concat (h : Untouched T) (h_eq : s = s') : Untouched (T ++ [(s, s')]) := by
  intro p h_mem
  rcases List.mem_append.1 h_mem with h_mem | h_mem
  · exact h p h_mem
  · cases List.mem_singleton.1 h_mem
    exact h_eq

/-- What is known of the steps of a call that looks after a ticket. It came with the ticket, or it has
filled in the bytes, and nothing has been changed if there are none. -/
def Seeks (start : Task) (ticket : Ticket) (now : Slot) (T : List (Slot × Slot)) : Prop :=
  (start = .join ticket ∧ Untouched T) ∨ (Entered ticket now ∧ (ticket.stop = 0 → Untouched T))

/-- What is known of the steps of a call that began with this task, from where it stands and from the slot
as it is now. -/
inductive Trailed (start : Task) (now : Slot) : List (Slot × Slot) → Status Task Result → Prop
  | begins {T : List (Slot × Slot)} (h_join : ∀ ticket, start ≠ .join ticket) (h : Untouched T) :
      Trailed start now T (.ready start)
  | blocked {T : List (Slot × Slot)} (h_join : ∀ ticket, start ≠ .join ticket) (h : Untouched T) :
      Trailed start now T (.parked 0 start none)
  | looks {T : List (Slot × Slot)} {status : Status Task Result} {ticket : Ticket}
      (h_at : AtTicket ticket status) (h : Seeks start ticket now T) : Trailed start now T status
  | announces {T : List (Slot × Slot)} {result : Result} (h : Faultless result) :
      Trailed start now T (.ready (.announce result))
  | returned {T : List (Slot × Slot)} {result : Result} (h : Faultless result) :
      Trailed start now T (.finished result)
  | faulted {T : List (Slot × Slot)} {p : Slot × Slot} {broken : Fault} (h : Untouched T)
      (h_leaves : Leaves start p.1 broken p.2) :
      Trailed start now (T ++ [p]) (.finished (.error (.fault broken)))

namespace Trailed

/-- A call that begins. -/
theorem made (start : Task) (now : Slot) : Trailed start now [] (.ready start) := by
  have h_none : Untouched [] := fun p h_mem => absurd h_mem List.not_mem_nil
  by_cases h_join : ∃ ticket, start = .join ticket
  · obtain ⟨ticket, rfl⟩ := h_join
    exact .looks .joins (.inl ⟨rfl, h_none⟩)
  · exact .begins (fun ticket h_eq => h_join ⟨ticket, h_eq⟩) h_none

/-- A call that does not step may be woken. -/
theorem remains (h : Trailed start now T status) (h_remains : status.Remains status')
    (h_entered : ∀ ticket, Entered ticket now → Entered ticket s') : Trailed start s' T status' := by
  have h_seeks : ∀ {ticket}, Seeks start ticket now T → Seeks start ticket s' T := fun h =>
    h.imp_right (And.imp_left (h_entered _))
  cases h_remains with
  | same =>
    cases h with
    | begins h_join h => exact .begins h_join h
    | blocked h_join h => exact .blocked h_join h
    | looks h_at h => exact .looks h_at (h_seeks h)
    | announces h => exact .announces h
    | returned h => exact .returned h
    | faulted h h_leaves => exact .faulted h h_leaves
  | woken =>
    cases h with
    | blocked h_join h => exact .begins h_join h
    | looks h_at h =>
      -- woken, the call still looks after its ticket
      cases h_at
      exact .looks .rejoins (h_seeks h)

/-- A first step, or one that tries the same again. -/
theorem of_begins (h : Untouched T) (h_begins : Begins start s o)
    (h_start : start.isCounted = false) (h_join : ∀ ticket, start ≠ .join ticket) (h_gap : 0 < s.gap)
    (h_leads : o.1.Leads status') :
    Trailed start o.2 (T ++ [(s, apart status' o.2)]) status' := by
  cases h_begins with
  | blocked =>
    cases h_leads
    have h_parked : waits (.parked 0 start none) = false := h_start
    exact .blocked h_join (h.concat (apart_of_not_waits h_parked s).symm)
  | returns h_result => cases h_leads; exact .returned h_result
  | announces h_result => cases h_leads; exact .announces h_result
  | @joins tag offset data h_eq =>
    cases h_leads
    refine .looks .joins (.inr ⟨.of_fill h_gap offset data, fun h_stop => h.concat ?_⟩)
    -- without bytes nothing is filled in
    obtain ⟨rfl, h_none⟩ := Nat.add_eq_zero_iff.1 (show offset + data.length = 0 from h_stop)
    rw [List.length_eq_zero_iff.1 h_none, filledWith_nothing]
    rfl
  | @faults broken s' h_leaves =>
    cases h_leads
    exact .faulted h h_leaves

/-- A step of a call that looks after a ticket. -/
theorem of_looks (h : Seeks start ticket s T) (h_looks : Looks ticket (apart status s) o)
    (h_leads : o.1.Leads status') :
    Trailed start o.2 (T ++ [(apart status s, apart status' o.2)]) status' := by
  -- a look that leaves the slot as it is keeps what is known of the ticket
  have h_seeks : ∀ {s₁ s₂}, (Entered ticket s → Entered ticket s₁) → apart status s = s₂ →
      Seeks start ticket s₁ (T ++ [(apart status s, s₂)]) := by
    intro s₁ s₂ h_entered h_eq
    refine h.imp (And.imp_right fun h => h.concat h_eq) fun h => ⟨h_entered h.1, fun h_stop => ?_⟩
    exact (h.2 h_stop).concat h_eq
  cases h_looks with
  | waits =>
    cases h_leads
    exact .looks .waits (h_seeks (fun h => ⟨h.gap_pos, h.tag_le, h.stop_le⟩) rfl)
  | again =>
    cases h_leads
    exact .looks .joins (h_seeks (fun h => ⟨h.gap_pos, h.tag_le, h.stop_le⟩) rfl)
  | returns h_result => cases h_leads; exact .returned h_result
  | ahead h_lt =>
    cases h_leads
    rcases h with ⟨rfl, h⟩ | ⟨h_entered, -⟩
    · exact .faulted h (.stranded rfl h_lt)
    · exact absurd h_lt h_entered.tag_le.not_gt
  | empty h_tag h_high =>
    -- the ticket of an empty slot is for no bytes, and its call has left the slot as it was
    cases h_leads
    have h_untouched : Untouched T := by
      rcases h with ⟨-, h⟩ | ⟨h_entered, h⟩
      · exact h
      · exact h (Nat.le_zero.1 (h_high ▸ h_entered.stop_le h_tag))
    exact .faulted h_untouched (.unchanged nofun nofun)

theorem step (h : Trailed start s T status) (h_operation : start.IsOperation) (h_gap : 0 < s.gap)
    (h_treads : Treads s status o) (h_leads : o.1.Leads status') :
    Trailed start o.2 (T ++ [(apart status s, apart status' o.2)]) status' := by
  have h_start : start.isCounted = false := h_operation.uncounted.1
  cases h with
  | begins h_join h =>
    rw [apart_of_not_waits (show waits (.ready start) = false from h_start)]
    cases h_treads with
    | begins => exact .of_begins h (begins_run h_operation h_join s) h_start h_join h_gap h_leads
    | looks h_at =>
      cases h_at with
      | joins => exact absurd rfl (h_join _)
      | rejoins => exact h_operation.elim
    | announces => exact h_operation.elim
  -- a blocked call does nothing by itself
  | blocked h_join h =>
    cases h_treads with
    | looks h_at => cases h_at
  | @looks T status ticket h_at h =>
    cases h_treads with
    | begins h_operation' h_join =>
      cases h_at with
      | joins => exact absurd rfl (h_join _)
      | rejoins => exact h_operation'.elim
    | @looks _ ticket' _ h_at' h_looks =>
      -- a call looks after one ticket all the time
      have h_same : ticket' = ticket := by cases h_at <;> cases h_at' <;> rfl
      exact .of_looks h (h_same ▸ h_looks) h_leads
    | announces => cases h_at
  | announces h =>
    cases h_treads with
    | begins h_operation' => exact h_operation'.elim
    | looks h_at => cases h_at
    | announces h =>
      cases h_leads with
      | notify h_leads => cases h_leads; exact .returned h
  | returned h =>
    cases h_treads with
    | looks h_at => cases h_at
  | faulted =>
    cases h_treads with
    | looks h_at => cases h_at

/-- A call that has ended in a fault has changed the slot with its last step alone. -/
theorem of_fault (h : Trailed start now T (.finished (.error (.fault broken)))) :
    ∃ T' p, T = T' ++ [p] ∧ Untouched T' ∧ Leaves start p.1 broken p.2 := by
  cases h with
  | looks h_at => cases h_at
  | returned h => exact absurd rfl (h broken)
  | faulted h h_leaves => exact ⟨_, _, rfl, h, h_leaves⟩

end Trailed

/-- **The trail of every call** in a run. -/
theorem trailed (h_gap : 0 < slot.gap)
    (h_operations : ∀ start ∈ Machine.starts es, start.IsOperation)
    (h_steps : (Machine.idle slot).steps program es = some m)
    (h_start : (Machine.starts es)[i]? = some start) (hi : m.calls[i]? = some status) :
    Trailed start m.state (trail slot es i) status := by
  induction es using List.reverseRecOn generalizing m status with
  | nil => cases h_start
  | append_singleton es e ih =>
    obtain ⟨m₁, h₁, h_step⟩ := Machine.steps_concat _ h_steps
    have h_before : ∀ start ∈ Machine.starts es, start.IsOperation := fun start h_mem =>
      h_operations start (Machine.mem_starts_concat h_mem e)
    have h_gap₁ : 0 < m₁.state.gap := (gap_steps h₁).symm ▸ h_gap
    have h_operation : start.IsOperation := h_operations start (List.mem_of_getElem? h_start)
    have h_length := Machine.length_starts h₁
    rw [Machine.starts_concat] at h_start
    rw [trail_concat h₁ h_step]
    -- a call that was there before the event began with the same task
    have h_old : ∀ {status₁}, m₁.calls[i]? = some status₁ →
        Trailed start m₁.state (trail slot es i) status₁ := by
      intro status₁ hi₁
      obtain ⟨h_lt, -⟩ := List.getElem?_eq_some_iff.1 hi₁
      rw [List.getElem?_append_left (h_length ▸ h_lt)] at h_start
      exact ih h_before h₁ h_start hi₁
    rcases Machine.step_cases h_step with ⟨start', rfl, rfl⟩ | ⟨j, status₁, o, h_acts, h_stepped⟩
    · rw [ownSteps_call, List.append_nil]
      rcases Machine.getElem?_call hi with hi₁ | ⟨rfl, rfl⟩
      · exact h_old hi₁
      · rw [← h_length] at h_start
        cases List.getElem?_concat_length.symm.trans h_start
        rw [trail_eq_nil h₁ le_rfl]
        exact .made start _
    · by_cases h_eq : i = j
      · subst h_eq
        obtain ⟨status', hi', h_leads⟩ := h_stepped.self
        cases hi'.symm.trans hi
        -- the step is that of the call itself
        rw [ownSteps_self h_acts.caller h_step, apartFrom_eq h_acts.before, apartFrom_eq hi,
          h_stepped.state]
        have h_treads := (tallied h_before h₁).treads h_acts
        exact (h_old h_acts.before).step h_operation h_gap₁ h_treads h_leads
      · obtain ⟨status₀, hi₀, h_remains⟩ := h_stepped.exists_before h_eq hi
        -- the step is that of another, which goes on from where the call stands
        have h_other : e.caller? ≠ some i := by
          rw [h_acts.caller]
          rintro ⟨⟩
          exact h_eq rfl
        rw [ownSteps_other h_other, List.append_nil]
        exact (h_old hi₀).remains h_remains fun ticket h_entered =>
          keeps_step (Entered.keepsThrough ticket).keeps h_entered h_step

/-! ### A call that nobody comes between -/

/-- These steps lead from one slot to the other, each beginning where the one before it ends. -/
def Links : Slot → List (Slot × Slot) → Slot → Prop
  | s, [], s' => s = s'
  | s, p :: T, s' => s = p.1 ∧ Links p.2 T s'

/-- If all steps but the last leave the slot alone, then that one leads from the first slot to the last. -/
theorem Links.last {p : Slot × Slot} (h : Links s (T ++ [p]) s') (h_untouched : Untouched T) :
    p = (s, s') := by
  induction T generalizing s with
  | nil =>
    obtain ⟨rfl, h_eq⟩ := h
    rw [← show p.2 = s' from h_eq]
  | cons q T ih =>
    obtain ⟨rfl, h⟩ := h
    rw [h_untouched q List.mem_cons_self]
    exact ih h fun p h_mem => h_untouched p (List.mem_cons_of_mem q h_mem)

/-- Between steps of one call alone the slot stays as it was. -/
theorem links_noted (h : m.steps program es = some m') (h_alone : ∀ e ∈ es, e.caller? = some i) :
    Links (apartFrom m i) (Machine.noted program (ownSteps i) m es) (apartFrom m' i) := by
  induction es generalizing m with
  | nil =>
    cases h
    rfl
  | cons e es ih =>
    obtain ⟨m₁, h_step, h_rest⟩ := Option.bind_eq_some_iff.1 h
    rw [Machine.noted, h_step]
    dsimp only
    rw [ownSteps_self (h_alone e List.mem_cons_self) h_step]
    exact ⟨rfl, ih h_rest fun e h_mem => h_alone e (List.mem_cons_of_mem _ h_mem)⟩

/-- A call that faults before any other call makes a step finds the slot as it was when it was made. -/
theorem leaves_alone {es₁ es₂ : List (Event Task Empty)} (h_gap : 0 < slot.gap)
    (h_operations : ∀ task ∈ Machine.starts (es₁ ++ .call start :: es₂), task.IsOperation)
    (h_steps : (Machine.idle slot).steps program (es₁ ++ .call start :: es₂) = some m)
    (h₁ : (Machine.idle slot).steps program es₁ = some m₁)
    (h_alone : ∀ e ∈ es₂, e.caller? = some m₁.calls.length)
    (h_fault : m.calls[m₁.calls.length]? = some (.finished (.error (.fault broken)))) :
    Leaves start m₁.state broken m.state := by
  have h_starts : Machine.starts (es₁ ++ .call start :: es₂) =
      Machine.starts es₁ ++ start :: Machine.starts es₂ := by
    rw [Machine.starts, List.filterMap_append]
    rfl
  have h_start : (Machine.starts (es₁ ++ .call start :: es₂))[m₁.calls.length]? = some start := by
    rw [h_starts, ← Machine.length_starts h₁, List.getElem?_append_right le_rfl, Nat.sub_self]
    rfl
  have h_operation := h_operations start (List.mem_of_getElem? h_start)
  obtain ⟨T, p, h_trail, h_untouched, h_leaves⟩ :=
    (trailed h_gap h_operations h_steps h_start h_fault).of_fault
  -- all steps of the call come after the event that makes it
  have h_rest : ({ m₁ with calls := m₁.calls ++ [.ready start] } : Machine Slot Task Result).steps
      program es₂ = some m := by
    rw [Machine.steps_append, h₁] at h_steps
    exact h_steps
  have h_later : Machine.noted program (ownSteps m₁.calls.length)
      { m₁ with calls := m₁.calls ++ [.ready start] } es₂ = T ++ [p] := by
    rw [← h_trail, trail, Machine.noted_append h₁]
    change _ = trail slot es₁ m₁.calls.length ++ _
    rw [trail_eq_nil h₁ le_rfl]
    rfl
  have h_ready : waits (.ready start) = false := h_operation.uncounted.1
  have h_links := links_noted h_rest h_alone
  rw [h_later, apartFrom_eq List.getElem?_concat_length, apartFrom_eq h_fault,
    apart_of_not_waits h_ready, apart_of_not_waits rfl] at h_links
  cases h_links.last h_untouched
  exact h_leaves

/-! ### What a slot is after a fault -/

/-- **What a fault leaves behind.** Callers come to a slot with whatever operations of it, and some of
the calls fault.

Until its last step, a call that ends in a fault leaves the slot as it is. In that step it leaves it so
too, unless the bytes that it fills in do not fit, which are in the slot then and counted, or it joins a
generation which the slot has not reached, and stays counted, or it skips the generation that the slot
is in and there is no address for the next one, or it hands a flush back, whose buffer is in the slot
then. If no other call makes a step meanwhile, this is what the slot was when the call was made and what
it is in the end.

The slot counts more bytes than it holds exactly if some call has found out that its bytes do not fit. -/
theorem fault_leaves {index capacity ringSize : Nat}
    (h_create : Slot.create index capacity ringSize = .ok slot) (h_capacity : 0 < capacity)
    (h_ring : 0 < ringSize) (h_operations : ∀ start ∈ Machine.starts es, start.IsOperation)
    (h_steps : (Machine.idle slot).steps program es = some m) :
    (∀ (i : Nat) start broken, (Machine.starts es)[i]? = some start →
      m.calls[i]? = some (.finished (.error (.fault broken))) →
      ∃ T p, slot.trail es i = T ++ [p] ∧ Untouched T ∧ Leaves start p.1 broken p.2) ∧
    (∀ es₁ start es₂ m₁ broken, es = es₁ ++ .call start :: es₂ →
      (Machine.idle slot).steps program es₁ = some m₁ →
      (∀ e ∈ es₂, e.caller? = some m₁.calls.length) →
      m.calls[m₁.calls.length]? = some (.finished (.error (.fault broken))) →
      Leaves start m₁.state broken m.state) ∧
    (m.state.capacity < m.state.dirty ↔
      ∃ (i : Nat) (status : Status Task Result), m.calls[i]? = some status ∧ FoundOver status) := by
  obtain ⟨-, rfl⟩ := eq_of_create h_create
  have h_gap : 0 < capacity * ringSize := Nat.mul_pos h_capacity h_ring
  refine ⟨fun i start broken h_start h_fault =>
    (trailed h_gap h_operations h_steps h_start h_fault).of_fault, ?_, ?_⟩
  · -- a call that nobody comes between
    rintro es₁ start es₂ m₁ broken rfl h₁ h_alone h_fault
    exact leaves_alone h_gap h_operations h_steps h₁ h_alone h_fault
  · exact overflows_iff h_gap (Nat.zero_le _) h_operations h_steps

/-- A slot of two bytes is filled with one byte, and then with two. -/
def twiceFilled : List (Event Task Empty) :=
  [.call (.fill 0 0 [1]), .run 0, .call (.fill 0 0 [2, 3]), .run 1]

/-- The second call faults, and the slot counts three bytes and holds the last two of them. -/
theorem fault_leaves_twiceFilled : ∃ m,
    (Machine.idle smallSlot).steps program twiceFilled = some m ∧
      m.calls[1]? = some (.finished (.error (.fault (.slotOverflow 0 3 2)))) ∧
      (∃ T p, smallSlot.trail twiceFilled 1 = T ++ [p] ∧ Untouched T ∧
        Leaves (.fill 0 0 [2, 3]) p.1 (.slotOverflow 0 3 2) p.2) ∧
      Leaves (.fill 0 0 [2, 3]) (smallSlot.filledWith 0 [1]) (.slotOverflow 0 3 2) m.state ∧
      m.state.capacity < m.state.dirty := by
  have h_possible : ((Machine.idle smallSlot).steps program twiceFilled).isSome := rfl
  have h_steps := (Option.some_get h_possible).symm
  have h_fault : (((Machine.idle smallSlot).steps program twiceFilled).get h_possible).calls[1]? =
      some (.finished (.error (.fault (.slotOverflow 0 3 2)))) := rfl
  have h_start : (Machine.starts twiceFilled)[1]? = some (.fill 0 0 [2, 3]) := rfl
  obtain ⟨h_trails, h_alone, h_counts⟩ :=
    fault_leaves (show Slot.create 0 2 1 = .ok smallSlot from rfl) (by decide) (by decide)
      (by decide) h_steps
  have h_trail := h_trails 1 _ _ h_start h_fault
  refine ⟨_, h_steps, h_fault, h_trail, ?_, h_counts.2 ⟨1, _, h_fault, _, ⟨0, 3, 2, rfl⟩, rfl⟩⟩
  exact h_alone [.call (.fill 0 0 [1]), .run 0] _ [.run 1] _ _ rfl rfl (by decide) h_fault

/-- So the slot is not what it was before the call, and counts more bytes than it holds. -/
theorem overfilled_by_fault : ∃ m₁ m,
    (Machine.idle smallSlot).steps program (twiceFilled.take 2) = some m₁ ∧
      m₁.steps program (twiceFilled.drop 2) = some m ∧
      m.calls[1]? = some (.finished (.error (.fault (.slotOverflow 0 3 2)))) ∧
      m.state.buffer ≠ m₁.state.buffer ∧ m₁.state.dirty = 1 ∧ m.state.dirty = 3 ∧
      m.state.capacity = 2 :=
  ⟨_, _, rfl, rfl, rfl, by decide, rfl, rfl, rfl⟩

end GroupCommit.Slot
