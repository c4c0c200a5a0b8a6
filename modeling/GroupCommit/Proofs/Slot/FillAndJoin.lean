import GroupCommit.Proofs.Machine.Insertion
import GroupCommit.Proofs.Slot.FullFlushes

/-!
# To fill and join at once, or one after the other

A caller that copies bytes in and waits for them may do so in one call, or fill first and then join with
the ticket. The one call takes the full flush while it copies, when it completes the slot; the other way
the slot is full in between, the others are woken, and the join finds the slot full. If nobody comes in
between, both ways lead to the same slot and the same result, whatever else happens afterwards.

* `Slot.inOneCall`, `Slot.inTwoCalls`: the events of the two ways.
* `Slot.Alike`: the machines differ in the call that filled, and in nothing else, from then on.
* `Slot.fill_paths_agree`: the theorem.
-/

namespace GroupCommit.Slot

variable {slot s s₀ : Slot} {m m' one two : Machine Slot Task Result} {es : List (Event Task Empty)}
  {i tag offset : Nat} {data : Bytes} {ticket : Ticket} {flush : Flush}

/-! ### The two ways -/

/-- The call `i` copies bytes in and goes on to wait for them. -/
def inOneCall (i tag offset : Nat) (data : Bytes) : List (Event Task Empty) :=
  [.call (.fillJoin tag offset data), .run i]

/-- The call `i` copies bytes in, and the next one waits for them with the ticket. Where the bytes
complete the slot, the first call wakes the others before it returns, and the second takes the flush. -/
def inTwoCalls (i tag offset : Nat) (data : Bytes) (ticket : Ticket) (completes : Bool) :
    List (Event Task Empty) :=
  [.call (.fill tag offset data), .run i] ++
    if completes then [.run i, .call (.join ticket), .run (i + 1)] else [.call (.join ticket)]

/-! ### Steps -/

/-- A join takes the full flush of a slot that is full in the generation of its ticket, if no early flush
that was given out after the fill has been written. -/
theorem run_join_full (h_full : s.phase = .full) (h_tag : ticket.tag = s.tag)
    (h_earlier : s.durable.claim ≤ ticket.earlier) :
    run (.join ticket) s = (.finish (.ok (.joined (some s.claimFull.1))), s.claimFull.2) := by
  have h_live : ¬ ({ s with waiters := s.waiters + 1 } : Slot).Stopped := not_stopped h_full nofun
  have h_open : ¬ ({ s with waiters := s.waiters + 1 } : Slot).Settles ticket := by
    -- neither the generation is over, nor has an early flush come back since
    rintro (h_lt | ⟨h_later, -⟩)
    · exact absurd h_tag h_lt.ne
    · exact absurd h_earlier (Nat.not_le.2 h_later)
  have h_poll := poll_ok h_live h_tag.le
  rw [if_neg h_open, if_pos h_full] at h_poll
  rw [run, await, pollOr, h_poll]
  rfl

/-! ### Where the two ways lead -/

section Ways

variable (h_open : m.state.accepts tag = .ok true)
  (h_copy : m.state.copyIn offset data = (.ok ticket, s))

include h_open h_copy

/-- The machine after the one call has copied its bytes in. -/
theorem steps_inOneCall :
    m.steps program (inOneCall m.calls.length tag offset data) =
      some (if s.dirty = s.capacity then
          ⟨s.claimFull.2, m.calls ++ [.finished (.ok (.joined (some s.claimFull.1)))]⟩
        else ⟨s, m.calls ++ [.ready (.join ticket)]⟩) := by
  have h_run := run_fillJoin h_open h_copy
  rw [inOneCall, Machine.steps, Machine.step, Option.bind_some, Machine.steps]
  by_cases h_full : s.dirty = s.capacity
  · -- the bytes complete the slot, and the call has its flush
    rw [if_pos h_full] at h_run ⊢
    rw [step_finish m.calls h_run]
    rfl
  · rw [if_neg h_full] at h_run ⊢
    rw [step_goto m.calls h_run]
    rfl

/-- The machine after a fill that does not complete the slot, when the join has been called. -/
theorem steps_fill (h_full : s.dirty ≠ s.capacity) :
    m.steps program [.call (.fill tag offset data), .run m.calls.length, .call (.join ticket)] =
      some ⟨s, m.calls ++ [.finished (.ok (.filled ticket)), .ready (.join ticket)]⟩ := by
  have h_run := run_fill h_open h_copy
  rw [if_neg h_full] at h_run
  rw [Machine.steps, Machine.step, Option.bind_some, Machine.steps, step_finish m.calls h_run,
    Option.bind_some, Machine.steps, Machine.step, Option.bind_some, Machine.steps, List.append_assoc]
  rfl

/-- The machine after a fill that completes the slot, when the join has been called. -/
theorem steps_fill_full (h_full : s.dirty = s.capacity) :
    m.steps program [.call (.fill tag offset data), .run m.calls.length, .run m.calls.length,
        .call (.join ticket)] =
      some ⟨{ s with phase := .full }, (m.calls.map (Status.woken 0) ++
        [.finished (.ok (.filled ticket))]) ++ [.ready (.join ticket)]⟩ := by
  have h_run := run_fill h_open h_copy
  rw [if_pos h_full] at h_run
  rw [Machine.steps, Machine.step, Option.bind_some, Machine.steps, step_goto m.calls h_run,
    Option.bind_some, Machine.steps, step_announce, Option.bind_some, Machine.steps, Machine.step,
    Option.bind_some, Machine.steps]

end Ways

/-! ### Machines that differ in one call -/

/-- The machines are in the same state, and have the same calls apart from the call `i` of the second. -/
structure Agree (i : Nat) (one two : Machine Slot Task Result) : Prop where
  state : two.state = one.state
  calls : ∀ k, two.calls[shiftCall i k]? = one.calls[k]?

/-- Whatever may happen to the first machine may happen to the second and the other way round, and they
agree afterwards. -/
structure Alike (i : Nat) (one two : Machine Slot Task Result) : Prop where
  forth : ∀ later one', one.steps program later = some one' →
    ∃ two', two.steps program (later.map (Event.shift i)) = some two' ∧ Agree i one' two'
  back : ∀ later two', two.steps program later = some two' →
    ∃ later' one', later = later'.map (Event.shift i) ∧ one.steps program later' = some one' ∧
      Agree i one' two'

/-- Calls that have ended make no difference to the others. -/
theorem alike_insert (h : i ≤ one.calls.length) (result : Result) :
    Alike i one (one.insert i result) where
  forth := by
    intro later one' h_steps
    refine ⟨one'.insert i result, ?_, rfl, Machine.getElem?_insert one' i result⟩
    rw [Machine.steps_insert h, h_steps]
    rfl
  back := by
    intro later two' h_steps
    -- no event of the longer run is one of the call that has ended
    obtain ⟨later', rfl⟩ := Machine.exists_shift h h_steps
    rw [Machine.steps_insert h] at h_steps
    obtain ⟨one', h_steps', rfl⟩ := Option.map_eq_some_iff.1 h_steps
    exact ⟨later', one', rfl, h_steps', rfl, Machine.getElem?_insert one' i result⟩

/-- The ended call stands in front of the last one. -/
theorem insert_last (s : Slot) (calls : List (Status Task Result)) (status : Status Task Result)
    (result : Result) : Machine.insert calls.length result ⟨s, calls ++ [status]⟩ =
      ⟨s, calls ++ [.finished result, status]⟩ := by
  rw [Machine.insert, Machine.insertIdx_append le_rfl, List.insertIdx_length_self, List.append_assoc]
  rfl

/-! ### Full flushes on the two ways -/

/-- A full flush that a step gives out is the only one of its generation, however the run goes on. -/
theorem fullFlushes_eq {m₁ : Machine Slot Task Result} {task : Task}
    {before later : List (Event Task Empty)} (h_gap : 0 < slot.gap)
    (h_steps : (Machine.idle slot).steps program es = some m)
    (h_before : m.steps program before = some m₁) (hi : m₁.calls[i]? = some (.ready task))
    (h_given : given? (run task m₁.state).1 = some flush) (h_kind : flush.kind = .full)
    (h_later : m.steps program (before ++ .run i :: later) = some m') :
    (history slot (es ++ (before ++ .run i :: later))).fullFlushes flush.tag = [flush] := by
  have h_all : (Machine.idle slot).steps program (es ++ (before ++ .run i :: later)) = some m' := by
    rw [Machine.steps_append, h_steps]
    exact h_later
  have h_notes : notes m₁ (.run i) = m₁.state.stepNotes i task := Performs.notes (.inl ⟨rfl, hi⟩)
  have h_step : m₁.step program (.run i) = some (m₁.perform i (run task m₁.state)) := by
    rw [Machine.step, hi]
    rfl
  -- the flush is noted, and there is no second one
  have h_mem : flush ∈
      (history slot (es ++ (before ++ .run i :: later))).fullFlushes flush.tag := by
    rw [history, Machine.noted_append h_steps, Machine.noted_append h_before, Machine.noted, h_step]
    dsimp only
    rw [h_notes, History.fullFlushes_append, History.fullFlushes_append, History.fullFlushes_append,
      fullFlushes_stepNotes, h_given]
    simp [h_kind]
  rcases full_flush_once h_gap flush.tag h_all with h_none | ⟨-, flush', h_one⟩
  · rw [h_none] at h_mem
    cases h_mem
  · rw [h_one, List.mem_singleton] at h_mem
    rw [h_one, h_mem]

section Completed

variable (h_open : m.state.accepts tag = .ok true)
  (h_copy : m.state.copyIn offset data = (.ok ticket, s))

include h_open h_copy in
/-- The flush that the fill has made due. -/
theorem claimFull_eq : s.claimFull.1 = ⟨tag, s.capacity, .full, s.buffer⟩ := by
  obtain ⟨-, -, rfl⟩ := of_copyIn h_copy
  obtain ⟨-, rfl, -⟩ := accepts_eq_true.1 h_open
  rfl

variable (h_full : s.dirty = s.capacity) (h_numbered : m.state.durable.claim ≤ m.state.claims)

include h_copy h_numbered in
/-- The join takes the flush of the slot that the fill has completed. -/
theorem run_join_ticket : run (.join ticket) { s with phase := .full } =
    (.finish (.ok (.joined (some s.claimFull.1))), s.claimFull.2) := by
  obtain ⟨-, rfl, rfl⟩ := of_copyIn h_copy
  exact run_join_full rfl rfl h_numbered

include h_open h_copy h_full

include h_numbered in
/-- The machine after both calls when the fill has completed the slot. -/
theorem steps_inTwoCalls_full :
    m.steps program (inTwoCalls m.calls.length tag offset data ticket true) =
      some ⟨s.claimFull.2, (m.calls.map (Status.woken 0) ++ [.finished (.ok (.filled ticket))]) ++
        [.finished (.ok (.joined (some s.claimFull.1)))]⟩ := by
  have h_fill := steps_fill_full h_open h_copy h_full
  -- filled and full, the slot gives its flush to the join
  have h_last := step_finish (m.calls.map (Status.woken 0) ++ [.finished (.ok (.filled ticket))])
    (run_join_ticket h_copy h_numbered)
  rw [List.length_append, List.length_map, List.length_singleton] at h_last
  have h_events : inTwoCalls m.calls.length tag offset data ticket true =
      [.call (.fill tag offset data), .run m.calls.length, .run m.calls.length,
        .call (.join ticket)] ++ [.run (m.calls.length + 1)] := rfl
  rw [h_events, Machine.steps_append, h_fill, Option.bind_some, Machine.steps, h_last]
  rfl

variable (h_gap : 0 < slot.gap) (h_steps : (Machine.idle slot).steps program es = some m)
  {later : List (Event Task Empty)}

include h_gap h_steps

/-- The one call has the only full flush of the generation. -/
theorem fullFlushes_inOneCall
    (h_later : m.steps program (inOneCall m.calls.length tag offset data ++ later) = some m') :
    (history slot (es ++ (inOneCall m.calls.length tag offset data ++ later))).fullFlushes tag =
      [s.claimFull.1] := by
  have h_given : given? (run (.fillJoin tag offset data) m.state).1 = some s.claimFull.1 := by
    rw [run_fillJoin h_open h_copy, if_pos h_full]
    rfl
  have h_call : m.steps program [.call (.fillJoin tag offset data)] =
      some ⟨m.state, m.calls ++ [.ready (.fillJoin tag offset data)]⟩ := rfl
  have h_eq := fullFlushes_eq h_gap h_steps h_call List.getElem?_concat_length h_given rfl h_later
  rw [claimFull_eq h_open h_copy] at h_eq ⊢
  exact h_eq

include h_numbered in
/-- The call that joins has the only full flush of the generation. -/
theorem fullFlushes_inTwoCalls (h_later :
      m.steps program (inTwoCalls m.calls.length tag offset data ticket true ++ later) = some m') :
    (history slot (es ++ (inTwoCalls m.calls.length tag offset data ticket true ++
      later))).fullFlushes tag = [s.claimFull.1] := by
  have h_fill := steps_fill_full h_open h_copy h_full
  have h_given : given? (run (.join ticket) { s with phase := .full }).1 = some s.claimFull.1 := by
    rw [run_join_ticket h_copy h_numbered]
    rfl
  have hi : (m.calls.map (Status.woken 0) ++ [.finished (.ok (.filled ticket))] ++
      [.ready (.join ticket)])[m.calls.length + 1]? = some (Status.ready (.join ticket)) := by
    simp
  have h_eq := fullFlushes_eq h_gap h_steps h_fill hi h_given rfl h_later
  rw [claimFull_eq h_open h_copy] at h_eq ⊢
  exact h_eq

end Completed

/-- **Filling and joining agree** with filling and joining in one call. In whatever state a slot comes to
be where bytes of the generation are accepted and copied without a fault, both ways are open and lead to
the same slot, and the call that joins stands where the one call stands. Where the bytes leave the slot
open, the two machines are alike from then on, so both calls end in the same way whatever deadlines pass
and whatever others do. Where they complete the slot, both calls have the full flush, which is the only
one of the generation; the machines are alike but that the fill has woken the others. -/
theorem fill_paths_agree {index capacity ringSize : Nat}
    (h_create : Slot.create index capacity ringSize = .ok slot) (h_capacity : 0 < capacity)
    (h_ring : 0 < ringSize) (h_steps : (Machine.idle slot).steps program es = some m)
    (h_open : m.state.accepts tag = .ok true)
    (h_copy : m.state.copyIn offset data = (.ok ticket, s)) :
    ∃ one two,
      m.steps program (inOneCall m.calls.length tag offset data) = some one ∧
      m.steps program (inTwoCalls m.calls.length tag offset data ticket (s.dirty = s.capacity)) =
        some two ∧
      two.state = one.state ∧ two.calls[m.calls.length + 1]? = one.calls[m.calls.length]? ∧
      (s.dirty ≠ s.capacity → Alike m.calls.length one two) ∧
      (s.dirty = s.capacity → Alike m.calls.length (one.wake 0) two ∧
        one.calls[m.calls.length]? =
          some (.finished (.ok (.joined (some ⟨tag, s.capacity, .full, s.buffer⟩)))) ∧
        (∀ later one', one.steps program later = some one' →
          (history slot (es ++ (inOneCall m.calls.length tag offset data ++ later))).fullFlushes tag =
            [⟨tag, s.capacity, .full, s.buffer⟩]) ∧
        ∀ later two', two.steps program later = some two' →
          (history slot (es ++ (inTwoCalls m.calls.length tag offset data ticket true ++
            later))).fullFlushes tag = [⟨tag, s.capacity, .full, s.buffer⟩]) := by
  obtain ⟨-, h_new⟩ := of_create h_create h_capacity h_ring
  -- every early flush that has been written had been given out before
  have h_numbered : m.state.durable.claim ≤ m.state.claims := by
    refine keeps_steps keeps_numbered ?_ h_steps
    rw [h_new.durable]
    exact Nat.zero_le _
  have h_one := steps_inOneCall h_open h_copy
  -- a fill that completes the slot wakes the others and leaves the flush to the join; any other fill
  -- returns its ticket, and the join begins where the one call goes on
  by_cases h_full : s.dirty = s.capacity
  · have h_two := steps_inTwoCalls_full h_open h_copy h_full h_numbered
    have h_flush := claimFull_eq h_open h_copy
    rw [if_pos h_full] at h_one
    refine ⟨_, ⟨s.claimFull.2, (m.calls.map (Status.woken 0) ++ [.finished (.ok (.filled ticket))]) ++
        [.finished (.ok (.joined (some s.claimFull.1)))]⟩,
      h_one, ?_, rfl, ?_, fun h => absurd h_full h, fun _ => ⟨?_, ?_, ?_, ?_⟩⟩
    · rw [decide_eq_true h_full]
      exact h_two
    · simp
    · -- the second machine is the first one with a call more, after the wake-up
      have h_insert := insert_last s.claimFull.2 (m.calls.map (Status.woken 0))
        (.finished (.ok (.joined (some s.claimFull.1)))) (.ok (.filled ticket))
      rw [List.length_map] at h_insert
      rw [Machine.wake, List.map_append, List.append_assoc]
      exact h_insert ▸ alike_insert (by simp) _
    · rw [← h_flush]
      simp
    · intro later one' h_later
      rw [← h_flush]
      have h_all := Machine.steps_append program m (inOneCall m.calls.length tag offset data) later
      rw [h_one, Option.bind_some, h_later] at h_all
      exact fullFlushes_inOneCall h_open h_copy h_full h_new.gap_pos h_steps h_all
    · intro later two' h_later
      rw [← h_flush]
      have h_all := Machine.steps_append program m
        (inTwoCalls m.calls.length tag offset data ticket true) later
      rw [h_two, Option.bind_some, h_later] at h_all
      exact fullFlushes_inTwoCalls h_open h_copy h_full h_numbered h_new.gap_pos h_steps h_all
  · have h_two := steps_fill h_open h_copy h_full
    rw [if_neg h_full] at h_one
    refine ⟨⟨s, m.calls ++ [.ready (.join ticket)]⟩,
      ⟨s, m.calls ++ [.finished (.ok (.filled ticket)), .ready (.join ticket)]⟩, h_one, ?_, rfl, ?_,
      fun _ => ?_, fun h => absurd h h_full⟩
    · rw [decide_eq_false h_full]
      exact h_two
    · simp
    · rw [← insert_last]
      exact alike_insert (by simp) _

/-- The slot of two bytes has its first byte, which an early flush has written. -/
def reopened : List (Event Task Empty) :=
  [.call (.fillJoin 0 0 [1]), .run 0, .run 0, .expire 0, .call (.release firstByte), .run 1, .run 1]

/-- The second byte completes the slot, and either way its caller has the full flush, though an early one
has been there before. -/
theorem fill_paths_agree_reopened : ∃ m one two,
    (Machine.idle smallSlot).steps program reopened = some m ∧ m.state.claims = 1 ∧
      m.steps program (inOneCall 2 0 1 [2]) = some one ∧
      m.steps program (inTwoCalls 2 0 1 [2] ⟨0, 2, 1⟩ true) = some two ∧
      two.state = one.state ∧ one.calls[2]? = some (.finished (.ok (.joined (some bothBytes)))) ∧
      two.calls[3]? = some (.finished (.ok (.joined (some bothBytes)))) ∧
      (history smallSlot (reopened ++ inTwoCalls 2 0 1 [2] ⟨0, 2, 1⟩ true)).fullFlushes 0 =
        [bothBytes] := by
  have h_create : Slot.create 0 2 1 = .ok smallSlot := rfl
  have h_possible : ((Machine.idle smallSlot).steps program reopened).isSome := rfl
  have h_steps := (Option.some_get h_possible).symm
  have h_open : (((Machine.idle smallSlot).steps program reopened).get h_possible).state.accepts 0 =
      .ok true := rfl
  have h_copy :
      (((Machine.idle smallSlot).steps program reopened).get h_possible).state.copyIn 1 [2] =
        (.ok ⟨0, 2, 1⟩, { smallSlot with
          dirty := 2, highWater := 2, claims := 1, durable := ⟨1, 1⟩, buffer := ⟨2, [1, 2]⟩ }) := rfl
  obtain ⟨one, two, h_one, h_two, h_state, h_result, -, h_full⟩ :=
    fill_paths_agree h_create (by decide) (by decide) h_steps h_open h_copy
  obtain ⟨-, h_flush, -, h_once⟩ := h_full rfl
  exact ⟨_, one, two, h_steps, rfl, h_one, h_two, h_state, h_flush, h_result.trans h_flush,
    h_once [] two rfl⟩

end GroupCommit.Slot
