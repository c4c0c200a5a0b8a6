import GroupCommit.Proofs.Slot.Changes

/-!
# What a slot holds

As long as a slot is not stopped, its state is a summary of its history. The bytes in it are those that
the fills of its generation left there; where the slot has given out a flush, the flush has them, and
nothing has happened since but that waiting calls returned. What was given out before has come back.
And whoever holds a ticket that is settled has had his bytes written, by a flush that was taken after
his fill.

`Live` puts this together, and every change of a slot keeps it. Only a flush that is out can come back,
which is the one thing that the callers have to see to.

* `Slot.Served`, `Slot.Written`: the bytes of a fill are in a flush, and the flush was written.
* `Slot.Holding`: where the bytes of the generation are.
* `Slot.Live`, `Live.change`, `Live.settling`: the summary, and that it is kept.
* `Live.written_of_settles`: a ticket becomes settled by a flush that has its bytes.
-/

namespace GroupCommit.Slot

variable {slot s s' : Slot} {H N A B : History} {call : Nat} {flush : Flush} {fill : Fill}
  {ticket : Ticket}

/-! ### Written bytes -/

/-- The flush has the bytes of a fill, but for those that were overwritten in `since`, which is what
happened between the fill and the taking of the flush. -/
structure Served (fill : Fill) (since : History) (flush : Flush) : Prop where
  tag : flush.tag = fill.tag
  reach : fill.stop ≤ flush.length
  bytes : ∃ data, flush.bytes = .ok data ∧ ∀ i, fill.Covers flush.tag i →
    Bytes.read data i = fill.byte i ∨ ∃ later ∈ since.fills, later.Covers flush.tag i

/-- In the time `since` a fill a flush that has its bytes was taken and, before anything else than the
return of waiting calls, handed back as written. -/
def Written (fill : Fill) (since : History) : Prop :=
  ∃ A i flush B j C, since = A ++ .claimed i flush :: (B ++ .released j flush :: C) ∧
    (∀ n ∈ B, n.IsSpared) ∧ Served fill A flush

/-- What has been written stays so, whatever is noted later. -/
theorem Written.append (h : Written fill A) (N : History) : Written fill (A ++ N) := by
  obtain ⟨A, i, flush, B, j, C, rfl, h_quiet, h_served⟩ := h
  refine ⟨A, i, flush, B, j, C ++ N, ?_, h_quiet, h_served⟩
  simp only [List.append_assoc, List.cons_append]

/-- A note in a longer history stands in its beginning or in what was added. -/
theorem append_eq_cons {n : Note} (h : H ++ N = A ++ n :: B) :
    (∃ B', H = A ++ n :: B' ∧ B = B' ++ N) ∨ ∃ A', A = H ++ A' ∧ N = A' ++ n :: B := by
  rcases List.append_eq_append_iff.1 h with ⟨A', rfl, h_rest⟩ | ⟨C, rfl, h_rest⟩
  · exact .inr ⟨A', rfl, h_rest⟩
  · cases C with
    -- the note is the first of those that came later
    | nil => exact .inr ⟨[], by simp, h_rest.symm⟩
    | cons n' B' =>
      obtain ⟨rfl, rfl⟩ := List.cons.inj h_rest
      -- it was there before, and so was what stands between
      exact .inl ⟨B', rfl, rfl⟩

/-- Calls that need not wait fill nothing. -/
theorem fills_of_spared (h : ∀ n ∈ N, n.IsSpared) : N.fills = [] := by
  refine List.filterMap_eq_nil_iff.2 fun n h_mem => ?_
  obtain ⟨call, ticket, rfl⟩ := h n h_mem
  rfl

theorem claimed_of_spared (h : ∀ n ∈ N, n.IsSpared) : N.claimed = [] := by
  refine List.filterMap_eq_nil_iff.2 fun n h_mem => ?_
  obtain ⟨call, ticket, rfl⟩ := h n h_mem
  rfl

theorem returned_of_spared (h : ∀ n ∈ N, n.IsSpared) : N.returned = [] := by
  refine List.filterMap_eq_nil_iff.2 fun n h_mem => ?_
  obtain ⟨call, ticket, rfl⟩ := h n h_mem
  rfl

/-! ### Where the bytes are -/

/-- The buffer has the bytes of a generation, and zeros where nothing was filled. -/
structure Holds (b : Buffer) (capacity : Nat) (H : History) (tag : Nat) : Prop where
  size : b.size = capacity
  read : ∀ i, b.read i = H.latest tag i

/-- As long as nothing is filled, the buffer holds what it held. -/
theorem Holds.append {b : Buffer} {capacity tag : Nat} (h : Holds b capacity H tag)
    (h_none : N.fills = []) : Holds b capacity (H ++ N) tag :=
  ⟨h.size, fun i => (h.read i).trans (History.latest_append h_none).symm⟩

/-- A fill puts its bytes in place, and the rest stays. -/
theorem Holds.filled {b : Buffer} {capacity tag offset claims : Nat} {data : Bytes}
    (h : Holds b capacity H tag) : Holds (b.write offset data) capacity
      (H ++ [.filled call ⟨tag, offset, data, claims⟩]) tag := by
  refine ⟨h.size, fun i => ?_⟩
  rw [History.latest_concat]
  refine (Buffer.read_write b offset data i).trans ?_
  by_cases h_in : offset ≤ i ∧ i < offset + data.length
  · -- the new fill is the latest of its range
    rw [if_pos h_in, if_pos ⟨rfl, h_in.1, h_in.2⟩]
    rfl
  · rw [if_neg h_in, if_neg fun h_covers => h_in h_covers.2]
    exact h.read i

/-- The bytes that a flush has. -/
theorem Holds.exists_bytes {capacity tag : Nat} (h : Holds flush.buffer capacity H tag)
    (h_length : flush.length ≤ capacity) :
    ∃ data, flush.bytes = .ok data ∧ data.length = flush.length ∧
      ∀ i < flush.length, Bytes.read data i = H.latest tag i := by
  refine ⟨flush.buffer.first flush.length, ?_, Buffer.length_first _ _, fun i h_lt => ?_⟩
  · rw [Flush.bytes, if_neg (by rw [h.size]; omega)]
  · rw [Buffer.read_first _ h_lt, h.read]

/-- Where the bytes of the generation are: in the slot, or in this flush, which is out. -/
inductive Holding (s : Slot) (H : History) : Option Flush → Prop
  | inside (h_phase : s.phase = .filling ∨ s.phase = .full)
      (h_holds : Holds s.buffer s.capacity H s.tag) : Holding s H none
  | out {A B : History} {call : Nat} {flush : Flush}
      (h_phase : s.phase = .flushing ∨ s.phase = .reserving)
      (h_history : H = A ++ .claimed call flush :: B) (h_quiet : ∀ n ∈ B, n.IsSpared)
      (h_tag : flush.tag = s.tag) (h_reach : s.highWater ≤ flush.length)
      (h_length : flush.length ≤ s.capacity) (h_holds : Holds flush.buffer s.capacity A s.tag) :
      Holding s H (some flush)

/-! ### The summary -/

/-- The state of a slot that is not stopped, as a summary of its history. -/
structure Live (slot s : Slot) (H : History) : Prop where
  capacity : s.capacity = slot.capacity
  gap_pos : 0 < s.gap
  tag_le : ∀ fill ∈ H.fills, fill.tag ≤ s.tag
  high_le : s.highWater ≤ s.capacity
  stop_le : ∀ fill ∈ H.fills, fill.tag = s.tag → fill.stop ≤ s.highWater
  furthest : 0 < s.highWater → ∃ fill ∈ H.fills, fill.tag = s.tag ∧ fill.stop = s.highWater
  clean : s.dirty = 0 → ∀ fill ∈ H.fills, fill.tag = s.tag → fill.data = []
  numbered : s.durable.claim ≤ s.claims
  written : ∀ A i fill B, H = A ++ .filled i fill :: B → fill.data ≠ [] →
    s.Settles fill.ticket → Written fill B
  /-- A flush has come back as often as it was given out, unless it is out. -/
  ledger : ∃ out, Holding s H out ∧ ∀ flush,
    H.claimed.count flush = H.returned.count flush + if out = some flush then 1 else 0

namespace Live

/-- While the slot is filling or full, its buffer is in its place and no flush is out. -/
theorem holding_inside (h : Live slot s H) (h_phase : s.phase = .filling ∨ s.phase = .full) :
    Holds s.buffer s.capacity H s.tag ∧
      ∀ flush, H.claimed.count flush = H.returned.count flush := by
  obtain ⟨out, h_holding, h_count⟩ := h.ledger
  cases h_holding with
  | inside _ h_holds => exact ⟨h_holds, fun flush => by simpa using h_count flush⟩
  | out h_out =>
    -- with a flush out, the slot would be flushing or reserving
    rcases h_phase with h_in | h_in <;> rcases h_out with h_out | h_out <;>
      exact absurd (h_in.symm.trans h_out) nofun

/-- A flush that was given out more often than it has come back is out. -/
theorem holding_out (h : Live slot s H)
    (h_owned : H.returned.count flush < H.claimed.count flush) :
    Holding s H (some flush) ∧ ∀ flush',
      H.claimed.count flush' = H.returned.count flush' + if flush = flush' then 1 else 0 := by
  obtain ⟨out, h_holding, h_count⟩ := h.ledger
  -- the only flush that can be owed is the one that is out
  have h_out : out = some flush := by
    by_contra h_other
    have h_flush := h_count flush
    rw [if_neg h_other] at h_flush
    omega
  subst h_out
  exact ⟨h_holding, by simpa using h_count⟩

/-- The flush that is out has the bytes of every fill of its generation. -/
theorem served (h : Live slot s H) (h_out : Holding s H (some flush)) {i : Nat}
    (h_fill : H = A ++ .filled i fill :: B) (h_tag : fill.tag = s.tag) :
    ∃ A' j B', B = A' ++ .claimed j flush :: B' ∧ (∀ n ∈ B', n.IsSpared) ∧
      Served fill A' flush := by
  cases h_out with
  | @out A₁ B₁ j _ h_phase h_history h_quiet h_flush h_reach h_length h_holds =>
    -- nothing is filled while the flush is out, so it was taken after the fill
    have h_mem := History.mem_fills_of_eq h_fill
    have h_before := h_history.symm.trans h_fill
    rcases append_eq_cons h_before with ⟨A', rfl, rfl⟩ | ⟨A', h_after, h_eq⟩
    · obtain ⟨data, h_bytes, -, h_read⟩ := h_holds.exists_bytes h_length
      have h_stop := (h.stop_le fill h_mem h_tag).trans h_reach
      refine ⟨A', j, B₁, rfl, h_quiet, h_flush.trans h_tag.symm, h_stop, data, h_bytes, ?_⟩
      intro k h_covers
      by_cases h_later : ∃ later ∈ History.fills A', later.Covers flush.tag k
      · exact .inr h_later
      · refine .inl ?_
        rw [h_read k (by have := h_covers.2.2; omega), ← h_flush]
        refine History.latest_of_last A i h_covers fun later h_mem h_later' => ?_
        exact h_later ⟨later, h_mem, h_later'⟩
    · -- the fill would be the taking of the flush, or one of the notes after it
      cases A' with
      | nil => cases h_eq
      | cons n A' =>
        obtain ⟨-, rfl⟩ := List.cons.inj h_eq
        obtain ⟨_, _, h_spared⟩ := h_quiet (.filled i fill) (by simp)
        cases h_spared

/-! ### Changes that settle no ticket -/

/-- Waiting and the recording of later skips change nothing that the summary speaks of. -/
theorem keep (h : Live slot s H) (h_quiet : ∀ n ∈ N, n.IsSpared) (waiters : Nat)
    (skipped : List Nat) : Live slot { s with waiters, skipped } (H ++ N) := by
  have h_fills : (H ++ N).fills = H.fills := by
    rw [History.fills_append, fills_of_spared h_quiet, List.append_nil]
  refine ⟨h.capacity, h.gap_pos, h_fills ▸ h.tag_le, h.high_le, h_fills ▸ h.stop_le,
    h_fills ▸ h.furthest, h_fills ▸ h.clean, h.numbered, ?_, ?_⟩
  · -- no fill is new, so that each was settled before
    intro A i fill B h_eq h_data h_settles
    rcases append_eq_cons h_eq with ⟨B', rfl, rfl⟩ | ⟨A', rfl, rfl⟩
    · exact (h.written A i fill B' rfl h_data h_settles).append N
    · obtain ⟨_, _, h_spared⟩ := h_quiet (.filled i fill) (by simp)
      cases h_spared
  · -- the flush that is out stays out, for no note takes or returns one
    obtain ⟨out, h_holding, h_count⟩ := h.ledger
    refine ⟨out, ?_, fun flush => ?_⟩
    · cases h_holding with
      | inside h_phase h_holds => exact .inside h_phase (h_holds.append (fills_of_spared h_quiet))
      | @out A B j flush h_phase h_history h_quiet' h_tag h_reach h_length h_holds =>
        refine .out h_phase (B := B ++ N) (by rw [h_history, List.append_assoc]; rfl) ?_ h_tag h_reach
          h_length h_holds
        exact fun n h_mem => (List.mem_append.1 h_mem).elim (h_quiet' n) (h_quiet n)
    · rw [History.claimed_append, History.returned_append, claimed_of_spared h_quiet,
        returned_of_spared h_quiet, List.append_nil, List.append_nil, h_count flush]

/-- A fill adds itself to the account. It is not settled yet, so that nothing need be written for it. -/
theorem fillIn (h : Live slot s H) {offset : Nat} {data : Bytes} {phase : Phase}
    (h_open : s.phase = .filling) (h_fits : offset + data.length ≤ s.capacity)
    (h_phase : phase = .filling ∨ phase = .full) :
    Live slot { s.filledWith offset data with phase }
      (H ++ [.filled call ⟨s.tag, offset, data, s.claims⟩]) := by
  -- the slot is filling, so it has its buffer and all flushes are back
  obtain ⟨h_holds, h_count⟩ := h.holding_inside (.inl h_open)
  constructor
  case capacity => exact h.capacity
  case gap_pos => exact h.gap_pos
  case tag_le =>
    intro fill h_mem
    rcases History.mem_fills_concat.1 h_mem with h_mem | rfl
    · exact h.tag_le fill h_mem
    · exact le_rfl
  case high_le => exact max_le h.high_le h_fits
  -- the water rises to where the new fill ends, and what was below it stays there
  case stop_le =>
    intro fill h_mem h_tag
    rcases History.mem_fills_concat.1 h_mem with h_mem | rfl
    · exact (h.stop_le fill h_mem h_tag).trans (le_max_left _ _)
    · exact le_max_right _ _
  case furthest =>
    intro h_pos
    rcases Nat.le_total (offset + data.length) s.highWater with h_le | h_ge
    · -- the new fill ends no further than those before
      have h_same : max s.highWater (offset + data.length) = s.highWater := max_eq_left h_le
      obtain ⟨fill, h_mem, h_tag, h_stop⟩ := h.furthest (h_same ▸ h_pos)
      exact ⟨fill, History.mem_fills_concat.2 (.inl h_mem), h_tag, h_stop.trans h_same.symm⟩
    · exact ⟨_, History.mem_fills_concat.2 (.inr rfl), rfl, (max_eq_right h_ge).symm⟩
  case clean =>
    intro h_dirty fill h_mem h_tag
    -- only empty fills leave the slot empty
    have h_dirty : s.dirty + data.length = 0 := h_dirty
    rcases History.mem_fills_concat.1 h_mem with h_mem | rfl
    · exact h.clean (by omega) fill h_mem h_tag
    · exact List.length_eq_zero_iff.1 (show data.length = 0 by omega)
  case numbered => exact h.numbered
  case written =>
    intro A i fill B h_eq h_data h_settles
    rcases append_eq_cons h_eq with ⟨B', rfl, rfl⟩ | ⟨A', rfl, h_new⟩
    · exact (h.written A i fill B' rfl h_data h_settles).append _
    · -- the new fill comes after every early flush that was taken
      cases A' with
      | cons n A' => simp at h_new
      | nil =>
        obtain ⟨h_note, -⟩ := List.cons.inj h_new
        cases h_note
        have h_numbered := h.numbered
        rcases h_settles with h_tag | ⟨h_claim, -⟩
        · exact absurd h_tag (lt_irrefl s.tag)
        · exact absurd h_claim (not_lt_of_ge h_numbered)
  case ledger =>
    -- no flush is taken or comes back
    refine ⟨none, .inside h_phase h_holds.filled, fun flush => ?_⟩
    refine (congrArg (List.count flush) ?_).trans
      ((h_count flush).trans (congrArg (List.count flush) ?_))
    · exact (History.claimed_append H _).trans (List.append_nil _)
    · exact ((History.returned_append H _).trans (List.append_nil _)).symm

/-- A flush is given out. It takes the bytes of the slot with it. -/
theorem giveOut (h : Live slot s H) (h_inside : s.phase = .filling ∨ s.phase = .full) {phase : Phase}
    (h_phase : phase = .flushing ∨ phase = .reserving) {claims : Nat} (h_claims : s.claims ≤ claims)
    (h_tag : flush.tag = s.tag) (h_buffer : flush.buffer = s.buffer)
    (h_reach : s.highWater ≤ flush.length) (h_length : flush.length ≤ s.capacity) :
    Live slot { s with phase, claims, buffer := .taken } (H ++ [.claimed call flush]) := by
  obtain ⟨h_holds, h_count⟩ := h.holding_inside h_inside
  -- nothing is filled in, so all but the account of the flushes is as before
  have h_fills : (H ++ [Note.claimed call flush]).fills = H.fills := by
    rw [History.fills_append]
    exact List.append_nil _
  refine ⟨h.capacity, h.gap_pos, h_fills ▸ h.tag_le, h.high_le, h_fills ▸ h.stop_le,
    h_fills ▸ h.furthest, h_fills ▸ h.clean, h.numbered.trans h_claims, ?_, some flush, ?_, ?_⟩
  · intro A i fill B h_eq h_data h_settles
    rcases append_eq_cons h_eq with ⟨B', rfl, rfl⟩ | ⟨A', -, h_new⟩
    · exact (h.written A i fill B' rfl h_data h_settles).append _
    · cases A' <;> simp at h_new
  · exact .out h_phase rfl (fun n h_mem => absurd h_mem List.not_mem_nil) h_tag h_reach h_length
      (h_buffer ▸ h_holds)
  · intro flush'
    -- the flush that is out now has been given once more often than it has come back
    rw [History.claimed_append, History.returned_append]
    have h_new : History.claimed [.claimed call flush] = [flush] := rfl
    have h_old : History.returned [.claimed call flush] = [] := rfl
    rw [h_new, h_old, List.append_nil, List.count_append, List.count_singleton, h_count flush']
    simp only [beq_iff_eq, Option.some.injEq]

/-- **Every change that settles no ticket** leaves a summary of the longer history. -/
theorem change (h : Live slot s H) (h_change : Change call s N s') (h_live : ¬ s'.Stopped) :
    Live slot s' (H ++ N) := by
  cases h_change with
  | count n => exact h.keep (N := []) (fun n h_mem => absurd h_mem List.not_mem_nil) n s.skipped
  | @fill offset data phase h_open h_fits h_phase =>
    refine h.fillIn h_open h_fits ?_
    rw [h_phase]
    split
    · exact .inr rfl
    · exact .inl rfl
  | claimFull h_full =>
    exact h.giveOut (.inr h_full) (.inl rfl) le_rfl rfl rfl h.high_le le_rfl
  | claimEarly h_open h_high =>
    exact h.giveOut (.inl h_open) (.inr rfl) (Nat.le_succ _) rfl rfl le_rfl h.high_le
  -- the note of a call that need not wait changes nothing
  | @spare ticket h_live h_settles =>
    refine h.keep (N := [.spared call ticket]) (fun n h_mem => ?_) s.waiters s.skipped
    exact ⟨call, ticket, List.mem_singleton.1 h_mem⟩
  | skipLater h_live =>
    exact h.keep (N := []) (fun n h_mem => absurd h_mem List.not_mem_nil) s.waiters _
  -- a stopped slot is not accounted for
  | stop h_notes => exact absurd ⟨_, rfl⟩ h_live

/-- The account is kept through the changes of a whole step. -/
theorem changes (h : ¬ s.Stopped → Live slot s H) (h_changes : Changes call s N s')
    (h_live : ¬ s'.Stopped) : Live slot s' (H ++ N) := by
  induction h_changes generalizing H with
  | refl s =>
    rw [List.append_nil]
    exact h h_live
  | @step s s₁ s' N N' h_change h_rest ih =>
    rw [← List.append_assoc]
    -- nothing opens a slot that is stopped, so it was open before
    refine ih (fun h_live₁ => ?_) h_live
    exact (h fun h_stopped => h_live₁ (h_change.stopped h_stopped)).change h_change h_live₁

/-! ### Changes that may settle tickets -/

/-- Notes that speak of no fill leave what is written. -/
theorem written_append (h : Live slot s H) (h_fills : N.fills = [])
    (h_new : ∀ A i fill B, H = A ++ .filled i fill :: B → fill.data ≠ [] → ¬ s.Settles fill.ticket →
      s'.Settles fill.ticket → Written fill (B ++ N)) :
    ∀ A i fill B, H ++ N = A ++ .filled i fill :: B → fill.data ≠ [] →
      s'.Settles fill.ticket → Written fill B := by
  intro A i fill B h_eq h_data h_settles
  rcases append_eq_cons h_eq with ⟨B', h_fill, rfl⟩ | ⟨A', -, rfl⟩
  · -- a fill that was settled before is written already
    by_cases h_before : s.Settles fill.ticket
    · exact (h.written A i fill B' h_fill h_data h_before).append N
    · exact h_new A i fill B' h_fill h_data h_before h_settles
  · have h_mem : fill ∈ History.fills (A' ++ .filled i fill :: B) := History.mem_fills_of_eq rfl
    rw [h_fills] at h_mem
    exact absurd h_mem List.not_mem_nil

/-- A fill whose ticket is not settled belongs to the generation that the slot is in. -/
theorem tag_eq (h : Live slot s H) {i : Nat} (h_fill : H = A ++ .filled i fill :: B)
    (h_waits : ¬ s.Settles fill.ticket) : fill.tag = s.tag := by
  have h_mem := History.mem_fills_of_eq h_fill
  have h_le := h.tag_le fill h_mem
  have h_not : ¬ fill.tag < s.tag := fun h_lt => h_waits (.inl h_lt)
  omega

/-- A fill is written when the flush that is out comes back. -/
theorem written_of_released (h : Live slot s H) (h_out : Holding s H (some flush)) {i j : Nat}
    (h_fill : H = A ++ .filled i fill :: B) (h_waits : ¬ s.Settles fill.ticket) :
    Written fill (B ++ [.released j flush]) := by
  obtain ⟨A', k, B', rfl, h_quiet, h_served⟩ := h.served h_out h_fill (h.tag_eq h_fill h_waits)
  exact ⟨A', k, flush, B', j, [], by simp, h_quiet, h_served⟩

/-- The buffer is clean for a later generation. -/
theorem holds_clear (h : Live slot s H) {b : Buffer} (h_holds : Holds b s.capacity H s.tag) {tag : Nat}
    (h_later : s.tag < tag) : Holds (b.clear s.highWater) s.capacity H tag := by
  refine ⟨h_holds.size, fun i => ?_⟩
  have h_none : H.latest tag i = 0 := by
    refine History.latest_eq_zero fun fill h_mem h_covers => ?_
    have h_le := h.tag_le fill h_mem
    have h_tag := h_covers.1
    omega
  rw [h_none, Buffer.read_clear]
  by_cases h_low : i < s.highWater
  · rw [if_pos h_low]
  · -- no fill of the generation that ends has come this far
    rw [if_neg h_low, h_holds.read]
    refine History.latest_eq_zero fun fill h_mem h_covers => h_low ?_
    exact h_covers.2.2.trans_le (h.stop_le fill h_mem h_covers.1)

/-- The end of a generation whose bytes have been written. -/
theorem renew (h : Live slot s H) {b : Buffer} (h_holds : Holds b s.capacity H s.tag) {tag : Nat}
    {skipped : List Nat} (h_later : s.tag + s.gap ≤ tag) (h_fills : N.fills = [])
    (h_new : ∀ A i fill B, H = A ++ .filled i fill :: B → fill.data ≠ [] → ¬ s.Settles fill.ticket →
      Written fill (B ++ N))
    (h_count : ∀ flush, (H ++ N).claimed.count flush = (H ++ N).returned.count flush) :
    Live slot (renewed { s with buffer := b } tag skipped) (H ++ N) := by
  -- all fills are of earlier generations now, so what is said of the bytes of this one is void
  have h_lt : s.tag < tag := lt_of_lt_of_le (Nat.lt_add_of_pos_right h.gap_pos) h_later
  have h_same : (H ++ N).fills = H.fills := by
    rw [History.fills_append, h_fills, List.append_nil]
  have h_before : ∀ fill ∈ (H ++ N).fills, fill.tag < tag := fun fill h_mem =>
    (h.tag_le fill (h_same ▸ h_mem)).trans_lt h_lt
  constructor
  case capacity => exact h.capacity
  case gap_pos => exact h.gap_pos
  case tag_le => exact fun fill h_mem => (h_before fill h_mem).le
  case high_le => exact Nat.zero_le _
  case stop_le => exact fun fill h_mem h_tag => absurd h_tag (h_before fill h_mem).ne
  case furthest => exact fun h_pos => absurd h_pos (lt_irrefl 0)
  case clean => exact fun _ fill h_mem h_tag => absurd h_tag (h_before fill h_mem).ne
  case numbered => exact h.numbered
  case written =>
    exact h.written_append h_fills fun A i fill B h_fill h_data h_waits _ =>
      h_new A i fill B h_fill h_data h_waits
  case ledger =>
    exact ⟨none, .inside (.inl rfl) ((h.holds_clear h_holds h_lt).append h_fills),
      by simpa using h_count⟩

/-- The buffer of the flush that is out has the bytes of the generation. -/
theorem holds_out (h_out : Holding s H (some flush)) : Holds flush.buffer s.capacity H s.tag := by
  cases h_out with
  | @out A B call _ h_phase h_history h_quiet h_tag h_reach h_length h_holds =>
    rw [h_history]
    exact h_holds.append (fills_of_spared (N := B) h_quiet)

/-- **Every change that may settle tickets** leaves a summary of the longer history, if the flush that
comes back is one that is out. -/
theorem settling (h : Live slot s H) (h_change : Settling call s N s')
    (h_owned : ∀ flush ∈ N.returned, H.returned.count flush < H.claimed.count flush) :
    Live slot s' (H ++ N) := by
  -- a flush that comes back evens its account
  have h_even : ∀ {flush : Flush} {call : Nat}, (∀ flush', H.claimed.count flush' =
      H.returned.count flush' + if flush = flush' then 1 else 0) →
      ∀ flush', (H ++ [Note.released call flush]).claimed.count flush' =
        (H ++ [Note.released call flush]).returned.count flush' := by
    intro flush call h_count flush'
    have h_new : History.returned [.released call flush] = [flush] := rfl
    have h_old : History.claimed [.released call flush] = [] := rfl
    rw [History.claimed_append, History.returned_append, h_new, h_old, List.append_nil,
      List.count_append, List.count_singleton, h_count flush']
    simp only [beq_iff_eq]
  cases h_change with
  | @full flush tag skipped h_phase h_tag h_passes =>
    obtain ⟨h_out, h_count⟩ := h.holding_out (h_owned flush (List.mem_singleton_self _))
    exact h.renew (holds_out h_out) h_passes.le rfl
      (fun A i fill B h_fill _ h_waits => h.written_of_released h_out h_fill h_waits) (h_even h_count)
  | @early flush h_phase h_tag =>
    obtain ⟨h_out, h_count⟩ := h.holding_out (h_owned flush (List.mem_singleton_self _))
    have h_same : (H ++ [Note.released call flush]).fills = H.fills :=
      (History.fills_append H _).trans (List.append_nil _)
    refine ⟨h.capacity, h.gap_pos, h_same ▸ h.tag_le, h.high_le, h_same ▸ h.stop_le,
      h_same ▸ h.furthest, h_same ▸ h.clean, le_rfl, ?_, none,
      .inside (.inl rfl) ((holds_out h_out).append rfl), by simpa using h_even h_count⟩
    exact h.written_append rfl fun A i fill B h_fill _ h_waits _ =>
      h.written_of_released h_out h_fill h_waits
  | @skip tag skipped h_phase h_dirty h_passes =>
    obtain ⟨h_holds, h_count⟩ := h.holding_inside (.inl h_phase)
    refine h.renew h_holds h_passes.le rfl (fun A i fill B h_fill h_data h_waits => ?_)
      (by simpa using h_count)
    -- nothing was filled in the generation that ends
    have h_mem := History.mem_fills_of_eq h_fill
    exact absurd (h.clean h_dirty fill h_mem (h.tag_eq h_fill h_waits)) h_data

/-- **How a ticket is settled.** The change hands back a flush that was taken after the fill and has its
bytes, and nothing has happened since the flush was taken but that waiting calls returned. -/
theorem settled_by (h : Live slot s H) (h_change : Settling call s N s')
    (h_owned : ∀ flush ∈ N.returned, H.returned.count flush < H.claimed.count flush) {i : Nat}
    (h_fill : H = A ++ .filled i fill :: B) (h_data : fill.data ≠ [])
    (h_waits : ¬ s.Settles fill.ticket) :
    ∃ flush A' j B', N = [.released call flush] ∧ B = A' ++ .claimed j flush :: B' ∧
      (∀ n ∈ B', n.IsSpared) ∧ Served fill A' flush := by
  have h_tag := h.tag_eq h_fill h_waits
  cases h_change with
  | @full flush tag skipped h_phase h_flush h_passes =>
    -- the flush that comes back was the one out, and it was taken behind the fill
    obtain ⟨h_out, -⟩ := h.holding_out (h_owned flush (List.mem_singleton_self _))
    obtain ⟨A', j, B', h_served⟩ := h.served h_out h_fill h_tag
    exact ⟨flush, A', j, B', rfl, h_served⟩
  | @early flush h_phase h_flush =>
    obtain ⟨h_out, -⟩ := h.holding_out (h_owned flush (List.mem_singleton_self _))
    obtain ⟨A', j, B', h_served⟩ := h.served h_out h_fill h_tag
    exact ⟨flush, A', j, B', rfl, h_served⟩
  -- an empty slot has had no bytes of its generation
  | skip h_phase h_dirty h_passes =>
    have h_mem := History.mem_fills_of_eq h_fill
    exact absurd (h.clean h_dirty fill h_mem h_tag) h_data

end Live

end GroupCommit.Slot
