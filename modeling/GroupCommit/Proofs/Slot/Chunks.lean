import GroupCommit.Proofs.Slot.FullFlushes
import GroupCommit.Proofs.Slot.Representation
import Mathlib.Algebra.Order.BigOperators.Group.List

/-!
# Slots that are filled in chunks

Where callers copy in whole chunks only, at offsets that are whole chunks, everything about a slot is in
whole chunks: where its generations begin, how far they are filled, and what is written of them by a full
flush or an early one. And a slot counts the bytes that it takes into a generation and takes no more than
it holds, so it takes no more fills than it holds chunks.

Both are so in every run, also after steps that ended in a fault.

* `Slot.Aligned`, `Slot.aligned_run`, `Slot.aligned_given`: slots and flushes in chunks.
* `Slot.Filled`, `Slot.Filled.step`: what the fills of a slot amount to.
* `Slot.Filled.chunks_le`: how many of them there are.
-/

namespace GroupCommit.Slot

variable {s s' : Slot} {H N : History} {c call i t offset : Nat} {data : Bytes} {task : Task}
  {flush : Flush}

/-- The bytes are chunks of `c` bytes, at least one, at a place for chunks. -/
structure InChunks (c offset : Nat) (data : Bytes) : Prop where
  offset : c ∣ offset
  length : c ∣ data.length
  nonempty : 0 < data.length

/-! ### Flushes -/

/-- A flush is as long as the slot, or reaches to the high-water mark. -/
theorem Change.reaches (h : Change call s N s') (h_mem : .claimed i flush ∈ N) :
    flush.length = s'.capacity ∨ flush.length = s'.highWater := by
  obtain ⟨rfl, -⟩ := h.claims h_mem
  cases h with
  | claimFull h_full => exact .inl rfl
  | claimEarly h_open => exact .inr rfl
  -- stopping takes no flush
  | stop h_notes =>
    obtain ⟨_, h_eq⟩ := h_notes _ (List.mem_singleton_self _)
    cases h_eq

/-- A slot that is shut is not filled any further. -/
theorem Change.extent (h : Change call s N s') (h_shut : s.Shut) :
    s'.capacity = s.capacity ∧ s'.highWater = s.highWater := by
  cases h with
  | fill h_open => exact absurd h_open h_shut.1
  | _ => exact ⟨rfl, rfl⟩

/-- Once a slot is shut, its high-water mark stays. -/
theorem Changes.extent (h : Changes call s N s') (h_shut : s.Shut) :
    s'.capacity = s.capacity ∧ s'.highWater = s.highWater := by
  induction h with
  | refl s => exact ⟨rfl, rfl⟩
  | step h h_rest ih =>
    rw [(ih (h.shut h_shut)).1, (ih (h.shut h_shut)).2]
    exact h.extent h_shut

/-- The same of the changes of a whole step. -/
theorem Changes.reaches (h : Changes call s N s') (h_mem : .claimed i flush ∈ N) :
    flush.length = s'.capacity ∨ flush.length = s'.highWater := by
  induction h with
  | refl s => cases h_mem
  | step h h_rest ih =>
    rcases List.mem_append.1 h_mem with h_here | h_later
    · -- the slot is shut from then on
      obtain ⟨h_capacity, h_high⟩ := h_rest.extent (h.gives h_here).2.2
      rw [h_capacity, h_high]
      exact h.reaches h_here
    · exact ih h_later

/-- A flush that is given out is of the whole slot, or goes up to the furthest byte of it. -/
theorem given_reaches (h : given? (run task s).1 = some flush) :
    flush.length = (run task s).2.capacity ∨ flush.length = (run task s).2.highWater := by
  obtain ⟨i, h_changes, h_note⟩ := changes_of_given h
  exact h_changes.reaches h_note

/-- No call tells of a flush that it was given: it returns with it at once. -/
theorem announced_run {result : Result} (h : (run task s).1 = .goto (.announce result)) :
    given? (.finish result) = none := by
  -- a wait ends its call, goes on or parks, and wakes nobody
  have h_wait : ∀ {ticket move}, WaitEnds ticket move → move ≠ .goto (.announce result) := by
    rintro ticket _ h_ends rfl
    cases h_ends
  cases task with
  | acquire tag =>
    rw [run, whenAccepted] at h
    split at h <;> cases h
  | tryAcquire tag => cases h
  | fill tag offset data =>
    rw [run, whenAccepted] at h
    split at h
    · cases h
    · cases h
    · rw [copyThen] at h
      split at h
      · cases h
      · split at h <;> cases h
        rfl
  | fillJoin tag offset data =>
    rw [run, whenAccepted] at h
    split at h
    · cases h
    · cases h
    · rw [copyThen] at h
      split at h
      · cases h
      · split at h <;> cases h
  | join ticket => exact absurd h (h_wait (waitEnds_await _ ticket))
  | rejoin ticket => exact absurd h (h_wait (waitEnds_await _ ticket))
  | joinLate ticket =>
    exact absurd h (h_wait (waitEnds_pollOr (fun s => waitEnds_giveUp s ticket) s))
  | release flush =>
    rw [run] at h
    rcases h_back : s.handBack flush with ⟨(error | broken) | _, s'⟩ <;> rw [h_back] at h <;>
      cases h <;> rfl
  | abandon flush reason =>
    cases h
    rfl
  | skip tag =>
    rw [run] at h
    rcases h_skip : s.skipOver tag with ⟨broken | _, s'⟩ <;> rw [h_skip] at h <;> cases h
    rfl
  | poison reason =>
    cases h
    rfl
  | announce result => cases h

/-! ### Alignment -/

/-- The slot holds chunks of `c` bytes, and so far whole ones. -/
structure Aligned (c : Nat) (s : Slot) : Prop where
  capacity : c ∣ s.capacity
  gap : c ∣ s.gap
  tag : c ∣ s.tag
  highWater : c ∣ s.highWater

namespace Aligned

/-- Passing skips adds whole gaps to the generation. -/
theorem passSkips (h : Aligned c s) (fuel : Nat) : Aligned c (Slot.passSkips fuel s).2 := by
  induction fuel generalizing s with
  | zero => exact h
  | succ fuel ih =>
    unfold Slot.passSkips
    split
    · dsimp only
      split
      · exact ih ⟨h.capacity, h.gap, (Nat.dvd_add_right h.tag).2 h.gap, h.highWater⟩
      · exact ⟨h.capacity, h.gap, h.tag, h.highWater⟩
    · exact h

/-- The next generation begins whole chunks later. -/
theorem advance (h : Aligned c s) : Aligned c s.advance.2 := by
  unfold Slot.advance
  split
  · exact h
  · dsimp only
    split
    · -- the next generation begins a gap further on and is empty
      refine Aligned.passSkips ?_ _
      exact ⟨h.capacity, h.gap, (Nat.dvd_add_right h.tag).2 h.gap, Nat.dvd_zero c⟩
    · exact ⟨h.capacity, h.gap, h.tag, h.highWater⟩

/-- A fill of whole chunks leaves the mark at the end of one. -/
theorem copyIn (h : Aligned c s) (h_data : InChunks c offset data) :
    Aligned c (s.copyIn offset data).2 := by
  have h_copied := s.copied offset data
  generalize s.copyIn offset data = o at h_copied ⊢
  cases h_copied with
  | fits =>
    refine ⟨h.capacity, h.gap, h.tag, ?_⟩
    -- the furthest byte is one of before, or the last one of these
    show c ∣ max s.highWater (offset + data.length)
    rcases max_choice s.highWater (offset + data.length) with h_max | h_max <;> rw [h_max]
    · exact h.highWater
    · exact (Nat.dvd_add_right h_data.offset).2 h_data.length
  | _ => exact ⟨h.capacity, h.gap, h.tag, h.highWater⟩

/-- Whole chunks are kept through every change. -/
theorem keepsThrough (c : Nat) : KeepsThrough (InChunks c) (Aligned c) where
  count := fun _ h => ⟨h.capacity, h.gap, h.tag, h.highWater⟩
  copyIn := fun _ _ h_data h _ => h.copyIn h_data
  complete := fun h _ _ => ⟨h.capacity, h.gap, h.tag, h.highWater⟩
  claimFull := fun h _ => ⟨h.capacity, h.gap, h.tag, h.highWater⟩
  claimEarly := fun h _ => ⟨h.capacity, h.gap, h.tag, h.highWater⟩
  stop := fun _ _ h => ⟨h.capacity, h.gap, h.tag, h.highWater⟩
  buffer := fun _ h => ⟨h.capacity, h.gap, h.tag, h.highWater⟩
  later := fun _ h => ⟨h.capacity, h.gap, h.tag, h.highWater⟩
  reopen := fun _ h _ => ⟨h.capacity, h.gap, h.tag, h.highWater⟩
  advance := fun h _ => h.advance

theorem keeps (c : Nat) : Keeps (InChunks c) (Aligned c) := (keepsThrough c).keeps

end Aligned

/-- **A step keeps a slot aligned** if it copies in nothing but chunks. -/
theorem aligned_run (h : Aligned c s)
    (h_task : ∀ offset data, task.Copies offset data → InChunks c offset data) :
    Aligned c (run task s).2 :=
  keeps_run (Aligned.keeps c) task h_task h

/-- **A flush is of whole chunks**, and its generation begins with one. -/
theorem aligned_given (h : Aligned c s)
    (h_task : ∀ offset data, task.Copies offset data → InChunks c offset data)
    (h_given : given? (run task s).1 = some flush) : c ∣ flush.tag ∧ c ∣ flush.length := by
  have h_after := aligned_run h h_task
  obtain ⟨-, h_tag, -⟩ := given_run h_given
  refine ⟨h_tag ▸ h_after.tag, ?_⟩
  -- both lengths are whole chunks
  rcases given_reaches h_given with h_length | h_length <;> rw [h_length]
  · exact h_after.capacity
  · exact h_after.highWater

/-! ### What is counted -/

/-- The slot has gone on from the generation `t`, or has counted at least `n` bytes of it. -/
structure HasCounted (t n : Nat) (s : Slot) : Prop where
  gap_pos : 0 < s.gap
  counted : t < s.tag ∨ (s.tag = t ∧ n ≤ s.dirty)

namespace HasCounted

variable {n : Nat}

/-- Moving on, the slot leaves the generation it has counted for. -/
theorem advance (h : HasCounted t n s) : HasCounted t n s.advance.2 := by
  have h_le : t ≤ s.tag := h.counted.elim Nat.le_of_lt fun h_here => h_here.1.ge
  rcases advance_cases h.gap_pos with ⟨buffer, h_eq⟩ | ⟨h_lt, tag, skipped, buffer, h_eq⟩
  · rw [h_eq]
    exact ⟨h.gap_pos, h.counted⟩
  · rw [h_eq] at h_lt ⊢
    exact ⟨h.gap_pos, .inl (h_le.trans_lt h_lt)⟩

/-- Within a generation the count only grows. -/
theorem keepsThrough (t n : Nat) : KeepsThrough (fun _ _ => True) (HasCounted t n) where
  count := fun _ h => ⟨h.gap_pos, h.counted⟩
  copyIn := fun {s} offset data _ h _ => by
    have h_more : t < s.tag ∨ (s.tag = t ∧ n ≤ s.dirty + data.length) :=
      h.counted.imp_right (And.imp_right fun h_le => h_le.trans (Nat.le_add_right _ _))
    have h_copied := s.copied offset data
    generalize s.copyIn offset data = o at h_copied
    cases h_copied with
    | refused | uncounted => exact ⟨h.gap_pos, h.counted⟩
    | overflows | fits => exact ⟨h.gap_pos, h_more⟩
  complete := fun h _ _ => ⟨h.gap_pos, h.counted⟩
  claimFull := fun h _ => ⟨h.gap_pos, h.counted⟩
  claimEarly := fun h _ => ⟨h.gap_pos, h.counted⟩
  stop := fun _ _ h => ⟨h.gap_pos, h.counted⟩
  buffer := fun _ h => ⟨h.gap_pos, h.counted⟩
  later := fun _ h => ⟨h.gap_pos, h.counted⟩
  reopen := fun _ h _ => ⟨h.gap_pos, h.counted⟩
  advance := fun h _ => h.advance

theorem keeps (t n : Nat) : Keeps (fun _ _ => True) (HasCounted t n) := (keepsThrough t n).keeps

end HasCounted

/-! ### What is filled -/

/-- A copy that succeeds is counted, and there is room for it. -/
theorem dirty_of_copyIn {ticket : Ticket} (h : s.copyIn offset data = (.ok ticket, s')) :
    s'.tag = s.tag ∧ s'.dirty = s.dirty + data.length ∧ s.dirty + data.length ≤ s.capacity := by
  have h_copied := s.copied offset data
  rw [h] at h_copied
  cases h_copied with
  | fits _ h_room => exact ⟨rfl, rfl, h_room⟩

/-- **What a step fills in**: nothing, or the bytes of its task, for which the generation has room. -/
inductive Fills (call : Nat) (s : Slot) (task : Task) : Prop
  | none (h_fills : (s.stepNotes call task).fills = [])
  | one {offset : Nat} {data : Bytes} (h_copies : task.Copies offset data)
      (h_fills : (s.stepNotes call task).fills = [⟨s.tag, offset, data, s.claims⟩])
      (h_tag : (run task s).2.tag = s.tag) (h_dirty : (run task s).2.dirty = s.dirty + data.length)
      (h_room : s.dirty + data.length ≤ s.capacity)

/-- What is noted at the end of a step fills nothing. -/
theorem fills_endNotes (call : Nat) (ticket : Option Ticket) (move : Move Task Result) :
    (endNotes call ticket move).fills = [] := by
  unfold endNotes
  split
  · rfl
  · cases ticket <;> rfl
  · rfl

/-- A copying step fills in the bytes that are counted. `h_after` says of the step that it leaves the
generation and the count as the copy has left them. -/
theorem fills_of_fillNotes {tag : Nat} (h_copies : task.Copies offset data)
    (h_notes : (s.stepNotes call task).fills = (s.fillNotes call tag offset data).fills)
    (h_after : ∀ {ticket s'}, s.accepts tag = .ok true → s.copyIn offset data = (.ok ticket, s') →
      (run task s).2.tag = s'.tag ∧ (run task s).2.dirty = s'.dirty) : Fills call s task := by
  by_cases h_both : s.accepts tag = .ok true ∧ (s.copyIn offset data).1.isOk
  · obtain ⟨h_open, h_ok⟩ := h_both
    rcases h_copy : s.copyIn offset data with ⟨broken | ticket, s'⟩
    · rw [h_copy] at h_ok
      cases h_ok
    · obtain ⟨h_tag, h_dirty, h_room⟩ := dirty_of_copyIn h_copy
      obtain ⟨h_tag_after, h_dirty_after⟩ := h_after h_open h_copy
      rw [fillNotes_open h_open h_copy] at h_notes
      exact .one h_copies h_notes (h_tag_after.trans h_tag) (h_dirty_after.trans h_dirty) h_room
  · -- the generation is not open, or the copy has ended in a fault
    rw [fillNotes, if_neg h_both] at h_notes
    exact .none h_notes

/-- A step fills once or not at all. -/
theorem fills_stepNotes (s : Slot) (call : Nat) (task : Task) : Fills call s task := by
  cases task with
  | fill tag offset data =>
    refine fills_of_fillNotes .fill rfl fun h_open h_copy => ?_
    rw [run_fill h_open h_copy]
    split <;> exact ⟨rfl, rfl⟩
  | fillJoin tag offset data =>
    -- the step may also end the call, but the note on that is no fill
    have h_notes : (s.stepNotes call (.fillJoin tag offset data)).fills =
        (s.fillNotes call tag offset data).fills := by
      rw [stepNotes, History.fills_append, fills_endNotes, List.append_nil]
    refine fills_of_fillNotes .fillJoin h_notes fun h_open h_copy => ?_
    rw [run_fillJoin h_open h_copy]
    split <;> exact ⟨rfl, rfl⟩
  | join ticket => exact .none (fills_endNotes _ _ _)
  | rejoin ticket => exact .none (fills_endNotes _ _ _)
  | joinLate ticket => exact .none (fills_endNotes _ _ _)
  | release flush =>
    refine .none ?_
    rw [stepNotes]
    split <;> rfl
  | _ => exact .none rfl

/-- What the fills of a slot amount to. -/
structure Filled (s : Slot) (H : History) : Prop where
  tag_le : ∀ fill ∈ H.fills, fill.tag ≤ s.tag
  counted : H.filled s.tag ≤ s.dirty
  within : ∀ t, H.filled t ≤ s.capacity

theorem History.filled_append_single {fill : Fill} (h : N.fills = [fill]) (t : Nat) :
    History.filled (H ++ N) t = H.filled t + if fill.tag = t then fill.data.length else 0 := by
  rw [History.filled, History.fills_append, h, List.filter_append, List.map_append, List.sum_append,
    List.filter_singleton]
  by_cases h_tag : fill.tag = t <;> simp [h_tag, History.filled]

namespace Filled

theorem empty (s : Slot) : Filled s [] where
  tag_le := fun fill h => by cases h
  counted := Nat.zero_le _
  within := fun t => Nat.zero_le _

/-- **A step keeps the account of what was filled.** -/
theorem step (h : Filled s H) (h_gap : 0 < s.gap) (call : Nat) (task : Task) :
    Filled (run task s).2 (H ++ s.stepNotes call task) := by
  obtain ⟨-, h_capacity⟩ := keeps_run (keeps_sizes s.gap s.capacity) task
    (fun _ _ _ => trivial) ⟨rfl, rfl⟩
  cases fills_stepNotes s call task with
  | none h_fills =>
    -- the slot is where it was, and has counted as much, or it has gone on
    have h_holds := keeps_run (HasCounted.keeps s.tag (H.filled s.tag)) task
      (fun _ _ _ => trivial) ⟨h_gap, .inr ⟨rfl, h.counted⟩⟩
    constructor
    case tag_le =>
      intro fill h_mem
      rw [History.fills_append, h_fills, List.append_nil] at h_mem
      exact (h.tag_le fill h_mem).trans (onward_run task s).tag_le
    case counted =>
      rw [History.filled_append h_fills]
      rcases h_holds.counted with h_lt | ⟨h_tag, h_le⟩
      · rw [History.filled_eq_zero fun fill h_mem => ((h.tag_le fill h_mem).trans_lt h_lt).ne]
        exact Nat.zero_le _
      · rw [h_tag]
        exact h_le
    case within =>
      intro t
      rw [History.filled_append h_fills, h_capacity]
      exact h.within t
  | one h_copies h_fills h_tag h_dirty h_room =>
    constructor
    case tag_le =>
      intro fill h_mem
      rw [History.fills_append, h_fills, List.mem_append, List.mem_singleton] at h_mem
      rw [h_tag]
      rcases h_mem with h_old | rfl
      · exact h.tag_le fill h_old
      · exact le_rfl
    case counted =>
      rw [History.filled_append_single h_fills, if_pos h_tag.symm, h_tag, h_dirty]
      exact Nat.add_le_add_right h.counted _
    case within =>
      intro t
      rw [History.filled_append_single h_fills, h_capacity]
      split
      · next h_here =>
        -- what was filled into this generation has been counted
        obtain rfl : s.tag = t := h_here
        exact (Nat.add_le_add_right h.counted _).trans h_room
      · exact h.within t

/-- **A generation takes no more fills than it holds chunks.** -/
theorem chunks_le (h : Filled s H) (h_chunks : ∀ fill ∈ H.fills, InChunks c fill.offset fill.data)
    (t : Nat) : (H.fills.filter fun fill => fill.tag = t).length * c ≤ s.capacity := by
  -- every fill of the generation is one chunk at least
  have h_each : ∀ n ∈ (H.fills.filter fun fill => fill.tag = t).map fun fill => fill.data.length,
      c ≤ n := by
    intro n h_mem
    obtain ⟨fill, h_fill, rfl⟩ := List.mem_map.1 h_mem
    have h_in := h_chunks fill (List.mem_of_mem_filter h_fill)
    exact Nat.le_of_dvd h_in.nonempty h_in.length
  calc (H.fills.filter fun fill => fill.tag = t).length * c
      ≤ H.filled t := by
        have h_sum := List.card_nsmul_le_sum _ c h_each
        rw [List.length_map] at h_sum
        exact h_sum
    _ ≤ s.capacity := h.within t

end Filled

end GroupCommit.Slot
