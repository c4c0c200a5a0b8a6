import GroupCommit.Proofs.Ring.Blocks
import GroupCommit.Proofs.Word
import GroupCommit.Slot.Program

/-!
# What the operations of a slot do

Under the conditions in which a log uses them, the operations of a slot do not fault, and each has one
outcome. This module states that outcome for each of them; what a slot goes through in a run is then
said without looking into an operation again.

* `Slot.eq_of_create`: the slot that one begins with.
* `Slot.Passes`: how a slot moves on over the generations that were skipped, with what that means for
  its addresses (`Passes.covered`) and for the skips that are left (`Passes.lt`).
* `Slot.advance_ok`: ending a generation.
* `Slot.accepts_ok`, `Slot.copyIn_ok`, `Slot.poll_ok`, `Slot.skipOver_ahead` and the like: the other
  operations.
* `Slot.copied`: how copying bytes in ends, with a fault or without.
* `Slot.copyIn_frame`, `Slot.poll_frame`, `Slot.advance_frame` and the like: what they leave alone.
-/

namespace GroupCommit.Slot

/-- A slot as it is created. -/
theorem eq_of_create {slot : Slot} {index capacity ringSize : Nat}
    (h_create : Slot.create index capacity ringSize = .ok slot) :
    capacity * ringSize < Word.limit ∧ slot = {
      index, capacity
      gap := capacity * ringSize
      tag := index * capacity
      dirty := 0
      highWater := 0
      phase := .filling
      waiters := 0
      skipped := []
      claims := 0
      durable := ⟨0, 0⟩
      buffer := .blank capacity } := by
  -- the size of the buffer is all that the four checks do not leave behind
  obtain ⟨tag, h_tag, h_create⟩ := bind_eq_ok.1 h_create
  obtain ⟨-, -, h_create⟩ := bind_eq_ok.1 h_create
  obtain ⟨gap, h_gap, h_create⟩ := bind_eq_ok.1 h_create
  obtain ⟨-, rfl⟩ := Word.mul_eq_ok.1 h_tag
  obtain ⟨h_lt, rfl⟩ := Word.mul_eq_ok.1 h_gap
  exact ⟨h_lt, (Except.ok.inj h_create).symm⟩

/-! ### Passing over skips -/

/-- A slot with these skips moves on from one generation to the next that is not skipped. -/
inductive Passes (gap : Nat) : Nat → List Nat → Nat → List Nat → Prop
  | stop {tag : Nat} {skips : List Nat} (h : tag ∉ skips) : Passes gap tag skips tag skips
  | pass {tag tag' : Nat} {skips skips' : List Nat} (h : tag ∈ skips)
      (h_rest : Passes gap (tag + gap) (skips.erase tag) tag' skips') :
      Passes gap tag skips tag' skips'

namespace Passes

variable {gap tag tag' : Nat} {skips skips' : List Nat}

/-- Passing skips only goes forward. -/
theorem le (h : Passes gap tag skips tag' skips') : tag ≤ tag' := by
  induction h with
  | stop h => exact le_rfl
  | pass h h_rest ih => omega

/-- The skips that are left are some of those that were there. -/
theorem sublist (h : Passes gap tag skips tag' skips') : skips'.Sublist skips := by
  induction h with
  | stop h => exact List.Sublist.refl _
  | pass h h_rest ih => exact ih.trans List.erase_sublist

/-- A skip is left over or was passed. -/
theorem mem_or_lt (h : Passes gap tag skips tag' skips') (h_gap : 0 < gap) {t : Nat}
    (ht : t ∈ skips) : t ∈ skips' ∨ t < tag' := by
  induction h with
  | stop h => exact .inl ht
  | @pass tag tag' skips skips' h h_rest ih =>
    -- the one that is passed now lies behind, all others are still in the list
    by_cases h_eq : t = tag
    · have := h_rest.le
      omega
    · exact ih ((List.mem_erase_of_ne h_eq).2 ht)

variable {g : Geometry}

/-- An address that the slot has passed lies in a skipped block. -/
theorem covered (h : Passes gap tag skips tag' skips') (h_gap : gap = g.capacity * g.ringSize)
    (h_dvd : g.capacity ∣ tag) {a : Nat} (h_index : g.index a = g.index tag) (h_le : tag ≤ a)
    (h_lt : a < tag') : ∃ t ∈ skips, g.InBlock t a := by
  induction h with
  | stop h => omega
  | @pass tag tag' skips skips' h h_rest ih =>
    -- the address is in the block that is skipped, or still ahead of the slot after it
    rcases Geometry.inBlock_or_gap_le h_dvd h_index h_le with h_in | h_beyond
    · exact ⟨tag, h, h_in⟩
    · subst h_gap
      have h_same : g.index a = g.index (tag + g.capacity * g.ringSize) := by
        rw [Geometry.index_add_gap, h_index]
      obtain ⟨t, h_mem, h_in⟩ := ih (Geometry.dvd_add_gap h_dvd) h_same h_beyond h_lt
      exact ⟨t, List.mem_of_mem_erase h_mem, h_in⟩

/-- The ring's generations lie a whole turn apart, so the slot keeps its place in the ring. -/
theorem tag_index (h : Passes gap tag skips tag' skips') (h_gap : gap = g.capacity * g.ringSize)
    (h_dvd : g.capacity ∣ tag) : g.capacity ∣ tag' ∧ g.index tag' = g.index tag := by
  induction h with
  | stop h => exact ⟨h_dvd, rfl⟩
  | pass h h_rest ih =>
    subst h_gap
    obtain ⟨h_dvd', h_index⟩ := ih (Geometry.dvd_add_gap h_dvd)
    exact ⟨h_dvd', by rw [h_index, Geometry.index_add_gap]⟩

/-- The skips that are left lie ahead. -/
theorem lt (h : Passes gap tag skips tag' skips') (h_gap : gap = g.capacity * g.ringSize)
    (h_dvd : g.capacity ∣ tag) (h_nodup : skips.Nodup)
    (h_skips : ∀ t ∈ skips, tag ≤ t ∧ g.capacity ∣ t ∧ g.index t = g.index tag) :
    ∀ t ∈ skips', tag' < t := by
  induction h with
  | stop h =>
    intro t ht
    refine lt_of_le_of_ne (h_skips t ht).1 ?_
    rintro rfl
    exact h ht
  | @pass tag tag' skips skips' h h_rest ih =>
    subst h_gap
    refine ih (Geometry.dvd_add_gap h_dvd) (h_nodup.erase _) ?_
    intro t ht
    rw [h_nodup.mem_erase_iff] at ht
    obtain ⟨h_le, h_dvd', h_index⟩ := h_skips t ht.2
    refine ⟨?_, h_dvd', by rw [Geometry.index_add_gap, h_index]⟩
    -- what is still in the list lies a gap further on at least
    exact Geometry.gap_separate h_dvd h_dvd' h_index.symm (lt_of_le_of_ne h_le (Ne.symm ht.1))

end Passes

/-- These skips reach from one generation to the last that has an address. -/
def RunOut (gap tag : Nat) (skips : List Nat) : Prop :=
  ∃ n, (∀ k ≤ n, tag + k * gap ∈ skips) ∧ Word.limit ≤ tag + n * gap + gap

/-- One more skip in front of those that run out of addresses. -/
theorem RunOut.pass {gap tag : Nat} {skips : List Nat} (h : RunOut gap (tag + gap) (skips.erase tag))
    (h_mem : tag ∈ skips) : RunOut gap tag skips := by
  obtain ⟨n, h_all, h_limit⟩ := h
  refine ⟨n + 1, fun k hk => ?_, ?_⟩
  · cases k with
    -- the first address is the skip itself, the others are those of the rest
    | zero => rwa [Nat.zero_mul]
    | succ k =>
      have h_next := List.mem_of_mem_erase (h_all k (by omega))
      rwa [Nat.add_right_comm, Nat.add_assoc, ← Nat.succ_mul] at h_next
  · rw [Nat.succ_mul]
    omega

/-- With enough fuel, a slot passes over its skips, unless they leave no generation. -/
theorem passSkips_passes (fuel : Nat) (s : Slot) (h_fuel : s.skipped.length ≤ fuel) :
    (∃ tag skipped, passSkips fuel s = (.ok (), { s with tag, skipped }) ∧
        Passes s.gap s.tag s.skipped tag skipped) ∨
      ((passSkips fuel s).1 = .error .addOverflow ∧ RunOut s.gap s.tag s.skipped) := by
  induction fuel generalizing s with
  | zero =>
    have h_none : s.skipped = [] := List.length_eq_zero_iff.1 (Nat.le_zero.1 h_fuel)
    exact .inl ⟨s.tag, s.skipped, rfl, .stop (by simp [h_none])⟩
  | succ fuel ih =>
    rw [passSkips]
    split
    · next h_mem =>
      dsimp only
      split
      · -- each round takes a skip off the list, so the fuel is enough
        have h_length := List.length_erase_of_mem h_mem
        have h_pos := List.length_pos_of_mem h_mem
        rcases ih { s with skipped := s.skipped.erase s.tag, tag := s.tag + s.gap }
          (show (s.skipped.erase s.tag).length ≤ fuel by omega) with
          ⟨tag, skipped, h_eq, h_passes⟩ | ⟨h_fault, h_out⟩
        · exact .inl ⟨tag, skipped, h_eq, .pass h_mem h_passes⟩
        · exact .inr ⟨h_fault, h_out.pass h_mem⟩
      · next h_limit =>
        refine .inr ⟨rfl, 0, fun k hk => ?_, by omega⟩
        rwa [Nat.le_zero.1 hk, Nat.zero_mul]
    · next h_mem => exact .inl ⟨s.tag, s.skipped, rfl, .stop h_mem⟩

/-- The slot at the start of another generation. -/
def renewed (s : Slot) (tag : Nat) (skipped : List Nat) : Slot :=
  { s with
    buffer := s.buffer.clear s.highWater
    tag, skipped
    dirty := 0
    highWater := 0
    phase := .filling }

/-- With room in the address space for one more generation, a slot moves on, unless its skips leave
none. -/
theorem advance_passes {s : Slot} (h_high : s.highWater ≤ s.buffer.size)
    (h_tag : s.tag + s.gap < Word.limit) :
    (∃ tag skipped, s.advance = (.ok (), s.renewed tag skipped) ∧
        Passes s.gap (s.tag + s.gap) s.skipped tag skipped) ∨
      RunOut s.gap (s.tag + s.gap) s.skipped := by
  rw [advance, if_neg (by omega)]
  simp only
  rw [if_pos h_tag]
  -- the slot is cleared and moved on by one gap before it passes its skips
  exact (passSkips_passes s.skipped.length
    { s with
      buffer := s.buffer.clear s.highWater
      tag := s.tag + s.gap
      dirty := 0
      highWater := 0
      phase := .filling } le_rfl).imp_right And.right

/-- With room for every address that a skip can lead to, moving on does not fail. -/
theorem advance_ok {s : Slot} (h_high : s.highWater ≤ s.buffer.size)
    (h_tag : s.tag + s.gap < Word.limit) (h_room : ∀ t ∈ s.skipped, t + s.gap < Word.limit) :
    ∃ tag skipped, s.advance = (.ok (), s.renewed tag skipped) ∧
      Passes s.gap (s.tag + s.gap) s.skipped tag skipped := by
  rcases advance_passes h_high h_tag with h_passes | ⟨n, h_all, h_limit⟩
  · exact h_passes
  · exact absurd (h_room _ (h_all n le_rfl)) (by omega)

/-! ### Copying bytes in -/

variable {s : Slot} {tag : Nat}

/-- Nothing can be done with the slot any more. -/
def Stopped (s : Slot) : Prop := ∃ reason, s.phase = .poisoned reason

theorem not_stopped {phase : Phase} (h : s.phase = phase)
    (h_live : ∀ reason, phase ≠ .poisoned reason) : ¬ s.Stopped := by
  rintro ⟨reason, h_stopped⟩
  exact h_live reason (h.symm.trans h_stopped)

/-- A stopped slot turns away every fill. -/
theorem accepts_stopped {reason : PoisonReason} (h : s.phase = .poisoned reason) :
    s.accepts tag = .error (poisonedStop reason) := by
  rw [accepts, h]

/-- An open slot takes a fill of its own generation while it is filling, and lets one of a later
generation wait. -/
theorem accepts_ok (h : ¬ s.Stopped) (h_tag : s.tag ≤ tag) :
    s.accepts tag = .ok (decide (s.tag = tag ∧ s.phase = .filling)) := by
  unfold accepts
  split
  · next reason h_phase => exact absurd ⟨reason, h_phase⟩ h
  · rw [if_neg (by omega)]

/-- The slot with bytes copied in. -/
def filledWith (s : Slot) (offset : Nat) (data : Bytes) : Slot :=
  { s with
    buffer := s.buffer.write offset data
    dirty := s.dirty + data.length
    highWater := max s.highWater (offset + data.length) }

/-- The slot with bytes copied in that are not counted. -/
def copiedWith (s : Slot) (offset : Nat) (data : Bytes) : Slot :=
  { s with buffer := s.buffer.write offset data }

/-- The slot with bytes copied in and counted that it does not hold. -/
def overfilledWith (s : Slot) (offset : Nat) (data : Bytes) : Slot :=
  { s.copiedWith offset data with dirty := s.dirty + data.length }

/-- More bytes have been copied into a slot than it holds. -/
def IsOverflow (broken : Fault) : Prop :=
  ∃ tag dirty capacity, broken = .slotOverflow tag dirty capacity

/-- How copying bytes in ends. -/
inductive Copied (s : Slot) (offset : Nat) (data : Bytes) : Except Fault Ticket × Slot → Prop
  /-- There is no such place in the slot. -/
  | refused {broken : Fault} (h : ¬ IsOverflow broken) : Copied s offset data (.error broken, s)
  /-- So many bytes have been counted already that the sum is no word. -/
  | uncounted (h : Word.limit ≤ s.dirty + data.length) : Copied s offset data
      (.error .addOverflow, s.copiedWith offset data)
  | overflows (h_word : s.dirty + data.length < Word.limit)
      (h : s.capacity < s.dirty + data.length) : Copied s offset data
      (.error (.slotOverflow s.tag (s.dirty + data.length) s.capacity), s.overfilledWith offset data)
  | fits (h_place : offset + data.length ≤ s.capacity) (h : s.dirty + data.length ≤ s.capacity) :
      Copied s offset data
        (.ok ⟨s.tag, offset + data.length, s.claims⟩, s.filledWith offset data)

theorem checkRange_fault {start stop length : Nat} {broken : Fault}
    (h : Bytes.checkRange start stop length = .error broken) : ¬ IsOverflow broken := by
  unfold Bytes.checkRange at h
  rintro ⟨tag, dirty, capacity, rfl⟩
  split at h
  · cases h
  split at h
  · cases h
  split at h <;> cases h

/-- **Every copy ends in one of these ways.** -/
theorem copied (s : Slot) (offset : Nat) (data : Bytes) :
    Copied s offset data (s.copyIn offset data) := by
  unfold copyIn
  dsimp only
  split
  · exact .refused nofun
  split
  · exact .refused nofun
  next h_place =>
  split
  · next h_range => exact .refused (checkRange_fault h_range)
  -- the bytes are there by now, and what is left is to count them
  split
  · next h_add =>
    obtain ⟨rfl, h_limit⟩ := Word.add_eq_error.1 h_add
    exact .uncounted h_limit
  · next h_add =>
    obtain ⟨h_word, rfl⟩ := Word.add_eq_ok.1 h_add
    split
    · next h_over => exact .overflows h_word h_over
    · next h_fits => exact .fits (Nat.le_of_not_lt h_place) (Nat.le_of_not_lt h_fits)

/-- Bytes that fit, into a range of the slot and beside those before, are copied and counted. -/
theorem copyIn_ok {offset : Nat} {data : Bytes} (h_limit : s.capacity < Word.limit)
    (h_fits : offset + data.length ≤ s.capacity) (h_size : s.buffer.size = s.capacity)
    (h_dirty : s.dirty + data.length ≤ s.capacity) :
    s.copyIn offset data =
      (.ok ⟨s.tag, offset + data.length, s.claims⟩, s.filledWith offset data) := by
  -- the checks in turn: the capacity, the range of the buffer, what is filled already
  have h_add : Word.add s.dirty data.length = .ok (s.dirty + data.length) :=
    Word.add_eq_ok.2 ⟨h_dirty.trans_lt h_limit, rfl⟩
  rw [copyIn, if_neg (by omega), if_neg (by omega), Bytes.checkRange, if_neg (by omega),
    if_neg (by omega), if_neg (by omega)]
  simp only [h_add]
  rw [if_neg (by omega)]
  rfl

/-! ### Waiting for bytes to be written -/

variable {ticket : Ticket}

/-- The poll of a stopped slot gives the reason. -/
theorem poll_stopped {reason : PoisonReason} (h : s.phase = .poisoned reason) :
    s.poll ticket = (some (.error (poisonedStop reason)), s) := by
  rw [poll, h]

/-- A ticket is settled when its generation is over or an early flush covers it. -/
def Settles (s : Slot) (ticket : Ticket) : Prop := ticket.tag < s.tag ∨ s.covers ticket

instance (s : Slot) (ticket : Ticket) : Decidable (s.Settles ticket) :=
  inferInstanceAs (Decidable (_ ∨ _))

/-- What a poll finds in a slot that is open and has reached the ticket's generation. -/
theorem poll_ok (h : ¬ s.Stopped) (h_tag : ticket.tag ≤ s.tag) :
    s.poll ticket =
      if s.Settles ticket then (some (.ok none), s)
      else if s.phase = .full then (some (.ok (some s.claimFull.1)), s.claimFull.2)
      else (none, s) := by
  unfold poll
  split
  · next reason h_phase => exact absurd ⟨reason, h_phase⟩ h
  · -- the slot has reached the generation of the ticket, so it is no fault to wait on it
    rw [if_neg (by omega)]
    rfl

/-! ### Ending a generation -/

/-- A stopped slot ignores a skip. -/
theorem skipOver_stopped (h : s.Stopped) : s.skipOver tag = (.ok (), s) := by
  obtain ⟨reason, h⟩ := h
  rw [skipOver, h]

/-- A skip of the generation that an empty slot has open moves the slot on. -/
theorem skipOver_now (h_phase : s.phase = .filling) (h_dirty : s.dirty = 0) :
    s.skipOver s.tag = s.advance := by
  rw [skipOver, h_phase]
  simp only
  rw [if_pos trivial, if_pos ⟨trivial, h_dirty⟩]

/-- A skip of a later generation is kept for then. -/
theorem skipOver_ahead (h : ¬ s.Stopped) (h_tag : s.tag < tag) (h_new : tag ∉ s.skipped) :
    s.skipOver tag = (.ok (), { s with skipped := insertSkip tag s.skipped }) := by
  unfold skipOver
  split
  · next reason h_phase => exact absurd ⟨reason, h_phase⟩ h
  · rw [if_neg (by omega), if_neg (by omega), if_neg h_new]

@[simp] theorem mem_insertSkip {t : Nat} {skips : List Nat} :
    t ∈ insertSkip tag skips ↔ t = tag ∨ t ∈ skips := by
  induction skips with
  | nil => simp [insertSkip]
  | cons t₀ skips ih =>
    rw [insertSkip]
    split
    · simp
    · rw [List.mem_cons, ih, List.mem_cons]
      -- further back in the list
      exact or_left_comm

/-- No generation is skipped twice. -/
theorem nodup_insertSkip {skips : List Nat} (h_new : tag ∉ skips) (h : skips.Nodup) :
    (insertSkip tag skips).Nodup := by
  induction skips with
  | nil => simp [insertSkip]
  | cons t₀ skips ih =>
    rw [insertSkip]
    split
    · exact List.nodup_cons.2 ⟨h_new, h⟩
    · rw [List.nodup_cons] at h ⊢
      rw [List.mem_cons, not_or] at h_new
      -- the first of the rest was there before, and is not the new one
      refine ⟨?_, ih h_new.2 h.2⟩
      rw [mem_insertSkip, not_or]
      exact ⟨Ne.symm h_new.1, h.1⟩

/-- The skips stay in order. -/
theorem pairwise_insertSkip {skips : List Nat} (h_new : tag ∉ skips) (h : skips.Pairwise (· < ·)) :
    (insertSkip tag skips).Pairwise (· < ·) := by
  induction skips with
  | nil => exact List.pairwise_singleton _ tag
  | cons t₀ skips ih =>
    rw [List.mem_cons, not_or] at h_new
    have h_rest := List.pairwise_cons.1 h
    rw [insertSkip]
    split
    · next h_le =>
      -- the skip goes in front of all others
      have h_lt : tag < t₀ := lt_of_le_of_ne h_le h_new.1
      refine List.pairwise_cons.2 ⟨fun t ht => ?_, h⟩
      rcases List.mem_cons.1 ht with rfl | ht
      · exact h_lt
      · exact h_lt.trans (h_rest.1 t ht)
    · next h_le =>
      -- the skip goes further back, and the first stays the least
      refine List.pairwise_cons.2 ⟨fun t ht => ?_, ih h_new.2 h_rest.2⟩
      rcases mem_insertSkip.1 ht with rfl | ht
      · omega
      · exact h_rest.1 t ht

/-! ### Handing a flush back -/

variable {flush : Flush}

/-- A flush that comes back to a stopped slot is refused, and only its buffer stays. -/
theorem handBack_stopped {reason : PoisonReason} (h_tag : flush.tag = s.tag)
    (h : s.phase = .poisoned reason) :
    s.handBack flush = (.error (poisonedStop reason), { s with buffer := flush.buffer }) := by
  rw [handBack, if_neg (by simp [h_tag])]
  simp only [h]

/-- A flush of the whole slot that comes back moves the slot on. -/
theorem handBack_full (h_tag : flush.tag = s.tag) (h_kind : flush.kind = .full)
    (h : s.phase = .flushing) {s' : Slot}
    (h_advance : ({ s with buffer := flush.buffer } : Slot).advance = (.ok (), s')) :
    s.handBack flush = (.ok (), s') := by
  rw [handBack, if_neg (by simp [h_tag])]
  simp only [h, h_kind] at h_advance ⊢
  rw [h_advance]
  rfl

/-- An early flush that comes back opens the slot again for the same generation. -/
theorem handBack_early (h_tag : flush.tag = s.tag) (h_kind : flush.kind = .early)
    (h : s.phase = .reserving) :
    s.handBack flush = (.ok (),
      { s with buffer := flush.buffer, durable := ⟨flush.length, s.claims⟩, phase := .filling }) := by
  rw [handBack, if_neg (by simp [h_tag])]
  simp only [h, h_kind]

/-! ### What the operations leave alone

Whether it faults or not, each operation changes only these fields. -/

/-- What copying can change. -/
theorem copyIn_frame (s : Slot) (offset : Nat) (data : Bytes) :
    ∃ dirty highWater buffer, (s.copyIn offset data).2 = { s with dirty, highWater, buffer } := by
  have h_copied := s.copied offset data
  generalize s.copyIn offset data = o at h_copied ⊢
  cases h_copied <;> exact ⟨_, _, _, rfl⟩

/-- What a poll can change. -/
theorem poll_frame (s : Slot) (ticket : Ticket) :
    ∃ phase buffer, (s.poll ticket).2 = { s with phase, buffer } := by
  unfold poll
  split
  · exact ⟨_, _, rfl⟩
  split
  · exact ⟨_, _, rfl⟩
  split
  · exact ⟨_, _, rfl⟩
  split <;> exact ⟨_, _, rfl⟩

/-- What a claim at a deadline can change. -/
theorem claimAtDeadline_frame (s : Slot) (ticket : Ticket) :
    ∃ phase claims buffer, (s.claimAtDeadline ticket).2 = { s with phase, claims, buffer } := by
  unfold claimAtDeadline
  split
  · split <;> exact ⟨_, _, _, rfl⟩
  · exact ⟨_, _, _, rfl⟩

/-- What passing skips can change. -/
theorem passSkips_frame (fuel : Nat) (s : Slot) :
    ∃ tag skipped, (passSkips fuel s).2 = { s with tag, skipped } := by
  induction fuel generalizing s with
  | zero => exact ⟨_, _, rfl⟩
  | succ fuel ih =>
    rw [passSkips]
    split
    · dsimp only
      split
      · -- a skip is passed, and the rest changes no more than that
        obtain ⟨tag, skipped, h_eq⟩ :=
          ih { s with skipped := s.skipped.erase s.tag, tag := s.tag + s.gap }
        exact ⟨tag, skipped, h_eq⟩
      · exact ⟨_, _, rfl⟩
    · exact ⟨_, _, rfl⟩

/-- What moving on can change. -/
theorem advance_frame (s : Slot) : ∃ tag dirty highWater phase skipped buffer,
    s.advance.2 = { s with tag, dirty, highWater, phase, skipped, buffer } := by
  unfold advance
  split
  · exact ⟨_, _, _, _, _, _, rfl⟩
  · dsimp only
    split
    · -- the buffer is cleared and the next generation opened before any skip is looked at
      obtain ⟨tag, skipped, h_eq⟩ := passSkips_frame s.skipped.length
        { s with
          buffer := s.buffer.clear s.highWater
          tag := s.tag + s.gap
          dirty := 0
          highWater := 0
          phase := .filling }
      exact ⟨tag, _, _, _, skipped, _, h_eq⟩
    · exact ⟨_, _, _, _, _, _, rfl⟩

/-- What handing a flush back can change. -/
theorem handBack_frame (s : Slot) (flush : Flush) :
    ∃ tag dirty highWater phase skipped durable buffer, (s.handBack flush).2 =
      { s with tag, dirty, highWater, phase, skipped, durable, buffer } := by
  unfold handBack
  split
  · exact ⟨_, _, _, _, _, _, _, rfl⟩
  · dsimp only
    split
    · exact ⟨_, _, _, _, _, _, _, rfl⟩
    · -- the flush of the whole slot, which moves it on
      obtain ⟨tag, dirty, highWater, phase, skipped, buffer, h_eq⟩ :=
        advance_frame { s with buffer := flush.buffer }
      exact ⟨tag, dirty, highWater, phase, skipped, _, buffer, h_eq⟩
    · exact ⟨_, _, _, _, _, _, _, rfl⟩
    · exact ⟨_, _, _, _, _, _, _, rfl⟩

/-- What a skip can change. -/
theorem skipOver_frame (s : Slot) (tag : Nat) : ∃ tag' dirty highWater phase skipped buffer,
    (s.skipOver tag).2 = { s with tag := tag', dirty, highWater, phase, skipped, buffer } := by
  unfold skipOver
  split
  · exact ⟨_, _, _, _, _, _, rfl⟩
  · split
    · split
      · exact advance_frame s
      · exact ⟨_, _, _, _, _, _, rfl⟩
    · split
      · exact ⟨_, _, _, _, _, _, rfl⟩
      · split <;> exact ⟨_, _, _, _, _, _, rfl⟩

end GroupCommit.Slot
