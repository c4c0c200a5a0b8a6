import GroupCommit.Proofs.Ring.Blocks
import GroupCommit.Proofs.Word
import GroupCommit.Ring.Span

/-!
# The pieces of a span

A range of addresses is cut at the boundaries of blocks: into a head that goes up to a boundary, a middle
of whole blocks and a tail that begins at a boundary. This module gives the cut in closed form, without a
fault in any computation, and says how its pieces fit together.

* `Geometry.span_eq`, `SpanOf`: the span of a range in closed form.
* `SpanOf.middle`, `Parts`: the middle of a range over several slots, and where the pieces begin and end.
* `Extent.mem_generations`, `Extent.pairwise_generations`: the blocks of a middle.
* `Geometry.span_partition`: the pieces are a partition of the range.
-/

namespace GroupCommit

namespace Geometry

/-- The span of a range that ends inside the address space. -/
theorem span_eq (g : Geometry) (hC : g.capacity ≤ Word.limit) {head total : Nat}
    (h_pos : 0 < total) (h_fit : head + total < Word.limit) :
    g.span head total = .ok {
      head, total
      headTag := g.capacity * (head / g.capacity)
      tailTag := g.capacity * ((head + total - 1) / g.capacity)
      headOffset := head % g.capacity
      tailLength := (head + total) % g.capacity
      capacity := g.capacity } := by
  have h_add : Word.add head total = .ok (head + total) := by
    rw [Word.add, if_pos h_fit]
  rw [span, if_neg (by omega), h_add]
  simp only [bind, Except.bind, pure, Except.pure, g.offset_eq]
  rw [g.base_eq (a := head) (by omega) hC, g.base_eq (a := head + total - 1) (by omega) hC]

/-- The end of a range lies in the block of its last byte, or is the end of that block. -/
theorem end_block (g : Geometry) (stop : Nat) (h : 0 < stop) :
    (0 < stop % g.capacity →
        g.capacity * (stop / g.capacity) = g.capacity * ((stop - 1) / g.capacity)) ∧
      (stop % g.capacity = 0 →
        stop = g.capacity * ((stop - 1) / g.capacity) + g.capacity) := by
  have h_last := Nat.div_add_mod (stop - 1) g.capacity
  have h_last_lt := Nat.mod_lt (stop - 1) g.capacity_pos
  have h_stop := Nat.div_add_mod stop g.capacity
  have h_stop_lt := Nat.mod_lt stop g.capacity_pos
  have h_dvd := Nat.dvd_mul_right g.capacity (stop / g.capacity)
  have h_dvd' := Nat.dvd_mul_right g.capacity ((stop - 1) / g.capacity)
  constructor
  · intro h_tail
    -- if the two blocks differed, the last byte would lie a capacity from the end
    rcases Nat.lt_trichotomy (g.capacity * (stop / g.capacity))
      (g.capacity * ((stop - 1) / g.capacity)) with hlt | heq | hgt
    · have := Geometry.tag_separate h_dvd h_dvd' hlt
      omega
    · exact heq
    · have := Geometry.tag_separate h_dvd' h_dvd hgt
      omega
  · intro h_tail
    have hlt : g.capacity * ((stop - 1) / g.capacity) < g.capacity * (stop / g.capacity) := by omega
    have := Geometry.tag_separate h_dvd' h_dvd hlt
    omega

end Geometry

/-! ### The span of a range -/

section Spans

variable {g : Geometry} {head total : Nat} {s : Span}

/-- What is known of the span of a range. -/
structure SpanOf (g : Geometry) (head total : Nat) (s : Span) : Prop where
  head_eq : s.head = head
  total_eq : s.total = total
  headTag_eq : s.headTag = g.capacity * (head / g.capacity)
  tailTag_eq : s.tailTag = g.capacity * ((head + total - 1) / g.capacity)
  headOffset_eq : s.headOffset = head % g.capacity
  tailLength_eq : s.tailLength = (head + total) % g.capacity
  capacity_eq : s.capacity = g.capacity
  nonempty : 0 < total
  fits : head + total < Word.limit

/-- A range that fits the address space has a span. -/
theorem Geometry.exists_spanOf (hC : g.capacity ≤ Word.limit) (h_pos : 0 < total)
    (h_fit : head + total < Word.limit) : ∃ s, g.span head total = .ok s ∧ SpanOf g head total s :=
  ⟨_, g.span_eq hC h_pos h_fit, rfl, rfl, rfl, rfl, rfl, rfl, rfl, h_pos, h_fit⟩

namespace SpanOf

/-- Whether the range lies in one slot. -/
theorem isSingleSlot_iff (h : SpanOf g head total s) : s.isSingleSlot = true ↔
    head / g.capacity = (head + total - 1) / g.capacity := by
  rw [Span.isSingleSlot, beq_iff_eq, h.headTag_eq, h.tailTag_eq]
  exact ⟨fun h_eq => Nat.eq_of_mul_eq_mul_left g.capacity_pos h_eq, fun h_eq => by rw [h_eq]⟩

/-- A span starts at its head. -/
theorem headTag_add_headOffset (h : SpanOf g head total s) : s.headTag + s.headOffset = head := by
  rw [h.headTag_eq, h.headOffset_eq, Nat.div_add_mod]

/-- A span of a single slot stays in the block of its head. -/
theorem within_block (h : SpanOf g head total s) (h_single : s.isSingleSlot = true) :
    head % g.capacity + total ≤ g.capacity := by
  have h_pos := h.nonempty
  -- first and last byte lie in the block of this tag
  have h_tags : s.headTag = s.tailTag := by simpa [Span.isSingleSlot] using h_single
  rw [h.headTag_eq, h.tailTag_eq] at h_tags
  have h₁ := Nat.div_add_mod head g.capacity
  have h₂ := Nat.div_add_mod (head + total - 1) g.capacity
  have h₃ := Nat.mod_lt (head + total - 1) g.capacity_pos
  omega

end SpanOf

/-- The parts of a range over several blocks, in terms of its first and last whole block. -/
structure Parts (g : Geometry) (head total : Nat) (s : Span) (m : Extent) : Prop where
  start_dvd : g.capacity ∣ m.start
  stop_dvd : g.capacity ∣ m.stop
  le : m.start ≤ m.stop
  head_add : head + s.headLength = m.start
  stop_add : m.stop + s.tailLength = head + total
  tail_tag : 0 < s.tailLength → s.tailTag = m.stop
  within : s.headOffset + s.headLength ≤ g.capacity
  tail_lt : s.tailLength < g.capacity
  start_eq : s.headTag + s.headOffset = head

namespace SpanOf

/-- The first whole block, and that the head goes up to it. -/
theorem middle_start (h : SpanOf g head total s) (h_spanning : s.isSingleSlot = false) :
    ∃ start, (if 0 < s.headOffset then Word.add s.headTag s.capacity else pure s.headTag) = .ok start ∧
      g.capacity ∣ start ∧ head + s.headLength = start ∧
      start ≤ g.capacity * ((head + total - 1) / g.capacity) := by
  have h_pos := h.nonempty
  have h_fits := h.fits
  have h_ne : s.headTag ≠ s.tailTag := by simpa [Span.isSingleSlot] using h_spanning
  rw [h.headTag_eq, h.tailTag_eq] at h_ne
  have h_head := Nat.div_add_mod head g.capacity
  have h_off := Nat.mod_lt head g.capacity_pos
  have h_last := Nat.div_add_mod (head + total - 1) g.capacity
  -- the last byte lies at least one block further than the first
  have h_far : g.capacity * (head / g.capacity) + g.capacity
      ≤ g.capacity * ((head + total - 1) / g.capacity) := by
    refine Geometry.tag_separate (Nat.dvd_mul_right _ _) (Nat.dvd_mul_right _ _) ?_
    have h_le : head / g.capacity ≤ (head + total - 1) / g.capacity :=
      Nat.div_le_div_right (by omega)
    exact lt_of_le_of_ne (Nat.mul_le_mul_left _ h_le) h_ne
  rw [Span.headLength, h.headOffset_eq, h.headTag_eq, h.capacity_eq]
  split
  · -- a head that begins inside its block leaves the rest of that block to the slot
    refine ⟨_, by rw [Word.add, if_pos (by omega)], ?_, by omega, h_far⟩
    exact (Nat.dvd_add_right (Nat.dvd_mul_right _ _)).2 (dvd_refl _)
  · exact ⟨_, rfl, Nat.dvd_mul_right _ _, by omega, by omega⟩

/-- The end of the last whole block, and that the tail begins there. -/
theorem middle_stop (h : SpanOf g head total s) :
    ∃ stop, (if 0 < s.tailLength then pure s.tailTag else s.stop) = .ok stop ∧
      g.capacity ∣ stop ∧ stop + s.tailLength = head + total ∧
      (0 < s.tailLength → s.tailTag = stop) ∧
      g.capacity * ((head + total - 1) / g.capacity) ≤ stop := by
  have h_pos := h.nonempty
  have h_stop := Nat.div_add_mod (head + total) g.capacity
  obtain ⟨h_in, h_out⟩ := g.end_block (head + total) (by omega)
  rw [h.tailLength_eq, h.tailTag_eq]
  split
  · next h_tail =>
    -- the last block is not full: the tail is what lies in it
    have := h_in h_tail
    exact ⟨_, rfl, Nat.dvd_mul_right _ _, by omega, fun _ => rfl, le_rfl⟩
  · next h_tail =>
    -- the record ends with a block, and there is no tail
    have := h_out (by omega)
    refine ⟨head + total, ?_, Nat.dvd_of_mod_eq_zero (by omega), by omega,
      fun h' => absurd h' h_tail, by omega⟩
    rw [Span.stop, h.head_eq, h.total_eq, Word.add, if_pos h.fits]

/-- The middle is computed if neither end overflows and the ends are in order. -/
theorem middle_eq_ok {start stop : Nat}
    (h_start : (if 0 < s.headOffset then Word.add s.headTag s.capacity else pure s.headTag)
      = .ok start)
    (h_stop : (if 0 < s.tailLength then pure s.tailTag else s.stop) = .ok stop)
    (h_le : start ≤ stop) : s.middle = .ok ⟨start, stop⟩ := by
  rw [Span.middle]
  split at h_start <;> split at h_stop <;>
    simp_all [bind, Except.bind, pure, Except.pure]

/-- A spanning range has a middle, which parts it. -/
theorem middle (h : SpanOf g head total s) (h_spanning : s.isSingleSlot = false) :
    ∃ m, s.middle = .ok m ∧ Parts g head total s m := by
  obtain ⟨start, h_start, h_start_dvd, h_start_eq, h_start_le⟩ := h.middle_start h_spanning
  obtain ⟨stop, h_stop, h_stop_dvd, h_stop_eq, h_tag, h_stop_le⟩ := h.middle_stop
  have h_le : start ≤ stop := h_start_le.trans h_stop_le
  refine ⟨⟨start, stop⟩, middle_eq_ok h_start h_stop h_le, h_start_dvd, h_stop_dvd, h_le,
    h_start_eq, h_stop_eq, h_tag, ?_, ?_, h.headTag_add_headOffset⟩
  · have := Nat.mod_lt head g.capacity_pos
    rw [Span.headLength, h.headOffset_eq, h.capacity_eq]
    split <;> omega
  · rw [h.tailLength_eq]
    exact Nat.mod_lt _ g.capacity_pos

end SpanOf

/-- A head is less than a block. -/
theorem SpanOf.headLength_lt (h : SpanOf g head total s) : s.headLength < g.capacity := by
  have h_pos := g.capacity_pos
  rw [Span.headLength, h.capacity_eq]
  split <;> omega

end Spans

/-! ### The blocks of a middle -/

namespace Extent

variable {m : Extent} {capacity b : Nat}

/-- A whole number of blocks is as long as the blocks in it. -/
theorem start_add_generationCount (h_pos : 0 < capacity) (h_le : m.start ≤ m.stop)
    (h_dvd : capacity ∣ m.stop - m.start) : m.start + m.generationCount capacity * capacity = m.stop := by
  obtain ⟨n, hn⟩ := h_dvd
  -- rounding up is of no consequence
  have h_count : m.generationCount capacity = n := by
    rw [generationCount, Word.chunksCovering, hn, Nat.add_sub_assoc h_pos, Nat.mul_add_div h_pos,
      Nat.div_eq_of_lt (by omega), Nat.add_zero]
  rw [h_count, Nat.mul_comm, ← hn]
  omega

/-- Generations are listed in order. -/
theorem pairwise_generations (m : Extent) (h_pos : 0 < capacity) :
    (m.generations capacity).Pairwise (· < ·) := by
  rw [generations, List.pairwise_map]
  refine List.pairwise_lt_range.imp fun {i j} h => ?_
  exact Nat.add_lt_add_left (Nat.mul_lt_mul_of_pos_right h h_pos) _

/-- **The generations of a middle** are the blocks that lie in it. -/
theorem mem_generations (h_pos : 0 < capacity) (h_le : m.start ≤ m.stop) (h_start : capacity ∣ m.start)
    (h_stop : capacity ∣ m.stop) :
    b ∈ m.generations capacity ↔ capacity ∣ b ∧ m.start ≤ b ∧ b + capacity ≤ m.stop := by
  have h_end := start_add_generationCount h_pos h_le (Nat.dvd_sub h_stop h_start)
  simp only [generations, List.mem_map, List.mem_range, generation]
  constructor
  · -- a generation of the list ends by the end of the extent
    rintro ⟨k, h_k, rfl⟩
    have h_mul : (k + 1) * capacity ≤ m.generationCount capacity * capacity :=
      Nat.mul_le_mul_right _ h_k
    rw [Nat.succ_mul] at h_mul
    exact ⟨(Nat.dvd_add_right h_start).2 (Nat.dvd_mul_left _ _), Nat.le_add_right _ _, by omega⟩
  · rintro ⟨h_dvd, h_from, h_to⟩
    -- a block within the extent is some number of blocks from its start
    obtain ⟨k, hk⟩ := Nat.dvd_sub h_dvd h_start
    rw [Nat.mul_comm] at hk
    refine ⟨k, Nat.lt_of_mul_lt_mul_right (a := capacity) ?_, by omega⟩
    omega

end Extent

/-! ### The pieces of a range -/

namespace Span

/-- The addresses of the head of a range over several slots. -/
def headPart (s : Span) : Finset Nat := Finset.Ico s.head (s.head + s.headLength)

/-- The addresses of its tail. -/
def tailPart (s : Span) : Finset Nat := Finset.Ico s.tailTag (s.tailTag + s.tailLength)

/-- Head, middle and tail are a partition of a range. -/
structure Partition (g : Geometry) (head total : Nat) (s : Span) (m : Extent) : Prop where
  /-- They are as long as the range. -/
  lengths : s.headLength + (m.stop - m.start) + s.tailLength = total
  /-- They follow one another, the tail if there is one. -/
  middle_start : head + s.headLength = m.start
  middle_le : m.start ≤ m.stop
  tail_start : 0 < s.tailLength → s.tailTag = m.stop
  tail_stop : m.stop + s.tailLength = head + total
  /-- Every address is in one of them, and in no other. -/
  covers : s.headPart ∪ Finset.Ico m.start m.stop ∪ s.tailPart = Finset.Ico head (head + total)
  disjoint : Disjoint s.headPart (Finset.Ico m.start m.stop)
  disjoint_tail : Disjoint (s.headPart ∪ Finset.Ico m.start m.stop) s.tailPart
  /-- The middle consists of blocks. -/
  aligned : g.capacity ∣ m.start ∧ g.capacity ∣ m.stop
  /-- Its generations are the blocks inside the range, each of them once and in order. -/
  increasing : (m.generations s.capacity).Pairwise (· < ·)
  whole : ∀ b, b ∈ m.generations s.capacity ↔
    g.base b = b ∧ Finset.Ico b (b + g.capacity) ⊆ Finset.Ico head (head + total)

end Span

section Partition

variable {g : Geometry} {head total : Nat} {s : Span} {m : Extent}

/-- A block that lies in a range lies in its middle, as head and tail are less than a block. -/
theorem Parts.mem_generations_iff (hp : Parts g head total s m) (h : SpanOf g head total s) {b : Nat} :
    b ∈ m.generations s.capacity ↔ g.capacity ∣ b ∧ head ≤ b ∧ b + g.capacity ≤ head + total := by
  have h_head := h.headLength_lt
  obtain ⟨h_start_dvd, h_stop_dvd, h_le, h_start, h_stop, -, -, h_tail, -⟩ := hp
  rw [h.capacity_eq, Extent.mem_generations g.capacity_pos h_le h_start_dvd h_stop_dvd]
  constructor
  · rintro ⟨h_dvd, h_from, h_to⟩
    exact ⟨h_dvd, by omega, by omega⟩
  · rintro ⟨h_dvd, h_from, h_to⟩
    refine ⟨h_dvd, not_lt.1 fun h_lt => ?_, not_lt.1 fun h_lt => ?_⟩
    · have := Geometry.tag_separate h_dvd h_start_dvd h_lt
      omega
    · have := Geometry.tag_separate h_stop_dvd ((Nat.dvd_add_right h_dvd).2 (dvd_refl _)) h_lt
      omega

/-- A tag is an address that is its own base. -/
theorem Geometry.base_eq_self_iff (hC : g.capacity ≤ Word.limit) {b : Nat} (h : b < Word.limit) :
    g.base b = b ↔ g.capacity ∣ b := by
  rw [g.base_eq h hC]
  exact ⟨fun h_eq => h_eq ▸ Nat.dvd_mul_right _ _, Nat.mul_div_cancel'⟩

/-- Parts that fit together are a partition. -/
theorem Parts.partition (hp : Parts g head total s m) (h : SpanOf g head total s)
    (hC : g.capacity ≤ Word.limit) : s.Partition g head total m := by
  have h_blocks := fun b => hp.mem_generations_iff h (b := b)
  have h_fits := h.fits
  have h_pos := g.capacity_pos
  have h_head := h.head_eq
  obtain ⟨h_start_dvd, h_stop_dvd, h_le, h_start, h_stop, h_tag, -, -, -⟩ := hp
  constructor
  case lengths => omega
  case middle_start => exact h_start
  case middle_le => exact h_le
  case tail_start => exact h_tag
  case tail_stop => exact h_stop
  case covers =>
    ext a
    simp only [Span.headPart, Span.tailPart, Finset.mem_union, Finset.mem_Ico, h_head]
    -- without a tail its place is of no account
    rcases Nat.eq_zero_or_pos s.tailLength with h_none | h_some
    · omega
    · have := h_tag h_some
      omega
  case disjoint =>
    rw [Span.headPart, h_head, h_start]
    exact Finset.Ico_disjoint_Ico_consecutive _ _ _
  case disjoint_tail =>
    refine Finset.disjoint_left.2 fun a h_before h_behind => ?_
    simp only [Span.headPart, Span.tailPart, Finset.mem_union, Finset.mem_Ico, h_head]
      at h_before h_behind
    have := h_tag (by omega)
    omega
  case aligned => exact ⟨h_start_dvd, h_stop_dvd⟩
  case increasing =>
    rw [h.capacity_eq]
    exact m.pairwise_generations h_pos
  case whole =>
    intro b
    rw [h_blocks b, Finset.Ico_subset_Ico_iff (Nat.lt_add_of_pos_right h_pos)]
    constructor
    · rintro ⟨h_dvd, h_from, h_to⟩
      exact ⟨(Geometry.base_eq_self_iff hC (by omega)).2 h_dvd, h_from, h_to⟩
    · rintro ⟨h_base, h_from, h_to⟩
      exact ⟨(Geometry.base_eq_self_iff hC (by omega)).1 h_base, h_from, h_to⟩

/-- **A range over several slots is a partition of its pieces.** No computation of a span faults. -/
theorem Geometry.span_partition (g : Geometry) (h_ring : g.capacity * g.ringSize < Word.limit)
    (head total : Nat) (h_pos : 0 < total) (h_fit : head + total < Word.limit) :
    ∃ s, g.span head total = .ok s ∧ s.stop = .ok (head + total) ∧
      (s.isSingleSlot = true → s.headOffset + total ≤ g.capacity) ∧
      (s.isSingleSlot = false → s.headOffset ≤ s.capacity ∧
        ∃ m, s.middle = .ok m ∧ s.Partition g head total m) := by
  have hC : g.capacity ≤ Word.limit :=
    (Nat.le_mul_of_pos_right _ g.ringSize_pos).trans h_ring.le
  -- the range fits the address space, so nothing on the way can overflow
  obtain ⟨s, h_span, h⟩ := Geometry.exists_spanOf hC h_pos h_fit
  have h_stop : s.stop = .ok (head + total) := by
    rw [Span.stop, h.head_eq, h.total_eq, Word.add, if_pos h_fit]
  refine ⟨s, h_span, h_stop, fun h_single => ?_, fun h_spanning => ⟨?_, ?_⟩⟩
  · rw [h.headOffset_eq]
    exact h.within_block h_single
  · rw [h.headOffset_eq, h.capacity_eq]
    exact (Nat.mod_lt _ g.capacity_pos).le
  · obtain ⟨m, h_middle, hp⟩ := h.middle h_spanning
    exact ⟨m, h_middle, hp.partition h hC⟩

/-- Thirteen bytes from 6 on, in slots of four: two in the first slot, two slots past the ring, and
three in the last slot. -/
theorem Geometry.span_partition_spanning :
    let g : Geometry := ⟨4, 2, ⟨2, rfl⟩, ⟨1, rfl⟩⟩
    g.capacity * g.ringSize < Word.limit ∧ 0 < 13 ∧ 6 + 13 < Word.limit ∧
      g.span 6 13 = .ok ⟨6, 13, 4, 16, 2, 3, 4⟩ ∧
      Span.Partition g 6 13 ⟨6, 13, 4, 16, 2, 3, 4⟩ ⟨8, 16⟩ := by
  intro g
  have h_eq : g.span 6 13 = .ok ⟨6, 13, 4, 16, 2, 3, 4⟩ := by decide
  obtain ⟨s, h_span, -, -, h_spanning⟩ :=
    Geometry.span_partition g (by decide) 6 13 (by decide) (by decide)
  cases h_eq.symm.trans h_span
  obtain ⟨-, m, h_middle, h_partition⟩ := h_spanning rfl
  cases h_middle
  exact ⟨by decide, by decide, by decide, h_span, h_partition⟩

end Partition

end GroupCommit
