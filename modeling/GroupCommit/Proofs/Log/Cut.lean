import GroupCommit.Log.Program
import GroupCommit.Proofs.Ring.Spans

/-!
# The cut of a record

A record with its place in the address space is cut into portions that go through slots and a middle
that does not. `Cut` states what the rest of the theory uses of that: every portion is a stretch of
one block and holds the bytes that the record has there, the middle consists of whole blocks, and the
pieces follow one another from the head of the record to its end.

* `Cut.covers`, `Cut.region_unique`, `Cut.notMem_middle`: each address of a record is in one portion or
  in the middle.
* `exists_cut`: a record that fits into the address space has a cut, without a fault.
-/

namespace GroupCommit

/-- A slice within the bytes is what lies between its ends. -/
theorem Bytes.slice_eq {image : Bytes} {start stop : Nat} (h : start ≤ stop)
    (h' : stop ≤ image.length) :
    image.slice start stop = .ok ((image.drop start).take (stop - start)) := by
  rw [slice, checkRange, if_neg (by omega), if_neg (by omega), if_neg (by omega)]
  rfl

namespace Log

/-! ### Regions -/

/-- The addresses of a portion begin here. -/
def regionStart (e : Entry) (p : Portion) : Nat := portionTag e p + portionOffset e p

/-- The address behind a portion. -/
def regionStop (e : Entry) (p : Portion) : Nat := regionStart e p + (portionBytes e p).length

/-- The address `a` belongs to a portion. -/
def InRegion (e : Entry) (p : Portion) (a : Nat) : Prop := regionStart e p ≤ a ∧ a < regionStop e p

/-- Whether a record has this portion at all. -/
def Has (e : Entry) : Portion → Prop
  | .whole => e.span.isSingleSlot = true
  | .head => e.span.isSingleSlot = false ∧ 0 < e.span.headLength
  | .tail => e.span.isSingleSlot = false ∧ 0 < e.span.tailLength

/-- The address behind the whole record. -/
def entryStop (e : Entry) : Nat := e.span.head + e.span.total

/-- A portion is a stretch of one block, inside the record and with the bytes of the record. -/
structure PortionCut (g : Geometry) (e : Entry) (record : Bytes) (p : Portion) : Prop where
  tag_dvd : g.capacity ∣ portionTag e p
  nonempty : 0 < (portionBytes e p).length
  within : portionOffset e p + (portionBytes e p).length ≤ g.capacity
  head_le : e.span.head ≤ regionStart e p
  le_stop : regionStop e p ≤ entryStop e
  bytes : ∀ a, InRegion e p a →
    Bytes.read (portionBytes e p) (a - regionStart e p) = record.read (a - e.span.head)

/-- How a record is cut. -/
structure Cut (g : Geometry) (e : Entry) (record : Bytes) : Prop where
  capacity : e.span.capacity = g.capacity
  total : e.span.total = record.length
  total_pos : 0 < e.span.total
  portion : ∀ p, Has e p → PortionCut g e record p
  /-- The first portion begins with the record. -/
  first : regionStart e .head = e.span.head
  /-- A record in one slot is a single portion. -/
  single : e.span.isSingleSlot = true →
    regionStop e .head = entryStop e ∧ e.middle = ⟨e.span.head, e.span.head⟩
  /-- Otherwise the head goes up to the middle. -/
  head_stop : e.span.isSingleSlot = false → regionStop e .head = e.middle.start
  head_length : e.span.isSingleSlot = false → e.head.length = e.span.headLength
  middle_le : e.middle.start ≤ e.middle.stop
  start_dvd : e.span.isSingleSlot = false → g.capacity ∣ e.middle.start
  stop_dvd : e.span.isSingleSlot = false → g.capacity ∣ e.middle.stop
  /-- The tail begins behind the middle. -/
  tail_start : Has e .tail → regionStart e .tail = e.middle.stop ∧ regionStop e .tail = entryStop e
  /-- Without a tail, the record ends with the middle. -/
  no_tail : e.span.isSingleSlot = false → e.span.tailLength = 0 → e.middle.stop = entryStop e
  direct_length : e.direct.length = e.middle.stop - e.middle.start
  direct : ∀ a, e.middle.start ≤ a → a < e.middle.stop →
    Bytes.read e.direct (a - e.middle.start) = record.read (a - e.span.head)

theorem regionStart_whole (e : Entry) : regionStart e .whole = regionStart e .head := rfl

theorem regionStop_whole (e : Entry) : regionStop e .whole = regionStop e .head := rfl

/-- The first address of a portion. -/
theorem PortionCut.first_mem {g : Geometry} {e : Entry} {record : Bytes} {p : Portion}
    (h : PortionCut g e record p) : InRegion e p (regionStart e p) := by
  have := h.nonempty
  exact ⟨le_rfl, by rw [regionStop]; omega⟩

/-- The addresses of a portion lie in its block. -/
theorem PortionCut.inBlock {g : Geometry} {e : Entry} {record : Bytes} {p : Portion}
    (h : PortionCut g e record p) {a : Nat} (ha : InRegion e p a) : g.InBlock (portionTag e p) a := by
  have h_within := h.within
  obtain ⟨h₁, h₂⟩ := ha
  simp only [regionStop, regionStart] at h₁ h₂
  exact ⟨by omega, by omega⟩

namespace Cut

variable {g : Geometry} {e : Entry} {record : Bytes} {p q : Portion} {a : Nat}

/-- A record in one slot has no other portion. -/
theorem not_has_of_single (h_single : e.span.isSingleSlot = true) (hp : Has e p) : p = .whole := by
  cases p with
  | whole => rfl
  | head => simp [Has, h_single] at hp
  | tail => simp [Has, h_single] at hp

/-- No portion reaches into the middle. -/
theorem notMem_middle (h : Cut g e record) (hp : Has e p) (ha : InRegion e p a) :
    a < e.middle.start ∨ e.middle.stop ≤ a := by
  have h_middle := h.middle_le
  -- a record in one slot has its empty middle at its head
  cases p with
  | whole =>
    obtain ⟨-, h_empty⟩ := h.single hp
    rw [h_empty]
    exact .inr ((h.portion _ hp).head_le.trans ha.1)
  | head => exact .inl (h.head_stop hp.1 ▸ ha.2)
  | tail => exact .inr ((h.tail_start hp).1 ▸ ha.1)

/-- The portions of a record do not meet. -/
theorem region_unique (h : Cut g e record) (hp : Has e p) (hq : Has e q) (ha : InRegion e p a)
    (ha' : InRegion e q a) : p = q := by
  cases h_single : e.span.isSingleSlot with
  | true => exact (not_has_of_single h_single hp).trans (not_has_of_single h_single hq).symm
  | false =>
    have h_middle := h.middle_le
    -- below the middle there is only the head, behind it only the tail
    have h_head : ∀ {r}, Has e r → InRegion e r a → a < e.middle.start → r = .head := by
      intro r hr hra h_lt
      cases r with
      | whole => simp [Has, h_single] at hr
      | head => rfl
      | tail =>
        have := (h.tail_start hr).1 ▸ hra.1
        omega
    have h_tail : ∀ {r}, Has e r → InRegion e r a → e.middle.stop ≤ a → r = .tail := by
      intro r hr hra h_le
      cases r with
      | whole => simp [Has, h_single] at hr
      | head =>
        have := h.head_stop h_single ▸ hra.2
        omega
      | tail => rfl
    rcases h.notMem_middle hp ha with h_lt | h_le
    · rw [h_head hp ha h_lt, h_head hq ha' h_lt]
    · rw [h_tail hp ha h_le, h_tail hq ha' h_le]

/-- Together with the middle they are all of the record. -/
theorem covers (h : Cut g e record) (h_le : e.span.head ≤ a) (h_lt : a < entryStop e) :
    (∃ p, Has e p ∧ InRegion e p a) ∨ (e.middle.start ≤ a ∧ a < e.middle.stop) := by
  cases h_single : e.span.isSingleSlot with
  | true =>
    refine .inl ⟨.whole, h_single, ?_, ?_⟩
    · rw [regionStart_whole, h.first]
      exact h_le
    · rw [regionStop_whole, (h.single h_single).1]
      exact h_lt
  | false =>
    -- from left to right: the head, the middle, the tail
    by_cases h_head : a < e.middle.start
    · refine .inl ⟨.head, ⟨h_single, ?_⟩, h.first ▸ h_le, h.head_stop h_single ▸ h_head⟩
      have h_stop := h.head_stop h_single
      rw [regionStop, h.first, portionBytes, h.head_length h_single] at h_stop
      omega
    · by_cases h_tail : a < e.middle.stop
      · exact .inr ⟨by omega, h_tail⟩
      · have h_has : Has e .tail := by
          refine ⟨h_single, Nat.pos_of_ne_zero fun h_none => ?_⟩
          have := h.no_tail h_single h_none
          omega
        obtain ⟨h_start, h_stop⟩ := h.tail_start h_has
        exact .inl ⟨.tail, h_has, by omega, by omega⟩

theorem middle_within (h : Cut g e record) :
    e.span.head ≤ e.middle.start ∧ e.middle.stop ≤ entryStop e := by
  cases h_single : e.span.isSingleSlot with
  | true =>
    rw [(h.single h_single).2]
    exact ⟨le_rfl, Nat.le_add_right _ _⟩
  | false =>
    have h_stop := h.head_stop h_single
    rw [regionStop, h.first] at h_stop
    refine ⟨by omega, ?_⟩
    by_cases h_none : e.span.tailLength = 0
    · -- without a tail the middle ends where the record does
      exact (h.no_tail h_single h_none).le
    · obtain ⟨h_start, h_end⟩ := h.tail_start ⟨h_single, Nat.pos_of_ne_zero h_none⟩
      rw [regionStop, h_start] at h_end
      omega

/-- The middle ends with the last of its generations. -/
theorem stop_eq (h : Cut g e record) :
    e.middle.start + e.middle.generationCount e.span.capacity * g.capacity = e.middle.stop := by
  have h_pos := g.capacity_pos
  rw [h.capacity]
  refine Extent.start_add_generationCount h_pos h.middle_le ?_
  cases h_single : e.span.isSingleSlot with
  | true =>
    rw [(h.single h_single).2, Nat.sub_self]
    exact Nat.dvd_zero _
  | false => exact Nat.dvd_sub (h.stop_dvd h_single) (h.start_dvd h_single)

/-- The generations of the middle are whole blocks, one behind the other. -/
theorem generation_block (h : Cut g e record) {n : Nat}
    (hn : n < e.middle.generationCount e.span.capacity) :
    g.capacity ∣ e.middle.generation e.span.capacity n ∧
      e.middle.generation e.span.capacity n = e.middle.start + n * g.capacity ∧
      e.middle.start + n * g.capacity + g.capacity ≤ e.middle.stop := by
  have h_stop := h.stop_eq
  have h_le : (n + 1) * g.capacity ≤ e.middle.generationCount e.span.capacity * g.capacity :=
    Nat.mul_le_mul_right _ hn
  rw [Nat.succ_mul] at h_le
  have h_eq : e.middle.generation e.span.capacity n = e.middle.start + n * g.capacity := by
    rw [Extent.generation, h.capacity]
  refine ⟨?_, h_eq, by omega⟩
  cases h_single : e.span.isSingleSlot with
  | true =>
    -- an empty middle has no generations
    have h_empty := (h.single h_single).2
    have h_pos := g.capacity_pos
    rw [h_empty] at h_stop h_le
    simp only at h_stop
    omega
  | false =>
    rw [h_eq]
    exact (Nat.dvd_add_right (h.start_dvd h_single)).2 (Nat.dvd_mul_left _ _)

end Cut

/-! ### Every record has a cut -/

section Existence

variable {g : Geometry} {head : Nat} {record : Bytes} {s : Span}

theorem exists_cut_single (h : SpanOf g head record.length s) (h_single : s.isSingleSlot = true)
    (hint : Int32) : ∃ e, Entry.ofRecord s record hint = .ok e ∧ e.span = s ∧ Cut g e record := by
  have h_within := h.within_block h_single
  -- the portion is the whole record, from the tag of its block and its place in there
  have h_start : s.headTag + s.headOffset = s.head := by
    rw [h.headTag_add_headOffset, h.head_eq]
  refine ⟨_, by rw [Entry.ofRecord, if_pos h_single], rfl, ?_⟩
  constructor
  case capacity => exact h.capacity_eq
  case total => exact h.total_eq
  case total_pos => exact h.total_eq ▸ h.nonempty
  case first => exact h_start
  case middle_le => exact le_rfl
  case direct_length => simp
  -- there is no middle
  case direct => intro a h₁ h₂; exact absurd h₂ (not_lt.2 h₁)
  case single =>
    intro _
    refine ⟨?_, rfl⟩
    simp only [regionStop, regionStart, portionTag, portionOffset, portionBytes, entryStop, h_start,
      h.total_eq]
  case portion =>
    intro p hp
    cases p with
    | whole =>
      constructor
      case tag_dvd =>
        rw [portionTag, h.headTag_eq]
        exact Nat.dvd_mul_right _ _
      case nonempty => exact h.nonempty
      case within => rw [portionOffset, portionBytes, h.headOffset_eq]; exact h_within
      case head_le => exact h_start.ge
      case le_stop =>
        simp only [regionStop, regionStart, portionTag, portionOffset, portionBytes, entryStop,
          h_start, h.total_eq, le_refl]
      case bytes =>
        intro a _
        simp only [regionStart, portionTag, portionOffset, portionBytes, h_start]
    | head => exact absurd hp.1 (by simp [h_single])
    | tail => exact absurd hp.1 (by simp [h_single])
  all_goals intro hp; simp [Has, h_single] at hp

/-- The pieces of a record over several blocks. -/
def spanningEntry (s : Span) (record : Bytes) (hint : Int32) (m : Extent) : Entry where
  span := s
  hint
  head := (record.drop 0).take (s.headLength - 0)
  middle := m
  direct := (record.drop (m.start - s.head)).take (m.stop - s.head - (m.start - s.head))
  tail := (record.drop (record.length - s.tailLength)).take
    (record.length - (record.length - s.tailLength))

section Spanning

variable {m : Extent} {hint : Int32}

/-- What a record is cut into that spans slots. -/
theorem ofRecord_spanning (h : SpanOf g head record.length s) (h_spanning : s.isSingleSlot = false)
    (h_middle : s.middle = .ok m) (hp : Parts g head record.length s m) :
    Entry.ofRecord s record hint = .ok (spanningEntry s record hint m) := by
  obtain ⟨-, -, h_le, h_start, h_stop, -, -, -, -⟩ := hp
  have h_head := h.head_eq
  have h_tail : Word.sub s.total s.tailLength = .ok (record.length - s.tailLength) := by
    rw [Word.sub, h.total_eq, if_pos (by omega)]
  have h_from : Word.sub m.start s.head = .ok (m.start - s.head) := by
    rw [Word.sub, if_pos (by omega)]
  have h_to : Word.sub m.stop s.head = .ok (m.stop - s.head) := by
    rw [Word.sub, if_pos (by omega)]
  rw [Entry.ofRecord, if_neg (by simp [h_spanning]), h_tail, h_middle]
  simp only [bind, Except.bind, pure, Except.pure]
  rw [Bytes.slice_eq (by omega) le_rfl, Bytes.slice_eq (by omega) (by omega)]
  simp only
  -- an empty middle is not cut out at all, and is the empty slice all the same
  by_cases h_empty : m.stop ≤ m.start
  · rw [if_pos (by simp [Extent.isEmpty, h_empty])]
    simp only [spanningEntry, show m.stop - s.head - (m.start - s.head) = 0 by omega, List.take_zero]
  · rw [if_neg (by simp [Extent.isEmpty, h_empty]), h_from, h_to]
    simp only
    rw [Bytes.slice_eq (by omega) (by omega)]
    rfl

theorem length_spanningEntry_head (hint : Int32) (hp : Parts g head record.length s m) :
    (spanningEntry s record hint m).head.length = s.headLength := by
  obtain ⟨-, -, h_le, h_start, h_stop, -, -, -, -⟩ := hp
  rw [spanningEntry, List.length_take, List.length_drop]
  omega

theorem length_spanningEntry_tail (hint : Int32) (hp : Parts g head record.length s m) :
    (spanningEntry s record hint m).tail.length = s.tailLength := by
  obtain ⟨-, -, h_le, h_start, h_stop, -, -, -, -⟩ := hp
  rw [spanningEntry, List.length_take, List.length_drop]
  omega

/-- The head is cut out of the record where it begins. -/
theorem portionCut_head (h : SpanOf g head record.length s) (hp : Parts g head record.length s m)
    (h_nonempty : 0 < s.headLength) : PortionCut g (spanningEntry s record hint m) record .head := by
  have h_length := length_spanningEntry_head hint hp
  obtain ⟨-, -, h_le, h_start, h_stop, -, h_within, -, h_tags⟩ := hp
  -- the head begins with the record and goes up to the first whole block
  constructor
  case tag_dvd =>
    show g.capacity ∣ s.headTag
    rw [h.headTag_eq]
    exact Nat.dvd_mul_right _ _
  case nonempty => simpa only [portionBytes, h_length] using h_nonempty
  case within =>
    rw [portionBytes, h_length]
    exact h_within
  case head_le => exact (h_tags.trans h.head_eq.symm).ge
  case le_stop =>
    simp only [regionStop, regionStart, portionTag, portionOffset, portionBytes, h_length, entryStop]
    simp only [spanningEntry, h.head_eq, h.total_eq]
    omega
  case bytes =>
    rintro a ⟨h₁, h₂⟩
    simp only [regionStop, regionStart, portionTag, portionOffset, portionBytes, h_length] at h₁ h₂
    simp only [regionStart, portionTag, portionOffset, portionBytes]
    simp only [spanningEntry, h.head_eq, h_tags] at h₁ h₂ ⊢
    rw [Bytes.read_slice _ _ (by omega), Nat.zero_add]

/-- The tail is cut out of the record where it ends. -/
theorem portionCut_tail (h : SpanOf g head record.length s) (hp : Parts g head record.length s m)
    (h_nonempty : 0 < s.tailLength) : PortionCut g (spanningEntry s record hint m) record .tail := by
  have h_length := length_spanningEntry_tail hint hp
  obtain ⟨-, h_stop_dvd, h_le, h_start, h_stop, h_tag, -, h_tail_lt, -⟩ := hp
  -- the tail begins behind the last whole block, which is the start of its own block
  have h_tail_tag := h_tag h_nonempty
  constructor
  case tag_dvd =>
    show g.capacity ∣ s.tailTag
    rw [h_tail_tag]
    exact h_stop_dvd
  case nonempty => simpa only [portionBytes, h_length] using h_nonempty
  case within =>
    simp only [portionOffset, portionBytes, h_length]
    omega
  case head_le =>
    simp only [regionStart, portionTag, portionOffset]
    simp only [spanningEntry, h.head_eq]
    omega
  case le_stop =>
    simp only [regionStop, regionStart, portionTag, portionOffset, portionBytes, h_length, entryStop]
    simp only [spanningEntry, h.head_eq, h.total_eq]
    omega
  case bytes =>
    rintro a ⟨h₁, h₂⟩
    simp only [regionStop, regionStart, portionTag, portionOffset, portionBytes, h_length] at h₁ h₂
    simp only [regionStart, portionTag, portionOffset, portionBytes]
    simp only [spanningEntry, h.head_eq] at h₁ h₂ ⊢
    rw [Bytes.read_slice _ _ (by omega)]
    congr 1
    omega

/-- The pieces of a record over several blocks fit together. -/
theorem cut_spanning (h : SpanOf g head record.length s) (h_spanning : s.isSingleSlot = false)
    (hp : Parts g head record.length s m) : Cut g (spanningEntry s record hint m) record := by
  have h_head_length := length_spanningEntry_head hint hp
  have h_tail_length := length_spanningEntry_tail hint hp
  -- no portion is the whole record, as it spans several blocks
  have h_portion : ∀ p, Has (spanningEntry s record hint m) p →
      PortionCut g (spanningEntry s record hint m) record p := by
    intro p h_has
    cases p with
    | whole => exact absurd h_has (by simp [Has, spanningEntry, h_spanning])
    | head => exact portionCut_head h hp h_has.2
    | tail => exact portionCut_tail h hp h_has.2
  obtain ⟨h_start_dvd, h_stop_dvd, h_le, h_start, h_stop, h_tag, -, h_tail_lt, h_tags⟩ := hp
  constructor
  case capacity => exact h.capacity_eq
  case total => exact h.total_eq
  case total_pos => exact h.total_eq ▸ h.nonempty
  case portion => exact h_portion
  case first => exact h_tags.trans h.head_eq.symm
  case single => exact fun h_single => absurd h_single (by simp [spanningEntry, h_spanning])
  case head_stop =>
    -- the head fills its block to the end, where the middle part begins
    intro _
    simp only [regionStop, regionStart, portionTag, portionOffset, portionBytes, h_head_length]
    simp only [spanningEntry]
    omega
  case head_length => intro _; exact h_head_length
  case middle_le => exact h_le
  case start_dvd => intro _; exact h_start_dvd
  case stop_dvd => intro _; exact h_stop_dvd
  case tail_start =>
    -- the tail begins where the middle part ends
    intro h_has
    have := h_tag h_has.2
    simp only [regionStop, regionStart, portionTag, portionOffset, portionBytes, h_tail_length,
      entryStop]
    simp only [spanningEntry, h.head_eq, h.total_eq]
    omega
  case no_tail =>
    -- without a tail the record ends with the middle part
    intro _ h_none
    have h_none : s.tailLength = 0 := h_none
    simp only [entryStop, spanningEntry, h.head_eq, h.total_eq]
    omega
  case direct_length =>
    have h_head := h.head_eq
    simp only [spanningEntry, List.length_take, List.length_drop]
    omega
  case direct =>
    intro a h₁ h₂
    have h_head := h.head_eq
    simp only [spanningEntry] at h₁ h₂ ⊢
    rw [Bytes.read_slice _ _ (by omega)]
    congr 1
    omega

end Spanning

/-- **Every record has a cut.** A record that ends inside the address space is cut without a fault. -/
theorem exists_cut (hC : g.capacity ≤ Word.limit) (h_pos : 0 < record.length)
    (h_fit : head + record.length < Word.limit) (hint : Int32) :
    ∃ e, (g.span head record.length).bind (Entry.ofRecord · record hint) = .ok e ∧
      e.span.head = head ∧ Cut g e record := by
  obtain ⟨s, h_span, h⟩ := Geometry.exists_spanOf hC h_pos h_fit
  rw [h_span]
  show ∃ e, Entry.ofRecord s record hint = .ok e ∧ e.span.head = head ∧ Cut g e record
  -- through one slot, or with head, middle and tail
  cases h_single : s.isSingleSlot with
  | true =>
    obtain ⟨e, h_eq, rfl, h_cut⟩ := exists_cut_single h h_single hint
    exact ⟨e, h_eq, h.head_eq, h_cut⟩
  | false =>
    obtain ⟨m, h_middle, hp⟩ := h.middle h_single
    exact ⟨_, ofRecord_spanning h h_single h_middle hp, h.head_eq, cut_spanning h h_single hp⟩

end Existence

end Log

end GroupCommit
