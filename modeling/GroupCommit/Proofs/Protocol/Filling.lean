import GroupCommit.Proofs.Protocol.Turn

/-!
# Filling

A call copies a portion of its record into the slot that has reached the portion's generation. Since
nobody else writes to the addresses of the record, the count of the copied bytes is the number of
addresses that are filled, so it tells when the slot is full and never exceeds it.

* `WorkInv.region`, `WorkInv.middleRegion`: what a call knows of its addresses.
* `SlotInv.fill`: the slot that bytes are copied into.
* `Picture.filledBy`, `Inv.fill`: the step.
-/

namespace GroupCommit.Log

variable {g : Geometry} {i k : Nat} {A : Account} {calls : Nat} {s : Slot} {w : Work} {P : Picture}

/-! ### The addresses of a call -/

/-- What a call owns belongs to the content. -/
theorem Account.Sound.owned_lt (h : A.Sound g calls) {a : Nat} (ha : A.Owns i a) :
    a < A.content.length := by
  obtain ⟨r, hr, -, -, h_lt⟩ := ha
  calc a < r.stop := h_lt
    _ ≤ 0 + A.content.length := h.layout.tiles.stop_le hr
    _ = A.content.length := Nat.zero_add _

/-- The content within a record is the record. -/
theorem Account.Sound.read_content (h : A.Sound g calls) {head a : Nat} {record : Bytes}
    (h_mem : .reserved ⟨i, head, record⟩ ∈ A.journal) (h₁ : head ≤ a)
    (h₂ : a < head + record.length) : A.content.read a = record.read (a - head) := by
  -- the record lies in the content where its head is
  have h_read := h.layout.tiles.read (Journal.mem_reservations.2 h_mem)
    (show a - head < record.length by omega)
  rw [Nat.sub_zero] at h_read
  rw [← h_read, Nat.add_sub_cancel' h₁]
  rfl

/-- What a call knows of the addresses of a portion. -/
theorem WorkInv.region (hw : WorkInv g P i w) (h_sound : P.account.Sound g calls) {p : Portion}
    (hp : Has w.entry p) {a : Nat} (ha : InRegion w.entry p a) :
    g.InBlock (portionTag w.entry p) a ∧ P.account.Owns i a ∧
      Bytes.read (portionBytes w.entry p) (a - regionStart w.entry p) = P.account.content.read a := by
  obtain ⟨record, h_mem, h_cut⟩ := hw.cut
  have h_portion := h_cut.portion p hp
  have h_head := h_portion.head_le.trans ha.1
  have h_stop : a < w.entry.span.head + record.length :=
    calc a < regionStop w.entry p := ha.2
      _ ≤ entryStop w.entry := h_portion.le_stop
      _ = w.entry.span.head + record.length := by rw [entryStop, h_cut.total]
  refine ⟨h_portion.inBlock ha, ⟨_, Journal.mem_reservations.2 h_mem, rfl, h_head, h_stop⟩, ?_⟩
  rw [h_portion.bytes a ha, h_sound.read_content h_mem h_head h_stop]

/-- What a call knows of the addresses in the middle of its record. -/
theorem WorkInv.middleRegion (hw : WorkInv g P i w) (h_sound : P.account.Sound g calls) {a : Nat}
    (h₁ : w.entry.middle.start ≤ a) (h₂ : a < w.entry.middle.stop) :
    P.account.Owns i a ∧
      Bytes.read w.entry.direct (a - w.entry.middle.start) = P.account.content.read a := by
  obtain ⟨record, h_mem, h_cut⟩ := hw.cut
  obtain ⟨h_from, h_to⟩ := h_cut.middle_within
  have h_head := h_from.trans h₁
  have h_stop : a < w.entry.span.head + record.length :=
    calc a < w.entry.middle.stop := h₂
      _ ≤ entryStop w.entry := h_to
      _ = w.entry.span.head + record.length := by rw [entryStop, h_cut.total]
  refine ⟨⟨_, Journal.mem_reservations.2 h_mem, rfl, h_head, h_stop⟩, ?_⟩
  rw [h_cut.direct a h₁ h₂, h_sound.read_content h_mem h_head h_stop]

/-! ### Counting -/

/-- No more of a block is filled than there is. -/
theorem Account.filledIn_le (A : Account) (tag : Nat) : A.filledIn g tag ≤ g.capacity := by
  -- a block has no more addresses than the capacity
  have h_sub : A.filled.filter (g.InBlock tag) ⊆ Finset.Ico tag (tag + g.capacity) := by
    intro a ha
    exact Finset.mem_Ico.2 (Finset.mem_filter.1 ha).2
  have h_card := Finset.card_le_card h_sub
  rwa [Nat.card_Ico, Nat.add_sub_cancel_left] at h_card

/-- Filling a free region of a block adds its length. -/
theorem Account.filledIn_fill {tag start stop : Nat}
    (h_in : ∀ a, start ≤ a → a < stop → g.InBlock tag a ∧ a ∉ A.filled) :
    (A.fill start stop).filledIn g tag = A.filledIn g tag + (stop - start) := by
  -- in the block there is what was filled before and all of the new addresses, none of them twice
  have h_filter : (A.filled ∪ Finset.Ico start stop).filter (g.InBlock tag) =
      A.filled.filter (g.InBlock tag) ∪ Finset.Ico start stop := by
    rw [Finset.filter_union]
    congr 1
    refine Finset.filter_true_of_mem fun a ha => ?_
    obtain ⟨h₁, h₂⟩ := Finset.mem_Ico.1 ha
    exact (h_in a h₁ h₂).1
  have h_disjoint : Disjoint (A.filled.filter (g.InBlock tag)) (Finset.Ico start stop) := by
    rw [Finset.disjoint_left]
    intro a ha ha'
    obtain ⟨h₁, h₂⟩ := Finset.mem_Ico.1 ha'
    exact (h_in a h₁ h₂).2 (Finset.mem_filter.1 ha).1
  unfold Account.filledIn Account.fill
  rw [h_filter, Finset.card_union_of_disjoint h_disjoint, Nat.card_Ico]

/-! ### The slot -/

/-- Who holds a flush keeps the slot from being filled. -/
theorem HoldOn.not_filling {hold : Hold} (h : HoldOn g A i hold s) :
    s.phase ≠ .filling ∧ s.phase ≠ .full := by
  rcases h.phase with h_phase | ⟨reason, h_phase⟩
  · rw [h_phase]
    cases hold.flush.kind <;> simp [FlushKind.phase]
  · rw [h_phase]
    simp

/-- Bytes that may be copied into the slot at this offset. -/
structure Fillable (g : Geometry) (A : Account) (s : Slot) (offset : Nat) (data : Bytes) : Prop where
  nonempty : 0 < data.length
  fits : offset + data.length ≤ g.capacity
  fresh : ∀ a, s.tag + offset ≤ a → a < s.tag + offset + data.length → a ∉ A.filled
  bytes : ∀ a, s.tag + offset ≤ a → a < s.tag + offset + data.length →
    data.read (a - (s.tag + offset)) = A.content.read a

section Fill

variable {offset : Nat} {data : Bytes}

/-- The slot after the copy. It is full when every byte of it is filled. -/
def copied (s : Slot) (offset : Nat) (data : Bytes) : Slot :=
  { s.filledWith offset data with
    phase := if s.dirty + data.length = s.capacity then .full else .filling }

/-- The account after the copy. -/
abbrev Account.fillSlot (A : Account) (s : Slot) (offset : Nat) (data : Bytes) : Account :=
  A.fill (s.tag + offset) (s.tag + offset + data.length)

/-- What is filled once the bytes have been copied into the slot. -/
theorem mem_fillSlot {a : Nat} : a ∈ (A.fillSlot s offset data).filled ↔
    a ∈ A.filled ∨ (s.tag + offset ≤ a ∧ a < s.tag + offset + data.length) := by
  rw [← Finset.mem_Ico]
  exact Finset.mem_union

variable (h_fill : Fillable g A s offset data)

include h_fill

/-- The copy fills as much as it has bytes. -/
theorem Fillable.filledIn : (A.fillSlot s offset data).filledIn g s.tag =
    A.filledIn g s.tag + data.length := by
  have h_fits := h_fill.fits
  rw [Account.filledIn_fill]
  · rw [Nat.add_sub_cancel_left]
  · exact fun a h₁ h₂ => ⟨⟨by omega, by omega⟩, h_fill.fresh a h₁ h₂⟩

/-- The buffer goes on holding the content. -/
theorem Fillable.mirrors (hb : A.Mirrors g s.tag s.buffer) :
    (A.fillSlot s offset data).Mirrors g s.tag (s.buffer.write offset data) where
  size := hb.size
  filled := by
    intro j hj h_mem
    rw [Buffer.read_write]
    -- inside the copied range the buffer has the new bytes, outside of it what it had
    split
    · next h_in =>
      rw [show j - offset = s.tag + j - (s.tag + offset) by omega]
      exact h_fill.bytes _ (by omega) (by omega)
    · next h_out =>
      refine hb.filled j hj ((mem_fillSlot.1 h_mem).resolve_right ?_)
      omega
  blank := by
    intro j hj h_not
    rw [mem_fillSlot, not_or] at h_not
    rw [Buffer.read_write, if_neg (by omega)]
    exact hb.blank j hj h_not.1

/-- A copy leaves the slot open, or full if that was the last room. -/
theorem SlotInv.phase_copied (h : SlotInv g A k s) (h_phase : s.phase = .filling)
    (h_le : s.dirty + data.length ≤ g.capacity) :
    PhaseInv g (A.fillSlot s offset data) (copied s offset data) (copied s offset data).phase := by
  obtain ⟨-, h_mirrors, m, h_m, h_flow⟩ : PhaseInv g A s .filling := h_phase ▸ h.phase
  unfold copied
  rw [h.capacity_eq]
  by_cases h_full : s.dirty + data.length = g.capacity
  · -- a full slot is written to its end, which is no less than the high water
    simp only [if_pos h_full]
    refine ⟨h_full, h_fill.mirrors h_mirrors, m, h_m.trans ?_, h_flow⟩
    rcases Nat.eq_zero_or_pos s.highWater with h_zero | h_high
    · omega
    · obtain ⟨a, -, h_in, h_eq⟩ := h.last h_high
      have := h_in.2
      omega
  · -- there is still room, so the slot stays as open as it was
    simp only [if_neg h_full]
    exact ⟨lt_of_le_of_ne h_le h_full, h_fill.mirrors h_mirrors, m,
      h_m.trans (Nat.le_max_left _ _), h_flow⟩

/-- **A copy keeps what holds of the slot**, and does not go past its capacity. -/
theorem SlotInv.fill (h : SlotInv g A k s) (h_phase : s.phase = .filling) :
    s.dirty + data.length ≤ g.capacity ∧
      SlotInv g (A.fillSlot s offset data) k (copied s offset data) := by
  have h_fits := h_fill.fits
  have h_pos := h_fill.nonempty
  -- the count of copied bytes keeps up with the filled addresses, so it stays within the block
  have h_dirty : s.dirty + data.length = (A.fillSlot s offset data).filledIn g s.tag := by
    rw [h_fill.filledIn, h.dirty_eq]
  have h_le : s.dirty + data.length ≤ g.capacity := h_dirty ▸ Account.filledIn_le _ _
  refine ⟨h_le, ?_⟩
  exact {
    index_eq := h.index_eq
    capacity_eq := h.capacity_eq
    gap_eq := h.gap_eq
    tag_dvd := h.tag_dvd
    tag_index := h.tag_index
    closed := fun a ha h_index => (h.closed a ha h_index).imp_right fun h => h.fill _ _
    ahead := by
      intro a ha h_index
      rcases mem_fillSlot.1 ha with h_old | h_new
      · exact h.ahead a h_old h_index
      · simp only [copied, Slot.filledWith]
        omega
    dirty_eq := h_dirty
    below := by
      intro a ha h_in
      simp only [copied, Slot.filledWith] at h_in ⊢
      rcases mem_fillSlot.1 ha with h_old | h_new
      · have := h.below a h_old h_in
        omega
      · omega
    last := by
      intro _
      -- the high water is that of before or the end of this copy
      simp only [copied, Slot.filledWith]
      rcases Nat.lt_or_ge s.highWater (offset + data.length) with h_lt | h_ge
      · refine ⟨s.tag + offset + data.length - 1, mem_fillSlot.2 (.inr ⟨by omega, by omega⟩),
          ⟨by omega, by omega⟩, by omega⟩
      · obtain ⟨a, ha, h_in, h_eq⟩ := h.last (by omega)
        exact ⟨a, mem_fillSlot.2 (.inl ha), h_in, by omega⟩
    claim_le := h.claim_le
    skipped := h.skipped
    skipped_nodup := h.skipped_nodup
    unpassed := fun _ => h.unpassed (Slot.not_stopped h_phase (by simp))
    phase := h.phase_copied h_fill h_phase h_le }

end Fill

/-! ### The step -/

/-- A portion that is to do may be copied into the slot that has reached its generation. -/
theorem WorkInv.fillable (hw : WorkInv g P i w) (h_sound : P.account.Sound g calls) {p : Portion}
    (hp : Has w.entry p) (h_part : w.part p = .todo) (h_tag : s.tag = portionTag w.entry p) :
    Fillable g P.account s (portionOffset w.entry p) (portionBytes w.entry p) := by
  obtain ⟨record, h_mem, h_cut⟩ := hw.cut
  have h_portion := h_cut.portion p hp
  have h_todo : PartInv g P w.entry w.hold p .todo := h_part ▸ hw.part p hp
  -- the range to copy to is the region of the portion
  have h_region : ∀ a, s.tag + portionOffset w.entry p ≤ a →
      a < s.tag + portionOffset w.entry p + (portionBytes w.entry p).length →
      InRegion w.entry p a := by
    intro a h₁ h₂
    rw [h_tag] at h₁ h₂
    exact ⟨h₁, h₂⟩
  refine ⟨h_portion.nonempty, h_portion.within, ?_, ?_⟩
  · exact fun a h₁ h₂ h_filled => h_todo a (h_region a h₁ h₂) (.inl h_filled)
  · intro a h₁ h₂
    rw [h_tag]
    exact (hw.region h_sound hp (h_region a h₁ h₂)).2.2

/-- The ticket that a fill gives. -/
def ticketFor (s : Slot) (e : Entry) (p : Portion) : Ticket :=
  ⟨s.tag, portionOffset e p + (portionBytes e p).length, s.claims⟩

/-- A slot that a call completes is looked after by that call, which has a ticket for it. -/
theorem Attended.copied {views : List View} {p : Portion} (hi : i < views.length)
    (hp : Has w.entry p) (h_claim : s.durable.claim ≤ s.claims) :
    Attended (views.set i (.working (w.setPart p (.ticketed (ticketFor s w.entry p))))) k
      (copied s (portionOffset w.entry p) (portionBytes w.entry p)) := by
  unfold Attended Log.copied
  by_cases h_full : s.dirty + (portionBytes w.entry p).length = s.capacity
  · simp only [if_pos h_full]
    exact ⟨i, _, ticketFor s w.entry p, List.getElem?_set_self hi,
      ⟨_, p, rfl, hp, w.setPart_self p _⟩, rfl, h_claim⟩
  · simp only [if_neg h_full]

/-- The picture once the call has copied a portion into the slot. -/
def Picture.filledBy (g : Geometry) (P : Picture) (i : Nat) (s : Slot) (w : Work) (p : Portion) : Picture where
  account := P.account.fillSlot s (portionOffset w.entry p) (portionBytes w.entry p)
  slots := P.slots.set (portionSlot g w.entry p)
    (copied s (portionOffset w.entry p) (portionBytes w.entry p))
  calls := P.calls.set i (.working (w.setPart p (.ticketed (ticketFor s w.entry p))))

/-- The region of a portion is the range that it is copied to. -/
theorem inRegion_iff {e : Entry} {p : Portion} (h_tag : s.tag = portionTag e p) {a : Nat} :
    InRegion e p a ↔ s.tag + portionOffset e p ≤ a ∧
      a < s.tag + portionOffset e p + (portionBytes e p).length := by
  rw [h_tag]
  exact Iff.rfl

section Step

variable (h : Inv g P) (hv : P.calls[i]? = some (.working w)) {p : Portion} (hp : Has w.entry p)
  (h_part : w.part p = .todo) (hs : P.slots[portionSlot g w.entry p]? = some s)
  (h_phase : s.phase = .filling) (h_tag : s.tag = portionTag w.entry p)

include h_tag in
/-- A fill places nothing but the region of its portion. -/
theorem placed_filledBy {a : Nat} (h_placed : (P.filledBy g i s w p).account.Placed g a) :
    P.account.Placed g a ∨ InRegion w.entry p a := by
  rcases h_placed with h_filled | h_bypassed
  · exact (mem_fillSlot.1 h_filled).imp .inl (inRegion_iff h_tag).2
  · exact .inl (.inr h_bypassed)

include h hv hp hs h_tag in
/-- The copy touches the call's own slot alone. -/
theorem Inv.touches_filledBy : Touches g i (portionSlot g w.entry p) s
    (copied s (portionOffset w.entry p) (portionBytes w.entry p)) P (P.filledBy g i s w p) := by
  have h_work : WorkInv g P i w := h.call i _ hv
  obtain ⟨record, -, h_cut⟩ := h_work.cut
  refine ⟨Evolves.fill fun a h₁ h₂ => ?_, hs, rfl, le_rfl, fun _ => .inl rfl⟩
  obtain ⟨h_in, h_own, -⟩ := h_work.region h.account hp ((inRegion_iff h_tag).2 ⟨h₁, h₂⟩)
  exact ⟨h_own, h_in.index_eq (h_cut.portion p hp).tag_dvd⟩

include h hv hp h_part h_tag in
/-- Nobody has filled or passed over the addresses before. -/
theorem Inv.sound_filledBy : (P.filledBy g i s w p).account.Sound g P.calls.length := by
  have h_work : WorkInv g P i w := h.call i _ hv
  have h_todo : PartInv g P w.entry w.hold p .todo := h_part ▸ h_work.part p hp
  refine h.account.fill fun a h₁ h₂ => ?_
  have h_in : InRegion w.entry p a := (inRegion_iff h_tag).2 ⟨h₁, h₂⟩
  exact ⟨h.account.owned_lt (h_work.region h.account hp h_in).2.1,
    fun h_bypassed => h_todo a h_in (.inr h_bypassed)⟩

include h hs in
/-- The portion is covered by a ticket, since no early flush has been taken after the fill. -/
theorem Inv.part_filledBy (h_touches : Touches g i (portionSlot g w.entry p) s
      (copied s (portionOffset w.entry p) (portionBytes w.entry p)) P (P.filledBy g i s w p))
    (h_tag : s.tag = portionTag w.entry p) (hold : Option Hold) :
    PartInv g (P.filledBy g i s w p) w.entry hold p (.ticketed (ticketFor s w.entry p)) := by
  refine ⟨_, h_touches.here', h_tag, le_rfl, ?_, ?_⟩
  · exact fun a ha => mem_fillSlot.2 (.inr ((inRegion_iff h_tag).1 ha))
  · intro _ h_earlier
    exact absurd (h.slot _ s hs).claim_le (Nat.not_le.2 h_earlier)

include h hv hp hs h_phase h_tag in
/-- The call knows of its record what it knew, and that the portion has its ticket. -/
theorem Inv.work_filledBy : WorkInv g (P.filledBy g i s w p) i
    (w.setPart p (.ticketed (ticketFor s w.entry p))) := by
  have h_work : WorkInv g P i w := h.call i _ hv
  have h_touches := h.touches_filledBy hv hp hs h_tag
  obtain ⟨record, -, h_cut⟩ := h_work.cut
  refine h_touches.ownPart h_work (h.part_filledBy hs h_touches h_tag _) ?_
    (fun q _ => SameHold.refl q _) ?_ ?_
  · -- no other part of the record is in this region
    intro q hq h_ne a ha h_placed
    refine (placed_filledBy h_tag h_placed).resolve_right fun h_in => ?_
    exact h_ne (h_cut.region_unique hq hp ha h_in)
  · -- nor does it reach into the middle
    refine h_touches.middle ?_ (fun _ h_started _ => .inl h_started) h_work.middle
    intro a h₁ h₂ h_placed
    refine (placed_filledBy h_tag h_placed).resolve_right fun h_in => ?_
    have h_out := h_cut.notMem_middle hp h_in
    omega
  · refine fun hold h_some => h_touches.hold h.slot ?_ (h_work.hold hold h_some)
    exact fun _ h_on => absurd h_phase h_on.not_filling.1

include h hv hp h_part hs h_phase h_tag in
/-- **A fill keeps the invariant**, whether it completes the slot or not. -/
theorem Inv.fill : Inv g (P.filledBy g i s w p) := by
  have h_work : WorkInv g P i w := h.call i _ hv
  have h_fill := h_work.fillable h.account hp h_part h_tag
  obtain ⟨h_lt, -⟩ := List.getElem?_eq_some_iff.1 hv
  refine h.turn { h.touches_filledBy hv hp hs h_tag with
    before := hv
    calls := rfl
    sound := h.sound_filledBy hv hp h_part h_tag
    slot := ((h.slot _ s hs).fill h_fill h_phase).2
    view := h.work_filledBy hv hp hs h_phase h_tag
    -- nobody has a flush of a slot that is being filled
    others := fun _ _ _ _ _ _ _ h_on => absurd h_phase h_on.not_filling.1
    alone := fun hold h_some => .inl ⟨hold, h_some, rfl⟩
    waits := fun _ _ => rfl
    waiters := rfl
    attended := .inr ⟨.copied h_lt hp (h.slot _ s hs).claim_le, fun τ h_has _ => ?_,
      fun hold h_some _ => ⟨hold, h_some, rfl⟩⟩ }
  exact View.HasTicket.setPart h_has (by simp [h_part]) _

end Step

end GroupCommit.Log
