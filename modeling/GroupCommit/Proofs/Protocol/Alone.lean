import GroupCommit.Proofs.Log.Plan
import GroupCommit.Proofs.Protocol.Resting
import GroupCommit.Proofs.Protocol.Writing
import GroupCommit.Proofs.Writer.Medium

/-!
# A commit that nobody disturbs

When all commits but one have nothing under way and the record of that one is the last, then the slots
hold what the layout of the records says. A block in which the call has a portion is filled up to the end
of the portion, so the flush of its slot can be nothing but the call to the Writer that is planned for
the portion. And no call to the Writer writes the portion before.

* `Alone`: the call is the only one that has anything under way.
* `Alone.filled_iff`: what is filled of the block of a portion.
* `Alone.flushWrite_eq`, `WorkInv.middleWrite_eq`: the calls to the Writer are the planned ones.
* `Alone.not_settles`: nobody else writes the bytes of the call.
-/

namespace GroupCommit.Log

variable {g : Geometry} {P : Picture} {i a : Nat} {w : Work} {s : Slot} {p : Portion}

/-- No call but `i` has anything under way, and the record of this one is the last of the log. -/
structure Alone (P : Picture) (i : Nat) (w : Work) : Prop where
  call : P.calls[i]? = some (.working w)
  others : ∀ (j : Nat) v, j ≠ i → P.calls[j]? = some v → v = .fresh ∨ ∃ w, v = .working w ∧ w.Done
  last : entryStop w.entry = P.account.content.length

/-- A portion ends with its record or with its block. -/
theorem Cut.regionStop_cases {e : Entry} {record : Bytes} (h : Cut g e record) (hp : Has e p) :
    regionStop e p = entryStop e ∨ regionStop e p = portionTag e p + g.capacity := by
  have h_portion := h.portion p hp
  cases p with
  | whole => exact .inl (h.single hp).1
  | tail => exact .inl (h.tail_start hp).2
  | head =>
    -- the head goes up to the middle, which begins with a block
    refine .inr ?_
    have h_dvd : g.capacity ∣ regionStop e .head := h.head_stop hp.1 ▸ h.start_dvd hp.1
    have h_within := h_portion.within
    have h_nonempty := h_portion.nonempty
    have h_stop : regionStop e .head =
        portionTag e .head + portionOffset e .head + (portionBytes e .head).length := rfl
    have := Geometry.tag_separate h_portion.tag_dvd h_dvd (by omega)
    omega

/-- A portion ends within its block. -/
theorem PortionCut.stop_le {e : Entry} {record : Bytes} (h : PortionCut g e record p) :
    portionTag e p ≤ regionStop e p ∧ regionStop e p ≤ portionTag e p + g.capacity := by
  have h_within := h.within
  rw [regionStop, regionStart]
  omega

namespace Alone

variable (h : Inv g P) (h_alone : Alone P i w)

include h h_alone

/-- What holds of the one call that is under way. -/
theorem work : WorkInv g P i w := h.call i _ h_alone.call

/-- Whatever is in front of the record is durable. -/
theorem durable (ha : a < w.entry.span.head) : P.account.Durable g a := by
  have h_layout := h.account.layout
  obtain ⟨record, h_mem, h_cut⟩ := (h_alone.work h).cut
  have h_lt : a < P.account.content.length := by
    rw [← h_alone.last]
    exact ha.trans_le (Nat.le_add_right _ _)
  obtain ⟨r, hr, h₁, h₂⟩ := h_layout.tiles.exists_mem (Nat.zero_le a)
    (h_lt.trans_eq (Nat.zero_add _).symm)
  refine h.durable_of_owner hr (fun v hv => h_alone.others r.call v ?_ hv) h₁ h₂
  -- the call itself has reserved nothing that begins earlier
  intro h_call
  have h_same := h_layout.eq_of_call hr (Journal.mem_reservations.2 h_mem) h_call
  have h_head : r.head = w.entry.span.head := congrArg Reservation.head h_same
  omega

section Portion

variable (hp : Has w.entry p)

include hp

/-- A block in which the call has a portion is filled up to the end of the portion, once the portion is
copied in. -/
theorem filled_iff (h_filled : ∀ a, InRegion w.entry p a → a ∈ P.account.filled)
    (ha : g.InBlock (portionTag w.entry p) a) :
    a ∈ P.account.filled ↔ a < regionStop w.entry p := by
  obtain ⟨record, h_mem, h_cut⟩ := (h_alone.work h).cut
  have h_portion := h_cut.portion p hp
  constructor
  · intro h_in
    have h_lt := h.account.filled_lt a h_in
    rcases h_cut.regionStop_cases hp with h_stop | h_stop
    · rw [h_stop, h_alone.last]
      exact h_lt
    · rw [h_stop]
      exact ha.2
  · intro h_lt
    -- the bytes of the block are those of the portion and of earlier records
    have h_cases : InRegion w.entry p a ∨ a < w.entry.span.head := by
      rcases Nat.lt_or_ge a (regionStart w.entry p) with h_before | h_from
      · refine .inr ?_
        cases p with
        | whole => exact h_cut.first ▸ h_before
        | head => exact h_cut.first ▸ h_before
        | tail => exact absurd h_before (Nat.not_lt.2 ha.1)
      · exact .inl ⟨h_from, h_lt⟩
    rcases h_cases with h_own | h_front
    · exact h_filled a h_own
    · refine (h_alone.durable h h_front).1.resolve_right ?_
      -- a block with a filled byte is not skipped
      rintro ⟨t, ht, h_in⟩
      obtain rfl := h_in.unique ha (h.account.bypassed_dvd t ht) h_portion.tag_dvd
      exact h.account.filled_apart _ (h_filled _ h_portion.first_mem)
        ⟨_, ht, h_portion.inBlock h_portion.first_mem⟩

/-- All that is filled in the block lies in front of the end of the portion. -/
theorem filledIn_eq (h_filled : ∀ a, InRegion w.entry p a → a ∈ P.account.filled) :
    P.account.filledIn g (portionTag w.entry p) =
      regionStop w.entry p - portionTag w.entry p := by
  obtain ⟨record, -, h_cut⟩ := (h_alone.work h).cut
  rw [Account.filledIn_eq fun a ha => h_alone.filled_iff h hp h_filled ha,
    Nat.min_eq_left (h_cut.portion p hp).stop_le.2]

/-- **The flush that the call has in hands** for a portion goes up to the end of the portion, and it is
full if the portion ends with its block. -/
theorem flush_eq (h_clean : ¬ P.account.Failed) {hold : Hold} (h_on : HoldOn g P.account i hold s)
    (h_slot : SlotInv g P.account (portionSlot g w.entry p) s)
    (h_tag : hold.flush.tag = portionTag w.entry p)
    (h_filled : ∀ a, InRegion w.entry p a → a ∈ P.account.filled) :
    portionTag w.entry p + hold.flush.length = regionStop w.entry p ∧
      (hold.flush.kind = .full ↔ g.capacity ∣ regionStop w.entry p) := by
  obtain ⟨record, -, h_cut⟩ := (h_alone.work h).cut
  have h_portion := h_cut.portion p hp
  obtain ⟨h_start, h_stop⟩ := h_portion.stop_le
  have h_nonempty := h_portion.nonempty
  have h_s : s.tag = portionTag w.entry p := h_on.tag_eq.symm.trans h_tag
  -- the last byte of the portion is in the flush, and no byte behind it is filled
  have h_length : portionTag w.entry p + hold.flush.length = regionStop w.entry p := by
    have h_end : regionStart w.entry p < regionStop w.entry p := h_portion.first_mem.2
    have h_last : InRegion w.entry p (regionStop w.entry p - 1) := ⟨by omega, by omega⟩
    have h_reach := h_on.reach _ (h_filled _ h_last) (h_s ▸ h_portion.inBlock h_last)
    obtain ⟨a, ha, h_in, h_le⟩ := h_on.filled
    have h_lt := (h_alone.filled_iff h hp h_filled (h_s ▸ h_in)).1 ha
    omega
  refine ⟨h_length, fun h_full => ?_, fun h_dvd => ?_⟩
  · -- a full flush reaches to the end of the block
    rw [← h_length, h_on.full h_full]
    exact Nat.dvd_add h_portion.tag_dvd dvd_rfl
  · -- an early flush is taken of a slot in which something is missing
    cases h_kind : hold.flush.kind with
    | full => rfl
    | early =>
      have h_block : regionStop w.entry p = portionTag w.entry p + g.capacity := by
        have := Geometry.tag_separate h_portion.tag_dvd h_dvd
          (by rw [regionStop, regionStart]; omega)
        omega
      have h_phase : s.phase = .reserving := by
        rcases h_on.phase with h_phase | ⟨reason, h_phase⟩
        · rw [h_phase, h_kind]
          rfl
        · have h_failed := h_slot.phase
          rw [h_phase] at h_failed
          exact absurd h_failed h_clean
      have h_missing := h_slot.phase
      rw [h_phase] at h_missing
      have h_dirty := h_slot.dirty_eq
      rw [h_s, h_alone.filledIn_eq h hp h_filled, h_block, Nat.add_sub_cancel_left] at h_dirty
      exact absurd h_dirty h_missing.1.ne

/-- **The call that writes a flush is the planned one.** -/
theorem flushWrite_eq (h_clean : ¬ P.account.Failed) {hold : Hold} {data : Bytes}
    (hs : P.slots[portionSlot g w.entry p]? = some s) (h_on : HoldOn g P.account i hold s)
    (h_tag : hold.flush.tag = portionTag w.entry p)
    (h_filled : ∀ a, InRegion w.entry p a → a ∈ P.account.filled)
    (h_bytes : hold.flush.bytes = .ok data) :
    flushWrite i hold.flush data w.entry.hint = Plan.portion ⟨g, P.account.content, i⟩ w.entry p := by
  obtain ⟨record, -, h_cut⟩ := (h_alone.work h).cut
  have h_portion := h_cut.portion p hp
  have h_slot := h.slot _ s hs
  obtain ⟨h_length, h_kind⟩ := h_alone.flush_eq h hp h_clean h_on h_slot h_tag h_filled
  obtain ⟨h_data, -⟩ := flush_bytes_ok h_bytes
  have h_count : data.length = hold.flush.length := by
    rw [h_data, Buffer.length_first]
  have h_faithful : Account.Faithful g P.account (flushWrite i hold.flush data w.entry.hint) :=
    h_on.faithful h.account h_slot.tag_dvd rfl h_bytes
  -- the flush is a full one just when the portion reaches the end of its block
  have h_source : Source.slot hold.flush.kind =
      .slot (if g.capacity ∣ regionStop w.entry p then .full else .early) := by
    cases h_eq : hold.flush.kind with
    | full => rw [if_pos (h_kind.1 h_eq)]
    | early =>
      rw [if_neg fun h_dvd => ?_]
      cases h_eq.symm.trans (h_kind.2 h_dvd)
  rw [Plan.portion, ← h_source]
  -- two calls are equal that begin and end together and have the reserved bytes
  refine Write.eq_range h_tag h_portion.stop_le.1 ?_ ?_ fun a h₁ h₂ => ?_
  · exact h_portion.le_stop.trans_eq h_alone.last
  · show data.length = _
    omega
  · have h_in : g.InBlock (portionTag w.entry p) a := ⟨h₁, h₂.trans_le h_portion.stop_le.2⟩
    have h_placed := (h_alone.filled_iff h hp h_filled h_in).2 h₂
    rw [← h_tag] at h₁ ⊢
    refine h_faithful a (.inl h_placed) ⟨h₁, ?_⟩
    show a < hold.flush.tag + data.length
    omega

/-- **Nobody else writes the portion**: as long as nothing in it is written, the call waits for it. -/
theorem not_settles {τ : Ticket} (h_part : w.part p = .ticketed τ)
    (hs : P.slots[portionSlot g w.entry p]? = some s)
    (h_unwritten : ∀ wr, .returned wr (.ok ()) ∈ P.account.journal → wr.stop ≤ regionStart w.entry p) :
    ¬ s.Settles τ := by
  have h_work := h_alone.work h
  obtain ⟨record, -, h_cut⟩ := h_work.cut
  have h_portion := h_cut.portion p hp
  have h_ticket := h_work.ticketOn hp h_part hs
  have h_slot := h.slot _ s hs
  have h_first := h_portion.first_mem
  have h_in := h_portion.inBlock h_first
  have h_open : ¬ P.account.Durable g (regionStart w.entry p) := by
    rintro ⟨-, h_replay⟩
    obtain ⟨wr, h_mem, h_covers⟩ := Journal.exists_returned h_replay
    exact absurd h_covers.2 (Nat.not_lt.2 (h_unwritten wr h_mem))
  have h_tag : τ.tag = s.tag := by
    refine h_ticket.tag_le.antisymm (Nat.not_lt.1 fun h_lt => ?_)
    -- a generation that is over is durable, since it is not skipped
    rw [h_ticket.tag_eq] at h_lt
    have h_before : regionStart w.entry p < s.tag := by
      have := Geometry.tag_separate h_portion.tag_dvd h_slot.tag_dvd h_lt
      exact h_in.2.trans_le this
    refine h_open ((h_slot.closed _ h_before ?_).resolve_left ?_)
    · exact h_in.index_eq h_portion.tag_dvd
    · exact h.account.filled_apart _ (h_ticket.filled _ h_first)
  rintro (h_lt | h_covers)
  · omega
  · exact h_open (h_ticket.covered h_tag h_covers.1 _ h_first)

end Portion

end Alone

/-- **The call that writes the middle is the planned one.** -/
theorem WorkInv.middleWrite_eq {calls : Nat} (hw : WorkInv g P i w) (h_sound : P.account.Sound g calls) :
    middleWrite i w.entry = Plan.direct ⟨g, P.account.content, i⟩ w.entry := by
  obtain ⟨record, h_mem, h_cut⟩ := hw.cut
  obtain ⟨h_head, h_stop⟩ := h_cut.middle_within
  have h_total : entryStop w.entry = w.entry.span.head + record.length := by
    rw [entryStop, h_cut.total]
  have h_le := h_sound.layout.tiles.stop_le (Journal.mem_reservations.2 h_mem)
  refine Write.eq_range rfl h_cut.middle_le ?_ h_cut.direct_length fun a h₁ h₂ => ?_
  · calc w.entry.middle.stop ≤ entryStop w.entry := h_stop
      _ = w.entry.span.head + record.length := h_total
      _ ≤ 0 + P.account.content.length := h_le
      _ = P.account.content.length := Nat.zero_add _
  · show Bytes.read w.entry.direct (a - w.entry.middle.start) = _
    rw [h_cut.direct a h₁ h₂, h_sound.read_content h_mem (h_head.trans h₁) (by omega)]

end GroupCommit.Log
