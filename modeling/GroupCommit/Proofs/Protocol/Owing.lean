import GroupCommit.Proofs.Protocol.Resting

/-!
# What is still to be brought

A generation that is open although all its addresses are reserved has an address that nobody has copied
in yet. The address belongs to the record of some call, which has still to bring it.

* `Work.Owes`, `Inv.exists_owing`: some call has still to bring the address.
* `PortionCut.tag_le`, `Cut.tag_lt`: the blocks of a record come one after another.
-/

namespace GroupCommit.Log

variable {g : Geometry} {P : Picture} {A : Account} {i k a : Nat} {s : Slot} {w : Work} {record : Bytes}

/-! ### Addresses that are open -/

/-- The call has neither copied the address in nor skipped its block. -/
inductive Work.Owes (g : Geometry) (w : Work) (a : Nat) : Prop
  | portion {p : Portion} (h_has : Has w.entry p) (h_part : w.part p = .todo)
      (h_in : InRegion w.entry p a)
  | middle {n : Nat} (h_middle : w.middle = .todo n)
      (h_start : w.entry.middle.start + n * g.capacity ≤ a) (h_stop : a < w.entry.middle.stop)

/-- The record of a call covers the addresses that the call owns. -/
theorem WorkInv.of_owns {calls : Nat} (hw : WorkInv g P i w) (h_sound : P.account.Sound g calls)
    (h : P.account.Owns i a) :
    ∃ record, Cut g w.entry record ∧ w.entry.span.head ≤ a ∧ a < entryStop w.entry := by
  obtain ⟨record, h_mem, h_cut⟩ := hw.cut
  obtain ⟨r, hr, h_call, h_head, h_stop⟩ := h
  cases h_sound.layout.eq_of_call hr (Journal.mem_reservations.2 h_mem) h_call
  refine ⟨record, h_cut, h_head, ?_⟩
  rw [entryStop, h_cut.total]
  exact h_stop

/-- Of its record a call owes what is neither in a slot nor past the slots. -/
theorem WorkInv.owes (hw : WorkInv g P i w) (h_cut : Cut g w.entry record)
    (h_head : w.entry.span.head ≤ a) (h_stop : a < entryStop w.entry)
    (h_new : ¬ P.account.Placed g a) : w.Owes g a := by
  -- the address is one of a portion or of the middle, and each is owed until it is placed
  rcases h_cut.covers h_head h_stop with ⟨p, hp, h_in⟩ | ⟨h₁, h₂⟩
  · have h_part := hw.part p hp
    cases h_eq : w.part p with
    | todo => exact .portion hp h_eq h_in
    | ticketed τ =>
      rw [h_eq] at h_part
      obtain ⟨s, -, h_ticket⟩ := h_part
      exact absurd (.inl (h_ticket.filled a h_in)) h_new
    | held =>
      rw [h_eq] at h_part
      obtain ⟨hold, -, -, -, -, h_filled⟩ := h_part
      exact absurd (.inl (h_filled a h_in)) h_new
    | done =>
      rw [h_eq] at h_part
      exact absurd (h_part a h_in).1 h_new
  · have h_middle := hw.middle
    cases h_eq : w.middle with
    | todo n =>
      rw [h_eq] at h_middle
      refine .middle h_eq (Nat.le_of_not_lt fun h_lt => ?_) h₂
      exact h_new (.inr (h_middle.1 a h₁ h_lt))
    | started =>
      rw [h_eq] at h_middle
      exact absurd (.inr (h_middle a h₁ h₂)) h_new
    | done =>
      rw [h_eq] at h_middle
      exact absurd (h_middle a h₁ h₂).1 h_new

/-- A generation that is not complete has an address that is not filled. -/
theorem SlotInv.exists_open (h : SlotInv g A k s) (h_dirty : s.dirty < g.capacity) :
    ∃ a, g.InBlock s.tag a ∧ a ∉ A.filled := by
  by_contra h_none
  push Not at h_none
  -- all of the block would be filled
  have h_count := Account.filledIn_eq (n := s.tag + g.capacity)
    fun a (h_in : g.InBlock s.tag a) => iff_of_true (h_none a h_in) h_in.2
  rw [Nat.min_self, Nat.add_sub_cancel_left, ← h.dirty_eq] at h_count
  omega

/-- **Some call has still to bring the address.** What is reserved and has no place yet is owed by the
call whose record it belongs to. -/
theorem Inv.exists_owing (h : Inv g P) (h_clean : ¬ P.account.Failed)
    (ha : a < P.account.content.length) (h_new : ¬ P.account.Placed g a) :
    ∃ i w, P.calls[i]? = some (.working w) ∧ P.account.Owns i a ∧ w.Owes g a := by
  have h_layout := h.account.layout
  -- the address belongs to some record, and its call to the picture
  obtain ⟨r, hr, h₁, h₂⟩ := h_layout.tiles.exists_mem (Nat.zero_le a)
    (ha.trans_eq (Nat.zero_add _).symm)
  have h_owns : P.account.Owns r.call a := ⟨r, hr, rfl, h₁, h₂⟩
  obtain ⟨v, hv⟩ : ∃ v, P.calls[r.call]? = some v :=
    ⟨_, List.getElem?_eq_getElem (h_layout.call_lt r hr)⟩
  have h_view := h.call r.call v hv
  cases v with
  | fresh => exact absurd rfl (h_view r hr)
  | failed => exact absurd h_view h_clean
  | working w =>
    have h_work : WorkInv g P r.call w := h_view
    obtain ⟨record, h_cut, h_head, h_stop⟩ := h_work.of_owns h.account h_owns
    exact ⟨r.call, w, hv, h_owns, h_work.owes h_cut h_head h_stop h_new⟩

/-- A call whose work is done owes nothing. -/
theorem Work.Done.not_owes (h : w.Done) : ¬ w.Owes g a := by
  intro h_owes
  cases h_owes with
  | portion h_has h_part h_in =>
    rw [h.part _ h_has] at h_part
    cases h_part
  | middle h_middle h_start h_stop =>
    have h_some : w.entry.middle.isEmpty = false := by
      rw [Extent.isEmpty, decide_eq_false_iff_not]
      omega
    rw [h.middle h_some] at h_middle
    cases h_middle

/-! ### The order of the blocks -/

/-- The slot of a portion that begins in the generation of the slot. -/
theorem PortionCut.slot_eq {e : Entry} {p : Portion} (h : PortionCut g e record p)
    (h_slot : SlotInv g A k s) (h_in : g.InBlock s.tag (regionStart e p)) : portionSlot g e p = k := by
  rw [portionSlot, (h.inBlock h.first_mem).unique h_in h.tag_dvd h_slot.tag_dvd]
  exact h_slot.tag_index

/-- An address that does not lie before a portion is not in an earlier block. -/
theorem PortionCut.tag_le {e : Entry} {p : Portion} {t : Nat} (h : PortionCut g e record p)
    (h_dvd : g.capacity ∣ t) (h_in : g.InBlock t a) (h_le : regionStart e p ≤ a) :
    portionTag e p ≤ t := by
  by_contra h_lt
  have h_apart := Geometry.tag_separate h_dvd h.tag_dvd (Nat.lt_of_not_le h_lt)
  have h_start : portionTag e p ≤ regionStart e p := Nat.le_add_right _ _
  have := h_in.2
  omega

/-- An address of the record behind a portion is in a later block: only the head has anything behind it,
and it goes up to the end of its block. -/
theorem Cut.tag_lt {e : Entry} {p : Portion} {t : Nat} (h : Cut g e record) (h_has : Has e p)
    (h_in : g.InBlock t a) (h_le : regionStop e p ≤ a) (h_lt : a < entryStop e) : portionTag e p < t := by
  have h_portion := h.portion p h_has
  cases p with
  | whole =>
    have h_stop := (h.single h_has).1
    rw [← regionStop_whole] at h_stop
    omega
  | head =>
    -- the head ends with its block, so what lies behind it begins with another one
    have h_stop := h.head_stop h_has.1
    have h_nonempty := h_portion.nonempty
    have h_start : portionTag e .head ≤ regionStart e .head := Nat.le_add_right _ _
    have h_apart := Geometry.tag_separate h_portion.tag_dvd (h.start_dvd h_has.1) (by
      rw [← h_stop, regionStop]
      omega)
    have := h_in.2
    omega
  | tail =>
    have h_stop := (h.tail_start h_has).2
    omega

end GroupCommit.Log
