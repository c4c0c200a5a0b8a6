import GroupCommit.Proofs.Log.Way
import GroupCommit.Proofs.Protocol.Generations

/-!
# Calls at rest

When no call has anything under way and no call to the Writer has failed, little is left to chance.
All that was reserved is durable. No slot is full or being written, since somebody would have to look
after it. And a slot can neither be behind the last reserved address, as its generation would be
complete then, nor ahead of it for no reason, as it only leaves generations that are durable or
skipped.

* `WorkInv.durable`: the record of a call whose work is done.
* `Resting`, `Inv.durable_of_resting`: no call has anything under way.
* `Settles`, `Inv.settles`: what is left of a slot then.
-/

namespace GroupCommit.Log

variable {g : Geometry} {P : Picture} {A : Account} {i k a : Nat} {s : Slot}

/-- All of a record whose work is done is durable. -/
theorem WorkInv.durable {w : Work} {record : Bytes}
    (hw : WorkInv g P i w) (h_done : w.Done) (h_cut : Cut g w.entry record)
    (h_le : w.entry.span.head ≤ a) (h_lt : a < w.entry.span.head + record.length) :
    P.account.Durable g a := by
  have h_stop : a < entryStop w.entry := by
    rw [entryStop, h_cut.total]
    exact h_lt
  rcases h_cut.covers h_le h_stop with ⟨p, hp, ha⟩ | ⟨h₁, h₂⟩
  · -- an address of a portion, which is done
    have h_part : PartInv g P w.entry w.hold p .done := h_done.part p hp ▸ hw.part p hp
    exact h_part a ha
  · -- an address of the middle, which is not empty then
    have h_some : w.entry.middle.isEmpty = false := by
      rw [Extent.isEmpty, decide_eq_false_iff_not]
      omega
    have h_middle : MiddleInv g P.account i w.entry.middle .done :=
      h_done.middle h_some ▸ hw.middle
    exact h_middle a h₁ h₂

/-- No call has anything under way. -/
def Resting (P : Picture) : Prop :=
  ∀ (i : Nat) v, P.calls[i]? = some v → v = .fresh ∨ ∃ w, v = .working w ∧ w.Done

namespace Resting

variable (h : Resting P) {v : View}

include h

/-- At rest nobody holds anything. -/
theorem hold_none (hv : P.calls[i]? = some v) : v.hold? = none := by
  rcases h i v hv with rfl | ⟨w, rfl, h_done⟩
  · rfl
  · exact h_done.free.hold

/-- At rest nobody waits. -/
theorem waitsOn (hv : P.calls[i]? = some v) : v.waitsOn k = false := by
  rcases h i v hv with rfl | ⟨w, rfl, h_done⟩
  · rfl
  · simp [View.waitsOn, h_done.free.waits]

/-- At rest nobody has a ticket. -/
theorem not_hasTicket (hv : P.calls[i]? = some v) (τ : Ticket) : ¬ v.HasTicket τ := by
  rintro ⟨w, p, rfl, hp, h_part⟩
  rcases h i _ hv with h_fresh | ⟨w', h_eq, h_done⟩
  · cases h_fresh
  · cases h_eq
    rw [h_done.part p hp] at h_part
    cases h_part

end Resting

/-- What was reserved by a call that has nothing under way is durable. -/
theorem Inv.durable_of_owner (h : Inv g P) {r : Reservation}
    (hr : r ∈ P.account.journal.reservations)
    (h_rest : ∀ v, P.calls[r.call]? = some v → v = .fresh ∨ ∃ w, v = .working w ∧ w.Done)
    (h₁ : r.head ≤ a) (h₂ : a < r.stop) : P.account.Durable g a := by
  have h_layout := h.account.layout
  have hv := List.getElem?_eq_getElem (h_layout.call_lt r hr)
  have h_view := h.call r.call _ hv
  rcases h_rest _ hv with h_fresh | ⟨w, h_working, h_done⟩
  · rw [h_fresh] at h_view
    exact absurd rfl (h_view r hr)
  · rw [h_working] at h_view
    have h_work : WorkInv g P r.call w := h_view
    obtain ⟨record, h_mem, h_cut⟩ := h_work.cut
    -- a call has one reservation
    have h_same := h_layout.eq_of_call hr (Journal.mem_reservations.2 h_mem) rfl
    have h_head : r.head = w.entry.span.head := congrArg Reservation.head h_same
    have h_record : r.record = record := congrArg Reservation.record h_same
    rw [Reservation.stop, h_head, h_record] at h₂
    exact h_work.durable h_done h_cut (h_head ▸ h₁) h₂

/-- Everything that was reserved is durable. -/
theorem Inv.durable_of_resting (h : Inv g P) (h_rest : Resting P)
    (ha : a < P.account.content.length) : P.account.Durable g a := by
  -- the address is in the reservation of some call, and that call is done
  obtain ⟨r, hr, h₁, h₂⟩ := h.account.layout.tiles.exists_mem (Nat.zero_le a)
    (ha.trans_eq (Nat.zero_add _).symm)
  exact h.durable_of_owner hr (fun v hv => h_rest r.call v hv) h₁ h₂

/-! ### Slots -/

/-- What is left of a slot when all calls are done with it. `position` is the first address that is
not reserved. -/
structure Settles (g : Geometry) (position k : Nat) (s : Slot) : Prop where
  phase : s.phase = .filling
  waiters : s.waiters = 0
  skipped : s.skipped = []
  /-- The slot has left behind no generation that it could still be filled for, and all others. -/
  tag : IsLeast {t | t ≡ k * g.capacity [MOD g.capacity * g.ringSize] ∧ position < t + g.capacity}
    s.tag
  dirty : s.dirty = if s.tag = g.base position then position % g.capacity else 0
  highWater : s.highWater = s.dirty

/-- No address of the current generation of a slot is skipped. -/
theorem SlotInv.not_bypassed {calls : Nat} (h : SlotInv g A k s) (h_sound : A.Sound g calls)
    (h_live : ¬ s.Stopped) (ha : g.InBlock s.tag a) : ¬ A.Bypassed g a := by
  rintro ⟨t, ht, h_in⟩
  obtain rfl : t = s.tag := h_in.unique ha (h_sound.bypassed_dvd t ht) h.tag_dvd
  -- the block would be recorded as one that lies ahead
  have h_mem := h.unpassed h_live s.tag ht h.tag_index le_rfl
  exact (h.skipped s.tag h_mem).1.false

/-- How much of a block is filled if that is all in front of an address. -/
theorem Account.filledIn_eq {tag n : Nat}
    (h : ∀ a, g.InBlock tag a → (a ∈ A.filled ↔ a < n)) :
    A.filledIn g tag = min n (tag + g.capacity) - tag := by
  -- the filled addresses of the block are an interval
  have h_eq : A.filled.filter (g.InBlock tag) = Finset.Ico tag (min n (tag + g.capacity)) := by
    ext a
    rw [Finset.mem_filter, Finset.mem_Ico, lt_min_iff]
    constructor
    · exact fun ⟨ha, h_in⟩ => ⟨h_in.1, (h a h_in).1 ha, h_in.2⟩
    · exact fun ⟨h₁, h₂, h₃⟩ => ⟨(h a ⟨h₁, h₃⟩).2 h₂, h₁, h₃⟩
  rw [Account.filledIn, h_eq, Nat.card_Ico]

/-- How much of the last generation of a slot is reserved. -/
theorem Geometry.sub_tag {position tag : Nat} (h_limit : position < Word.limit)
    (h_capacity : g.capacity ≤ Word.limit) (h_dvd : g.capacity ∣ tag)
    (h_lt : position < tag + g.capacity) :
    position - tag = if tag = g.base position then position % g.capacity else 0 := by
  have h_base := g.base_eq h_limit h_capacity
  have h_div := Nat.div_add_mod position g.capacity
  split
  · omega
  · next h_ne =>
    -- the block of the position ends before this one begins
    have h_base_dvd : g.capacity ∣ g.base position := h_base ▸ Nat.dvd_mul_right _ _
    have h_base_lt : g.base position < tag := by
      refine Nat.lt_of_le_of_ne ?_ (Ne.symm h_ne)
      by_contra h_ahead
      have := Geometry.tag_separate h_dvd h_base_dvd (Nat.lt_of_not_le h_ahead)
      omega
    have h_mod := Nat.mod_lt position g.capacity_pos
    have := Geometry.tag_separate h_base_dvd h_dvd h_base_lt
    omega

section Settling

variable (h : Inv g P) (h_rest : Resting P) (h_clean : ¬ P.account.Failed)

include h h_rest h_clean

/-- At rest every slot is filling. -/
theorem Inv.filling_of_resting (hs : P.slots[k]? = some s) : s.phase = .filling := by
  have h_phase := (h.slot k s hs).phase
  have h_attended := h.attended.resolve_left h_clean k s hs
  unfold Attended at h_attended
  -- in every other phase somebody would have to look after the slot
  cases h_eq : s.phase with
  | filling => rfl
  | poisoned reason =>
    rw [h_eq] at h_phase
    exact absurd h_phase h_clean
  | full =>
    rw [h_eq] at h_attended
    obtain ⟨j, v, τ, hv, h_ticket, -⟩ := h_attended
    exact absurd h_ticket (h_rest.not_hasTicket hv τ)
  | flushing =>
    rw [h_eq] at h_attended
    obtain ⟨j, v, hold, hv, h_some, -⟩ := h_attended
    rw [h_rest.hold_none hv] at h_some
    cases h_some
  | reserving =>
    rw [h_eq] at h_attended
    obtain ⟨j, v, hold, hv, h_some, -⟩ := h_attended
    rw [h_rest.hold_none hv] at h_some
    cases h_some

/-- In the current generation of a slot just the reserved addresses are filled. -/
theorem Inv.filled_iff (hs : P.slots[k]? = some s) (ha : g.InBlock s.tag a) :
    a ∈ P.account.filled ↔ a < P.account.content.length := by
  have h_live : ¬ s.Stopped := Slot.not_stopped (h.filling_of_resting h_rest h_clean hs) (by simp)
  refine ⟨h.account.filled_lt a, fun h_lt => ?_⟩
  exact (h.durable_of_resting h_rest h_lt).1.resolve_right
    ((h.slot k s hs).not_bypassed h.account h_live ha)

/-- A slot is not behind the position: a generation that is reserved to its end would be full. -/
theorem Inv.position_lt (hs : P.slots[k]? = some s) :
    P.account.content.length < s.tag + g.capacity ∧ s.dirty = P.account.content.length - s.tag := by
  have h_slot := h.slot k s hs
  have h_dirty : s.dirty < g.capacity := by
    have h_phase := h_slot.phase
    rw [h.filling_of_resting h_rest h_clean hs] at h_phase
    exact h_phase.1
  have h_dirty_eq := h_slot.dirty_eq.trans
    (Account.filledIn_eq fun a ha => h.filled_iff h_rest h_clean hs ha)
  have h_position : P.account.content.length < s.tag + g.capacity := by
    -- otherwise the block were filled to its end, and the slot full
    by_contra h_le
    rw [min_eq_right (Nat.le_of_not_lt h_le), Nat.add_sub_cancel_left] at h_dirty_eq
    omega
  rw [min_eq_left h_position.le] at h_dirty_eq
  exact ⟨h_position, h_dirty_eq⟩

omit h_rest h_clean in
/-- A slot is not ahead of the position for no reason: what it has left behind is reserved. -/
theorem Inv.tag_le_of_lt (hs : P.slots[k]? = some s) {t : Nat} (h_dvd : g.capacity ∣ t)
    (h_index : g.index t = k) (h_lt : P.account.content.length < t + g.capacity) : s.tag ≤ t := by
  have h_slot := h.slot k s hs
  by_contra h_ahead
  have h_capacity := g.capacity_pos
  have h_apart := Geometry.gap_separate h_dvd h_slot.tag_dvd (h_index.trans h_slot.tag_index.symm)
    (Nat.lt_of_not_le h_ahead)
  have h_in : g.InBlock t (t + g.capacity - 1) := ⟨by omega, by omega⟩
  have h_gap := Nat.le_mul_of_pos_right g.capacity g.ringSize_pos
  have h_closed := h_slot.closed (t + g.capacity - 1) (by omega)
    ((h_in.index_eq h_dvd).trans h_index)
  have h_placed : P.account.Placed g (t + g.capacity - 1) := h_closed.elim .inr (·.1)
  have := h.account.placed_lt h_placed
  omega

/-- At rest no slot keeps a skip. -/
theorem Inv.skipped_eq_nil (hs : P.slots[k]? = some s) : s.skipped = [] := by
  have h_slot := h.slot k s hs
  obtain ⟨h_position, -⟩ := h.position_lt h_rest h_clean hs
  have h_gap := Nat.le_mul_of_pos_right g.capacity g.ringSize_pos
  rw [List.eq_nil_iff_forall_not_mem]
  intro t ht
  -- a block that is skipped ahead would be reserved
  obtain ⟨h_lt, h_mem, h_index⟩ := h_slot.skipped t ht
  have h_apart := Geometry.gap_separate h_slot.tag_dvd (h.account.bypassed_dvd t h_mem)
    (h_slot.tag_index.trans h_index.symm) h_lt
  have h_le := h.account.bypassed_le t h_mem
  omega

/-- At rest the high-water mark is where the content ends. -/
theorem Inv.highWater_eq (hs : P.slots[k]? = some s) :
    s.highWater = P.account.content.length - s.tag := by
  have h_slot := h.slot k s hs
  obtain ⟨h_position, -⟩ := h.position_lt h_rest h_clean hs
  -- the last reserved address of the block is filled, and nothing behind it
  refine Nat.le_antisymm ?_ ?_
  · rcases Nat.eq_zero_or_pos s.highWater with h_zero | h_pos
    · rw [h_zero]
      exact Nat.zero_le _
    · obtain ⟨a, ha, h_in, h_last⟩ := h_slot.last h_pos
      have := (h.filled_iff h_rest h_clean hs h_in).1 ha
      omega
  · rcases Nat.lt_or_ge s.tag P.account.content.length with h_lt | h_ge
    · have h_in : g.InBlock s.tag (P.account.content.length - 1) := ⟨by omega, by omega⟩
      have h_filled := (h.filled_iff h_rest h_clean hs h_in).2 (by omega)
      have := h_slot.below _ h_filled h_in
      omega
    · rw [Nat.sub_eq_zero_of_le h_ge]
      exact Nat.zero_le _

/-- **A slot at rest** is what the position makes of it. -/
theorem Inv.settles (hs : P.slots[k]? = some s) : Settles g P.account.content.length k s := by
  have h_slot := h.slot k s hs
  have hk : k < g.ringSize := by
    obtain ⟨h_lt, -⟩ := List.getElem?_eq_some_iff.1 hs
    exact h.ring ▸ h_lt
  obtain ⟨h_position, h_dirty⟩ := h.position_lt h_rest h_clean hs
  constructor
  case phase => exact h.filling_of_resting h_rest h_clean hs
  case waiters =>
    rw [h.waiters k s hs, List.countP_eq_zero]
    intro v hv
    obtain ⟨j, hj⟩ := List.mem_iff_getElem?.1 hv
    rw [h_rest.waitsOn hj]
    decide
  case skipped => exact h.skipped_eq_nil h_rest h_clean hs
  case tag =>
    -- the generation of the slot is the first that the position has not left behind
    refine ⟨⟨(Geometry.modEq_iff hk).2 ⟨h_slot.tag_dvd, h_slot.tag_index⟩, h_position⟩, ?_⟩
    rintro t ⟨h_mod, h_lt⟩
    obtain ⟨h_dvd, h_index⟩ := (Geometry.modEq_iff hk).1 h_mod
    exact h.tag_le_of_lt hs h_dvd h_index h_lt
  case dirty =>
    have h_room : P.account.content.length + g.capacity * g.ringSize < Word.limit :=
      h.account.layout.room
    have h_gap := Nat.le_mul_of_pos_right g.capacity g.ringSize_pos
    rw [h_dirty]
    exact Geometry.sub_tag (by omega) (by omega) h_slot.tag_dvd h_position
  case highWater => rw [h.highWater_eq h_rest h_clean hs, h_dirty]

end Settling

end GroupCommit.Log
