import GroupCommit.Proofs.Protocol.Filling

/-!
# Taking a flush and handing it back

A flush is taken by a call that has a ticket for the slot's generation: of the whole slot when it is
full, and at a deadline of what is filled so far. Nobody else has a flush of the slot then, and the
slot stays as it is until the flush is handed back. When an early flush is handed back, everything
that is filled in the generation is durable, which is what the tickets rely on.

* `Inv.claim`, `Inv.claimFull`, `Inv.claimEarly`: taking a flush.
* `Inv.release`, `SlotInv.reopen`: handing it back.
-/

namespace GroupCommit.Log

variable {g : Geometry} {i k : Nat} {A : Account} {calls : Nat} {s s' : Slot} {w : Work}
  {P : Picture}

/-- What is held is held on its slot. -/
theorem Inv.holdOn (h : Inv g P) {v : View} (hv : P.calls[i]? = some v) {hold : Hold}
    (h_some : v.hold? = some hold) :
    ∃ s, P.slots[hold.slot]? = some s ∧ HoldOn g P.account i hold s := by
  cases v with
  | fresh => cases h_some
  | failed => cases h_some
  | working w => exact (h.call i _ hv : WorkInv g P i w).hold hold h_some

/-- What is held on a given slot. -/
theorem Inv.holdOn_slot (h : Inv g P) {v : View} (hv : P.calls[i]? = some v) {hold : Hold}
    (h_some : v.hold? = some hold) (hs : P.slots[hold.slot]? = some s) :
    HoldOn g P.account i hold s := by
  obtain ⟨s₁, hs₁, h_on⟩ := h.holdOn hv h_some
  obtain rfl : s = s₁ := Option.some.inj (hs.symm.trans hs₁)
  exact h_on

/-- Nobody has a flush of a slot that is open. -/
theorem Inv.no_hold (h : Inv g P) (hs : P.slots[k]? = some s)
    (h_open : s.phase = .filling ∨ s.phase = .full) {v : View} (hv : P.calls[i]? = some v)
    {hold : Hold} (h_some : v.hold? = some hold) : hold.slot ≠ k := by
  rintro rfl
  have h_on := h.holdOn_slot hv h_some hs
  exact h_open.elim h_on.not_filling.1 h_on.not_filling.2

/-! ### Taking a flush -/

/-- The work of a call that has taken a flush for a portion. -/
def Work.take (w : Work) (k : Nat) (p : Portion) (f : Flush) : Work :=
  { w.setPart p .held with hold := some ⟨k, p, f, .taken⟩ }

/-- A call that takes a flush gives up a ticket for the slot and keeps those for other slots. -/
theorem View.HasTicket.take {p : Portion} {τ τ' : Ticket} {f : Flush}
    (h_ticket : TicketOn g A w.entry p τ s) (h_part : w.part p = .ticketed τ)
    (h_has : (View.working w).HasTicket τ') (h_index : g.index τ'.tag ≠ portionSlot g w.entry p) :
    (View.working (w.take k p f)).HasTicket τ' := by
  have h_ne : w.part p ≠ .ticketed τ' := by
    rw [h_part]
    rintro ⟨⟩
    rw [h_ticket.tag_eq] at h_index
    exact h_index rfl
  exact (h_has.setPart h_ne .held).congr rfl rfl

/-- A slot whose flush is out is attended by the call that holds it. -/
theorem Attended.held {views : List View} {v : View} {hold : Hold} (hi : i < views.length)
    (h_some : v.hold? = some hold) {kind : FlushKind} (h_phase : s.phase = kind.phase) :
    Attended (views.set i v) hold.slot s := by
  have h_held : ∃ j : Nat, ∃ u h, (views.set i v)[j]? = some u ∧ u.hold? = some h ∧
      h.slot = hold.slot :=
    ⟨i, v, hold, List.getElem?_set_self hi, h_some, rfl⟩
  unfold Attended
  rw [h_phase]
  cases kind <;> exact h_held

/-- A call with a ticket of its generation may take the flush of an open slot. -/
theorem Inv.claim (h : Inv g P) (hv : P.calls[i]? = some (.working w)) {p : Portion} {τ : Ticket}
    (hp : Has w.entry p) (h_part : w.part p = .ticketed τ) (h_none : w.hold = none)
    (hs : P.slots[portionSlot g w.entry p]? = some s) (h_tag : τ.tag = s.tag)
    (h_open : s.phase = .filling ∨ s.phase = .full) {f : Flush}
    (h_slot : SlotInv g P.account (portionSlot g w.entry p) s')
    (h_on : HoldOn g P.account i ⟨portionSlot g w.entry p, p, f, .taken⟩ s')
    (h_phase : s'.phase = f.kind.phase) (h_same : s'.tag = s.tag) (h_durable : s'.durable = s.durable)
    (h_waiters : s'.waiters = s.waiters) :
    Inv g { P with
      slots := P.slots.set (portionSlot g w.entry p) s'
      calls := P.calls.set i (.working (w.take (portionSlot g w.entry p) p f)) } := by
  have h_work : WorkInv g P i w := h.call i _ hv
  have h_ticket := h_work.ticketOn hp h_part hs
  obtain ⟨h_lt, -⟩ := List.getElem?_eq_some_iff.1 hv
  set k := portionSlot g w.entry p
  have h_touches : Touches g i k s s' P
      { P with slots := P.slots.set k s', calls := P.calls.set i (.working (w.take k p f)) } :=
    ⟨Evolves.refl _, hs, rfl, h_same.ge, fun _ => .inl (by rw [h_durable])⟩
  -- the flush, the slot and the ticket are all of the generation of the portion
  have h_flush : f.tag = portionTag w.entry p :=
    calc f.tag = s'.tag := h_on.tag_eq
      _ = s.tag := h_same
      _ = τ.tag := h_tag.symm
      _ = portionTag w.entry p := h_ticket.tag_eq
  have h_taken : (View.working (w.take k p f)).hold? = some ⟨k, p, f, .taken⟩ := rfl
  refine h.turn { h_touches with
    before := hv
    calls := rfl
    sound := h.account
    slot := h_slot
    view := ?_
    others := fun j _ v hv hold h_some h_eq _ => absurd h_eq (h.no_hold hs h_open hv h_some)
    alone := ?_
    waits := fun _ _ => rfl
    waiters := by rw [h_waiters]; rfl
    attended := .inr ⟨.held h_lt h_taken h_phase, fun τ' => .take h_ticket h_part, ?_⟩ }
  · -- the flush is of the generation of the portion, which the ticket says is filled
    refine h_touches.ownPart h_work ⟨_, rfl, rfl, rfl, h_flush, h_ticket.filled⟩
      (fun _ _ _ _ _ => id) (fun q _ => ?_) h_work.middle ?_
    · rw [h_none]
      exact SameHold.none q _
    · rintro hold ⟨⟩
      exact ⟨s', h_touches.here', h_on⟩
  · -- the slot was open, so nobody else had a flush of it
    rintro hold ⟨⟩
    exact .inr ⟨rfl, fun j v hv hold h_some => h.no_hold hs h_open hv h_some⟩
  · intro hold h_some
    cases h_none.symm.trans h_some

/-- A slot is full when every address of its block is filled. -/
theorem SlotInv.full_block (h : SlotInv g A k s) (h_full : s.dirty = g.capacity) {a : Nat}
    (ha : g.InBlock s.tag a) : a ∈ A.filled := by
  -- as many addresses of the block are filled as it has
  have h_sub : A.filled.filter (g.InBlock s.tag) ⊆ Finset.Ico s.tag (s.tag + g.capacity) :=
    fun a ha => Finset.mem_Ico.2 (Finset.mem_filter.1 ha).2
  have h_eq := Finset.eq_of_subset_of_card_le h_sub (by
    rw [Nat.card_Ico, Nat.add_sub_cancel_left, ← h_full, h.dirty_eq]
    rfl)
  exact (Finset.mem_filter.1 (h_eq.symm ▸ Finset.mem_Ico.2 ha)).1

/-- The high-water mark lies within the slot. -/
theorem SlotInv.highWater_le (h : SlotInv g A k s) : s.highWater ≤ g.capacity := by
  rcases Nat.eq_zero_or_pos s.highWater with h_zero | h_pos
  · omega
  · -- the high water is the end of a fill, and that was within the block
    obtain ⟨a, -, h_in, h_eq⟩ := h.last h_pos
    have := h_in.2
    omega

/-- The full slot gives out the flush of the whole. -/
theorem SlotInv.claimFull (h : SlotInv g A k s) (h_phase : s.phase = .full) {p : Portion} :
    SlotInv g A k s.claimFull.2 ∧ HoldOn g A i ⟨k, p, s.claimFull.1, .taken⟩ s.claimFull.2 := by
  obtain ⟨h_dirty, h_mirrors, h_calm⟩ : PhaseInv g A s .full := h_phase ▸ h.phase
  have h_live : ¬ s.Stopped := Slot.not_stopped h_phase (by simp)
  refine ⟨{ h with unpassed := fun _ => h.unpassed h_live, phase := h_dirty }, ?_⟩
  exact {
    tag_eq := rfl
    phase := .inl rfl
    length_le := h.capacity_eq.le
    early := by rintro ⟨⟩
    full := fun _ => h.capacity_eq
    filled := by
      have h_pos := g.capacity_pos
      -- the block is full, so its last address is filled
      have h_last : g.InBlock s.tag (s.tag + g.capacity - 1) := ⟨by omega, by omega⟩
      refine ⟨_, h.full_block h_dirty h_last, h_last, ?_⟩
      show s.tag + s.capacity ≤ _
      rw [h.capacity_eq]
      omega
    reach := fun a _ h_in => h_in.2.trans_eq (by rw [← h.capacity_eq]; rfl)
    buffer := h_mirrors
    stage := by
      show A.Calm g s.tag s.capacity
      rw [h.capacity_eq]
      exact h_calm }

/-- A slot that is filling gives out a flush of what it has. -/
theorem SlotInv.claimEarly (h : SlotInv g A k s) (h_phase : s.phase = .filling)
    (h_high : 0 < s.highWater) (h_expired : A.allowed.deadlines = true) {p : Portion} :
    SlotInv g A k s.claimEarly.2 ∧ HoldOn g A i ⟨k, p, s.claimEarly.1, .taken⟩ s.claimEarly.2 := by
  obtain ⟨h_dirty, h_mirrors, h_calm⟩ : PhaseInv g A s .filling := h_phase ▸ h.phase
  have h_live : ¬ s.Stopped := Slot.not_stopped h_phase (by simp)
  refine ⟨{ h with
    claim_le := Nat.le_succ_of_le h.claim_le
    unpassed := fun _ => h.unpassed h_live
    phase := ⟨h_dirty, h_high⟩ }, ?_⟩
  exact {
    tag_eq := rfl
    phase := .inl rfl
    length_le := h.highWater_le
    early := fun _ => ⟨rfl, h_expired⟩
    full := by rintro ⟨⟩
    filled := by
      -- the last byte in front of the mark has been filled
      obtain ⟨a, ha, h_in, h_eq⟩ := h.last h_high
      exact ⟨a, ha, h_in, h_eq.ge⟩
    reach := h.below
    buffer := h_mirrors
    stage := h_calm }

/-- A call claims the flush of the full slot. -/
theorem Inv.claimFull (h : Inv g P) (hv : P.calls[i]? = some (.working w)) {p : Portion}
    {τ : Ticket} (hp : Has w.entry p) (h_part : w.part p = .ticketed τ) (h_none : w.hold = none)
    (hs : P.slots[portionSlot g w.entry p]? = some s) (h_tag : τ.tag = s.tag)
    (h_phase : s.phase = .full) :
    Inv g { P with
      slots := P.slots.set (portionSlot g w.entry p) s.claimFull.2
      calls := P.calls.set i (.working (w.take (portionSlot g w.entry p) p s.claimFull.1)) } := by
  obtain ⟨h_slot, h_on⟩ := (h.slot _ s hs).claimFull h_phase (i := i) (p := p)
  exact h.claim hv hp h_part h_none hs h_tag (.inr h_phase) h_slot h_on rfl rfl rfl rfl

/-- A call claims an early flush at its deadline. -/
theorem Inv.claimEarly (h : Inv g P) (hv : P.calls[i]? = some (.working w)) {p : Portion}
    {τ : Ticket} (hp : Has w.entry p) (h_part : w.part p = .ticketed τ) (h_none : w.hold = none)
    (hs : P.slots[portionSlot g w.entry p]? = some s) (h_tag : τ.tag = s.tag)
    (h_phase : s.phase = .filling) (h_high : 0 < s.highWater)
    (h_expired : P.account.allowed.deadlines = true) :
    Inv g { P with
      slots := P.slots.set (portionSlot g w.entry p) s.claimEarly.2
      calls := P.calls.set i (.working (w.take (portionSlot g w.entry p) p s.claimEarly.1)) } := by
  obtain ⟨h_slot, h_on⟩ := (h.slot _ s hs).claimEarly h_phase h_high h_expired (i := i) (p := p)
  exact h.claim hv hp h_part h_none hs h_tag (.inl h_phase) h_slot h_on rfl rfl rfl rfl

/-- The slot of a ticket of its generation has bytes. -/
theorem Inv.highWater_pos (h : Inv g P) (hv : P.calls[i]? = some (.working w)) {p : Portion}
    {τ : Ticket} (hp : Has w.entry p) (h_part : w.part p = .ticketed τ)
    (hs : P.slots[portionSlot g w.entry p]? = some s) (h_tag : τ.tag = s.tag) :
    0 < s.highWater := by
  have h_work : WorkInv g P i w := h.call i _ hv
  obtain ⟨record, h_mem, h_cut⟩ := h_work.cut
  have h_portion := h_cut.portion p hp
  have h_ticket := h_work.ticketOn hp h_part hs
  -- the first byte of the portion is filled, below the high water
  have h_first := h_portion.first_mem
  have h_in := h_portion.inBlock h_first
  rw [← h_ticket.tag_eq, h_tag] at h_in
  have := (h.slot _ s hs).below _ (h_ticket.filled _ h_first) h_in
  have := h_in.1
  omega

/-! ### Handing a flush back -/

/-- The work of a call that has handed back the flush of a portion. -/
def Work.give (w : Work) (p : Portion) : Work := { w.setPart p .done with hold := none }

/-- A call that hands back its flush has the portion done, and holds nothing more. -/
theorem Touches.give {P' : Picture} (h : Touches g i k s s' P P') (h_same : P'.account = P.account)
    (hw : WorkInv g P i w) {p : Portion} (hp : Has w.entry p) {hold : Hold} (h_part : w.part p = .held)
    (h_hold : w.hold = some hold) (h_stage : StageInv g P.account i hold.flush .written) :
    WorkInv g P' i (w.give p) := by
  obtain ⟨record, -, h_cut⟩ := hw.cut
  obtain ⟨hold₁, h_hold₁, h_portion, -, h_tag, h_filled⟩ :
    PartInv g P w.entry w.hold p .held := h_part ▸ hw.part p hp
  obtain rfl : hold = hold₁ := Option.some.inj (h_hold.symm.trans h_hold₁)
  refine h.ownPart hw (x := .done) ?_ (fun _ _ _ _ _ => h_same ▸ id) (fun q h_ne => ?_)
    (h_same ▸ hw.middle) nofun
  · -- all that is filled in the block is durable, the bytes of the portion among it
    intro a ha
    rw [h_same]
    refine h_stage.1 a (h_filled a ha) ?_
    rw [h_tag]
    exact (h_cut.portion p hp).inBlock ha
  · -- the flush was held for this portion alone
    intro hold₂ h_some h_portion₂
    obtain rfl : hold = hold₂ := Option.some.inj (h_hold.symm.trans h_some)
    exact absurd (h_portion₂.symm.trans h_portion) h_ne

/-- A flush that is written may be handed back to a slot that takes it. -/
theorem Inv.release (h : Inv g P) (hv : P.calls[i]? = some (.working w)) {p : Portion}
    {hold : Hold} (hp : Has w.entry p) (h_part : w.part p = .held) (h_hold : w.hold = some hold)
    (h_stage : hold.stage = .written) (hs : P.slots[portionSlot g w.entry p]? = some s)
    (h_slot : SlotInv g P.account (portionSlot g w.entry p) s')
    (h_advances : Advances g P.account P.account s s') (h_phase : s'.phase = .filling)
    (h_waiters : s'.waiters = s.waiters) :
    Inv g { P with
      slots := P.slots.set (portionSlot g w.entry p) s'
      calls := P.calls.set i (.working (w.give p)) } := by
  have h_work : WorkInv g P i w := h.call i _ hv
  obtain ⟨hold₁, h_hold₁, -, h_at, -⟩ :
    PartInv g P w.entry w.hold p .held := h_part ▸ h_work.part p hp
  obtain rfl : hold = hold₁ := Option.some.inj (h_hold.symm.trans h_hold₁)
  have h_on : HoldOn g P.account i hold s := h.holdOn_slot hv h_hold (h_at ▸ hs)
  have h_touches : Touches g i (portionSlot g w.entry p) s s' P
      { P with
        slots := P.slots.set (portionSlot g w.entry p) s'
        calls := P.calls.set i (.working (w.give p)) } :=
    ⟨Evolves.refl _, hs, rfl, h_advances⟩
  refine h.turn { h_touches with
    before := hv
    calls := rfl
    sound := h.account
    slot := h_slot
    view := h_touches.give rfl h_work hp h_part h_hold (h_stage ▸ h_on.stage)
    others := ?_
    alone := by rintro hold ⟨⟩
    waits := fun _ _ => rfl
    waiters := by rw [h_waiters]; rfl
    attended := .inr ⟨?_, fun τ h_has _ => ?_, ?_⟩ }
  · -- nobody else holds anything on this slot
    intro j hj v hv' hold₂ h_some h_eq _
    exact absurd (h.alone j i _ _ _ _ hv' hv h_some h_hold (h_eq.trans h_at.symm)) hj
  · unfold Attended
    rw [h_phase]
    trivial
  · -- no ticket is given up, since the portion had a flush
    exact (h_has.setPart (p := p) (by simp [h_part]) .done).congr rfl rfl
  · intro hold₂ h_some h_ne
    obtain rfl : hold = hold₂ := Option.some.inj (h_hold.symm.trans h_some)
    exact absurd h_at h_ne

/-- The slot after an early flush was handed back. -/
def reopened (s : Slot) (f : Flush) : Slot :=
  { s with buffer := f.buffer, durable := ⟨f.length, s.claims⟩, phase := .filling }

theorem SlotInv.reopen (h : SlotInv g A k s) {hold : Hold} (h_on : HoldOn g A i hold s)
    (h_kind : hold.flush.kind = .early) (h_stage : hold.stage = .written)
    (h_phase : s.phase = .reserving) :
    SlotInv g A k (reopened s hold.flush) ∧ Advances g A A s (reopened s hold.flush) := by
  obtain ⟨h_dirty, h_high⟩ : PhaseInv g A s .reserving := h_phase ▸ h.phase
  obtain ⟨h_written, h_calm⟩ : StageInv g A i hold.flush .written := h_stage ▸ h_on.stage
  have h_live : ¬ s.Stopped := Slot.not_stopped h_phase (by simp)
  constructor
  · refine { h with
      claim_le := le_rfl
      unpassed := fun _ => h.unpassed h_live
      phase := ⟨h_dirty, h_on.buffer, ?_⟩ }
    have := h_calm h_kind
    rwa [h_on.tag_eq, (h_on.early h_kind).1] at this
  · -- what the early flush has written is durable
    refine ⟨le_rfl, fun _ => .inr ?_⟩
    intro a ha h_in
    exact h_written a ha (h_on.tag_eq.symm ▸ h_in)

end GroupCommit.Log
