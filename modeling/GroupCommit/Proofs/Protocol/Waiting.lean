import GroupCommit.Proofs.Protocol.Turn

/-!
# Waiting and giving up

The steps that move no bytes. A call is counted among the waiters of a slot while it waits for a
portion to be durable, and no longer; a wait ends when its ticket is settled, and then the portion is
durable indeed. A call may also end in failure, and slots may be stopped, once a call to the Writer
has failed.

* `Inv.beginWait`, `Inv.endWait`: the count of waiters.
* `Inv.settle`: a settled ticket.
* `Inv.fail`, `Inv.stop`: failure.
-/

namespace GroupCommit.Log

variable {g : Geometry} {i k : Nat} {s : Slot} {v : View} {w : Work} {P : Picture}

/-- Who waits makes no difference to the slot. -/
theorem SlotInv.withWaiters {A : Account} (h : SlotInv g A k s) (n : Nat) :
    SlotInv g A k { s with waiters := n } :=
  { h with phase := h.phase }

/-- A step that changes nothing but the count of waiters and whether the call is counted. -/
theorem Inv.waitTurn (h : Inv g P) (hv : P.calls[i]? = some (.working w))
    (hs : P.slots[k]? = some s) {n : Nat} {waits : Option Nat}
    (h_waits : ∀ k', k' ≠ k → (waits == some k') = (w.waits == some k'))
    (h_count : n + (w.waits == some k).toNat = s.waiters + (waits == some k).toNat) :
    Inv g { P with
      slots := P.slots.set k { s with waiters := n }
      calls := P.calls.set i (.working { w with waits }) } := by
  -- the account, the tickets and the flushes are the same, only the slot counts otherwise
  have h_touches : Touches g i k s { s with waiters := n } P { P with
      slots := P.slots.set k { s with waiters := n }
      calls := P.calls.set i (.working { w with waits }) } :=
    ⟨Evolves.refl _, hs, rfl, le_rfl, fun _ => .inl rfl⟩
  have h_work : WorkInv g P i w := h.call i _ hv
  have h_tickets : ∀ τ, View.HasTicket (.working w) τ →
      View.HasTicket (.working { w with waits }) τ := fun _ h_has => h_has.congr rfl rfl
  refine h.turn { h_touches with
    before := hv
    calls := rfl
    sound := h.account
    slot := (h.slot k s hs).withWaiters n
    view := ?_
    others := fun j _ v _ hold _ _ h_on => h_on.steady ⟨rfl, rfl, .inl rfl⟩
    alone := fun hold h_some => .inl ⟨hold, h_some, rfl⟩
    waits := h_waits
    waiters := h_count
    attended := ?_ }
  · refine h_touches.own h_work rfl (fun p _ => .inl ⟨rfl, fun _ _ => id, SameHold.refl _ _⟩)
      h_work.middle ?_
    exact fun hold h_some => h_touches.hold h.slot
      (fun _ h_on => h_on.steady ⟨rfl, rfl, .inl rfl⟩) (h_work.hold hold h_some)
  · -- who attended to the slot still does
    have h_here : P.account.Failed ∨ Attended (P.calls.set i (.working { w with waits })) k
        { s with waiters := n } :=
      h.attended_same hv hs rfl rfl rfl (fun τ h_has _ => h_tickets τ h_has)
        fun hold h_some => ⟨hold, h_some, rfl⟩
    exact h_here.imp_right fun h_here =>
      ⟨h_here, fun τ h_has _ => h_tickets τ h_has, fun hold h_some _ => ⟨hold, h_some, rfl⟩⟩

/-- A call begins to wait, and is counted. -/
theorem Inv.beginWait (h : Inv g P) (hv : P.calls[i]? = some (.working w))
    (h_none : w.waits = none) (hs : P.slots[k]? = some s) :
    Inv g { P with
      slots := P.slots.set k { s with waiters := s.waiters + 1 }
      calls := P.calls.set i (.working { w with waits := some k }) } := by
  refine h.waitTurn hv hs ?_ ?_
  · intro k' hk
    rw [h_none]
    simpa using Ne.symm hk
  · simp [h_none]

/-- While a call waits, its slot counts somebody. -/
theorem Inv.waiters_pos (h : Inv g P) (hv : P.calls[i]? = some (.working w))
    (h_some : w.waits = some k) (hs : P.slots[k]? = some s) : 0 < s.waiters := by
  rw [h.waiters k s hs, List.countP_pos_iff]
  exact ⟨_, List.mem_of_getElem? hv, by simp [View.waitsOn, h_some]⟩

/-- A call ends its wait, and is counted no more. -/
theorem Inv.endWait (h : Inv g P) (hv : P.calls[i]? = some (.working w))
    (h_some : w.waits = some k) (hs : P.slots[k]? = some s) :
    Inv g { P with
      slots := P.slots.set k { s with waiters := s.waiters - 1 }
      calls := P.calls.set i (.working { w with waits := none }) } := by
  have h_pos := h.waiters_pos hv h_some hs
  refine h.waitTurn hv hs ?_ ?_
  · intro k' hk
    rw [h_some]
    simpa using Ne.symm hk
  · simp only [h_some, beq_self_eq_true, Bool.toNat_true]
    simpa using Nat.sub_add_cancel h_pos

/-! ### Tickets that are settled -/

/-- **What a settled ticket promises.** The bytes of a ticket whose generation is over, or that an
early flush covers, are durable. -/
theorem TicketOn.durable {A : Account} {calls : Nat} {e : Entry} {p : Portion} {τ : Ticket}
    {record : Bytes} (h : TicketOn g A e p τ s) (h_sound : A.Sound g calls)
    (h_cut : PortionCut g e record p) (hs : SlotInv g A (portionSlot g e p) s)
    (h_settles : s.Settles τ) {a : Nat} (ha : InRegion e p a) : A.Durable g a := by
  have h_in := h_cut.inBlock ha
  by_cases h_tag : τ.tag = s.tag
  · -- the slot is still at the generation, so an early flush covers the ticket
    refine h.covered h_tag ?_ a ha
    exact (h_settles.resolve_left (by omega)).1
  · -- the slot has left the generation behind
    have h_lt : portionTag e p < s.tag := h.tag_eq ▸ lt_of_le_of_ne h.tag_le h_tag
    have h_le := Geometry.tag_separate h_cut.tag_dvd hs.tag_dvd h_lt
    have h_past : a < s.tag := by
      have := h_in.2
      omega
    refine (hs.closed a h_past (h_in.index_eq h_cut.tag_dvd)).resolve_left ?_
    exact h_sound.filled_apart a (h.filled a ha)

/-- A portion whose ticket is settled is done. -/
theorem Inv.settle (h : Inv g P) (hv : P.calls[i]? = some (.working w)) {p : Portion} {τ : Ticket}
    (hp : Has w.entry p) (h_part : w.part p = .ticketed τ)
    (hs : P.slots[portionSlot g w.entry p]? = some s) (h_settles : s.Settles τ) :
    Inv g { P with calls := P.calls.set i (.working (w.setPart p .done)) } := by
  have h_work : WorkInv g P i w := h.call i _ hv
  obtain ⟨record, h_mem, h_cut⟩ := h_work.cut
  have h_touches : Touches g i (portionSlot g w.entry p) s s P
      { P with calls := P.calls.set i (.working (w.setPart p .done)) } :=
    ⟨Evolves.refl _, hs, (set_of_getElem? hs).symm, Advances.refl _ _ s⟩
  have h_ticket := h_work.ticketOn hp h_part hs
  -- the call gives up no other ticket than the one that is settled
  have h_tickets : ∀ τ', View.HasTicket (.working w) τ' → τ' ≠ τ →
      View.HasTicket (.working (w.setPart p .done)) τ' := by
    intro τ' h_has h_ne
    refine h_has.setPart ?_ _
    rw [h_part]
    rintro ⟨⟩
    exact h_ne rfl
  refine h.turn { h_touches with
    before := hv
    calls := rfl
    sound := h.account
    slot := h.slot _ s hs
    view := ?_
    others := fun j _ v _ hold _ _ => id
    alone := fun hold h_some => .inl ⟨hold, h_some, rfl⟩
    waits := fun _ _ => rfl
    waiters := rfl
    attended := ?_ }
  · -- the portion is done, for its bytes are durable
    refine h_touches.ownPart h_work (x := .done) ?_ (fun _ _ _ _ _ => id)
      (fun q _ => SameHold.refl q _) h_work.middle h_work.hold
    exact fun a ha => h_ticket.durable h.account (h_cut.portion p hp) (h.slot _ s hs) h_settles ha
  · have h_here : P.account.Failed ∨
        Attended (P.calls.set i (.working (w.setPart p .done))) (portionSlot g w.entry p) s := by
      refine h.attended_same hv hs rfl rfl rfl ?_ fun hold h_some => ⟨hold, h_some, rfl⟩
      intro τ' h_has h_open
      refine h_tickets τ' h_has ?_
      rintro rfl
      exact h_open h_settles
    refine h_here.imp_right fun h_here =>
      ⟨h_here, ?_, fun hold h_some _ => ⟨hold, h_some, rfl⟩⟩
    intro τ' h_has h_index
    refine h_tickets τ' h_has ?_
    rintro rfl
    rw [h_ticket.tag_eq] at h_index
    exact h_index rfl

/-! ### Failure -/

/-- Once a call to the Writer has failed, any call may fail that is not counted by a slot. -/
theorem Inv.fail (h : Inv g P) (hv : P.calls[i]? = some v) (h_failed : P.account.Failed)
    (h_waits : ∀ k, v.waitsOn k = false) :
    Inv g { P with calls := P.calls.set i .failed } := by
  -- a turn has a slot, and this one leaves it as it is
  obtain ⟨s, hs⟩ := h.exists_slot
  have ht : Turn g i 0 s s v .failed P { P with calls := P.calls.set i .failed } := {
    account := Evolves.refl _
    here := hs
    slots := (set_of_getElem? hs).symm
    advances := Advances.refl _ _ s
    before := hv
    calls := rfl
    sound := h.account
    slot := h.slot 0 s hs
    view := h_failed
    others := fun j _ v _ hold _ _ => id
    alone := fun _ h_some => by cases h_some
    waits := fun k' _ => (h_waits k').symm
    waiters := by rw [h_waits]; rfl
    attended := .inl h_failed }
  exact h.turn ht

/-- A slot that is stopped after a failure is as it should be. -/
theorem SlotInv.stop {A : Account} (h : SlotInv g A k s) (h_failed : A.Failed)
    (reason : PoisonReason) (buffer : Buffer) :
    SlotInv g A k { s with phase := .poisoned reason, buffer } :=
  { h with
    unpassed := fun h_live => absurd ⟨reason, rfl⟩ h_live
    phase := h_failed }

/-- A call that has failed stops a slot. -/
theorem Inv.stop (h : Inv g P) (hv : P.calls[i]? = some .failed)
    (hs : P.slots[k]? = some s) (reason : PoisonReason) (buffer : Buffer) :
    Inv g { P with
      slots := P.slots.set k { s with phase := .poisoned reason, buffer } } := by
  -- once a call to the Writer has failed, nothing is said of the phase of a slot
  have h_failed : P.account.Failed := h.call i _ hv
  have ht : Turn g i k s { s with phase := .poisoned reason, buffer } .failed .failed P { P with
      slots := P.slots.set k { s with phase := .poisoned reason, buffer } } := {
    account := Evolves.refl _
    here := hs
    slots := rfl
    advances := ⟨le_rfl, fun _ => .inl rfl⟩
    before := hv
    calls := (set_of_getElem? hv).symm
    sound := h.account
    slot := (h.slot k s hs).stop h_failed reason buffer
    view := h_failed
    others := fun j _ v _ hold _ _ h_on => h_on.steady ⟨rfl, rfl, .inr ⟨reason, rfl⟩⟩
    alone := fun _ h_some => by cases h_some
    waits := fun _ _ => rfl
    waiters := rfl
    attended := .inl h_failed }
  exact h.turn ht

end GroupCommit.Log
