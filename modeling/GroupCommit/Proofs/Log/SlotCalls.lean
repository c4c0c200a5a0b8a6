import GroupCommit.Proofs.Log.Way
import GroupCommit.Proofs.Protocol.Generations
import GroupCommit.Proofs.Protocol.Waiting

/-!
# Calls to slots

Every step of a call to a slot that a commit makes is a step of the picture: the slot goes where the
operation takes it, the view of the call changes with it, and the call goes on with a task that fits
its new view. In particular none of these steps is a fault. The steps are gone through one by one;
`At.slotStep` and `At.lateStep` put them together.

* `MoveStands`: where a move leaves its call.
* `Follows`: a step of a call to a slot, with the picture that it leads to.
* `At.slotStep`: the step of a call that is ready.
* `At.lateStep`: the step of a call whose deadline passes.
-/

namespace GroupCommit.Log

/-! ### Steps of pictures -/

/-- Where a move leaves its call. -/
def MoveStands (g : Geometry) (format : Record.Format) (start : Task) (J : Journal) (i : Nat) :
    Move Task Result → View → Prop
  | .goto task, v => Stands g format start J i (.ready task) v
  | .park condition wake late, v => Stands g format start J i (.parked condition wake late) v
  | .outside task, v => Stands g format start J i (.outside task) v
  | .finish result, v => Stands g format start J i (.finished result) v
  | .notify _ next, v => ∀ woken, MoveStands g format start J i (next woken) v

/-- A picture after a step of the call `i` on the slot `k` of which no note is taken. -/
structure Reaches (g : Geometry) (i k : Nat) (P P' : Picture) (s' : Slot) (v' : View) : Prop where
  inv : Inv g P'
  slots : P'.slots = P.slots.set k s'
  calls : P'.calls = P.calls.set i v'
  journal : P'.account.journal = P.account.journal
  allowed : P'.account.allowed = P.account.allowed

/-- A step of a call to a slot has this outcome, and the invariant is kept by it. -/
def Follows (g : Geometry) (format : Record.Format) (start : Task) (i k : Nat) (next : Next)
    (P : Picture) (o : Move Slot.Task Slot.Result × Slot) : Prop :=
  ∃ P' v', Reaches g i k P P' o.2 v' ∧
    MoveStands g format start P.account.journal i
      (o.1.embed k (.onSlot k · next) (resume g next)) v'

section Reaches

variable {g : Geometry} {format : Record.Format} {start : Task} {i k : Nat} {next : Next}
  {P P' P₁ : Picture} {s s' : Slot} {v v' : View} {o : Move Slot.Task Slot.Result × Slot}

theorem Reaches.refl (h : Inv g P) (hv : P.calls[i]? = some v) (hs : P.slots[k]? = some s) :
    Reaches g i k P P s v where
  inv := h
  slots := (set_of_getElem? hs).symm
  calls := (set_of_getElem? hv).symm
  journal := rfl
  allowed := rfl

theorem Reaches.getElem?_slots (h : Reaches g i k P P' s' v') (hs : P.slots[k]? = some s) :
    P'.slots[k]? = some s' := by
  obtain ⟨h_lt, -⟩ := List.getElem?_eq_some_iff.1 hs
  rw [h.slots, List.getElem?_set_self h_lt]

theorem Reaches.getElem?_calls (h : Reaches g i k P P' s' v') (hv : P.calls[i]? = some v) :
    P'.calls[i]? = some v' := by
  obtain ⟨h_lt, -⟩ := List.getElem?_eq_some_iff.1 hv
  rw [h.calls, List.getElem?_set_self h_lt]

/-- One part of a call's way on its slot after the other. -/
theorem Reaches.trans {s₁ : Slot} {v₁ : View} (h : Reaches g i k P P₁ s₁ v₁)
    (h' : Reaches g i k P₁ P' s' v') : Reaches g i k P P' s' v' where
  inv := h'.inv
  slots := by rw [h'.slots, h.slots, List.set_set]
  calls := by rw [h'.calls, h.calls, List.set_set]
  journal := h'.journal.trans h.journal
  allowed := h'.allowed.trans h.allowed

/-- What follows the second part follows from the beginning. -/
theorem Reaches.follows {s₁ : Slot} {v₁ : View} (h : Reaches g i k P P₁ s₁ v₁)
    (h' : Follows g format start i k next P₁ o) : Follows g format start i k next P o := by
  obtain ⟨P', v', h_reaches, h_stands⟩ := h'
  rw [h.journal] at h_stands
  exact ⟨P', v', h.trans h_reaches, h_stands⟩

/-- The step of a call that has failed. -/
theorem Inv.reaches_failed (h : Inv g P) (hv : P.calls[i]? = some v) (hs : P.slots[k]? = some s)
    (h_failed : P.account.Failed) (h_waits : ∀ k, v.waitsOn k = false) :
    ∃ P', Reaches g i k P P' s .failed :=
  ⟨_, h.fail hv h_failed h_waits, (set_of_getElem? hs).symm, rfl, rfl, rfl⟩

/-- A slot is stopped only after a failure. -/
theorem SlotInv.failed {A : Account} (h : SlotInv g A k s) (h_stopped : s.Stopped) : A.Failed := by
  obtain ⟨reason, h_phase⟩ := h_stopped
  have := h.phase
  rwa [h_phase] at this

end Reaches

variable {g : Geometry} {format : Record.Format} {start : Task} {i k : Nat} {P : Picture}
  {w : Work} {s : Slot} {p : Portion} {tk : Option Ticket} {τ : Ticket}

/-- A call that is free waits on no slot. -/
theorem Work.waitsOn_of_free (h : w.Free) (k : Nat) : (View.working w).waitsOn k = false := by
  simp [View.waitsOn, h.waits]

/-! ### A flush in hands -/

/-- A flush that is held has its bytes. -/
theorem HoldOn.bytes_ok {A : Account} {hold : Hold} (h : HoldOn g A i hold s) :
    ∃ data, hold.flush.bytes = .ok data := by
  have h_size := h.buffer.size
  have h_le := h.length_le
  exact ⟨_, by rw [Flush.bytes, if_neg (by omega)]⟩

/-- A call that has taken a flush goes on to write it. -/
theorem Inv.follows_taken (h : Inv g P) {w : Work} {f : Flush}
    (hv : P.calls[i]? = some (.working w))
    (h_hold : w.hold = some ⟨portionSlot g w.entry p, p, f, .taken⟩) (h_waits : w.waits = none)
    (h_due : Due w p tk) (h_part : w.part p = .held)
    (hs : P.slots[portionSlot g w.entry p]? = some s) :
    Follows g format start i (portionSlot g w.entry p) (.joined w.entry p tk) P
      (.finish (.ok (.joined (some f))), s) := by
  refine ⟨P, _, Reaches.refl h hv hs, ?_⟩
  obtain ⟨s₁, hs₁, h_on⟩ := h.holdOn hv h_hold
  obtain ⟨data, h_bytes⟩ := h_on.bytes_ok
  have h_bytes : f.bytes = .ok data := h_bytes
  simp only [Move.embed, resume, h_bytes]
  exact .ready (.writeSlot h_waits h_hold h_due h_part h_bytes)

/-! ### Waiting for a portion -/

/-- A call that waits for its bytes in a slot, or is about to. -/
structure Awaits (g : Geometry) (P : Picture) (i : Nat) (w : Work) (p : Portion)
    (tk : Option Ticket) (τ : Ticket) (s : Slot) : Prop where
  call : P.calls[i]? = some (.working w)
  slot : P.slots[portionSlot g w.entry p]? = some s
  hold : w.hold = none
  due : Due w p tk
  part : w.part p = .ticketed τ

section Awaits

/-- The ticket that a call looks after is one of its portion. -/
theorem Awaits.ticket (h : Awaits g P i w p tk τ s) (h_inv : Inv g P) :
    TicketOn g P.account w.entry p τ s := by
  have h_work : WorkInv g P i w := h_inv.call i _ h.call
  exact h_work.ticketOn h.due.has h.part h.slot

/-- The call before it is counted as a waiter, and after it was. -/
theorem Awaits.recount {P' : Picture} {n : Nat} {waits : Option Nat}
    (h : Awaits g P i w p tk τ s)
    (h_reaches : Reaches g i (portionSlot g w.entry p) P P' { s with waiters := n }
      (.working { w with waits })) :
    Awaits g P' i { w with waits } p tk τ { s with waiters := n } where
  call := h_reaches.getElem?_calls h.call
  slot := h_reaches.getElem?_slots h.slot
  hold := h.hold
  due := h.due.congr rfl (fun _ _ => rfl) rfl
  part := h.part

/-- A call that is counted leaves its slot. -/
theorem Awaits.leave (h : Awaits g P i w p tk τ s) (h_inv : Inv g P)
    (h_waits : w.waits = some (portionSlot g w.entry p)) :
    s.leave = (.ok (), { s with waiters := s.waiters - 1 }) ∧
      ∃ P', Reaches g i (portionSlot g w.entry p) P P' { s with waiters := s.waiters - 1 }
        (.working { w with waits := none }) := by
  have h_pos := h_inv.waiters_pos h.call h_waits h.slot
  refine ⟨?_, _, h_inv.endWait h.call h_waits h.slot, rfl, rfl, rfl, rfl⟩
  rw [Slot.leave, if_neg (by omega)]

/-- The slot has been stopped: the call is turned away. -/
theorem Awaits.follows_stopped (h : Awaits g P i w p tk τ s) (h_inv : Inv g P)
    (h_waits : w.waits = none) {reason : PoisonReason} (h_phase : s.phase = .poisoned reason) :
    Follows g format start i (portionSlot g w.entry p) (.joined w.entry p tk) P
      (.finish (.error (Slot.poisonedStop reason)), s) := by
  -- a slot is stopped only after a failure
  have h_failed := (h_inv.slot _ s h.slot).failed ⟨reason, h_phase⟩
  obtain ⟨P', h_reaches⟩ := h_inv.reaches_failed h.call h.slot h_failed
    (Work.waitsOn_of_free ⟨h.hold, h_waits⟩)
  exact ⟨P', .failed, h_reaches, .stopped (.refused _)⟩

/-- The ticket is settled: the portion is done. -/
theorem Awaits.follows_settled (h : Awaits g P i w p tk τ s) (h_inv : Inv g P)
    (h_waits : w.waits = none) (h_settles : s.Settles τ) :
    Follows g format start i (portionSlot g w.entry p) (.joined w.entry p tk) P
      (.finish (.ok (.joined none)), s) := by
  -- the portion is done, and the call goes on behind it
  refine ⟨_, .working (w.setPart p .done), ⟨h_inv.settle h.call h.due.has h.part h.slot h_settles,
    (set_of_getElem? h.slot).symm, rfl, rfl, rfl⟩, ?_⟩
  refine .ready (At.portionTask (w := w.setPart p .done) ⟨h.hold, h_waits⟩ ?_ (w.setPart_self p _))
  exact h.due.congr rfl (fun q h_ne => w.setPart_of_ne h_ne _) rfl

/-- The call has claimed a flush for its portion. -/
theorem Awaits.follows_claim (h : Awaits g P i w p tk τ s) (h_waits : w.waits = none) {s' : Slot}
    {f : Flush} (h_claim : Inv g { P with
      slots := P.slots.set (portionSlot g w.entry p) s'
      calls := P.calls.set i (.working (w.take (portionSlot g w.entry p) p f)) }) :
    Follows g format start i (portionSlot g w.entry p) (.joined w.entry p tk) P
      (.finish (.ok (.joined (some f))), s') := by
  have h_reaches : Reaches g i (portionSlot g w.entry p) P _ s' _ := ⟨h_claim, rfl, rfl, rfl, rfl⟩
  refine h_reaches.follows ?_
  refine h_claim.follows_taken (w := w.take _ p f) (h_reaches.getElem?_calls h.call) rfl h_waits ?_
    (w.setPart_self p _) (h_reaches.getElem?_slots h.slot)
  exact h.due.congr rfl (fun q h_ne => w.setPart_of_ne h_ne _) rfl

/-- The slot is full: the call takes the flush of the whole. -/
theorem Awaits.follows_full (h : Awaits g P i w p tk τ s) (h_inv : Inv g P)
    (h_waits : w.waits = none) (h_tag : τ.tag = s.tag) (h_phase : s.phase = .full) :
    Follows g format start i (portionSlot g w.entry p) (.joined w.entry p tk) P
      (.finish (.ok (.joined (some s.claimFull.1))), s.claimFull.2) :=
  h.follows_claim h_waits
    (h_inv.claimFull h.call h.due.has h.part h.hold h.slot h_tag h_phase)

/-- A call whose deadline passes takes the flush of the bytes so far. -/
theorem Awaits.follows_early (h : Awaits g P i w p tk τ s) (h_inv : Inv g P)
    (h_waits : w.waits = none) (h_tag : τ.tag = s.tag) (h_phase : s.phase = .filling)
    (h_high : 0 < s.highWater) (h_expired : P.account.allowed.deadlines = true) :
    Follows g format start i (portionSlot g w.entry p) (.joined w.entry p tk) P
      (.finish (.ok (.joined (some s.claimEarly.1))), s.claimEarly.2) :=
  h.follows_claim h_waits
    (h_inv.claimEarly h.call h.due.has h.part h.hold h.slot h_tag h_phase h_high h_expired)

/-- A call that is counted looks after its bytes. What it does when it finds nothing to do is left
open. -/
theorem Awaits.follows_pollOr (h : Awaits g P i w p tk τ s) (h_inv : Inv g P)
    (h_waits : w.waits = some (portionSlot g w.entry p))
    {wait : Slot → Move Slot.Task Slot.Result × Slot}
    (h_wait : τ.tag = s.tag → s.phase ≠ .full → Follows g format start i (portionSlot g w.entry p)
      (.joined w.entry p tk) P (wait s)) :
    Follows g format start i (portionSlot g w.entry p) (.joined w.entry p tk) P
      (s.pollOr τ wait) := by
  obtain ⟨-, P₁, h_left⟩ := h.leave h_inv h_waits
  have h_out := h.recount h_left
  have h_pos := h_inv.waiters_pos h.call h_waits h.slot
  -- whatever the call finds, it stops being counted first
  have h_leave : ∀ (s' : Slot) (r : Slot.Result), s'.waiters = s.waiters →
      s'.leaveWith r = (.finish r, { s' with waiters := s.waiters - 1 }) := by
    intro s' r h_same
    rw [Slot.leaveWith, Slot.leave, if_neg (by omega), h_same]
  rw [Slot.pollOr]
  by_cases h_stopped : s.Stopped
  · obtain ⟨reason, h_phase⟩ := h_stopped
    rw [Slot.poll_stopped h_phase]
    show Follows _ _ _ _ _ _ _ (s.leaveWith (.error (Slot.poisonedStop reason)))
    rw [h_leave s _ rfl]
    exact h_left.follows (h_out.follows_stopped h_left.inv rfl h_phase)
  · have h_le := (h.ticket h_inv).tag_le
    rw [Slot.poll_ok h_stopped h_le]
    by_cases h_settles : s.Settles τ
    · rw [if_pos h_settles]
      show Follows _ _ _ _ _ _ _ (s.leaveWith (.ok (.joined none)))
      rw [h_leave s _ rfl]
      exact h_left.follows (h_out.follows_settled h_left.inv rfl h_settles)
    · -- the ticket is not settled, so its generation is still the one of the slot
      have h_tag : τ.tag = s.tag := by
        by_contra h_ne
        exact h_settles (.inl (lt_of_le_of_ne h_le h_ne))
      rw [if_neg h_settles]
      by_cases h_full : s.phase = .full
      · rw [if_pos h_full]
        show Follows _ _ _ _ _ _ _ (s.claimFull.2.leaveWith (.ok (.joined (some s.claimFull.1))))
        rw [h_leave s.claimFull.2 _ rfl]
        exact h_left.follows (h_out.follows_full h_left.inv rfl h_tag h_full)
      · rw [if_neg h_full]
        exact h_wait h_tag h_full

/-- **Waiting.** A call that is counted takes what it finds, or parks. -/
theorem Awaits.follows_await (h : Awaits g P i w p tk τ s) (h_inv : Inv g P)
    (h_waits : w.waits = some (portionSlot g w.entry p)) :
    Follows g format start i (portionSlot g w.entry p) (.joined w.entry p tk) P (s.await τ) := by
  refine h.follows_pollOr h_inv h_waits fun _ _ => ?_
  refine ⟨P, _, Reaches.refl h_inv h.call h.slot, ?_⟩
  refine .parked (.rejoin h.hold h_waits h.due h.part) ?_
  rintro t ⟨⟩
  exact .rejoin _ _ _

/-- The call looks after its ticket for the first time. -/
theorem Awaits.follows_join (h : Awaits g P i w p tk τ s) (h_inv : Inv g P)
    (h_waits : w.waits = none) :
    Follows g format start i (portionSlot g w.entry p) (.joined w.entry p tk) P
      (Slot.run (.join τ) s) := by
  have h_counted : Reaches g i (portionSlot g w.entry p) P _ _ _ :=
    ⟨h_inv.beginWait h.call h_waits h.slot, rfl, rfl, rfl, rfl⟩
  exact h_counted.follows ((h.recount h_counted).follows_await h_counted.inv rfl)

/-- **Giving up.** At its deadline a call takes the early flush of a slot that is being filled. -/
theorem Awaits.follows_joinLate (h : Awaits g P i w p tk τ s) (h_inv : Inv g P)
    (h_waits : w.waits = some (portionSlot g w.entry p))
    (h_expired : P.account.allowed.deadlines = true) :
    Follows g format start i (portionSlot g w.entry p) (.joined w.entry p tk) P
      (Slot.run (.joinLate τ) s) := by
  refine h.follows_pollOr h_inv h_waits fun h_tag _ => ?_
  obtain ⟨h_leave, P₁, h_left⟩ := h.leave h_inv h_waits
  have h_out := h.recount h_left
  have h_high : 0 < s.highWater := h_inv.highWater_pos h.call h.due.has h.part h.slot h_tag
  rw [Slot.giveUp, h_leave]
  refine h_left.follows ?_
  simp only [Slot.claimAtDeadline]
  -- a slot that is being written is left alone, and the call joins anew
  by_cases h_phase : s.phase = .filling
  · rw [if_pos h_phase, if_neg (by omega)]
    exact h_out.follows_early h_left.inv rfl h_tag h_phase h_high (h_left.allowed ▸ h_expired)
  · rw [if_neg h_phase]
    refine ⟨P₁, _, Reaches.refl h_left.inv h_out.call h_out.slot, ?_⟩
    exact .ready (.join ⟨h_out.hold, rfl⟩ h_out.due h_out.part)

end Awaits

/-! ### Copying a portion in -/

/-- The bytes have completed the slot. -/
theorem copied_full {offset : Nat} {data : Bytes} (h : s.dirty + data.length = s.capacity) :
    copied s offset data = { s.filledWith offset data with phase := .full } := by
  rw [copied, if_pos h]

/-- The bytes have left room in the slot. -/
theorem copied_filling {offset : Nat} {data : Bytes} (h : s.dirty + data.length ≠ s.capacity)
    (h_phase : s.phase = .filling) : copied s offset data = s.filledWith offset data := by
  rw [copied, if_neg h, ← h_phase]
  rfl

/-- A call with a portion that is to do, and the slot that the portion goes into. -/
structure Copies (g : Geometry) (P : Picture) (i : Nat) (w : Work) (p : Portion) (s : Slot) :
    Prop where
  call : P.calls[i]? = some (.working w)
  slot : P.slots[portionSlot g w.entry p]? = some s
  free : w.Free
  has : Has w.entry p
  part : w.part p = .todo

section Copies

variable {next : Next}

/-- The slot has not passed the generation of a portion that is to do. -/
theorem Copies.tag_le (h : Copies g P i w p s) (h_inv : Inv g P) :
    s.tag ≤ portionTag w.entry p := by
  have h_work : WorkInv g P i w := h_inv.call i _ h.call
  have h_slot := h_inv.slot _ s h.slot
  have h_todo : PartInv g P w.entry w.hold p .todo := h.part ▸ h_work.part p h.has
  obtain ⟨record, -, h_cut⟩ := h_work.cut
  have h_portion := h_cut.portion p h.has
  have h_first := h_portion.first_mem
  have h_in := h_portion.inBlock h_first
  -- a slot that had passed the block would have its bytes durable or skipped
  by_contra h_lt
  have h_le := Geometry.tag_separate h_portion.tag_dvd h_slot.tag_dvd (Nat.not_le.1 h_lt)
  have h_past : regionStart w.entry p < s.tag := h_in.2.trans_le h_le
  rcases h_slot.closed _ h_past (h_in.index_eq h_portion.tag_dvd) with h_bypassed | h_durable
  · exact h_todo _ h_first (.inr h_bypassed)
  · exact h_todo _ h_first h_durable.1

/-- The slot has been stopped before the bytes could be copied. -/
theorem Copies.follows_stopped (h : Copies g P i w p s) (h_inv : Inv g P) {reason : PoisonReason}
    (h_phase : s.phase = .poisoned reason)
    (h_next : ∀ stop, resume g next (.error stop) = .finish (.error stop)) :
    Follows g format start i (portionSlot g w.entry p) next P
      (.finish (.error (Slot.poisonedStop reason)), s) := by
  have h_failed := (h_inv.slot _ s h.slot).failed ⟨reason, h_phase⟩
  obtain ⟨P', h_reaches⟩ := h_inv.reaches_failed h.call h.slot h_failed (Work.waitsOn_of_free h.free)
  refine ⟨P', .failed, h_reaches, ?_⟩
  rw [Move.embed, h_next]
  exact .stopped (.refused _)

/-- A call goes on once its slot has reached the generation of its portion. -/
theorem Copies.follows_whenAccepted (h : Copies g P i w p s) (h_inv : Inv g P)
    (h_next : ∀ stop, resume g next (.error stop) = .finish (.error stop)) {task : Slot.Task}
    (h_at : At g format start (.onSlot (portionSlot g w.entry p) task next) (.working w))
    {o : Move Slot.Task Slot.Result × Slot}
    (h_go : s.tag = portionTag w.entry p → s.phase = .filling →
      Follows g format start i (portionSlot g w.entry p) next P o) :
    Follows g format start i (portionSlot g w.entry p) next P
      (s.whenAccepted (portionTag w.entry p) task o) := by
  rw [Slot.whenAccepted]
  by_cases h_stopped : s.Stopped
  · obtain ⟨reason, h_phase⟩ := h_stopped
    rw [Slot.accepts_stopped h_phase]
    exact h.follows_stopped h_inv h_phase h_next
  · rw [Slot.accepts_ok h_stopped (h.tag_le h_inv)]
    -- the slot is open at the generation, or the call parks and asks again
    by_cases h_now : s.tag = portionTag w.entry p ∧ s.phase = .filling
    · rw [decide_eq_true h_now]
      exact h_go h_now.1 h_now.2
    · rw [decide_eq_false h_now]
      refine ⟨P, _, Reaches.refl h_inv h.call h.slot, ?_⟩
      exact .parked h_at (by rintro t ⟨⟩)

/-- The picture after a portion was copied in. -/
theorem Copies.fill (h : Copies g P i w p s) (h_inv : Inv g P)
    (h_tag : s.tag = portionTag w.entry p) (h_phase : s.phase = .filling) :
    s.copyIn (portionOffset w.entry p) (portionBytes w.entry p) =
        (.ok (ticketFor s w.entry p),
          s.filledWith (portionOffset w.entry p) (portionBytes w.entry p)) ∧
      ∃ P', Reaches g i (portionSlot g w.entry p) P P'
        (copied s (portionOffset w.entry p) (portionBytes w.entry p))
        (.working (w.setPart p (.ticketed (ticketFor s w.entry p)))) := by
  have h_work : WorkInv g P i w := h_inv.call i _ h.call
  have h_slot := h_inv.slot _ s h.slot
  have h_fill := h_work.fillable h_inv.account h.has h.part h_tag
  obtain ⟨h_dirty, -⟩ := h_slot.fill h_fill h_phase
  obtain ⟨-, h_mirrors, -⟩ : PhaseInv g P.account s .filling := h_phase ▸ h_slot.phase
  -- the checks of the copy pass: the portion fits, and the count stays within the capacity
  have h_limit : g.capacity < Word.limit := by
    have : P.account.content.length + g.capacity * g.ringSize < Word.limit :=
      h_inv.account.layout.room
    have := Nat.le_mul_of_pos_right g.capacity g.ringSize_pos
    omega
  refine ⟨?_, _, h_inv.fill h.call h.has h.part h.slot h_phase h_tag, rfl, rfl, rfl, rfl⟩
  refine Slot.copyIn_ok ?_ ?_ ?_ ?_ <;> rw [h_slot.capacity_eq]
  · exact h_limit
  · exact h_fill.fits
  · exact h_mirrors.size
  · exact h_dirty

/-- Once its bytes are in, the call looks after the ticket. -/
theorem Copies.awaits {P' : Picture} {s' : Slot} (h : Copies g P i w p s) (h_due : Due w p tk)
    (h_reaches : Reaches g i (portionSlot g w.entry p) P P' s'
      (.working (w.setPart p (.ticketed τ)))) :
    Awaits g P' i (w.setPart p (.ticketed τ)) p tk τ s' where
  call := h_reaches.getElem?_calls h.call
  slot := h_reaches.getElem?_slots h.slot
  hold := h.free.hold
  due := h_due.congr rfl (fun _ h_ne => w.setPart_of_ne h_ne _) rfl
  part := w.setPart_self p _

/-- **Copying a portion in.** What the call does next depends on whether it completes the slot. -/
theorem Copies.follows_copyThen (h : Copies g P i w p s) (h_inv : Inv g P)
    (h_tag : s.tag = portionTag w.entry p) (h_phase : s.phase = .filling)
    {completing other : Ticket → Slot → Move Slot.Task Slot.Result × Slot}
    (h_completing : ∀ P', Reaches g i (portionSlot g w.entry p) P P'
        { s.filledWith (portionOffset w.entry p) (portionBytes w.entry p) with phase := .full }
        (.working (w.setPart p (.ticketed (ticketFor s w.entry p)))) →
      Follows g format start i (portionSlot g w.entry p) next P'
        (completing (ticketFor s w.entry p)
          (s.filledWith (portionOffset w.entry p) (portionBytes w.entry p))))
    (h_other : ∀ P', Reaches g i (portionSlot g w.entry p) P P'
        (s.filledWith (portionOffset w.entry p) (portionBytes w.entry p))
        (.working (w.setPart p (.ticketed (ticketFor s w.entry p)))) →
      Follows g format start i (portionSlot g w.entry p) next P'
        (other (ticketFor s w.entry p)
          (s.filledWith (portionOffset w.entry p) (portionBytes w.entry p)))) :
    Follows g format start i (portionSlot g w.entry p) next P
      (s.copyThen (portionOffset w.entry p) (portionBytes w.entry p) completing other) := by
  obtain ⟨h_copy, P', h_reaches⟩ := h.fill h_inv h_tag h_phase
  rw [Slot.copyThen, h_copy]
  simp only
  -- the slot of the picture takes the same bytes; it is full if they complete it, and still open otherwise
  split
  · next h_full =>
    have h_reaches := copied_full h_full ▸ h_reaches
    exact h_reaches.follows (h_completing P' h_reaches)
  · next h_open =>
    have h_reaches := copied_filling h_open h_phase ▸ h_reaches
    exact h_reaches.follows (h_other P' h_reaches)

/-- **Copying a portion in and waiting.** -/
theorem Copies.follows_fillJoin (h : Copies g P i w p s) (h_inv : Inv g P) (h_due : Due w p tk) :
    Follows g format start i (portionSlot g w.entry p) (.joined w.entry p tk) P
      (Slot.run (.fillJoin (portionTag w.entry p) (portionOffset w.entry p)
        (portionBytes w.entry p)) s) := by
  refine h.follows_whenAccepted h_inv (fun _ => rfl) (.fillJoin h.free h_due h.part) ?_
  intro h_tag h_phase
  refine h.follows_copyThen h_inv h_tag h_phase ?_ ?_
  · -- the call that completes the slot takes its flush
    intro P' h_reaches
    exact (h.awaits h_due h_reaches).follows_full h_reaches.inv h.free.waits rfl rfl
  · intro P' h_reaches
    have h_awaits := h.awaits h_due h_reaches
    refine ⟨P', _, Reaches.refl h_reaches.inv h_awaits.call h_awaits.slot, ?_⟩
    exact .ready (At.join (w := w.setPart p _) ⟨h.free.hold, h.free.waits⟩ h_awaits.due h_awaits.part)

/-- The call waits for the generation of its portion. -/
theorem Copies.follows_acquire (h : Copies g P i w p s) (h_inv : Inv g P) (h_due : Due w p tk) :
    Follows g format start i (portionSlot g w.entry p) (.acquired w.entry p tk) P
      (Slot.run (.acquire (portionTag w.entry p)) s) := by
  refine h.follows_whenAccepted h_inv (fun _ => rfl) (.acquire h.free h_due h.part) ?_
  intro h_tag h_phase
  exact ⟨P, _, Reaches.refl h_inv h.call h.slot, .ready (.fillJoin h.free h_due h.part)⟩

/-! ### Filling a tail ahead of its turn -/

variable {afterHead : Bool}

/-- The call offers its tail to the slot ahead of its turn. -/
theorem Copies.follows_tryAcquire (h : Copies g P i w .tail s) (h_inv : Inv g P)
    (h_offer : Offer w afterHead) :
    Follows g format start i (portionSlot g w.entry .tail) (.tailOffered w.entry afterHead) P
      (Slot.run (.tryAcquire w.entry.span.tailTag) s) := by
  rw [Slot.run]
  by_cases h_stopped : s.Stopped
  · obtain ⟨reason, h_phase⟩ := h_stopped
    rw [Slot.accepts_stopped h_phase]
    exact h.follows_stopped h_inv h_phase fun _ => rfl
  · have h_le : s.tag ≤ w.entry.span.tailTag := h.tag_le h_inv
    rw [Slot.accepts_ok h_stopped h_le]
    refine ⟨P, _, Reaches.refl h_inv h.call h.slot, ?_⟩
    by_cases h_now : s.tag = w.entry.span.tailTag ∧ s.phase = .filling
    · -- the slot is open for the tail
      rw [decide_eq_true h_now]
      exact .ready (.fillTail h_offer h.part)
    · rw [decide_eq_false h_now]
      exact .ready (.afterOfferTask h_offer h.part)

/-- The tail may be done or not while the call is busy with it. -/
theorem Offer.setTail (h : Offer w afterHead) (x : Part) : Offer (w.setPart .tail x) afterHead where
  free := ⟨h.free.hold, h.free.waits⟩
  has := h.has
  head := fun h_has => (w.setPart_of_ne (by decide) x).trans (h.head h_has)
  middle := h.middle

/-- The call fills in its tail. -/
theorem Copies.follows_fill (h : Copies g P i w .tail s) (h_inv : Inv g P)
    (h_offer : Offer w afterHead) :
    Follows g format start i (portionSlot g w.entry .tail) (.tailFilled w.entry afterHead) P
      (Slot.run (.fill w.entry.span.tailTag 0 w.entry.tail) s) := by
  refine h.follows_whenAccepted h_inv (fun _ => rfl) (.fillTail h_offer h.part) ?_
  intro h_tag h_phase
  refine h.follows_copyThen h_inv h_tag h_phase ?_ ?_
  · -- a fill that completes the slot wakes the others first
    intro P' h_reaches
    refine ⟨P', _, Reaches.refl h_reaches.inv (h_reaches.getElem?_calls h.call)
      (h_reaches.getElem?_slots h.slot), ?_⟩
    exact .ready (.filledTail (h_offer.setTail _) (w.setPart_self _ _))
  · intro P' h_reaches
    refine ⟨P', _, Reaches.refl h_reaches.inv (h_reaches.getElem?_calls h.call)
      (h_reaches.getElem?_slots h.slot), ?_⟩
    have h_tail : (w.setPart .tail (.ticketed (ticketFor s w.entry .tail))).part .tail =
        tailPart (some (ticketFor s w.entry .tail)) := w.setPart_self _ _
    exact .ready (At.afterOfferTask (h_offer.setTail _) h_tail)

end Copies

/-! ### Skipping a block of the middle -/

theorem Inv.slot_lt (h : Inv g P) (hs : P.slots[k]? = some s) : k < g.ringSize := by
  obtain ⟨h_lt, -⟩ := List.getElem?_eq_some_iff.1 hs
  exact h.ring ▸ h_lt

/-- The call skips a generation of its middle. -/
theorem Inv.follows_skip (h : Inv g P) (hv : P.calls[i]? = some (.working w)) {n : Nat}
    (h_past : PastHead w tk) (h_middle : w.middle = .todo n)
    (hn : n < w.entry.middle.generationCount w.entry.span.capacity) {tag : Nat}
    (h_gen : w.entry.middle.generation w.entry.span.capacity n = tag)
    (hs : P.slots[g.index tag]? = some s) :
    Follows g format start i (g.index tag) (.skipped w.entry n tk) P (Slot.run (.skip tag) s) := by
  obtain ⟨s', h_eq, h_inv⟩ := h.skip hv h_middle hn h_gen hs
  rw [Slot.run, h_eq]
  refine ⟨_, _, ⟨h_inv, rfl, rfl, rfl, rfl⟩, ?_⟩
  refine .ready (At.skipped (w := { w with middle := .todo (n + 1) }) ?_ (h.slot_lt hs) rfl hn)
  exact ⟨⟨h_past.free.hold, h_past.free.waits⟩, h_past.spanning, h_past.head, h_past.tail⟩

/-! ### Handing a flush back -/

/-- **Handing back.** A flush that is written goes back to its slot, unless that was stopped. -/
theorem Inv.follows_release (h : Inv g P) (hv : P.calls[i]? = some (.working w)) {f : Flush}
    (h_waits : w.waits = none) (h_hold : w.hold = some ⟨portionSlot g w.entry p, p, f, .written⟩)
    (h_due : Due w p tk) (h_part : w.part p = .held)
    (hs : P.slots[portionSlot g w.entry p]? = some s) :
    Follows g format start i (portionSlot g w.entry p) (.handedBack w.entry p tk) P
      (Slot.run (.release f) s) := by
  have h_on := h.holdOn_slot hv h_hold hs
  have h_slot := h.slot _ s hs
  have h_tag : f.tag = s.tag := h_on.tag_eq
  have h_given : At g format start (.onSlot (portionSlot g w.entry p) (.announce (.ok .done))
      (.handedBack w.entry p tk)) (.working (w.give p)) := by
    refine At.released (w := w.give p) ⟨rfl, h_waits⟩ ?_ (w.setPart_self p _)
    exact h_due.congr rfl (fun _ h_ne => w.setPart_of_ne h_ne _) rfl
  rcases h_on.phase with h_phase | ⟨reason, h_phase⟩
  · cases h_kind : f.kind with
    | full =>
      have h_phase : s.phase = .flushing := by rw [h_phase, h_kind]; rfl
      -- some byte of the block is reserved, so there is room for the slot to move on
      have h_block : g.InBlock s.tag s.tag := Geometry.inBlock_self _
      have h_dirty : PhaseInv g P.account s .flushing := h_phase ▸ h_slot.phase
      have h_lt := h.account.filled_lt _ (h_slot.full_block h_dirty h_block)
      obtain ⟨tag, skipped, h_advance, h_passes⟩ :=
        h_slot.advance h.account h_on.buffer.size (Nat.le_of_lt h_lt)
      have h_retired := h_slot.retire h.account h_on rfl h_phase h_passes
      rw [Slot.run, Slot.handBack_full h_tag h_kind h_phase h_advance]
      exact ⟨_, _, ⟨h.release hv h_due.has h_part h_hold rfl hs h_retired
        (renewed_advances h_passes _) rfl rfl, rfl, rfl, rfl, rfl⟩, .ready h_given⟩
    | early =>
      have h_phase : s.phase = .reserving := by rw [h_phase, h_kind]; rfl
      -- the slot is opened again, and its early flush settles the tickets it covers
      obtain ⟨h_reopened, h_advances⟩ := h_slot.reopen h_on h_kind rfl h_phase
      rw [Slot.run, Slot.handBack_early h_tag h_kind h_phase]
      exact ⟨_, _, ⟨h.release hv h_due.has h_part h_hold rfl hs h_reopened h_advances rfl rfl,
        rfl, rfl, rfl, rfl⟩, .ready h_given⟩
  · -- the slot was stopped meanwhile: it takes the buffer back, and the call has failed
    have h_failed := h_slot.failed ⟨reason, h_phase⟩
    obtain ⟨P₁, h_over⟩ := h.reaches_failed hv hs h_failed fun k => by simp [View.waitsOn, h_waits]
    have h_stop := h_over.inv.stop (h_over.getElem?_calls hv) (h_over.getElem?_slots hs) reason f.buffer
    rw [← h_phase] at h_stop
    rw [Slot.run, Slot.handBack_stopped h_tag h_phase]
    refine h_over.follows ⟨_, .failed, ⟨h_stop, rfl, ?_, rfl, rfl⟩, ?_⟩
    · exact (set_of_getElem? (h_over.getElem?_calls hv)).symm
    · exact .ready (.failing (.handedBack (h.slot_lt hs) reason w.entry p tk))

/-! ### Failure -/

/-- A call that has failed stops the slot. -/
theorem Inv.reaches_stop (h : Inv g P) (hv : P.calls[i]? = some .failed) (hs : P.slots[k]? = some s)
    (reason : PoisonReason) (buffer : Buffer) :
    ∃ P', Reaches g i k P P' (({ s with buffer } : Slot).poisonWith reason) .failed :=
  ⟨_, h.stop hv hs _ buffer, rfl, (set_of_getElem? hv).symm, rfl, rfl⟩

/-- A call that has failed makes its steps on the slots. -/
theorem Failing.slotStep {task : Slot.Task} {next : Next} (h_at : Failing g (.onSlot k task next))
    (h : Inv g P) (hv : P.calls[i]? = some .failed) (hs : P.slots[k]? = some s) :
    Follows g format start i k next P (Slot.run task s) := by
  have h_same : Reaches g i k P P s .failed := Reaches.refl h hv hs
  cases h_at with
  | abandon hk flush reason error =>
    obtain ⟨P', h_reaches⟩ := h.reaches_stop hv hs reason flush.buffer
    exact ⟨P', .failed, h_reaches, .ready (.failing (.abandoned hk reason error))⟩
  | poisonSlot hk reason h_result =>
    obtain ⟨P', h_reaches⟩ := h.reaches_stop hv hs reason s.buffer
    exact ⟨P', .failed, h_reaches, .ready (.failing (.poisonedSlot hk reason h_result))⟩
  | abandoned hk reason error =>
    exact ⟨P, .failed, h_same, fun _ => .ready (.failing (.poison reason (.refused _)))⟩
  | poisonedSlot hk reason h_result =>
    refine ⟨P, .failed, h_same, fun _ => ?_⟩
    -- the slots are stopped one after another, and then the call returns
    simp only [Move.embed, resume, poisonFrom]
    split
    · next h_more => exact .ready (.failing (.poisonSlot h_more reason h_result))
    · exact .stopped h_result
  | handedBack hk reason e p tk => exact ⟨P, .failed, h_same, fun _ => .stopped (.refused _)⟩

/-! ### All steps -/

/-- **The step of a ready call to a slot.** -/
theorem At.slotStep {task : Slot.Task} {next : Next} {v : View}
    (h_at : At g format start (.onSlot k task next) v) (h : Inv g P) (hv : P.calls[i]? = some v)
    (hs : P.slots[k]? = some s) : Follows g format start i k next P (Slot.run task s) := by
  -- one case for each place on the way
  cases h_at with
  | acquire h_free h_due h_part =>
    exact Copies.follows_acquire ⟨hv, hs, h_free, h_due.has, h_part⟩ h h_due
  | fillJoin h_free h_due h_part =>
    exact Copies.follows_fillJoin ⟨hv, hs, h_free, h_due.has, h_part⟩ h h_due
  | join h_free h_due h_part =>
    exact Awaits.follows_join ⟨hv, hs, h_free.hold, h_due, h_part⟩ h h_free.waits
  | rejoin h_hold h_waits h_due h_part =>
    exact Awaits.follows_await ⟨hv, hs, h_hold, h_due, h_part⟩ h h_waits
  | offer h_offer h_part =>
    exact Copies.follows_tryAcquire ⟨hv, hs, h_offer.free, h_offer.has, h_part⟩ h h_offer
  | fillTail h_offer h_part =>
    exact Copies.follows_fill ⟨hv, hs, h_offer.free, h_offer.has, h_part⟩ h h_offer
  | filledTail h_offer h_part =>
    exact ⟨P, _, Reaches.refl h hv hs, fun _ => .ready (At.afterOfferTask h_offer h_part)⟩
  | skip h_past h_middle hn => exact h.follows_skip hv h_past h_middle hn rfl hs
  | skipped h_past hk h_middle hn =>
    exact ⟨P, _, Reaches.refl h hv hs, fun _ => .ready (At.skipOrWriteTask h_past h_middle hn)⟩
  | release h_waits h_hold h_due h_part => exact h.follows_release hv h_waits h_hold h_due h_part hs
  | released h_free h_due h_part =>
    exact ⟨P, _, Reaches.refl h hv hs, fun _ => .ready (At.portionTask h_free h_due h_part)⟩
  | failing h_failing => exact h_failing.slotStep h hv hs

/-- **The step of a call to a slot at its deadline.** -/
theorem At.lateStep {task task' : Slot.Task} {next next' : Next} {k' : Nat} {v : View}
    (h_at : At g format start (.onSlot k task next) v)
    (h_late : Deadline (.onSlot k task next) (.onSlot k' task' next')) (h : Inv g P)
    (hv : P.calls[i]? = some v) (hs : P.slots[k']? = some s)
    (h_expired : P.account.allowed.deadlines = true) :
    Follows g format start i k' next' P (Slot.run task' s) := by
  cases h_late with
  | rejoin k τ next =>
    -- a call that has failed has no deadline
    cases h_at with
    | rejoin h_hold h_waits h_due h_part =>
      exact Awaits.follows_joinLate ⟨hv, hs, h_hold, h_due, h_part⟩ h h_waits h_expired
    | failing h_failing => cases h_failing

end GroupCommit.Log
