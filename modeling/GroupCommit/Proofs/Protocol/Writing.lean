import GroupCommit.Proofs.Protocol.Generations

/-!
# Calls to the Writer

A flush is written by the call that has it, and the middle of a record by the call that reserved it.
The slot of a flush is closed while the call is in flight, so what is written to filled addresses is
what is filled, and what is written to the others, to addresses that nobody relies on. A call that
does not succeed ends the commit.

* `Inv.startFlush`, `Inv.flushWritten`, `Inv.flushFailed`: writing a flush.
* `Inv.startDirect`, `Inv.directWritten`, `Inv.directFailed`: writing a middle.
-/

namespace GroupCommit.Log

variable {g : Geometry} {i k : Nat} {A : Account} {calls : Nat} {s : Slot} {w : Work} {P : Picture}

/-- A note leaves a slot as it is, if the phase of the slot allows for it. -/
theorem SlotInv.note {n : Note} (h : SlotInv g A k s) (hev : Evolves g i k (A) (A.note n))
    (h_phase : PhaseInv g (A.note n) s s.phase) : SlotInv g (A.note n) k s :=
  { h with
    closed := fun a ha h_index => (h.closed a ha h_index).imp_right (hev.durable a)
    phase := h_phase }

/-- The phase of a slot whose flush is out does not depend on what was written. -/
theorem HoldOn.phaseInv {A' : Account} {hold : Hold} (h : HoldOn g A i hold s)
    (h_phase : PhaseInv g A s s.phase) (h_failed : A.Failed → A'.Failed) :
    PhaseInv g A' s s.phase := by
  -- the phase is that of the flush, unless the slot was stopped
  rcases h.phase with h_busy | ⟨reason, h_stopped⟩
  · rw [h_busy] at h_phase ⊢
    cases h_kind : hold.flush.kind <;> rw [h_kind] at h_phase <;> exact h_phase
  · rw [h_stopped] at h_phase ⊢
    exact h_failed h_phase

/-- A call that keeps its flush goes to the next stage with all that held of the flush before. -/
theorem HoldOn.restage {n : Note} {hold : Hold} {stage : Stage} (h : HoldOn g A i hold s)
    (hev : Evolves g i k A (A.note n)) (h_stage : StageInv g (A.note n) i hold.flush stage) :
    HoldOn g (A.note n) i { hold with stage } s :=
  { h with
    early := fun h_early => (h.early h_early).imp_right hev.expired
    buffer :=
      { h.buffer with
        filled := fun j hj h_mem =>
          (h.buffer.filled j hj h_mem).trans (hev.read _ (.inl h_mem)).symm }
    stage := h_stage }

/-! ### Flushes -/

/-- The call to the Writer that a flush is for. -/
def flushWrite (i : Nat) (f : Flush) (data : Bytes) (hint : Int32) : Write :=
  ⟨i, .slot f.kind, f.tag, data, hint⟩

/-- The bytes that a flush gives to the writer are the first of its buffer. -/
theorem flush_bytes_ok {f : Flush} {data : Bytes} (h : f.bytes = .ok data) :
    data = f.buffer.first f.length ∧ f.length ≤ f.buffer.size := by
  rw [Flush.bytes] at h
  split at h
  · cases h
  · exact ⟨(Except.ok.inj h).symm, by omega⟩

/-- What a flush writes to filled addresses is what is filled. -/
theorem HoldOn.faithful {hold : Hold} (h : HoldOn g A i hold s) (h_sound : A.Sound g calls)
    (h_dvd : g.capacity ∣ s.tag) {wr : Write} (h_address : wr.address = hold.flush.tag)
    (h_bytes : hold.flush.bytes = .ok wr.data) : Account.Faithful g A wr := by
  obtain ⟨h_data, -⟩ := flush_bytes_ok h_bytes
  rintro a h_placed ⟨h₁, h₂⟩
  have h_length : wr.data.length = hold.flush.length := by rw [h_data, Buffer.length_first]
  have h_le := h.length_le
  rw [h_address, h.tag_eq] at h₁ ⊢
  rw [Write.stop, h_address, h.tag_eq, h_length] at h₂
  have h_in : g.InBlock s.tag a := ⟨h₁, by omega⟩
  -- an address of the block is placed by being filled
  have h_filled : a ∈ A.filled := by
    refine h_placed.resolve_right ?_
    rintro ⟨t, h_mem, h_in'⟩
    -- a block with a filled address is not skipped
    obtain ⟨a₀, h_mem₀, h_in₀, -⟩ := h.filled
    obtain rfl := h_in.unique h_in' h_dvd (h_sound.bypassed_dvd t h_mem)
    exact h_sound.filled_apart a₀ h_mem₀ ⟨s.tag, h_mem, h_in₀⟩
  have h_eq : s.tag + (a - s.tag) = a := by omega
  rw [h_data, Buffer.read_first _ (by omega),
    h.buffer.filled (a - s.tag) (by omega) (h_eq.symm ▸ h_filled), h_eq]

/-- The work of a call whose flush has come further. -/
def Work.stage (w : Work) (hold : Hold) (stage : Stage) : Work :=
  { w with hold := some { hold with stage } }

/-- A note on the flush that the call has in hands. -/
theorem Inv.flushTurn (h : Inv g P) (hv : P.calls[i]? = some (.working w)) {hold : Hold}
    (h_hold : w.hold = some hold) (hs : P.slots[hold.slot]? = some s)
    (h_on : HoldOn g P.account i hold s) {n : Note} (h_call : n.call = i)
    (h_concerns : ∀ t, n.Concerns t → t = hold.flush.tag)
    (h_data : ∀ wr outcome, n = .returned wr outcome → Account.Faithful g P.account wr)
    (h_sound : (P.account.note n).Sound g P.calls.length) {stage : Stage}
    (h_direct : ∀ wr, n = .started wr → wr.source ≠ .direct)
    (h_stage : Evolves g i hold.slot P.account (P.account.note n) →
      StageInv g (P.account.note n) i hold.flush stage) :
    Inv g { P with
      account := P.account.note n
      calls := P.calls.set i (.working (w.stage hold stage)) } := by
  have h_work : WorkInv g P i w := h.call i _ hv
  have h_slot := h.slot _ s hs
  -- the note is about the generation of the slot, so all other slots are left alone
  have hev : Evolves g i hold.slot P.account (P.account.note n) := by
    refine Evolves.note h.account h_call ?_ h_data
    intro t ht
    rw [h_concerns t ht, h_on.tag_eq, h_slot.tag_index]
  have h_touches : Touches g i hold.slot s s P { P with
      account := P.account.note n
      calls := P.calls.set i (.working (w.stage hold stage)) } :=
    ⟨hev, hs, (set_of_getElem? hs).symm, Advances.refl _ _ s⟩
  have h_tickets : ∀ τ, View.HasTicket (.working w) τ →
      View.HasTicket (.working (w.stage hold stage)) τ := fun _ h_has => h_has.congr rfl rfl
  have h_holds : ∀ hold₁, (View.working w).hold? = some hold₁ →
      ∃ h', (View.working (w.stage hold stage)).hold? = some h' ∧ h'.slot = hold₁.slot := by
    intro hold₁ h_some
    obtain rfl : hold = hold₁ := Option.some.inj (h_hold.symm.trans h_some)
    exact ⟨_, rfl, rfl⟩
  -- the slot itself does not move, only the stage of its flush
  refine h.turn { h_touches with
    before := hv
    calls := rfl
    sound := h_sound
    slot := h_slot.note hev (h_on.phaseInv h_slot.phase hev.failed)
    view := ?_
    others := ?_
    alone := ?_
    waits := fun _ _ => rfl
    waiters := rfl
    attended := ?_ }
  · refine h_touches.own h_work rfl ?_ ?_ ?_
    · refine fun q _ => .inl ⟨rfl, fun _ _ => id, ?_⟩
      rintro hold₁ h_some -
      obtain rfl : hold = hold₁ := Option.some.inj (h_hold.symm.trans h_some)
      exact ⟨_, rfl, rfl, rfl, rfl⟩
    · refine h_touches.middle (fun _ _ _ => id) ?_ h_work.middle
      intro wr h_started h_source
      -- the direct write of the call is not touched, as the note begins none
      rcases List.mem_append.1 h_started with h_old | h_new
      · exact .inl h_old
      · exact absurd h_source (h_direct wr (List.mem_singleton.1 h_new).symm)
    · rintro hold₁ ⟨⟩
      exact ⟨s, h_touches.here', h_on.restage hev (h_stage hev)⟩
  · -- no other call has a flush of this slot
    intro j hj v hv' hold₁ h_some h_eq _
    exact absurd (h.alone j i _ _ _ _ hv' hv h_some h_hold h_eq) hj
  · rintro hold₁ ⟨⟩
    exact .inl ⟨hold, h_hold, rfl⟩
  · -- tickets and holds are those from before, and so is whoever attends to the slot
    have h_here : P.account.Failed ∨
        Attended (P.calls.set i (.working (w.stage hold stage))) hold.slot s :=
      h.attended_same hv hs rfl rfl rfl (fun τ h_has _ => h_tickets τ h_has) h_holds
    exact h_here.imp hev.failed fun h_here =>
      ⟨h_here, fun τ h_has _ => h_tickets τ h_has, fun hold₁ h_some _ => h_holds hold₁ h_some⟩

/-- **A flush that was taken is handed to the Writer.** -/
theorem Inv.startFlush (h : Inv g P) (hv : P.calls[i]? = some (.working w)) {hold : Hold}
    (h_hold : w.hold = some hold) (h_stage : hold.stage = .taken) {data : Bytes}
    (h_bytes : hold.flush.bytes = .ok data) (hint : Int32) :
    Inv g { P with
      account := P.account.note (.started (flushWrite i hold.flush data hint))
      calls := P.calls.set i (.working
        (w.stage hold (.inFlight (flushWrite i hold.flush data hint)))) } := by
  have h_work : WorkInv g P i w := h.call i _ hv
  obtain ⟨s, hs, h_on⟩ := h_work.hold hold h_hold
  have h_slot := h.slot _ s hs
  obtain ⟨m, h_m, h_calm⟩ : StageInv g P.account i hold.flush .taken := h_stage ▸ h_on.stage
  obtain ⟨h_data, -⟩ := flush_bytes_ok h_bytes
  have h_length : data.length = hold.flush.length := by rw [h_data, Buffer.length_first]
  set wr := flushWrite i hold.flush data hint with hwr
  have h_address : wr.address = s.tag := h_on.tag_eq
  have h_fits : wr.Fits g.capacity m := by
    refine ⟨h_length ▸ h_m, h_length ▸ h_on.length_le, fun h_full => ?_⟩
    change Source.slot hold.flush.kind = _ at h_full
    exact h_length.trans (h_on.full (Source.slot.inj h_full))
  -- the flushes before have all succeeded and were no longer, so this one may follow
  have h_busy : (P.account.journal.flow g.capacity hold.flush.tag).next g.capacity (.started wr) =
      .busy wr := by
    rw [h_calm, Flow.next, if_pos h_fits]
  have h_flush : wr.IsFlush := Write.isFlush_of_source rfl
  -- what remains is that the account stays sound and that the new stage is right
  refine h.flushTurn (n := .started wr) hv h_hold hs h_on rfl ?_ (fun _ _ h_eq => by cases h_eq) ?_ ?_ ?_
  · exact fun t h_concerns => h_concerns.2.symm
  · refine h.account.note_flush h_flush ?_ ?_ h_fits.le_capacity ?_ ?_
    · rw [show wr.address = hold.flush.tag from rfl, h_busy]
      exact fun h_eq => by cases h_eq
    · rw [h_address]
      exact h_slot.tag_dvd
    · rw [h_address, show wr.data.length = _ from h_length]
      exact h_on.filled
    · intro h_early
      exact (h_on.early (Source.slot.inj h_early)).2
  · -- a flush is not a direct write
    rintro _ ⟨⟩ h_taken
    cases h_taken
  · intro _
    refine ⟨?_, rfl, rfl, rfl, h_bytes⟩
    exact (Account.flow_note (n := .started wr) ⟨h_flush, rfl⟩).trans h_busy

/-- **A flush that is written is durable.** -/
theorem Inv.flushWritten (h : Inv g P) (hv : P.calls[i]? = some (.working w)) {hold : Hold}
    (h_hold : w.hold = some hold) {wr : Write} (h_stage : hold.stage = .inFlight wr) :
    Inv g { P with
      account := P.account.note (.returned wr (.ok ()))
      calls := P.calls.set i (.working (w.stage hold .written)) } := by
  have h_work : WorkInv g P i w := h.call i _ hv
  obtain ⟨s, hs, h_on⟩ := h_work.hold hold h_hold
  have h_slot := h.slot _ s hs
  obtain ⟨h_flow, h_call, h_source, h_address, h_bytes⟩ :
    StageInv g P.account i hold.flush (.inFlight wr) := h_stage ▸ h_on.stage
  obtain ⟨h_data, -⟩ := flush_bytes_ok h_bytes
  have h_length : wr.data.length = hold.flush.length := by rw [h_data, Buffer.length_first]
  have h_faithful := h_on.faithful h.account h_slot.tag_dvd h_address h_bytes
  have h_flush : wr.IsFlush := Write.isFlush_of_source h_source
  have h_next : (P.account.journal.flow g.capacity hold.flush.tag).next g.capacity
      (.returned wr (.ok ())) = Flow.afterReturn wr (.ok ()) := by
    rw [h_flow, Flow.next, if_pos rfl]
  refine h.flushTurn (n := .returned wr (.ok ())) hv h_hold hs h_on h_call ?_ ?_ ?_
    (fun _ h_eq => by cases h_eq) ?_
  · exact fun t h_concerns => h_concerns.2.symm.trans h_address
  · rintro _ _ ⟨⟩
    exact h_faithful
  · refine h.account.note_returned (fun _ => ?_) fun _ => ?_
    · -- a call that was begun may return
      rw [h_address, h_next]
      exact Flow.afterReturn_ne_misused wr _
    · -- the flush goes no further than the last address that is filled
      obtain ⟨a, ha, -, h_le⟩ := h_on.filled
      rw [Write.stop, h_address, h_length, h_on.tag_eq]
      exact h_le.trans (h.account.filled_lt a ha)
  · intro hev
    refine ⟨fun a ha h_in => ?_, fun h_early => ?_⟩
    · refine Account.durable_of_covers h_faithful (.inl ha) ?_
      -- the flush reaches as far as anything is filled
      have h_reach := h_on.reach a ha (h_on.tag_eq ▸ h_in)
      refine ⟨h_address ▸ h_in.1, ?_⟩
      rw [Write.stop, h_address, h_length, h_on.tag_eq]
      exact h_reach
    · refine ⟨wr.data.length, h_length.le, ?_⟩
      -- an early flush leaves the generation open for a longer one
      rw [Account.flow_note (n := .returned wr (.ok ())) ⟨h_flush, h_address⟩, h_next,
        Flow.afterReturn_early (h_source.trans (by rw [h_early]))]

/-- The invariant survives a failing call of the writer. The account counts as failed from then on, so
nothing is asked any more of the call that ends or of those who wait for it. -/
theorem Inv.failTurn (h : Inv g P) (hv : P.calls[i]? = some (.working w)) (h_waits : w.waits = none)
    {wr : Write} {stop : Stop IoError} (hs : P.slots[k]? = some s) (h_call : wr.call = i)
    (h_index : wr.IsFlush → g.index wr.address = k)
    (h_others : ∀ j, j ≠ i → ∀ v, P.calls[j]? = some v → ∀ h, v.hold? = some h → h.slot = k →
      ¬ wr.IsFlush)
    (h_faithful : Account.Faithful g P.account wr)
    (h_phase : Evolves g i k P.account (P.account.note (.returned wr (.error stop))) →
      PhaseInv g (P.account.note (.returned wr (.error stop))) s s.phase)
    (h_sound : (P.account.note (.returned wr (.error stop))).Sound g P.calls.length) :
    Inv g { P with
      account := P.account.note (.returned wr (.error stop))
      calls := P.calls.set i .failed } := by
  have hev : Evolves g i k P.account (P.account.note (.returned wr (.error stop))) := by
    refine Evolves.note h.account h_call ?_ ?_
    · rintro t ⟨h_flush, rfl⟩
      exact h_index h_flush
    · rintro _ _ ⟨⟩
      exact h_faithful
  -- from now on the account says that there was a failure, which is all that is asked of the call
  have h_failed : (P.account.note (.returned wr (.error stop))).Failed :=
    .inl ⟨wr, stop, List.mem_append_right _ (List.mem_singleton_self _)⟩
  have ht : Turn g i k s s (.working w) .failed P { P with
      account := P.account.note (.returned wr (.error stop))
      calls := P.calls.set i .failed } := {
    account := hev
    here := hs
    slots := (set_of_getElem? hs).symm
    advances := Advances.refl _ _ s
    before := hv
    calls := rfl
    sound := h_sound
    slot := (h.slot k s hs).note hev (h_phase hev)
    view := h_failed
    others := by
      intro j hj v hv' hold h_some h_eq h_on
      -- another call that holds a flush of this slot does not see the note
      have h_not := h_others j hj v hv' hold h_some h_eq
      refine h_on.mono hev ⟨fun _ ha _ => ha, ?_⟩ (Steady.refl s)
      exact Account.flow_note_of_not fun h_concerns => h_not h_concerns.1
    alone := by rintro _ ⟨⟩
    waits := fun k' _ => by simp [View.waitsOn, h_waits]
    waiters := by simp [View.waitsOn, h_waits]
    attended := .inl h_failed }
  exact h.turn ht

/-- The invariant survives a flush that fails. -/
theorem Inv.flushFailed (h : Inv g P) (hv : P.calls[i]? = some (.working w)) {hold : Hold}
    (h_waits : w.waits = none) (h_hold : w.hold = some hold) {wr : Write}
    (h_stage : hold.stage = .inFlight wr) (stop : Stop IoError) :
    Inv g { P with
      account := P.account.note (.returned wr (.error stop))
      calls := P.calls.set i .failed } := by
  have h_work : WorkInv g P i w := h.call i _ hv
  obtain ⟨s, hs, h_on⟩ := h_work.hold hold h_hold
  have h_slot := h.slot _ s hs
  obtain ⟨h_flow, h_call, h_source, h_address, h_bytes⟩ :
    StageInv g P.account i hold.flush (.inFlight wr) := h_stage ▸ h_on.stage
  refine h.failTurn hv h_waits hs h_call ?_ ?_ ?_ ?_ ?_
  · intro _
    -- the flush is at the tag of the slot
    rw [h_address, h_on.tag_eq, h_slot.tag_index]
  · -- no other call has the flush of this slot
    intro j hj v hv' hold₁ h_some h_eq
    exact absurd (h.alone j i _ _ _ _ hv' hv h_some h_hold h_eq) hj
  · exact h_on.faithful h.account h_slot.tag_dvd h_address h_bytes
  · exact fun hev => h_on.phaseInv h_slot.phase hev.failed
  · -- a call that was begun may return, with a failure too
    refine h.account.note_returned (fun _ => ?_) fun h_ok => by cases h_ok
    rw [h_address, h_flow, Flow.next, if_pos rfl]
    exact Flow.afterReturn_ne_misused wr _

/-! ### Middles -/

/-- Blocks are untouched by a note that is about no flush. -/
theorem Untouched.of_note {n : Note} (h_none : ∀ t, ¬ n.Concerns t) (tag : Nat) :
    Untouched g A (A.note n) tag :=
  ⟨fun _ ha _ => ha, Account.flow_note_of_not (h_none tag)⟩

/-- A note on the middle of a record. -/
theorem Inv.middleTurn (h : Inv g P) (hv : P.calls[i]? = some (.working w)) {n : Note}
    (h_call : n.call = i) (h_none : ∀ t, ¬ n.Concerns t)
    (h_data : ∀ wr outcome, n = .returned wr outcome → Account.Faithful g P.account wr)
    (h_sound : (P.account.note n).Sound g P.calls.length) {x : MiddlePart}
    (h_middle : Evolves g i 0 P.account (P.account.note n) →
      MiddleInv g (P.account.note n) i w.entry.middle x) :
    Inv g { P with
      account := P.account.note n
      calls := P.calls.set i (.working { w with middle := x }) } := by
  have h_work : WorkInv g P i w := h.call i _ hv
  obtain ⟨s, hs⟩ := h.exists_slot
  have hev : Evolves g i 0 P.account (P.account.note n) :=
    Evolves.note h.account h_call (fun t ht => absurd ht (h_none t)) h_data
  -- a note on a direct write concerns no slot, so any slot will do for the turn
  have h_touches : Touches g i 0 s s P { P with
      account := P.account.note n
      calls := P.calls.set i (.working { w with middle := x }) } :=
    ⟨hev, hs, (set_of_getElem? hs).symm, Advances.refl _ _ s⟩
  have h_tickets : ∀ τ, View.HasTicket (.working w) τ →
      View.HasTicket (.working { w with middle := x }) τ := fun _ h_has => h_has.congr rfl rfl
  have h_keeps : ∀ {j : Nat} {hold : Hold}, HoldOn g P.account j hold s →
      HoldOn g (P.account.note n) j hold s :=
    fun h_on => h_on.mono hev (Untouched.of_note h_none _) (Steady.refl s)
  refine h.turn { h_touches with
    before := hv
    calls := rfl
    sound := h_sound
    slot := (h.slot 0 s hs).note hev
      (PhaseInv.mono hev (Untouched.of_note h_none _) (h.slot 0 s hs).phase)
    view := ?_
    others := fun j _ v _ hold _ _ h_on => h_keeps h_on
    alone := fun hold h_some => .inl ⟨hold, h_some, rfl⟩
    waits := fun _ _ => rfl
    waiters := rfl
    attended := ?_ }
  · exact h_touches.own h_work rfl (fun q _ => .inl ⟨rfl, fun _ _ => id, SameHold.refl _ _⟩)
      (h_middle hev) fun hold h_some => h_touches.hold h.slot (fun _ => h_keeps)
        (h_work.hold hold h_some)
  · -- whoever attends to the slot is who attended to it before
    have h_here : P.account.Failed ∨
        Attended (P.calls.set i (.working { w with middle := x })) 0 s :=
      h.attended_same hv hs rfl rfl rfl (fun τ h_has _ => h_tickets τ h_has)
        fun hold h_some => ⟨hold, h_some, rfl⟩
    exact h_here.imp hev.failed fun h_here =>
      ⟨h_here, fun τ h_has _ => h_tickets τ h_has, fun hold h_some _ => ⟨hold, h_some, rfl⟩⟩

/-- The call to the Writer for the middle of a record. -/
def middleWrite (i : Nat) (e : Entry) : Write :=
  ⟨i, .direct, e.middle.start, e.direct, e.hint⟩

/-- The direct write of a call ends where the middle of its span ends. -/
theorem WorkInv.middleWrite_stop (hw : WorkInv g P i w) :
    (middleWrite i w.entry).stop = w.entry.middle.stop := by
  obtain ⟨record, -, h_cut⟩ := hw.cut
  have h_le := h_cut.middle_le
  have h_length := h_cut.direct_length
  simp only [Write.stop, middleWrite, h_length]
  omega

/-- The middle of a record ends where something is reserved. -/
theorem WorkInv.middle_le_content (hw : WorkInv g P i w) (h_sound : P.account.Sound g calls) :
    w.entry.middle.stop ≤ P.account.content.length := by
  obtain ⟨record, h_mem, h_cut⟩ := hw.cut
  have h_stop := h_sound.layout.tiles.stop_le (Journal.mem_reservations.2 h_mem)
  rw [Nat.zero_add, Reservation.stop, ← h_cut.total] at h_stop
  exact h_cut.middle_within.2.trans h_stop

/-- **A middle whose blocks are all skipped is handed to the Writer.** -/
theorem Inv.startDirect (h : Inv g P) (hv : P.calls[i]? = some (.working w))
    (h_middle : w.middle = .todo (w.entry.middle.generationCount w.entry.span.capacity)) :
    Inv g { P with
      account := P.account.note (.started (middleWrite i w.entry))
      calls := P.calls.set i (.working { w with middle := .started }) } := by
  have h_work : WorkInv g P i w := h.call i _ hv
  obtain ⟨record, h_mem, h_cut⟩ := h_work.cut
  -- all slots of the middle are past it, and nothing has been written there
  obtain ⟨h_bypassed, -, h_none⟩ : MiddleInv g P.account i w.entry.middle
    (.todo (w.entry.middle.generationCount w.entry.span.capacity)) := h_middle ▸ h_work.middle
  rw [h_cut.stop_eq] at h_bypassed
  obtain ⟨h_from, h_to⟩ := h_cut.middle_within
  refine h.middleTurn (n := .started (middleWrite i w.entry)) hv rfl ?_ nofun ?_ ?_
  · exact fun t h_concerns => h_concerns.1 rfl
  · refine h.account.note_direct rfl ?_ ?_ h_none
    · refine ⟨_, Journal.mem_reservations.2 h_mem, rfl, h_from, ?_⟩
      rw [h_work.middleWrite_stop, Reservation.stop, ← h_cut.total]
      exact h_to
    · rintro a ⟨h₁, h₂⟩
      exact h_bypassed a h₁ (h_work.middleWrite_stop ▸ h₂)
  · exact fun _ => h_bypassed

/-- The bytes of the middle are the reserved ones. -/
theorem WorkInv.middleFaithful (h_work : WorkInv g P i w) {calls : Nat}
    (h_sound : P.account.Sound g calls) : Account.Faithful g P.account (middleWrite i w.entry) := by
  rintro a - ⟨h₁, h₂⟩
  exact (h_work.middleRegion h_sound h₁ (h_work.middleWrite_stop ▸ h₂)).2

/-- **A middle that is written is durable.** -/
theorem Inv.directWritten (h : Inv g P) (hv : P.calls[i]? = some (.working w))
    (h_middle : w.middle = .started) :
    Inv g { P with
      account := P.account.note (.returned (middleWrite i w.entry) (.ok ()))
      calls := P.calls.set i (.working { w with middle := .done }) } := by
  have h_work : WorkInv g P i w := h.call i _ hv
  have h_bypassed : MiddleInv g P.account i w.entry.middle .started := h_middle ▸ h_work.middle
  have h_faithful := h_work.middleFaithful h.account
  refine h.middleTurn (n := .returned (middleWrite i w.entry) (.ok ())) hv rfl ?_ ?_ ?_ ?_
  · exact fun t h_concerns => h_concerns.1 rfl
  · rintro _ _ ⟨⟩
    exact h_faithful
  · refine h.account.note_returned (fun h_flush => absurd rfl h_flush) fun _ => ?_
    rw [h_work.middleWrite_stop]
    exact h_work.middle_le_content h.account
  · intro _ a h₁ h₂
    -- the slots have been told of these blocks, so what is written there is for good
    refine Account.durable_of_covers h_faithful (.inr (h_bypassed a h₁ h₂)) ⟨h₁, ?_⟩
    rw [h_work.middleWrite_stop]
    exact h₂

/-- The invariant survives a direct write that fails. -/
theorem Inv.directFailed (h : Inv g P) (hv : P.calls[i]? = some (.working w))
    (h_waits : w.waits = none) (stop : Stop IoError) :
    Inv g { P with
      account := P.account.note (.returned (middleWrite i w.entry) (.error stop))
      calls := P.calls.set i .failed } := by
  obtain ⟨s, hs⟩ := h.exists_slot
  have h_work : WorkInv g P i w := h.call i _ hv
  have h_direct : ¬ (middleWrite i w.entry).IsFlush := fun h_flush => h_flush rfl
  refine h.failTurn hv h_waits hs rfl (fun h_flush => absurd h_flush h_direct)
    (fun _ _ _ _ _ _ _ => h_direct) (h_work.middleFaithful h.account) ?_ ?_
  · intro hev
    refine PhaseInv.mono hev (Untouched.of_note ?_ _) (h.slot 0 s hs).phase
    exact fun t h_concerns => h_direct h_concerns.1
  · exact h.account.note_returned (fun h_flush => absurd h_flush h_direct) nofun

end GroupCommit.Log
