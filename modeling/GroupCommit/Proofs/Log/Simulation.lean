import GroupCommit.Proofs.Log.SlotCalls
import GroupCommit.Proofs.Protocol.Reserving
import GroupCommit.Proofs.Record.Padding

/-!
# Steps of a log as steps of its picture

A log and the calls on it match a picture when the slots, the position and the journal are those of
the picture and every call stands where its view says. An event of the machine leads from a match to
a match, whatever the outside world answers, and the invariant of the picture is kept. So whatever the
invariant says is true of every state that a log can reach.

* `Shows`, `Simulated`: the log of a picture, and a step that keeps up with it.
* `At.simulated_run`, `AtOutside.simulated_reply`: the steps of a call.
* `Matches`, `Matches.step`: a machine that matches a picture, and its events.
-/

namespace GroupCommit.Log

variable {W : Type}

/-! ### Steps of one call -/

/-- The log is the one of the picture. -/
structure Shows (g : Geometry) (format : Record.Format) (log : Log W) (P : Picture) : Prop where
  geometry : log.geometry = g
  format : log.format = format
  position : log.position = P.account.content.length
  slots : log.ring.slots = P.slots
  poisoned : log.ring.poisoned = true → P.account.Failed

/-- A step of the call `i` with these notes leads to a log and a move that have a picture again. -/
def Simulated (g : Geometry) (format : Record.Format) (start : Task) (i : Nat) (P : Picture)
    (notes : Journal) (o : Move Task Result × Log W) : Prop :=
  ∃ P' v', Inv g P' ∧ Shows g format o.2 P' ∧ P'.calls = P.calls.set i v' ∧
    P'.account.journal = P.account.journal ++ notes ∧ P'.account.allowed = P.account.allowed ∧
    MoveStands g format start (P.account.journal ++ notes) i o.1 v'

variable {g : Geometry} {format : Record.Format} {start : Task} {i : Nat} {P P' : Picture}
  {log : Log W} {v : View}

/-- A log shows any picture with the same slots and the same reserved bytes. -/
theorem Shows.congr (h : Shows g format log P) (h_slots : P'.slots = P.slots)
    (h_content : P'.account.content = P.account.content)
    (h_failed : P.account.Failed → P'.account.Failed) : Shows g format log P' where
  geometry := h.geometry
  format := h.format
  position := by rw [h.position, h_content]
  slots := by rw [h.slots, h_slots]
  poisoned := fun h_poisoned => h_failed (h.poisoned h_poisoned)

/-- A step of a call that changes neither the picture nor what matters of the log. -/
theorem Inv.simulated (h : Inv g P) (hv : P.calls[i]? = some v) {log' : Log W}
    (h_log : Shows g format log' P) {move : Move Task Result}
    (h_move : MoveStands g format start P.account.journal i move v) :
    Simulated g format start i P [] (move, log') :=
  ⟨P, v, h, h_log, (set_of_getElem? hv).symm, (List.append_nil _).symm, rfl,
    (List.append_nil P.account.journal).symm ▸ h_move⟩

/-- A step on a slot that the picture follows is simulated. -/
theorem Follows.simulated {k : Nat} {task : Slot.Task} {next : Next} {s : Slot}
    (h : Follows g format start i k next P (Slot.run task s)) (h_log : Shows g format log P)
    (hs : P.slots[k]? = some s) :
    Simulated g format start i P [] (run (.onSlot k task next) log) := by
  obtain ⟨P', v', h_reaches, h_move⟩ := h
  have h_slot : log.ring.slot? k = .ok s := by rw [Ring.slot?, h_log.slots, hs]
  -- of a call to a slot no note is taken
  have h_content : P'.account.content = P.account.content := by
    rw [Account.content, h_reaches.journal, Account.content]
  rw [run, h_slot]
  refine ⟨P', v', h_reaches.inv, ?_, h_reaches.calls, ?_, h_reaches.allowed, ?_⟩
  · exact {
      geometry := h_log.geometry
      format := h_log.format
      position := by rw [h_content]; exact h_log.position
      slots := by
        rw [h_reaches.slots, ← h_log.slots]
        rfl
      poisoned := by
        intro h_poisoned
        rw [Account.Failed, h_reaches.journal, h_reaches.allowed]
        exact h_log.poisoned h_poisoned }
  · rw [h_reaches.journal, List.append_nil]
  · rw [List.append_nil, h_log.geometry]
    exact h_move

/-! ### Reserving -/

/-- A call that reserves addresses for its record has a cut for it, without a fault. -/
theorem Inv.simulated_reserve (h : Inv g P) (hv : P.calls[i]? = some .fresh)
    (h_log : Shows g format log P) {record : Bytes} {hint : Int32} (h_pos : 0 < record.length)
    (h_room : P.account.content.length + record.length + g.capacity * g.ringSize < Word.limit) :
    Simulated g format start i P (runNotes log i (.reserve record hint))
      (run (.reserve record hint) log) := by
  have h_capacity : g.capacity ≤ Word.limit := by
    have := Nat.le_mul_of_pos_right g.capacity g.ringSize_pos
    omega
  obtain ⟨e, h_entry, h_head, h_cut⟩ := exists_cut (g := g) h_capacity h_pos
    (show log.position + record.length < Word.limit by rw [h_log.position]; omega) hint
  have h_position : e.span.head = P.account.content.length := h_head.trans h_log.position
  have h_notes : runNotes log i (.reserve record hint) = [.reserved ⟨i, e.span.head, record⟩] := by
    rw [runNotes, h_head]
  -- the allocator hands out the position, and the record that is cut there is the one of `e`
  have h_run : run (.reserve record hint) log = (.goto (entryTask g e),
      { log with allocator := ⟨(log.position + record.length) % Word.limit⟩ }) := by
    rw [← h_log.geometry] at h_entry ⊢
    simp only [run, Allocator.reserve]
    split
    · next broken h_fault => cases h_fault.symm.trans h_entry
    · next entry h_ok => cases h_ok.symm.trans h_entry; rfl
  rw [h_notes, h_run]
  refine ⟨_, .working (Work.begin e), h.reserve hv h_cut h_position h_room, ?_, rfl, rfl, rfl, ?_⟩
  · -- the position moves on without wrapping around
    have h_mod : (log.position + record.length) % Word.limit = log.position + record.length := by
      rw [h_log.position]
      exact Nat.mod_eq_of_lt (by omega)
    refine ⟨h_log.geometry, h_log.format, ?_, h_log.slots, ?_⟩
    · rw [Account.content_note_reserved, List.length_append, ← h_log.position]
      exact h_mod
    · exact fun h_poisoned => (h_log.poisoned h_poisoned).note _
  · refine .ready (At.entryTask (w := Work.begin e) ⟨rfl, rfl⟩ (fun _ => rfl) rfl ?_)
    intro h_single h_some
    -- the middle of a record in one slot is empty
    have h_empty : e.middle = ⟨e.span.head, e.span.head⟩ := (h_cut.single h_single).2
    rw [show (Work.begin e).entry.middle = e.middle from rfl, h_empty, Extent.isEmpty] at h_some
    simp at h_some

/-! ### Other steps -/

/-- Every place of the ring has its slot. -/
theorem Inv.slot_of_lt (h : Inv g P) {k : Nat} (hk : k < g.ringSize) :
    ∃ s, P.slots[k]? = some s :=
  ⟨_, List.getElem?_eq_getElem (h.ring.symm ▸ hk)⟩

/-- A call on its way works on a slot of the ring. -/
theorem At.slot_lt {k : Nat} {task : Slot.Task} {next : Next}
    (h_at : At g format start (.onSlot k task next) v) : k < g.ringSize := by
  -- a slot is named by an address, or is gone through when the log is poisoned
  cases h_at with
  | skipped h_past hk h_middle hn => exact hk
  | failing h_failing => cases h_failing <;> assumption
  | _ => exact Geometry.index_lt _

/-- A commit is turned away, does not get as far as reserving, or goes on with its record. -/
theorem Inv.simulated_commit (h : Inv g P) (hv : P.calls[i]? = some .fresh)
    (h_log : Shows g format log P) {timestamp : UInt64} {payload : Bytes} {hint : Int32}
    (h_start : start = .commit timestamp payload hint) :
    Simulated g format start i P [] (run (.commit timestamp payload hint) log) := by
  rw [run]
  split
  · exact h.simulated hv h_log .turnedAway
  · rw [h_log.format]
    cases h_encode : format.encode timestamp payload with
    | error broken => exact h.simulated hv h_log (.unencoded h_start h_encode)
    | ok record => exact h.simulated hv h_log (.ready (.reserve h_start h_encode))

/-- A call that has taken a flush asks the Writer to write it. -/
theorem Inv.simulated_writeSlot (h : Inv g P) {w : Work} (hv : P.calls[i]? = some (.working w))
    (h_log : Shows g format log P) {p : Portion} {tk : Option Ticket} {f : Flush} {data : Bytes}
    (h_waits : w.waits = none) (h_hold : w.hold = some ⟨portionSlot g w.entry p, p, f, .taken⟩)
    (h_due : Due w p tk) (h_part : w.part p = .held) (h_bytes : f.bytes = .ok data) :
    Simulated g format start i P
      (runNotes log i (.writeSlot (portionSlot g w.entry p) f data w.entry p tk))
      (run (.writeSlot (portionSlot g w.entry p) f data w.entry p tk) log) := by
  refine ⟨_, _, h.startFlush hv h_hold rfl h_bytes w.entry.hint, ?_, rfl, rfl, rfl, ?_⟩
  · exact h_log.congr rfl (Account.content_note rfl) fun h_failed => h_failed.note _
  · refine .outside (AtOutside.writeSlot (w := w.stage _ _) h_waits rfl ?_ h_part)
    exact h_due.congr rfl (fun _ _ => rfl) rfl

/-- A call that has come through the middle asks the Writer to write it. -/
theorem Inv.simulated_writeDirect (h : Inv g P) {w : Work} (hv : P.calls[i]? = some (.working w))
    (h_log : Shows g format log P) {tk : Option Ticket} (h_past : PastHead w tk)
    (h_middle : w.middle = .todo (w.entry.middle.generationCount w.entry.span.capacity)) :
    Simulated g format start i P (runNotes log i (.writeDirect w.entry tk))
      (run (.writeDirect w.entry tk) log) := by
  refine ⟨_, _, h.startDirect hv h_middle, ?_, rfl, rfl, rfl, ?_⟩
  · exact h_log.congr rfl (Account.content_note rfl) fun h_failed => h_failed.note _
  · refine .outside (AtOutside.writeDirect (w := { w with middle := .started }) ?_ rfl)
    exact ⟨⟨h_past.free.hold, h_past.free.waits⟩, h_past.spanning, h_past.head, h_past.tail⟩

/-- A call that has failed marks the log and goes through the slots. -/
theorem Inv.simulated_poison (h : Inv g P) (hv : P.calls[i]? = some .failed)
    (h_log : Shows g format log P) (reason : PoisonReason) {result : Result} (h_result : Stops result) :
    Simulated g format start i P [] (run (.poison reason result) log) := by
  have h_failed : P.account.Failed := h.call i _ hv
  -- the mark is allowed, since there was a failure
  have h_marked : Shows g format { log with ring := { log.ring with poisoned := true } } P :=
    ⟨h_log.geometry, h_log.format, h_log.position, h_log.slots, fun _ => h_failed⟩
  refine h.simulated hv h_marked ?_
  rw [h_log.geometry, poisonFrom]
  split
  · next h_some => exact .ready (.failing (.poisonSlot h_some reason h_result))
  · exact .stopped h_result

/-- **The step of a ready call.** -/
theorem At.simulated_run {task : Task} (h_at : At g format start task v) (h : Inv g P)
    (hv : P.calls[i]? = some v) (h_log : Shows g format log P)
    (h_room : (P.account.content ++ Journal.content (runNotes log i task)).length
      + g.capacity * g.ringSize < Word.limit) :
    Simulated g format start i P (runNotes log i task) (run task log) := by
  -- the task decides which case of the way it is
  cases task with
  | onSlot k task next =>
    obtain ⟨s, hs⟩ := h.slot_of_lt h_at.slot_lt
    exact (h_at.slotStep h hv hs).simulated h_log hs
  | commit timestamp payload hint =>
    cases h_at with
    | commit h_start => exact h.simulated_commit hv h_log h_start
    | failing h_failing => cases h_failing
  | reserve record hint =>
    cases h_at with
    | reserve h_start h_encode =>
      refine h.simulated_reserve hv h_log ?_ ?_
      · rw [Record.Format.length_of_encode h_encode]
        exact Record.Format.paddedLength_pos _
      · simpa [runNotes, Journal.content, Journal.reservations, Note.reservation?] using h_room
    | failing h_failing => cases h_failing
  | writeSlot k f data e p tk =>
    cases h_at with
    | writeSlot h_waits h_hold h_due h_part h_bytes =>
      exact h.simulated_writeSlot hv h_log h_waits h_hold h_due h_part h_bytes
    | failing h_failing => cases h_failing
  | writeDirect e tk =>
    cases h_at with
    | writeDirect h_past h_middle => exact h.simulated_writeDirect hv h_log h_past h_middle
    | failing h_failing => cases h_failing
  | complete head =>
    cases h_at with
    | @complete w h_done =>
      -- the picture does not show the statistics
      have h_counted : Shows g format { log with stats := log.stats.countCommit } P :=
        ⟨h_log.geometry, h_log.format, h_log.position, h_log.slots, h_log.poisoned⟩
      have h_move : MoveStands g format start P.account.journal i
          (.finish (.ok (.appended w.entry.span.head))) (.working w) := .appended h_done
      exact h.simulated hv h_counted h_move
    | failing h_failing => cases h_failing
  | poison reason result =>
    cases h_at with
    | failing h_failing =>
      cases h_failing with
      | poison reason h_result => exact h.simulated_poison hv h_log reason h_result

/-! ### Answers of the Writer -/

/-- The picture after the answer to a call to the Writer, and the log with what it brings. -/
theorem Shows.answered (h_log : Shows g format log P) {n : Note} (h_none : n.reservation? = none)
    (writer : W) (stats : Stats) {calls : List View} :
    Shows g format { log with writer, stats } { P with account := P.account.note n, calls } where
  geometry := h_log.geometry
  format := h_log.format
  position := by rw [Account.content_note h_none]; exact h_log.position
  slots := h_log.slots
  poisoned := fun h_poisoned => (h_log.poisoned h_poisoned).note _

section Reply

variable [Writer W]

/-- The Writer has answered a flush. -/
theorem Inv.simulated_flushed (h : Inv g P) {w : Work} (hv : P.calls[i]? = some (.working w))
    (h_log : Shows g format log P) {p : Portion} {tk : Option Ticket} {f : Flush} {data : Bytes}
    (h_waits : w.waits = none)
    (h_hold : w.hold = some ⟨portionSlot g w.entry p, p, f,
      .inFlight (flushWrite i f data w.entry.hint)⟩)
    (h_due : Due w p tk) (h_part : w.part p = .held) (verdict : Verdict) :
    Simulated g format start i P
      (answerNotes log i verdict (.writeSlot (portionSlot g w.entry p) f data w.entry p tk))
      (answered (.writeSlot (portionSlot g w.entry p) f data w.entry p tk) verdict log) := by
  have h_notes : answerNotes log i verdict (.writeSlot (portionSlot g w.entry p) f data w.entry p tk) =
      [.returned (flushWrite i f data w.entry.hint)
        (log.write verdict data f.tag w.entry.hint).1] := rfl
  obtain ⟨s, hs, -⟩ := h.holdOn hv h_hold
  rw [h_notes, Log.answered]
  generalize log.write verdict data f.tag w.entry.hint = o
  -- the Writer has answered: the flush goes back to its slot, or the slot is stopped
  rcases o with ⟨stop | ⟨⟩, writer⟩
  case ok =>
    refine ⟨_, _, h.flushWritten hv h_hold rfl, h_log.answered rfl _ _, rfl, rfl, rfl, ?_⟩
    refine .ready (At.release (w := w.stage _ .written) h_waits rfl ?_ h_part)
    exact h_due.congr rfl (fun _ _ => rfl) rfl
  case error =>
    have h_inv := h.flushFailed hv h_waits h_hold rfl stop
    have h_shows : Shows g format { log with writer } { P with
        account := P.account.note (.returned (flushWrite i f data w.entry.hint) (.error stop))
        calls := P.calls.set i .failed } := h_log.answered rfl writer log.stats
    cases stop with
    | refused error =>
      refine ⟨_, .failed, h_inv, h_shows, rfl, rfl, rfl, ?_⟩
      exact .ready (.failing (.abandon (h.slot_lt hs) f _ error))
    -- the Writer itself has faulted, and the call ends there
    | fault broken =>
      refine ⟨_, .failed, h_inv, h_shows, rfl, rfl, rfl, ?_⟩
      exact Stands.crashed (w := flushWrite i f data w.entry.hint) rfl
        (List.mem_append_right _ (List.mem_singleton_self _))

/-- The Writer has answered a direct write. -/
theorem Inv.simulated_written (h : Inv g P) {w : Work} (hv : P.calls[i]? = some (.working w))
    (h_log : Shows g format log P) {tk : Option Ticket} (h_past : PastHead w tk)
    (h_middle : w.middle = .started) (verdict : Verdict) :
    Simulated g format start i P (answerNotes log i verdict (.writeDirect w.entry tk))
      (answered (.writeDirect w.entry tk) verdict log) := by
  have h_notes : answerNotes log i verdict (.writeDirect w.entry tk) =
      [.returned (middleWrite i w.entry)
        (log.write verdict w.entry.direct w.entry.middle.start w.entry.hint).1] := rfl
  rw [h_notes, Log.answered]
  generalize log.write verdict w.entry.direct w.entry.middle.start w.entry.hint = o
  rcases o with ⟨stop | ⟨⟩, writer⟩
  case ok =>
    refine ⟨_, _, h.directWritten hv h_middle, h_log.answered rfl _ _, rfl, rfl, rfl, ?_⟩
    rw [h_log.geometry]
    refine .ready (At.tailTask (w := { w with middle := .done }) ?_ fun _ => rfl)
    exact ⟨⟨h_past.free.hold, h_past.free.waits⟩, h_past.spanning, h_past.head, h_past.tail⟩
  case error =>
    -- a refusal is answered by poisoning the log; after a fault the call is stuck
    have h_inv := h.directFailed hv h_past.free.waits stop
    have h_shows : Shows g format { log with writer } { P with
        account := P.account.note (.returned (middleWrite i w.entry) (.error stop))
        calls := P.calls.set i .failed } := h_log.answered rfl writer log.stats
    cases stop with
    | refused error =>
      exact ⟨_, .failed, h_inv, h_shows, rfl, rfl, rfl, .ready (.failing (.poison _ (.refused _)))⟩
    | fault broken =>
      refine ⟨_, .failed, h_inv, h_shows, rfl, rfl, rfl, ?_⟩
      exact Stands.crashed (w := middleWrite i w.entry) rfl
        (List.mem_append_right _ (List.mem_singleton_self _))

/-- **The step of a call whose call to the Writer returns**, however it returns. -/
theorem AtOutside.simulated_reply {task : Task} (h_at : AtOutside g i task v) (h : Inv g P)
    (hv : P.calls[i]? = some v) (h_log : Shows g format log P) (verdict : Verdict) :
    Simulated g format start i P (answerNotes log i verdict task) (answered task verdict log) := by
  cases h_at with
  | writeSlot h_waits h_hold h_due h_part =>
    exact h.simulated_flushed hv h_log h_waits h_hold h_due h_part verdict
  | writeDirect h_past h_middle => exact h.simulated_written hv h_log h_past h_middle verdict

end Reply

/-! ### Machines -/

/-- A call to the log that is a commit. -/
def Task.IsCommit (t : Task) : Prop := ∃ timestamp payload hint, t = .commit timestamp payload hint

/-- A call that asks for the log to be poisoned. -/
def Task.IsPoison (t : Task) : Prop := ∃ reason, t = .poison reason (.ok .poisoned)

/-- The first tasks of the calls that an event makes. -/
def starts? : Event Task Verdict → List Task
  | .call start => [start]
  | _ => []

/-- What is reserved is the record of a commit. -/
def Recorded (format : Record.Format) (starts : List Task) (J : Journal) : Prop :=
  ∀ r, .reserved r ∈ J → ∃ timestamp payload hint,
    starts[r.call]? = some (.commit timestamp payload hint) ∧
      format.encode timestamp payload = .ok r.record

/-- A machine and a picture that match. `starts` are the tasks that the calls were made with, and `J`
is what was noted so far. -/
structure Matches (g : Geometry) (format : Record.Format) (starts : List Task)
    (m : Machine (Log W) Task Result) (J : Journal) (P : Picture) : Prop where
  inv : Inv g P
  log : Shows g format m.state P
  journal : P.account.journal = J
  starts_length : starts.length = m.calls.length
  calls_length : P.calls.length = m.calls.length
  call : ∀ (i : Nat) status start v, m.calls[i]? = some status → starts[i]? = some start →
    P.calls[i]? = some v → Stands g format start J i status v
  reserved : Recorded format starts J

section Machines

variable {starts : List Task} {m : Machine (Log W) Task Result} {J : Journal}

/-- Every call has a view in the picture, and stands there. -/
theorem Matches.exists_view (h : Matches g format starts m J P) {status : Status Task Result}
    (hi : m.calls[i]? = some status) :
    ∃ start v, starts[i]? = some start ∧ P.calls[i]? = some v ∧
      Stands g format start J i status v := by
  obtain ⟨h_lt, -⟩ := List.getElem?_eq_some_iff.1 hi
  -- the calls, their starts and their views are numbered alike
  have h_start := List.getElem?_eq_getElem (h.starts_length ▸ h_lt)
  have h_view := List.getElem?_eq_getElem (h.calls_length ▸ h_lt)
  exact ⟨_, _, h_start, h_view, h.call i _ _ _ hi h_start h_view⟩

/-- The call of a step stands where the step has brought it, the others as they are said to. -/
theorem stands_setCall {status₀ : Status Task Result} {R : Nat → Status Task Result → Prop}
    (h_stands : Stands g format start J i status₀ v) (hi : i < m.calls.length)
    (h_others : ∀ j status, j ≠ i → m.calls[j]? = some status → R j status) :
    ∀ j status, (m.setCall i status₀).calls[j]? = some status →
      (j = i ∧ Stands g format start J i status v) ∨ (j ≠ i ∧ R j status) := by
  intro j status hj
  rw [Machine.setCall] at hj
  by_cases h_eq : j = i
  · subst h_eq
    rw [List.getElem?_set_self hi] at hj
    cases hj
    exact .inl ⟨rfl, h_stands⟩
  · rw [List.getElem?_set_ne (Ne.symm h_eq)] at hj
    exact .inr ⟨h_eq, h_others j status h_eq hj⟩

/-- Where the calls stand after a move of the call `i`: it stands where the move says, and the others
are woken at most. -/
theorem MoveStands.apply {move : Move Task Result} (h_move : MoveStands g format start J i move v)
    {R : Nat → Status Task Result → Prop} (hi : i < m.calls.length)
    (h_others : ∀ j status, j ≠ i → m.calls[j]? = some status → R j status)
    (h_woken : ∀ j status condition, R j status → R j (status.woken condition)) :
    ∀ j status, (m.apply i move).calls[j]? = some status →
      (j = i ∧ Stands g format start J i status v) ∨ (j ≠ i ∧ R j status) := by
  induction move generalizing m with
  | goto task => exact stands_setCall h_move hi h_others
  | park condition wake late => exact stands_setCall h_move hi h_others
  | outside pending => exact stands_setCall h_move hi h_others
  | finish result => exact stands_setCall h_move hi h_others
  -- waking comes first, and the move that follows is smaller
  | notify condition next ih =>
    rw [Machine.apply_notify]
    refine ih _ (h_move _) ?_ ?_
    · rw [Machine.wake, List.length_map]
      exact hi
    · intro j status h_ne hj
      rw [Machine.wake, List.getElem?_map] at hj
      obtain ⟨status₀, hj₀, rfl⟩ := Option.map_eq_some_iff.1 hj
      exact h_woken j _ condition (h_others j status₀ h_ne hj₀)

/-- The machine after the step of a call matches again. `m₁` is the machine with the call about to
make its step. -/
theorem Matches.perform (h : Matches g format starts m J P) {m₁ : Machine (Log W) Task Result}
    (h_same : ∀ j, j ≠ i → m₁.calls[j]? = m.calls[j]?)
    (h_length : m₁.calls.length = m.calls.length) (hi : i < m.calls.length)
    (h_start : starts[i]? = some start) {notes : Journal} {o : Move Task Result × Log W}
    (h_step : Simulated g format start i P notes o) (h_recorded : Recorded format starts notes) :
    ∃ P', Matches g format starts (m₁.perform i o) (J ++ notes) P' ∧
      P'.account.allowed = P.account.allowed := by
  obtain ⟨P', v', h_inv, h_log, h_calls, h_journal, h_expired, h_move⟩ := h_step
  rw [h.journal] at h_journal h_move
  refine ⟨P', ⟨h_inv, ?_, h_journal, ?_, ?_, ?_, ?_⟩, h_expired⟩
  · rw [Machine.perform, Machine.state_apply]
    exact h_log
  · rw [Machine.perform, Machine.length_apply, h.starts_length]
    exact h_length.symm
  · rw [Machine.perform, Machine.length_apply, h_calls, List.length_set, h.calls_length]
    exact h_length.symm
  · -- the other calls stand where they stood, or are woken
    intro j status start' u hj h_start' hu
    have h_cases := h_move.apply (m := { m₁ with state := o.2 })
      (R := fun j status => ∀ start' u, starts[j]? = some start' → P.calls[j]? = some u →
        Stands g format start' (J ++ notes) j status u) (h_length ▸ hi) ?_ ?_ j status hj
    · rcases h_cases with ⟨rfl, h_stands⟩ | ⟨h_ne, h_stands⟩
      · -- the call of the step
        rw [h_calls, List.getElem?_set_self (h.calls_length ▸ hi)] at hu
        cases hu
        cases h_start.symm.trans h_start'
        exact h_stands
      · -- another call, to which the notes of the step make no difference
        rw [h_calls, List.getElem?_set_ne (Ne.symm h_ne)] at hu
        exact h_stands start' u h_start' hu
    · intro j status h_ne hj start' u h_start' hu
      rw [h_same j h_ne] at hj
      exact (h.call j status start' u hj h_start' hu).mono notes
    · intro j status condition h_stands start' u h_start' hu
      exact (h_stands start' u h_start' hu).woken condition
  · intro r hr
    rcases List.mem_append.1 hr with h_old | h_new
    · exact h.reserved r h_old
    · exact h_recorded r h_new

/-! ### Events -/

theorem Recorded.of_none {notes : Journal} (h : ∀ n ∈ notes, n.reservation? = none) :
    Recorded format starts notes :=
  fun _ hr => by cases h _ hr

/-- What a call reserves is the record of its payload. -/
theorem At.recorded {task : Task} (h_at : At g format start task v) (h_start : starts[i]? = some start)
    (log : Log W) : Recorded format starts (runNotes log i task) := by
  intro r hr
  -- only a task that reserves is noted so, and its record is the encoded one
  cases h_at with
  | reserve h_commit h_encode =>
    cases List.mem_singleton.1 hr
    exact ⟨_, _, _, h_commit ▸ h_start, h_encode⟩
  | writeSlot => cases List.mem_singleton.1 hr
  | writeDirect => cases List.mem_singleton.1 hr
  | failing h_failing => cases h_failing <;> cases hr
  | _ => cases hr

/-- A call that is made stands at its beginning. -/
theorem Matches.newCall (h : Matches g format starts m J P)
    (hv : v = .fresh ∨ (v = .failed ∧ P.account.Failed)) (h_at : At g format start start v) :
    Matches g format (starts ++ [start]) { m with calls := m.calls ++ [.ready start] } J
      { P with calls := P.calls ++ [v] } where
  inv := h.inv.newCall hv
  log := h.log.congr rfl rfl id
  journal := h.journal
  starts_length := by rw [List.length_append, List.length_append, h.starts_length]; rfl
  calls_length := by rw [List.length_append, List.length_append, h.calls_length]; rfl
  call := by
    intro j status start' u hj h_start' hu
    rcases Nat.lt_or_ge j m.calls.length with h_lt | h_ge
    · rw [List.getElem?_append_left h_lt] at hj
      rw [List.getElem?_append_left (h.starts_length ▸ h_lt)] at h_start'
      rw [List.getElem?_append_left (h.calls_length ▸ h_lt)] at hu
      exact h.call j status start' u hj h_start' hu
    · -- the call that is made is the last one
      obtain rfl : j = m.calls.length := by
        obtain ⟨h_lt, -⟩ := List.getElem?_eq_some_iff.1 hj
        rw [List.length_append, List.length_singleton] at h_lt
        omega
      rw [List.getElem?_concat_length] at hj
      rw [← h.starts_length, List.getElem?_concat_length] at h_start'
      rw [← h.calls_length, List.getElem?_concat_length] at hu
      cases hj
      cases h_start'
      cases hu
      exact .ready h_at
  reserved := by
    -- what was reserved before was reserved by earlier calls
    intro r hr
    obtain ⟨timestamp, payload, hint, h_start, h_encode⟩ := h.reserved r hr
    obtain ⟨h_lt, -⟩ := List.getElem?_eq_some_iff.1 h_start
    exact ⟨timestamp, payload, hint, (List.getElem?_append_left h_lt).trans h_start, h_encode⟩

variable [Writer W]

/-- **An event leads from a match to a match**, as long as what is reserved fits into the address
space. -/
theorem Matches.step (h : Matches g format starts m J P) {e : Event Task Verdict}
    {m' : Machine (Log W) Task Result} (h_step : m.step (program W) e = some m')
    (h_call : ∀ start ∈ starts? e,
      start.IsCommit ∨ (start.IsPoison ∧ P.account.allowed.poisoning = true))
    (h_expire : ∀ i, e = .expire i → P.account.allowed.deadlines = true)
    (h_room : (Journal.content (J ++ notes m e)).length + g.capacity * g.ringSize < Word.limit) :
    ∃ P', Matches g format (starts ++ starts? e) m' (J ++ notes m e) P' ∧
      P'.account.allowed = P.account.allowed := by
  cases e with
  | call start =>
    cases h_step
    rw [show J ++ notes m (.call start) = J from List.append_nil _]
    -- a commit begins with nothing reserved, and a call to poison has failed from the start
    rcases h_call start (List.mem_singleton_self _) with
      ⟨timestamp, payload, hint, rfl⟩ | ⟨⟨reason, rfl⟩, h_allowed⟩
    · exact ⟨_, h.newCall (.inl rfl) (.commit rfl), rfl⟩
    · exact ⟨_, h.newCall (.inr ⟨rfl, .inr h_allowed⟩) (.failing (.poison reason .poisoned)), rfl⟩
  | run i =>
    obtain ⟨task, hi, rfl⟩ := Machine.step_run h_step
    obtain ⟨start, v, h_start, hv, h_stands⟩ := h.exists_view hi
    obtain ⟨h_lt, -⟩ := List.getElem?_eq_some_iff.1 hi
    rw [notes_run hi] at h_room ⊢
    cases h_stands with
    | ready h_at =>
      have h_sim := h_at.simulated_run h.inv hv h.log (by
        rw [Account.content, h.journal, ← Journal.content_append]
        exact h_room)
      rw [show starts ++ starts? (.run i) = starts from List.append_nil _]
      exact h.perform (fun _ _ => rfl) rfl h_lt h_start h_sim (h_at.recorded h_start _)
  | expire i =>
    obtain ⟨condition, wake, late, hi, rfl⟩ := Machine.step_expire h_step
    obtain ⟨start, v, h_start, hv, h_stands⟩ := h.exists_view hi
    obtain ⟨h_lt, -⟩ := List.getElem?_eq_some_iff.1 hi
    cases h_stands with
    | @parked k task next _ _ h_at h_late =>
      -- only a call that waits for its bytes has a deadline
      have h_deadline := h_late late rfl
      obtain ⟨s, hs⟩ := h.inv.slot_of_lt h_at.slot_lt
      obtain ⟨τ, rfl, rfl⟩ : ∃ τ, task = .rejoin τ ∧ late = .onSlot condition (.joinLate τ) next := by
        cases h_deadline
        exact ⟨_, rfl, rfl⟩
      have h_sim := (h_at.lateStep h_deadline h.inv hv hs (h_expire i rfl)).simulated h.log hs
      rw [show starts ++ starts? (.expire i) = starts from List.append_nil _]
      refine h.perform (fun j h_ne => List.getElem?_set_ne (Ne.symm h_ne)) List.length_set h_lt h_start
        h_sim (Recorded.of_none fun _ hn => by cases hn)
  | answer i verdict =>
    obtain ⟨task, hi, rfl⟩ := Machine.step_answer h_step
    obtain ⟨start, v, h_start, hv, h_stands⟩ := h.exists_view hi
    obtain ⟨h_lt, -⟩ := List.getElem?_eq_some_iff.1 hi
    rw [notes_answer hi]
    cases h_stands with
    | outside h_at =>
      have h_sim : Simulated g format start i P _ _ := h_at.simulated_reply h.inv hv h.log verdict
      rw [show starts ++ starts? (.answer i verdict) = starts from List.append_nil _]
      refine h.perform (fun _ _ => rfl) rfl h_lt h_start h_sim (Recorded.of_none ?_)
      -- an answer is noted as a return, which reserves nothing
      intro n hn
      rw [answerNotes, Option.mem_toList, Option.map_eq_some_iff] at hn
      obtain ⟨w, -, rfl⟩ := hn
      rfl

end Machines

end GroupCommit.Log
