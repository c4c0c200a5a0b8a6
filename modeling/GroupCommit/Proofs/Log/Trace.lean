import GroupCommit.Proofs.Log.Purpose
import GroupCommit.Proofs.Log.Sequence
import GroupCommit.Proofs.Log.Sweep

/-!
# Keeping to the plan

When commits are made one after another and nothing fails, every commit makes the calls to the Writer
that are planned for it, in their order. With each step of a commit, the calls that it has made and
those that are still to come add up to the plan.

* `Plan.status_onSlot`, `Run.OnPlan.acts`: one step of a commit.
* `Run.OnPlan.stop_le`: what is written by the time when a commit looks after a portion.
* `Run.OnPlan`, `Run.Sequential.onPlan`: a whole run.
-/

namespace GroupCommit.Log

/-! ### Plans and layouts -/

namespace Plan

variable {x : Plan} {e : Entry} {record : Bytes} {w : Write}

/-- The write of a portion ends where the portion does. -/
theorem stop_portion {p : Portion} (h : Cut x.geometry e record) (hp : Has e p)
    (h_room : entryStop e ≤ x.content.length) : (x.portion e p).stop = regionStop e p :=
  Write.stop_range (h.portion p hp).stop_le.1 ((h.portion p hp).le_stop.trans h_room)

/-- The direct write ends where the middle does. -/
theorem stop_direct (h : Cut x.geometry e record) (h_room : entryStop e ≤ x.content.length) :
    (x.direct e).stop = e.middle.stop :=
  Write.stop_range h.middle_le (h.middle_within.2.trans h_room)

/-- The calls before those from the tail on write what lies in front of the tail. -/
theorem mem_head (h : Cut x.geometry e record) (h_spanning : e.span.isSingleSlot = false)
    (h_room : entryStop e ≤ x.content.length)
    (hw : w ∈ (if e.span.headLength = 0 then [] else [x.portion e .head])
      ++ if e.middle.isEmpty then [] else [x.direct e]) : w.stop ≤ e.middle.stop := by
  rcases List.mem_append.1 hw with hw | hw
  · split at hw
    · cases hw
    · next h_some =>
      have h_has : Has e .head := ⟨h_spanning, Nat.pos_of_ne_zero h_some⟩
      rw [List.mem_singleton.1 hw, stop_portion h h_has h_room, h.head_stop h_spanning]
      exact h.middle_le
  · split at hw
    · cases hw
    · rw [List.mem_singleton.1 hw, stop_direct h h_room]

/-- The head, the middle and the tail, as far as they are there. -/
theorem head_eq : x.head e = ((if e.span.headLength = 0 then [] else [x.portion e .head])
    ++ if e.middle.isEmpty then [] else [x.direct e]) ++ x.tail e := by
  rw [head, middle, List.append_assoc]

/-- No planned call writes behind the record. -/
theorem stop_le (h : Cut x.geometry e record) (h_room : entryStop e ≤ x.content.length)
    (hw : w ∈ x.entry e) : w.stop ≤ entryStop e := by
  have h_portion : ∀ {p}, Has e p → (x.portion e p).stop ≤ entryStop e := fun hp =>
    (stop_portion h hp h_room).trans_le (h.portion _ hp).le_stop
  rw [entry] at hw
  split at hw
  · next h_single =>
    rw [List.mem_singleton.1 hw]
    exact h_portion h_single
  · next h_spanning =>
    rw [Bool.not_eq_true] at h_spanning
    rw [head_eq] at hw
    rcases List.mem_append.1 hw with hw | hw
    · exact (mem_head h h_spanning h_room hw).trans h.middle_within.2
    · -- the tail ends where the record does
      rw [tail] at hw
      split at hw
      · cases hw
      · next h_some =>
        rw [List.mem_singleton.1 hw]
        exact h_portion ⟨h_spanning, Nat.pos_of_ne_zero h_some⟩

/-- The calls before that for a portion write what lies in front of the portion. -/
theorem stop_le_of_before {p : Portion} {L : List Write} (h : Cut x.geometry e record) (hp : Has e p)
    (h_room : entryStop e ≤ x.content.length)
    (h_eq : L ++ x.portion e p :: x.after e p = x.entry e) (hw : w ∈ L) :
    w.stop ≤ regionStart e p := by
  cases p with
  | whole =>
    -- there are no other calls
    have h_single : e.span.isSingleSlot = true := hp
    rw [entry, if_pos h_single] at h_eq
    rw [List.append_left_eq_self.1 h_eq] at hw
    cases hw
  | head =>
    rw [entry, if_neg (by rw [hp.1]; decide), head, if_neg hp.2.ne'] at h_eq
    rw [List.append_left_eq_self.1 h_eq] at hw
    cases hw
  | tail =>
    rw [entry, if_neg (by rw [hp.1]; decide), head_eq, tail, if_neg hp.2.ne'] at h_eq
    rw [List.append_cancel_right h_eq] at hw
    rw [(h.tail_start hp).1]
    exact mem_head h hp.1 h_room hw

end Plan

/-! ### One step -/

/-- A call that goes on with the answer of a slot has the same calls to come as before, unless its bytes
were written by somebody else. -/
theorem Plan.status_resume {x : Plan} {g : Geometry} {next : Next} {answer : Slot.Result}
    {status : Status Task Result} (h : (resume g next answer).Leads status)
    (h_next : next.sweep? = none)
    (h_flush : ∀ e p tk reply, next = .joined e p tk → answer = .ok reply →
      ∃ flush, reply = .joined (some flush))
    (h_result : ∀ result, status = .finished result → ∃ head, result = .ok (.appended head)) :
    x.status status = x.next next := by
  cases goesWith h with
  | finishes =>
    -- with the answer of a slot, a call does not end well
    obtain ⟨head, h_eq⟩ := h_result _ rfl
    cases answer <;> cases h_eq
  | ended | unreadable =>
    obtain ⟨head, h_eq⟩ := h_result _ rfl
    cases h_eq
  | stopped | poisoned => cases h_next
  | acquired | given | accepted => rfl
  | spared e p tk h_other =>
    -- the bytes would have been written by somebody else
    obtain ⟨flush, rfl⟩ := h_flush _ _ _ _ rfl rfl
    exact absurd rfl (h_other flush)
  | handedBack => exact Plan.task_portionTask _
  | declined | filled | unfilled => exact Plan.task_afterOfferTask _
  | skipped => exact Plan.task_skipOrWriteTask _

section Steps

variable {W : Type} {g : Geometry} {format : Record.Format} {start : Task} {P : Picture} {w : Work}
  {i k : Nat} {s : Slot} {task : Slot.Task} {next : Next} {status : Status Task Result}

/-- Behind a call on a slot, what remains is what the log goes on with. -/
theorem Plan.status_onSlot {x : Plan} {log : Log W} (hs : log.ring.slots[k]? = some s)
    (h : (run (.onSlot k task next) log).1.Leads status) (h_next : next.sweep? = none)
    (h_unmet : ∀ e p tk, next = .joined e p tk → s.Unmet task)
    (h_result : ∀ result, status = .finished result → ∃ head, result = .ok (.appended head)) :
    x.status status = x.next next := by
  cases lands hs h with
  | parked h_wake => rfl
  | join => rfl
  | announce h_answer => rfl
  | resumed h_answer h_resumed =>
    refine Plan.status_resume h_resumed h_next (fun e p tk reply h_eq h_ok => ?_) h_result
    have h_joins := h_unmet e p tk h_eq
    rcases h_answer with rfl | ⟨h_finish, -⟩
    · exact h_joins.elim
    · -- with an unmet ticket a call that returns has got a flush
      exact Slot.exists_flush h_joins (h_ok ▸ h_finish)

/-- A call that reserves its addresses has the whole plan before it. -/
theorem Plan.status_reserve {x : Plan} {e : Entry} {log : Log W} {record : Bytes} {hint : Int32}
    (h_cut : CutInto log.geometry log.position record hint e)
    (h : (run (.reserve record hint) log).1.Leads status) : x.status status = x.entry e := by
  have h_effect := run_effect (.reserve record hint) log
  generalize run _ log = o at h h_effect
  cases h_effect with
  | unplaced h_error => cases h_error.symm.trans h_cut
  | placed h_entry =>
    cases h_entry.symm.trans h_cut
    cases h
    exact Plan.task_entryTask

/-- A call that looks after a portion finds that nobody has written it. -/
theorem At.unmet {e : Entry} {p : Portion} {tk : Option Ticket}
    (h_at : At g format start (.onSlot k task (.joined e p tk)) (.working w)) (h : Inv g P)
    (h_alone : Alone P i w) (hs : P.slots[k]? = some s)
    (h_unwritten : ∀ wr, .returned wr (.ok ()) ∈ P.account.journal → wr.stop ≤ regionStart e p) :
    s.Unmet task := by
  cases h_at with
  | fillJoin h_free h_due h_part => trivial
  | join h_free h_due h_part => exact h_alone.not_settles h h_due.has h_part hs h_unwritten
  | rejoin h_hold h_waits h_due h_part =>
    exact h_alone.not_settles h h_due.has h_part hs h_unwritten

/-- A call that is at work on its record does not sweep. -/
theorem At.sweep?_eq_none (h_at : At g format start (.onSlot k task next) (.working w)) :
    next.sweep? = none := by
  cases h_at <;> rfl

end Steps

section Runs

variable {W : Type} [Writer W] {r r' : Run W} {i : Nat} {e : Entry} {ev : Event Task Verdict}

/-- The plan of the call `i` in a log that comes to hold these bytes. -/
def Run.plan (r : Run W) (content : Bytes) (i : Nat) : Plan := ⟨r.log.geometry, content, i⟩

/-- All calls keep to their plans in a log that comes to hold these bytes. -/
def Run.OnPlan (r : Run W) (content : Bytes) : Prop :=
  ∀ (i : Nat) status e, r.machine.calls[i]? = some status → r.Enters i e →
    r.journal.writes.filter (·.call = i) ++ (r.plan content i).status status =
      (r.plan content i).entry e

/-- The place of a call that has its entry. -/
theorem Run.Enters.place (h : r.Enters i e) (h_fits : r.Fits) : ∃ record,
    Cut r.log.geometry e record ∧ ⟨i, e.span.head, record⟩ ∈ r.journal.reservations ∧
      entryStop e = e.span.head + record.length ∧ entryStop e ≤ r.journal.content.length := by
  obtain ⟨P, hm, -⟩ := r.exists_matches h_fits r.within_all
  obtain ⟨record, h_mem, h_cut⟩ := h.cut hm
  have h_stop : entryStop e = e.span.head + record.length := by rw [entryStop, h_cut.total]
  have h_tiles := hm.inv.account.layout.tiles
  rw [hm.journal] at h_tiles
  have h_le := h_tiles.stop_le (Journal.mem_reservations.2 h_mem)
  rw [Nat.zero_add] at h_le
  exact ⟨record, h_cut, Journal.mem_reservations.2 h_mem, h_stop, h_stop.trans_le h_le⟩

/-- Records that were reserved by different calls share no address. -/
theorem Run.Enters.apart {j : Nat} {e' : Entry} (h : r.Enters i e) (h' : r.Enters j e') (h_ne : j ≠ i)
    (h_fits : r.Fits) : entryStop e' ≤ e.span.head ∨ entryStop e ≤ e'.span.head := by
  obtain ⟨P, hm, -⟩ := r.exists_matches h_fits r.within_all
  obtain ⟨record, -, h_mem, h_stop, -⟩ := h.place h_fits
  obtain ⟨record', -, h_mem', h_stop', -⟩ := h'.place h_fits
  have h_tiles := hm.inv.account.layout.tiles
  rw [hm.journal] at h_tiles
  rw [h_stop, h_stop']
  refine h_tiles.disjoint h_mem' h_mem fun h_eq => h_ne ?_
  exact congrArg Reservation.call h_eq

section Sequential

variable {content : Bytes} {status status' : Status Task Result} {w : Write} (h_fits : r.Fits)
  (h_grows : r.journal.content <+: content)

include h_fits h_grows

/-- What a commit writes lies in front of the end of its record. -/
theorem Run.OnPlan.exists_place (h : r.OnPlan content) (hw : w ∈ r.journal.writes) :
    ∃ e record, r.Enters w.call e ∧ Cut r.log.geometry e record ∧ w.stop ≤ entryStop e ∧
      entryStop e ≤ r.journal.content.length := by
  obtain ⟨e, h_enters, -⟩ := r.asks h_fits w (Journal.mem_writes.1 hw)
  obtain ⟨record, h_cut, -, -, h_le⟩ := h_enters.place h_fits
  have h_lt := r.call_lt _ (Journal.mem_writes.1 hw)
  have h_plan := h w.call _ e (List.getElem?_eq_getElem h_lt) h_enters
  have h_planned : w ∈ (r.plan content w.call).entry e := by
    rw [← h_plan]
    exact List.mem_append_left _ (List.mem_filter.2 ⟨hw, decide_eq_true rfl⟩)
  exact ⟨e, record, h_enters, h_cut, Plan.stop_le h_cut (h_le.trans h_grows.length_le) h_planned, h_le⟩

/-- **When a commit looks after a portion**, nothing is written from the portion on. -/
theorem Run.OnPlan.stop_le (h : r.OnPlan content) (h_seq : r.Sequential)
    (hi : r.machine.calls[i]? = some status) (h_open : ∀ result, status ≠ .finished result)
    (h_enters : r.Enters i e) {p : Portion} (hp : Has e p)
    (h_status : (r.plan content i).status status =
      (r.plan content i).portion e p :: (r.plan content i).after e p) :
    ∀ w ∈ r.journal.writes, w.stop ≤ regionStart e p := by
  intro w hw
  obtain ⟨record, h_cut, h_mem, h_stop, h_le⟩ := h_enters.place h_fits
  by_cases h_call : w.call = i
  · -- the call has come as far as this portion
    have h_own := h i status e hi h_enters
    rw [h_status] at h_own
    refine Plan.stop_le_of_before h_cut hp (h_le.trans h_grows.length_le) h_own ?_
    exact List.mem_filter.2 ⟨hw, decide_eq_true h_call⟩
  · -- all other records lie in front of this one
    obtain ⟨e', record', h_enters', h_cut', h_write, h_le'⟩ := h.exists_place h_fits h_grows hw
    have h_front : entryStop e' ≤ e.span.head := by
      refine (h_enters.apart h_enters' h_call h_fits).resolve_right fun h_behind => ?_
      have h_last := h_seq.last h_fits i ⟨status, hi, h_open⟩ _ h_mem rfl
      have h_pos := h_cut'.total_pos
      rw [Reservation.stop, ← h_stop] at h_last
      rw [entryStop] at h_le'
      omega
    calc w.stop ≤ entryStop e' := h_write
      _ ≤ e.span.head := h_front
      _ ≤ regionStart e p := (h_cut.portion p hp).head_le

end Sequential

/-- A call that has its entry returns the address of its record. -/
theorem Run.Enters.finished (h : r.Enters i e) (h_fits : r.Fits) (h_clean : r.Clean) {result : Result}
    (hi : r.machine.calls[i]? = some (.finished result)) : result = .ok (.appended e.span.head) := by
  obtain ⟨P, hm, h_unfailed⟩ := h_clean.exists_matches h_fits
  obtain ⟨start, v, -, hv, h_stands⟩ := hm.exists_view hi
  obtain ⟨record, h_mem, -⟩ := h.cut hm
  have h_view := hm.inv.call i v hv
  have h_reserved : ⟨i, e.span.head, record⟩ ∈ P.account.journal.reservations := by
    rw [hm.journal]
    exact Journal.mem_reservations.2 h_mem
  cases h_stands with
  | @appended w h_done =>
    obtain ⟨record', h_mem', -⟩ := WorkInv.cut h_view
    have h_same := hm.inv.account.layout.eq_of_call (Journal.mem_reservations.2 h_mem') h_reserved rfl
    rw [show w.entry.span.head = e.span.head from congrArg Reservation.head h_same]
  -- a call that is turned away has reserved nothing
  | turnedAway => exact absurd rfl (h_view _ h_reserved)
  | unencoded => exact absurd rfl (h_view _ h_reserved)
  | stopped => exact absurd h_view h_unfailed
  | crashed => exact absurd h_view h_unfailed

/-- What is known of a call that has its addresses and is the only one under way. -/
structure Run.Active (r : Run W) (i : Nat) (status : Status Task Result) (P : Picture) (start : Task)
    (w : Work) : Prop where
  shown : Matches r.log.geometry r.log.format r.starts r.machine r.journal P
  clean : ¬ P.account.Failed
  stands : Stands r.log.geometry r.log.format start r.journal i status (.working w)
  alone : Alone P i w

/-- The call that is under way is the only one. -/
theorem Run.Sequential.exists_active (h_seq : r.Sequential) (h_fits : r.Fits) (h_clean : r.Clean)
    {status : Status Task Result} (hi : r.machine.calls[i]? = some status)
    (h_open : ∀ result, status ≠ .finished result) (h_enters : r.Enters i e) :
    ∃ P start w, r.Active i status P start w := by
  obtain ⟨P, start, v, hm, h_unfailed, -, hv, h_stands, h_alone⟩ :=
    h_seq.exists_alone h_fits h_clean hi h_open
  have h_view := hm.inv.call i v hv
  obtain ⟨record, h_mem, -⟩ := h_enters.cut hm
  cases v with
  | working w => exact ⟨P, start, w, hm, h_unfailed, h_stands, h_alone w rfl⟩
  | fresh => exact absurd rfl (h_view _ (Journal.mem_reservations.2 (hm.journal ▸ h_mem)))
  | failed => exact absurd h_view h_unfailed

section Writes

variable {content : Bytes} {P : Picture} {start : Task} {w : Work} {tk : Option Ticket}
  (h_grows : r.journal.content <+: content)

include h_grows

/-- The flush that a call is about to write is the planned call to the Writer. -/
theorem Run.Active.writeSlot {k : Nat} {f : Flush} {data : Bytes} {p : Portion}
    (h : r.Active i (.ready (.writeSlot k f data e p tk)) P start w) :
    (Task.writeSlot k f data e p tk).write? i = some ((r.plan content i).portion e p) := by
  have hm := h.shown
  have h_work := h.alone.work hm.inv
  have h_content : P.account.content = r.journal.content := by rw [Account.content, hm.journal]
  obtain ⟨record, -, h_cut⟩ := h_work.cut
  obtain ⟨h_at⟩ := h.stands
  cases h_at with
  | writeSlot h_waits h_hold h_due h_part h_bytes =>
    have h_held := h_work.part p h_due.has
    rw [h_part] at h_held
    obtain ⟨hold, h_eq, -, -, h_tag, h_filled⟩ := h_held
    cases h_hold.symm.trans h_eq
    obtain ⟨s, hs, h_on⟩ := h_work.hold _ h_hold
    -- its flush holds this portion and nothing else
    have h_write := h.alone.flushWrite_eq hm.inv h_due.has h.clean hs h_on h_tag h_filled h_bytes
    rw [h_content] at h_write
    refine congrArg some (h_write.trans (Write.range_of_prefix h_grows ?_).symm)
    rw [← h_content, ← h.alone.last]
    exact (h_cut.portion p h_due.has).le_stop

/-- The middle that a call is about to write is the planned call to the Writer. -/
theorem Run.Active.writeDirect (h : r.Active i (.ready (.writeDirect e tk)) P start w) :
    (Task.writeDirect e tk).write? i = some ((r.plan content i).direct e) := by
  have hm := h.shown
  have h_work := h.alone.work hm.inv
  have h_content : P.account.content = r.journal.content := by rw [Account.content, hm.journal]
  obtain ⟨record, -, h_cut⟩ := h_work.cut
  obtain ⟨h_at⟩ := h.stands
  cases h_at with
  | writeDirect h_past h_middle =>
    have h_write := h_work.middleWrite_eq hm.inv.account
    rw [h_content] at h_write
    refine congrArg some (h_write.trans (Write.range_of_prefix h_grows ?_).symm)
    rw [← h_content, ← h.alone.last]
    exact h_cut.middle_within.2

end Writes

section Step

variable {content : Bytes} {status status' : Status Task Result} {P : Picture} {start : Task}
  {w : Work} (h : r.OnPlan content) (h_seq : r.Sequential) (h_fits : r.Fits)
  (h_grows : r.journal.content <+: content) (h_active : r.Active i status P start w)
  (hi : r.machine.calls[i]? = some status) (h_enters : r.Enters i e)
  (h_result : ∀ result, status' = .finished result → ∃ head, result = .ok (.appended head))

include h h_seq h_fits h_grows h_active hi h_enters h_result

/-- A step on a slot makes no call to the Writer, and leaves the calls to come as they are. -/
theorem Run.OnPlan.onSlot {k : Nat} {task late : Slot.Task} {next : Log.Next}
    (h_open : ∀ result, status ≠ .finished result)
    (h_at : At r.log.geometry r.log.format start (.onSlot k task next) (.working w))
    (h_entry : Status.entry? status = next.entry?)
    (h_status : (r.plan content i).status status = (r.plan content i).next next)
    (h_late : ∀ s : Slot, s.Unmet task → s.Unmet late)
    (h_leads : (run (.onSlot k late next) r.machine.state).1.Leads status') :
    (r.plan content i).status status' = (r.plan content i).next next := by
  have hm := h_active.shown
  obtain ⟨s, hs⟩ := hm.inv.slot_of_lt h_at.slot_lt
  refine Plan.status_onSlot (hm.log.slots ▸ hs) h_leads h_at.sweep?_eq_none ?_ h_result
  rintro e' p tk rfl
  -- the portion is one of the call's own record
  obtain rfl := h_enters.unique hm (r.enters h_fits i status e' hi h_entry)
  have h_has : Has e p := by
    cases h_at with
    | fillJoin h_free h_due h_part => exact h_due.has
    | join h_free h_due h_part => exact h_due.has
    | rejoin h_hold h_waits h_due h_part => exact h_due.has
  have h_unwritten := h.stop_le h_fits h_grows h_seq hi h_open h_enters h_has h_status
  refine h_late s (h_at.unmet hm.inv h_active.alone hs fun wr h_mem => ?_)
  rw [hm.journal] at h_mem
  exact h_unwritten wr (Journal.mem_writes.2 (r.started_of_returned h_mem))

end Step

/-- In a run in which nothing fails, the Writer goes on with every call. -/
theorem Run.Next.exists_writer {verdict : Verdict} {t : Task} {wr : Write}
    (h : r.Next (.answer i verdict) r') (h_clean : r'.Clean)
    (hi : r.machine.calls[i]? = some (.outside t)) (h_write : t.write? i = some wr) :
    ∃ writer, r.machine.state.write verdict wr.data wr.address wr.hint = (.ok (), writer) := by
  rcases h_pass : r.machine.state.write verdict wr.data wr.address wr.hint with ⟨stop | ⟨⟩, writer⟩
  · refine absurd ⟨wr, stop, ?_⟩ h_clean.succeeded
    have h_outcome : r.machine.state.outcome verdict wr = .error stop := by rw [outcome, h_pass]
    rw [h.journal, notes_answer hi, answerNotes_of_write h_write, h_outcome]
    exact List.mem_append_right _ (List.mem_singleton_self _)
  · exact ⟨writer, rfl⟩

section Acts

variable {content : Bytes} {status' : Status Task Result} {P : Picture} {start : Task} {w : Work}
  {t : Task}

/-- **The step of a ready commit** makes the call to the Writer that is next in its plan, or none. -/
theorem Run.OnPlan.ready (h : r.OnPlan content) (h_seq : r.Sequential) (h_fits : r.Fits)
    (h_grows : r.journal.content <+: content) (h_active : r.Active i (.ready t) P start w)
    (hi : r.machine.calls[i]? = some (.ready t)) (h_enters : r.Enters i e)
    (h_result : ∀ result, status' = .finished result → ∃ head, result = .ok (.appended head))
    (h_leads : (run t r.machine.state).1.Leads status') :
    (t.write? i).toList ++ (r.plan content i).status status' = (r.plan content i).status (.ready t) := by
  have hm := h_active.shown
  have h_stands := h_active.stands
  cases h_stands with
  | ready h_at =>
    cases t with
    | commit timestamp payload hint => cases h_at
    | reserve record hint => cases h_at
    -- on a slot nothing is written yet
    | onSlot k task next =>
      exact h.onSlot h_seq h_fits h_grows h_active hi h_enters h_result nofun h_at rfl rfl
        (fun _ h_unmet => h_unmet) h_leads
    | writeSlot k f data e' p tk =>
      cases h_leads
      obtain rfl := h_enters.unique hm (r.enters h_fits i _ e' hi rfl)
      rw [h_active.writeSlot h_grows]
      rfl
    | writeDirect e' tk =>
      cases h_leads
      obtain rfl := h_enters.unique hm (r.enters h_fits i _ e' hi rfl)
      rw [h_active.writeDirect h_grows]
      rfl
    | complete head =>
      cases h_leads
      rfl
    | poison reason result => cases h_at

/-- **A commit whose call to the Writer returns** goes on with the rest of its plan. -/
theorem Run.Active.answered (h_active : r.Active i (.outside t) P start w) {verdict : Verdict}
    (h_next : r.Next (.answer i verdict) r') (h_clean : r'.Clean)
    (hi : r.machine.calls[i]? = some (.outside t))
    (h_leads : (answered t verdict r.machine.state).1.Leads status') :
    (r.plan content i).status status' = (r.plan content i).status (.outside t) := by
  cases h_active.stands with
  | outside h_at =>
    cases h_at with
    | writeSlot h_waits h_hold h_due h_part =>
      -- nothing fails in a clean run, so the Writer has taken it
      obtain ⟨writer, h_pass⟩ := h_next.exists_writer h_clean hi rfl
      rw [Log.answered, h_pass] at h_leads
      cases h_leads
      rfl
    | writeDirect h_past h_middle =>
      obtain ⟨writer, h_pass⟩ := h_next.exists_writer h_clean hi rfl
      rw [Log.answered, h_pass] at h_leads
      cases h_leads
      exact Plan.task_tailTask

/-- **One step of a commit keeps to the plan.** -/
theorem Run.OnPlan.acts {status : Status Task Result} {o : Move Task Result × Log W}
    (h : r.OnPlan content) (h_grows : r.journal.content <+: content)
    (h_next : r.Next ev r') (h_seq : r'.Sequential) (h_fits : r'.Fits) (h_clean : r'.Clean)
    (h_acts : Machine.Acts (program W) r.machine ev i status o) (h_leads : o.1.Leads status')
    (hi' : r'.machine.calls[i]? = some status') (h_enters : r.Enters i e) :
    (notes r.machine ev).writes ++ (r.plan content i).status status' =
      (r.plan content i).status status := by
  have h_before := h_next.before
  have h_fits₁ := h_before.fits h_fits
  have h_seq₁ := h_before.sequential h_seq
  have h_result : ∀ result, status' = .finished result → ∃ head, result = .ok (.appended head) := by
    rintro result rfl
    exact ⟨_, (h_before.enters h_enters).finished h_fits h_clean hi'⟩
  have h_open : ∀ result, status ≠ .finished result := by
    rintro result rfl
    cases h_acts
  obtain ⟨P, start, w, h_active⟩ :=
    h_seq₁.exists_active h_fits₁ (h_before.clean h_clean) h_acts.before h_open h_enters
  cases h_acts with
  | @run i t hi =>
    rw [notes_run hi, (writes_runNotes r.machine.state i t).1]
    exact h.ready h_seq₁ h_fits₁ h_grows h_active hi h_enters h_result h_leads
  | @expire i c wake late hi =>
    cases h_active.stands with
    | parked h_at h_late =>
      -- at its deadline a call takes what it has waited for
      obtain ⟨k, τ, next⟩ := h_late _ rfl
      have h_unmet : ∀ s : Slot, s.Unmet (.rejoin τ) → s.Unmet (.joinLate τ) := fun _ h => h
      exact h.onSlot h_seq₁ h_fits₁ h_grows h_active hi h_enters h_result h_open h_at rfl rfl
        h_unmet h_leads
  | @answer i t verdict hi =>
    rw [notes_answer hi, (writes_answerNotes r.machine.state i verdict t).1, List.nil_append]
    exact h_active.answered h_next h_clean hi h_leads

end Acts

/-! ### A whole run -/

/-- A call that has its entry had it before, or it reserves its addresses now. -/
theorem Run.Next.enters_cases (h : r.Next ev r') (h_fits : r.Fits) (h_enters : r'.Enters i e) :
    r.Enters i e ∨ ∃ record hint, ev = .run i ∧
      r.machine.calls[i]? = some (.ready (.reserve record hint)) ∧
      CutInto r.log.geometry r.machine.state.position record hint e := by
  obtain ⟨timestamp, payload, hint, record, h_start, h_encode, h_mem, h_cut⟩ := h_enters
  rw [← h.log] at h_encode h_cut
  rw [h.journal] at h_mem
  rcases List.mem_append.1 h_mem with h_mem | h_mem
  · refine .inl ⟨timestamp, payload, hint, record, ?_, h_encode, h_mem, h_cut⟩
    refine (h.start_cases h_start).resolve_right ?_
    rintro ⟨h_new, -⟩
    exact (r.call_lt _ h_mem).ne h_new
  · rcases Machine.step_cases h.step with ⟨start, rfl, -⟩ | ⟨j, status, o, h_acts, -⟩
    · cases h_mem
    · rcases reserves_of_acts h_acts with h_none | ⟨record', hint', rfl, rfl, h_notes⟩
      · have h_res := Journal.mem_reservations.2 h_mem
        rw [h_none] at h_res
        cases h_res
      · rw [h_notes, List.mem_singleton, Note.reserved.injEq, Reservation.mk.injEq] at h_mem
        obtain ⟨rfl, h_head, rfl⟩ := h_mem
        have hi := h_acts.before
        -- the hint is the one that the call was made with
        obtain ⟨P, hm, -⟩ := r.exists_matches h_fits r.within_all
        obtain ⟨start, v, h_start', -, ⟨h_at⟩⟩ := hm.exists_view hi
        have h_commit : start = .commit timestamp payload hint :=
          Option.some.inj ((h.before.getElem?_starts h_start').symm.trans h_start)
        subst h_commit
        cases h_at with
        | reserve h_eq h_encode' =>
          cases h_eq
          exact .inr ⟨record, hint, rfl, hi, h_head ▸ h_cut⟩
        | failing h_failing => cases h_failing

/-- A call that is about to reserve its addresses has no entry. -/
theorem Run.not_enters_of_reserve {record : Bytes} {hint : Int32} (h_fits : r.Fits)
    (hi : r.machine.calls[i]? = some (.ready (.reserve record hint))) : ¬ r.Enters i e := by
  intro h
  obtain ⟨P, hm, -⟩ := r.exists_matches h_fits r.within_all
  obtain ⟨start, v, -, hv, ⟨h_at⟩⟩ := hm.exists_view hi
  obtain ⟨record', h_mem, -⟩ := h.cut hm
  cases h_at with
  | reserve => exact hm.inv.call i _ hv _ (Journal.mem_reservations.2 (hm.journal ▸ h_mem)) rfl
  | failing h_failing => cases h_failing

/-- The content only grows. -/
theorem Run.Before.content_grows (h : r.Before r') : r.journal.content <+: r'.journal.content := by
  obtain ⟨K, h_journal⟩ := h.journal
  rw [h_journal, Journal.content_append]
  exact List.prefix_append _ _

section Next

variable {content : Bytes}

/-- A call that reserves its addresses has made no call to the Writer yet, and has all of its plan to
come. -/
theorem Run.plan_of_reserves {status : Status Task Result} {o : Move Task Result × Log W}
    {record : Bytes} {hint : Int32} (h_fits : r.Fits)
    (h_acts : Machine.Acts (program W) r.machine (.run i) i (.ready (.reserve record hint)) o)
    (h_leads : o.1.Leads status)
    (h_cut : CutInto r.log.geometry r.machine.state.position record hint e) :
    r.journal.writes.filter (·.call = i) ++ ((notes r.machine (.run i)).writes ++
      (r.plan content i).status status) = (r.plan content i).entry e := by
  have hi := h_acts.before
  have h_none := r.writes_eq_nil h_fits fun e' => r.not_enters_of_reserve h_fits hi
  obtain ⟨P, hm, -⟩ := r.exists_matches h_fits r.within_all
  rw [← hm.log.geometry] at h_cut
  rw [h_none, notes_run hi, (writes_runNotes _ i _).1, List.nil_append]
  cases h_acts
  exact Plan.status_reserve h_cut h_leads

/-- **One event keeps all commits to their plans.** -/
theorem Run.OnPlan.next (h : r.OnPlan content) (h_next : r.Next ev r') (h_seq : r'.Sequential)
    (h_fits : r'.Fits) (h_clean : r'.Clean) (h_grows : r'.journal.content <+: content) :
    r'.OnPlan content := by
  intro i status' e hi' h_enters
  have h_fits₁ := h_next.before.fits h_fits
  have h_cases := h_next.enters_cases h_fits₁ h_enters
  have h_plan : r'.plan content i = r.plan content i := by rw [Run.plan, Run.plan, h_next.log]
  rw [h_plan, h_next.journal, Journal.writes_append, List.filter_append, List.append_assoc]
  -- a call that does not make the step stays as it is
  have h_other : (∀ n ∈ notes r.machine ev, n.call ≠ i) → ev ≠ .run i → ∀ status,
      r.machine.calls[i]? = some status → status.Remains status' →
      r.journal.writes.filter (·.call = i) ++ ((notes r.machine ev).writes.filter (·.call = i) ++
        (r.plan content i).status status') = (r.plan content i).entry e := by
    intro h_notes h_ev status hi h_remains
    have h_old : r.Enters i e := h_cases.resolve_right fun ⟨_, _, h_eq, _⟩ => h_ev h_eq
    rw [(filter_call_of_ne h_notes).1, List.nil_append, Plan.status_remains h_remains]
    exact h i status e hi h_old
  rcases Machine.step_cases h_next.step with ⟨start, rfl, h_eq⟩ | ⟨j, status, o, h_acts, h_stepped⟩
  · rw [h_eq] at hi'
    rcases Machine.getElem?_call hi' with hi | ⟨rfl, rfl⟩
    · exact h_other (fun n hn => by cases hn) (fun h_ev => by cases h_ev) _ hi (.same _)
    · -- a call that is made now has no entry
      have h_old := h_cases.resolve_right fun ⟨_, _, h_ev, _⟩ => by cases h_ev
      obtain ⟨record, -, h_mem, -⟩ := h_old.place h_fits₁
      exact absurd (r.call_lt _ (Journal.mem_reservations.1 h_mem)) (lt_irrefl _)
  · by_cases h_eq : i = j
    · subst h_eq
      obtain ⟨status₁, hi₁, h_leads⟩ := h_stepped.self
      cases hi₁.symm.trans hi'
      have h_own : (notes r.machine ev).writes.filter (·.call = i) = (notes r.machine ev).writes :=
        List.filter_eq_self.2 fun wr hw => decide_eq_true
          (Run.call_of_notes h_acts (Journal.mem_writes.1 hw))
      rw [h_own]
      rcases h_cases with h_old | ⟨record, hint, rfl, hi, h_cut⟩
      · have h_grows₁ := h_next.before.content_grows.trans h_grows
        rw [h.acts h_grows₁ h_next h_seq h_fits h_clean h_acts h_leads hi' h_old]
        exact h i status e h_acts.before h_old
      · cases h_acts.before.symm.trans hi
        exact Run.plan_of_reserves h_fits₁ h_acts h_leads h_cut
    · obtain ⟨status₁, hi, h_remains⟩ := h_stepped.exists_before h_eq hi'
      refine h_other (fun n hn h_call => ?_) ?_ _ hi h_remains
      · exact h_eq (h_call.symm.trans (Run.call_of_notes h_acts hn))
      · rintro rfl
        cases h_acts
        exact h_eq rfl

/-- **Commits that are made one after another keep to their plans**, as long as nothing fails. -/
theorem Run.Sequential.onPlan (h_seq : r.Sequential) (h_fits : r.Fits) (h_clean : r.Clean)
    (h_grows : r.journal.content <+: content) : r.OnPlan content := by
  refine r.induction (fun i status e hi _ => ?_) fun r₁ ev r₂ h_next h_before ih => ?_
  · cases (r.getElem?_calls_start i).symm.trans hi
  · exact ih.next h_next (h_before.sequential h_seq) (h_before.fits h_fits) (h_before.clean h_clean)
      (h_before.content_grows.trans h_grows)

end Next

end Runs

end GroupCommit.Log
