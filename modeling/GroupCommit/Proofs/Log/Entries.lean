import GroupCommit.Proofs.Log.Sweep

/-!
# The entry of a call

From the moment at which it reserves addresses, a commit carries its entry along: whatever it is about to
do is about this entry, which is the record of the commit, cut at the addresses that were reserved for
it. So two things that are known of the entry of one commit, at different times, are known of one and
the same entry.

* `Task.entry?`, `Status.entry?`: the entry that a call carries along.
* `Run.Enters`, `Run.enters`: it is the one that the record of the call was cut into.
* `Run.Enters.cut`, `Run.Enters.unique`: how it is cut, and that there is only one.
-/

namespace GroupCommit.Log

/-- The entry of the call that goes on like this. -/
def Next.entry? : Next → Option Entry
  | .acquired entry _ _ => some entry
  | .joined entry _ _ => some entry
  | .handedBack entry _ _ => some entry
  | .tailOffered entry _ => some entry
  | .tailFilled entry _ => some entry
  | .skipped entry _ _ => some entry
  | _ => none

/-- The entry of the call that is about to do this. -/
def Task.entry? : Task → Option Entry
  | .onSlot _ _ next => next.entry?
  | .writeSlot _ _ _ entry _ _ => some entry
  | .writeDirect entry _ => some entry
  | _ => none

/-- The entry of a call with this status. -/
def Status.entry? : Status Task Result → Option Entry
  | .ready task => task.entry?
  | .parked _ wake _ => wake.entry?
  | .outside task => task.entry?
  | .finished _ => none

variable {W : Type} {g : Geometry} {e : Entry} {status : Status Task Result}

/-! ### The way of an entry -/

/-- The task is about this entry, if it is about any. -/
def Task.Carries (e : Entry) (t : Task) : Prop := ∀ e', t.entry? = some e' → e' = e

section Carries

variable (g e)

theorem carries_complete (head : Nat) : (Task.complete head).Carries e := nofun

/-- What a call goes on with is about the same entry. -/
theorem carries_tailTask (tk : Option Ticket) : (tailTask g e tk).Carries e := by
  unfold tailTask
  split
  · exact carries_complete e _
  · cases tk <;> exact fun e' h => (Option.some.inj h).symm

theorem carries_skipOrWriteTask (n : Nat) (tk : Option Ticket) :
    (skipOrWriteTask g e n tk).Carries e := by
  unfold skipOrWriteTask
  split <;> exact fun e' h => (Option.some.inj h).symm

theorem carries_middleTask (tk : Option Ticket) : (middleTask g e tk).Carries e := by
  unfold middleTask
  split
  · exact carries_tailTask g e tk
  · exact carries_skipOrWriteTask g e 0 tk

theorem carries_headTask (tk : Option Ticket) : (headTask g e tk).Carries e := by
  unfold headTask
  split
  · exact carries_middleTask g e tk
  · exact fun e' h => (Option.some.inj h).symm

theorem carries_entryTask : (entryTask g e).Carries e := by
  unfold entryTask
  split
  · exact fun e' h => (Option.some.inj h).symm
  · split
    · exact carries_headTask g e none
    · exact fun e' h => (Option.some.inj h).symm

theorem carries_afterOfferTask (afterHead : Bool) (tk : Option Ticket) :
    (afterOfferTask g e afterHead tk).Carries e := by
  unfold afterOfferTask
  split
  · exact carries_middleTask g e tk
  · exact carries_headTask g e tk

theorem carries_portionTask (p : Portion) (tk : Option Ticket) :
    (portionTask g e p tk).Carries e := by
  unfold portionTask
  split
  · exact carries_complete e _
  · split
    · exact carries_middleTask g e tk
    · exact fun e' h => (Option.some.inj h).symm
  · exact carries_complete e _

end Carries

/-! ### Steps -/

/-- Waking a call does not change its entry. -/
theorem entry?_remains {status' : Status Task Result} (h : status.Remains status') :
    Status.entry? status' = Status.entry? status := by
  cases h <;> rfl

/-- A call that poisons the ring has done with its entry. -/
theorem entry?_poisonFrom {index : Nat} {reason : PoisonReason} {result : Result}
    (h : (poisonFrom g index reason result).Leads status) : Status.entry? status = none := by
  cases poisonsFrom h <;> rfl

/-- A call goes on with the entry that it has. -/
theorem entry?_resume {next : Next} {answer : Slot.Result} (h : (resume g next answer).Leads status)
    (he : Status.entry? status = some e) : next.entry? = some e := by
  have h_carries : ∀ {t : Task} {e₁ : Entry}, t.Carries e₁ → t.entry? = some e → some e₁ = some e :=
    fun h_carries h_some => congrArg some (h_carries e h_some).symm
  cases goesWith h with
  | finishes | ended | unreadable => cases he
  | stopped => cases he
  | poisoned h =>
    rw [entry?_poisonFrom h] at he
    cases he
  | acquired | given | accepted => exact he
  | spared | handedBack => exact h_carries (carries_portionTask g _ _ _) he
  | declined | filled | unfilled => exact h_carries (carries_afterOfferTask g _ _ _) he
  | skipped => exact h_carries (carries_skipOrWriteTask g _ _ _) he

/-- The record is cut into this entry when it is given this place. -/
def CutInto (g : Geometry) (head : Nat) (record : Bytes) (hint : Int32) (e : Entry) : Prop :=
  (g.span head record.length).bind (Entry.ofRecord · record hint) = .ok e

/-- After a step a call has the entry that it had before, or it has just reserved addresses. -/
theorem entry?_run {t : Task} {log : Log W} (h : (run t log).1.Leads status)
    (he : Status.entry? status = some e) : t.entry? = some e ∨
      ∃ record hint, t = .reserve record hint ∧ CutInto log.geometry log.position record hint e := by
  have h_effect := run_effect t log
  generalize run t log = o at h h_effect
  cases h_effect with
  | placed h_cut =>
    cases h
    -- the entry is cut in this step
    obtain rfl := carries_entryTask _ _ _ he
    exact .inr ⟨_, _, rfl, h_cut⟩
  | onSlot hs =>
    cases lands hs h with
    | resumed h_result h => exact .inl (entry?_resume h he)
    | _ => exact .inl he
  | writesSlot | writesDirect =>
    cases h
    exact .inl he
  | poisons =>
    rw [entry?_poisonFrom h] at he
    cases he
  | _ =>
    cases h
    cases he

theorem entry?_answered [Writer W] {t : Task} {verdict : Verdict} {log : Log W}
    (h : (answered t verdict log).1.Leads status) (he : Status.entry? status = some e) :
    t.entry? = some e := by
  have h_reaction := answered_reaction t verdict log
  generalize answered t verdict log = o at h h_reaction
  cases h_reaction with
  | slotWritten | idle =>
    cases h
    exact he
  | directWritten =>
    cases h
    exact congrArg some (carries_tailTask _ _ _ _ he).symm
  | _ =>
    cases h
    cases he

/-! ### Runs -/

section Runs

variable [Writer W] {r r' : Run W} {i : Nat}

/-- This is the entry of the commit `i`: its record, cut at the addresses that are reserved for it. -/
def Run.Enters (r : Run W) (i : Nat) (e : Entry) : Prop :=
  ∃ timestamp payload hint record, r.starts[i]? = some (.commit timestamp payload hint) ∧
    r.log.format.encode timestamp payload = .ok record ∧
    .reserved ⟨i, e.span.head, record⟩ ∈ r.journal ∧
    CutInto r.log.geometry e.span.head record hint e

/-- An entry that was entered stays entered. -/
theorem Run.Before.enters (h : r.Before r') (he : r.Enters i e) : r'.Enters i e := by
  obtain ⟨timestamp, payload, hint, record, h_start, h_encode, h_mem, h_cut⟩ := he
  refine ⟨timestamp, payload, hint, record, h.getElem?_starts h_start, ?_, h.mem_journal h_mem, ?_⟩
  · rw [← h.log]
    exact h_encode
  · rw [← h.log]
    exact h_cut

section Matches

variable {P : Picture} (hm : Matches r.log.geometry r.log.format r.starts r.machine r.journal P)

include hm

/-- A record that is reserved can be cut at its place. -/
theorem Matches.exists_cut {head : Nat} {record : Bytes} (h_mem : .reserved ⟨i, head, record⟩ ∈ r.journal)
    (h_pos : 0 < record.length) (hint : Int32) :
    ∃ e, CutInto r.log.geometry head record hint e ∧ e.span.head = head ∧
      Cut r.log.geometry e record := by
  have h_layout := hm.inv.account.layout
  have h_le : head + record.length ≤ 0 + _ :=
    h_layout.tiles.stop_le (Journal.mem_reservations.2 (hm.journal ▸ h_mem))
  have h_room := h_layout.room
  have h_gap := Nat.le_mul_of_pos_right r.log.geometry.capacity r.log.geometry.ringSize_pos
  exact Log.exists_cut (by omega) h_pos (by omega) hint

/-- The entry of a call is what its record was cut into. -/
theorem Run.Enters.cut (h : r.Enters i e) : ∃ record,
    .reserved ⟨i, e.span.head, record⟩ ∈ r.journal ∧ Cut r.log.geometry e record := by
  obtain ⟨timestamp, payload, hint, record, h_start, h_encode, h_mem, h_cut⟩ := h
  obtain ⟨e', h_cut', -, h_pieces⟩ :=
    hm.exists_cut h_mem (Record.Format.length_pos_of_encode h_encode) hint
  cases h_cut.symm.trans h_cut'
  exact ⟨record, h_mem, h_pieces⟩

/-- A call has one entry. -/
theorem Run.Enters.unique {e' : Entry} (h : r.Enters i e) (h' : r.Enters i e') : e = e' := by
  obtain ⟨timestamp, payload, hint, record, h_start, -, h_mem, h_cut⟩ := h
  obtain ⟨timestamp', payload', hint', record', h_start', -, h_mem', h_cut'⟩ := h'
  have h_layout := hm.inv.account.layout
  rw [hm.journal] at h_layout
  -- it is given by what is reserved for the call and by what the call was made with
  have h_same := h_layout.eq_of_call (Journal.mem_reservations.2 h_mem)
    (Journal.mem_reservations.2 h_mem') rfl
  have h_head : e.span.head = e'.span.head := congrArg Reservation.head h_same
  have h_record : record = record' := congrArg Reservation.record h_same
  cases h_start.symm.trans h_start'
  rw [← h_head, ← h_record] at h_cut'
  exact Except.ok.inj (h_cut.symm.trans h_cut')

end Matches

/-- The entry that a call has after its step. -/
theorem enters_of_acts {ev : Event Task Verdict} {status' : Status Task Result}
    {o : Move Task Result × Log W} (h_next : r.Next ev r') (h_fits : r'.Fits)
    (h_acts : Machine.Acts (program W) r.machine ev i status o) (h_leads : o.1.Leads status')
    (he : Status.entry? status' = some e) :
    Status.entry? status = some e ∨ r'.Enters i e := by
  cases h_acts with
  | @run i t hi =>
    refine (entry?_run h_leads he).imp_right ?_
    rintro ⟨record, hint, rfl, h_cut⟩
    obtain ⟨P, hm, -⟩ := r.exists_matches (h_next.before.fits h_fits) r.within_all
    obtain ⟨start, v, h_start, -, h_stands⟩ := hm.exists_view hi
    cases h_stands with
    | ready h_at =>
      cases h_at with
      | failing h_failing => cases h_failing
      | @reserve timestamp payload _ _ h_commit h_encode =>
        subst h_commit
        -- what is reserved now is noted in the longer run
        have h_mem : .reserved ⟨i, r.machine.state.position, record⟩ ∈ r'.journal := by
          rw [h_next.journal, notes_run hi]
          exact List.mem_append_right _ (List.mem_singleton_self _)
        have h_position : e.span.head = r.machine.state.position := by
          obtain ⟨P', hm', -⟩ := r'.exists_matches h_fits r'.within_all
          obtain ⟨e', h_cut', h_head, -⟩ :=
            hm'.exists_cut h_mem (Record.Format.length_pos_of_encode h_encode) hint
          rw [← h_next.log, ← hm.log.geometry] at h_cut'
          cases h_cut.symm.trans h_cut'
          exact h_head
        refine ⟨timestamp, payload, hint, record, h_next.before.getElem?_starts h_start, ?_, ?_, ?_⟩
        · rw [← h_next.log]
          exact h_encode
        · rw [h_position]
          exact h_mem
        · rw [h_position, ← h_next.log, ← hm.log.geometry]
          exact h_cut
  | expire hi =>
    -- at its deadline a call goes on about the same
    obtain ⟨task, next, rfl, h_late, -⟩ := r.blocked i _ _ _ hi
    obtain ⟨task', -, rfl⟩ := Option.map_eq_some_iff.1 h_late.symm
    rcases entry?_run h_leads he with h_same | ⟨record, hint, h_eq, -⟩
    · exact .inl h_same
    · cases h_eq
  | answer hi => exact .inl (entry?_answered h_leads he)

/-- **Every call carries its own entry along.** -/
theorem Run.enters (r : Run W) (h_fits : r.Fits) : ∀ (i : Nat) status e,
    r.machine.calls[i]? = some status → Status.entry? status = some e → r.Enters i e := by
  refine r.induction (fun i status e hi => ?_) fun r₁ ev r₂ h_next h_before ih j status' e hj he => ?_
  · cases (r.getElem?_calls_start i).symm.trans hi
  · cases Machine.came h_next.step hj with
    | made start =>
      rcases h_next.begins with ⟨timestamp, payload, hint, rfl⟩ | ⟨reason, rfl⟩ <;> cases he
    | stepped h_acts h_stepped h_leads =>
      rcases enters_of_acts h_next (h_before.fits h_fits) h_acts h_leads he with h_old | h_new
      · exact h_next.before.enters (ih j _ e h_acts.before h_old)
      · exact h_new
    | remained hj h_remains =>
      rw [entry?_remains h_remains] at he
      exact h_next.before.enters (ih j _ e hj he)

end Runs

end GroupCommit.Log
