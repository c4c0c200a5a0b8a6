import GroupCommit.Proofs.Log.Balance
import GroupCommit.Proofs.Log.Entries

/-!
# What calls to the Writer are made for

Every call to the Writer is made for the entry of its commit: it writes the slot of one of the portions,
or all of the middle. And a commit that is about to hand a flush back has written it. So of a call that
has succeeded one can tell from the layout of the records which blocks it has to do with.

* `Asks`, `Run.asks`: what a call to the Writer is made for.
* `Run.written_of_release`: a flush that is handed back was written.
* `Run.Bypasses`: the blocks that lie in the middle of a record; they are written past the slots
  (`Asks.direct_of_bypasses`).
-/

namespace GroupCommit.Log

/-- What a call to the Writer has to do with the entry of its commit. -/
inductive Asks (g : Geometry) (e : Entry) (w : Write) : Prop
  /-- It writes the slot of a portion. -/
  | flush {kind : FlushKind} {p : Portion} (h_source : w.source = .slot kind) (h_has : Has e p)
      (h_tag : w.address = portionTag e p) (h_full : kind = .full → w.data.length = g.capacity)
  /-- It writes the middle. -/
  | direct (h_source : w.source = .direct) (h_spanning : e.span.isSingleSlot = false)
      (h_address : w.address = e.middle.start) (h_data : w.data = e.direct)

variable {W : Type} {g : Geometry} {format : Record.Format} {start : Task} {P : Picture} {i : Nat}

/-- What a call that is about to write asks for. -/
theorem At.asks {t : Task} {v : View} {w : Write} (h_at : At g format start t v) (h : Inv g P)
    (hv : P.calls[i]? = some v) (hw : t.write? i = some w) :
    ∃ e, t.entry? = some e ∧ Asks g e w := by
  cases h_at with
  | @writeSlot work p tk f data h_waits h_hold h_due h_part h_bytes =>
    cases hw
    refine ⟨work.entry, rfl, ?_⟩
    have h_work : WorkInv g P i work := h.call i _ hv
    obtain ⟨s, hs, h_on⟩ := h_work.hold _ h_hold
    -- the portion that the call has in hands is in the slot of the flush
    have h_held : PartInv g P work.entry work.hold p .held := h_part ▸ h_work.part p h_due.has
    obtain ⟨hold, h_some, -, -, h_tag, -⟩ := h_held
    cases h_hold.symm.trans h_some
    refine .flush rfl h_due.has h_tag fun h_full => ?_
    obtain ⟨h_data, -⟩ := flush_bytes_ok h_bytes
    rw [h_data, Buffer.length_first]
    exact h_on.full h_full
  | @writeDirect work tk h_past h_middle =>
    cases hw
    exact ⟨work.entry, rfl, .direct rfl h_past.spanning rfl rfl⟩
  | failing h_failing => cases h_failing <;> cases hw
  | _ => cases hw

/-! ### Where a call to the Writer may go -/

section Places

variable [Writer W] {r r' : Run W} {e e' : Entry} {w : Write} {t a : Nat}

/-- **What calls to the Writer are made for.** -/
theorem Run.asks (r : Run W) (h_fits : r.Fits) : ∀ w, .started w ∈ r.journal →
    ∃ e, r.Enters w.call e ∧ Asks r.log.geometry e w := by
  refine r.induction nofun fun r₁ ev r₂ h_next h_before ih w h_mem => ?_
  rw [h_next.journal] at h_mem
  rcases List.mem_append.1 h_mem with h_old | h_new
  · obtain ⟨e, h_enters, h_asks⟩ := ih w h_old
    exact ⟨e, h_next.before.enters h_enters, h_next.log ▸ h_asks⟩
  · have h_fits₁ : r₁.Fits := h_next.before.fits (h_before.fits h_fits)
    rcases Machine.step_cases h_next.step with ⟨start, rfl, -⟩ | ⟨i, status, o, h_acts, -⟩
    · cases h_new
    · have h_write := Journal.mem_writes.2 h_new
      cases h_acts with
      | @run i t hi =>
        -- a call is started by a step; neither a deadline nor an answer starts one
        rw [notes_run hi, (writes_runNotes _ i t).1, Option.mem_toList] at h_write
        obtain ⟨P, hm, -⟩ := r₁.exists_matches h_fits₁ r₁.within_all
        obtain ⟨start, v, -, hv, h_stands⟩ := hm.exists_view hi
        cases h_stands with
        | ready h_at =>
          obtain ⟨e, he, h_asks⟩ := h_at.asks hm.inv hv h_write
          have h_enters := r₁.enters h_fits₁ i _ e hi he
          rw [call_of_write? h_write, ← h_next.log]
          exact ⟨e, h_next.before.enters h_enters, h_asks⟩
      | expire hi => cases h_new
      | @answer i t verdict hi =>
        rw [notes_answer hi, (writes_answerNotes _ i verdict t).1] at h_write
        cases h_write

/-- A commit that has no entry has made no call to the Writer. -/
theorem Run.writes_eq_nil {i : Nat} (r : Run W) (h_fits : r.Fits) (h : ∀ e, ¬ r.Enters i e) :
    r.journal.writes.filter (·.call = i) = [] := by
  refine List.filter_eq_nil_iff.2 fun w hw h_call => ?_
  obtain ⟨e, h_enters, -⟩ := r.asks h_fits w (Journal.mem_writes.1 hw)
  exact h e (of_decide_eq_true h_call ▸ h_enters)

/-- What is known of the calls that have succeeded. -/
theorem Run.asks_of_success (h_fits : r.Fits) (hw : w ∈ r.journal.successes) :
    ∃ e, r.Enters w.call e ∧ Asks r.log.geometry e w :=
  r.asks h_fits w (r.started_of_returned (Journal.mem_successes.1 hw))

/-- The block lies in the middle of a record. -/
def Run.Bypasses (r : Run W) (t : Nat) : Prop :=
  ∃ i e, r.Enters i e ∧ e.middle.start ≤ t ∧ t + r.log.geometry.capacity ≤ e.middle.stop

theorem Run.Before.bypasses (h : r.Before r') (h_bypasses : r.Bypasses t) : r'.Bypasses t := by
  obtain ⟨i, e, h_enters, h_in⟩ := h_bypasses
  exact ⟨i, e, h.enters h_enters, h.log ▸ h_in⟩

section Matches

variable (hm : Matches r.log.geometry r.log.format r.starts r.machine r.journal P)

include hm

/-- An address belongs to one entry. -/
theorem Run.Enters.same {j : Nat} (h : r.Enters i e) (h' : r.Enters j e') (h₁ : e.span.head ≤ a)
    (h₂ : a < entryStop e) (h₁' : e'.span.head ≤ a) (h₂' : a < entryStop e') : e = e' := by
  obtain ⟨record, h_mem, h_cut⟩ := h.cut hm
  obtain ⟨record', h_mem', h_cut'⟩ := h'.cut hm
  have h_layout := hm.inv.account.layout
  rw [hm.journal] at h_layout
  rw [entryStop, h_cut.total] at h₂
  rw [entryStop, h_cut'.total] at h₂'
  have h_same := h_layout.eq_of_mem (Journal.mem_reservations.2 h_mem)
    (Journal.mem_reservations.2 h_mem') h₁ h₂ h₁' h₂'
  obtain rfl : i = j := congrArg Reservation.call h_same
  exact h.unique hm h'

/-- The middle lies within the record's range. -/
theorem Run.Enters.in_middle (h : r.Enters i e) (h₁ : e.middle.start ≤ a) (h₂ : a < e.middle.stop) :
    e.span.head ≤ a ∧ a < entryStop e := by
  obtain ⟨record, -, h_cut⟩ := h.cut hm
  obtain ⟨h_from, h_to⟩ := h_cut.middle_within
  exact ⟨h_from.trans h₁, h₂.trans_le h_to⟩

/-- A block in the middle of a record is not written through its slot: whoever does so has a portion in
the block. -/
theorem Asks.not_bypasses (h : Asks r.log.geometry e w) (h_enters : r.Enters i e) (h_flush : w.IsFlush) :
    ¬ r.Bypasses w.address := by
  rintro ⟨j, e', h_enters', h_start, h_stop⟩
  cases h with
  | direct h_source => exact h_flush h_source
  | @flush kind p h_source h_has h_tag =>
    obtain ⟨record, -, h_cut⟩ := h_enters.cut hm
    have h_portion := h_cut.portion p h_has
    have h_first := h_portion.first_mem
    have h_block := h_portion.inBlock h_first
    rw [← h_tag] at h_block
    -- the first address of the portion would lie in the middle as well
    have h_from := h_start.trans h_block.1
    have h_to := h_block.2.trans_le h_stop
    obtain ⟨h₁, h₂⟩ := h_enters'.in_middle hm h_from h_to
    obtain rfl := h_enters.same hm h_enters' h_portion.head_le
      (h_first.2.trans_le h_portion.le_stop) h₁ h₂
    rcases h_cut.notMem_middle h_has h_first with h_before | h_behind
    · exact absurd h_from (Nat.not_le.2 h_before)
    · exact absurd h_to (Nat.not_lt.2 h_behind)

/-- A call that writes the middle of a record writes all of it. -/
theorem Asks.middle (h : Asks r.log.geometry e w) (h_enters : r.Enters i e) (h_direct : w.source = .direct) :
    w.address = e.middle.start ∧ w.stop = e.middle.stop ∧ r.log.geometry.capacity ∣ w.address ∧
      r.log.geometry.capacity ∣ w.data.length := by
  cases h with
  -- a flush is not a direct write
  | flush h_source =>
    rw [h_source] at h_direct
    cases h_direct
  | direct h_source h_spanning h_address h_data =>
    obtain ⟨record, -, h_cut⟩ := h_enters.cut hm
    have h_le := h_cut.middle_le
    have h_length : w.data.length = e.middle.stop - e.middle.start := h_data ▸ h_cut.direct_length
    refine ⟨h_address, ?_, h_address ▸ h_cut.start_dvd h_spanning, ?_⟩
    · rw [Write.stop, h_address, h_length, Nat.add_sub_cancel' h_le]
    · rw [h_length]
      exact Nat.dvd_sub (h_cut.stop_dvd h_spanning) (h_cut.start_dvd h_spanning)

/-- A call that writes to a block in the middle of a record writes all of the block, past its slot. -/
theorem Asks.direct_of_bypasses (h : Asks r.log.geometry e w) (h_enters : r.Enters i e)
    (h_dvd : r.log.geometry.capacity ∣ w.address)
    (h_length : w.IsFlush → w.data.length ≤ r.log.geometry.capacity) (h_bypasses : r.Bypasses t)
    (ht : r.log.geometry.capacity ∣ t) (h_covers : w.Covers t) :
    w.source = .direct ∧ w.address ≤ t ∧ t + r.log.geometry.capacity ≤ w.stop := by
  have h_direct : w.source = .direct := by
    by_contra h_flush
    -- a flush writes one block, and that would be this one
    have h_in : r.log.geometry.InBlock w.address t :=
      ⟨h_covers.1, h_covers.2.trans_le (Nat.add_le_add_left (h_length h_flush) _)⟩
    have h_same := h_in.unique (Geometry.inBlock_self t) h_dvd ht
    exact h.not_bypasses hm h_enters h_flush (h_same ▸ h_bypasses)
  obtain ⟨h_start, h_stop, -, -⟩ := h.middle hm h_enters h_direct
  obtain ⟨j, e', h_enters', h_from, h_to⟩ := h_bypasses
  have h_pos := r.log.geometry.capacity_pos
  obtain ⟨h₁, h₂⟩ := h_enters.in_middle hm (h_start ▸ h_covers.1) (h_stop ▸ h_covers.2)
  obtain ⟨h₁', h₂'⟩ := h_enters'.in_middle hm h_from (by omega)
  obtain rfl := h_enters.same hm h_enters' h₁ h₂ h₁' h₂'
  exact ⟨h_direct, h_start ▸ h_from, h_stop ▸ h_to⟩

end Matches

end Places

/-! ### Handing flushes back -/

section Release

variable {k : Nat} {f : Flush} {next : Log.Next}

/-- A call goes to hand a flush back when the Writer has answered, and at no other time. -/
theorem not_release_run {t : Task} {log : Log W} :
    ¬ (run t log).1.Leads (.ready (.onSlot k (.release f) next)) := by
  have h_plain : ∀ {t : Task}, t.Plain → t ≠ .onSlot k (.release f) next := by
    intro t h h_eq
    cases h.begins _ _ _ h_eq
  have h_from : ∀ {g index reason result},
      ¬ (poisonFrom g index reason result).Leads (.ready (.onSlot k (.release f) next)) := by
    intro g index reason result h
    cases poisonsFrom h
  intro h
  have h_effect := run_effect t log
  generalize run t log = o at h h_effect
  cases h_effect with
  -- a record that has been placed begins with a slot or a direct write
  | placed =>
    generalize h_eq : entryTask _ _ = t at h
    cases h
    exact h_plain (plain_entryTask _) h_eq
  | @onSlot k' task next' s hs =>
    cases lands hs h with
    | resumed h_result h =>
      cases h_next : next'.sweep? with
      | none =>
        cases resumes h_next h with
        | plain _ _ h_task => exact h_plain h_task rfl
      | some result =>
        -- a call that sweeps the ring goes on with that
        cases next' with
        | stopped error reason => cases h
        | poisoned index reason result => exact h_from h
        | _ => cases h_next
  | poisons => exact h_from h
  | _ => cases h

variable [Writer W]

/-- **A flush that is handed back was written.** -/
theorem Run.written_of_release (r : Run W) (h_fits : r.Fits) : ∀ (i k : Nat) f next,
    r.machine.calls[i]? = some (.ready (.onSlot k (.release f) next)) →
    ∃ w ∈ r.journal.successes, w.source = .slot f.kind ∧ w.address = f.tag := by
  refine r.induction (fun i k f next hi => ?_) fun r₁ ev r₂ h_next h_before ih i k f next hi => ?_
  · cases (r.getElem?_calls_start i).symm.trans hi
  · have h_old : ∀ {w}, w ∈ r₁.journal.successes → w ∈ r₂.journal.successes := fun hw =>
      Journal.mem_successes.2 (h_next.before.mem_journal (Journal.mem_successes.1 hw))
    cases Machine.came h_next.step hi with
    -- nobody makes a call that begins with a release
    | made start =>
      rcases h_next.begins with ⟨timestamp, payload, hint, h_eq⟩ | ⟨reason, h_eq⟩ <;> cases h_eq
    | remained hj h_remains =>
      cases h_remains with
      | same =>
        obtain ⟨w, hw, h_is⟩ := ih i k f next hj
        exact ⟨w, h_old hw, h_is⟩
      | woken c wake late =>
        obtain ⟨task, next', h_eq, -, h_blocks⟩ := r₁.blocked i c _ _ hj
        cases h_eq
        cases h_blocks
    | stepped h_acts h_stepped h_leads =>
      cases h_acts with
      | run hj => exact absurd h_leads not_release_run
      | expire hj => exact absurd h_leads not_release_run
      | @answer i t verdict hj =>
        have h_note : ∀ {w}, .returned w (.ok ()) ∈ answerNotes r₁.machine.state i verdict t →
            w ∈ r₂.journal.successes := by
          intro w hw
          rw [Journal.mem_successes, h_next.journal]
          rw [notes_answer hj]
          exact List.mem_append_right _ hw
        have h_reaction := answered_reaction t verdict r₁.machine.state
        replace h_leads : (answered t verdict r₁.machine.state).1.Leads _ := h_leads
        generalize answered t verdict r₁.machine.state = o at h_leads h_reaction
        cases h_reaction with
        | @slotWritten k f data e p tk writer h_write =>
          -- the Writer has taken the flush
          cases h_leads
          refine ⟨flushWrite i f data e.hint, h_note ?_, rfl, rfl⟩
          show _ ∈ [Note.returned (flushWrite i f data e.hint)
            (r₁.machine.state.write verdict data f.tag e.hint).1]
          rw [h_write]
          exact List.mem_singleton_self _
        | directWritten =>
          generalize h_eq : tailTask _ _ _ = t at h_leads
          cases h_leads
          cases (plain_tailTask _ _).begins _ _ _ h_eq
        | idle h_none =>
          -- only a call to the Writer waits for the outside world
          obtain ⟨P, hm, -⟩ :=
            r₁.exists_matches (h_next.before.fits (h_before.fits h_fits)) r₁.within_all
          obtain ⟨start, v, -, -, h_stands⟩ := hm.exists_view hj
          cases h_stands with
          | outside h_at => cases h_at <;> cases h_none 0
        | _ => cases h_leads

end Release

end GroupCommit.Log
