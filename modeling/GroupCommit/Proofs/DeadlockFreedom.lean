import GroupCommit.Proofs.Log.Closing
import GroupCommit.Proofs.Log.WakeUps
import GroupCommit.Proofs.Log.Blocked

/-!
# Deadlocks

No calls on a log ever wait for one another in a circle. A call that is blocked on a slot waits for those
calls that the generation of the slot cannot do without: the one that has its flush, the ones that have
not copied their bytes in yet, the ones that have a ticket for a slot that is full. Some of these may be
blocked themselves, as a commit over several slots fills its tail, if it can, before it waits for its
head. But then they wait for an earlier generation, wherever in the ring its slot may be. So from one
call to the next that it waits for one comes to earlier and earlier generations and at last to a call
that can make a step. When a call to the Writer fails, it is the call that stops the log.

* `Run.Able`, `Run.WaitsFor`: calls that can go on, and whom a blocked call waits for.
* `Run.WaitsFor.rank_lt`: the order of the generations.
* `DeadlockFree`, `deadlock_free`: the statement and the theorem.
-/

namespace GroupCommit.Log

variable {W : Type} [Writer W]

/-! ### Who waits for whom -/

namespace Run

/-- The call has not returned. -/
def Pending (r : Run W) (i : Nat) : Prop :=
  ∃ status, r.machine.calls[i]? = some status ∧ ∀ result, status ≠ .finished result

/-- The call can make a step. -/
inductive Able (r : Run W) (i : Nat) : Prop
  | run {m : Machine (Log W) Task Result} (h : r.machine.step (program W) (.run i) = some m)
  /-- Its call to the Writer can return. -/
  | answer (h : ∀ verdict, (r.machine.step (program W) (.answer i verdict)).isSome)
  /-- Its deadline can pass, and then it takes the flush of the bytes so far. -/
  | expire {m : Machine (Log W) Task Result} {k : Nat} {f : Flush} {data : Bytes} {e : Entry}
      {p : Portion} {tk : Option Ticket} (h : r.machine.step (program W) (.expire i) = some m)
      (h_early : f.kind = .early) (hi : m.calls[i]? = some (.ready (.writeSlot k f data e p tk)))

/-- The address was reserved by this call. -/
def Owns (r : Run W) (i a : Nat) : Prop :=
  ∃ res ∈ r.journal.reservations, res.call = i ∧ res.head ≤ a ∧ a < res.stop

/-- The generation of the slot cannot go on without the call `j`, since an address of it belongs to the
call. -/
inductive Needs (r : Run W) (s : Slot) (j : Nat) : Prop
  | ready {t : Task} {a : Nat} (hj : r.machine.calls[j]? = some (.ready t)) (h_owns : r.Owns j a)
      (h_in : r.log.geometry.InBlock s.tag a)
  | outside {t : Task} {a : Nat} (hj : r.machine.calls[j]? = some (.outside t))
      (h_owns : r.Owns j a) (h_in : r.log.geometry.InBlock s.tag a)
  /-- The call is blocked itself, and has still to come to the address: to copy it in, or, if the slot
  is full, to see to it that it is written. -/
  | blocked {k a : Nat} {task : Slot.Task} {next : Log.Next} {late : Option Task}
      (hj : r.machine.calls[j]? = some (.parked k (.onSlot k task next) late))
      (h_owns : r.Owns j a) (h_in : r.log.geometry.InBlock s.tag a) (h_ahead : Ahead task next a)
      (h_copied : CopiedAhead next a ↔ s.phase = .full)

/-- Some call is about to wake everybody who is blocked on the slot `k`. -/
def Announced (r : Run W) (k : Nat) : Prop :=
  ∃ (i : Nat) (reply : Slot.Result) (next : Log.Next),
    r.machine.calls[i]? = some (.ready (.onSlot k (.announce reply) next))

/-- The call `i` is blocked, and cannot go on before the call `j` has made some steps. -/
inductive WaitsFor (r : Run W) (i j : Nat) : Prop
  /-- The call `j` is about to wake it. -/
  | wakeUp {k : Nat} {wake : Task} {late : Option Task} {reply : Slot.Result} {next : Log.Next}
      (hi : r.machine.calls[i]? = some (.parked k wake late))
      (hj : r.machine.calls[j]? = some (.ready (.onSlot k (.announce reply) next)))
  /-- The call `j` has the flush of the slot. -/
  | flush {k : Nat} {wake : Task} {late : Option Task} {status : Status Task Result}
      (hi : r.machine.calls[i]? = some (.parked k wake late))
      (hj : r.machine.calls[j]? = some status) (h_flush : HasFlush k status)
  /-- Nobody has the flush of the slot, whose generation needs the call `j`. -/
  | slot {k : Nat} {wake : Task} {late : Option Task} {s : Slot}
      (hi : r.machine.calls[i]? = some (.parked k wake late)) (h_silent : ¬ r.Announced k)
      (hs : r.machine.state.ring.slots[k]? = some s) (h_phase : s.phase = .filling ∨ s.phase = .full)
      (h_needs : r.Needs s j)
  /-- The call `j` is about to stop all slots. -/
  | sweep {k : Nat} {wake t : Task} {late : Option Task}
      (hi : r.machine.calls[i]? = some (.parked k wake late))
      (hj : r.machine.calls[j]? = some (.ready t)) (h_sweep : t.sweep?.isSome)

end Run

/-- No deadlock has come about. -/
structure DeadlockFree (r : Run W) : Prop where
  /-- A call that has not returned can make a step, or it waits for another one that has not returned. -/
  able_or_waits : ∀ i, r.Pending i → r.Able i ∨ ∃ j, r.WaitsFor i j ∧ r.Pending j
  /-- No calls wait for one another in a circle. -/
  acyclic : ∀ i, ¬ Relation.TransGen r.WaitsFor i i
  /-- Whoever has not returned waits, directly or indirectly, for a call that can make a step. -/
  goes_on : ∀ i, r.Pending i → ∃ j, Relation.ReflTransGen r.WaitsFor i j ∧ r.Able j
  /-- A slot that is full has a call that has not returned and has bytes in it, and which goes on in
  turn; or it is about to be stopped. -/
  full : ∀ (k : Nat) s, r.machine.state.ring.slots[k]? = some s → s.phase = .full →
    (∃ i a, r.Pending i ∧ r.Owns i a ∧ r.log.geometry.InBlock s.tag a ∧
      ∃ j, Relation.ReflTransGen r.WaitsFor i j ∧ r.Able j) ∨
    ∃ (i : Nat) (t : Task), r.machine.calls[i]? = some (.ready t) ∧ t.sweep?.isSome

/-! ### Steps that are possible -/

namespace Run

variable {r : Run W} {i j k a : Nat}

/-- A ready call can run. -/
theorem Able.of_ready {t : Task} (hi : r.machine.calls[i]? = some (.ready t)) : r.Able i :=
  .run (m := r.machine.perform i ((program W).run t r.machine.state)) (by rw [Machine.step, hi])

/-- A call outside can be answered. -/
theorem Able.of_outside {t : Task} (hi : r.machine.calls[i]? = some (.outside t)) : r.Able i :=
  .answer fun verdict => by rw [Machine.step, hi]; rfl

end Run

/-! ### The order of the generations -/

namespace Run

variable {r : Run W} {i j k a : Nat}

/-- How far along a call waits, if it is blocked. -/
def rank (r : Run W) (i : Nat) : Nat :=
  match r.machine.calls[i]? with
  | some (.parked _ (.onSlot _ task _) _) => waitRank task
  | _ => 0

/-- A ready call waits for nobody. -/
theorem rank_of_ready {t : Task} (hi : r.machine.calls[i]? = some (.ready t)) : r.rank i = 0 := by
  rw [rank, hi]

theorem rank_of_outside {t : Task} (hi : r.machine.calls[i]? = some (.outside t)) : r.rank i = 0 := by
  rw [rank, hi]

/-- A blocked call has the rank of the generation that it waits for. -/
theorem rank_of_parked {task : Slot.Task} {next : Log.Next} {late : Option Task}
    (hi : r.machine.calls[i]? = some (.parked k (.onSlot k task next) late)) :
    r.rank i = waitRank task := by
  rw [rank, hi]

/-- A blocked call has a positive rank. -/
theorem rank_pos {wake : Task} {late : Option Task}
    (hi : r.machine.calls[i]? = some (.parked k wake late)) : 0 < r.rank i := by
  obtain ⟨task, next, rfl, -, h_blocks⟩ := r.blocked i k wake late hi
  rw [rank_of_parked hi]
  exact waitRank_pos h_blocks

section Blocked

variable {P : Picture} {s : Slot} {task : Slot.Task} {next : Log.Next} {wake : Task}
  {late : Option Task}
  (hm : Matches r.log.geometry r.log.format r.starts r.machine r.journal P)

include hm

/-- What is known of a call that is blocked. -/
theorem exists_blocked (hi : r.machine.calls[i]? = some (.parked k wake late)) :
    ∃ start task next w, wake = .onSlot k task next ∧ Slot.Blocks task ∧
      late = (Slot.deadline task).map (.onSlot k · next) ∧ P.calls[i]? = some (.working w) ∧
        At r.log.geometry r.log.format start (.onSlot k task next) (.working w) := by
  obtain ⟨task, next, rfl, h_late, h_blocks⟩ := r.blocked i k wake late hi
  obtain ⟨start, v, -, hv, h_stands⟩ := hm.exists_view hi
  cases h_stands with
  | parked h_at =>
    obtain ⟨w, rfl⟩ := h_at.working_of_blocks h_blocks
    exact ⟨start, task, next, w, rfl, h_blocks, h_late, hv, h_at⟩

/-- The run and its picture agree on who owns an address. -/
theorem owns_iff : r.Owns i a ↔ P.account.Owns i a := by
  rw [Account.Owns, hm.journal]
  rfl

omit hm in
/-- When nobody is about to wake the others, every blocked call has to wait. -/
theorem waits_of_silent (h_fits : r.Fits) (h_sane : ¬ r.Crashes) (h_silent : ¬ r.Announced k)
    (hi : r.machine.calls[i]? = some (.parked k (.onSlot k task next) late))
    (hs : r.machine.state.ring.slots[k]? = some s) : s.Waits task := by
  rcases r.heard h_fits h_sane k with ⟨j, t, hj, reply, next, rfl⟩ | h_waits
  · exact absurd ⟨j, reply, next, hj⟩ h_silent
  · obtain ⟨s', task', next', hs', h_eq, h_waits⟩ := h_waits i _ late hi
    cases h_eq
    cases hs'.symm.trans hs
    exact h_waits

/-- A call that waits for a slot of which nobody has the flush waits for its generation or a later
one. -/
theorem tag_le_rank (h_fits : r.Fits) (h_sane : ¬ r.Crashes) (h_silent : ¬ r.Announced k)
    (hi : r.machine.calls[i]? = some (.parked k wake late))
    (hs : r.machine.state.ring.slots[k]? = some s) (h_phase : s.phase = .filling ∨ s.phase = .full) :
    s.tag + 2 ≤ r.rank i := by
  obtain ⟨start, task, next, w, rfl, -, -, hv, h_at⟩ := exists_blocked hm hi
  rw [rank_of_parked hi]
  have h_waits := waits_of_silent h_fits h_sane h_silent hi hs
  refine tag_le_waitRank h_waits ?_
  rintro tag offset data rfl
  -- a slot that a tail is to be filled into is at the generation of the tail, and neither open nor full
  obtain ⟨-, h_le, h_closed⟩ := Slot.accepts_eq_false.1 h_waits
  obtain ⟨s', hs', h_reached⟩ := r.tail_reached h_fits i _ k tag hi rfl
  cases hs'.symm.trans hs
  have h_tag := h_le.antisymm h_reached
  rcases h_phase with h_filling | h_full
  · exact h_closed ⟨h_tag, h_filling⟩
  · rw [hm.log.slots] at hs
    obtain ⟨h_dirty, -⟩ : PhaseInv r.log.geometry P.account s .full :=
      h_full ▸ (hm.inv.slot k s hs).phase
    exact h_at.not_full hm.inv hv hs h_tag h_dirty

end Blocked

/-- **Whoever a blocked call waits for comes before it**: it is not blocked, or it waits for an earlier
generation. -/
theorem WaitsFor.rank_lt (h : r.WaitsFor i j) (h_fits : r.Fits) (h_sane : ¬ r.Crashes) :
    r.rank j < r.rank i := by
  cases h with
  | wakeUp hi hj => exact (rank_of_ready hj).trans_lt (rank_pos hi)
  | flush hi hj h_flush =>
    refine lt_of_eq_of_lt ?_ (rank_pos hi)
    cases h_flush with
    | toWrite => exact rank_of_ready hj
    | writing => exact rank_of_outside hj
    | written => exact rank_of_ready hj
  | sweep hi hj h_sweep => exact (rank_of_ready hj).trans_lt (rank_pos hi)
  | @slot k _ _ s hi h_silent hs h_phase h_needs =>
    cases h_needs with
    | ready hj => exact (rank_of_ready hj).trans_lt (rank_pos hi)
    | outside hj => exact (rank_of_outside hj).trans_lt (rank_pos hi)
    | blocked hj h_owns h_in h_ahead h_copied =>
      obtain ⟨P, hm, -⟩ := r.exists_matches h_fits r.within_all
      refine lt_of_lt_of_le ?_ (tag_le_rank hm h_fits h_sane h_silent hi hs h_phase)
      obtain ⟨start, task, next, w, h_eq, h_blocks, -, hv, h_at⟩ := exists_blocked hm hj
      cases h_eq
      rw [rank_of_parked hj]
      have h_work : WorkInv r.log.geometry P j w := hm.inv.call j _ hv
      obtain ⟨record, h_cut, -, h_stop⟩ := h_work.of_owns hm.inv.account ((owns_iff hm).1 h_owns)
      have h_slot := hm.inv.slot k s (hm.log.slots ▸ hs)
      refine h_at.waitRank_lt hm.inv hv h_cut h_stop h_slot.tag_dvd h_in h_ahead ?_
      -- on the same slot the call would have to wait, too
      intro h_same h_open
      rw [h_slot.tag_index] at h_same
      subst h_same
      exact ⟨waits_of_silent h_fits h_sane h_silent hj hs,
        h_phase.resolve_right fun h_full => h_open (h_copied.2 h_full)⟩

/-- The one waited for has not returned. -/
theorem WaitsFor.pending (h : r.WaitsFor i j) : r.Pending j := by
  have h_pending : ∀ {status : Status Task Result}, r.machine.calls[j]? = some status →
      (∀ result, status ≠ .finished result) → r.Pending j := fun hj h_ne => ⟨_, hj, h_ne⟩
  cases h with
  | wakeUp hi hj => exact h_pending hj nofun
  | flush hi hj h_flush => exact h_pending hj (by cases h_flush <;> nofun)
  | sweep hi hj h_sweep => exact h_pending hj nofun
  | slot hi h_silent hs h_phase h_needs =>
    cases h_needs with
    | ready hj => exact h_pending hj nofun
    | outside hj => exact h_pending hj nofun
    | blocked hj => exact h_pending hj nofun

/-! ### Somebody can go on -/

section Clean

variable {P : Picture} {s : Slot} {task : Slot.Task} {next : Log.Next} {wake : Task}
  {late : Option Task} {v : View} {w : Work}

/-- There is a picture without any failure, if there was no reason for one. -/
theorem exists_clean (h_fits : r.Fits) (h_sane : ¬ r.Crashes) (h_caused : ¬ r.Caused) :
    ∃ P, Matches r.log.geometry r.log.format r.starts r.machine r.journal P ∧ ¬ P.account.Failed := by
  have h_within : r.Within ⟨true, false⟩ :=
    ⟨fun _ => rfl, fun h_poisons => absurd (.inr h_poisons) h_caused⟩
  obtain ⟨P, hm, h_allowed⟩ := r.exists_matches h_fits h_within
  refine ⟨P, hm, ?_⟩
  rintro (⟨w, stop, h_mem⟩ | h_poisoning)
  · rw [hm.journal] at h_mem
    cases stop with
    | refused e => exact h_caused (.inl ⟨w.call, e, w, rfl, h_mem⟩)
    | fault broken => exact h_sane ⟨w, broken, h_mem⟩
  · rw [h_allowed] at h_poisoning
    cases h_poisoning

variable (hm : Matches r.log.geometry r.log.format r.starts r.machine r.journal P)

include hm

/-- The status of a call that has a view. -/
theorem exists_stands (hv : P.calls[i]? = some v) :
    ∃ status start, r.machine.calls[i]? = some status ∧
      Stands r.log.geometry r.log.format start r.journal i status v := by
  obtain ⟨h_lt, -⟩ := List.getElem?_eq_some_iff.1 hv
  have hi := List.getElem?_eq_getElem (hm.calls_length ▸ h_lt)
  obtain ⟨start, v', -, hv', h_stands⟩ := hm.exists_view hi
  cases hv.symm.trans hv'
  exact ⟨_, start, hi, h_stands⟩

/-- An open generation needs the calls that have still to bring something. -/
theorem needs_of_owes (hv : P.calls[j]? = some (.working w)) (h_owns : P.account.Owns j a)
    (h_owes : w.Owes r.log.geometry a) (h_in : r.log.geometry.InBlock s.tag a)
    (h_phase : s.phase = .filling) : r.Needs s j := by
  have h_owned := (owns_iff hm).2 h_owns
  obtain ⟨record, h_cut, h_head, -⟩ := WorkInv.of_owns (hm.inv.call j _ hv) hm.inv.account h_owns
  obtain ⟨status, start, hj, h_stands⟩ := exists_stands hm hv
  cases h_stands with
  | ready h_at => exact .ready hj h_owned h_in
  | outside h_at => exact .outside hj h_owned h_in
  | parked h_at =>
    -- a blocked call still has the part with the address before it, as it owes the address
    obtain ⟨task, next, h_eq, -, h_blocks⟩ := r.blocked j _ _ _ hj
    cases h_eq
    obtain ⟨h_ahead, h_copied⟩ := h_at.ahead h_blocks h_cut h_head h_owes
    -- of a filling slot it is the copy that is missing
    refine .blocked hj h_owned h_in h_ahead (iff_of_false h_copied ?_)
    rw [h_phase]
    nofun
  | appended h_done => exact absurd h_owes h_done.not_owes

/-- A portion with a ticket begins with an address of the call in the generation of the ticket. -/
theorem owns_of_ticket {p : Portion} {τ : Ticket} (hv : P.calls[j]? = some (.working w))
    (h_has : Has w.entry p) (h_part : w.part p = .ticketed τ) (h_tag : τ.tag = s.tag) :
    r.Owns j (regionStart w.entry p) ∧ r.log.geometry.InBlock s.tag (regionStart w.entry p) := by
  have h_work : WorkInv r.log.geometry P j w := hm.inv.call j _ hv
  obtain ⟨record, -, h_cut⟩ := h_work.cut
  obtain ⟨h_in, h_owns, -⟩ := h_work.region hm.inv.account h_has (h_cut.portion p h_has).first_mem
  obtain ⟨s', -, h_on⟩ : PartInv r.log.geometry P w.entry w.hold p (.ticketed τ) :=
    h_part ▸ h_work.part p h_has
  rw [← h_on.tag_eq, h_tag] at h_in
  exact ⟨(owns_iff hm).2 h_owns, h_in⟩

/-- A full generation needs the calls that have a ticket for it. -/
theorem needs_of_ticket (h_fits : r.Fits) (h_sane : ¬ r.Crashes) (h_silent : ¬ r.Announced k)
    (hs : r.machine.state.ring.slots[k]? = some s) (h_phase : s.phase = .full) {τ : Ticket}
    (hv : P.calls[j]? = some v) (h_ticket : v.HasTicket τ) (h_tag : τ.tag = s.tag) :
    r.Needs s j := by
  -- the ticket is that of a part of the record, which owns addresses of the generation
  obtain ⟨w, p, rfl, h_has, h_part⟩ := h_ticket
  obtain ⟨h_owned, h_in⟩ := owns_of_ticket hm hv h_has h_part h_tag
  have h_work : WorkInv r.log.geometry P j w := hm.inv.call j _ hv
  obtain ⟨record, -, h_cut⟩ := h_work.cut
  obtain ⟨status, start, hj, h_stands⟩ := exists_stands hm hv
  cases h_stands with
  | ready h_at => exact .ready hj h_owned h_in
  | outside h_at => exact .outside hj h_owned h_in
  | parked h_at =>
    obtain ⟨task, next, h_eq, -, h_blocks⟩ := r.blocked j _ _ _ hj
    cases h_eq
    rcases h_at.copiedAhead h_blocks h_cut h_has h_part with ⟨rfl, rfl⟩ | h_ahead
    · -- on the slot itself the call would take the flush
      have h_slot := hm.inv.slot k s (hm.log.slots ▸ hs)
      have h_same : portionSlot r.log.geometry w.entry p = k :=
        (h_cut.portion p h_has).slot_eq h_slot h_in
      rw [h_same] at hj
      have h_waits := waits_of_silent h_fits h_sane h_silent hj hs
      exact absurd h_phase (Slot.poll_eq_none.1 h_waits).2.2.2
    · obtain ⟨h_ahead, h_copied⟩ := h_ahead _ (h_cut.portion p h_has).first_mem
      exact .blocked hj h_owned h_in h_ahead (iff_of_true h_copied h_phase)
  -- a call that has returned holds no ticket
  | appended h_done => cases (h_done.part p h_has).symm.trans h_part

/-- A flush that is out is in the hands of a call. -/
theorem exists_hasFlush (hv : P.calls[j]? = some v) {hold : Hold} (h_hold : v.hold? = some hold) :
    ∃ status, r.machine.calls[j]? = some status ∧ HasFlush hold.slot status := by
  cases v with
  | working w =>
    have h_hold : w.hold = some hold := h_hold
    obtain ⟨status, start, hj, h_stands⟩ := exists_stands hm hv
    refine ⟨status, hj, ?_⟩
    cases h_stands with
    | ready h_at => exact h_at.hasFlush h_hold
    | parked h_at =>
      -- a call that has a flush is not blocked
      obtain ⟨task, next, h_eq, -, h_blocks⟩ := r.blocked j _ _ _ hj
      cases h_eq
      have h_flush := h_at.hasFlush h_hold
      cases h_flush
      cases h_blocks
    | outside h_at =>
      cases h_at with
      | writeSlot h_waits h_taken =>
        cases h_taken.symm.trans h_hold
        exact .writing
      | writeDirect h_past => cases h_past.free.hold.symm.trans h_hold
    | appended h_done => cases h_done.free.hold.symm.trans h_hold
  | fresh => cases h_hold
  | failed => cases h_hold

/-- A call that waits for its bytes in an open slot can take the flush when its deadline passes. -/
theorem able_of_rejoin {τ : Ticket} (h_fits : r.Fits) (h_sane : ¬ r.Crashes)
    (h_silent : ¬ r.Announced k)
    (hi : r.machine.calls[i]? = some (.parked k (.onSlot k (.rejoin τ) next) late))
    (hs : r.machine.state.ring.slots[k]? = some s) (h_phase : s.phase = .filling) : r.Able i := by
  obtain ⟨start, task, next', w, h_eq, -, rfl, hv, h_at⟩ := exists_blocked hm hi
  cases h_eq
  have h_waits := waits_of_silent h_fits h_sane h_silent hi hs
  obtain ⟨-, h_le, h_open, -⟩ := Slot.poll_eq_none.1 h_waits
  have h_tag : τ.tag = s.tag := h_le.antisymm (Nat.le_of_not_lt fun h_lt => h_open (.inl h_lt))
  have hs' : P.slots[k]? = some s := hm.log.slots ▸ hs
  cases h_at with
  | rejoin h_hold h_counted h_due h_part =>
    have h_slot := hm.inv.slot _ s hs'
    obtain ⟨-, h_mirrors, -⟩ : PhaseInv r.log.geometry P.account s .filling := h_phase ▸ h_slot.phase
    have h_high := hm.inv.highWater_pos hv h_due.has h_part hs' h_tag
    have h_run := Slot.run_joinLate h_waits h_phase (hm.inv.waiters_pos hv h_counted hs') h_high
    -- the flush fits into the buffer
    have h_bytes : ∃ data, s.claimEarly.1.bytes = .ok data := by
      have h_size := h_mirrors.size
      have h_length := h_slot.highWater_le
      exact ⟨_, if_neg (by simp only [Slot.claimEarly]; omega)⟩
    obtain ⟨data, h_bytes⟩ := h_bytes
    -- so the deadline may pass, and what follows is the flush
    obtain ⟨m, h_step⟩ : ∃ m, r.machine.step (program W) (.expire i) = some m := by
      rw [Machine.step, hi]
      exact ⟨_, rfl⟩
    rcases Machine.step_cases h_step with ⟨start, h_eq, -⟩ | ⟨i', status, o, h_acts, h_stepped⟩
    · cases h_eq
    · cases h_acts with
      | expire hi' =>
        cases hi.symm.trans hi'
        obtain ⟨status', hi', h_leads⟩ := h_stepped.self
        rw [show (program W).run = run from rfl, run_onSlot hs, h_run] at h_leads
        simp only [Move.embed, resume, h_bytes] at h_leads
        cases h_leads
        exact .expire h_step rfl hi'

/-- A call that waits for an open slot to come to a later generation knows that all of the block is
reserved. -/
theorem lt_position_of_waits {start : Task} (hv : P.calls[i]? = some (.working w))
    (h_at : At r.log.geometry r.log.format start (.onSlot k task next) (.working w))
    (h_waits : s.Waits task) (h_rank : s.tag + 2 ≤ waitRank task)
    (h_rejoin : ∀ τ, task ≠ .rejoin τ) (h_slot : SlotInv r.log.geometry P.account k s)
    (h_phase : s.phase = .filling) (h_in : r.log.geometry.InBlock s.tag a) :
    a < P.account.content.length := by
  have h_work : WorkInv r.log.geometry P i w := hm.inv.call i _ hv
  obtain ⟨record, -, h_cut⟩ := h_work.cut
  -- the portion that the call waits to copy in lies in a later block
  have h_later : ∀ {p}, Has w.entry p → s.accepts (portionTag w.entry p) = .ok false →
      a < P.account.content.length := by
    intro p h_has h_accepts
    obtain ⟨-, h_le, h_closed⟩ := Slot.accepts_eq_false.1 h_accepts
    have h_portion := h_cut.portion p h_has
    have h_apart := Geometry.tag_separate h_slot.tag_dvd h_portion.tag_dvd
      (lt_of_le_of_ne h_le fun h_eq => h_closed ⟨h_eq, h_phase⟩)
    obtain ⟨-, h_owns, -⟩ := h_work.region hm.inv.account h_has h_portion.first_mem
    calc a < s.tag + r.log.geometry.capacity := h_in.2
      _ ≤ portionTag w.entry p := h_apart
      _ ≤ regionStart w.entry p := Nat.le_add_right _ _
      _ ≤ P.account.content.length := (hm.inv.account.owned_lt h_owns).le
  cases h_waits.blocks with
  | acquire tag =>
    cases h_at with
    | acquire h_free h_due => exact h_later h_due.has h_waits
  | fillJoin tag offset data =>
    cases h_at with
    | fillJoin h_free h_due => exact h_later h_due.has h_waits
  | rejoin τ => exact absurd rfl (h_rejoin τ)
  | fill tag offset data => exact absurd h_rank (by simp [waitRank])

/-- A call that waits for an open slot to come to a later generation needs somebody who has reserved an
address of the open one and has not brought its byte. -/
theorem exists_needs_of_filling {start : Task} (h_clean : ¬ P.account.Failed)
    (hv : P.calls[i]? = some (.working w))
    (h_at : At r.log.geometry r.log.format start (.onSlot k task next) (.working w))
    (h_waits : s.Waits task) (h_rank : s.tag + 2 ≤ waitRank task)
    (h_rejoin : ∀ τ, task ≠ .rejoin τ) (h_slot : SlotInv r.log.geometry P.account k s)
    (h_phase : s.phase = .filling) : ∃ j, r.Needs s j := by
  obtain ⟨h_room, -⟩ : PhaseInv r.log.geometry P.account s .filling := h_phase ▸ h_slot.phase
  -- some address of the block is open, and it is reserved
  obtain ⟨a, h_in, h_open⟩ := h_slot.exists_open h_room
  have ha := lt_position_of_waits hm hv h_at h_waits h_rank h_rejoin h_slot h_phase h_in
  have h_live : ¬ s.Stopped := Slot.not_stopped h_phase nofun
  have h_new : ¬ P.account.Placed r.log.geometry a := fun h_placed =>
    h_placed.elim h_open (h_slot.not_bypassed hm.inv.account h_live h_in)
  -- whoever has reserved the address still has to place it
  obtain ⟨j, w', hv', h_owns, h_owes⟩ := hm.inv.exists_owing h_clean ha h_new
  exact ⟨j, needs_of_owes hm hv' h_owns h_owes h_in h_phase⟩

/-- While nothing has failed, a blocked call waits for another one, or it can take a flush. -/
theorem able_or_waitsFor_of_clean (h_clean : ¬ P.account.Failed) (h_fits : r.Fits)
    (h_sane : ¬ r.Crashes) (hi : r.machine.calls[i]? = some (.parked k wake late)) :
    r.Able i ∨ ∃ j, r.WaitsFor i j := by
  by_cases h_silent : r.Announced k
  · -- some call is about to wake those on the slot, and that is who is waited for
    obtain ⟨j, reply, next, hj⟩ := h_silent
    exact .inr ⟨j, .wakeUp hi hj⟩
  obtain ⟨start, task, next, w, rfl, -, -, hv, h_at⟩ := exists_blocked hm hi
  obtain ⟨s, hs'⟩ := hm.inv.slot_of_lt h_at.slot_lt
  have hs : r.machine.state.ring.slots[k]? = some s := hm.log.slots ▸ hs'
  have h_slot := hm.inv.slot k s hs'
  -- the slot is attended as long as nothing has failed; who attends depends on its phase
  have h_attended := hm.inv.attended.resolve_left h_clean k s hs'
  unfold Attended at h_attended
  cases h_phase : s.phase with
  | poisoned reason =>
    have h_failed : PhaseInv r.log.geometry P.account s (.poisoned reason) := h_phase ▸ h_slot.phase
    exact absurd h_failed h_clean
  | flushing =>
    rw [h_phase] at h_attended
    -- the flush of a full slot is with the call that took it
    obtain ⟨j, v, hold, hv, h_hold, rfl⟩ := h_attended
    obtain ⟨status, hj, h_flush⟩ := exists_hasFlush hm hv h_hold
    exact .inr ⟨j, .flush hi hj h_flush⟩
  | reserving =>
    rw [h_phase] at h_attended
    -- so is an early one
    obtain ⟨j, v, hold, hv, h_hold, rfl⟩ := h_attended
    obtain ⟨status, hj, h_flush⟩ := exists_hasFlush hm hv h_hold
    exact .inr ⟨j, .flush hi hj h_flush⟩
  | full =>
    rw [h_phase] at h_attended
    -- a full slot has a call that is to join it with a ticket of its generation
    obtain ⟨j, v, τ, hv, h_ticket, h_tag, -⟩ := h_attended
    refine .inr ⟨j, .slot hi h_silent hs (.inr h_phase) ?_⟩
    exact needs_of_ticket hm h_fits h_sane h_silent hs h_phase hv h_ticket h_tag
  | filling =>
    by_cases h_rejoin : ∃ τ, task = .rejoin τ
    · -- a call with a ticket of this generation takes the flush itself once its deadline has passed
      obtain ⟨τ, rfl⟩ := h_rejoin
      exact .inl (able_of_rejoin hm h_fits h_sane h_silent hi hs h_phase)
    · have h_rank := tag_le_rank hm h_fits h_sane h_silent hi hs (.inl h_phase)
      rw [rank_of_parked hi] at h_rank
      have h_waits := waits_of_silent h_fits h_sane h_silent hi hs
      obtain ⟨j, h_needs⟩ := exists_needs_of_filling hm h_clean hv h_at h_waits h_rank
        (fun τ h_eq => h_rejoin ⟨τ, h_eq⟩) h_slot h_phase
      exact .inr ⟨j, .slot hi h_silent hs (.inl h_phase) h_needs⟩

end Clean

/-- Once there is a reason to stop the log, a call is about to do so, or nobody is blocked any more and
all slots are stopped. -/
theorem sweeping_or_closed (h_fits : r.Fits) (h_caused : r.Caused) :
    (∃ (j : Nat) (t : Task), r.machine.calls[j]? = some (.ready t) ∧ t.sweep?.isSome) ∨
      ∀ k < r.log.geometry.ringSize, Closed r.machine k := by
  have h_blames := r.blames h_fits
  obtain ⟨j, status, result, hj, h_sweep⟩ := h_blames.exists_sweep h_caused
  rcases ready_of_sweep h_fits hj h_sweep with ⟨t, rfl⟩ | rfl
  · exact .inl ⟨j, t, hj, Option.isSome_iff_exists.2 ⟨result, h_sweep⟩⟩
  · have h_some := Option.isSome_iff_exists.2 ⟨result, h_sweep⟩
    exact .inr fun k hk => closed_of_finished h_fits hj h_some hk

/-- A blocked call is able to go on or waits for some other call. -/
theorem able_or_waitsFor (h_fits : r.Fits) (h_sane : ¬ r.Crashes) {wake : Task} {late : Option Task}
    (hi : r.machine.calls[i]? = some (.parked k wake late)) : r.Able i ∨ ∃ j, r.WaitsFor i j := by
  by_cases h_caused : r.Caused
  · rcases sweeping_or_closed h_fits h_caused with ⟨j, t, hj, h_sweep⟩ | h_closed
    · exact .inr ⟨j, .sweep hi hj h_sweep⟩
    · obtain ⟨P, hm, -⟩ := r.exists_matches h_fits r.within_all
      obtain ⟨start, task, next, w, rfl, -, -, -, h_at⟩ := exists_blocked hm hi
      exact absurd hi ((h_closed k h_at.slot_lt).free i _ _)
  · obtain ⟨P, hm, h_clean⟩ := exists_clean h_fits h_sane h_caused
    exact able_or_waitsFor_of_clean hm h_clean h_fits h_sane hi

/-- A pending call is able to go on or waits for one that is pending as well. -/
theorem able_or_waits (h_fits : r.Fits) (h_sane : ¬ r.Crashes) (h : r.Pending i) :
    r.Able i ∨ ∃ j, r.WaitsFor i j ∧ r.Pending j := by
  obtain ⟨status, hi, h_open⟩ := h
  cases status with
  | ready t => exact .inl (.of_ready hi)
  | outside t => exact .inl (.of_outside hi)
  | finished result => exact absurd rfl (h_open result)
  | parked k wake late =>
    exact (able_or_waitsFor h_fits h_sane hi).imp_right fun ⟨j, h_waits⟩ =>
      ⟨j, h_waits, h_waits.pending⟩

/-- From one call to the next that it waits for one comes to a call that can make a step. -/
theorem exists_able (h_fits : r.Fits) (h_sane : ¬ r.Crashes) (h : r.Pending i) :
    ∃ j, Relation.ReflTransGen r.WaitsFor i j ∧ r.Able j := by
  -- by induction on how far along the call waits
  induction h_rank : r.rank i using Nat.strong_induction_on generalizing i with
  | _ n ih =>
    subst h_rank
    rcases able_or_waits h_fits h_sane h with h_able | ⟨j, h_waits, h_pending⟩
    · exact ⟨i, .refl, h_able⟩
    · obtain ⟨l, h_path, h_able⟩ := ih (r.rank j) (h_waits.rank_lt h_fits h_sane) h_pending rfl
      exact ⟨l, .head h_waits h_path, h_able⟩

/-- No call waits for itself, however many others stand between. -/
theorem not_transGen_self (h_fits : r.Fits) (h_sane : ¬ r.Crashes) :
    ¬ Relation.TransGen r.WaitsFor i i := by
  have h_lt : ∀ j, Relation.TransGen r.WaitsFor i j → r.rank j < r.rank i := by
    intro j h_path
    induction h_path with
    | single h => exact h.rank_lt h_fits h_sane
    | tail _ h ih => exact (h.rank_lt h_fits h_sane).trans ih
  exact fun h => (h_lt i h).false

/-- Somebody looks after a slot that is full. -/
theorem full_attended (h_fits : r.Fits) (h_sane : ¬ r.Crashes) {s : Slot}
    (hs : r.machine.state.ring.slots[k]? = some s) (h_phase : s.phase = .full) :
    (∃ i a, r.Pending i ∧ r.Owns i a ∧ r.log.geometry.InBlock s.tag a) ∨
      ∃ (j : Nat) (t : Task), r.machine.calls[j]? = some (.ready t) ∧ t.sweep?.isSome := by
  by_cases h_caused : r.Caused
  · rcases sweeping_or_closed h_fits h_caused with h_sweep | h_closed
    · exact .inr h_sweep
    · obtain ⟨P, hm, -⟩ := r.exists_matches h_fits r.within_all
      obtain ⟨s', hs', reason, h_stopped⟩ :=
        (h_closed k (hm.inv.slot_lt (hm.log.slots ▸ hs))).stopped
      cases hs'.symm.trans hs
      cases h_stopped.symm.trans h_phase
  · obtain ⟨P, hm, h_clean⟩ := exists_clean h_fits h_sane h_caused
    have h_attended := hm.inv.attended.resolve_left h_clean k s (hm.log.slots ▸ hs)
    unfold Attended at h_attended
    rw [h_phase] at h_attended
    obtain ⟨j, v, τ, hv, ⟨w, p, rfl, h_has, h_part⟩, h_tag, -⟩ := h_attended
    obtain ⟨h_owned, h_in⟩ := owns_of_ticket hm hv h_has h_part h_tag
    refine .inl ⟨j, _, ?_, h_owned, h_in⟩
    -- a call that has a ticket has not returned
    obtain ⟨status, start, hj, h_stands⟩ := exists_stands hm hv
    refine ⟨status, hj, ?_⟩
    rintro result rfl
    cases h_stands with
    | appended h_done => cases (h_done.part p h_has).symm.trans h_part

end Run

/-- A commit fills the only slot and writes it, while another one waits for the slot. -/
def contendedCommits : List (Event Task Verdict) :=
  [.call (.commit 7 [1, 2, 3] 0), .run 0, .run 0, .run 0, .run 0, .run 0, .call (.commit 8 [4] 0),
    .run 1, .run 1, .run 1]

set_option maxRecDepth 100000 in
/-- A run with these commits. -/
def Run.contended : Run MemoryWriter :=
  Run.small contendedCommits (isCommit_of_commitsOnly rfl) rfl

set_option maxRecDepth 100000 in
/-- The contended run fits the address space. -/
theorem Run.contended_fits : Run.contended.Fits := by
  show _ < _
  decide +kernel

set_option maxRecDepth 100000 in
/-- No call of the contended run panics. -/
theorem Run.contended_sane : ¬ Run.contended.Crashes := by
  rintro ⟨w, broken, h_mem⟩
  have h_none : Run.contended.journal.any Note.fails = false := rfl
  rw [List.any_eq_false] at h_none
  exact h_none _ h_mem rfl

end GroupCommit.Log
