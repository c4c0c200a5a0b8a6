import GroupCommit.Proofs.Log.Balance
import GroupCommit.Proofs.Machine.Bookkeeping

/-!
# How often a commit is counted

A commit is counted four times at most: when its head slot is written, when the middle of its record is,
when its tail slot is, and when it returns. Each task has its share of these, which is how often its
commit may still be counted, and a step that counts gives one of its share away. So all commits together
are counted no more than four times as often as addresses were reserved. A record takes twelve addresses
and more, hence no count comes to the end of a word before the addresses do.

* `Task.share`, `Status.share`: how often a call may still be counted, or is counted for good.
* `share_run`, `share_answered`: what a step does to it.
* `Run.tally_le`, `Run.tally_lt`: how often anything is counted in a run.
-/

namespace GroupCommit.Log

/-! ### Shares -/

/-- The share of a commit that is about to bring this portion of its record into a slot. -/
def Portion.share : Portion → Nat
  | .whole => 2
  | .head => 4
  | .tail => 2

/-- The share of a result: a commit that succeeds is counted. -/
def Result.share : Result → Nat
  | .ok (.appended _) => 1
  | _ => 0

/-- The share of a call that goes on in this way. -/
def Next.share : Next → Nat
  | .acquired _ portion _ => portion.share
  | .joined _ portion _ => portion.share
  | .handedBack _ portion _ => portion.share - 1
  | .tailOffered _ afterHead => if afterHead then 3 else 4
  | .tailFilled _ afterHead => if afterHead then 3 else 4
  | .skipped _ _ _ => 3
  | .poisoned _ _ result => Result.share result
  | .finish | .stopped _ _ => 0

/-- The share of a task. A commit has none before it reserves its addresses. -/
def Task.share : Task → Nat
  | .onSlot _ _ next => next.share
  | .writeSlot _ _ _ _ portion _ => portion.share
  | .writeDirect _ _ => 3
  | .complete _ => 1
  | .poison _ result => Result.share result
  | .commit _ _ _ | .reserve _ _ => 0

/-- The share of a call. -/
def Status.share : Status Task Result → Nat
  | .ready task => task.share
  | .parked _ wake _ => wake.share
  | .outside task => task.share
  | .finished result => Result.share result

theorem share_woken (c : Nat) (status : Status Task Result) :
    Status.share (status.woken c) = Status.share status := by
  cases status with
  | parked condition wake late =>
    rw [Status.woken]
    split <;> rfl
  | _ => rfl

/-- Every portion has a share, for its flush. -/
theorem Portion.share_pos (p : Portion) : 0 < p.share := by
  cases p <;> decide

/-! ### The way of a record -/

section Way

variable (g : Geometry) (e : Entry)

/-- In front of the tail a call can still make two writes, of the flushes of a generation. -/
theorem share_tailTask (tk : Option Ticket) : (tailTask g e tk).share ≤ 2 := by
  unfold tailTask
  split
  · exact Nat.le_succ 1
  · cases tk <;> exact Nat.le_refl 2

/-- One more for the middle. -/
theorem share_skipOrWriteTask (number : Nat) (tk : Option Ticket) :
    (skipOrWriteTask g e number tk).share = 3 := by
  rw [skipOrWriteTask]
  split <;> rfl

/-- In front of the middle it is three at most. -/
theorem share_middleTask (tk : Option Ticket) : (middleTask g e tk).share ≤ 3 := by
  rw [middleTask]
  split
  · exact (share_tailTask g e tk).trans (by decide)
  · exact (share_skipOrWriteTask g e 0 tk).le

/-- In front of the head it is four at most. -/
theorem share_headTask (tk : Option Ticket) : (headTask g e tk).share ≤ 4 := by
  rw [headTask]
  split
  · exact (share_middleTask g e tk).trans (by decide)
  · exact Nat.le_refl 4

/-- That is all that a record can bring. -/
theorem share_entryTask : (entryTask g e).share ≤ 4 := by
  rw [entryTask]
  split
  · exact (by decide : 2 ≤ 4)
  · split
    · exact share_headTask g e none
    · exact Nat.le_refl 4

/-- The tail that has been offered in front of the middle is no further portion. -/
theorem share_afterOfferTask (afterHead : Bool) (tk : Option Ticket) :
    (afterOfferTask g e afterHead tk).share ≤ if afterHead then 3 else 4 := by
  cases afterHead
  · exact share_headTask g e tk
  · exact share_middleTask g e tk

/-- Writing a portion is counted once, whoever writes it. -/
theorem share_portionTask (p : Portion) (tk : Option Ticket) :
    (portionTask g e p tk).share ≤ p.share - 1 := by
  cases p with
  | whole => exact Nat.le_refl 1
  | head =>
    rw [portionTask]
    split
    · exact share_middleTask g e tk
    · exact Nat.le_refl 3
  | tail => exact Nat.le_refl 1

end Way

/-! ### Steps -/

section Steps

variable {W : Type} {log : Log W} {t : Task} {i : Nat} {status : Status Task Result}

/-- Poisoning the ring makes no writes. -/
theorem share_poisonFrom {g : Geometry} {index : Nat} {reason : PoisonReason} {result : Result}
    (h : (poisonFrom g index reason result).Leads status) :
    Status.share status = Result.share result := by
  cases poisonsFrom h <;> rfl

/-- No answer of a slot gives a call more to count. -/
theorem share_resume {g : Geometry} {next : Next} {answer : Slot.Result}
    (h : (resume g next answer).Leads status) : Status.share status ≤ next.share := by
  cases goesWith h with
  | finishes answer => cases answer <;> exact Nat.le_refl 0
  | stopped | acquired | given | accepted => exact Nat.le_refl _
  | poisoned h => exact (share_poisonFrom h).le
  | ended | unreadable => exact Nat.zero_le _
  | spared e p tk => exact (share_portionTask g e p tk).trans (Nat.sub_le _ 1)
  | handedBack e p tk => exact share_portionTask g e p tk
  | declined e afterHead => exact share_afterOfferTask g e afterHead none
  | filled e afterHead ticket => exact share_afterOfferTask g e afterHead (some ticket)
  | unfilled e afterHead => exact share_afterOfferTask g e afterHead none
  | skipped e number tk => exact (share_skipOrWriteTask g e (number + 1) tk).le

/-- No step of a call is a success of the Writer. -/
theorem successes_runNotes (log : Log W) (i : Nat) (t : Task) : (runNotes log i t).successes = [] := by
  have h_sub := (runNotes log i t).successes_sublist
  rw [(writes_runNotes log i t).2] at h_sub
  exact List.sublist_nil.1 h_sub

/-- **A step of a call gives it no share**, unless it reserves addresses. -/
theorem share_run (h : (run t log).1.Leads status) :
    Status.share status ≤ t.share + 4 * (runNotes log i t).reservations.length := by
  have h_effect := run_effect t log
  generalize run t log = o at h h_effect
  cases h_effect with
  | placed => cases h; exact share_entryTask _ _
  | @onSlot k task next s hs =>
    refine le_trans ?_ (Nat.le_add_right _ _)
    cases lands hs h with
    | resumed h_result h => exact share_resume h
    | _ => exact Nat.le_refl _
  | poisons => exact (share_poisonFrom h).le
  | refused | unencoded | encoded | unplaced | missing => cases h; exact Nat.zero_le _
  | writesSlot | writesDirect | completes => cases h; exact Nat.le_add_right _ _

/-- **The answer of the Writer is paid for** out of the share if it counts as a success. -/
theorem share_answered [Writer W] {verdict : Verdict} (h : (answered t verdict log).1.Leads status) :
    Status.share status + (answerNotes log i verdict t).successes.length ≤ t.share := by
  -- a call is noted as what its outcome says
  have h_notes : ∀ {w outcome}, t.write? i = some w → log.outcome verdict w = outcome →
      (answerNotes log i verdict t).successes = Journal.successes [.returned w outcome] := by
    rintro w _ h_write rfl
    rw [answerNotes_of_write h_write]
  have h_reaction := answered_reaction t verdict log
  generalize answered t verdict log = o at h h_reaction
  cases h_reaction with
  | @slotWritten k f data e p tk writer h_write =>
    cases h
    rw [h_notes rfl (congrArg Prod.fst h_write)]
    exact (Nat.sub_add_cancel p.share_pos).le
  | slotRefused h_write | slotFaulted h_write | directRefused h_write | directFaulted h_write =>
    cases h
    rw [h_notes rfl (congrArg Prod.fst h_write)]
    exact Nat.zero_le _
  | @directWritten e tk writer h_write =>
    cases h
    rw [h_notes rfl (congrArg Prod.fst h_write)]
    exact Nat.succ_le_succ (share_tailTask _ e tk)
  | idle h_none =>
    cases h
    rw [answerNotes_of_none (h_none i)]
    exact Nat.le_refl _

end Steps

/-! ### Runs -/

section Runs

variable {W : Type} [Writer W] {r : Run W}

/-- What an event does to the share of the call that makes a step. -/
theorem share_acts {e : Event Task Verdict} {i : Nat} {status status' : Status Task Result}
    {o : Move Task Result × Log W} (h : Machine.Acts (program W) r.machine e i status o)
    (h_leads : o.1.Leads status') :
    Status.share status' + (notes r.machine e).successes.length ≤
      Status.share status + 4 * (notes r.machine e).reservations.length := by
  cases h with
  | @run i t hi =>
    rw [notes_run hi, successes_runNotes]
    exact share_run h_leads
  | @expire i c wake late hi =>
    -- a call that has a deadline goes on at its slot, as it would without
    obtain ⟨task, next, rfl, h_late, -⟩ := r.blocked i c wake (some late) hi
    obtain ⟨task', -, rfl⟩ := Option.map_eq_some_iff.1 h_late.symm
    exact share_run (i := i) h_leads
  | @answer i t verdict hi =>
    rw [notes_answer hi]
    exact (share_answered h_leads).trans (Nat.le_add_right _ _)

/-- **How often anything is counted**: with all the shares that are left, no more than four times for each
reservation. -/
theorem Run.tally_le (r : Run W) :
    r.journal.successes.length + r.machine.total Status.share ≤ 4 * r.journal.reservations.length := by
  refine r.induction (Nat.zero_le _) fun r₁ e r₂ h_next _ ih => ?_
  rw [h_next.journal, Journal.successes_append, Journal.reservations_append, List.length_append,
    List.length_append]
  rcases Machine.weighed share_woken h_next.step with
    ⟨start, rfl, h_eq⟩ | ⟨i, status, o, status', h_acts, h_leads, -, h_weighed⟩
  · -- a call that has just been made has no share
    have h_total : r₂.machine.total Status.share = r₁.machine.total Status.share + start.share := by
      rw [h_eq, Machine.total, List.map_append, List.sum_append]
      rfl
    have h_start : start.share = 0 := by
      rcases r₂.calls start (h_next.events ▸ List.mem_append_right _ List.mem_cons_self) with
        ⟨_, _, _, rfl⟩ | ⟨_, rfl⟩ <;> rfl
    rw [h_total, h_start]
    exact ih
  · -- a step pays for its write out of the share of its call
    have h_share := share_acts h_acts h_leads
    have h_total := h_weighed.total
    omega

/-- A record takes more addresses than its commit is counted. -/
theorem Run.twelve_mul_reservations_le (h_fits : r.Fits) :
    12 * r.journal.reservations.length ≤ (Journal.content r.journal).length := by
  obtain ⟨P, hm, -⟩ := r.exists_matches h_fits r.within_all
  have h_record : ∀ res ∈ r.journal.reservations, 12 ≤ res.record.length := by
    intro res h_mem
    obtain ⟨_, payload, _, -, h_encode⟩ := hm.reserved res (Journal.mem_reservations.1 h_mem)
    rw [Record.Format.length_of_encode h_encode]
    exact (Nat.le_add_right 12 _).trans (Record.Format.overhead_le_paddedLength payload.length)
  -- the records fill the content, one behind the other
  rw [Journal.content, List.length_flatMap]
  generalize r.journal.reservations = rs at h_record
  induction rs with
  | nil => exact Nat.le_refl 0
  | cons res rs ih =>
    have h_rest := ih fun res' h_mem => h_record res' (List.mem_cons_of_mem _ h_mem)
    have h_first := h_record res List.mem_cons_self
    rw [List.map_cons, List.sum_cons, List.length_cons]
    omega

/-- **No count comes to the end of a word.** -/
theorem Run.tally_lt (h_fits : r.Fits) :
    r.journal.successes.length + r.machine.total Status.share < Word.limit := by
  have h_tally := r.tally_le
  have h_records := r.twelve_mul_reservations_le h_fits
  have h_room : (Journal.content r.journal).length + _ < Word.limit := h_fits
  omega

end Runs

end GroupCommit.Log
