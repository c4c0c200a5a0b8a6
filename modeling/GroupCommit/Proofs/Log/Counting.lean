import GroupCommit.Proofs.Log.Retirement
import GroupCommit.Proofs.Log.Tally
import Mathlib.Algebra.Order.BigOperators.Group.List

/-!
# What is counted

A log counts the commits that succeed and the calls to the Writer that do, and their bytes, in counters of
one word each. In every state of every run a counter is the remainder of what there is to count, whatever
deadlines pass and whichever calls fail: a flush that its slot refuses, since the slot was stopped
meanwhile, counts as written, and a call that failed does not. The calls and the commits are so few that
nothing but their number remains. The bytes are not: what is written again counts again, so that they can
be more than a word holds when few addresses are used up.

* `Stats.ofTotals`: counters that have counted so much.
* `counted_acts`: what a step adds.
* `Run.stats_eq`: the counters in every state.
* `Counts`, `Run.counts`: what they say.
-/

namespace GroupCommit

namespace Stats

/-- Counters that have counted so much. -/
def ofTotals (commits fullFlushes earlyFlushes directWrites bytesWritten : Nat) : Stats where
  commits := commits % Word.limit
  fullFlushes := fullFlushes % Word.limit
  earlyFlushes := earlyFlushes % Word.limit
  directWrites := directWrites % Word.limit
  bytesWritten := bytesWritten % Word.limit

/-- Counts a call to the Writer that has succeeded. -/
def countWrite (s : Stats) (w : Log.Write) : Stats :=
  match w.source with
  | .slot kind => s.countFlush kind w.data.length
  | .direct => s.countDirect w.data.length

variable {commits full early direct bytes : Nat}

/-- A counter that begins anew keeps the remainder of what it has counted. -/
theorem wrappingAdd_mod (a b : Nat) : Word.wrappingAdd (a % Word.limit) b = (a + b) % Word.limit :=
  Nat.mod_add_mod a _ b

theorem countCommit_ofTotals : (ofTotals commits full early direct bytes).countCommit =
    ofTotals (commits + 1) full early direct bytes := by
  rw [countCommit, ofTotals, wrappingAdd_mod]
  rfl

/-- Counting a write adds it to the totals. -/
theorem countWrite_ofTotals (w : Log.Write) :
    (ofTotals commits full early direct bytes).countWrite w = ofTotals commits
      (full + (decide (w.source = .slot .full)).toNat)
      (early + (decide (w.source = .slot .early)).toNat)
      (direct + (decide (w.source = .direct)).toNat) (bytes + w.data.length) := by
  rw [countWrite]
  -- a call counts with its source, and with all of its bytes
  split
  · next kind h_source =>
    rw [h_source]
    cases kind <;> simp only [countFlush, ofTotals, wrappingAdd_mod] <;> rfl
  · next h_source =>
    rw [h_source]
    simp only [countDirect, ofTotals, wrappingAdd_mod]
    rfl

/-- What a list of calls adds to the counters. -/
theorem foldl_countWrite (L : List Log.Write) :
    L.foldl countWrite (ofTotals commits full early direct bytes) = ofTotals commits
      (full + L.countP (·.source = .slot .full)) (early + L.countP (·.source = .slot .early))
      (direct + L.countP (·.source = .direct)) (bytes + (L.map (·.data.length)).sum) := by
  induction L generalizing full early direct bytes with
  | nil => rfl
  | cons w L ih =>
    have h_countP : ∀ (p : Log.Write → Bool) (n : Nat), n + (p w).toNat + L.countP p =
        n + (w :: L).countP p := fun p n => by
      rw [List.countP_cons, Nat.add_right_comm, Nat.add_assoc]
      cases p w <;> rfl
    rw [List.foldl_cons, countWrite_ofTotals, ih, ← h_countP, ← h_countP, ← h_countP, List.map_cons,
      List.sum_cons, ← Nat.add_assoc bytes]

end Stats

namespace Log

/-- The call is a commit that has returned the address of its record. -/
def Status.appended : Status Task Result → Bool
  | .finished (.ok (.appended _)) => true
  | _ => false

/-- The task is the last one of a commit that succeeds. -/
def Task.completes : Task → Bool
  | .complete _ => true
  | _ => false

variable {W : Type}

/-! ### Who counts -/

section Steps

variable {log : Log W} {t : Task} {status : Status Task Result}

/-- A call on a slot never ends a commit with success. -/
theorem not_appended_onSlot {k : Nat} {task : Slot.Task} {next : Next} (h_next : next.sweep? = none)
    (h : (run (.onSlot k task next) log).1.Leads status) : Status.appended status = false := by
  cases hs : log.ring.slots[k]? with
  | none =>
    obtain ⟨broken, h_run⟩ := run_onSlot_of_none hs task next
    rw [h_run] at h
    cases h
    rfl
  | some s =>
    cases lands hs h with
    | resumed h_result h => cases resumes h_next h <;> rfl
    | _ => rfl

/-- A call that poisons the ring has not appended. -/
theorem not_appended_poisonFrom {g : Geometry} {index : Nat} {reason : PoisonReason} {result : Result}
    (h_result : Stops result) (h : (poisonFrom g index reason result).Leads status) :
    Status.appended status = false := by
  cases poisonsFrom h with
  | slot => rfl
  | all => cases h_result <;> rfl

/-- A commit succeeds with its last task, and not before. -/
theorem At.appended_run {g : Geometry} {format : Record.Format} {start : Task} {v : View}
    (h_at : At g format start t v) (h : (run t log).1.Leads status) :
    Status.appended status = t.completes := by
  have h_effect := run_effect t log
  generalize run t log = o at h h_effect
  cases h_effect with
  | @onSlot k task next s hs =>
    cases h_next : next.sweep? with
    | none => exact not_appended_onSlot h_next h
    | some result =>
      -- a call that sweeps the ring returns an error, or that the log is poisoned
      cases lands hs h with
      | resumed h_answer h_resumed =>
        cases h_at with
        | failing h_failing =>
          cases h_failing with
          | abandon => cases h_resumed; rfl
          | abandoned => cases h_resumed; rfl
          | poisonSlot hk reason h_result => exact not_appended_poisonFrom h_result h_resumed
          | poisonedSlot hk reason h_result => exact not_appended_poisonFrom h_result h_resumed
          | handedBack => cases h_next
        | _ => cases h_next
      | _ => rfl
  | poisons =>
    cases h_at with
    | failing h_failing =>
      cases h_failing with
      | poison reason h_result => exact not_appended_poisonFrom h_result h
  | _ =>
    cases h
    rfl

/-- Of the steps of a call, only its last one counts anything. -/
theorem stats_run (t : Task) (log : Log W) :
    (run t log).2.stats = if t.completes then log.stats.countCommit else log.stats := by
  have h_effect := run_effect t log
  generalize run t log = o at h_effect ⊢
  cases h_effect with
  | onSlot hs =>
    rw [run_onSlot hs]
    rfl
  | _ => rfl

/-- An answer of the Writer is counted if it is a success, and does not end a commit. -/
theorem AtOutside.counted [Writer W] {g : Geometry} {P : Picture} {i : Nat} {v : View}
    {verdict : Verdict} (h_at : AtOutside g i t v) (h : Inv g P) (hv : P.calls[i]? = some v)
    (h_leads : (answered t verdict log).1.Leads status) : Status.appended status = false ∧
      (answered t verdict log).2.stats =
        (answerNotes log i verdict t).successes.foldl Stats.countWrite log.stats := by
  have h_reaction := answered_reaction t verdict log
  generalize answered t verdict log = o at h_leads h_reaction ⊢
  cases h_at with
  | @writeSlot work p tk f data h_waits h_hold h_due h_part =>
    -- a flush counts with the length that its bytes have
    have h_work : WorkInv g P i work := h.call i _ hv
    obtain ⟨s, hs, h_on⟩ := h_work.hold _ h_hold
    obtain ⟨-, -, -, -, h_bytes⟩ := h_on.stage
    obtain ⟨h_data, -⟩ := flush_bytes_ok h_bytes
    have h_length : data.length = f.length :=
      (congrArg List.length h_data).trans (Buffer.length_first _ _)
    have h_notes : answerNotes log i verdict (.writeSlot (portionSlot g work.entry p) f data work.entry p
      tk) = [.returned (flushWrite i f data work.entry.hint)
        (log.write verdict data f.tag work.entry.hint).1] := rfl
    rw [h_notes]
    -- only what has been written is counted
    cases h_reaction with
    | slotWritten h_write =>
      cases h_leads
      rw [h_write]
      refine ⟨rfl, ?_⟩
      show log.stats.countFlush f.kind f.length = log.stats.countFlush f.kind data.length
      rw [h_length]
    | slotRefused h_write | slotFaulted h_write =>
      cases h_leads
      rw [h_write]
      exact ⟨rfl, rfl⟩
    | idle h_none => cases h_none 0
  | @writeDirect work tk h_past h_middle =>
    have h_notes : answerNotes log i verdict (.writeDirect work.entry tk) =
      [.returned (middleWrite i work.entry) (log.write verdict work.entry.direct
        work.entry.middle.start work.entry.hint).1] := rfl
    rw [h_notes]
    cases h_reaction with
    | directWritten h_write | directRefused h_write | directFaulted h_write =>
      cases h_leads
      rw [h_write]
      exact ⟨rfl, rfl⟩
    | idle h_none => cases h_none 0

end Steps

/-! ### Every state -/

/-- A call that is blocked has not appended. -/
theorem appended_woken (c : Nat) (status : Status Task Result) :
    Status.appended (status.woken c) = Status.appended status := by
  cases status with
  | parked condition wake late =>
    rw [Status.woken]
    split <;> rfl
  | _ => rfl

/-- A commit that has succeeded is counted. -/
theorem appended_le_share (status : Status Task Result) :
    (Status.appended status).toNat ≤ Status.share status := by
  unfold Status.appended
  split
  · exact Nat.le_refl 1
  · exact Nat.zero_le _

section Runs

variable [Writer W] {r r' : Run W} {e : Event Task Verdict}

/-- What a step adds to the counters, and to the commits that have succeeded. -/
theorem counted_acts (h_fits : r.Fits) {i : Nat} {status status' : Status Task Result}
    {o : Move Task Result × Log W} (h : Machine.Acts (program W) r.machine e i status o)
    (h_leads : o.1.Leads status') : Status.appended status = false ∧
      o.2.stats = (notes r.machine e).successes.foldl Stats.countWrite
        (if Status.appended status' then r.machine.state.stats.countCommit
          else r.machine.state.stats) := by
  obtain ⟨P, hm, -⟩ := r.exists_matches h_fits r.within_all
  obtain ⟨start, v, -, hv, h_stands⟩ := hm.exists_view h.before
  cases h with
  | @run i t hi =>
    refine ⟨rfl, ?_⟩
    rw [notes_run hi, successes_runNotes, List.foldl_nil]
    cases h_stands with
    | ready h_at =>
      -- a step counts its call if that is the step's end
      rw [h_at.appended_run h_leads]
      exact stats_run t r.machine.state
  | @expire i c wake late hi =>
    refine ⟨rfl, ?_⟩
    cases h_stands with
    | @parked k task next late v h_at h_late =>
      -- at its deadline a call looks at its slot, and counts nothing
      cases h_late _ rfl with
      | rejoin k ticket next' =>
        have h_next : next.sweep? = none := by
          cases h_at with
          | failing h_failing => cases h_failing
          | _ => rfl
        rw [not_appended_onSlot h_next h_leads]
        exact stats_run _ r.machine.state
  | @answer i t verdict hi =>
    cases h_stands with
    | outside h_at =>
      obtain ⟨h_appended, h_stats⟩ := h_at.counted hm.inv hv h_leads
      refine ⟨rfl, ?_⟩
      rw [notes_answer hi, h_appended]
      exact h_stats

/-- The counters that a run comes to, if a counter has no end. -/
def Run.totals (r : Run W) : Stats := .ofTotals (r.machine.calls.countP Status.appended)
  (r.journal.successes.countP (·.source = .slot .full))
  (r.journal.successes.countP (·.source = .slot .early))
  (r.journal.successes.countP (·.source = .direct)) (r.journal.successes.map (·.data.length)).sum

theorem Run.Next.stats_eq (h_next : r.Next e r') (h_fits : r.Fits)
    (h : r.machine.state.stats = r.totals) : r'.machine.state.stats = r'.totals := by
  rw [totals, h_next.journal, Journal.successes_append, List.countP_append, List.countP_append,
    List.countP_append, List.map_append, List.sum_append, ← Stats.foldl_countWrite]
  rcases Machine.counted appended_woken h_next.step with
    ⟨start, rfl, h_eq⟩ | ⟨i, status, o, status', h_acts, h_leads, h_state, h_counted⟩
  · -- a call that has just been made has not returned
    have h_count :
        r'.machine.calls.countP Status.appended = r.machine.calls.countP Status.appended := by
      rw [h_eq, List.countP_append]
      rfl
    rw [h_count, h_eq]
    exact h
  · -- the step counts its own write, and its call if it returns
    obtain ⟨h_before, h_stats⟩ := counted_acts h_fits h_acts h_leads
    have h_count := h_counted.count
    rw [h_before, Bool.toNat_false, Nat.add_zero] at h_count
    rw [h_state, h_stats, h_count, h, totals]
    congr 1
    cases Status.appended status'
    · rfl
    · exact Stats.countCommit_ofTotals

/-- **Every counter is the remainder** of what there is to count. -/
theorem Run.stats_eq (r : Run W) (h_fits : r.Fits) : r.machine.state.stats = r.totals := by
  refine r.induction ?_ fun r₁ e r₂ h_next h_before ih =>
    h_next.stats_eq (h_next.before.fits (h_before.fits h_fits)) ih
  have h_created := r.created
  rw [Log.create] at h_created
  split at h_created
  · cases h_created
  · obtain ⟨ring, -, h_ok⟩ := bind_eq_ok.1 h_created
    show r.log.stats = _
    rw [← Except.ok.inj h_ok]
    rfl

/-- What the counters of a log say. -/
structure Counts (r : Run W) : Prop where
  /-- The commits that have returned an address. -/
  commits : r.machine.state.stats.commits = r.machine.calls.countP Status.appended
  fullFlushes : r.machine.state.stats.fullFlushes = r.journal.successes.countP (·.source = .slot .full)
  earlyFlushes :
    r.machine.state.stats.earlyFlushes = r.journal.successes.countP (·.source = .slot .early)
  directWrites : r.machine.state.stats.directWrites = r.journal.successes.countP (·.source = .direct)
  /-- The bytes begin anew where a word ends. -/
  bytesWritten : r.machine.state.stats.bytesWritten =
    (r.journal.successes.map (·.data.length)).sum % Word.limit

/-- **What the counters say** in every state. -/
theorem Run.counts (r : Run W) (h_fits : r.Fits) : Counts r := by
  have h_stats := r.stats_eq h_fits
  have h_tally := r.tally_lt h_fits
  -- the calls that have succeeded and the commits that have are few
  have h_commits : r.machine.calls.countP Status.appended < Word.limit := by
    have h_le : r.machine.calls.countP Status.appended ≤ r.machine.total Status.share := by
      rw [Machine.countP_eq_total]
      exact List.sum_le_sum fun status _ => appended_le_share status
    omega
  have h_writes : ∀ p : Write → Bool, r.journal.successes.countP p < Word.limit := fun p => by
    have h_le := List.countP_le_length (p := p) (l := r.journal.successes)
    omega
  constructor <;> rw [h_stats]
  · exact Nat.mod_eq_of_lt h_commits
  · exact Nat.mod_eq_of_lt (h_writes _)
  · exact Nat.mod_eq_of_lt (h_writes _)
  · exact Nat.mod_eq_of_lt (h_writes _)
  · rfl

end Runs

end Log

end GroupCommit
