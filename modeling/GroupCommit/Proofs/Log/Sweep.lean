import GroupCommit.Proofs.Log.Steps

/-!
# Sweeps

A call whose call to the Writer has failed goes through all slots of the ring and stops them, and so
does a call that was asked to poison the log. Such a call sweeps the ring. It is never blocked on the
way, and what it returns at the end is settled when it begins: the error of the Writer, or that the log
is poisoned.

* `Status.sweep?`: the result that a call is sweeping the ring for.
* `Run.Blames`, `Run.blames`: exactly those calls sweep the ring whose own call to the Writer has
  failed, or who were asked to.
* `resumes`: how a call that does not sweep the ring goes on with the answer of a slot.
-/

namespace GroupCommit.Log

/-! ### Calls that sweep the ring -/

/-- The result of the call that goes on like this, if it is sweeping the ring. -/
def Next.sweep? : Next → Option Result
  | .stopped error _ => some (.error (.refused (.io error)))
  | .poisoned _ _ result => some result
  | _ => none

/-- The result of the call that is about to do this, if it is sweeping the ring. -/
def Task.sweep? : Task → Option Result
  | .onSlot _ _ next => next.sweep?
  | .poison _ result => some result
  | _ => none

/-- The result, if it is one of a call that has swept the ring. -/
def sweepResult? : Result → Option Result
  | .error (.refused (.io error)) => some (.error (.refused (.io error)))
  | .ok .poisoned => some (.ok .poisoned)
  | _ => none

/-- The result of the call, if it sweeps the ring or has done so. -/
def Status.sweep? : Status Task Result → Option Result
  | .ready task => task.sweep?
  | .parked _ wake _ => wake.sweep?
  | .outside task => task.sweep?
  | .finished result => sweepResult? result

section Sweep

variable {W : Type} {g : Geometry} {format : Record.Format} {start : Task} {v : View}
  {status : Status Task Result} {result : Result}

/-- Only what a sweep ends with is the result of one. -/
theorem sweepResult?_eq_none (h_io : ∀ e, result ≠ .error (.refused (.io e)))
    (h_asked : result ≠ .ok .poisoned) : sweepResult? result = none := by
  unfold sweepResult?
  split
  · exact absurd rfl (h_io _)
  · exact absurd rfl h_asked
  · rfl

/-- A sweep ends with the result that it was begun with. -/
theorem eq_of_sweepResult? {result' : Result} (h : sweepResult? result = some result') :
    result = result' := by
  unfold sweepResult? at h
  split at h
  · exact Option.some.inj h
  · exact Option.some.inj h
  · cases h

/-- Waking a call leaves it sweeping or not. -/
theorem sweep?_remains {status' : Status Task Result} (h : status.Remains status') :
    Status.sweep? status' = Status.sweep? status := by
  cases h <;> rfl

/-! ### The way of a record -/

/-- The tasks with which a call on a slot begins, apart from filling a tail ahead of its turn. -/
inductive Begins : Slot.Task → Prop
  | acquire (tag : Nat) : Begins (.acquire tag)
  | tryAcquire (tag : Nat) : Begins (.tryAcquire tag)
  | fillJoin (tag offset : Nat) (data : Bytes) : Begins (.fillJoin tag offset data)
  | join (ticket : Ticket) : Begins (.join ticket)
  | skip (tag : Nat) : Begins (.skip tag)

/-- A task with which a call goes on its way: if it is one on a slot, it begins a call there. -/
structure Task.Plain (t : Task) : Prop where
  sweep : t.sweep? = none
  begins : ∀ k task next, t = .onSlot k task next → Begins task

/-- Whatever a call goes on with in its entry is plain. -/
theorem plain_acquireTask (e : Entry) (p : Portion) (tk : Option Ticket) :
    (acquireTask g e p tk).Plain := by
  refine ⟨rfl, ?_⟩
  rintro _ _ _ ⟨⟩
  exact .acquire _

theorem plain_fillJoinTask (e : Entry) (p : Portion) (tk : Option Ticket) :
    (fillJoinTask g e p tk).Plain := by
  refine ⟨rfl, ?_⟩
  rintro _ _ _ ⟨⟩
  exact .fillJoin _ _ _

theorem plain_offerTailTask (e : Entry) (afterHead : Bool) : (offerTailTask g e afterHead).Plain := by
  refine ⟨rfl, ?_⟩
  rintro _ _ _ ⟨⟩
  exact .tryAcquire _

theorem plain_complete (head : Nat) : (Task.complete head).Plain :=
  ⟨rfl, fun _ _ _ h => by cases h⟩

theorem plain_tailTask (e : Entry) (tk : Option Ticket) : (tailTask g e tk).Plain := by
  unfold tailTask
  split
  · exact plain_complete _
  · cases tk with
    | none => exact plain_acquireTask e .tail none
    | some τ =>
      refine ⟨rfl, ?_⟩
      rintro _ _ _ ⟨⟩
      exact .join τ

theorem plain_skipOrWriteTask (e : Entry) (n : Nat) (tk : Option Ticket) :
    (skipOrWriteTask g e n tk).Plain := by
  unfold skipOrWriteTask
  split
  · refine ⟨rfl, ?_⟩
    rintro _ _ _ ⟨⟩
    exact .skip _
  · exact ⟨rfl, fun _ _ _ h => by cases h⟩

theorem plain_middleTask (e : Entry) (tk : Option Ticket) : (middleTask g e tk).Plain := by
  unfold middleTask
  split
  · exact plain_tailTask e tk
  · exact plain_skipOrWriteTask e 0 tk

theorem plain_headTask (e : Entry) (tk : Option Ticket) : (headTask g e tk).Plain := by
  unfold headTask
  split
  · exact plain_middleTask e tk
  · exact plain_acquireTask e .head tk

theorem plain_entryTask (e : Entry) : (entryTask g e).Plain := by
  unfold entryTask
  split
  · exact plain_acquireTask e .whole none
  · split
    · exact plain_headTask e none
    · exact plain_offerTailTask e false

theorem plain_afterOfferTask (e : Entry) (afterHead : Bool) (tk : Option Ticket) :
    (afterOfferTask g e afterHead tk).Plain := by
  unfold afterOfferTask
  split
  · exact plain_middleTask e tk
  · exact plain_headTask e tk

theorem plain_portionTask (e : Entry) (p : Portion) (tk : Option Ticket) :
    (portionTask g e p tk).Plain := by
  unfold portionTask
  split
  · exact plain_complete _
  · split
    · exact plain_middleTask e tk
    · exact plain_offerTailTask e true
  · exact plain_complete _

/-- How a call goes on with the answer of a slot, unless it sweeps the ring. -/
inductive Resumes (g : Geometry) : Next → Slot.Result → Status Task Result → Prop
  /-- The call ends as the one on the slot did. -/
  | error (next : Next) (stop : Stop LogError) :
      Resumes g next (.error stop) (.finished (.error stop))
  | reply (next : Next) (answer : Slot.Result) (reply : Slot.Reply) :
      Resumes g next answer (.finished (.ok (.slot reply)))
  | fault (next : Next) (answer : Slot.Result) (broken : Fault) :
      Resumes g next answer (.finished (.error (.fault broken)))
  | plain (next : Next) (answer : Slot.Result) {t : Task} (h_plain : t.Plain) :
      Resumes g next answer (.ready t)
  /-- A slot that accepts a tail is to be filled with it. -/
  | fillTail (e : Entry) (afterHead : Bool) :
      Resumes g (.tailOffered e afterHead) (.ok (.accepted true))
        (.ready (.onSlot (portionSlot g e .tail) (.fill e.span.tailTag 0 e.tail)
          (.tailFilled e afterHead)))

/-- Behind its call on a slot, a call that does not sweep goes on in one of these ways. -/
theorem resumes {next : Next} {answer : Slot.Result} (h_next : next.sweep? = none)
    (h : (resume g next answer).Leads status) : Resumes g next answer status := by
  cases goesWith h with
  | finishes =>
    cases answer with
    | ok reply => exact .reply _ _ reply
    | error stop => exact .error _ stop
  | stopped | poisoned => cases h_next
  | ended _ stop => exact .error _ stop
  | acquired => exact .plain _ _ (plain_fillJoinTask _ _ _)
  | given => exact .plain _ _ ⟨rfl, fun _ _ _ h => by cases h⟩
  | unreadable => exact .fault _ _ _
  | spared => exact .plain _ _ (plain_portionTask _ _ _)
  | handedBack => exact .plain _ _ (plain_portionTask _ _ _)
  | accepted => exact .fillTail _ _
  | declined | filled | unfilled => exact .plain _ _ (plain_afterOfferTask _ _ _)
  | skipped => exact .plain _ _ (plain_skipOrWriteTask _ _ _)

/-- A call that does not sweep the ring does not begin to with the answer of a slot: no slot answers
with an error of the Writer. -/
theorem Resumes.sweep? {next : Next} {answer : Slot.Result} (h : Resumes g next answer status)
    (h_answer : ∀ e, answer ≠ .error (.refused (.io e))) : Status.sweep? status = none := by
  cases h with
  | error next stop =>
    refine sweepResult?_eq_none ?_ nofun
    rintro e ⟨⟩
    exact h_answer e rfl
  | reply next answer reply => rfl
  | fault next answer broken => rfl
  | plain next answer h_plain => exact h_plain.sweep
  | fillTail e afterHead => rfl

/-! ### Steps -/

/-- What a call is about to tell is no error of the Writer. -/
theorem At.reply_ne {k : Nat} {reply : Slot.Result} {next : Next}
    (h_at : At g format start (.onSlot k (.announce reply) next) v) (e : IoError) :
    reply ≠ .error (.refused (.io e)) := by
  rintro rfl
  cases h_at with
  | failing h_failing => cases h_failing

/-- A step on a slot of a call that does not sweep the ring. -/
theorem sweep?_run_onSlot {log : Log W} {k : Nat} {s : Slot}
    (hs : log.ring.slots[k]? = some s) {task : Slot.Task} {next : Next} (h_next : next.sweep? = none)
    (h_reply : ∀ reply, task = .announce reply → ∀ e, reply ≠ .error (.refused (.io e)))
    (h : (run (.onSlot k task next) log).1.Leads status) : Status.sweep? status = none := by
  cases lands hs h with
  | parked => exact h_next
  | join => exact h_next
  | announce => exact h_next
  | resumed h_result h =>
    refine (resumes h_next h).sweep? fun e h_eq => ?_
    rcases h_result with h_task | ⟨-, h_result⟩
    · exact h_reply _ h_task e h_eq
    · -- a slot refuses with the reason for which it is stopped
      obtain ⟨reason, -, h_error⟩ := h_result _ h_eq
      cases h_error

/-- **A step keeps a call sweeping the ring**, for the same result, or not sweeping it. -/
theorem At.sweep?_run {t : Task} {log : Log W} (h_at : At g format start t v)
    (h_geometry : log.geometry = g) (h_slots : log.ring.slots.length = g.ringSize)
    (h_final : ∀ result, t.sweep? = some result → sweepResult? result = some result)
    (h : (run t log).1.Leads status) : Status.sweep? status = t.sweep? := by
  have h_from : ∀ {index reason result}, sweepResult? result = some result →
      (poisonFrom g index reason result).Leads status → Status.sweep? status = some result := by
    intro index reason result h_result h_leads
    cases poisonsFrom h_leads with
    | slot => rfl
    | all => exact h_result
  have h_effect := run_effect t log
  generalize run t log = o at h h_effect
  cases h_effect with
  | refused | unencoded | encoded | unplaced | writesSlot | writesDirect | completes =>
    cases h
    rfl
  | placed =>
    cases h
    exact (plain_entryTask _).sweep
  | @poisons reason result =>
    rw [h_geometry] at h
    exact h_from (h_final result rfl) h
  -- the slot is there, for the call is on its way
  | missing h_none =>
    have h_lt := h_at.slot_lt
    rw [← h_slots] at h_lt
    exact absurd h_lt (List.getElem?_eq_none_iff.1 h_none).not_gt
  | @onSlot k task next s hs =>
    cases h_next : next.sweep? with
    | none =>
      rw [Task.sweep?, h_next]
      refine sweep?_run_onSlot hs h_next ?_ h
      rintro reply rfl
      exact h_at.reply_ne
    | some result =>
      rw [Task.sweep?, h_next]
      rw [run_onSlot hs, h_geometry] at h
      -- a call that sweeps the ring stops a slot or wakes those who are blocked on it
      cases h_at with
      | failing h_failing =>
        cases h_failing with
        | abandon => cases h; exact h_next
        | poisonSlot => cases h; exact h_next
        | abandoned =>
          cases h with
          | notify h => cases h; exact h_next
        | poisonedSlot hk reason h_result =>
          cases h with
          | notify h =>
            cases h_next
            exact h_from (h_final _ rfl) h
        | handedBack => cases h_next
      | _ => cases h_next

/-- A call whose deadline passes does not sweep the ring. -/
theorem Deadline.sweep? {wake late : Task} (h : Deadline wake late) {log : Log W}
    (h_at : At g format start wake v) (h_slots : log.ring.slots.length = g.ringSize)
    (h_leads : (run late log).1.Leads status) :
    wake.sweep? = none ∧ Status.sweep? status = none := by
  cases h with
  | rejoin k τ next =>
    have hk := h_at.slot_lt
    have hs := List.getElem?_eq_getElem (h_slots ▸ hk : k < log.ring.slots.length)
    have h_next : next.sweep? = none := by
      cases h_at with
      | rejoin => rfl
      | failing h_failing => cases h_failing
    exact ⟨h_next, sweep?_run_onSlot hs h_next (fun _ h_eq => by cases h_eq) h_leads⟩

/-- **A step in which a call to the Writer returns** makes its call sweep the ring if the call to the
Writer is refused, and for the error of the Writer. -/
theorem AtOutside.sweep?_answered [Writer W] {i : Nat} {t : Task} {log : Log W} {verdict : Verdict}
    (h_at : AtOutside g i t v) (h : (answered t verdict log).1.Leads status) :
    t.sweep? = none ∧ ∃ w, w.call = i ∧ answerNotes log i verdict t = [.returned w (log.outcome verdict w)] ∧
      Status.sweep? status = match log.outcome verdict w with
        | .error (.refused e) => some (.error (.refused (.io e)))
        | _ => none := by
  have h_reaction := answered_reaction t verdict log
  generalize answered t verdict log = o at h h_reaction
  cases h_at with
  | @writeSlot w p tk f data h_waits h_hold h_due h_part =>
    refine ⟨rfl, flushWrite i f data w.entry.hint, rfl, rfl, ?_⟩
    have h_outcome : log.outcome verdict (flushWrite i f data w.entry.hint) =
      (log.write verdict data f.tag w.entry.hint).1 := rfl
    rw [h_outcome]
    cases h_reaction with
    -- the call goes on as the Writer has answered
    | slotWritten h_write | slotRefused h_write | slotFaulted h_write =>
      rw [h_write]
      cases h
      rfl
    | idle h_none => cases h_none 0
  | @writeDirect w tk h_past h_middle =>
    refine ⟨rfl, middleWrite i w.entry, rfl, rfl, ?_⟩
    have h_outcome : log.outcome verdict (middleWrite i w.entry) =
      (log.write verdict w.entry.direct w.entry.middle.start w.entry.hint).1 := rfl
    rw [h_outcome]
    cases h_reaction with
    | directWritten h_write =>
      rw [h_write]
      cases h
      exact (plain_tailTask _ _).sweep
    | directRefused h_write | directFaulted h_write =>
      rw [h_write]
      cases h
      rfl
    | idle h_none => cases h_none 0

end Sweep

/-! ### Who sweeps the ring -/

section Runs

variable {W : Type} [Writer W]

namespace Run

/-- The call `i` has made a call to the Writer that failed with this error. -/
def WriteFailed (r : Run W) (i : Nat) (e : IoError) : Prop :=
  ∃ w, w.call = i ∧ .returned w (.error (.refused e)) ∈ r.journal

/-- A call sweeps the ring if and only if its call to the Writer has failed or it was asked to. -/
structure Blames (r : Run W) : Prop where
  final : ∀ (i : Nat) status result, r.machine.calls[i]? = some status →
    Status.sweep? status = some result → sweepResult? result = some result
  io : ∀ (i : Nat) status e, r.machine.calls[i]? = some status →
    (Status.sweep? status = some (.error (.refused (.io e))) ↔ r.WriteFailed i e)
  asked : ∀ (i : Nat) status start, r.machine.calls[i]? = some status →
    r.starts[i]? = some start → (Status.sweep? status = some (.ok .poisoned) ↔ start.IsPoison)

variable {r r₁ r₂ : Run W} {e : Event Task Verdict} {i : Nat} {status status' : Status Task Result}
  {o : Move Task Result × Log W}

/-- What an event has to do with sweeping: the call that makes the step sweeps the ring afterwards for
the same result as before, or it has just had an error from the Writer. -/
theorem sweep?_acts (h : Blames r₁) (h_fits : r₁.Fits)
    (h_acts : r₁.machine.Acts (program W) e i status o) (h_leads : o.1.Leads status') :
    (Status.sweep? status' = Status.sweep? status ∧
      ∀ w e', .returned w (.error (.refused e')) ∉ notes r₁.machine e) ∨
    (Status.sweep? status = none ∧ ∃ w e', w.call = i ∧
      notes r₁.machine e = [.returned w (.error (.refused e'))] ∧
      Status.sweep? status' = some (.error (.refused (.io e')))) := by
  obtain ⟨P, hm, -⟩ := r₁.exists_matches h_fits r₁.within_all
  have h_slots : r₁.machine.state.ring.slots.length = r₁.log.geometry.ringSize := by
    rw [hm.log.slots, hm.inv.ring]
  obtain ⟨start, v, -, -, h_stands⟩ := hm.exists_view h_acts.before
  cases h_acts with
  | @run i t hi =>
    cases h_stands with
    | ready h_at =>
      refine .inl ⟨h_at.sweep?_run hm.log.geometry h_slots (fun result => h.final i _ result hi)
        h_leads, fun w e' hn => ?_⟩
      -- the return of a call to the Writer is noted with an answer only
      rw [notes_run hi] at hn
      unfold runNotes at hn
      split at hn
      · cases List.mem_singleton.1 hn
      · rw [Option.mem_toList, Option.map_eq_some_iff] at hn
        obtain ⟨w', -, h_eq⟩ := hn
        cases h_eq
  | @expire i c wake late hi =>
    cases h_stands with
    | parked h_at h_late =>
      obtain ⟨h_none, h_none'⟩ := (h_late late rfl).sweep? h_at h_slots h_leads
      exact .inl ⟨h_none'.trans h_none.symm, fun w e' hn => by cases hn⟩
  | @answer i t verdict hi =>
    cases h_stands with
    | outside h_at =>
      obtain ⟨h_none, w, h_call, h_returned, h_sweep⟩ := h_at.sweep?_answered h_leads
      rw [notes_answer hi, h_returned]
      cases h_outcome : r₁.machine.state.outcome verdict w with
      | error stop =>
        cases stop with
        | refused e' =>
          rw [h_outcome] at h_sweep
          exact .inr ⟨h_none, w, e', h_call, rfl, h_sweep⟩
        | fault broken =>
          rw [h_outcome] at h_sweep
          refine .inl ⟨h_sweep.trans h_none.symm, fun w' e' hn => ?_⟩
          cases List.mem_singleton.1 hn
      | ok success =>
        rw [h_outcome] at h_sweep
        refine .inl ⟨h_sweep.trans h_none.symm, fun w' e' hn => ?_⟩
        cases List.mem_singleton.1 hn

/-- A write has failed in a run if it had before, or the event says so. -/
theorem writeFailed_next (h_next : r₁.Next e r₂) {j : Nat} {e' : IoError} :
    r₂.WriteFailed j e' ↔ r₁.WriteFailed j e' ∨
      ∃ w, w.call = j ∧ .returned w (.error (.refused e')) ∈ notes r₁.machine e := by
  simp only [WriteFailed, h_next.journal, List.mem_append, and_or_left, exists_or]

/-- It is a call that was made. -/
theorem WriteFailed.lt {j : Nat} {e' : IoError} (h : r.WriteFailed j e') :
    j < r.machine.calls.length := by
  obtain ⟨w, rfl, h_mem⟩ := h
  exact r.call_lt _ h_mem

/-- A call that is made sweeps the ring only if it is to poison the log. -/
theorem Blames.call (h : Blames r₁) {start : Task} (h_next : r₁.Next (.call start) r₂) :
    Blames r₂ := by
  have h_machine : r₂.machine.calls = r₁.machine.calls ++ [.ready start] :=
    (congrArg Machine.calls (Option.some.inj h_next.step)).symm
  have h_starts : r₂.starts = r₁.starts ++ [start] := h_next.starts
  have h_failed : ∀ {j e'}, r₂.WriteFailed j e' ↔ r₁.WriteFailed j e' := by
    intro j e'
    rw [writeFailed_next h_next]
    exact or_iff_left fun ⟨w, _, hn⟩ => by cases hn
  -- the new call is a commit, which does not sweep the ring, or it is to poison the log
  have h_new : (start.IsCommit ∧ start.sweep? = none) ∨
      (start.IsPoison ∧ start.sweep? = some (.ok .poisoned)) := by
    rcases h_next.begins with ⟨timestamp, payload, hint, rfl⟩ | ⟨reason, rfl⟩
    · exact .inl ⟨⟨_, _, _, rfl⟩, rfl⟩
    · exact .inr ⟨⟨_, rfl⟩, rfl⟩
  -- all other calls stand where they stood, and no call to the Writer has failed meanwhile
  have h_cases : ∀ {j : Nat} {status}, r₂.machine.calls[j]? = some status →
      r₁.machine.calls[j]? = some status ∨ (j = r₁.machine.calls.length ∧ status = .ready start) :=
    fun hj => Machine.getElem?_call (h_machine ▸ hj)
  refine ⟨?final, ?io, ?asked⟩
  case final =>
    intro j status result hj h_sweep
    rcases h_cases hj with hj | ⟨-, rfl⟩
    · exact h.final j status result hj h_sweep
    · rcases h_new with ⟨-, h_none⟩ | ⟨-, h_some⟩
      · cases h_none.symm.trans h_sweep
      · cases h_some.symm.trans h_sweep
        rfl
  case io =>
    intro j status e' hj
    rw [h_failed]
    rcases h_cases hj with hj | ⟨rfl, rfl⟩
    · exact h.io j status e' hj
    · refine ⟨fun h_sweep => ?_, fun h_write => absurd h_write.lt (Nat.lt_irrefl _)⟩
      rcases h_new with ⟨-, h_none⟩ | ⟨-, h_some⟩
      · cases h_none.symm.trans h_sweep
      · cases h_some.symm.trans h_sweep
  case asked =>
    intro j status start' hj h_start'
    rw [h_starts] at h_start'
    rcases h_cases hj with hj | ⟨rfl, rfl⟩
    · obtain ⟨h_lt, -⟩ := List.getElem?_eq_some_iff.1 hj
      rw [List.getElem?_append_left (r₁.starts_length ▸ h_lt)] at h_start'
      exact h.asked j status start' hj h_start'
    · rw [← r₁.starts_length, List.getElem?_concat_length] at h_start'
      cases h_start'
      rcases h_new with ⟨⟨_, _, _, h_commit⟩, h_none⟩ | ⟨h_poison, h_some⟩
      · refine ⟨fun h_sweep => ?_, fun ⟨_, h_poison⟩ => ?_⟩
        · cases h_none.symm.trans h_sweep
        · cases h_commit.symm.trans h_poison
      · exact ⟨fun _ => h_poison, fun _ => h_some⟩

/-- What a step means for the other calls: they are woken at most, and no note is about them. -/
theorem sweep?_others (h_next : r₁.Next e r₂) (h_acts : r₁.machine.Acts (program W) e i status o)
    (h_stepped : r₁.machine.Stepped r₂.machine i o) {j : Nat} {status₂ : Status Task Result}
    (h_ne : j ≠ i) (hj : r₂.machine.calls[j]? = some status₂) :
    ∃ status₁, r₁.machine.calls[j]? = some status₁ ∧ Status.sweep? status₂ = Status.sweep? status₁ ∧
      ∀ e', r₂.WriteFailed j e' ↔ r₁.WriteFailed j e' := by
  obtain ⟨status₁, hj₁, h_remains⟩ := h_stepped.exists_before h_ne hj
  refine ⟨status₁, hj₁, sweep?_remains h_remains, fun e' => ?_⟩
  rw [writeFailed_next h_next]
  refine or_iff_left ?_
  rintro ⟨w, rfl, hn⟩
  exact h_ne (call_of_notes h_acts hn)

/-- The call that makes a step sweeps the ring for an error just when its call to the Writer has failed
with it, be it now or before. -/
theorem Blames.io_acts (h : Blames r₁) (h_fits : r₁.Fits) (h_next : r₁.Next e r₂)
    (h_acts : r₁.machine.Acts (program W) e i status o) (h_leads : o.1.Leads status') (e' : IoError) :
    Status.sweep? status' = some (.error (.refused (.io e'))) ↔ r₂.WriteFailed i e' := by
  rw [writeFailed_next h_next]
  rcases sweep?_acts h h_fits h_acts h_leads with
    ⟨h_same, h_quiet⟩ | ⟨h_none, w, e₁, h_call, h_notes, h_some⟩
  · rw [h_same, h.io i status e' h_acts.before]
    exact (or_iff_left fun ⟨w, _, hn⟩ => h_quiet w e' hn).symm
  · -- nothing has failed before, and the error is the one that was noted
    have h_not : ¬ r₁.WriteFailed i e' := by
      rw [← h.io i status e' h_acts.before, h_none]
      nofun
    rw [h_some, h_notes, or_iff_right h_not]
    constructor
    · rintro ⟨⟩
      exact ⟨w, h_call, List.mem_singleton_self _⟩
    · rintro ⟨w', -, hn⟩
      cases List.mem_singleton.1 hn
      rfl

/-- The call that makes a step sweeps the ring because it was asked to just when it was. -/
theorem Blames.asked_acts (h : Blames r₁) (h_fits : r₁.Fits)
    (h_acts : r₁.machine.Acts (program W) e i status o) (h_leads : o.1.Leads status') {start : Task}
    (h_start : r₁.starts[i]? = some start) :
    Status.sweep? status' = some (.ok .poisoned) ↔ start.IsPoison := by
  have h_before := h.asked i status start h_acts.before h_start
  rcases sweep?_acts h h_fits h_acts h_leads with ⟨h_same, -⟩ | ⟨h_none, w, e', -, -, h_some⟩
  · rw [h_same]
    exact h_before
  · -- a call to the Writer was made by a commit
    rw [h_some]
    refine ⟨fun h_asked => (by cases h_asked), fun h_poison => ?_⟩
    cases h_none.symm.trans (h_before.2 h_poison)

theorem Blames.step (h : Blames r₁) (h_fits : r₁.Fits) (h_next : r₁.Next e r₂)
    (h_acts : r₁.machine.Acts (program W) e i status o)
    (h_stepped : r₁.machine.Stepped r₂.machine i o) : Blames r₂ := by
  obtain ⟨status', hi', h_leads⟩ := h_stepped.self
  have h_starts : r₂.starts = r₁.starts := by
    rw [h_next.starts]
    cases h_acts <;> exact List.append_nil _
  refine ⟨?final, ?io, ?asked⟩
  case final =>
    intro j status₂ result hj h_sweep
    by_cases h_eq : j = i
    · subst h_eq
      cases hj.symm.trans hi'
      -- the call sweeps as before, or has begun to, since its write failed
      rcases sweep?_acts h h_fits h_acts h_leads with ⟨h_same, -⟩ | ⟨-, w, e', -, -, h_some⟩
      · exact h.final j status result h_acts.before (h_same.symm.trans h_sweep)
      · cases h_some.symm.trans h_sweep
        rfl
    · obtain ⟨status₁, hj₁, h_same, -⟩ := sweep?_others h_next h_acts h_stepped h_eq hj
      exact h.final j status₁ result hj₁ (h_same.symm.trans h_sweep)
  case io =>
    intro j status₂ e' hj
    by_cases h_eq : j = i
    · subst h_eq
      cases hj.symm.trans hi'
      exact h.io_acts h_fits h_next h_acts h_leads e'
    · obtain ⟨status₁, hj₁, h_same, h_failed⟩ := sweep?_others h_next h_acts h_stepped h_eq hj
      rw [h_same, h_failed]
      exact h.io j status₁ e' hj₁
  case asked =>
    intro j status₂ start hj h_start
    rw [h_starts] at h_start
    by_cases h_eq : j = i
    · subst h_eq
      cases hj.symm.trans hi'
      exact h.asked_acts h_fits h_acts h_leads h_start
    · obtain ⟨status₁, hj₁, h_same, -⟩ := sweep?_others h_next h_acts h_stepped h_eq hj
      rw [h_same]
      exact h.asked j status₁ start hj₁ h_start

/-- **Who sweeps the ring.** -/
theorem blames (r : Run W) (h_fits : r.Fits) : Blames r := by
  refine r.induction (motive := fun r' => r'.Fits → Blames r') ?_ ?_ h_fits
  · intro _
    refine ⟨fun i status result hi => ?_, fun i status e hi => ?_, fun i status start hi => ?_⟩ <;>
      rw [getElem?_calls_start] at hi <;> cases hi
  · intro r₁ e r₂ h_next h_before ih h_fits₂
    have h_fits₁ := h_next.before.fits h_fits₂
    rcases Machine.step_cases h_next.step with ⟨start, rfl, -⟩ | ⟨i, status, o, h_acts, h_stepped⟩
    · exact (ih h_fits₁).call h_next
    · exact (ih h_fits₁).step h_fits₁ h_next h_acts h_stepped

/-! ### Why the ring is swept -/

/-- There is a reason for the log to be poisoned: a call to the Writer has failed, or somebody has
asked for it. -/
def Caused (r : Run W) : Prop := (∃ i e, r.WriteFailed i e) ∨ r.Poisons

/-- What has caused a failure is not undone. -/
theorem Before.caused (h : r.Before r') (h_caused : r.Caused) : r'.Caused := by
  rcases h_caused with ⟨i, e, w, h_call, h_mem⟩ | ⟨start, h_mem, h_poison⟩
  · exact .inl ⟨i, e, w, h_call, h.mem_journal h_mem⟩
  · exact .inr ⟨start, h.events.subset h_mem, h_poison⟩

/-- A call that is to poison the log is one that poisons. -/
theorem poisons_of_start {start : Task} (h_start : r.starts[i]? = some start)
    (h_poison : start.IsPoison) : r.Poisons := by
  have h_mem := List.mem_of_getElem? h_start
  rw [Run.starts, List.mem_flatMap] at h_mem
  obtain ⟨e, he, h_mem⟩ := h_mem
  cases e with
  | call start' =>
    cases List.mem_singleton.1 h_mem
    exact ⟨start, he, h_poison⟩
  | _ => cases h_mem

/-- If a call sweeps the ring, then there is a reason for it. -/
theorem Blames.caused (h : Blames r) {status : Status Task Result} {result : Result}
    (hi : r.machine.calls[i]? = some status) (h_sweep : Status.sweep? status = some result) :
    r.Caused := by
  have h_final := h.final i status result hi h_sweep
  unfold sweepResult? at h_final
  split at h_final
  · cases h_final
    exact .inl ⟨i, _, (h.io i status _ hi).1 h_sweep⟩
  · cases h_final
    obtain ⟨h_lt, -⟩ := List.getElem?_eq_some_iff.1 hi
    have h_start := List.getElem?_eq_getElem (r.starts_length ▸ h_lt)
    exact .inr (poisons_of_start h_start ((h.asked i status _ hi h_start).1 h_sweep))
  · cases h_final

/-- If there is a reason for it, then some call sweeps the ring or has done so. -/
theorem Blames.exists_sweep (h : Blames r) (h_caused : r.Caused) :
    ∃ (i : Nat) (status : Status Task Result) (result : Result),
      r.machine.calls[i]? = some status ∧ Status.sweep? status = some result := by
  rcases h_caused with ⟨i, e, h_failed⟩ | ⟨start, h_mem, h_poison⟩
  · have hi := List.getElem?_eq_getElem h_failed.lt
    exact ⟨i, _, _, hi, (h.io i _ e hi).2 h_failed⟩
  · -- the call that was to poison the log has a number
    have h_start : start ∈ r.starts :=
      List.mem_flatMap.2 ⟨.call start, h_mem, List.mem_singleton_self start⟩
    obtain ⟨i, h_start⟩ := List.mem_iff_getElem?.1 h_start
    obtain ⟨h_lt, -⟩ := List.getElem?_eq_some_iff.1 h_start
    have hi := List.getElem?_eq_getElem (r.starts_length ▸ h_lt)
    exact ⟨i, _, _, hi, (h.asked i _ start hi h_start).2 h_poison⟩

/-- A call that sweeps the ring is neither blocked nor waiting for the Writer. -/
theorem ready_of_sweep (h_fits : r.Fits) (hi : r.machine.calls[i]? = some status) {result : Result}
    (h_sweep : Status.sweep? status = some result) :
    (∃ t, status = .ready t) ∨ status = .finished result := by
  obtain ⟨P, hm, -⟩ := r.exists_matches h_fits r.within_all
  obtain ⟨start, v, -, -, h_stands⟩ := hm.exists_view hi
  cases status with
  | ready t => exact .inl ⟨t, rfl⟩
  | parked k wake late =>
    obtain ⟨task, next, rfl, -, h_blocks⟩ := r.blocked i k wake late hi
    cases h_stands with
    | parked h_at h_late =>
      cases h_at with
      -- a call that has failed is never blocked
      | failing h_failing => cases h_failing <;> cases h_blocks
      | _ => cases h_sweep
  | outside t =>
    cases h_stands with
    | outside h_at => cases h_at <;> cases h_sweep
  | finished result' => exact .inr (congrArg _ (eq_of_sweepResult? h_sweep))

end Run

end Runs

end GroupCommit.Log
