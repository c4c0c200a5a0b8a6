import GroupCommit.Proofs.Log.Journal
import GroupCommit.Proofs.Machine.WakeUps

/-!
# What a step of a call comes to

The steps of a call on a log are taken apart here, once for all: for each task, how the call goes on and
what the log is afterwards. What every step leaves alone, and where it leaves its call, is then a matter
of cases. A step on a slot is one of a call on that slot, and when that call has ended the one on
the log goes on with its answer, which is taken apart in the same way, and so is the answer of the Writer.

* `Effect`, `run_effect`: what a step comes to.
* `PoisonsFrom`, `poisonsFrom`: how a call goes through the ring that poisons it.
* `GoesWith`, `goesWith`: how a call goes on with the answer of a slot.
* `Reaction`, `answered_reaction`: how a call goes on with the answer of the Writer.
-/

namespace GroupCommit.Log

variable {W : Type} {log : Log W} {k : Nat} {s : Slot}

/-! ### Steps on slots -/

/-- A step on a slot is that of the slot, with what the log goes on with. -/
theorem run_onSlot (hs : log.ring.slots[k]? = some s) (task : Slot.Task) (next : Next) :
    run (.onSlot k task next) log =
      ((Slot.run task s).1.embed k (.onSlot k · next) (resume log.geometry next),
        log.setSlot k (Slot.run task s).2) := by
  have h_slot : log.ring.slot? k = .ok s := by rw [Ring.slot?, hs]
  rw [run, h_slot]

/-- A step on a slot that is not there is a fault. -/
theorem run_onSlot_of_none (hs : log.ring.slots[k]? = none) (task : Slot.Task) (next : Next) :
    ∃ broken, run (.onSlot k task next) log = (faulting broken, log) := by
  have h_slot : log.ring.slot? k = .error (.noElement log.ring.slots.length k) := by
    rw [Ring.slot?, hs]
  exact ⟨_, by rw [run, h_slot]⟩

/-! ### All steps -/

/-- The log after so many bytes have been reserved. -/
def reserved (log : Log W) (length : Nat) : Log W :=
  { log with allocator := (log.allocator.reserve length).2 }

/-- What a step with this task can come to: how the call goes on, and the log afterwards. -/
inductive Effect (log : Log W) : Task → Move Task Result × Log W → Prop
  | refused {timestamp : UInt64} {payload : Bytes} {hint : Int32} (h : log.ring.poisoned = true) :
      Effect log (.commit timestamp payload hint)
        (.finish (.error (.refused (.poisoned .earlierFailure))), log)
  | unencoded {timestamp : UInt64} {payload : Bytes} {hint : Int32} {broken : Fault}
      (h_live : ¬ log.ring.poisoned = true)
      (h_encode : log.format.encode timestamp payload = .error broken) :
      Effect log (.commit timestamp payload hint) (faulting broken, log)
  | encoded {timestamp : UInt64} {payload : Bytes} {hint : Int32} {record : Bytes}
      (h_live : ¬ log.ring.poisoned = true) (h_encode : log.format.encode timestamp payload = .ok record) :
      Effect log (.commit timestamp payload hint) (.goto (.reserve record hint), log)
  /-- The addresses are given out even if the record has no place in the ring. -/
  | unplaced {record : Bytes} {hint : Int32} {broken : Fault}
      (h_cut : (log.geometry.span log.position record.length).bind (Entry.ofRecord · record hint) =
        .error broken) :
      Effect log (.reserve record hint) (faulting broken, log.reserved record.length)
  | placed {record : Bytes} {hint : Int32} {e : Entry}
      (h_cut : (log.geometry.span log.position record.length).bind (Entry.ofRecord · record hint) =
        .ok e) :
      Effect log (.reserve record hint)
        (.goto (entryTask log.geometry e), log.reserved record.length)
  | missing {k : Nat} {task : Slot.Task} {next : Next} {broken : Fault}
      (h_none : log.ring.slots[k]? = none) : Effect log (.onSlot k task next) (faulting broken, log)
  | onSlot {k : Nat} {task : Slot.Task} {next : Next} {s : Slot}
      (hs : log.ring.slots[k]? = some s) :
      Effect log (.onSlot k task next) (run (.onSlot k task next) log)
  | writesSlot {k : Nat} {f : Flush} {data : Bytes} {e : Entry} {p : Portion} {tk : Option Ticket} :
      Effect log (.writeSlot k f data e p tk) (.outside (.writeSlot k f data e p tk), log)
  | writesDirect {e : Entry} {tk : Option Ticket} :
      Effect log (.writeDirect e tk) (.outside (.writeDirect e tk), log)
  | completes {head : Nat} : Effect log (.complete head)
      (.finish (.ok (.appended head)), { log with stats := log.stats.countCommit })
  | poisons {reason : PoisonReason} {result : Result} : Effect log (.poison reason result)
      (poisonFrom log.geometry 0 reason result,
        { log with ring := { log.ring with poisoned := true } })

/-- **Every step comes to one of these.** -/
theorem run_effect (t : Task) (log : Log W) : Effect log t (run t log) := by
  cases t with
  | commit timestamp payload hint =>
    rw [run]
    split
    · next h_poisoned => exact .refused h_poisoned
    · next h_live =>
      split
      · next h_encode => exact .unencoded h_live h_encode
      · next h_encode => exact .encoded h_live h_encode
  -- the span of the record may not be cut, which is a fault
  | reserve record hint =>
    simp only [run]
    split
    · next h_cut => exact .unplaced h_cut
    · next h_cut => exact .placed h_cut
  | onSlot k task next =>
    cases hs : log.ring.slots[k]? with
    | none =>
      obtain ⟨broken, h_run⟩ := run_onSlot_of_none hs task next
      rw [h_run]
      exact .missing hs
    | some s => exact .onSlot hs
  | writeSlot k f data e p tk => exact .writesSlot
  | writeDirect e tk => exact .writesDirect
  | complete head => exact .completes
  | poison reason result => exact .poisons

/-- Where a call stands that goes on to poison the slots from this one on. -/
inductive PoisonsFrom (g : Geometry) (index : Nat) (reason : PoisonReason) (result : Result) :
    Status Task Result → Prop
  | slot (h_lt : index < g.ringSize) : PoisonsFrom g index reason result
      (.ready (.onSlot index (.poison reason) (.poisoned index reason result)))
  | all (h_le : g.ringSize ≤ index) : PoisonsFrom g index reason result (.finished result)

/-- What poisoning the rest of the ring goes on with. -/
theorem poisonsFrom {g : Geometry} {index : Nat} {reason : PoisonReason} {result : Result}
    {status : Status Task Result} (h : (poisonFrom g index reason result).Leads status) :
    PoisonsFrom g index reason result status := by
  unfold poisonFrom at h
  split at h
  · next h_lt => cases h; exact .slot h_lt
  · next h_all => cases h; exact .all (Nat.le_of_not_lt h_all)

/-! ### The answer of a slot -/

/-- A call that goes on in this way is a commit, and has not failed. -/
def Next.Commits : Next → Prop
  | .finish | .stopped _ _ | .poisoned _ _ _ => False
  | _ => True

/-- Where a call stands that goes on with the answer of a slot. -/
inductive GoesWith (g : Geometry) : Next → Slot.Result → Status Task Result → Prop
  | finishes (answer : Slot.Result) : GoesWith g .finish answer (.finished (answer.map .slot))
  | stopped (error : IoError) (reason : PoisonReason) (answer : Slot.Result) :
      GoesWith g (.stopped error reason) answer
        (.ready (.poison reason (.error (.refused (.io error)))))
  | poisoned {index : Nat} {reason : PoisonReason} {result : Result} {answer : Slot.Result}
      {status : Status Task Result} (h : (poisonFrom g (index + 1) reason result).Leads status) :
      GoesWith g (.poisoned index reason result) answer status
  /-- The call ends as the one on the slot did. -/
  | ended (next : Next) (stop : Stop LogError) (h_next : next.Commits) :
      GoesWith g next (.error stop) (.finished (.error stop))
  | acquired (e : Entry) (p : Portion) (tk : Option Ticket) (reply : Slot.Reply) :
      GoesWith g (.acquired e p tk) (.ok reply) (.ready (fillJoinTask g e p tk))
  | given (e : Entry) (p : Portion) (tk : Option Ticket) {flush : Flush} {data : Bytes}
      (h_bytes : flush.bytes = .ok data) :
      GoesWith g (.joined e p tk) (.ok (.joined (some flush)))
        (.ready (.writeSlot (portionSlot g e p) flush data e p tk))
  | unreadable (e : Entry) (p : Portion) (tk : Option Ticket) (flush : Flush) (broken : Fault) :
      GoesWith g (.joined e p tk) (.ok (.joined (some flush))) (.finished (.error (.fault broken)))
  /-- Somebody else has written the bytes. -/
  | spared (e : Entry) (p : Portion) (tk : Option Ticket) {reply : Slot.Reply}
      (h_other : ∀ flush, reply ≠ .joined (some flush)) :
      GoesWith g (.joined e p tk) (.ok reply) (.ready (portionTask g e p tk))
  | handedBack (e : Entry) (p : Portion) (tk : Option Ticket) (reply : Slot.Reply) :
      GoesWith g (.handedBack e p tk) (.ok reply) (.ready (portionTask g e p tk))
  | accepted (e : Entry) (afterHead : Bool) :
      GoesWith g (.tailOffered e afterHead) (.ok (.accepted true))
        (.ready (.onSlot (portionSlot g e .tail) (.fill e.span.tailTag 0 e.tail)
          (.tailFilled e afterHead)))
  | declined (e : Entry) (afterHead : Bool) {reply : Slot.Reply} (h_reply : reply ≠ .accepted true) :
      GoesWith g (.tailOffered e afterHead) (.ok reply) (.ready (afterOfferTask g e afterHead none))
  | filled (e : Entry) (afterHead : Bool) (ticket : Ticket) :
      GoesWith g (.tailFilled e afterHead) (.ok (.filled ticket))
        (.ready (afterOfferTask g e afterHead (some ticket)))
  | unfilled (e : Entry) (afterHead : Bool) {reply : Slot.Reply}
      (h_reply : ∀ ticket, reply ≠ .filled ticket) :
      GoesWith g (.tailFilled e afterHead) (.ok reply) (.ready (afterOfferTask g e afterHead none))
  | skipped (e : Entry) (number : Nat) (tk : Option Ticket) (reply : Slot.Reply) :
      GoesWith g (.skipped e number tk) (.ok reply) (.ready (skipOrWriteTask g e (number + 1) tk))

/-- **Every answer leads to one of these.** -/
theorem goesWith {g : Geometry} {next : Next} {answer : Slot.Result} {status : Status Task Result}
    (h : (resume g next answer).Leads status) : GoesWith g next answer status := by
  cases next with
  | finish => cases h; exact .finishes answer
  | stopped error reason => cases h; exact .stopped error reason answer
  | poisoned index reason result => exact .poisoned h
  | acquired e p tk =>
    rcases answer with stop | reply <;> cases h
    · exact .ended _ stop (by trivial)
    · exact .acquired e p tk reply
  | joined e p tk =>
    rcases answer with stop | _ | now | ticket | _ | flush
    case ok.joined.some =>
      -- the bytes of the flush may be out of their buffer's range
      rcases h_bytes : flush.bytes with broken | data <;> simp only [resume, h_bytes] at h <;> cases h
      · exact .unreadable e p tk flush broken
      · exact .given e p tk h_bytes
    case error => cases h; exact .ended _ stop (by trivial)
    all_goals cases h; exact .spared e p tk nofun
  | handedBack e p tk =>
    rcases answer with stop | reply <;> cases h
    · exact .ended _ stop (by trivial)
    · exact .handedBack e p tk reply
  -- any answer but that the slot is open now declines the tail
  | tailOffered e afterHead =>
    rcases answer with stop | _ | now | ticket | flush
    case error => cases h; exact .ended _ stop (by trivial)
    case ok.accepted =>
      cases now <;> cases h
      · exact .declined e afterHead nofun
      · exact .accepted e afterHead
    all_goals cases h; exact .declined e afterHead nofun
  | tailFilled e afterHead =>
    rcases answer with stop | _ | now | ticket | flush
    case error => cases h; exact .ended _ stop (by trivial)
    case ok.filled => cases h; exact .filled e afterHead ticket
    all_goals cases h; exact .unfilled e afterHead nofun
  | skipped e number tk =>
    rcases answer with stop | reply <;> cases h
    · exact .ended _ stop (by trivial)
    · exact .skipped e number tk reply

/-! ### The answer of the Writer -/

variable [Writer W]

/-- What the answer of the outside world to a call with this task comes to. -/
inductive Reaction (log : Log W) (verdict : Verdict) : Task → Move Task Result × Log W → Prop
  | slotWritten {k : Nat} {f : Flush} {data : Bytes} {e : Entry} {p : Portion} {tk : Option Ticket}
      {writer : W} (h_write : log.write verdict data f.tag e.hint = (.ok (), writer)) :
      Reaction log verdict (.writeSlot k f data e p tk)
        (.goto (.onSlot k (.release f) (.handedBack e p tk)),
          { log with writer, stats := log.stats.countFlush f.kind f.length })
  | slotRefused {k : Nat} {f : Flush} {data : Bytes} {e : Entry} {p : Portion} {tk : Option Ticket}
      {error : IoError} {writer : W}
      (h_write : log.write verdict data f.tag e.hint = (.error (.refused error), writer)) :
      Reaction log verdict (.writeSlot k f data e p tk)
        (.goto (.onSlot k (.abandon f (.slotWrite f.length f.tag error))
          (.stopped error (.slotWrite f.length f.tag error))), { log with writer })
  | slotFaulted {k : Nat} {f : Flush} {data : Bytes} {e : Entry} {p : Portion} {tk : Option Ticket}
      {broken : Fault} {writer : W}
      (h_write : log.write verdict data f.tag e.hint = (.error (.fault broken), writer)) :
      Reaction log verdict (.writeSlot k f data e p tk) (faulting broken, { log with writer })
  | directWritten {e : Entry} {tk : Option Ticket} {writer : W}
      (h_write : log.write verdict e.direct e.middle.start e.hint = (.ok (), writer)) :
      Reaction log verdict (.writeDirect e tk) (.goto (tailTask log.geometry e tk),
        { log with writer, stats := log.stats.countDirect e.direct.length })
  | directRefused {e : Entry} {tk : Option Ticket} {error : IoError} {writer : W}
      (h_write : log.write verdict e.direct e.middle.start e.hint
        = (.error (.refused error), writer)) :
      Reaction log verdict (.writeDirect e tk)
        (.goto (.poison (.directWrite e.direct.length e.middle.start error)
          (.error (.refused (.io error)))), { log with writer })
  | directFaulted {e : Entry} {tk : Option Ticket} {broken : Fault} {writer : W}
      (h_write : log.write verdict e.direct e.middle.start e.hint = (.error (.fault broken), writer)) :
      Reaction log verdict (.writeDirect e tk) (faulting broken, { log with writer })
  /-- The task is no call to the Writer. -/
  | idle {t : Task} (h_none : ∀ i, t.write? i = none) : Reaction log verdict t (.goto t, log)

/-- **Every answer comes to one of these.** -/
theorem answered_reaction (t : Task) (verdict : Verdict) (log : Log W) :
    Reaction log verdict t (answered t verdict log) := by
  cases t with
  | writeSlot k f data e p tk =>
    rw [answered]
    split
    · next h_write => exact .slotWritten h_write
    · next h_write => exact .slotRefused h_write
    · next h_write => exact .slotFaulted h_write
  | writeDirect e tk =>
    rw [answered]
    split
    · next h_write => exact .directWritten h_write
    · next h_write => exact .directRefused h_write
    · next h_write => exact .directFaulted h_write
  | _ => exact .idle fun _ => rfl

end GroupCommit.Log
