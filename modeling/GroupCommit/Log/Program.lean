import GroupCommit.Log.Task

/-!
# Calls on a log

The program of a log: each task as one atomic step. A step of a call to a slot is the slot's own step
with the slot's condition, so the conditions of the machine are the indexes of the slots. A call to
the Writer waits for the outside world, which lets it through to the Writer or makes it fail.

* `Log.portionTask`, `Log.tailTask`, `Log.middleTask`, `Log.headTask`, `Log.entryTask`: the order in
  which a record goes through the ring.
* `Log.resume`: what a call does with the answer of a slot.
* `Log.run`, `Log.answered`, `Log.program`: the steps.
-/

namespace GroupCommit.Log

/-- How the outside world answers a call to the Writer. -/
inductive Verdict where
  /-- The Writer gets to see it. -/
  | pass
  /-- It fails before that. -/
  | fail (error : IoError)
  deriving DecidableEq, Repr

/-- A step that ends its call in a fault. -/
def faulting (broken : Fault) : Move Task Result := .finish (.error (.fault broken))

/-! ### The way of a record -/

/-- The generation that a portion goes into. -/
def portionTag (entry : Entry) : Portion → Nat
  | .whole => entry.span.headTag
  | .head => entry.span.headTag
  | .tail => entry.span.tailTag

/-- The place of a portion in its slot. -/
def portionOffset (entry : Entry) : Portion → Nat
  | .whole => entry.span.headOffset
  | .head => entry.span.headOffset
  | .tail => 0

/-- The bytes of a portion. -/
def portionBytes (entry : Entry) : Portion → Bytes
  | .whole => entry.head
  | .head => entry.head
  | .tail => entry.tail

/-- The slot that a portion goes into. -/
def portionSlot (g : Geometry) (entry : Entry) (portion : Portion) : Nat :=
  g.index (portionTag entry portion)

/-- Waits until the slot accepts a portion. -/
def acquireTask (g : Geometry) (entry : Entry) (portion : Portion) (ticket : Option Ticket) : Task :=
  .onSlot (portionSlot g entry portion) (.acquire (portionTag entry portion))
    (.acquired entry portion ticket)

/-- Copies a portion in and waits until it is written. -/
def fillJoinTask (g : Geometry) (entry : Entry) (portion : Portion) (ticket : Option Ticket) : Task :=
  .onSlot (portionSlot g entry portion)
    (.fillJoin (portionTag entry portion) (portionOffset entry portion) (portionBytes entry portion))
    (.joined entry portion ticket)

/-- The last part of the way: the tail, unless there is none. -/
def tailTask (g : Geometry) (entry : Entry) (ticket : Option Ticket) : Task :=
  if entry.span.tailLength = 0 then .complete entry.span.head
  else
    match ticket with
    | some t => .onSlot (portionSlot g entry .tail) (.join t) (.joined entry .tail ticket)
    | none => acquireTask g entry .tail none

/-- Skips the generation `number` of the middle. -/
def skipTask (g : Geometry) (entry : Entry) (number : Nat) (ticket : Option Ticket) : Task :=
  let generation := entry.middle.generation entry.span.capacity number
  .onSlot (g.index generation) (.skip generation) (.skipped entry number ticket)

/-- What comes after `number` generations of the middle have been skipped: the next of them, or
writing the middle. -/
def skipOrWriteTask (g : Geometry) (entry : Entry) (number : Nat) (ticket : Option Ticket) : Task :=
  if number < entry.middle.generationCount entry.span.capacity then skipTask g entry number ticket
  else .writeDirect entry ticket

/-- The way from the middle on. -/
def middleTask (g : Geometry) (entry : Entry) (ticket : Option Ticket) : Task :=
  if entry.middle.isEmpty then tailTask g entry ticket else skipOrWriteTask g entry 0 ticket

/-- Tries whether the tail can be filled ahead of its turn. -/
def offerTailTask (g : Geometry) (entry : Entry) (afterHead : Bool) : Task :=
  .onSlot (portionSlot g entry .tail) (.tryAcquire entry.span.tailTag) (.tailOffered entry afterHead)

/-- The way from the head on. -/
def headTask (g : Geometry) (entry : Entry) (ticket : Option Ticket) : Task :=
  if entry.span.headLength = 0 then middleTask g entry ticket
  else acquireTask g entry .head ticket

/-- The whole way of a record. -/
def entryTask (g : Geometry) (entry : Entry) : Task :=
  if entry.span.isSingleSlot then acquireTask g entry .whole none
  else if entry.span.tailLength = 0 then headTask g entry none
  else offerTailTask g entry false

/-- The way after a portion is written. -/
def portionTask (g : Geometry) (entry : Entry) (portion : Portion) (ticket : Option Ticket) : Task :=
  match portion with
  | .whole => .complete entry.span.head
  | .head =>
    if entry.span.tailLength = 0 ∨ ticket.isSome then middleTask g entry ticket
    else offerTailTask g entry true
  | .tail => .complete entry.span.head

/-- The way after the tail was tried. -/
def afterOfferTask (g : Geometry) (entry : Entry) (afterHead : Bool) (ticket : Option Ticket) :
    Task :=
  if afterHead then middleTask g entry ticket else headTask g entry ticket

/-! ### Steps -/

/-- Poisons the slot `index`, or returns when there are no more slots. -/
def poisonFrom (g : Geometry) (index : Nat) (reason : PoisonReason) (result : Result) :
    Move Task Result :=
  if index < g.ringSize then
    .goto (.onSlot index (.poison reason) (.poisoned index reason result))
  else .finish result

/-- Goes on with the answer of a slot. A call to a slot that does not succeed ends the call on the
log in the same way. -/
def resume (g : Geometry) : Next → Slot.Result → Move Task Result
  | .finish, reply => .finish (reply.map .slot)
  | .stopped error reason, _ => .goto (.poison reason (.error (.refused (.io error))))
  | .poisoned index reason result, _ => poisonFrom g (index + 1) reason result
  | _, .error stop => .finish (.error stop)
  | .acquired entry portion ticket, .ok _ => .goto (fillJoinTask g entry portion ticket)
  | .joined entry portion ticket, .ok (.joined (some flush)) =>
    match flush.bytes with
    | .ok data => .goto (.writeSlot (portionSlot g entry portion) flush data entry portion ticket)
    | .error broken => faulting broken
  | .joined entry portion ticket, .ok _ => .goto (portionTask g entry portion ticket)
  | .handedBack entry portion ticket, .ok _ => .goto (portionTask g entry portion ticket)
  | .tailOffered entry afterHead, .ok (.accepted true) =>
    .goto (.onSlot (portionSlot g entry .tail) (.fill entry.span.tailTag 0 entry.tail)
      (.tailFilled entry afterHead))
  | .tailOffered entry afterHead, .ok _ => .goto (afterOfferTask g entry afterHead none)
  | .tailFilled entry afterHead, .ok (.filled ticket) =>
    .goto (afterOfferTask g entry afterHead (some ticket))
  | .tailFilled entry afterHead, .ok _ => .goto (afterOfferTask g entry afterHead none)
  | .skipped entry number ticket, .ok _ => .goto (skipOrWriteTask g entry (number + 1) ticket)

variable {W : Type} [Writer W]

/-- One step of a call on a log. -/
def run : Task → Log W → Move Task Result × Log W
  | .commit timestamp payload hint, log =>
    if log.ring.poisoned then (.finish (.error (.refused (.poisoned .earlierFailure))), log)
    else
      match log.format.encode timestamp payload with
      | .error broken => (faulting broken, log)
      | .ok record => (.goto (.reserve record hint), log)
  | .reserve record hint, log =>
    let (head, allocator) := log.allocator.reserve record.length
    let log := { log with allocator }
    match (log.geometry.span head record.length).bind (Entry.ofRecord · record hint) with
    | .error broken => (faulting broken, log)
    | .ok entry => (.goto (entryTask log.geometry entry), log)
  | .onSlot index task next, log =>
    match log.ring.slot? index with
    | .error broken => (faulting broken, log)
    | .ok slot =>
      let (move, slot) := Slot.run task slot
      (move.embed index (.onSlot index · next) (resume log.geometry next), log.setSlot index slot)
  | .writeSlot index flush data entry portion ticket, log =>
    (.outside (.writeSlot index flush data entry portion ticket), log)
  | .writeDirect entry ticket, log => (.outside (.writeDirect entry ticket), log)
  | .complete head, log =>
    (.finish (.ok (.appended head)), { log with stats := log.stats.countCommit })
  | .poison reason result, log =>
    (poisonFrom log.geometry 0 reason result,
      { log with ring := { log.ring with poisoned := true } })

/-- What becomes of a call to the Writer: how it ends, and the Writer after it. -/
def write (log : Log W) (verdict : Verdict) (data : Bytes) (address : Nat) (hint : Int32) :
    Except (Stop IoError) Unit × W :=
  match verdict with
  | .pass => Writer.write log.writer data address hint
  | .fail error => (.error (.refused error), log.writer)

/-- The step of a call on a log when its call to the Writer returns. -/
def answered : Task → Verdict → Log W → Move Task Result × Log W
  | .writeSlot index flush data entry portion ticket, verdict, log =>
    match log.write verdict data flush.tag entry.hint with
    | (.ok (), writer) =>
      (.goto (.onSlot index (.release flush) (.handedBack entry portion ticket)),
        { log with writer, stats := log.stats.countFlush flush.kind flush.length })
    | (.error (.refused error), writer) =>
      let reason := .slotWrite flush.length flush.tag error
      (.goto (.onSlot index (.abandon flush reason) (.stopped error reason)), { log with writer })
    | (.error (.fault broken), writer) => (faulting broken, { log with writer })
  | .writeDirect entry ticket, verdict, log =>
    match log.write verdict entry.direct entry.middle.start entry.hint with
    | (.ok (), writer) =>
      (.goto (tailTask log.geometry entry ticket),
        { log with writer, stats := log.stats.countDirect entry.direct.length })
    | (.error (.refused error), writer) =>
      (.goto (.poison (.directWrite entry.direct.length entry.middle.start error)
        (.error (.refused (.io error)))), { log with writer })
    | (.error (.fault broken), writer) => (faulting broken, { log with writer })
  | task, _, log => (.goto task, log)

/-- The program of the calls on a log. -/
def program (W : Type) [Writer W] : Program (Log W) Task Verdict Result where
  run := run
  reply := answered

/-- Whether a caller that waits for its bytes does anything at its deadline but join anew. -/
def actsAtDeadline (log : Log W) : Task → Bool
  | .onSlot index (.joinLate ticket) _ =>
    match log.ring.slots[index]? with
    | some slot => slot.actsAtDeadline ticket
    | none => false
  | _ => false

/-- Surroundings that answer calls to the Writer as `verdict` says, and in which deadlines pass or,
where `deadlines` is false, never do. -/
def surroundings (W : Type) [Writer W] (verdict : Task → Option Verdict) (deadlines : Bool) :
    Policy (Log W) Task Verdict where
  answer := fun task _ => verdict task
  expires := fun task log => deadlines && log.actsAtDeadline task

end GroupCommit.Log
