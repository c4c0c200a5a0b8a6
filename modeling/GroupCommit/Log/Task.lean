import GroupCommit.Log.Basic
import GroupCommit.Slot.Program

/-!
# What a call on a log does

A commit encodes its record, reserves addresses for it and brings it through the ring:

1. A record within one slot waits for its generation, is copied in, and the call waits until the slot
   is written, possibly by itself.
2. A record over several slots tries to fill its tail slot without waiting, then fills its head slot
   up and waits until that is written, tries the tail again if it was busy, skips the generations in
   the middle and writes them directly, and at last waits for its tail.

Whoever takes a flush writes it and hands it back. When a write fails, the slot is stopped, then the
log is marked as poisoned, then all slots are poisoned one after another.

`Task` names what a call is about to do, `Next` what follows on a call to a slot.
-/

namespace GroupCommit.Log

/-- The part of a record that goes through one slot. -/
inductive Portion where
  /-- All of a record within one slot. -/
  | whole
  | head
  | tail
  deriving DecidableEq, Repr

/-- What a call on a log returns. -/
inductive Reply where
  /-- The record lies at this address. -/
  | appended (head : Nat)
  /-- The log is poisoned, as was asked for. -/
  | poisoned
  /-- The answer of a slot. -/
  | slot (reply : Slot.Reply)
  deriving DecidableEq, Repr

/-- How a call on a log ends. -/
abbrev Result := Except (Stop LogError) Reply

/-- What follows when a call to a slot returns. The ticket is that of a tail that was filled ahead of
its turn. -/
inductive Next where
  /-- The call on the log returns as well. -/
  | finish
  /-- The slot accepts the portion: copy it in and wait. -/
  | acquired (entry : Entry) (portion : Portion) (ticket : Option Ticket)
  /-- The portion is written, or the flush was taken. -/
  | joined (entry : Entry) (portion : Portion) (ticket : Option Ticket)
  /-- The flush of the portion was handed back. -/
  | handedBack (entry : Entry) (portion : Portion) (ticket : Option Ticket)
  /-- The tail slot was asked whether it accepts the tail, before the head or after it. -/
  | tailOffered (entry : Entry) (afterHead : Bool)
  /-- The tail was filled ahead of its turn, before the head or after it. -/
  | tailFilled (entry : Entry) (afterHead : Bool)
  /-- The generation `number` of the middle was skipped. -/
  | skipped (entry : Entry) (number : Nat) (ticket : Option Ticket)
  /-- The slot whose write failed was stopped. -/
  | stopped (error : IoError) (reason : PoisonReason)
  /-- The slot `index` was poisoned. -/
  | poisoned (index : Nat) (reason : PoisonReason) (result : Result)

/-- What a call on a log is about to do. -/
inductive Task where
  /-- Encode a record, unless the log is poisoned. -/
  | commit (timestamp : UInt64) (payload : Bytes) (hint : Int32)
  /-- Reserve addresses for an encoded record. -/
  | reserve (record : Bytes) (hint : Int32)
  /-- Make a step of a call to a slot. -/
  | onSlot (index : Nat) (task : Slot.Task) (next : Next)
  /-- Write a flush. -/
  | writeSlot (index : Nat) (flush : Flush) (data : Bytes) (entry : Entry) (portion : Portion)
      (ticket : Option Ticket)
  /-- Write the middle of a record. -/
  | writeDirect (entry : Entry) (ticket : Option Ticket)
  /-- Count a commit that is written. -/
  | complete (head : Nat)
  /-- Mark the log as poisoned, poison all slots and return the result. -/
  | poison (reason : PoisonReason) (result : Result)

/-- The call to the Writer that a task waits for. -/
def Task.request? : Task → Option WriteCall
  | writeSlot _ flush data entry _ _ => some ⟨flush.tag, data.length, entry.hint⟩
  | writeDirect entry _ => some ⟨entry.middle.start, entry.direct.length, entry.hint⟩
  | _ => none

end GroupCommit.Log
