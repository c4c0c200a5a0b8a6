import GroupCommit.Slot.Phase

/-!
# Faults

A fault is a broken rule of the library itself: an assertion of a slot, of the ring or of a codec, or
arithmetic that leaves the 64-bit words. It ends the call that runs into it, while whatever that call
changed before stays. A call ends with `Stop.fault` then, and with `Stop.refused` when it ends in an
ordinary error.
-/

namespace GroupCommit

/-- The broken rules that can end a call. -/
inductive Fault where
  /-- A sum does not fit in a word. -/
  | addOverflow
  /-- A difference is negative. -/
  | subOverflow
  /-- A product does not fit in a word. -/
  | mulOverflow
  /-- A sum of durations does not fit. -/
  | durationOverflow
  /-- A duration has more seconds than a word counts. -/
  | durationTooLong
  /-- No buffer can be that large. -/
  | capacityOverflow
  /-- A range starts beyond the bytes it is taken from. -/
  | rangeStart (start length : Nat)
  /-- A range ends beyond the bytes it is taken from. -/
  | rangeEnd (stop length : Nat)
  /-- A range ends before it starts. -/
  | rangeOrder (start stop : Nat)
  /-- There is no element with this number. -/
  | noElement (length index : Nat)
  /-- Records are padded to chunks of at least one byte. -/
  | chunkSizeZero
  /-- A record is longer than the space for it. -/
  | recordTooLong (payload space : Nat)
  /-- A stream position takes more than 56 bits. -/
  | positionTooWide (position : Nat)
  /-- The capacity of a ring's slots is not a power of two. -/
  | capacityNotPowerOfTwo
  /-- The number of a ring's slots is not a power of two. -/
  | ringSizeNotPowerOfTwo
  /-- A record occupies at least one byte. -/
  | emptyReservation (head : Nat)
  /-- Bytes are offered to a generation that the slot has left behind. -/
  | retired (tag current : Nat)
  /-- A fill reaches over the end of the slot. -/
  | beyondCapacity (start stop capacity : Nat)
  /-- More bytes were filled than the slot holds. -/
  | slotOverflow (tag dirty capacity : Nat)
  /-- A ticket names a generation that the slot has not reached. -/
  | joinedAhead (tag current : Nat)
  /-- A deadline passes in a generation without bytes. -/
  | joinedEmpty (tag : Nat)
  /-- A flush of another generation is handed back. -/
  | releasedGeneration (slot flush current : Nat)
  /-- A flush is handed back while none of its kind is out. -/
  | releasedPhase (slot : Nat) (kind : FlushKind) (phase : Phase)
  /-- A generation that holds bytes is skipped. -/
  | skippedFilled (tag dirty : Nat)
  /-- A generation is skipped that the slot has left behind. -/
  | skippedRetired (tag : Nat)
  /-- A generation is skipped twice. -/
  | skippedTwice (tag : Nat)
  deriving DecidableEq, Repr

/-- The wording of a fault. -/
def Fault.message : Fault → String
  | addOverflow => "attempt to add with overflow"
  | subOverflow => "attempt to subtract with overflow"
  | mulOverflow => "attempt to multiply with overflow"
  | durationOverflow => "overflow when adding durations"
  | durationTooLong => "overflow in Duration::new"
  | capacityOverflow => "capacity overflow"
  | rangeStart start length =>
    s!"range start index {start} out of range for slice of length {length}"
  | rangeEnd stop length =>
    s!"range end index {stop} out of range for slice of length {length}"
  | rangeOrder start stop => s!"slice index starts at {start} but ends at {stop}"
  | noElement length index => s!"index out of bounds: the len is {length} but the index is {index}"
  | chunkSizeZero => "chunk size must be non-zero"
  | recordTooLong payload space =>
    s!"record of {payload} payload bytes does not fit in {space} bytes"
  | positionTooWide position => s!"position {position} does not fit in 56 bits"
  | capacityNotPowerOfTwo => "slot capacity must be a power of two"
  | ringSizeNotPowerOfTwo => "ring size must be a power of two"
  | emptyReservation head => s!"empty reservation at {head}"
  | retired tag current => s!"generation {tag} already retired (slot is at {current})"
  | beyondCapacity start stop capacity =>
    s!"fill [{start}, {stop}) exceeds slot capacity {capacity}"
  | slotOverflow tag dirty capacity =>
    s!"slot overflow at tag {tag}: dirty {dirty} > capacity {capacity}"
  | joinedAhead tag current =>
    s!"join on generation {tag} before the slot reached it (slot is at {current})"
  | joinedEmpty tag => s!"joined an empty generation {tag}"
  | releasedGeneration slot flush current =>
    s!"assertion `left == right` failed: slot {slot} released generation {flush} while at {current}"
      ++ s!"\n  left: {current}\n right: {flush}"
  | releasedPhase slot kind phase =>
    s!"slot {slot} released a {kind.name} flush while {phase.name}"
  | skippedFilled tag dirty => s!"skipped generation {tag} already holds {dirty} bytes"
  | skippedRetired tag => s!"generation {tag} already retired"
  | skippedTwice tag => s!"generation {tag} skipped twice"

/-- How a call ends that does not succeed: refused with an error of `ε`, or stopped by a fault. -/
inductive Stop (ε : Type) where
  | refused (error : ε)
  | fault (broken : Fault)
  deriving DecidableEq, Repr

namespace Stop

/-- The same end of a call with its error seen as another one. -/
def map {ε ε' : Type} (f : ε → ε') : Stop ε → Stop ε'
  | .refused error => .refused (f error)
  | .fault broken => .fault broken

end Stop

/-- A computation that can only fault, as one that may also be refused. -/
def Fault.guard {ε α : Type} : Except Fault α → Except (Stop ε) α
  | .ok a => .ok a
  | .error broken => .error (.fault broken)

end GroupCommit
