import GroupCommit.Slot.Buffer
import GroupCommit.Word

/-!
# Slots

A slot is one buffer of the ring. It serves one generation of addresses after another; the generation
is named by its tag, the address of its first byte. Callers copy bytes into the current generation,
and one of them takes the flush, which is the right and the duty to write it: the caller that
completes the slot or joins it once it is full (a full flush, after which the slot moves on by its
gap), or a caller whose deadline passes first (an early flush of the bytes so far, after which the
generation goes on). The flush owns the buffer until it is handed back.

A fill gives a ticket with the number of early flushes taken before it, so an early flush taken later
that reaches the ticket's end is known to hold the bytes. Buffers are cleared when a generation ends,
so the holes of an early flush are zero.

Each operation here is what happens under the slot's lock in one piece. An operation that faults
gives the fault together with the slot it leaves behind. `GroupCommit.Slot.Program` makes calls of
them.
-/

namespace GroupCommit

/-- What a filler needs to wait for its bytes. -/
structure Ticket where
  /-- The generation that holds the bytes. -/
  tag : Nat
  /-- The offset behind the last byte. -/
  stop : Nat
  /-- How many early flushes had been taken before the fill. -/
  earlier : Nat
  deriving DecidableEq, Repr

/-- The right and the duty to write a slot. -/
structure Flush where
  tag : Nat
  /-- How many bytes to write, from the start of the slot. -/
  length : Nat
  kind : FlushKind
  buffer : Buffer
  deriving DecidableEq, Repr

/-- The bytes to write, a fault when the buffer does not have that many. -/
def Flush.bytes (f : Flush) : Except Fault Bytes :=
  if f.buffer.size < f.length then .error (.rangeEnd f.length f.buffer.size)
  else .ok (f.buffer.first f.length)

/-- The last early flush that was handed back: how far it reached, and its number. -/
structure Durable where
  upTo : Nat
  claim : Nat
  deriving DecidableEq, Repr

/-- One slot of the ring. -/
structure Slot where
  index : Nat
  capacity : Nat
  /-- The distance between two generations. -/
  gap : Nat
  /-- The generation whose bytes are accepted. -/
  tag : Nat
  /-- How many bytes were copied into this generation. -/
  dirty : Nat
  /-- The offset behind the furthest byte copied into this generation. -/
  highWater : Nat
  phase : Phase
  /-- How many callers are waiting for their bytes to be written. -/
  waiters : Nat
  /-- The later generations that nobody will fill, in increasing order. -/
  skipped : List Nat
  /-- How many early flushes were taken so far. -/
  claims : Nat
  durable : Durable
  buffer : Buffer
  deriving DecidableEq, Repr

namespace Slot

/-- The slot `index` of a ring of `ringSize` slots, in its first generation. -/
def create (index capacity ringSize : Nat) : Except Fault Slot := do
  let tag ← Word.mul index capacity
  Word.allocate capacity
  let gap ← Word.mul capacity ringSize
  return {
    index, capacity, gap, tag
    dirty := 0
    highWater := 0
    phase := .filling
    waiters := 0
    skipped := []
    claims := 0
    durable := ⟨0, 0⟩
    buffer := .blank capacity }

/-- A call that ends with the poisoning of the slot. -/
def poisonedStop (reason : PoisonReason) : Stop LogError := .refused (.poisoned reason)

/-! ### Copying bytes in -/

/-- Whether bytes for generation `tag` may be copied in now. Asking for a generation that the slot
has left behind is a fault. -/
def accepts (s : Slot) (tag : Nat) : Except (Stop LogError) Bool :=
  match s.phase with
  | .poisoned reason => .error (poisonedStop reason)
  | phase =>
    if tag < s.tag then .error (.fault (.retired tag s.tag))
    else .ok (s.tag = tag ∧ phase = .filling)

/-- Copies `data` to `offset`. The bytes are copied before they are counted, and more bytes than the slot
holds are noticed when they have been counted. -/
def copyIn (s : Slot) (offset : Nat) (data : Bytes) : Except Fault Ticket × Slot :=
  let stop := offset + data.length
  if Word.limit ≤ stop then (.error .addOverflow, s)
  else if s.capacity < stop then (.error (.beyondCapacity offset stop s.capacity), s)
  else
    match Bytes.checkRange offset stop s.buffer.size with
    | .error broken => (.error broken, s)
    | .ok () =>
      let copied := { s with buffer := s.buffer.write offset data }
      match Word.add s.dirty data.length with
      | .error broken => (.error broken, copied)
      | .ok dirty =>
        if s.capacity < dirty then
          (.error (.slotOverflow s.tag dirty s.capacity), { copied with dirty })
        else
          (.ok ⟨s.tag, stop, s.claims⟩,
            { copied with dirty, highWater := max s.highWater stop })

/-! ### Taking a flush -/

/-- Takes the flush of the whole slot. -/
def claimFull (s : Slot) : Flush × Slot :=
  (⟨s.tag, s.capacity, .full, s.buffer⟩, { s with phase := .flushing, buffer := .taken })

/-- Takes the flush of the bytes so far. -/
def claimEarly (s : Slot) : Flush × Slot :=
  (⟨s.tag, s.highWater, .early, s.buffer⟩,
    { s with phase := .reserving, claims := s.claims + 1, buffer := .taken })

/-- Whether an early flush taken after the fill of this ticket has been written over its bytes. -/
def covers (s : Slot) (ticket : Ticket) : Prop :=
  ticket.earlier < s.durable.claim ∧ ticket.stop ≤ s.durable.upTo

instance (s : Slot) (ticket : Ticket) : Decidable (s.covers ticket) :=
  inferInstanceAs (Decidable (_ ∧ _))

/-- How waiting for the bytes of a ticket ends: with no flush when they have been written, with the
flush of a full slot, or without success; `none` while there is nothing but to wait. -/
def poll (s : Slot) (ticket : Ticket) : Option (Except (Stop LogError) (Option Flush)) × Slot :=
  match s.phase with
  | .poisoned reason => (some (.error (poisonedStop reason)), s)
  | phase =>
    if s.tag < ticket.tag then (some (.error (.fault (.joinedAhead ticket.tag s.tag))), s)
    else if ticket.tag < s.tag ∨ s.covers ticket then (some (.ok none), s)
    else if phase = .full then
      let (flush, s) := s.claimFull
      (some (.ok (some flush)), s)
    else (none, s)

/-- Takes a flush at the deadline of a waiting caller, if nobody is writing the slot. -/
def claimAtDeadline (s : Slot) (ticket : Ticket) : Except Fault (Option Flush) × Slot :=
  if s.phase = .filling then
    if s.highWater = 0 then (.error (.joinedEmpty ticket.tag), s)
    else
      let (flush, s) := s.claimEarly
      (.ok (some flush), s)
  else (.ok none, s)

/-- One caller fewer waits. -/
def leave (s : Slot) : Except Fault Unit × Slot :=
  if s.waiters = 0 then (.error .subOverflow, s)
  else (.ok (), { s with waiters := s.waiters - 1 })

/-! ### Ending a generation -/

/-- Inserts into an increasing list. -/
def insertSkip (tag : Nat) : List Nat → List Nat
  | [] => [tag]
  | t :: rest => if tag ≤ t then tag :: t :: rest else t :: insertSkip tag rest

/-- Moves on over the recorded skips, at most `fuel` of them. -/
def passSkips : Nat → Slot → Except Fault Unit × Slot
  | 0, s => (.ok (), s)
  | fuel + 1, s =>
    if s.tag ∈ s.skipped then
      let s := { s with skipped := s.skipped.erase s.tag }
      if s.tag + s.gap < Word.limit then passSkips fuel { s with tag := s.tag + s.gap }
      else (.error .addOverflow, s)
    else (.ok (), s)

/-- Moves on to the next generation that is not skipped, with a clean buffer. -/
def advance (s : Slot) : Except Fault Unit × Slot :=
  if s.buffer.size < s.highWater then (.error (.rangeEnd s.highWater s.buffer.size), s)
  else
    let s := { s with buffer := s.buffer.clear s.highWater }
    if s.tag + s.gap < Word.limit then
      passSkips s.skipped.length
        { s with tag := s.tag + s.gap, dirty := 0, highWater := 0, phase := .filling }
    else (.error .addOverflow, s)

/-- Takes a written flush back. A full flush ends its generation; an early one reopens it. -/
def handBack (s : Slot) (flush : Flush) : Except (Stop LogError) Unit × Slot :=
  if s.tag ≠ flush.tag then
    (.error (.fault (.releasedGeneration s.index flush.tag s.tag)), s)
  else
    let s := { s with buffer := flush.buffer }
    match s.phase, flush.kind with
    | .poisoned reason, _ => (.error (poisonedStop reason), s)
    | .flushing, .full =>
      let (result, s) := s.advance
      (Fault.guard result, s)
    | .reserving, .early =>
      (.ok (), { s with durable := ⟨flush.length, s.claims⟩, phase := .filling })
    | phase, kind => (.error (.fault (.releasedPhase s.index kind phase)), s)

/-- Ends a generation that no bytes pass through. A generation that the slot has not reached is
recorded and passed over later. -/
def skipOver (s : Slot) (tag : Nat) : Except Fault Unit × Slot :=
  match s.phase with
  | .poisoned _ => (.ok (), s)
  | phase =>
    if s.tag = tag then
      if phase = .filling ∧ s.dirty = 0 then s.advance
      else (.error (.skippedFilled tag s.dirty), s)
    else if tag < s.tag then (.error (.skippedRetired tag), s)
    else if tag ∈ s.skipped then (.error (.skippedTwice tag), s)
    else (.ok (), { s with skipped := insertSkip tag s.skipped })

/-! ### Failure -/

/-- Stops the slot. The first reason stays. -/
def poisonWith (s : Slot) (reason : PoisonReason) : Slot :=
  { s with phase := s.phase.poison reason }

/-- Takes back a flush that could not be written, and stops the slot. -/
def takeBack (s : Slot) (flush : Flush) (reason : PoisonReason) : Slot :=
  { s with buffer := flush.buffer }.poisonWith reason

end Slot

end GroupCommit
