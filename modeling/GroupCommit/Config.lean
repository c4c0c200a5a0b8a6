import GroupCommit.Record

/-!
# Configuration

The geometry of the ring, the padding of records and the time a filler waits for its group. All of it
is fixed when a log is created.
-/

namespace GroupCommit

/-- The configuration of a log. -/
structure Config where
  /-- The bytes of one slot. -/
  slotCapacity : Nat := 16384
  /-- The number of slots. -/
  ringSize : Nat := 16
  /-- No record occupies fewer bytes. -/
  minWriteSize : Nat := 512
  /-- How long a filler waits for its group before it writes what is there, in milliseconds. -/
  waitTimeout : Nat := 2000
  deriving DecidableEq, Repr

namespace Config

/-- Each slot holds this many chunks. -/
def chunksPerSlot : Nat := 64

/-- Refuses a geometry that the address arithmetic does not allow, and a wait of no time. -/
def validate (c : Config) : Except ConfigError Unit :=
  if ¬ c.slotCapacity.isPowerOfTwo ∨ c.slotCapacity < chunksPerSlot then
    .error (.slotCapacity chunksPerSlot c.slotCapacity)
  else if ¬ c.ringSize.isPowerOfTwo then
    .error (.ringSize c.ringSize)
  else if c.waitTimeout = 0 then
    .error .waitTimeout
  else
    .ok ()

/-- Records occupy whole chunks of this many bytes. -/
def chunkSize (c : Config) : Nat :=
  max (c.slotCapacity / chunksPerSlot) 1

/-- The distance between two generations of one slot. -/
def gap (c : Config) : Except Fault Nat :=
  Word.mul c.slotCapacity c.ringSize

/-- How a log with this configuration pads its records. -/
def recordFormat (c : Config) : Record.Format :=
  ⟨c.minWriteSize, c.chunkSize, Nat.le_max_right _ _⟩

/-- The configuration with a wait of `seconds`. -/
def withWaitSeconds (c : Config) (seconds : Nat) : Except Fault Config := do
  return { c with waitTimeout := ← Word.mul seconds 1000 }

end Config

end GroupCommit
