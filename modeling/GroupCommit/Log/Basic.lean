import GroupCommit.Allocator
import GroupCommit.Ring.Basic
import GroupCommit.Ring.Span
import GroupCommit.Writer.Basic

/-!
# Logs

A log is a configuration, an allocator of addresses, a ring of slots, a Writer and counters of what
was done. An `Entry` is a record that has its place in the address space and is cut into the parts
that go through slots and the part that does not.
-/

namespace GroupCommit

/-- What a log has done so far, in counters of one word each. -/
structure Stats where
  /-- Commits that succeeded. -/
  commits : Nat := 0
  /-- Slots written once they were full. -/
  fullFlushes : Nat := 0
  /-- Slots written as far as they were filled. -/
  earlyFlushes : Nat := 0
  /-- Writes past the slots. -/
  directWrites : Nat := 0
  /-- Bytes handed to the Writer; what is written again counts again. -/
  bytesWritten : Nat := 0
  deriving DecidableEq, Repr

namespace Stats

/-- Counts the writing of a slot. -/
def countFlush (s : Stats) (kind : FlushKind) (length : Nat) : Stats :=
  match kind with
  | .full =>
    { s with
      fullFlushes := Word.wrappingAdd s.fullFlushes 1
      bytesWritten := Word.wrappingAdd s.bytesWritten length }
  | .early =>
    { s with
      earlyFlushes := Word.wrappingAdd s.earlyFlushes 1
      bytesWritten := Word.wrappingAdd s.bytesWritten length }

/-- Counts a write past the slots. -/
def countDirect (s : Stats) (length : Nat) : Stats :=
  { s with
    directWrites := Word.wrappingAdd s.directWrites 1
    bytesWritten := Word.wrappingAdd s.bytesWritten length }

/-- Counts a commit that succeeded. -/
def countCommit (s : Stats) : Stats := { s with commits := Word.wrappingAdd s.commits 1 }

end Stats

/-- A log over a Writer. -/
structure Log (W : Type) where
  config : Config
  allocator : Allocator
  ring : Ring
  writer : W
  stats : Stats
  deriving DecidableEq, Repr

namespace Log

variable {W : Type}

/-- A log that begins at address 0. -/
def create (config : Config) (writer : W) : Except (Stop LogError) (Log W) :=
  match config.validate with
  | .error cause => .error (.refused (.config cause))
  | .ok () => do
    let ring ← Fault.guard (Ring.ofConfig config)
    return { config, allocator := {}, ring, writer, stats := {} }

/-- How the log pads its records. -/
def format (log : Log W) : Record.Format := log.config.recordFormat

/-- The geometry of the log's ring. -/
def geometry (log : Log W) : Geometry := log.ring.geometry

/-- The next address to be handed out. -/
def position (log : Log W) : Nat := log.allocator.position

/-- The log with another slot in this place. -/
def setSlot (log : Log W) (index : Nat) (slot : Slot) : Log W :=
  { log with ring := log.ring.setSlot index slot }

end Log

/-! ### Entries -/

/-- A record on its way into the log. -/
structure Entry where
  span : Span
  /-- What the Writer is told about the record. -/
  hint : Int32
  /-- The bytes for the head slot: all of them if the record lies in one slot. -/
  head : Bytes
  /-- The addresses of the whole slots in the middle. -/
  middle : Extent
  /-- The bytes for the middle. -/
  direct : Bytes
  /-- The bytes for the tail slot. -/
  tail : Bytes
  deriving DecidableEq, Repr

namespace Entry

/-- Cuts a record along its span. -/
def ofRecord (span : Span) (record : Bytes) (hint : Int32) : Except Fault Entry :=
  if span.isSingleSlot then
    .ok { span, hint, head := record, middle := ⟨span.head, span.head⟩, direct := [], tail := [] }
  else do
    let tail ← Bytes.slice record (← Word.sub span.total span.tailLength) record.length
    let head ← Bytes.slice record 0 span.headLength
    let middle ← span.middle
    let direct ←
      if middle.isEmpty then pure []
      else Bytes.slice record (← Word.sub middle.start span.head) (← Word.sub middle.stop span.head)
    return { span, hint, head, middle, direct, tail }

end Entry

end GroupCommit
