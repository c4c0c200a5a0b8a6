import GroupCommit.Writer.Basic

/-!
# Only taking time

A Writer that keeps nothing and takes as long as a device would: a fixed latency for each write, and
the time for its bytes at a given bandwidth.
-/

namespace GroupCommit

/-- The speed of a device. -/
structure PacedWriter where
  /-- The time for any write, in nanoseconds. -/
  latency : Nat := 50000
  /-- Bytes per microsecond; 0 where bytes take no time. -/
  bandwidth : Nat := 200
  deriving DecidableEq, Repr

namespace PacedWriter

/-- One more than the longest duration in nanoseconds: seconds are counted in a word. -/
def durationLimit : Nat := Word.limit * 1000000000

/-- A device with the given latency. A latency of too many seconds is a fault. -/
def create (seconds nanoseconds bandwidth : Nat) : Except Fault PacedWriter :=
  let latency := seconds * 1000000000 + nanoseconds
  if latency < durationLimit then .ok ⟨latency, bandwidth⟩ else .error .durationTooLong

/-- The time for the bytes of a write, in nanoseconds, by whole microseconds. -/
def transfer (w : PacedWriter) (length : Nat) : Nat :=
  if w.bandwidth = 0 then 0 else length / w.bandwidth * 1000

/-- The time for a write, in nanoseconds. -/
def cost (w : PacedWriter) (length : Nat) : Except Fault Nat :=
  if w.latency + w.transfer length < durationLimit then .ok (w.latency + w.transfer length)
  else .error .durationOverflow

/-- A write keeps nothing; it can only take too long. -/
def write (w : PacedWriter) (data : Bytes) (_address : Nat) (_hint : Int32) :
    Except (Stop IoError) Unit × PacedWriter :=
  match w.cost data.length with
  | .error broken => (.error (.fault broken), w)
  | .ok _ => (.ok (), w)

instance : Writer PacedWriter := ⟨write⟩

end PacedWriter

end GroupCommit
