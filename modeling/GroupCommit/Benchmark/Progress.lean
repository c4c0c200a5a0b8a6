import GroupCommit.Machine.Basic
import GroupCommit.Word

/-!
# Progress of a benchmark

The workers of a benchmark share counters of bytes and of commits, and two marks: what was written,
and when, once a tenth and once nine tenths of the commits are done. A worker that has made a commit
adds to the counters and sets the marks in separate steps, so other workers come in between. It sets a
mark to the bytes that it has seen when it added its own, and to the time that the clock, which is part
of the outside world, gives it then.
-/

namespace GroupCommit.Benchmark

/-- A moment of the benchmark, in nanoseconds, and the bytes written until then. -/
structure Mark where
  time : Nat
  bytes : Nat
  deriving DecidableEq, Repr

/-- What the workers have done together. -/
structure Progress where
  /-- The commits there will be. -/
  total : Nat
  done : Nat := 0
  bytes : Nat := 0
  /-- The time of all commits together, in nanoseconds. -/
  latency : Nat := 0
  /-- Set when a tenth is done. -/
  first : Option Mark := none
  /-- Set when nine tenths are done. -/
  last : Option Mark := none
  deriving DecidableEq, Repr

namespace Progress

/-- What a worker is about to do after a commit. -/
inductive Task where
  /-- Add the time that the commit took; its bytes come next. -/
  | addLatency (bytes latency : Nat)
  /-- Add the bytes of the commit. -/
  | addBytes (bytes : Nat)
  /-- Count the commit, knowing the bytes so far. -/
  | addDone (bytes : Nat)
  /-- Set the first mark if this commit is the one for it. -/
  | markFirst (done bytes : Nat)
  /-- Set the last mark if this commit is the one for it. -/
  | markLast (done bytes : Nat)
  deriving DecidableEq, Repr

/-- One step of a worker. Counters are 64-bit words, which wrap around; sums of what was read from
them do not. The commit for a mark asks for the time. -/
def run : Task → Progress → Move Task (Except Fault Unit) × Progress
  | .addLatency bytes latency, p =>
    (.goto (.addBytes bytes), { p with latency := (p.latency + latency) % Word.limit })
  | .addBytes bytes, p =>
    let added := { p with bytes := (p.bytes + bytes) % Word.limit }
    match Word.add p.bytes bytes with
    | .ok bytes => (.goto (.addDone bytes), added)
    | .error broken => (.finish (.error broken), added)
  | .addDone bytes, p => (.goto (.markFirst (p.done + 1) bytes), { p with done := p.done + 1 })
  | .markFirst done bytes, p =>
    if done = p.total / 10 then (.outside (.markFirst done bytes), p)
    else (.goto (.markLast done bytes), p)
  | .markLast done bytes, p =>
    match Word.mul p.total 9 with
    | .ok nine =>
      if done = nine / 10 then (.outside (.markLast done bytes), p) else (.finish (.ok ()), p)
    | .error broken => (.finish (.error broken), p)

/-- The step of a worker that is given the time for a mark. -/
def timed : Task → Nat → Progress → Move Task (Except Fault Unit) × Progress
  | .markFirst done bytes, time, p =>
    (.goto (.markLast done bytes), { p with first := some ⟨time, bytes⟩ })
  | .markLast _ bytes, time, p => (.finish (.ok ()), { p with last := some ⟨time, bytes⟩ })
  | task, _, p => (.goto task, p)

/-- The program of the workers. What they ask of the outside world is the time. -/
def program : Program Progress Task Nat (Except Fault Unit) where
  run := run
  reply := timed

/-- The bytes and the nanoseconds from the first mark to the last, if both are set and time has passed.
It is a fault if there are fewer bytes at the last mark than at the first. -/
def window (p : Progress) : Except Fault (Option (Nat × Nat)) :=
  match p.first, p.last with
  | some first, some last =>
    if first.time < last.time then do
      return some (← Word.sub last.bytes first.bytes, last.time - first.time)
    else .ok none
  | _, _ => .ok none

end Progress

end GroupCommit.Benchmark
