import GroupCommit.Benchmark.Arguments
import GroupCommit.Benchmark.Progress
import GroupCommit.Log.Program
import GroupCommit.Machine.Schedule
import GroupCommit.Numeral.Fixed
import GroupCommit.Writer.Backend

/-!
# Running a benchmark

A session is a log, the progress of the workers and the place where they stand. The workers take
turns, each making all of its commits before the next one begins, so a commit that has to wait for
its group always sees its deadline pass. Time comes from outside: whoever runs the session reads the
clock before and after each commit.
-/

namespace GroupCommit.Benchmark

/-- A benchmark under way. -/
structure Session where
  arguments : Arguments
  log : Log Backend
  progress : Progress
  /-- The worker whose turn it is. -/
  worker : Nat := 0
  /-- The commits that this worker has made. -/
  made : Nat := 0

/-- How a step of a session ends that is not the last one and does not go on. -/
inductive Halt where
  /-- The benchmark failed with this error. -/
  | failed (error : LogError)
  /-- The program stopped at a fault. -/
  | crashed (broken : Fault)
  deriving DecidableEq, Repr

namespace Session

/-- The Writer that the arguments ask for; `target` is what is found at the path. -/
def openWriter (a : Arguments) (target : FileTarget) : Except LogError Backend :=
  match a.writer with
  | .sleep => .ok (.paced ⟨a.latency * 1000, a.bandwidth⟩)
  | .memory => .ok (.memory {})
  | .file =>
    match FileWriter.create target .everyWrite with
    | .ok writer => .ok (.file writer)
    | .error e => .error (.io e)

/-- The configuration of the log. -/
def config (a : Arguments) : Config :=
  { slotCapacity := a.slotCapacity, ringSize := a.ringSize, waitTimeout := a.timeout }

/-- The bytes that are kept of each worker until it is done. -/
def workerSize : Nat := 24

/-- A session before its first commit. The log comes first, the place for its workers next. -/
def start (a : Arguments) (writer : Backend) : Except Halt Session :=
  match Log.create (config a) writer with
  | .error (.refused error) => .error (.failed error)
  | .error (.fault broken) => .error (.crashed broken)
  | .ok log =>
    match Word.allocate (a.workers * workerSize) with
    | .error broken => .error (.crashed broken)
    | .ok () => .ok { arguments := a, log, progress := { total := a.commits } }

/-- The number of workers. -/
def workers (s : Session) : Nat := s.arguments.workers

/-- The commits of a worker: an equal share, and one of those left over for the first workers. -/
def share (s : Session) (worker : Nat) : Nat :=
  s.arguments.commits / s.workers + if worker < s.arguments.commits % s.workers then 1 else 0

/-- The most bytes of a payload. -/
def size (s : Session) : Nat := max s.arguments.size 1

/-- The session when the next worker begins. -/
def nextWorker (s : Session) : Session := { s with worker := s.worker + 1, made := 0 }

/-- The session from the point where a worker has something to do, unless all of them are done. -/
def ready : Nat → Session → Option Session
  | 0, _ => none
  | fuel + 1, s =>
    if s.workers ≤ s.worker then none
    else if s.made < s.share s.worker then some s
    else ready fuel s.nextWorker

/-- The session at its next commit, unless there is none. A worker whose payload is larger than any
buffer does nothing at all. -/
def ready? (s : Session) : Option Session :=
  match Word.allocate s.size with
  | .error _ => none
  | .ok () => ready (s.workers - s.worker + 1) s

/-- Makes the commit of the worker whose turn it is, with so many bytes of payload: the session after
it and whether the commit is there. A fault ends the worker. -/
def commit (fuel : Nat) (s : Session) (length : Nat) : Except LogError (Session × Bool) :=
  let task := .commit (UInt64.ofNat s.made) (List.replicate length 0xA5) (Int32.ofNat s.worker)
  let (result, log) := Machine.runAlone (Log.program Backend)
    (Log.surroundings Backend (fun _ => some .pass) true) fuel s.log task
  match result with
  | some (.ok _) => .ok ({ s with log, made := s.made + 1 }, true)
  | some (.error (.refused error)) => .error error
  | some (.error (.fault _)) => .ok ({ s with log }.nextWorker, false)
  | none => .ok ({ s with log }.nextWorker, false)

/-- Counts a commit that took from one time to another. A fault ends the worker. -/
def count (s : Session) (length since till : Nat) : Session :=
  match s.log.format.totalLength length with
  | .error _ => s.nextWorker
  | .ok total =>
    let (result, progress) := Machine.runAlone Progress.program
      ⟨fun _ _ => some till, fun _ _ => false⟩ 7 s.progress (.addLatency total (till - since))
    let s := { s with progress }
    match result with
    | some (.ok ()) => s
    | _ => s.nextWorker

/-- Runs a session to its end. The size of each payload is drawn, and each commit takes from one tick
of the clock to the next. -/
def finish (fuel : Nat) (draw : Nat → Nat) : Nat → Session → Except LogError Session
  | 0, s => .ok s
  | rounds + 1, s =>
    match s.ready? with
    | none => .ok s
    | some s => do
      let length := if s.arguments.randomSize then draw s.size else s.size
      let (s, written) ← s.commit fuel length
      finish fuel draw rounds
        (if written then s.count length s.progress.done (s.progress.done + 1) else s)

/-! ### The report -/

/-- The rate between the two marks, if both are set and time has passed. -/
def throughput? (s : Session) : Except Fault (Option String) := do
  match ← s.progress.window with
  | none => return none
  | some (bytes, time) =>
    let rate := (Numeral.Fraction.mk (bytes * 1000) time).toFixed 2
    let most := (← Word.mul s.arguments.commits 8) / 10
    let commits := (Numeral.Fraction.mk (most * 1000000000) time).toFixed 0
    return some s!"throughput: {rate} MB/s ({commits} commits/s)"

/-- The mean time of a commit, if there were any. -/
def latencyLines (s : Session) : List String :=
  if s.progress.done = 0 then []
  else
    let mean := (Numeral.Fraction.mk (s.progress.latency / s.progress.done) 1000).toFixed 1
    [s!"mean commit latency: {mean} us"]

/-- How many records one write of a slot carried on average. -/
def groupSize (s : Session) : String :=
  let writes := max (s.log.stats.fullFlushes + s.log.stats.earlyFlushes) 1
  let mean := (Numeral.Fraction.mk s.progress.done writes).nearest.toFixed 2
  s!"group size: {mean} records per slot write"

/-- The lines of the report, unless a fault ends the benchmark before the first of them. -/
def lines (s : Session) : Except Fault (List String) := do
  let rate := (← s.throughput?).getD "too few commits to measure the 10%-90% window"
  return rate :: s.latencyLines ++ [s.groupSize]

/-- What the benchmark prints at its end. -/
def report (s : Session) : List String := s.lines.toOption.getD []

/-- The exit code of a benchmark that has not failed. -/
def exitCode (s : Session) : Nat :=
  match s.lines with
  | .ok _ => 0
  | .error _ => 101

end Session

/-- The name and the version of the program. -/
def versionLine : String := "groupwal-bench 0.1.0"

/-- What is logged when a benchmark fails. -/
def failureLine (error : LogError) : String := "Benchmark failed: " ++ error.message

end GroupCommit.Benchmark
