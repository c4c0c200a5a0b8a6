import GroupCommit.Benchmark.Session

/-!
# The benchmark program

Reads the command line, runs a session against the clock and prints its report. A log in a file is
kept in memory while it is written and stored when the session ends. The exit code is 0 after a
report, 1 when the benchmark fails, 2 when the command line is not understood and 101 after a fault.
-/

namespace GroupCommit.Benchmark

/-- More steps than one commit takes. -/
def patience : Nat := 1000000000000

/-- The time that a device of the given speed takes for what a log wrote between two states, in
nanoseconds. -/
def deviceTime (before after : Session) : Nat :=
  match after.log.writer with
  | .paced w =>
    let since (counter : Stats → Nat) : Nat :=
      Word.wrappingSub (counter after.log.stats) (counter before.log.stats)
    (since Stats.fullFlushes + since Stats.earlyFlushes + since Stats.directWrites) * w.latency
      + w.transfer (since Stats.bytesWritten)
  | _ => 0

/-- Runs a session to its end. The clock is that of the machine, put forward by the time that the
device would have taken. -/
def runTimed : Nat → Nat → Session → IO (Except LogError Session)
  | 0, _, s => pure (.ok s)
  | rounds + 1, forward, s => do
    match s.ready? with
    | none => return .ok s
    | some s =>
      let length ← if s.arguments.randomSize then IO.rand 1 s.size else pure s.size
      let since ← IO.monoNanosNow
      match s.commit patience length with
      | .error e => return .error e
      | .ok (next, written) =>
        let till ← IO.monoNanosNow
        let later := forward + deviceTime s next
        let counted :=
          if written then next.count length (since + forward) (till + later) else next
        runTimed rounds later counted

/-- A device that takes all bytes and keeps none, so no fsync of it succeeds. -/
def nullDevice : File := { backing := .sink, laterSyncs := some .notDurable }

/-- Empties an opened file. What cannot be emptied is a device that keeps nothing. -/
def emptyFile (file : IO.FS.Handle) : IO FileTarget := do
  try
    file.truncate
    return .file {}
  catch _ => return .file nullDevice

/-- Empties the file at a path, and says what was found there. -/
def lookAt (path : String) : IO FileTarget := do
  try
    emptyFile (← IO.FS.Handle.mk path .write)
  catch
    | .noFileOrDirectory .. => return .unavailable .missingDirectory
    | .inappropriateType _ 20 _ => return .unavailable .notDirectory
    | .inappropriateType .. => return .unavailable .pathIsDirectory
    | .invalidArgument _ 36 _ => return .unavailable .nameTooLong
    | e => return .unavailable (.refused (toString e))

/-- Reports a failure. -/
def fail (error : LogError) : IO UInt32 := do
  IO.eprintln (failureLine error)
  return 1

/-- Stores the log of a session that kept it in a file. -/
def store (a : Arguments) (log : Log Backend) : IO Unit := do
  match log.writer with
  | .file w =>
    if w.file.backing = .disk then
      IO.FS.writeBinFile a.path (ByteArray.mk w.image.content.toArray)
  | _ => pure ()

/-- Runs a benchmark and prints what it found. -/
def runArguments (a : Arguments) : IO UInt32 := do
  let target ← if a.writer = .file then lookAt a.path else pure (.file {})
  match Session.openWriter a target with
  | .error e => fail e
  | .ok writer =>
    match Session.start a writer with
    | .error (.failed e) => fail e
    | .error (.crashed broken) => do
      IO.eprintln broken.message
      return 101
    | .ok session => do
      match ← runTimed (a.commits + 1) 0 session with
      | .error e => fail e
      | .ok session => do
        store a session.log
        for line in session.report do
          IO.println line
        if let .error broken := session.lines then IO.eprintln broken.message
        return UInt32.ofNat session.exitCode

/-- Does what a command line asks for. -/
def runCommand : Command → IO UInt32
  | .run a => runArguments a
  | .showVersion => do
    IO.println versionLine
    return 0
  | .showHelp => do
    IO.println "Group-commit log throughput benchmark"
    return 0
  | .reject => do
    IO.eprintln "the command line is not understood"
    return 2

end GroupCommit.Benchmark

/-- The benchmark program. -/
def main (args : List String) : IO UInt32 :=
  GroupCommit.Benchmark.runCommand (GroupCommit.Benchmark.Command.ofArguments args)
