import GroupCommit.Word

/-!
# The command line of the benchmark

Each parameter has a long name and perhaps a letter. A value follows its name as the next argument, or
after an equals sign; after a letter it may also follow at once. Letters without values can be put
together. Each parameter is given at most once, nothing but parameters is accepted, and a value that
starts with a hyphen has to follow an equals sign or its letter.
-/

namespace GroupCommit.Benchmark

/-- Where the log of a benchmark is kept. -/
inductive WriterKind where
  /-- Nowhere: writes take time only. -/
  | sleep
  | memory
  /-- In a file that is made durable after every write. -/
  | file
  deriving DecidableEq, Repr

/-- What to measure. -/
structure Arguments where
  writer : WriterKind := .sleep
  /-- The commits of all threads together. -/
  commits : Nat := 100000
  /-- The bytes of a payload, or the most of them. -/
  size : Nat := 256
  /-- Whether each payload has a size of its own, drawn from 1 up to `size`. -/
  randomSize : Bool := false
  threads : Nat := 8
  slotCapacity : Nat := 16384
  ringSize : Nat := 16
  /-- In milliseconds. -/
  timeout : Nat := 2000
  /-- The time for any write that only takes time, in microseconds. -/
  latency : Nat := 50
  /-- Bytes per microsecond for such writes. -/
  bandwidth : Nat := 200
  path : String := "./groupwal-bench.log"
  deriving DecidableEq, Repr

/-- How many workers share the commits; there is always one. -/
def Arguments.workers (a : Arguments) : Nat := max a.threads 1

/-- What can be given on the command line. -/
inductive Parameter where
  | writer
  | commits
  | size
  | randomSize
  | threads
  | slotCapacity
  | ringSize
  | timeout
  | latency
  | bandwidth
  | path
  | help
  | version
  deriving DecidableEq, Repr

namespace Parameter

/-- The parameter with this long name. -/
def ofName? : String → Option Parameter
  | "writer" => some writer
  | "commits" => some commits
  | "size" => some size
  | "random-size" => some randomSize
  | "threads" => some threads
  | "slot-capacity" => some slotCapacity
  | "ring-size" => some ringSize
  | "timeout-ms" => some timeout
  | "latency-us" => some latency
  | "bandwidth" => some bandwidth
  | "path" => some path
  | "help" => some help
  | "version" => some version
  | _ => none

/-- The parameter with this letter. -/
def ofLetter? : Char → Option Parameter
  | 'w' => some writer
  | 'c' => some commits
  | 's' => some size
  | 't' => some threads
  | 'p' => some path
  | 'h' => some help
  | 'V' => some version
  | _ => none

/-- Whether the parameter has a value. -/
def takesValue : Parameter → Bool
  | randomSize => false
  | help => false
  | version => false
  | _ => true

end Parameter

/-- What a command line asks for. -/
inductive Command where
  | run (arguments : Arguments)
  | showHelp
  | showVersion
  /-- Nothing: the command line is not understood. -/
  | reject
  deriving DecidableEq, Repr

/-- What has been read of a command line. -/
structure Reader where
  arguments : Arguments := {}
  /-- The parameters that were given. -/
  given : List Parameter := []

namespace Reader

/-- A decimal number of 64 bits, perhaps after a plus sign. -/
def number? (text : List Char) : Option Nat :=
  let digits := match text with
    | '+' :: rest => rest
    | _ => text
  if digits.isEmpty || !digits.all Char.isDigit then none
  else
    let n := digits.foldl (fun n c => 10 * n + (c.toNat - '0'.toNat)) 0
    if n < Word.limit then some n else none

/-- The kind of Writer with this name. -/
def writerKind? : String → Option WriterKind
  | "sleep" => some .sleep
  | "memory" => some .memory
  | "file" => some .file
  | _ => none

/-- The arguments with another value for a parameter, if it is a value for that parameter. -/
def assign (a : Arguments) (p : Parameter) (text : List Char) : Option Arguments :=
  match p with
  | .writer => (writerKind? (String.ofList text)).map fun v => { a with writer := v }
  | .commits => (number? text).map fun v => { a with commits := v }
  | .size => (number? text).map fun v => { a with size := v }
  | .threads => (number? text).map fun v => { a with threads := v }
  | .slotCapacity => (number? text).map fun v => { a with slotCapacity := v }
  | .ringSize => (number? text).map fun v => { a with ringSize := v }
  | .timeout => (number? text).map fun v => { a with timeout := v }
  | .latency => (number? text).map fun v => { a with latency := v }
  | .bandwidth => (number? text).map fun v => { a with bandwidth := v }
  | .path => if text.isEmpty then none else some { a with path := String.ofList text }
  | .randomSize => none
  | .help => none
  | .version => none

/-- Takes in a parameter with its value. -/
def set (r : Reader) (p : Parameter) (text : List Char) : Option Reader :=
  if p ∈ r.given then none
  else (assign r.arguments p text).map fun a => ⟨a, p :: r.given⟩

/-- What reading on leads to. -/
inductive Outcome where
  /-- There may be more. -/
  | more (reader : Reader)
  /-- The next argument is the value of this parameter. -/
  | value (reader : Reader) (parameter : Parameter)
  /-- The rest does not matter. -/
  | stop (command : Command)

/-- Takes in a parameter that has no value. -/
def switch (r : Reader) : Parameter → Outcome
  | .help => .stop .showHelp
  | .version => .stop .showVersion
  | p =>
    if p ∈ r.given then .stop .reject
    else .more ⟨{ r.arguments with randomSize := true }, p :: r.given⟩

/-- The outcome of taking in a parameter with its value. -/
def setOrReject (r : Reader) (p : Parameter) (text : List Char) : Outcome :=
  match r.set p text with
  | some r => .more r
  | none => .stop .reject

/-- Reads letters that stand together. -/
def letters (r : Reader) : List Char → Outcome
  | [] => .more r
  | c :: rest =>
    match Parameter.ofLetter? c with
    | none => .stop .reject
    | some p =>
      if p.takesValue then
        match rest with
        | [] => .value r p
        | '=' :: text => r.setOrReject p text
        | text => r.setOrReject p text
      else
        match r.switch p with
        | .more r => r.letters rest
        | outcome => outcome

/-- Reads a long name, perhaps with a value after an equals sign. -/
def longName (r : Reader) (text : List Char) : Outcome :=
  match Parameter.ofName? (String.ofList (text.takeWhile (· ≠ '='))) with
  | none => .stop .reject
  | some p =>
    match text.dropWhile (· ≠ '=') with
    | [] => if p.takesValue then .value r p else r.switch p
    | _ :: value => if p.takesValue then r.setOrReject p value else .stop .reject

/-- Reads one argument that is not a value. -/
def argument (r : Reader) : List Char → Outcome
  | '-' :: '-' :: name => r.longName name
  | '-' :: c :: rest => r.letters (c :: rest)
  | _ => .stop .reject

/-- Whether an argument can be the value of the parameter before it. -/
def isValue : List Char → Bool
  | '-' :: _ :: _ => false
  | _ => true

/-- Reads a command line to its end. Two hyphens end the parameters. -/
def command (r : Reader) : List (List Char) → Command
  | [] => .run r.arguments
  | arg :: rest =>
    if arg = ['-', '-'] then if rest.isEmpty then .run r.arguments else .reject
    else
      match r.argument arg with
      | .more r => r.command rest
      | .stop c => c
      | .value r p =>
        match rest with
        | [] => .reject
        | text :: rest =>
          if isValue text then
            match r.set p text with
            | some r => r.command rest
            | none => .reject
          else .reject

end Reader

/-- What the arguments of the program ask for. -/
def Command.ofArguments (args : List String) : Command :=
  ({} : Reader).command (args.map String.toList)

end GroupCommit.Benchmark
