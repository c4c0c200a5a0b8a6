import GroupCommit.File
import GroupCommit.Writer.Basic

/-!
# Writing to a file

A Writer that writes each address of the log at the same offset of one file, and makes the file
durable after every write, after every so many writes or never. It counts the writes since. A write
that the file has taken counts even if the fsync that belongs to it fails, and stays counted until one
succeeds.
-/

namespace GroupCommit

/-- How often a file is made durable. -/
inductive SyncStrategy where
  | everyWrite
  | everyNWrites (count : Nat)
  | never
  deriving DecidableEq, Repr

/-- Whether a file with this many writes since the last time is to be made durable. -/
def SyncStrategy.isDue : SyncStrategy → Nat → Bool
  | everyWrite, _ => true
  | everyNWrites count, unsynced => decide (count ≤ unsynced)
  | never, _ => false

/-- A file and the writes that are not yet durable. -/
structure FileWriter where
  file : File
  strategy : SyncStrategy
  /-- How many writes there were since the file was last made durable. -/
  unsynced : Nat
  deriving DecidableEq, Repr

namespace FileWriter

/-- The bytes of the file. -/
def image (w : FileWriter) : Image := w.file.image

/-- Opens a file and empties it. -/
def create (target : FileTarget) (strategy : SyncStrategy) : Except IoError FileWriter := do
  let file ← target.opened
  return ⟨file.truncate, strategy, 0⟩

/-- Makes the file durable. Where that fails, no write is counted off. -/
def sync (w : FileWriter) : Except IoError Unit × FileWriter :=
  match w.file.sync with
  | (.ok (), file) => (.ok (), { w with file, unsynced := 0 })
  | (.error e, file) => (.error e, { w with file })

/-- Writes at the offset that is the address, and makes the file durable when that is due. -/
def write (w : FileWriter) (data : Bytes) (address : Nat) (_hint : Int32) :
    Except (Stop IoError) Unit × FileWriter :=
  match w.file.write address data with
  | .error e => (.error (.refused e), w)
  | .ok file =>
    match Word.add w.unsynced 1 with
    | .error broken => (.error (.fault broken), { w with file })
    | .ok unsynced =>
      let written := { w with file, unsynced }
      if w.strategy.isDue unsynced then
        (written.sync.1.mapError .refused, written.sync.2)
      else (.ok (), written)

instance : Writer FileWriter := ⟨write⟩

end FileWriter

end GroupCommit
