import GroupCommit.Error
import GroupCommit.Image

/-!
# Files

A file takes bytes at an offset and is made durable by an fsync. What stands behind it decides which
bytes it takes and keeps: a disk, or a device that is only opened like a file. How an fsync ends is up
to the device, so a file carries the answers to those that are still to come.

* `writeAt`: the bytes of a file on a disk after a write.
* `File.write`, `File.sync`: what a file does.
* `FileTarget`: what is found where a file is to be opened.
-/

namespace GroupCommit

/-- One more than the largest offset in a file: two to the power of 63. -/
def seekLimit : Nat := 9223372036854775808

/-- A file on a disk once `data` is written at `offset`. Both the offset and the end of the bytes have to be
offsets of the file. Writing nothing changes nothing. -/
def writeAt (file : Image) (offset : Nat) (data : Bytes) : Except IoError Image :=
  if seekLimit ≤ offset then .error .offsetTooLarge
  else if data.isEmpty then .ok file
  else if seekLimit ≤ offset + data.length then .error .offsetTooLarge
  else .ok (file.write offset data)

/-- What stands behind an opened file. -/
inductive Backing where
  /-- A disk, which keeps all bytes. -/
  | disk
  /-- A device that takes all bytes and keeps none. -/
  | sink
  /-- A device without room for a single byte. -/
  | full
  /-- A pipe, which has no offsets. -/
  | pipe
  deriving DecidableEq, Repr

/-- An opened file. -/
structure File where
  image : Image := .blank
  backing : Backing := .disk
  /-- What the next fsyncs fail with, in order, and none for one that succeeds. -/
  syncs : List (Option IoError) := []
  /-- What all fsyncs after those fail with, if they fail. -/
  laterSyncs : Option IoError := none
  deriving DecidableEq, Repr

namespace File

/-- The file without its bytes. -/
def truncate (f : File) : File := { f with image := .blank }

/-- The file once `data` is written at `offset`, unless that is refused, which leaves it as it was. -/
def write (f : File) (offset : Nat) (data : Bytes) : Except IoError File :=
  match f.backing with
  | .disk => (writeAt f.image offset data).map fun image => { f with image }
  | .sink => .ok f
  | .full => if data.isEmpty then .ok f else .error .deviceFull
  | .pipe => .error .notSeekable

/-- How the next fsync ends. -/
def syncAnswer (f : File) : Except IoError Unit :=
  match f.syncs.headD f.laterSyncs with
  | none => .ok ()
  | some e => .error e

/-- Makes the file durable: how that ends, and the file after it. -/
def sync (f : File) : Except IoError Unit × File :=
  (f.syncAnswer, { f with syncs := f.syncs.tail })

end File

/-- What is found where a file is to be opened. -/
inductive FileTarget where
  /-- A file that can be opened, without bytes where there was none. -/
  | file (found : File)
  /-- Nothing that can be opened. -/
  | unavailable (reason : IoError)
  deriving DecidableEq, Repr

/-- Opens what is found. -/
def FileTarget.opened : FileTarget → Except IoError File
  | .file found => .ok found
  | .unavailable reason => .error reason

end GroupCommit
