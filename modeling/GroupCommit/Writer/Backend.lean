import GroupCommit.Writer.Block
import GroupCommit.Writer.File
import GroupCommit.Writer.Memory
import GroupCommit.Writer.Paced

/-!
# Writers chosen at run time

One type for the Writers of this library, for programs whose user says where the log is kept, and a
Writer that keeps a list of the calls that another one accepted.
-/

namespace GroupCommit

/-- One of the Writers of this library. -/
inductive Backend where
  | memory (writer : MemoryWriter)
  | file (writer : FileWriter)
  | block (writer : BlockWriter)
  | paced (writer : PacedWriter)
  deriving DecidableEq, Repr

namespace Backend

/-- Writes through the chosen Writer. -/
def write (b : Backend) (data : Bytes) (address : Nat) (hint : Int32) :
    Except (Stop IoError) Unit × Backend :=
  match b with
  | memory w => Prod.map id memory (w.write data address hint)
  | file w => Prod.map id file (w.write data address hint)
  | block w => Prod.map id block (w.write data address hint)
  | paced w => Prod.map id paced (w.write data address hint)

instance : Writer Backend := ⟨write⟩

/-- What the medium holds. -/
def image : Backend → Image
  | memory w => w.image
  | file w => w.image
  | block w => w.image
  | paced _ => .blank

end Backend

/-- A Writer and the calls it accepted. -/
structure Journaled (W : Type) where
  writer : W
  accepted : List WriteCall := []
  deriving DecidableEq, Repr

namespace Journaled

variable {W : Type} [Writer W]

/-- Writes, and notes the call if it succeeds. -/
def write (j : Journaled W) (data : Bytes) (address : Nat) (hint : Int32) :
    Except (Stop IoError) Unit × Journaled W :=
  match Writer.write j.writer data address hint with
  | (.ok (), writer) => (.ok (), ⟨writer, j.accepted ++ [⟨address, data.length, hint⟩]⟩)
  | (.error stop, writer) => (.error stop, { j with writer })

instance : Writer (Journaled W) := ⟨write⟩

end Journaled

end GroupCommit
