import GroupCommit.Error
import GroupCommit.Bytes
import GroupCommit.Word

/-!
# Writers

A Writer puts bytes at an address of a durable medium. The log needs nothing else of it, and calls it
from whichever caller took a flush.
-/

namespace GroupCommit

/-- Media that bytes can be written to. -/
class Writer (W : Type) where
  /-- Writes `data` at `address`: how that ends, and the Writer after it. A call that does not succeed
  may have changed the medium all the same. The hint is the caller's own and is passed on. -/
  write : W → (data : Bytes) → (address : Nat) → (hint : Int32) → Except (Stop IoError) Unit × W

/-- What a Writer was asked for: how many bytes, and where. -/
structure WriteCall where
  address : Nat
  length : Nat
  hint : Int32
  deriving DecidableEq, Repr

/-- The address behind the bytes of a call. -/
def WriteCall.stop (c : WriteCall) : Except Fault Nat := Word.add c.address c.length

end GroupCommit
