import GroupCommit.File
import GroupCommit.Writer.Basic

/-!
# Writing to a block device

A Writer for a device that is written in whole blocks of `2 ^ bits` bytes. Addresses have to lie at
the start of a block; the last block of a write is filled up with zeros. The log begins at a block of
the device that can be chosen.
-/

namespace GroupCommit

/-- A block device and the place of the log on it. -/
structure BlockWriter where
  device : File
  /-- The binary logarithm of the block size. -/
  bits : Nat
  /-- The block at which the log begins. -/
  baseBlock : Nat
  deriving DecidableEq, Repr

namespace BlockWriter

/-- The least block size that is supported, as a binary logarithm. -/
def leastBits : Nat := 9

/-- The greatest block size that is supported, as a binary logarithm. -/
def mostBits : Nat := 16

/-- The bytes of the device. -/
def image (w : BlockWriter) : Image := w.device.image

/-- Opens a device. Its block size is looked at first. -/
def create (target : FileTarget) (bits : Nat) : Except LogError BlockWriter :=
  if bits < leastBits ∨ mostBits < bits then
    .error (.config (.blockBits leastBits mostBits bits))
  else
    match target.opened with
    | .ok device => .ok ⟨device, bits, 0⟩
    | .error e => .error (.io e)

/-- The device with the log beginning at another block. -/
def withBaseBlock (w : BlockWriter) (block : Nat) : BlockWriter := { w with baseBlock := block }

/-- The bytes of one block. -/
def blockSize (w : BlockWriter) : Nat := 1 <<< w.bits

/-- The block of the device that holds an address of the log. -/
def blockOf (w : BlockWriter) (address : Nat) : Except Fault Nat :=
  Word.add w.baseBlock (address >>> w.bits)

/-- How many blocks cover `length` bytes. -/
def blocksCovering (w : BlockWriter) (length : Nat) : Nat :=
  Word.chunksCovering length w.blockSize

/-- The offset of a block on the device, as a 64-bit word: bits beyond that are lost. -/
def offsetOf (w : BlockWriter) (block : Nat) : Nat := (block <<< w.bits) % Word.limit

/-- `data` with zeros up to the end of its last block. -/
def padded (w : BlockWriter) (data : Bytes) : Bytes :=
  data ++ Bytes.zeros (w.blocksCovering data.length * w.blockSize - data.length)

/-- Writes whole blocks from the block of the address on, and makes the device durable. -/
def write (w : BlockWriter) (data : Bytes) (address : Nat) (_hint : Int32) :
    Except (Stop IoError) Unit × BlockWriter :=
  if address &&& (w.blockSize - 1) ≠ 0 then
    (.error (.refused (.misaligned address w.blockSize)), w)
  else
    match w.blockOf address with
    | .error broken => (.error (.fault broken), w)
    | .ok block =>
      match w.device.write (w.offsetOf block) (w.padded data) with
      | .error e => (.error (.refused e), w)
      | .ok device => (device.sync.1.mapError .refused, { w with device := device.sync.2 })

instance : Writer BlockWriter := ⟨write⟩

end BlockWriter

end GroupCommit
