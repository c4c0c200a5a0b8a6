import GroupCommit.Image
import GroupCommit.Writer.Basic

/-!
# Writing to memory

A Writer that keeps what was written and a list of the calls, and that can be told to fail after some
number of them.
-/

namespace GroupCommit

/-- An image in memory and the calls that made it. -/
structure MemoryWriter where
  /-- What was written, with zeros in between. -/
  image : Image := .blank
  /-- The calls that succeeded, in order. -/
  calls : List WriteCall := []
  /-- How many calls succeed, if not all of them. -/
  failAfter : Option Nat := none
  deriving DecidableEq, Repr

namespace MemoryWriter

/-- Whether every further call fails. -/
def exhausted (w : MemoryWriter) : Bool :=
  match w.failAfter with
  | some count => decide (count ≤ w.calls.length)
  | none => false

/-- Asks for an image that reaches to the end of a call. -/
def grow (w : MemoryWriter) (address length : Nat) : Except Fault Unit := do
  let stop ← Word.add address length
  if w.image.size < stop then Word.allocate stop

/-- Writes into the image, which grows to the end of the call. -/
def write (w : MemoryWriter) (data : Bytes) (address : Nat) (hint : Int32) :
    Except (Stop IoError) Unit × MemoryWriter :=
  if w.exhausted then (.error (.refused (.injected data.length address)), w)
  else
    match w.grow address data.length with
    | .error broken => (.error (.fault broken), w)
    | .ok () =>
      (.ok (), { w with
        image := w.image.write address data
        calls := w.calls ++ [⟨address, data.length, hint⟩] })

instance : Writer MemoryWriter := ⟨write⟩

/-- How many bytes were written in all calls together, if they can be counted. -/
def bytesWritten (w : MemoryWriter) : Except Fault Nat :=
  w.calls.foldlM (fun bytes c => Word.add bytes c.length) 0

/-- The bytes of a range, if the image has them all. -/
def read (w : MemoryWriter) (address length : Nat) : Except Fault (Option Bytes) := do
  let stop ← Word.add address length
  return if stop ≤ w.image.size then some (w.image.window address length) else none

end MemoryWriter

end GroupCommit
