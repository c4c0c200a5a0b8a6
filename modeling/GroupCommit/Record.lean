import GroupCommit.Bytes.LittleEndian
import GroupCommit.Checksum
import GroupCommit.Word

/-!
# Log records

A record is a timestamp of eight bytes, the payload, the payload's checksum of four bytes and zeros
up to the space given to it. It carries no length: whoever reads it knows the length of the payload,
and a checksum that does not match marks the end of the log. `Record.Format` fixes the space from the
payload's length.
-/

namespace GroupCommit

/-- A record read back from the log. -/
structure Record where
  timestamp : UInt64
  payload : Bytes
  checksum : UInt32
  deriving DecidableEq, Repr

namespace Record

/-- The bytes of a timestamp. -/
def timestampSize : Nat := 8

/-- The bytes of a checksum. -/
def checksumSize : Nat := 4

/-- What a record adds to its payload. -/
def overhead : Nat := timestampSize + checksumSize

/-- The least number of bytes a record occupies unless a format says otherwise. -/
def minWriteSize : Nat := 512

/-- The length of a record with `payload` bytes of payload, without padding. -/
def encodedLength (payload : Nat) : Except Fault Nat :=
  Word.add overhead payload

/-- Timestamp, payload and checksum, without padding. -/
def frame (timestamp : UInt64) (payload : Bytes) : Bytes :=
  LittleEndian.encode timestampSize timestamp.toNat ++ payload ++
    LittleEndian.encode checksumSize (GroupCommit.checksum payload).toNat

/-- The record in exactly `space` bytes, a fault when it needs more. -/
def encode (timestamp : UInt64) (payload : Bytes) (space : Nat) : Except Fault Bytes := do
  let needed ← encodedLength payload.length
  if space < needed then throw (.recordTooLong payload.length space)
  Word.allocate space
  return frame timestamp payload ++ Bytes.zeros (space - needed)

/-- Reads a record with `payload` bytes of payload from the start of `bytes`; what follows it is
ignored. -/
def decode (bytes : Bytes) (payload : Nat) : Except (Stop LogError) Record := do
  let needed ← Fault.guard (encodedLength payload)
  if bytes.length < needed then
    throw (.refused (.invalidRecord (.truncated needed bytes.length)))
  let timestamp := LittleEndian.decode (bytes.take timestampSize)
  let body := (bytes.drop timestampSize).take payload
  let stored := LittleEndian.decode ((bytes.drop (timestampSize + payload)).take checksumSize)
  let stored := UInt32.ofNat stored
  if stored ≠ GroupCommit.checksum body then
    throw (.refused (.corruption (.checksumMismatch stored (GroupCommit.checksum body))))
  return ⟨UInt64.ofNat timestamp, body, stored⟩

/-! ### Padding -/

/-- How records are padded: to a least length and to whole chunks. -/
structure Format where
  /-- No record occupies fewer bytes. -/
  minWriteSize : Nat
  /-- Every record occupies a multiple of this many bytes. -/
  chunkSize : Nat
  chunkSize_pos : 0 < chunkSize
  deriving DecidableEq, Repr

namespace Format

/-- The format with these sizes, a fault when chunks are empty. -/
def ofSizes (minWriteSize chunkSize : Nat) : Except Fault Format :=
  if h : 0 < chunkSize then .ok ⟨minWriteSize, chunkSize, h⟩ else .error .chunkSizeZero

/-- Single bytes as chunks. -/
def standard : Format := ⟨Record.minWriteSize, 1, by decide⟩

/-- The bytes that a record with `payload` bytes of payload occupies. -/
def totalLength (format : Format) (payload : Nat) : Except Fault Nat := do
  let needed ← encodedLength payload
  let length := max needed format.minWriteSize
  Word.mul (Word.chunksCovering length format.chunkSize) format.chunkSize

/-- The record, padded as the format says. -/
def encode (format : Format) (timestamp : UInt64) (payload : Bytes) : Except Fault Bytes := do
  let space ← format.totalLength payload.length
  Record.encode timestamp payload space

end Format

end Record

end GroupCommit
