import GroupCommit.Bytes.LittleEndian
import GroupCommit.Word

/-!
# Metadata records

A metadata record tells where a batch of entries landed in a data stream: the stream and the byte
position in it, packed into one word, then one address per entry. Unlike a log record it carries the
number of its addresses, so trailing bytes do no harm.

* `IndexedPosition.unpack_of_pack`, `IndexedPosition.pack_unpack`: packing loses nothing, and every word
  is packed from something.
-/

namespace GroupCommit

/-! ### Indexed positions -/

namespace IndexedPosition

/-- One more than the largest position beside a stream number of one byte: two to the power of 56. -/
def positionLimit : Nat := 72057594037927936

/-- The position in the high bytes and the stream in the low one. -/
def pack (position : Nat) (stream : UInt8) : Except Fault Nat :=
  if position < positionLimit then .ok (position * 256 + stream.toNat)
  else .error (.positionTooWide position)

/-- The position and the stream of a packed word. -/
def unpack (indexed : Nat) : Nat × UInt8 :=
  (indexed / 256, UInt8.ofNat indexed)

variable {position indexed : Nat} {stream : UInt8}

theorem pack_eq_ok : pack position stream = .ok indexed ↔
    position < positionLimit ∧ position * 256 + stream.toNat = indexed := by
  rw [pack]
  split
  · next h => exact ⟨fun h' => ⟨h, Except.ok.inj h'⟩, fun h' => congrArg _ h'.2⟩
  · next h => exact ⟨nofun, fun h' => absurd h'.1 h⟩

theorem lt_limit_of_pack (h : pack position stream = .ok indexed) : indexed < Word.limit := by
  obtain ⟨hnarrow, rfl⟩ := pack_eq_ok.1 h
  have := stream.toNat_lt
  simp only [positionLimit, Word.limit] at hnarrow ⊢
  omega

theorem unpack_of_pack (h : pack position stream = .ok indexed) :
    unpack indexed = (position, stream) := by
  obtain ⟨-, rfl⟩ := pack_eq_ok.1 h
  have := stream.toNat_lt
  have hposition : (position * 256 + stream.toNat) / 256 = position := by omega
  have hstream : UInt8.ofNat (position * 256 + stream.toNat) = stream := by
    apply UInt8.toNat_inj.1
    rw [UInt8.toNat_ofNat']
    omega
  rw [unpack, hposition, hstream]

/-- Every word is packed from the pair that it is unpacked into. -/
theorem pack_unpack (h : indexed < Word.limit) :
    pack (unpack indexed).1 (unpack indexed).2 = .ok indexed := by
  simp only [Word.limit] at h
  refine pack_eq_ok.2 ⟨?_, ?_⟩
  · show indexed / 256 < positionLimit
    rw [positionLimit]
    omega
  · show indexed / 256 * 256 + (UInt8.ofNat indexed).toNat = indexed
    rw [UInt8.toNat_ofNat']
    omega

end IndexedPosition

/-! ### Records -/

/-- Where a batch of entries landed. -/
structure Metadata where
  timestamp : UInt64
  /-- The byte position of the batch in its stream. -/
  position : Nat
  /-- The stream that holds the batch. -/
  stream : UInt8
  /-- One address per entry. -/
  addresses : List UInt64
  deriving DecidableEq, Repr

namespace Metadata

/-- Timestamp, indexed position and count. -/
def headerSize : Nat := 20

/-- The length of a record with `count` addresses. -/
def encodedLength (count : Nat) : Except Fault Nat := do
  Word.add headerSize (← Word.mul 8 count)

/-- The length of this record. -/
def length (m : Metadata) : Except Fault Nat :=
  encodedLength m.addresses.length

/-- The bytes of a list of addresses. -/
def encodeAddresses (addresses : List UInt64) : Bytes :=
  addresses.flatMap fun address => LittleEndian.encode 8 address.toNat

/-- The bytes of a record. The count takes four bytes, so what is beyond them is lost. -/
def encode (m : Metadata) : Except Fault Bytes := do
  let space ← m.length
  Word.allocate space
  let indexed ← IndexedPosition.pack m.position m.stream
  return LittleEndian.encode 8 m.timestamp.toNat ++ LittleEndian.encode 8 indexed ++
    LittleEndian.encode 4 m.addresses.length ++ encodeAddresses m.addresses

/-- The first `count` addresses in `bytes`, a fault when there are fewer. -/
def decodeAddresses : Nat → Bytes → Except Fault (List UInt64)
  | 0, _ => .ok []
  | count + 1, bytes => do
    let (address, rest) ← LittleEndian.next 8 bytes
    return UInt64.ofNat address :: (← decodeAddresses count rest)

/-- Reads a record from the start of `bytes`; what follows it is ignored. The lengths are checked before
the header and before the addresses are read. -/
def decode (bytes : Bytes) : Except (Stop LogError) Metadata := do
  if bytes.length < headerSize then
    throw (.refused (.invalidRecord (.headerTruncated headerSize bytes.length)))
  let (timestamp, rest) ← Fault.guard (LittleEndian.next 8 bytes)
  let (indexed, rest) ← Fault.guard (LittleEndian.next 8 rest)
  let (count, rest) ← Fault.guard (LittleEndian.next 4 rest)
  let needed ← Fault.guard (encodedLength count)
  if bytes.length < needed then
    throw (.refused (.invalidRecord (.addressesTruncated count needed bytes.length)))
  let addresses ← Fault.guard (decodeAddresses count rest)
  let (position, stream) := IndexedPosition.unpack indexed
  return ⟨UInt64.ofNat timestamp, position, stream, addresses⟩

end Metadata

end GroupCommit
