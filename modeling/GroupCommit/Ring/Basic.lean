import GroupCommit.Config
import GroupCommit.Ring.Geometry
import GroupCommit.Slot.Basic

/-!
# Rings

A ring is its slots, one for each index, and a mark that the log is poisoned. The mark and the slots
are changed in separate steps: poisoning a ring sets the mark and then poisons one slot after another.
-/

namespace GroupCommit

/-- The slots that the address space is folded onto. -/
structure Ring where
  geometry : Geometry
  slots : List Slot
  poisoned : Bool
  deriving DecidableEq, Repr

namespace Ring

/-- The slots from `index` on, `count` of them, each in its first generation. -/
def createSlots (capacity ringSize : Nat) : Nat → Nat → Except Fault (List Slot)
  | _, 0 => .ok []
  | index, count + 1 => do
    let slot ← Slot.create index capacity ringSize
    return slot :: (← createSlots capacity ringSize (index + 1) count)

/-- The bytes that a slot takes besides its buffer. -/
def slotSize : Nat := 256

/-- A ring of `ringSize` slots of `capacity` bytes. The place for all of the slots is asked for before
the first of them is made. -/
def create (capacity ringSize : Nat) : Except Fault Ring := do
  let geometry ← Geometry.ofSizes capacity ringSize
  Word.allocate (ringSize * slotSize)
  let slots ← createSlots capacity ringSize 0 ringSize
  return ⟨geometry, slots, false⟩

/-- The ring of a configuration, which need not be a valid one. -/
def ofConfig (c : Config) : Except Fault Ring :=
  create c.slotCapacity c.ringSize

/-- The slot with this index. -/
def slot? (r : Ring) (index : Nat) : Except Fault Slot :=
  match r.slots[index]? with
  | some slot => .ok slot
  | none => .error (.noElement r.slots.length index)

/-- The ring with another slot in this place. -/
def setSlot (r : Ring) (index : Nat) (slot : Slot) : Ring :=
  { r with slots := r.slots.set index slot }

/-- The ring once it is marked and each of its slots is poisoned. -/
def poison (r : Ring) (reason : PoisonReason) : Ring :=
  { r with poisoned := true, slots := r.slots.map (·.poisonWith reason) }

end Ring

end GroupCommit
