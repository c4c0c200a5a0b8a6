import GroupCommit.Slot.Basic

/-!
# Slots in words

The one-line description of a slot for diagnostics.
-/

namespace GroupCommit.Slot

/-- The parts of a slot that callers may look at. -/
def describeState (s : Slot) : String :=
  s!"SlotSnapshot \x7b tag: {s.tag}, dirty_size: {s.dirty}, high_water: {s.highWater}, "
    ++ s!"phase: {s.phase.name}, waiters: {s.waiters} \x7d"

/-- A slot with its place in the ring and its state. -/
def describe (s : Slot) : String :=
  s!"Slot \x7b index: {s.index}, capacity: {s.capacity}, state: {s.describeState} \x7d"

end GroupCommit.Slot
