import GroupCommit.Bytes
import GroupCommit.Ring.Geometry

/-!
# Spans

A reserved range of addresses, cut along the boundaries of slots. A range within one slot goes through
that slot. Any other range has a head in a slot that it fills up, a middle of whole slots and a tail
at the start of a slot; each of them may be empty. The middle goes past the slots.

```text
      head_offset        middle (whole slots)           tail
  ┌─────┬────────┬──────────────────────────────┬────────┬─────┐
  │     │ head   │  C  │  C  │ ...              │ tail   │     │
  └─────┴────────┴──────────────────────────────┴────────┴─────┘
  head tag       ▲                              tail tag
```
-/

namespace GroupCommit

/-- A range of addresses, without its end. -/
structure Extent where
  start : Nat
  stop : Nat
  deriving DecidableEq, Repr

namespace Extent

/-- Whether no address lies in the range. -/
def isEmpty (e : Extent) : Bool := decide (e.stop ≤ e.start)

/-- How many generations of slots with this capacity start in the range, which starts with one. -/
def generationCount (e : Extent) (capacity : Nat) : Nat :=
  Word.chunksCovering (e.stop - e.start) capacity

/-- The generation number `k` of those. -/
def generation (e : Extent) (capacity k : Nat) : Nat := e.start + k * capacity

/-- All of them. -/
def generations (e : Extent) (capacity : Nat) : List Nat :=
  (List.range (e.generationCount capacity)).map (e.generation capacity)

end Extent

/-- A reserved range and where it begins and ends in the ring. -/
structure Span where
  /-- The first address. -/
  head : Nat
  /-- The number of bytes. -/
  total : Nat
  /-- The generation of the first byte. -/
  headTag : Nat
  /-- The generation of the last byte. -/
  tailTag : Nat
  /-- The place of the first byte in its slot. -/
  headOffset : Nat
  /-- The bytes in a last, partly covered slot; none if the range ends with a slot. -/
  tailLength : Nat
  /-- The capacity of the slots. -/
  capacity : Nat
  deriving DecidableEq, Repr

/-- Cuts a range of `total` bytes from `head` on. -/
def Geometry.span (g : Geometry) (head total : Nat) : Except Fault Span := do
  if total = 0 then throw (.emptyReservation head)
  let stop ← Word.add head total
  return {
    head, total
    headTag := g.base head
    tailTag := g.base (stop - 1)
    headOffset := g.offset head
    tailLength := g.offset stop
    capacity := g.capacity }

namespace Span

/-- The address behind the range. -/
def stop (s : Span) : Except Fault Nat := Word.add s.head s.total

/-- Whether the whole range lies in one slot. -/
def isSingleSlot (s : Span) : Bool := s.headTag == s.tailTag

/-- The bytes that go through the head slot of a range over several slots. -/
def headLength (s : Span) : Nat :=
  if 0 < s.headOffset then s.capacity - s.headOffset else 0

/-- The whole slots between head and tail. -/
def middle (s : Span) : Except Fault Extent := do
  let start ← if 0 < s.headOffset then Word.add s.headTag s.capacity else pure s.headTag
  let stop ← if 0 < s.tailLength then pure s.tailTag else s.stop
  return ⟨start, max stop start⟩

end Span

end GroupCommit
