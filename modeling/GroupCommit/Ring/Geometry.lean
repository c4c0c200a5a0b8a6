import GroupCommit.Word

/-!
# The geometry of a ring

The address space is folded onto a ring of slots: each slot holds `capacity` consecutive addresses at
a time, and the slots follow one another around the ring. Capacity and ring size are powers of two, so
the parts of an address are taken out with shifts and masks.

```text
 address:  0      C      2C     3C     4C     5C
           ├──────┼──────┼──────┼──────┼──────┼──
 slot:     │  0   │  1   │  2   │  3   │  0   │
```
-/

namespace GroupCommit

/-- The size of a ring and of its slots. -/
structure Geometry where
  capacity : Nat
  ringSize : Nat
  capacity_pow : capacity.isPowerOfTwo
  ringSize_pow : ringSize.isPowerOfTwo
  deriving DecidableEq, Repr

namespace Geometry

/-- The geometry with these sizes, a fault when one of them is not a power of two. -/
def ofSizes (capacity ringSize : Nat) : Except Fault Geometry :=
  if hc : capacity.isPowerOfTwo then
    if hr : ringSize.isPowerOfTwo then .ok ⟨capacity, ringSize, hc, hr⟩
    else .error .ringSizeNotPowerOfTwo
  else .error .capacityNotPowerOfTwo

/-- How many low bits of an address lie within a slot. -/
def capacityBits (g : Geometry) : Nat := g.capacity.log2

/-- The distance between two generations of one slot. -/
def gap (g : Geometry) : Except Fault Nat := Word.mul g.capacity g.ringSize

/-- The slot that holds an address. -/
def index (g : Geometry) (address : Nat) : Nat :=
  (address >>> g.capacityBits) &&& (g.ringSize - 1)

/-- The generation that holds an address: its slot's first address at that time. -/
def base (g : Geometry) (address : Nat) : Nat :=
  address &&& (Word.limit - 1 - (g.capacity - 1))

/-- The place of an address within its slot. -/
def offset (g : Geometry) (address : Nat) : Nat :=
  address &&& (g.capacity - 1)

end Geometry

end GroupCommit
