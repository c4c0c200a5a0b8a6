import GroupCommit.Word

/-!
# Reserving addresses

The allocator hands out the address space from its start, one range after another. The next address
is one 64-bit word, which wraps around.
-/

namespace GroupCommit

/-- The part of the address space that is still free. -/
structure Allocator where
  /-- The first address that is not handed out. -/
  position : Nat := 0
  deriving DecidableEq, Repr

/-- Hands out `length` bytes: the first of their addresses, and the allocator after them. -/
def Allocator.reserve (a : Allocator) (length : Nat) : Nat × Allocator :=
  (a.position, ⟨(a.position + length) % Word.limit⟩)

end GroupCommit
