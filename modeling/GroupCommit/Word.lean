import GroupCommit.Fault

/-!
# Words

Addresses and lengths are natural numbers that a 64-bit word has to hold. This module gives the
arithmetic on them that stops with a fault instead of leaving that range, and the limit on what one
buffer may hold. Counters begin anew at zero where they leave it. Numbers of events that only a slot
counts (fills, waiters) are plain natural numbers.
-/

namespace GroupCommit

namespace Word

/-- One more than the largest address or length: two to the power of 64. -/
def limit : Nat := 18446744073709551616

/-- One more than the largest size of a buffer in memory: two to the power of 63. -/
def allocationLimit : Nat := 9223372036854775808

/-- The sum of two words, a fault when it does not fit in a word. -/
def add (a b : Nat) : Except Fault Nat :=
  if a + b < limit then .ok (a + b) else .error .addOverflow

/-- The product of two words, a fault when it does not fit in a word. -/
def mul (a b : Nat) : Except Fault Nat :=
  if a * b < limit then .ok (a * b) else .error .mulOverflow

/-- The difference of two words, a fault when it is negative. -/
def sub (a b : Nat) : Except Fault Nat :=
  if b ≤ a then .ok (a - b) else .error .subOverflow

/-- A counter of one word, raised: behind the last word it begins anew at zero. -/
def wrappingAdd (a b : Nat) : Nat := (a + b) % limit

/-- How far a counter has come from `b` to `a`. -/
def wrappingSub (a b : Nat) : Nat := (a + limit - b) % limit

/-- Asks for a buffer of `n` bytes, a fault when no buffer can be that large. -/
def allocate (n : Nat) : Except Fault Unit :=
  if n < allocationLimit then .ok () else .error .capacityOverflow

/-- The number of chunks of `chunk` bytes that cover `n` bytes. -/
def chunksCovering (n chunk : Nat) : Nat :=
  (n + chunk - 1) / chunk

end Word

end GroupCommit
