import GroupCommit.Bytes

/-!
# Slot buffers

A buffer of fixed size that starts out as zeros. Only the bytes up to the last one written are kept;
`Buffer.read` is the byte at each position. A slot whose buffer is out with a flush holds
`Buffer.taken`, which has no bytes at all.
-/

namespace GroupCommit

/-- The bytes of a slot. -/
structure Buffer where
  size : Nat
  /-- The bytes up to the last one written; zeros follow. -/
  written : Bytes
  deriving DecidableEq, Repr

namespace Buffer

/-- A buffer of zeros. -/
def blank (size : Nat) : Buffer := ⟨size, []⟩

/-- What is left in a slot while a flush owns its buffer. -/
def taken : Buffer := ⟨0, []⟩

/-- The byte at a position. -/
def read (b : Buffer) (i : Nat) : UInt8 := Bytes.read b.written i

/-- The buffer with `data` at `offset`. -/
def write (b : Buffer) (offset : Nat) (data : Bytes) : Buffer :=
  { b with written := Bytes.overwrite b.written offset data }

/-- The buffer with its first `n` bytes zero. -/
def clear (b : Buffer) (n : Nat) : Buffer :=
  { b with written := Bytes.zeros (min n b.written.length) ++ b.written.drop n }

/-- The first `n` bytes. -/
def first (b : Buffer) (n : Nat) : Bytes :=
  b.written.take n ++ Bytes.zeros (n - b.written.length)

@[simp] theorem read_blank (size i : Nat) : (blank size).read i = 0 := by
  simp [blank, read, Bytes.read]

theorem read_write (b : Buffer) (offset : Nat) (data : Bytes) (i : Nat) :
    (b.write offset data).read i =
      if offset ≤ i ∧ i < offset + data.length then Bytes.read data (i - offset) else b.read i :=
  Bytes.read_overwrite b.written offset data i

theorem read_clear (b : Buffer) (n i : Nat) :
    (b.clear n).read i = if i < n then 0 else b.read i := by
  simp only [read, clear, Bytes.read, Bytes.zeros, List.getD_eq_getElem?_getD]
  by_cases hlow : i < min n b.written.length
  · rw [List.getElem?_append_left (by rw [List.length_replicate]; exact hlow),
      List.getElem?_replicate_of_lt hlow, if_pos (by omega)]
    rfl
  · rw [List.getElem?_append_right (by rw [List.length_replicate]; omega), List.length_replicate,
      List.getElem?_drop]
    by_cases hn : i < n
    · rw [if_pos hn, List.getElem?_eq_none (by omega)]
      rfl
    · rw [if_neg hn]
      by_cases hw : n ≤ b.written.length
      · congr 2
        omega
      · rw [List.getElem?_eq_none (by omega), List.getElem?_eq_none (by omega)]

theorem length_first (b : Buffer) (n : Nat) : (b.first n).length = n := by
  simp only [first, Bytes.zeros, List.length_append, List.length_take, List.length_replicate]
  omega

theorem read_first (b : Buffer) {n i : Nat} (h : i < n) :
    Bytes.read (b.first n) i = b.read i := by
  simp only [read, first, Bytes.read, Bytes.zeros, List.getD_eq_getElem?_getD]
  by_cases hin : i < b.written.length
  · rw [List.getElem?_append_left (by rw [List.length_take]; omega), List.getElem?_take_of_lt h]
  · rw [List.getElem?_append_right (by rw [List.length_take]; omega), List.length_take,
      List.getElem?_replicate_of_lt (by omega), List.getElem?_eq_none (by omega)]
    rfl

end Buffer

end GroupCommit
