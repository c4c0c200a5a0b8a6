import GroupCommit.Fault

/-!
# Bytes

Byte strings as lists, and the two ways in which the library cuts into them: taking a range, with a
fault when it does not lie inside, and writing at a position, with zeros where the string has to
grow. Every medium and every slot buffer is written through `Bytes.overwrite`; its view `Bytes.read`
gives the byte at each position, zero beyond the end.

* `Bytes.read_overwrite`: after a write, a position holds the written byte if the write covers it
  and what it held before otherwise.
* `Bytes.length_overwrite`: the length grows to the end of the write and never shrinks.
* `Bytes.eq_of_read`: strings of the same length with the same bytes are the same.
-/

namespace GroupCommit

/-- A byte string. -/
abbrev Bytes := List UInt8

namespace Bytes

/-- `n` zero bytes. -/
def zeros (n : Nat) : Bytes := List.replicate n 0

/-- The byte at position `i`, zero beyond the end. -/
def read (image : Bytes) (i : Nat) : UInt8 := image.getD i 0

/-- Asks whether a range lies inside `length` bytes. Of two things wrong with it, the first fault says
that it starts too far out, the next that it ends too far out. -/
def checkRange (start stop length : Nat) : Except Fault Unit :=
  if length < start then .error (.rangeStart start length)
  else if length < stop then .error (.rangeEnd stop length)
  else if stop < start then .error (.rangeOrder start stop)
  else .ok ()

/-- The bytes from `start` up to but not including `stop`, a fault when they are not all there. -/
def slice (image : Bytes) (start stop : Nat) : Except Fault Bytes := do
  checkRange start stop image.length
  return (image.drop start).take (stop - start)

/-- `image` with `data` written at `start`, with zeros in the gap where the write starts beyond the
end. -/
def overwrite (image : Bytes) (start : Nat) (data : Bytes) : Bytes :=
  image.take start ++ zeros (start - image.length) ++ data ++ image.drop (start + data.length)

theorem length_overwrite (image : Bytes) (start : Nat) (data : Bytes) :
    (image.overwrite start data).length = max image.length (start + data.length) := by
  simp only [overwrite, zeros, List.length_append, List.length_take, List.length_replicate,
    List.length_drop]
  omega

theorem read_overwrite (image : Bytes) (start : Nat) (data : Bytes) (i : Nat) :
    (image.overwrite start data).read i =
      if start ≤ i ∧ i < start + data.length then data.read (i - start) else image.read i := by
  simp only [read, overwrite, zeros, List.getD_eq_getElem?_getD, List.append_assoc]
  by_cases hlow : i < start
  · rw [if_neg (by omega)]
    by_cases hin : i < image.length
    · rw [List.getElem?_append_left (by rw [List.length_take]; omega), List.getElem?_take_of_lt hlow]
    · rw [List.getElem?_append_right (by rw [List.length_take]; omega), List.length_take,
        List.getElem?_append_left (by rw [List.length_replicate]; omega),
        List.getElem?_replicate_of_lt (by omega), List.getElem?_eq_none (by omega)]
      rfl
  · rw [List.getElem?_append_right (by rw [List.length_take]; omega), List.length_take,
      List.getElem?_append_right (by rw [List.length_replicate]; omega), List.length_replicate]
    have hshift : i - min start image.length - (start - image.length) = i - start := by omega
    rw [hshift]
    by_cases hin : i < start + data.length
    · rw [if_pos ⟨by omega, hin⟩, List.getElem?_append_left (by omega)]
    · rw [if_neg (by omega), List.getElem?_append_right (by omega), List.getElem?_drop]
      congr 2
      omega

theorem read_slice (image : Bytes) (start : Nat) {length i : Nat} (h : i < length) :
    Bytes.read ((image.drop start).take length) i = image.read (start + i) := by
  simp only [read, List.getD_eq_getElem?_getD]
  rw [List.getElem?_take_of_lt h, List.getElem?_drop]

theorem eq_of_read {xs ys : Bytes} (h_length : xs.length = ys.length)
    (h_read : ∀ a < ys.length, xs.read a = ys.read a) : xs = ys := by
  refine List.ext_getElem h_length fun a h₁ h₂ => ?_
  have h := h_read a h₂
  simp only [Bytes.read, List.getD_eq_getElem?_getD] at h
  rwa [List.getElem?_eq_getElem h₁, List.getElem?_eq_getElem h₂] at h

end Bytes

end GroupCommit
