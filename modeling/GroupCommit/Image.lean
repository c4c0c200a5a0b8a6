import GroupCommit.Bytes

/-!
# Images

What a medium holds, told by the writes that made it: its size and the writes, the last one first. A
position that no write has reached is zero, so an image can be far larger than the bytes written to
it, and nothing but those bytes is kept. `Image.read` is the byte at a position, `Image.window` those
of a range and `Image.content` all of them.

* `Image.read_write`, `Image.size_write`: a write puts its bytes in place and lets the image grow to its
  end.
* `Image.length_content`, `Image.read_content`: the content has the size of the image and the byte of
  the image at each position.
* `Image.length_window`, `Image.read_window`: the same of a window, which may lie beyond the end.
-/

namespace GroupCommit

/-- Bytes and the place they are written to. -/
structure Patch where
  start : Nat
  data : Bytes
  deriving DecidableEq, Repr

/-- The place behind the last byte. -/
def Patch.stop (p : Patch) : Nat := p.start + p.data.length

/-- The bytes of a medium. -/
structure Image where
  /-- How far the writes reach. -/
  size : Nat
  /-- The writes, the last one first. -/
  patches : List Patch
  /-- None of them reaches further. -/
  within : ∀ p ∈ patches, p.stop ≤ size
  deriving DecidableEq, Repr

namespace Image

/-- A medium without any bytes. -/
def blank : Image := ⟨0, [], fun _ h => nomatch h⟩

/-- `data` written at `start`, over what was there below. -/
def write (below : Image) (start : Nat) (data : Bytes) : Image where
  size := max below.size (start + data.length)
  patches := ⟨start, data⟩ :: below.patches
  within := by
    intro p hp
    cases List.mem_cons.1 hp with
    | inl h => rw [h]; exact Nat.le_max_right _ _
    | inr h => exact Nat.le_trans (below.within p h) (Nat.le_max_left _ _)

/-- The image of a medium that was given its bytes at once. -/
def ofBytes (data : Bytes) : Image := blank.write 0 data

/-- The byte at a position after some writes: that of the last one over it, zero if there is none. -/
def readPatches : List Patch → Nat → UInt8
  | [], _ => 0
  | p :: rest, i =>
    if p.start ≤ i ∧ i < p.stop then Bytes.read p.data (i - p.start) else readPatches rest i

/-- The byte at a position. -/
def read (image : Image) (i : Nat) : UInt8 := readPatches image.patches i

/-- The `length` bytes from `start` on after some writes. Of each write only the part that lies in
there is looked at. -/
def windowPatches (start length : Nat) : List Patch → Bytes
  | [] => Bytes.zeros length
  | p :: rest =>
    if p.start < start + length ∧ start < p.stop then
      (windowPatches start length rest).overwrite (p.start - start)
        ((p.data.drop (start - p.start)).take (start + length - max p.start start))
    else windowPatches start length rest

/-- The `length` bytes from `start` on. -/
def window (image : Image) (start length : Nat) : Bytes :=
  windowPatches start length image.patches

/-- The whole image as a byte string. -/
def content (image : Image) : Bytes := image.window 0 image.size

theorem size_write (below : Image) (start : Nat) (data : Bytes) :
    (below.write start data).size = max below.size (start + data.length) := rfl

theorem read_blank (i : Nat) : blank.read i = 0 := rfl

theorem read_write (below : Image) (start : Nat) (data : Bytes) (i : Nat) :
    (below.write start data).read i =
      if start ≤ i ∧ i < start + data.length then Bytes.read data (i - start)
      else below.read i := rfl

theorem read_of_size_le (image : Image) {i : Nat} (h : image.size ≤ i) : image.read i = 0 := by
  have hwithin := image.within
  rw [read]
  generalize image.patches = patches at hwithin
  induction patches with
  | nil => rfl
  | cons p rest ih =>
    have hp := hwithin p List.mem_cons_self
    rw [readPatches, if_neg (by omega)]
    exact ih fun q hq => hwithin q (List.mem_cons_of_mem p hq)

theorem length_window (image : Image) (start length : Nat) :
    (image.window start length).length = length := by
  rw [window]
  induction image.patches with
  | nil => exact List.length_replicate
  | cons p rest ih =>
    rw [windowPatches]
    split
    · rename_i h
      rw [Patch.stop] at h
      rw [Bytes.length_overwrite, ih, List.length_take, List.length_drop]
      omega
    · exact ih

theorem read_window (image : Image) (start : Nat) {length i : Nat} (h : i < length) :
    (image.window start length).read i = image.read (start + i) := by
  rw [window, read]
  induction image.patches with
  | nil =>
    simp only [windowPatches, readPatches, Bytes.zeros, Bytes.read, List.getD_eq_getElem?_getD]
    rw [List.getElem?_replicate_of_lt h]
    rfl
  | cons p rest ih =>
    rw [windowPatches, readPatches, Patch.stop]
    split
    · rw [Bytes.read_overwrite, List.length_take, List.length_drop, ih]
      by_cases hcover : p.start ≤ start + i ∧ start + i < p.start + p.data.length
      · rw [if_pos hcover, if_pos (by omega)]
        simp only [Bytes.read, List.getD_eq_getElem?_getD]
        rw [List.getElem?_take_of_lt (by omega), List.getElem?_drop]
        congr 2
        omega
      · rw [if_neg hcover, if_neg (by omega)]
    · rw [ih, if_neg (by omega)]

theorem length_content (image : Image) : image.content.length = image.size :=
  image.length_window 0 image.size

theorem read_content (image : Image) (i : Nat) : image.content.read i = image.read i := by
  by_cases h : i < image.size
  · rw [content, image.read_window 0 h, Nat.zero_add]
  · rw [image.read_of_size_le (Nat.le_of_not_lt h), Bytes.read, List.getD_eq_getElem?_getD,
      List.getElem?_eq_none (by rw [length_content]; omega)]
    rfl

end Image

end GroupCommit
