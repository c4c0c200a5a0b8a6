import GroupCommit.Bytes

/-!
# Little-endian numbers

A number as a fixed count of bytes, the least significant first. Writing keeps what fits in them, and
reading gives it back. `LittleEndian.next` reads numbers one after another.

* `LittleEndian.decode_encode`, `LittleEndian.encode_decode`: both ways round.
* `LittleEndian.next_encode_append`: what is read from bytes that begin with a number.
-/

namespace GroupCommit.LittleEndian

/-- The `width` low bytes of `n`, the least significant first. -/
def encode : Nat → Nat → Bytes
  | 0, _ => []
  | width + 1, n => UInt8.ofNat n :: encode width (n / 256)

/-- The number that a byte string spells, the least significant byte first. -/
def decode : Bytes → Nat
  | [] => 0
  | b :: rest => b.toNat + 256 * decode rest

/-- How many numbers fit in `width` bytes. -/
def bound : Nat → Nat
  | 0 => 1
  | width + 1 => 256 * bound width

/-- Reads a number of `width` bytes from the front of a byte string and gives what follows it as well, a
fault when there are fewer bytes. -/
def next (width : Nat) (bytes : Bytes) : Except Fault (Nat × Bytes) :=
  let front := bytes.take width
  if front.length < width then .error (.rangeEnd width bytes.length)
  else .ok (decode front, bytes.drop width)

@[simp] theorem length_encode (width n : Nat) : (encode width n).length = width := by
  induction width generalizing n with
  | zero => rfl
  | succ width ih => simp [encode, ih]

theorem decode_encode (width n : Nat) : decode (encode width n) = n % bound width := by
  induction width generalizing n with
  | zero => simp [encode, decode, bound, Nat.mod_one]
  | succ width ih =>
    rw [encode, decode, ih, bound, Nat.mod_mul]
    simp

theorem encode_decode (bs : Bytes) : encode bs.length (decode bs) = bs := by
  induction bs with
  | nil => rfl
  | cons b bs ih =>
    have hlow : UInt8.ofNat (b.toNat + 256 * decode bs) = b := by
      apply UInt8.toNat_inj.1
      simp
    have hhigh : (b.toNat + 256 * decode bs) / 256 = decode bs := by
      have := b.toNat_lt
      omega
    rw [List.length_cons, decode, encode, hlow, hhigh, ih]

/-! ### Words -/

theorem decode_lt_bound (bs : Bytes) : decode bs < bound bs.length := by
  induction bs with
  | nil => exact Nat.one_pos
  | cons b bs ih =>
    have := b.toNat_lt
    rw [List.length_cons, decode, bound]
    omega

/-- Eight bytes are those of the word that they spell. -/
theorem encode_uInt64 {bs : Bytes} (h : bs.length = 8) :
    encode 8 (UInt64.ofNat (decode bs)).toNat = bs := by
  have hlt : decode bs < bound 8 := h ▸ decode_lt_bound bs
  have hback : encode 8 (decode bs) = bs := h ▸ encode_decode bs
  rw [UInt64.toNat_ofNat_of_lt' hlt, hback]

/-- Four bytes are those of the word that they spell. -/
theorem encode_uInt32 {bs : Bytes} (h : bs.length = 4) :
    encode 4 (UInt32.ofNat (decode bs)).toNat = bs := by
  have hlt : decode bs < bound 4 := h ▸ decode_lt_bound bs
  have hback : encode 4 (decode bs) = bs := h ▸ encode_decode bs
  rw [UInt32.toNat_ofNat_of_lt' hlt, hback]

theorem uInt64_mod_bound (x : UInt64) : UInt64.ofNat (x.toNat % bound 8) = x := by
  have hlt : x.toNat < bound 8 := x.toNat_lt
  rw [Nat.mod_eq_of_lt hlt, UInt64.ofNat_toNat]

/-! ### Reading one after another -/

/-- Bytes that begin with a number are read as that number and the bytes behind it. -/
@[simp] theorem next_encode_append (width n : Nat) (rest : Bytes) :
    next width (encode width n ++ rest) = .ok (n % bound width, rest) := by
  have hfront : (encode width n ++ rest).take width = encode width n :=
    List.take_left' (length_encode width n)
  rw [next, hfront, if_neg (by rw [length_encode]; exact Nat.lt_irrefl width), decode_encode,
    List.drop_left' (length_encode width n)]

end GroupCommit.LittleEndian
