import GroupCommit.Image
import GroupCommit.Writer.Basic
import Mathlib.Data.List.Induction

/-!
# One call to a Writer after another

What a Writer answers to a list of calls and what it is afterwards. The calls describe a byte string by
themselves: it ends where the furthest of them ends, and each of its bytes is that of the last call over
it. Writing the calls one over the other, into a string that grows with zeros, gives just that string.

* `Writer.answers`, `Writer.after`: a Writer and a list of calls.
* `Request.described`: the byte string that calls describe.
* `Request.layered_eq_described`: it is what they give when they are written one over the other.
* `Image.content_layers`: an image that is written in this way has it as its content.
-/

namespace GroupCommit

/-- Bytes that a Writer is asked to write. -/
structure Request where
  address : Nat
  data : Bytes
  hint : Int32
  deriving DecidableEq

namespace Request

/-- The address behind the bytes. -/
def stop (r : Request) : Nat := r.address + r.data.length

/-- The bytes take up the address. -/
def Covers (r : Request) (a : Nat) : Prop := r.address ≤ a ∧ a < r.stop

instance (r : Request) (a : Nat) : Decidable (r.Covers a) := inferInstanceAs (Decidable (_ ∧ _))

/-- Two calls share no address. -/
def Disjoint (r s : Request) : Prop := ∀ a, r.Covers a → ¬ s.Covers a

/-- Being disjoint is symmetric. -/
theorem Disjoint.symm {r s : Request} (h : r.Disjoint s) : s.Disjoint r :=
  fun a h_s h_r => h a h_r h_s

/-- What a list of calls notes of a call. -/
def call (r : Request) : WriteCall := ⟨r.address, r.data.length, r.hint⟩

/-! ### The bytes that calls describe -/

/-- How far the calls reach. -/
def extent (rs : List Request) : Nat := (rs.map stop).foldr max 0

/-- The last call over an address. -/
def last? (rs : List Request) (a : Nat) : Option Request := rs.reverse.find? fun r => r.Covers a

/-- The byte at an address: that of the last call over it, zero if there is none. -/
def byteAt (rs : List Request) (a : Nat) : UInt8 :=
  match last? rs a with
  | some r => r.data.read (a - r.address)
  | none => 0

/-- The byte string that calls describe. -/
def described (rs : List Request) : Bytes := (List.range (extent rs)).map (byteAt rs)

/-- The calls, written one over the other. -/
def layered (rs : List Request) : Bytes := rs.foldl (fun bytes r => bytes.overwrite r.address r.data) []

theorem length_described (rs : List Request) : (described rs).length = extent rs := by
  rw [described, List.length_map, List.length_range]

/-- A description shows at each address what the last request there wrote. -/
theorem read_described {rs : List Request} {a : Nat} (h : a < extent rs) :
    (described rs).read a = byteAt rs a := by
  rw [Bytes.read, List.getD_eq_getElem?_getD, described, List.getElem?_map, List.getElem?_range h]
  rfl

theorem extent_concat (rs : List Request) (r : Request) :
    extent (rs ++ [r]) = max (extent rs) r.stop := by
  induction rs with
  | nil => exact Nat.max_comm r.stop 0
  | cons s rs ih =>
    have h_cons : ∀ ts, extent (s :: ts) = max s.stop (extent ts) := fun _ => rfl
    rw [List.cons_append, h_cons, h_cons, ih, Nat.max_assoc]

theorem byteAt_concat (rs : List Request) (r : Request) (a : Nat) :
    byteAt (rs ++ [r]) a = if r.Covers a then r.data.read (a - r.address) else byteAt rs a := by
  rw [byteAt, last?, List.reverse_append, List.reverse_singleton, List.singleton_append,
    List.find?_cons]
  by_cases h_covers : r.Covers a
  · simp only [h_covers, decide_true, if_true]
  · simp only [h_covers, decide_false, if_false]
    rfl

theorem layered_concat (rs : List Request) (r : Request) :
    layered (rs ++ [r]) = (layered rs).overwrite r.address r.data := by
  rw [layered, List.foldl_append]
  rfl

theorem length_layered (rs : List Request) : (layered rs).length = extent rs := by
  induction rs using List.reverseRecOn with
  | nil => rfl
  | append_singleton rs r ih =>
    rw [layered_concat, Bytes.length_overwrite, ih, extent_concat]
    rfl

/-- Beyond the end all bytes are zero, as the calls have it. -/
theorem read_layered (rs : List Request) (a : Nat) : (layered rs).read a = byteAt rs a := by
  induction rs using List.reverseRecOn with
  | nil => rfl
  | append_singleton rs r ih =>
    rw [layered_concat, Bytes.read_overwrite, ih, byteAt_concat]
    rfl

/-- **The last call over an address decides about its byte**, whatever the order of the calls and
however they overlap. -/
theorem layered_eq_described (rs : List Request) : layered rs = described rs := by
  have h_length : (layered rs).length = (described rs).length := by
    rw [length_layered, length_described]
  refine Bytes.eq_of_read h_length fun a ha => ?_
  rw [read_layered, read_described (length_described rs ▸ ha)]

end Request

/-! ### Images that are written call by call -/

namespace Image

/-- A write into an image is one into the byte string that it holds. -/
theorem content_write (image : Image) (start : Nat) (data : Bytes) :
    (image.write start data).content = image.content.overwrite start data := by
  have h_length : (image.write start data).content.length =
      (image.content.overwrite start data).length := by
    rw [length_content, size_write, Bytes.length_overwrite, length_content]
  refine Bytes.eq_of_read h_length fun a _ => ?_
  rw [read_content, read_write, Bytes.read_overwrite, read_content]

/-- An image has these bytes at an offset, all of them. -/
def Contains (image : Image) (offset : Nat) (data : Bytes) : Prop :=
  (image.content.drop offset).take data.length = data

/-- An image contains bytes that it shows one by one. -/
theorem contains_of_read {image : Image} {offset : Nat} {data : Bytes}
    (h_size : data ≠ [] → offset + data.length ≤ image.size)
    (h_read : ∀ k < data.length, image.read (offset + k) = data.read k) :
    image.Contains offset data := by
  by_cases h_data : data = []
  · rw [h_data, Contains, List.length_nil, List.take_zero]
  · refine Bytes.eq_of_read ?_ fun k hk => ?_
    · rw [List.length_take, List.length_drop, length_content]
      exact Nat.min_eq_left (Nat.le_sub_of_add_le' (h_size h_data))
    · rw [Bytes.read_slice _ _ hk, read_content, h_read k hk]

/-- An image with calls written one over the other. -/
def layers (image : Image) (rs : List Request) : Image :=
  rs.foldl (fun image r => image.write r.address r.data) image

/-- Layers over a blank image hold what the requests describe. -/
theorem content_layers (rs : List Request) : (blank.layers rs).content = Request.described rs := by
  rw [← Request.layered_eq_described]
  induction rs using List.reverseRecOn with
  | nil => rfl
  | append_singleton rs r ih =>
    rw [Request.layered_concat, ← ih, ← content_write, layers, List.foldl_append]
    rfl

end Image

/-! ### Writers -/

namespace Writer

variable {W : Type} [Writer W]

/-- The Writer after a call. -/
def asked (w : W) (r : Request) : W := (Writer.write w r.data r.address r.hint).2

/-- Whether a call succeeds, and what stops it. -/
def answer (w : W) (r : Request) : Except (Stop IoError) Unit :=
  (Writer.write w r.data r.address r.hint).1

/-- The Writer after calls, one after another. -/
def after (w : W) (rs : List Request) : W := rs.foldl asked w

/-- The answers to calls, one after another. -/
def answers (w : W) : List Request → List (Except (Stop IoError) Unit)
  | [] => []
  | r :: rs => answer w r :: answers (asked w r) rs

theorem after_append (w : W) (rs ts : List Request) : after w (rs ++ ts) = after (after w rs) ts :=
  List.foldl_append

theorem answers_append (w : W) (rs ts : List Request) :
    answers w (rs ++ ts) = answers w rs ++ answers (after w rs) ts := by
  induction rs generalizing w with
  | nil => rfl
  | cons r rs ih => exact congrArg (answer w r :: ·) (ih (asked w r))

/-- A request names the outcome of its write and the writer after it. -/
theorem asked_of_write {w w' : W} {r : Request} {outcome : Except (Stop IoError) Unit}
    (h : Writer.write w r.data r.address r.hint = (outcome, w')) :
    asked w r = w' ∧ answer w r = outcome := by
  rw [asked, answer, h]
  exact ⟨rfl, rfl⟩

end Writer

end GroupCommit
