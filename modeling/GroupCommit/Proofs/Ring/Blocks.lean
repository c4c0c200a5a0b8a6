import GroupCommit.Ring.Geometry
import Mathlib.Data.Nat.ModEq
import Mathlib.Order.Interval.Finset.Nat
import Mathlib.Tactic.Ring

/-!
# Blocks of the address space

The ring cuts the address space into blocks of one capacity each. A block is named by its tag, its
first address, which is a multiple of the capacity; it is served by the slot `Geometry.index`. This
module turns the shifts and masks of the ring into division and remainder and collects what the rest
of the theory says about blocks:

* `Geometry.offset_eq`, `Geometry.index_eq`, `Geometry.base_eq`: the masks as arithmetic.
* `Geometry.InBlock`, `InBlock.index_eq`, `InBlock.unique`: the addresses of a block share its slot,
  and lie in no other block.
* `Geometry.tag_separate`, `Geometry.gap_separate`, `Geometry.inBlock_or_gap_le`: two blocks are a
  capacity apart, and two blocks of one slot are a gap apart.
-/

namespace GroupCommit

namespace Geometry

variable (g : Geometry)

theorem capacity_pos : 0 < g.capacity := by
  obtain ⟨c, hc⟩ := g.capacity_pow
  rw [hc]
  exact Nat.two_pow_pos c

theorem ringSize_pos : 0 < g.ringSize := by
  obtain ⟨r, hr⟩ := g.ringSize_pow
  rw [hr]
  exact Nat.two_pow_pos r

/-- Geometries of the same sizes are the same. -/
theorem eq_of_sizes : ∀ {g g' : Geometry}, g.capacity = g'.capacity → g.ringSize = g'.ringSize → g = g'
  | ⟨_, _, _, _⟩, ⟨_, _, _, _⟩, rfl, rfl => rfl

/-! ### Masks as arithmetic -/

/-- The mask takes the remainder by the capacity. -/
theorem offset_eq (a : Nat) : g.offset a = a % g.capacity := by
  obtain ⟨c, hc⟩ := g.capacity_pow
  rw [offset, hc, Nat.and_two_pow_sub_one_eq_mod]

/-- The shift and the mask count blocks round the ring. -/
theorem index_eq (a : Nat) : g.index a = a / g.capacity % g.ringSize := by
  obtain ⟨c, hc⟩ := g.capacity_pow
  obtain ⟨r, hr⟩ := g.ringSize_pow
  rw [index, capacityBits, hc, hr, Nat.log2_two_pow, Nat.and_two_pow_sub_one_eq_mod,
    Nat.shiftRight_eq_div_pow]

/-- The mask of `base` keeps the bits from the capacity up to the width of a word. -/
theorem base_eq {a : Nat} (ha : a < Word.limit) (hC : g.capacity ≤ Word.limit) :
    g.base a = g.capacity * (a / g.capacity) := by
  obtain ⟨c, hc⟩ := g.capacity_pow
  have hlimit : Word.limit = 2 ^ 64 := by decide
  rw [hlimit] at ha hC
  have hmask : Word.limit - 1 - (g.capacity - 1) = 2 ^ 64 - (2 ^ c - 1 + 1) := by
    rw [hlimit, hc]
    omega
  rw [base, hmask, hc]
  have hc64 : c ≤ 64 := by
    rw [hc] at hC
    exact (Nat.pow_le_pow_iff_right (by decide)).1 hC
  have hpow : 2 ^ c ≤ 2 ^ 64 := Nat.pow_le_pow_right (by decide) hc64
  rw [show 2 ^ c * (a / 2 ^ c) = (a >>> c) <<< c by
    rw [Nat.shiftLeft_eq, Nat.shiftRight_eq_div_pow, Nat.mul_comm]]
  -- bit by bit: both sides are clear below the capacity, and have the bits of `a` above it
  apply Nat.eq_of_testBit_eq
  intro i
  have hpos : 0 < 2 ^ c := Nat.two_pow_pos c
  rw [Nat.testBit_and, Nat.testBit_two_pow_sub_succ (by omega), Nat.testBit_shiftLeft,
    Nat.testBit_two_pow_sub_one]
  by_cases hi : c ≤ i
  · rw [Nat.testBit_shiftRight, Nat.add_sub_cancel' hi]
    by_cases h64 : i < 64
    · simp [hi, h64]
    · -- beyond the width of a word the address has no bits
      have : a.testBit i = false :=
        Nat.testBit_lt_two_pow (lt_of_lt_of_le ha (Nat.pow_le_pow_right (by decide) (by omega)))
      simp [this]
  · simp [hi, show i < c by omega]

/-! ### Blocks -/

/-- The address `a` lies in the block with this tag. -/
def InBlock (tag a : Nat) : Prop := tag ≤ a ∧ a < tag + g.capacity

instance (tag a : Nat) : Decidable (g.InBlock tag a) := inferInstanceAs (Decidable (_ ∧ _))

variable {g} {t t' a k : Nat}

/-- A block begins with its own tag. -/
theorem inBlock_self (t : Nat) : g.InBlock t t :=
  ⟨le_rfl, by have := g.capacity_pos; omega⟩

/-- Every address is in the block of its base. -/
theorem inBlock_base (g : Geometry) (a : Nat) : g.InBlock (g.capacity * (a / g.capacity)) a := by
  have h_mod := Nat.mod_lt a g.capacity_pos
  have h_div := Nat.div_add_mod a g.capacity
  exact ⟨by omega, by omega⟩

/-- The addresses of a block have its number. -/
theorem InBlock.div_eq (h : g.InBlock t a) (ht : g.capacity ∣ t) :
    a / g.capacity = t / g.capacity := by
  obtain ⟨q, rfl⟩ := ht
  rw [Nat.mul_div_cancel_left q g.capacity_pos]
  refine Nat.div_eq_of_lt_le ?_ ?_
  · rw [Nat.mul_comm]; exact h.1
  · rw [Nat.succ_mul, Nat.mul_comm]; exact h.2

/-- The addresses of a block belong to its slot. -/
theorem InBlock.index_eq (h : g.InBlock t a) (ht : g.capacity ∣ t) : g.index a = g.index t := by
  rw [Geometry.index_eq, Geometry.index_eq, h.div_eq ht]

/-- An address is in one block. -/
theorem InBlock.unique (h : g.InBlock t a) (h' : g.InBlock t' a) (ht : g.capacity ∣ t)
    (ht' : g.capacity ∣ t') : t = t' :=
  calc t = t / g.capacity * g.capacity := (Nat.div_mul_cancel ht).symm
    _ = a / g.capacity * g.capacity := by rw [h.div_eq ht]
    _ = t' / g.capacity * g.capacity := by rw [h'.div_eq ht']
    _ = t' := Nat.div_mul_cancel ht'

theorem index_lt (a : Nat) : g.index a < g.ringSize := by
  rw [index_eq]
  exact Nat.mod_lt _ g.ringSize_pos

/-- The tags of different blocks are a capacity apart. -/
theorem tag_separate (ht : g.capacity ∣ t) (ht' : g.capacity ∣ t') (h : t < t') :
    t + g.capacity ≤ t' := by
  obtain ⟨q, rfl⟩ := ht
  obtain ⟨q', rfl⟩ := ht'
  have hq : q + 1 ≤ q' := Nat.lt_of_mul_lt_mul_left h
  calc g.capacity * q + g.capacity = g.capacity * (q + 1) := by ring
    _ ≤ g.capacity * q' := Nat.mul_le_mul_left _ hq

/-- The next generation of a slot is a block as well. -/
theorem dvd_add_gap (ht : g.capacity ∣ t) : g.capacity ∣ t + g.capacity * g.ringSize :=
  (Nat.dvd_add_right ht).2 (Nat.dvd_mul_right _ _)

/-- The next generation is that of the same slot. -/
theorem index_add_gap (t : Nat) : g.index (t + g.capacity * g.ringSize) = g.index t := by
  rw [index_eq, index_eq, Nat.add_mul_div_left _ _ g.capacity_pos, Nat.add_mod_right]

/-- The generations of a slot are a ring apart. -/
theorem gap_separate (ht : g.capacity ∣ t) (ht' : g.capacity ∣ t') (hk : g.index t = g.index t')
    (h : t < t') : t + g.capacity * g.ringSize ≤ t' := by
  obtain ⟨q, rfl⟩ := ht
  obtain ⟨q', rfl⟩ := ht'
  have hq : q < q' := Nat.lt_of_mul_lt_mul_left h
  rw [index_eq, index_eq, Nat.mul_div_cancel_left q g.capacity_pos,
    Nat.mul_div_cancel_left q' g.capacity_pos] at hk
  -- the numbers of the blocks differ by a multiple of the ring size
  have hdvd : g.ringSize ∣ q' - q := (Nat.modEq_iff_dvd' hq.le).1 hk
  have hle : q + g.ringSize ≤ q' := by
    have := Nat.le_of_dvd (by omega) hdvd
    omega
  calc g.capacity * q + g.capacity * g.ringSize = g.capacity * (q + g.ringSize) := by ring
    _ ≤ g.capacity * q' := Nat.mul_le_mul_left _ hle

/-- An address of a slot that is not below a block of it lies in that block, or a gap further on. -/
theorem inBlock_or_gap_le (ht : g.capacity ∣ t) (hk : g.index a = g.index t) (h : t ≤ a) :
    g.InBlock t a ∨ t + g.capacity * g.ringSize ≤ a := by
  obtain ⟨h_base_le, h_lt_base⟩ := g.inBlock_base a
  have h_dvd : g.capacity ∣ g.capacity * (a / g.capacity) := Nat.dvd_mul_right _ _
  have h_index : g.index t = g.index (g.capacity * (a / g.capacity)) := by
    rw [← hk, (g.inBlock_base a).index_eq h_dvd]
  -- the block of `a` is served by the same slot, so it is the block `t` or a gap away from it
  rcases Nat.lt_trichotomy (g.capacity * (a / g.capacity)) t with h_lt | h_eq | h_gt
  · have := tag_separate h_dvd ht h_lt
    omega
  · exact .inl (h_eq ▸ g.inBlock_base a)
  · exact .inr ((gap_separate ht h_dvd h_index h_gt).trans h_base_le)

/-- The blocks of a slot, as its first block and everything a number of gaps further on. -/
theorem modEq_iff (hk : k < g.ringSize) :
    t ≡ k * g.capacity [MOD g.capacity * g.ringSize] ↔ g.capacity ∣ t ∧ g.index t = k := by
  -- multiples of the capacity are compared by the numbers of their blocks
  have h_mod : ∀ q, g.capacity * q ≡ k * g.capacity [MOD g.capacity * g.ringSize] ↔
      q % g.ringSize = k := by
    intro q
    rw [Nat.mul_comm k, Nat.ModEq, Nat.mul_mod_mul_left, Nat.mul_mod_mul_left, Nat.mod_eq_of_lt hk]
    exact Nat.mul_right_inj g.capacity_pos.ne'
  constructor
  · intro h
    have h_dvd : g.capacity ∣ t := (h.dvd_iff (Nat.dvd_mul_right _ _)).2 (Nat.dvd_mul_left _ _)
    obtain ⟨q, rfl⟩ := h_dvd
    refine ⟨Nat.dvd_mul_right _ _, ?_⟩
    rw [index_eq, Nat.mul_div_cancel_left q g.capacity_pos]
    exact (h_mod q).1 h
  · rintro ⟨⟨q, rfl⟩, h_index⟩
    rw [index_eq, Nat.mul_div_cancel_left q g.capacity_pos] at h_index
    exact (h_mod q).2 h_index

/-- The first blocks belong to the slots in order. -/
theorem index_first (hk : k < g.ringSize) : g.index (k * g.capacity) = k := by
  rw [index_eq, Nat.mul_div_cancel k g.capacity_pos, Nat.mod_eq_of_lt hk]

end Geometry

end GroupCommit
