import GroupCommit.Proofs.Construction
import GroupCommit.Proofs.Slot.Retirements

/-!
# Folding the address space

The ring keeps no table of which address is in which generation of which slot. An address is taken apart
with shifts and masks, and each slot counts its generations for itself, one gap further whenever one is
retired. The two agree: an address is made up of a number of gaps, a slot and an offset, in one way only,
and it is in its slot when so many generations of that slot have been retired.

* `Geometry.parts_unique`: the parts of an address.
* `Geometry.base_eq_generation`: the generation of an address, as one of its slot.
* `Geometry.same_block_iff`: when two addresses are in the same generation of the same slot.
* `Geometry.Folds`, `Geometry.folding_exact`: all of it, for every geometry and every address.
-/

namespace GroupCommit

namespace Geometry

variable {g : Geometry} {a b : ℕ}

/-! ### The parts of an address -/

/-- What a whole round of the ring holds. -/
def round (g : Geometry) : ℕ := g.capacity * g.ringSize

theorem round_pos (g : Geometry) : 0 < g.round := Nat.mul_pos g.capacity_pos g.ringSize_pos

/-- The slot for an address, in its first generation. -/
def home (g : Geometry) (a : ℕ) : Slot := Log.firstSlot g (g.index a)

/-- The generations of a slot begin one round after the other. -/
theorem home_generation (g : Geometry) (a n : ℕ) :
    (g.home a).generation n = g.capacity * g.index a + g.round * n := by
  rw [Nat.mul_comm g.capacity]
  rfl

/-- An address is its round, the place of its slot and its offset. -/
theorem eq_parts (g : Geometry) (a : ℕ) :
    a = g.round * (a / g.round) + g.capacity * g.index a + g.offset a := by
  have h_block := Nat.div_add_mod a g.capacity
  have h_slot := Nat.div_add_mod (a / g.capacity) g.ringSize
  rw [index_eq, offset_eq, round, ← Nat.div_div_eq_div_mul]
  calc a = g.capacity * (a / g.capacity) + a % g.capacity := h_block.symm
    _ = g.capacity * (g.ringSize * (a / g.capacity / g.ringSize) + a / g.capacity % g.ringSize) +
        a % g.capacity := by rw [h_slot]
    _ = g.capacity * g.ringSize * (a / g.capacity / g.ringSize) +
        g.capacity * (a / g.capacity % g.ringSize) + a % g.capacity := by ring

/-- **An address has its parts in one way only.** -/
theorem parts_unique {q i o : ℕ} (hi : i < g.ringSize) (ho : o < g.capacity)
    (h : a = g.round * q + g.capacity * i + o) :
    q = a / g.round ∧ i = g.index a ∧ o = g.offset a := by
  have h_block : o + g.capacity * (i + g.ringSize * q) = a := by
    rw [h, round]
    ring
  obtain ⟨h_div, h_mod⟩ := (Nat.div_mod_unique g.capacity_pos).2 ⟨h_block, ho⟩
  obtain ⟨h_round, h_index⟩ := (Nat.div_mod_unique g.ringSize_pos).2 ⟨h_div.symm, hi⟩
  rw [round, ← Nat.div_div_eq_div_mul, index_eq, offset_eq]
  exact ⟨h_round.symm, h_index.symm, h_mod.symm⟩

theorem offset_lt (g : Geometry) (a : ℕ) : g.offset a < g.capacity := by
  rw [offset_eq]
  exact Nat.mod_lt a g.capacity_pos

/-- The generation of an address begins below it, by its offset. -/
theorem base_add_offset (h_gap : g.round < Word.limit) (ha : a < Word.limit) :
    g.base a + g.offset a = a := by
  have h_le : g.capacity ≤ Word.limit := (Nat.le_mul_of_pos_right _ g.ringSize_pos).trans h_gap.le
  rw [base_eq g ha h_le, offset_eq, Nat.div_add_mod]

/-- The generation of an address is one of those of its slot. -/
theorem base_eq_generation (h_gap : g.round < Word.limit) (ha : a < Word.limit) :
    g.base a = (g.home a).generation (a / g.round) := by
  have h_base := base_add_offset h_gap ha
  have h_parts := g.eq_parts a
  rw [home_generation]
  omega

/-- **Two addresses are in the same generation of the same slot** exactly if they are in the same block. -/
theorem same_block_iff (h_gap : g.round < Word.limit) (ha : a < Word.limit) (hb : b < Word.limit) :
    (g.index a = g.index b ∧ g.base a = g.base b) ↔ a / g.capacity = b / g.capacity := by
  have h_le : g.capacity ≤ Word.limit := (Nat.le_mul_of_pos_right _ g.ringSize_pos).trans h_gap.le
  rw [base_eq g ha h_le, base_eq g hb h_le]
  constructor
  · exact fun h => Nat.eq_of_mul_eq_mul_left g.capacity_pos h.2
  · intro h
    rw [index_eq, index_eq, h]
    exact ⟨rfl, rfl⟩

/-! ### The ring -/

/-- A ring can be made iff its buffers can be had. -/
theorem ring_created_iff (h_gap : g.round < Word.limit) :
    (∃ ring, Ring.create g.capacity g.ringSize = .ok ring) ↔ g.Roomy := by
  constructor
  · rintro ⟨ring, h_create⟩
    by_contra h_not
    cases h_create.symm.trans (Log.ring_create_of_not_roomy h_not)
  · exact fun h_room => ⟨_, Log.ring_create_of_fits h_room h_gap⟩

/-- The slots of a ring are in their first generations. -/
theorem slot_of_created (h_gap : g.round < Word.limit) {ring : Ring}
    (h : Ring.create g.capacity g.ringSize = .ok ring) (a : ℕ) :
    ring.slot? (g.index a) = .ok (g.home a) := by
  have h_room := (ring_created_iff h_gap).1 ⟨ring, h⟩
  cases h.symm.trans (Log.ring_create_of_fits h_room h_gap)
  have h_at : ((List.range g.ringSize).map (Log.firstSlot g))[g.index a]? =
      some (g.home a) := by
    rw [List.getElem?_map, List.getElem?_range (index_lt a)]
    rfl
  rw [Ring.slot?, h_at]

/-! ### Folding -/

/-- How an address is folded onto the ring. -/
structure Folds (g : Geometry) (a : ℕ) : Prop where
  /-- The gap is a round of the ring. -/
  gap : g.gap = .ok g.round
  /-- The address is made up of its parts, -/
  parts : a = g.round * (a / g.round) + g.capacity * g.index a + g.offset a
  index_lt : g.index a < g.ringSize
  offset_lt : g.offset a < g.capacity
  /-- and of no others. -/
  unique : ∀ q i o, i < g.ringSize → o < g.capacity → a = g.round * q + g.capacity * i + o →
    q = a / g.round ∧ i = g.index a ∧ o = g.offset a
  /-- The generation begins below the address, by its offset. -/
  base : g.base a = a - g.offset a
  offset_le : g.offset a ≤ a
  /-- If there is memory for a ring, its slot for the address is the one in its first generation. -/
  created : (∃ ring, Ring.create g.capacity g.ringSize = .ok ring) ↔ g.Roomy
  slot : ∀ ring, Ring.create g.capacity g.ringSize = .ok ring →
    ring.slot? (g.index a) = .ok (g.home a)
  /-- Whatever calls are made on that slot, each retirement takes it one gap further. So it is at the
  generation of the address exactly after as many of them as there are gaps in the address. -/
  retired : ∀ es m, (Machine.idle (g.home a)).steps Slot.program es = some m →
    m.state.tag = g.capacity * g.index a +
        g.round * (g.home a).retirements es m.state ∧
      (m.state.tag = g.base a ↔
        (g.home a).retirements es m.state = a / g.round)
  /-- If no call faulted, what was retired until then are the generations before it, each of them once. -/
  once : ∀ es m, (Machine.idle (g.home a)).steps Slot.program es = some m →
    ¬ Slot.Faulted m → ¬ m.state.Stopped → m.state.tag = g.base a →
    ((g.home a).endedIn es).Perm
      ((List.range (a / g.round)).map (fun k => g.capacity * g.index a + g.round * k) ++
        m.state.skipped)
  /-- And the slot can get there. -/
  reached : ∃ es m, (Machine.idle (g.home a)).steps Slot.program es = some m ∧
    ¬ Slot.Faulted m ∧ ¬ m.state.Stopped ∧ m.state.tag = g.base a
  /-- The slot and the generation are those of another address exactly if it is in the same block. -/
  same_block : ∀ b < Word.limit,
    (g.index a = g.index b ∧ g.base a = g.base b) ↔ a / g.capacity = b / g.capacity

/-- **Folding is exact**, for every geometry whose gap fits in a word, and every address. -/
theorem folding_exact (g : Geometry) (h_gap : g.capacity * g.ringSize < Word.limit)
    (ha : a < Word.limit) : g.Folds a where
  gap := Word.mul_eq_ok.2 ⟨h_gap, rfl⟩
  parts := g.eq_parts a
  index_lt := Geometry.index_lt a
  offset_lt := g.offset_lt a
  unique q i o hi ho h := parts_unique hi ho h
  base := Nat.eq_sub_of_add_eq (base_add_offset h_gap ha)
  offset_le := by
    have h_base := base_add_offset h_gap ha
    omega
  created := ring_created_iff h_gap
  slot ring h := slot_of_created h_gap h a
  -- the slot of the address is `home a`, and its generations are whole rounds apart
  retired es m h_steps := by
    have h_tag := Slot.tag_eq_retirements h_steps rfl g.round_pos
    refine ⟨h_tag.trans (g.home_generation a _), ?_⟩
    rw [base_eq_generation h_gap ha, h_tag]
    exact (Slot.generation_injective (s := g.home a) g.round_pos).eq_iff
  once es m h_steps h_sound h_live h_there := by
    have h_perm := Slot.endedIn_perm h_steps rfl g.round_pos h_sound h_live
    have h_tag := Slot.tag_eq_retirements h_steps rfl g.round_pos
    rw [h_there, base_eq_generation h_gap ha] at h_tag
    have h_same : (g.home a).generation = fun k => g.capacity * g.index a + g.round * k :=
      funext (g.home_generation a)
    rw [← Slot.generation_injective g.round_pos h_tag, h_same] at h_perm
    exact h_perm
  reached := by
    -- the generations before are skipped, one after another
    rw [base_eq_generation h_gap ha]
    refine Slot.exists_reach rfl rfl (Nat.zero_le _) rfl g.round_pos ?_
    rw [← base_eq_generation h_gap ha]
    have h_base := base_add_offset h_gap ha
    omega
  same_block b hb := same_block_iff h_gap ha hb

/-- Four slots of 64 bytes: an address of the second slot, in the second generation of it. -/
theorem folding_exact_secondRound :
    let g : Geometry := ⟨64, 4, by decide, by decide⟩
    g.capacity * g.ringSize < Word.limit ∧ 356 < Word.limit ∧ g.index 356 = 1 ∧ g.base 356 = 320 ∧
      g.offset 356 = 36 ∧ 356 / g.round = 1 ∧ g.Folds 356 := by
  intro g
  have h_gap : g.capacity * g.ringSize < Word.limit := by decide
  have h_word : 356 < Word.limit := by decide
  exact ⟨h_gap, h_word, by decide, by decide, by decide, by decide, folding_exact g h_gap h_word⟩

end Geometry

end GroupCommit
