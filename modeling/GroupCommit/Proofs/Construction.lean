import GroupCommit.Proofs.Log.Run

/-!
# Making a log

A log is made from a configuration in three steps: the configuration is checked, the table of the slots
is made, and then one slot after another with its buffer. The check looks at each number by itself, and
the steps after it multiply them. So a valid configuration is enough for everything that depends on one
of its numbers, and the sizes that are products have to fit on top of that.

* `Config.validate_eq_ok`: what the check asks for.
* `Config.Roomy`: the memory that the slots need is of a size that memory can have.
* `ring_create_of_fits`, `ring_create_of_not_roomy`, `ring_create_of_limit_le`: what becomes of the slots.
* `Log.create_outcomes`: how making a log ends, for every configuration.
* `Log.valid_config_faults`: valid configurations for which it ends in a fault.
-/

namespace GroupCommit

/-! ### The check -/

/-- **What the check of a configuration asks for**, one number at a time. -/
theorem Config.validate_eq_ok {c : Config} : c.validate = .ok () ↔
    c.slotCapacity.isPowerOfTwo ∧ chunksPerSlot ≤ c.slotCapacity ∧ c.ringSize.isPowerOfTwo ∧
      0 < c.waitTimeout := by
  rw [validate]
  -- the refusals, in the order in which they are looked for: each case assumes that those before it
  -- did not apply
  split
  next h_capacity => simp only [reduceCtorEq, false_iff]; grind
  next h_capacity =>
    split
    next h_ring => simp only [reduceCtorEq, false_iff]; grind
    next h_ring =>
      split
      next h_wait => simp only [reduceCtorEq, false_iff]; grind
      next h_wait => simp only [true_iff]; grind

/-- A geometry is made again from its sizes. -/
theorem Geometry.ofSizes_eq (g : Geometry) : ofSizes g.capacity g.ringSize = .ok g := by
  rw [ofSizes, dif_pos g.capacity_pow, dif_pos g.ringSize_pow]

/-- A valid configuration has a geometry. -/
theorem Config.exists_geometry {c : Config} (h : c.validate = .ok ()) :
    ∃ g : Geometry, g.capacity = c.slotCapacity ∧ g.ringSize = c.ringSize ∧
      Geometry.ofSizes c.slotCapacity c.ringSize = .ok g := by
  obtain ⟨h_capacity, -, h_ring, -⟩ := validate_eq_ok.1 h
  exact ⟨⟨_, _, h_capacity, h_ring⟩, rfl, rfl, Geometry.ofSizes_eq ⟨_, _, h_capacity, h_ring⟩⟩

/-- Records can be padded as any configuration says, a valid one or not. -/
theorem Config.ofSizes_recordFormat (c : Config) :
    Record.Format.ofSizes c.minWriteSize c.chunkSize = .ok c.recordFormat := by
  have h_pos : 0 < c.chunkSize := Nat.le_max_right _ _
  rw [Record.Format.ofSizes, dif_pos h_pos]
  rfl

/-- The table of the slots and the buffer of a slot are of sizes that memory can have. -/
def Config.Roomy (c : Config) : Prop :=
  c.ringSize * Ring.slotSize < Word.allocationLimit ∧ c.slotCapacity < Word.allocationLimit

instance (c : Config) : Decidable c.Roomy := inferInstanceAs (Decidable (_ ∧ _))

/-- The same, asked of a geometry. -/
def Geometry.Roomy (g : Geometry) : Prop :=
  g.ringSize * Ring.slotSize < Word.allocationLimit ∧ g.capacity < Word.allocationLimit

/-- Whether the buffers can be had depends on the sizes only. -/
theorem Config.roomy_iff {c : Config} {g : Geometry} (h_capacity : g.capacity = c.slotCapacity)
    (h_ring : g.ringSize = c.ringSize) : c.Roomy ↔ g.Roomy := by
  rw [Roomy, Geometry.Roomy, h_capacity, h_ring]

namespace Log

variable {W : Type} {g : Geometry}

/-! ### The slots -/

/-- The first address of a slot fits in a word if those of a whole generation do. -/
theorem tag_lt (h_gap : g.capacity * g.ringSize < Word.limit) {index : ℕ} (h : index < g.ringSize) :
    index * g.capacity < Word.limit :=
  calc
    index * g.capacity ≤ g.ringSize * g.capacity := Nat.mul_le_mul_right _ h.le
    _ = g.capacity * g.ringSize := Nat.mul_comm _ _
    _ < Word.limit := h_gap

/-- The first slot begins at the first address, however large it is. -/
theorem tag_first (g : Geometry) : Word.mul 0 g.capacity = .ok (0 * g.capacity) :=
  Word.mul_eq_ok.2 ⟨by rw [Nat.zero_mul]; decide, rfl⟩

/-- A slot is made as empty if its buffer can be had and a ring of them fits the address space. -/
theorem slot_create_of_fits (h_buffer : g.capacity < Word.allocationLimit)
    (h_gap : g.capacity * g.ringSize < Word.limit) {index : ℕ} (h : index < g.ringSize) :
    Slot.create index g.capacity g.ringSize = .ok (firstSlot g index) := by
  rw [Slot.create, Word.mul_eq_ok.2 ⟨tag_lt h_gap h, rfl⟩, Word.allocate_eq_ok.2 h_buffer,
    Word.mul_eq_ok.2 ⟨h_gap, rfl⟩]
  rfl

/-- **The slots are made** if the buffers and the products fit. -/
theorem createSlots_of_fits (h_buffer : g.capacity < Word.allocationLimit)
    (h_gap : g.capacity * g.ringSize < Word.limit) :
    ∀ count index, index + count ≤ g.ringSize →
      Ring.createSlots g.capacity g.ringSize index count =
        .ok ((List.range' index count).map (firstSlot g))
  | 0, _, _ => rfl
  -- the slots from the next one on are all of the same sizes, so it is enough to have made this one
  | count + 1, index, h => by
    have h_rest := createSlots_of_fits h_buffer h_gap count (index + 1) (by omega)
    rw [Ring.createSlots, slot_create_of_fits h_buffer h_gap (by omega), h_rest]
    rfl

/-- The ring of a geometry, once the table of its slots has been asked for. -/
theorem ring_create_eq (g : Geometry) :
    Ring.create g.capacity g.ringSize = (Word.allocate (g.ringSize * Ring.slotSize) >>= fun _ =>
      Ring.createSlots g.capacity g.ringSize 0 g.ringSize >>= fun slots => .ok ⟨g, slots, false⟩) := by
  rw [Ring.create, Geometry.ofSizes_eq]
  rfl

/-- A ring is made with all slots empty under the same conditions. -/
theorem ring_create_of_fits (h_room : g.Roomy) (h_gap : g.capacity * g.ringSize < Word.limit) :
    Ring.create g.capacity g.ringSize =
      .ok ⟨g, (List.range g.ringSize).map (firstSlot g), false⟩ := by
  have h_slots := createSlots_of_fits h_room.2 h_gap g.ringSize 0 (by omega)
  rw [ring_create_eq, Word.allocate_eq_ok.2 h_room.1, h_slots, List.range_eq_range']
  rfl

/-- There is a first slot, and what stops its making stops that of all. -/
theorem createSlots_of_first_fault {broken : Fault}
    (h : Slot.create 0 g.capacity g.ringSize = .error broken) :
    Ring.createSlots g.capacity g.ringSize 0 g.ringSize = .error broken := by
  obtain ⟨count, h_count⟩ := Nat.exists_eq_add_one.2 g.ringSize_pos
  rw [h_count] at h ⊢
  rw [Ring.createSlots, h]
  rfl

/-- Without room the first thing that is too large is not to be had. -/
theorem ring_create_of_not_roomy (h : ¬ g.Roomy) :
    Ring.create g.capacity g.ringSize = .error .capacityOverflow := by
  rw [ring_create_eq]
  by_cases h_table : g.ringSize * Ring.slotSize < Word.allocationLimit
  · -- the first thing that can be too large for the first slot is its buffer
    have h_buffer : ¬ g.capacity < Word.allocationLimit := fun h_buffer => h ⟨h_table, h_buffer⟩
    have h_first : Slot.create 0 g.capacity g.ringSize = .error .capacityOverflow := by
      rw [Slot.create, tag_first g, Word.allocate, if_neg h_buffer]
      rfl
    rw [Word.allocate_eq_ok.2 h_table, createSlots_of_first_fault h_first]
    rfl
  · rw [Word.allocate, if_neg h_table]
    rfl

/-- With room it is the distance between two generations that may not fit. -/
theorem ring_create_of_limit_le (h_room : g.Roomy) (h : Word.limit ≤ g.capacity * g.ringSize) :
    Ring.create g.capacity g.ringSize = .error .mulOverflow := by
  have h_first : Slot.create 0 g.capacity g.ringSize = .error .mulOverflow := by
    rw [Slot.create, tag_first g, Word.allocate_eq_ok.2 h_room.2, Word.mul, if_neg (Nat.not_lt.2 h)]
    rfl
  rw [ring_create_eq, Word.allocate_eq_ok.2 h_room.1, createSlots_of_first_fault h_first]
  rfl

/-! ### The log -/

/-- A log that has just been made: nothing is reserved, written or poisoned, each slot begins with the
generation that its index says, and the ring keeps the generations of a slot as far apart as the
configuration does. -/
structure Begun (c : Config) (writer : W) (log : Log W) : Prop where
  config_eq : log.config = c
  writer_eq : log.writer = writer
  position_eq : log.position = 0
  stats_eq : log.stats = {}
  clean : log.ring.poisoned = false
  geometry_eq : Geometry.ofSizes c.slotCapacity c.ringSize = .ok log.geometry
  gap_eq : log.geometry.gap = .ok (c.slotCapacity * c.ringSize) ∧ c.gap = log.geometry.gap
  slots_length : log.ring.slots.length = c.ringSize
  slot : ∀ i < c.ringSize, i * c.slotCapacity < Word.limit ∧
    ∃ slot, log.ring.slots[i]? = some slot ∧ slot.tag = i * c.slotCapacity ∧
      slot.capacity = c.slotCapacity ∧ log.geometry.gap = .ok slot.gap ∧ slot = firstSlot log.geometry i

/-- What is to be made of a valid configuration is a ring. -/
theorem create_of_valid {c : Config} (h : c.validate = .ok ()) (writer : W) :
    create c writer = (Fault.guard (Ring.create c.slotCapacity c.ringSize) >>= fun ring =>
      .ok { config := c, allocator := {}, ring, writer, stats := {} }) := by
  rw [create, h]
  rfl

section Create

variable {c : Config} {writer : W}

/-- **Enough for a log**: a valid configuration, room for the slots, and addresses for a generation of
each of them. -/
theorem create_of_fits (h_valid : c.validate = .ok ()) (h_room : c.Roomy)
    (h_gap : c.slotCapacity * c.ringSize < Word.limit) :
    ∃ log, create c writer = .ok log ∧ Begun c writer log := by
  obtain ⟨g, h_capacity, h_ring, h_geometry⟩ := Config.exists_geometry h_valid
  rw [Config.roomy_iff h_capacity h_ring] at h_room
  rw [← h_capacity, ← h_ring] at h_gap
  have h_word : Word.mul g.capacity g.ringSize = .ok (g.capacity * g.ringSize) :=
    Word.mul_eq_ok.2 ⟨h_gap, rfl⟩
  -- every slot of the ring begins with the generation at its place
  have h_made : create c writer = .ok ⟨c, {},
      ⟨g, (List.range g.ringSize).map (firstSlot g), false⟩, writer, {}⟩ := by
    rw [create_of_valid h_valid, ← h_capacity, ← h_ring, ring_create_of_fits h_room h_gap]
    rfl
  refine ⟨_, h_made, ⟨rfl, rfl, rfl, rfl, rfl, h_geometry, ?_, ?_, fun i hi => ?_⟩⟩
  · rw [Config.gap, ← h_capacity, ← h_ring]
    exact ⟨h_word, rfl⟩
  · rw [List.length_map, List.length_range, h_ring]
  · rw [← h_ring] at hi
    rw [← h_capacity]
    refine ⟨tag_lt h_gap hi, firstSlot g i, ?_, rfl, rfl, h_word, rfl⟩
    rw [List.getElem?_map, List.getElem?_range hi]
    rfl

/-- A configuration that asks for too much memory panics. -/
theorem create_of_not_roomy (h_valid : c.validate = .ok ()) (h : ¬ c.Roomy) :
    create c writer = .error (.fault .capacityOverflow) := by
  obtain ⟨g, h_capacity, h_ring, -⟩ := Config.exists_geometry h_valid
  rw [Config.roomy_iff h_capacity h_ring] at h
  rw [create_of_valid h_valid, ← h_capacity, ← h_ring, ring_create_of_not_roomy h]
  rfl

/-- A ring as large as the address space overflows. -/
theorem create_of_limit_le (h_valid : c.validate = .ok ()) (h_room : c.Roomy)
    (h : Word.limit ≤ c.slotCapacity * c.ringSize) :
    create c writer = .error (.fault .mulOverflow) := by
  obtain ⟨g, h_capacity, h_ring, -⟩ := Config.exists_geometry h_valid
  rw [Config.roomy_iff h_capacity h_ring] at h_room
  rw [← h_capacity, ← h_ring] at h
  rw [create_of_valid h_valid, ← h_capacity, ← h_ring, ring_create_of_limit_le h_room h]
  rfl

end Create

/-- **How making a log ends.** It is refused just when the check refuses the configuration, and for the
same cause. A valid configuration is enough for the padding of records and for a geometry. It is not
enough for a log: that is made just when the memory for the slots is of a size that can be had and a
generation of each slot fits into the address space, and then all is at its beginning. Where one of the
two fails, making the log ends in a fault. -/
theorem create_outcomes (c : Config) (writer : W) :
    (∀ error, create c writer = .error (.refused error) ↔
      ∃ cause, c.validate = .error cause ∧ error = .config cause) ∧
    (c.validate = .ok () →
      Record.Format.ofSizes c.minWriteSize c.chunkSize = .ok c.recordFormat ∧
      ∃ g, Geometry.ofSizes c.slotCapacity c.ringSize = .ok g) ∧
    (∀ log, create c writer = .ok log → Begun c writer log) ∧
    ((∃ log, create c writer = .ok log) ↔
      c.validate = .ok () ∧ c.Roomy ∧ c.slotCapacity * c.ringSize < Word.limit) ∧
    (∀ broken, create c writer = .error (.fault broken) ↔
      c.validate = .ok () ∧ (¬ c.Roomy ∧ broken = .capacityOverflow ∨
        c.Roomy ∧ Word.limit ≤ c.slotCapacity * c.ringSize ∧ broken = .mulOverflow)) := by
  cases h_valid : c.validate with
  | error cause =>
    have h_refused : create c writer = .error (.refused (.config cause)) := by rw [create, h_valid]
    rw [h_refused]
    grind
  | ok _ =>
    have h_geometry : ∃ g, Geometry.ofSizes c.slotCapacity c.ringSize = .ok g := by
      obtain ⟨g, -, -, h_geometry⟩ := Config.exists_geometry h_valid
      exact ⟨g, h_geometry⟩
    have h_format := c.ofSizes_recordFormat
    -- what is asked for can fail in two ways, one after the other
    by_cases h_room : c.Roomy
    · by_cases h_gap : c.slotCapacity * c.ringSize < Word.limit
      · obtain ⟨log, h_made, h_begun⟩ : ∃ log, create c writer = .ok log ∧ Begun c writer log :=
          create_of_fits h_valid h_room h_gap
        rw [h_made]
        grind
      · rw [create_of_limit_le h_valid h_room (Nat.le_of_not_lt h_gap)]
        grind
    · rw [create_of_not_roomy h_valid h_room]
      grind

/-- 2 to the power of 31 slots of 4 GiB each: half the address space is one generation of all slots. -/
def halfSpace : Config where
  slotCapacity := 4294967296
  ringSize := 2147483648

/-- A log is made of this configuration, and of none with slots of 96 bytes. -/
theorem create_outcomes_halfSpace :
    (∃ log, create halfSpace ({} : MemoryWriter) = .ok log ∧ Begun halfSpace {} log) ∧
    create { halfSpace with slotCapacity := 96 } ({} : MemoryWriter) =
      .error (.refused (.config (.slotCapacity 64 96))) := by
  obtain ⟨-, -, h_begun, h_made, -⟩ := create_outcomes halfSpace ({} : MemoryWriter)
  obtain ⟨h_refused, -⟩ := create_outcomes { halfSpace with slotCapacity := 96 } ({} : MemoryWriter)
  obtain ⟨log, h_log⟩ := h_made.2 ⟨by decide +kernel, by decide +kernel, by decide +kernel⟩
  exact ⟨⟨log, h_log, h_begun log h_log⟩, (h_refused _).2 ⟨_, by decide +kernel, rfl⟩⟩

/-- The least capacity, and as many slots as it takes to use up the address space. -/
def tooManySlots : Config where
  slotCapacity := 64
  ringSize := 288230376151711744

/-- The usual number of slots, and as large ones as it takes to use up the address space. -/
def tooLargeSlots : Config where
  slotCapacity := 4611686018427387904

/-- **Valid configurations can make faults.** Of these two the check accepts each number; their product
does not fit in a word, the configuration itself cannot tell the distance between two generations, and
no log is made. So it is not true that a valid configuration is enough. -/
theorem valid_config_faults :
    (tooManySlots.validate = .ok () ∧ tooManySlots.gap = .error .mulOverflow ∧
      create tooManySlots ({} : MemoryWriter) = .error (.fault .capacityOverflow)) ∧
    (tooLargeSlots.validate = .ok () ∧ tooLargeSlots.gap = .error .mulOverflow ∧
      create tooLargeSlots ({} : MemoryWriter) = .error (.fault .mulOverflow)) ∧
    (¬ ∀ c : Config, c.validate = .ok () → c.slotCapacity * c.ringSize < Word.limit) ∧
    ¬ ∀ (c : Config) (broken : Fault),
      create c ({} : MemoryWriter) ≠ .error (.fault broken) := by
  -- two valid configurations, one for each of the ways to fail
  have h_valid : tooManySlots.validate = .ok () := by decide +kernel
  have h_fault : create tooManySlots ({} : MemoryWriter) = .error (.fault .capacityOverflow) := by
    decide +kernel
  refine ⟨⟨h_valid, by decide +kernel, h_fault⟩,
    ⟨by decide +kernel, by decide +kernel, by decide +kernel⟩, fun h_all => ?_, fun h_all => ?_⟩
  · exact absurd (h_all tooManySlots h_valid) (by decide +kernel)
  · exact h_all tooManySlots _ h_fault

end Log

end GroupCommit
