import GroupCommit.Word

/-!
# Results of word arithmetic

When a sum, a product or a difference fits, and when a sequence of such computations has a result.
-/

namespace GroupCommit

/-- A sequence succeeds iff both steps do. -/
theorem bind_eq_ok {ε α β : Type} {x : Except ε α} {f : α → Except ε β} {b : β} :
    x >>= f = .ok b ↔ ∃ a, x = .ok a ∧ f a = .ok b := by
  cases x with
  | error e => exact ⟨nofun, fun ⟨_, h, _⟩ => nomatch h⟩
  | ok a => exact ⟨fun h => ⟨a, rfl, h⟩, fun ⟨_, h, h'⟩ => Except.ok.inj h ▸ h'⟩

/-- A guard passes results on. -/
theorem Fault.guard_eq_ok {ε α : Type} {x : Except Fault α} {a : α} :
    (Fault.guard x : Except (Stop ε) α) = .ok a ↔ x = .ok a := by
  cases x with
  | error broken => exact ⟨nofun, nofun⟩
  | ok b => exact ⟨fun h => congrArg _ (Except.ok.inj h), fun h => congrArg _ (Except.ok.inj h)⟩

namespace Word

variable {a b c : Nat}

/-- A sum is computed iff it fits a word. -/
theorem add_eq_ok : add a b = .ok c ↔ a + b < limit ∧ a + b = c := by
  rw [add]
  split
  · next h => exact ⟨fun h' => ⟨h, Except.ok.inj h'⟩, fun h' => congrArg _ h'.2⟩
  · next h => exact ⟨nofun, fun h' => absurd h'.1 h⟩

/-- A product is computed iff it fits a word. -/
theorem mul_eq_ok : mul a b = .ok c ↔ a * b < limit ∧ a * b = c := by
  rw [mul]
  split
  · next h => exact ⟨fun h' => ⟨h, Except.ok.inj h'⟩, fun h' => congrArg _ h'.2⟩
  · next h => exact ⟨nofun, fun h' => absurd h'.1 h⟩

/-- A buffer can be had below the limit for allocations. -/
theorem allocate_eq_ok : allocate a = .ok () ↔ a < allocationLimit := by
  rw [allocate]
  split
  · next h => exact ⟨fun _ => h, fun _ => rfl⟩
  · next h => exact ⟨nofun, fun h' => absurd h' h⟩

/-- A sum fails by overflow alone. -/
theorem add_eq_error {broken : Fault} :
    add a b = .error broken ↔ broken = .addOverflow ∧ limit ≤ a + b := by
  rw [add]
  split
  · next h => exact ⟨nofun, fun h' => absurd h'.2 (Nat.not_le_of_lt h)⟩
  · next h =>
    exact ⟨fun h' => ⟨(Except.error.inj h').symm, Nat.le_of_not_lt h⟩, fun h' => congrArg _ h'.1.symm⟩

/-- A product fails by overflow alone. -/
theorem mul_eq_error {broken : Fault} (h : mul a b = .error broken) : broken = .mulOverflow := by
  rw [mul] at h
  split at h
  · cases h
  · exact (Except.error.inj h).symm

/-- A difference fails iff it would be negative. -/
theorem sub_eq_error {broken : Fault} :
    sub a b = .error broken ↔ broken = .subOverflow ∧ a < b := by
  rw [sub]
  split
  · next h => exact ⟨nofun, fun h' => absurd h'.2 (Nat.not_lt_of_le h)⟩
  · next h =>
    exact ⟨fun h' => ⟨(Except.error.inj h').symm, Nat.lt_of_not_le h⟩, fun h' => congrArg _ h'.1.symm⟩

/-- A buffer fails by its capacity alone. -/
theorem allocate_eq_error {broken : Fault} (h : allocate a = .error broken) :
    broken = .capacityOverflow := by
  rw [allocate] at h
  split at h
  · cases h
  · exact (Except.error.inj h).symm

end Word

end GroupCommit
