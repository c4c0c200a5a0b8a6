import GroupCommit.Proofs.Slot.Closure

/-!
# The generations that a slot leaves behind

A slot goes through its generations one by one, and it passes over those that were skipped before it
got there. So whatever generation it leaves behind was ended by a call: by the one that handed its full
flush back, or by the one that skipped it, then or earlier.

* `Slot.Same`, `Slot.same_run`: no other step goes on to another generation.
* `Slot.Task.Ends`: the steps that end a generation.
* `Slot.Behind`, `Slot.run_behind`: what a step leaves behind.
-/

namespace GroupCommit.Slot

variable {s s' : Slot} {task : Task}

/-! ### Staying in a generation -/

/-- The slot stays in its generation, and the same generations are to be skipped. -/
structure Same (s s' : Slot) : Prop where
  tag : s'.tag = s.tag
  skipped : s'.skipped = s.skipped

namespace Same

theorem refl (s : Slot) : Same s s := ⟨rfl, rfl⟩

/-- No operation leaves a generation that does not end one. -/
theorem keeps (s₀ : Slot) : KeepsWithin (fun _ _ => True) (Same s₀) where
  count := fun n h => ⟨h.tag, h.skipped⟩
  -- copying changes neither the generation nor the skips
  copyIn := fun {s} offset data _ h _ => by
    obtain ⟨dirty, highWater, buffer, h_eq⟩ := copyIn_frame s offset data
    rw [h_eq]
    exact ⟨h.tag, h.skipped⟩
  complete := fun h _ _ => ⟨h.tag, h.skipped⟩
  claimFull := fun h _ => ⟨h.tag, h.skipped⟩
  claimEarly := fun h _ => ⟨h.tag, h.skipped⟩
  stop := fun reason buffer h => ⟨h.tag, h.skipped⟩

end Same

/-- Only few steps do not stay in the generation. -/
theorem same_run (h_release : ∀ flush, task ≠ .release flush) (h_skip : ∀ tag, task ≠ .skip tag)
    (s : Slot) : Same s (run task s).2 := by
  refine keepsWithin_run (Same.keeps s) task ?_ (fun _ _ _ => trivial) (.refl s)
  rintro (flush | tag)
  · exact h_release flush rfl
  · exact h_skip tag rfl

/-! ### Ending a generation -/

/-- One turn of the ring is a whole gap. -/
theorem modEq_add_gap {t tag gap : Nat} : t ≡ tag + gap [MOD gap] ↔ t ≡ tag [MOD gap] := by
  simp [Nat.ModEq]

/-- The step may end the generation `tag`, since it hands its full flush back or skips it. -/
def Task.Ends (tag : Nat) : Task → Prop
  | .release flush => flush.tag = tag ∧ flush.kind = .full
  | .skip skipped => skipped = tag
  | _ => False

/-- What a step leaves behind: each of these generations was skipped before, or the step ends it. And
only the step that skips a generation has it recorded as skipped. -/
structure Behind (task : Task) (s s' : Slot) : Prop where
  ended : ∀ t, t ≡ s.tag [MOD s.gap] → s.tag ≤ t → t < s'.tag →
    t ∈ s.skipped ∨ (t = s.tag ∧ task.Ends t)
  skipped : ∀ t ∈ s'.skipped, t ∈ s.skipped ∨ task = .skip t

/-- The slot passes over generations that were skipped, and over no others. -/
structure PassesOver (s s' : Slot) : Prop where
  ended : ∀ t, t ≡ s.tag [MOD s.gap] → s.tag ≤ t → t < s'.tag → t ∈ s.skipped
  skipped : ∀ t ∈ s'.skipped, t ∈ s.skipped

theorem PassesOver.refl (s : Slot) : PassesOver s s :=
  ⟨fun _ _ h_le h_lt => absurd h_lt (Nat.not_lt.2 h_le), fun _ ht => ht⟩

/-- The skips that are passed are of generations that then lie behind the slot. -/
theorem passes_passSkips (fuel : Nat) (s : Slot) : PassesOver s (passSkips fuel s).2 := by
  induction fuel generalizing s with
  | zero => exact .refl s
  | succ fuel ih =>
    rw [passSkips]
    split
    · next h_mem =>
      have h_erase : ∀ {t}, t ∈ s.skipped.erase s.tag → t ∈ s.skipped := List.mem_of_mem_erase
      dsimp only
      split
      · have h_rest := ih { s with skipped := s.skipped.erase s.tag, tag := s.tag + s.gap }
        refine ⟨fun t h_mod h_le h_lt => ?_, fun t ht => h_erase (h_rest.skipped t ht)⟩
        -- it is the generation that is passed now, or one from the next on
        rcases Nat.eq_or_lt_of_le h_le with rfl | h_after
        · exact h_mem
        · have h_mod' : t ≡ s.tag + s.gap [MOD s.gap] := modEq_add_gap.2 h_mod
          exact h_erase (h_rest.ended t h_mod' (h_mod.symm.add_le_of_lt h_after) h_lt)
      · exact ⟨(PassesOver.refl s).ended, fun t ht => h_erase ht⟩
    · exact .refl s

namespace Behind

/-- Where the slot stays in its generation, nothing lies newly behind it. -/
theorem of_same (h : Same s s') : Behind task s s' where
  ended := fun _ _ h_le h_lt => absurd h_lt (Nat.not_lt.2 (h.tag ▸ h_le))
  skipped := fun _ ht => .inl (h.skipped ▸ ht)

/-- The end of a generation. -/
theorem advance (h_ends : task.Ends s.tag) : Behind task s s.advance.2 := by
  rw [Slot.advance]
  split
  · exact .of_same (.refl s)
  · dsimp only
    split
    · have h_passes := passes_passSkips s.skipped.length
        { s with buffer := s.buffer.clear s.highWater, tag := s.tag + s.gap, dirty := 0, highWater := 0,
                 phase := .filling }
      refine ⟨fun t h_mod h_le h_lt => ?_, fun t ht => .inl (h_passes.skipped t ht)⟩
      -- the generation that was open, or one that a skip has ended
      rcases Nat.eq_or_lt_of_le h_le with rfl | h_after
      · exact .inr ⟨rfl, h_ends⟩
      · have h_mod' : t ≡ s.tag + s.gap [MOD s.gap] := modEq_add_gap.2 h_mod
        exact .inl (h_passes.ended t h_mod' (h_mod.symm.add_le_of_lt h_after) h_lt)
    · exact .of_same ⟨rfl, rfl⟩

/-- What comes to lie behind the slot when a flush is handed back. -/
theorem release (flush : Flush) (s : Slot) : Behind (.release flush) s (s.handBack flush).2 := by
  rw [handBack]
  split
  · exact .of_same (.refl s)
  · next h_tag =>
    have h_tag : flush.tag = s.tag := (not_not.1 h_tag).symm
    dsimp only
    split
    · exact .of_same ⟨rfl, rfl⟩
    · next h_kind =>
      -- only the flush of the whole slot moves it on
      have h_behind : Behind (.release flush) { s with buffer := flush.buffer } _ :=
        advance ⟨h_tag, h_kind⟩
      exact ⟨h_behind.ended, h_behind.skipped⟩
    · exact .of_same ⟨rfl, rfl⟩
    · exact .of_same ⟨rfl, rfl⟩

/-- What comes to lie behind the slot when a generation is skipped. -/
theorem skip (tag : Nat) (s : Slot) : Behind (.skip tag) s (s.skipOver tag).2 := by
  unfold skipOver
  split
  · exact .of_same (.refl s)
  · split
    · next h_tag =>
      split
      · exact advance h_tag.symm
      · exact .of_same (.refl s)
    · split
      · exact .of_same (.refl s)
      · split
        · exact .of_same (.refl s)
        · -- a skip that is kept moves nothing
          refine ⟨fun t _ h_le h_lt => absurd h_lt (Nat.not_lt.2 h_le), fun t ht => ?_⟩
          rcases mem_insertSkip.1 ht with rfl | h_old
          · exact .inr rfl
          · exact .inl h_old

end Behind

/-- **What a step leaves behind.** -/
theorem run_behind (task : Task) (s : Slot) : Behind task s (run task s).2 := by
  cases task with
  | release flush =>
    rw [run_release_state]
    exact .release flush s
  | skip tag =>
    rw [run_skip_state]
    exact .skip tag s
  | _ =>
    refine .of_same (same_run ?_ ?_ s)
    · rintro _ ⟨⟩
    · rintro _ ⟨⟩

end GroupCommit.Slot
