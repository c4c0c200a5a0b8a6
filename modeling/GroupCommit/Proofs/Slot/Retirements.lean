import GroupCommit.Proofs.Slot.Skips

/-!
# Retirements

A generation is ended by the call that hands its full flush back, or by one that skips it. The slot
retires it at once if it is the present one, and otherwise when it gets there; each retirement takes the
tag one gap further. So the tag of a slot says how many generations have been retired, and there is a
balance between the tag, the generations that calls have ended, and those of them that are still recorded
as skips. It holds for every step, also for one that runs out of addresses half way.

* `Slot.ended`, `Slot.endedIn`: the generations that a step and a run end.
* `Slot.run_balance`, `Slot.balance_steps`: the balance.
* `Slot.tag_eq_retirements`: the tag, by the number of retirements.
* `Slot.endedIn_perm`: in a run without faults each generation before the present one is retired once.
* `Slot.exists_reach`: the slot can get to every generation that has an address.
-/

namespace GroupCommit.Slot

variable {slot s s' : Slot} {m m' : Machine Slot Task Result} {es : List (Event Task Empty)}
  {e : Event Task Empty} {task : Task} {flush : Flush} {i t : ℕ}

/-! ### The end of a generation -/

/-- The generation, if the operation that is to end it succeeds. -/
def ending {ε : Type} (tag : ℕ) : Except ε Unit → List ℕ
  | .ok _ => [tag]
  | .error _ => []

/-- The generations that a step ends. A slot that is stopped ends no generation any more. -/
def ended (s : Slot) : Task → List ℕ
  | .release flush =>
    match flush.kind with
    | .full => ending flush.tag (s.handBack flush).1
    | .early => []
  | .skip tag =>
    match s.phase with
    | .poisoned _ => []
    | _ => ending tag (s.skipOver tag).1
  | _ => []

/-- A skip of an open slot ends its generation. -/
theorem ended_skip (h_live : ¬ s.Stopped) : s.ended (.skip t) = ending t (s.skipOver t).1 := by
  rw [ended]
  split
  · next reason h_phase => exact absurd ⟨reason, h_phase⟩ h_live
  · rfl

/-- A skip of a stopped slot ends nothing. -/
theorem ended_skip_stopped (h : s.Stopped) : s.ended (.skip t) = [] := by
  obtain ⟨reason, h_phase⟩ := h
  rw [ended, h_phase]

/-- From `s` to `s'` so many generations were ended: the slot has moved on by a gap for each of them, or
has one more skip recorded. -/
def Balanced (s s' : Slot) (n : ℕ) : Prop :=
  s'.tag + s.gap * s'.skipped.length = s.tag + s.gap * (s.skipped.length + n)

/-- A slot that stays in its generation ends none. -/
theorem Same.balanced (h : Same s s') : Balanced s s' 0 := by
  rw [Balanced, h.tag, h.skipped, Nat.add_zero]

/-- Passing over skips changes the balance only where the addresses run out: then the last one has been
taken off the list and not been passed. -/
theorem passSkips_balance (fuel : ℕ) (s : Slot) (t : ℕ) :
    (passSkips fuel s).2.tag + s.gap * ((passSkips fuel s).2.skipped.length + 1) =
      s.tag + s.gap * (s.skipped.length + (ending t (passSkips fuel s).1).length) := by
  induction fuel generalizing s with
  | zero => rfl
  | succ fuel ih =>
    rw [passSkips]
    split
    · next h_mem =>
      have h_length : (s.skipped.erase s.tag).length + 1 = s.skipped.length := by
        rw [List.length_erase_of_mem h_mem]
        exact Nat.sub_add_cancel (List.length_pos_of_mem h_mem)
      dsimp only
      split
      · have h_rest := ih { s with skipped := s.skipped.erase s.tag, tag := s.tag + s.gap }
        dsimp only at h_rest
        -- one skip less, and one gap further on
        rw [h_rest, ← h_length]
        ring
      · dsimp only [ending]
        rw [h_length]
        rfl
    · rfl

/-- Moving on ends one generation and those whose skips are passed. -/
theorem advance_balance (s : Slot) (t : ℕ) :
    Balanced s s.advance.2 (ending t s.advance.1).length := by
  rw [advance]
  split
  · exact Same.balanced (.refl s)
  · dsimp only
    split
    · have h_passes := passSkips_balance s.skipped.length
        { s with
          buffer := s.buffer.clear s.highWater
          tag := s.tag + s.gap
          dirty := 0
          highWater := 0
          phase := .filling } t
      dsimp only at h_passes
      rw [Nat.mul_add, Nat.mul_one] at h_passes
      rw [Balanced]
      omega
    · exact Same.balanced ⟨rfl, rfl⟩

theorem length_ending_guard (t : ℕ) (result : Except Fault Unit) :
    (ending t (Fault.guard result : Except (Stop LogError) Unit)).length = (ending t result).length := by
  cases result <;> rfl

/-- A skip that is kept is one more. -/
theorem length_insertSkip (t : ℕ) (skips : List ℕ) :
    (insertSkip t skips).length = skips.length + 1 := by
  induction skips with
  | nil => rfl
  | cons first rest ih =>
    rw [insertSkip]
    split
    · rfl
    · rw [List.length_cons, ih, List.length_cons]

/-- The balance of a flush that is handed back. -/
theorem handBack_balance (s : Slot) (flush : Flush) :
    Balanced s (s.handBack flush).2 (s.ended (.release flush)).length := by
  rw [ended, handBack]
  split
  · cases flush.kind <;> exact Same.balanced (.refl s)
  · dsimp only
    split
    · cases flush.kind <;> exact Same.balanced ⟨rfl, rfl⟩
    · next h_kind =>
      rw [h_kind]
      dsimp only
      -- only this flush moves the slot on
      rw [length_ending_guard]
      exact advance_balance { s with buffer := flush.buffer } flush.tag
    · next h_kind =>
      rw [h_kind]
      exact Same.balanced ⟨rfl, rfl⟩
    · cases flush.kind <;> exact Same.balanced ⟨rfl, rfl⟩

/-- The balance of a skip. -/
theorem skipOver_balance (s : Slot) (tag : ℕ) :
    Balanced s (s.skipOver tag).2 (s.ended (.skip tag)).length := by
  by_cases h_live : s.Stopped
  · rw [ended_skip_stopped h_live, skipOver_stopped h_live]
    exact Same.balanced (.refl s)
  rw [ended_skip h_live, skipOver]
  split
  · next reason h_phase => exact absurd ⟨reason, h_phase⟩ h_live
  split
  · split
    · exact advance_balance s tag
    · exact Same.balanced (.refl s)
  split
  · exact Same.balanced (.refl s)
  split
  · exact Same.balanced (.refl s)
  · -- the skip is kept: one generation ended, one more in store
    rw [Balanced, length_insertSkip]
    rfl

/-- **The balance of a step,** whether it faults or not. -/
theorem run_balance (task : Task) (s : Slot) :
    Balanced s (run task s).2 (s.ended task).length := by
  cases task with
  | release flush =>
    rw [run_release_state]
    exact handBack_balance s flush
  | skip tag =>
    rw [run_skip_state]
    exact skipOver_balance s tag
  | _ =>
    refine Same.balanced (same_run ?_ ?_ s)
    · rintro _ ⟨⟩
    · rintro _ ⟨⟩

/-- Where a step neither faults nor stops the slot, it ends what its task is to end. -/
theorem ended_of_sound (h_sound : ∀ broken, (run task s).1 ≠ faulting broken)
    (h_live : ¬ (run task s).2.Stopped) :
    s.ended task = task.skips?.toList ++ task.retires?.toList := by
  cases task with
  | release flush =>
    rw [run] at h_sound h_live
    rw [ended, Task.retires?]
    cases h_back : s.handBack flush with
    | mk result s' =>
      rw [h_back] at h_sound h_live
      rcases result with (error | broken) | _
      · -- only a stopped slot refuses a flush of its generation
        obtain ⟨reason, rfl⟩ := of_handBack_refused h_back
        exact absurd ⟨reason, rfl⟩ h_live
      · exact absurd rfl (h_sound broken)
      · cases flush.kind <;> rfl
  | skip tag =>
    have h_before : ¬ s.Stopped := fun h_stopped => h_live (h_stopped.run (.skip tag))
    rw [run] at h_sound
    rw [ended_skip h_before]
    cases h_skip : s.skipOver tag with
    | mk result s' =>
      rw [h_skip] at h_sound
      rcases result with broken | _
      · exact absurd rfl (h_sound broken)
      · rfl
  | _ => rfl

/-! ### Runs -/

/-- The generations that an event ends. -/
def endedBy (m : Machine Slot Task Result) (e : Event Task Empty) : List ℕ :=
  (stepped m e).flatMap m.state.ended

/-- What an event ends is what the step of its call ends. -/
theorem Performs.endedBy (h : Performs m e i task) : endedBy m e = m.state.ended task := by
  rw [Slot.endedBy, h.stepped]
  exact List.append_nil _

/-- The generations that calls on a slot end, in the order in which they do so. -/
def endedIn (slot : Slot) (es : List (Event Task Empty)) : List ℕ :=
  Machine.noted program endedBy (Machine.idle slot) es

/-- How many generations the slot has retired: those that calls have ended, less those that are recorded
for later. -/
def retirements (slot : Slot) (es : List (Event Task Empty)) (s : Slot) : ℕ :=
  (endedIn slot es).length - s.skipped.length

/-- **The balance of a run,** by induction on its events. -/
theorem balance_steps (h_steps : (Machine.idle slot).steps program es = some m) :
    Balanced slot m.state (endedIn slot es).length := by
  induction es using List.reverseRecOn generalizing m with
  | nil =>
    cases h_steps
    exact Same.balanced (.refl slot)
  | append_singleton es e ih =>
    obtain ⟨m₁, h₁, h_step⟩ := Machine.steps_concat _ h_steps
    have h_before := ih h₁
    have h_more : endedIn slot (es ++ [e]) = endedIn slot es ++ endedBy m₁ e :=
      Machine.noted_concat h₁ h_step
    rw [h_more, List.length_append]
    rcases event_cases h_step with ⟨start, rfl, -, h_state⟩ | ⟨i, task, h_performs, h_state, -⟩
    · -- a call that is made ends nothing
      rw [h_state]
      exact h_before
    · -- the step adds its own balance to that of the run
      have h_now := run_balance task m₁.state
      rw [Balanced, gap_steps h₁] at h_now
      rw [Balanced] at h_before ⊢
      rw [h_performs.endedBy, h_state, h_now, Nat.mul_add, ← Nat.add_assoc, h_before, Nat.mul_add,
        Nat.mul_add, Nat.mul_add]
      omega

/-- In a run without faults, the generations that are ended are those that calls skip and those that they
retire. -/
theorem mem_endedIn_iff (h_steps : (Machine.idle slot).steps program es = some m)
    (h_sound : ¬ Faulted m) (h_live : ¬ m.state.Stopped) :
    t ∈ endedIn slot es ↔
      t ∈ skippedIn (Machine.idle slot) es ∨ t ∈ retiredIn (Machine.idle slot) es := by
  induction es using List.reverseRecOn generalizing m with
  | nil => simp [endedIn, skippedIn, retiredIn, Machine.noted]
  | append_singleton es e ih =>
    obtain ⟨m₁, h₁, h_step⟩ := Machine.steps_concat _ h_steps
    have h_before := ih h₁ (not_faulted_of_step h_sound h_step)
    rw [endedIn, skippedIn, retiredIn, Machine.noted_concat h₁ h_step, Machine.noted_concat h₁ h_step]
    rcases event_cases h_step with ⟨start, rfl, -, h_state⟩ |
      ⟨i, task, h_performs, h_state, status, h_self, h_leads⟩
    · have h_nothing : stepped m₁ (.call start) = [] := rfl
      rw [endedBy, h_nothing, List.flatMap_nil, List.append_nil, List.append_nil]
      exact h_before (h_state ▸ h_live)
    · rw [h_state] at h_live
      have h_live₁ : ¬ m₁.state.Stopped := fun h_stopped => h_live (h_stopped.run task)
      -- the step ends what its task skips and what it retires, and the journals of both grow by that
      rw [h_performs.endedBy, h_performs.stepped, toFinset_filterMap_concat, toFinset_filterMap_concat,
        ended_of_sound (sound_of_step h_sound h_self h_leads) h_live, List.mem_append, List.mem_append,
        Finset.mem_union, Finset.mem_union, Option.mem_toList, Option.mem_toList, Option.mem_toFinset,
        Option.mem_toFinset]
      exact (or_congr_left (h_before h_live₁)).trans or_or_or_comm

/-- The generation number `n` of a slot, from its present one on. -/
def generation (s : Slot) (n : ℕ) : ℕ := s.tag + s.gap * n

/-- The generations of a slot lie whole gaps apart. -/
theorem generation_modEq (s : Slot) (n : ℕ) : s.generation n ≡ s.tag [MOD s.gap] := by
  rw [Nat.ModEq, generation, Nat.add_mul_mod_self_left]

theorem generation_strictMono (h_gap : 0 < s.gap) : StrictMono s.generation :=
  fun _ _ h => Nat.add_lt_add_left (Nat.mul_lt_mul_of_pos_left h h_gap) _

theorem generation_injective (h_gap : 0 < s.gap) : Function.Injective s.generation :=
  (generation_strictMono h_gap).injective

/-- Every address of the slot's class from its generation on is one of its generations. -/
theorem exists_generation (h_mod : t ≡ s.tag [MOD s.gap]) (h_le : s.tag ≤ t) :
    ∃ n, t = s.generation n := by
  obtain ⟨n, h_eq⟩ := (Nat.modEq_iff_dvd' h_le).1 h_mod.symm
  exact ⟨n, by rw [generation, ← h_eq, Nat.add_sub_cancel' h_le]⟩

section Retired

variable (h_steps : (Machine.idle slot).steps program es = some m) (h_none : slot.skipped = [])
  (h_gap : 0 < slot.gap)

include h_steps h_none h_gap

/-- There are no more skips kept than generations ended. -/
theorem length_skipped_le : m.state.skipped.length ≤ (endedIn slot es).length := by
  have h_balance := balance_steps h_steps
  have h_le : slot.tag ≤ m.state.tag := tag_le_of_steps h_steps
  rw [Balanced, h_none, List.length_nil, Nat.zero_add] at h_balance
  exact Nat.le_of_mul_le_mul_left (by omega) h_gap

/-- **The tag of a slot** is one gap further on for each retirement. -/
theorem tag_eq_retirements :
    m.state.tag = slot.generation (retirements slot es m.state) := by
  have h_balance := balance_steps h_steps
  have h_le := length_skipped_le h_steps h_none h_gap
  rw [Balanced, h_none, List.length_nil, Nat.zero_add] at h_balance
  rw [generation, retirements, Nat.mul_sub]
  have h_mul := Nat.mul_le_mul_left slot.gap h_le
  omega

/-- **Each generation is retired once.** In a run without faults, the generations that calls have ended are
those before the present one, each of them once, and those that are recorded as skips. -/
theorem endedIn_perm (h_sound : ¬ Faulted m) (h_live : ¬ m.state.Stopped) :
    (endedIn slot es).Perm
      ((List.range (retirements slot es m.state)).map slot.generation ++ m.state.skipped) := by
  have h_course : Course slot _ _ m.state := course_steps (m := Machine.idle slot) h_gap
    (fun _ => .start h_none) h_steps h_sound h_live
  have h_tag := tag_eq_retirements h_steps h_none h_gap
  have h_before : ∀ {t}, t ∈ (List.range (retirements slot es m.state)).map slot.generation →
      t ≡ slot.tag [MOD slot.gap] ∧ slot.tag ≤ t ∧ t < m.state.tag := by
    intro t ht
    obtain ⟨k, hk, rfl⟩ := List.mem_map.1 ht
    rw [h_tag]
    exact ⟨slot.generation_modEq k, Nat.le_add_right _ _,
      generation_strictMono h_gap (List.mem_range.1 hk)⟩
  -- the generations on the right are different ones, each of them was ended, and there are as many of
  -- them as calls have ended
  have h_nodup : ((List.range (retirements slot es m.state)).map slot.generation ++
      m.state.skipped).Nodup := by
    refine List.Nodup.append ?_ (h_course.sorted.imp Nat.ne_of_lt) fun t h_left h_right => ?_
    · exact List.nodup_range.map (generation_injective h_gap)
    · obtain ⟨h_mod, -, h_lt⟩ := h_before h_left
      exact absurd (((h_course.skipped t).1 h_right).2 h_mod) (Nat.not_lt_of_lt h_lt)
  have h_sub : ((List.range (retirements slot es m.state)).map slot.generation ++
      m.state.skipped) ⊆ endedIn slot es := by
    intro t ht
    rw [mem_endedIn_iff h_steps h_sound h_live]
    rcases List.mem_append.1 ht with h_left | h_right
    · obtain ⟨h_mod, h_le, h_lt⟩ := h_before h_left
      by_contra h_not
      rw [not_or] at h_not
      have h_free : slot.Free _ _ t := ⟨h_mod, h_le, by rw [h_none]; exact List.not_mem_nil, h_not.1, h_not.2⟩
      exact absurd (h_course.tag.2 h_free) (Nat.not_le_of_lt h_lt)
    · have h_skipped := ((h_course.skipped t).1 h_right).1
      rw [h_none] at h_skipped
      exact .inl (h_skipped.resolve_left List.not_mem_nil)
  have h_length : (endedIn slot es).length ≤ ((List.range (retirements slot es m.state)).map
      slot.generation ++ m.state.skipped).length := by
    have h_le := length_skipped_le h_steps h_none h_gap
    rw [List.length_append, List.length_map, List.length_range, retirements]
    omega
  exact ((h_nodup.subperm h_sub).perm_of_length_le h_length).symm

end Retired

/-! ### Generations that a slot gets to -/

/-- The first task of each of these calls is a skip. -/
theorem starts_skipCalls (i : ℕ) (order : List ℕ) :
    Machine.starts (skipCalls i order) = order.map Task.skip := by
  induction order generalizing i with
  | nil => rfl
  | cons t order ih => exact congrArg (Task.skip t :: ·) (ih (i + 1))

/-- **Every generation that has an address is reached,** since one may skip all those before it. -/
theorem exists_reach (h_phase : slot.phase = .filling) (h_dirty : slot.dirty = 0)
    (h_high : slot.highWater ≤ slot.buffer.size) (h_none : slot.skipped = []) (h_gap : 0 < slot.gap)
    {n : ℕ} (h_limit : slot.generation n < Word.limit) :
    ∃ es m, (Machine.idle slot).steps program es = some m ∧ ¬ Faulted m ∧ ¬ m.state.Stopped ∧
      m.state.tag = slot.generation n := by
  have h_start : SkippedTo slot ∅ slot := ⟨.start h_none, .inr ⟨by simp, rfl⟩⟩
  have h_new : ∀ t, t ∉ slot.skipped := fun t => h_none ▸ List.not_mem_nil
  -- the skips are those of the first `n` generations
  generalize h_order : (List.range n).map slot.generation = order
  have h_mem : ∀ k, slot.generation k ∈ order ↔ k < n := by
    intro k
    rw [← h_order, List.mem_map_of_injective (generation_injective h_gap), List.mem_range]
  have h_free : ∀ t ∈ order, slot.Free ∅ ∅ t := by
    rw [← h_order]
    intro t ht
    obtain ⟨k, -, rfl⟩ := List.mem_map.1 ht
    exact ⟨slot.generation_modEq k, Nat.le_add_right _ _, h_new _, by simp, by simp⟩
  have h_next : slot.Free (∅ ∪ order.toFinset) ∅ (slot.generation n) := by
    refine ⟨slot.generation_modEq n, Nat.le_add_right _ _, h_new _, ?_, by simp⟩
    rw [Finset.empty_union, List.mem_toFinset, h_mem]
    exact Nat.lt_irrefl n
  have h_nodup : order.Nodup := h_order ▸ List.nodup_range.map (generation_injective h_gap)
  obtain ⟨m, h_steps, h_reached, h_calls⟩ := steps_skipCalls (m := Machine.idle slot) h_phase h_dirty
    h_gap h_high h_start h_nodup h_free h_limit h_next
  refine ⟨_, m, h_steps, ?_, not_stopped (h_reached.phase_eq h_phase) nofun, ?_⟩
  · rintro ⟨i, broken, hi⟩
    have h_length := Machine.length_starts h_steps
    rw [starts_skipCalls, List.length_map] at h_length
    obtain ⟨h_lt, -⟩ := List.getElem?_eq_some_iff.1 hi
    have h_done := h_calls i (by omega)
    rw [show (Machine.idle slot).calls.length + i = i from Nat.zero_add i, hi] at h_done
    cases h_done
  · refine Nat.le_antisymm (h_reached.tag.2 h_next) ?_
    -- the generations that are left are those from number `n` on
    obtain ⟨k, h_tag⟩ := exists_generation h_reached.modEq h_reached.tag.1.le
    rw [h_tag]
    refine (generation_strictMono h_gap).monotone (Nat.le_of_not_lt fun h_lt => ?_)
    have h_skipped := h_reached.tag.1.not_skipped
    rw [Finset.empty_union, List.mem_toFinset, h_tag] at h_skipped
    exact h_skipped ((h_mem k).2 h_lt)

end GroupCommit.Slot
