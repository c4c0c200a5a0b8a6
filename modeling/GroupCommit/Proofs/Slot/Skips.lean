import GroupCommit.Proofs.Slot.FullFlushes
import GroupCommit.Proofs.Slot.Representation
import Mathlib.Data.Finset.Option
import Mathlib.Data.List.Sort

/-!
# Skips in any order

A skip of the present generation ends it at once, and a skip of a later one is recorded until the slot
gets there. Either way, and also where the full flush of a generation is handed back, the slot moves on
over all that was recorded. So where it stands, and which skips are still recorded, says nothing of the
order in which all this happened: the slot is in the first generation that was neither skipped nor
retired, and what is recorded are the skips ahead.

* `Slot.Free`: a generation that is not used up.
* `Slot.Course`, `Slot.course_steps`: where a slot gets to by skips and by full flushes.
* `Slot.SkippedTo`: what becomes of an open slot that is empty, if nothing is done but skip.
* `Slot.skips_commute`: the theorem.
-/

namespace GroupCommit.Slot

variable {slot s s₀ s' : Slot} {m m' : Machine Slot Task Result} {es : List (Event Task Empty)}
  {e : Event Task Empty} {task : Task} {flush : Flush} {S F : Finset Nat} {t u i : Nat}

/-! ### Generations that are not used up -/

/-- Skips that leave no generation with an address. -/
theorem RunOut.limit_le {gap tag : Nat} {skips : List Nat} (h : RunOut gap tag skips)
    (h_mod : t ≡ tag [MOD gap]) (h_le : tag ≤ t) (h_new : t ∉ skips) : Word.limit ≤ t := by
  obtain ⟨n, h_all, h_limit⟩ := h
  obtain ⟨k, h_eq⟩ := (Nat.modEq_iff_dvd' h_le).1 h_mod.symm
  rw [Nat.mul_comm] at h_eq
  obtain rfl : t = tag + k * gap := by omega
  have h_lt : n < k := Nat.lt_of_not_le fun h_le => h_new (h_all k h_le)
  calc Word.limit
      ≤ tag + (n + 1) * gap := by rwa [Nat.succ_mul, ← Nat.add_assoc]
    _ ≤ tag + k * gap := Nat.add_le_add_left (Nat.mul_le_mul_right gap h_lt) tag

/-- From `s₀` on, when the generations `S` have been skipped and the generations `F` retired, this
generation of the slot is still to come, or it is the present one. -/
structure Free (s₀ : Slot) (S F : Finset Nat) (t : Nat) : Prop where
  modEq : t ≡ s₀.tag [MOD s₀.gap]
  le : s₀.tag ≤ t
  not_recorded : t ∉ s₀.skipped
  not_skipped : t ∉ S
  not_retired : t ∉ F

/-- With fewer skips, no fewer generations are left. -/
theorem Free.mono {S' : Finset Nat} (h : s₀.Free S' F t) (h_sub : S ⊆ S') : s₀.Free S F t :=
  ⟨h.modEq, h.le, h.not_recorded, fun h_mem => h.not_skipped (h_sub h_mem), h.not_retired⟩

/-- The generation `now` has been skipped or retired besides the others. -/
structure EndsAt (now : Nat) (S F S' F' : Finset Nat) : Prop where
  skipped : ∀ t, t ≠ now → (t ∈ S' ↔ t ∈ S)
  retired : ∀ t, t ≠ now → (t ∈ F' ↔ t ∈ F)
  ended : now ∈ S' ∨ now ∈ F'

namespace EndsAt

theorem mem_union_iff (h_ne : t ≠ u) : t ∈ S ∪ {u} ↔ t ∈ S := by
  rw [Finset.mem_union, Finset.mem_singleton, or_iff_left h_ne]

/-- A skip ends its generation. -/
theorem skip (S F : Finset Nat) (now : Nat) : EndsAt now S F (S ∪ {now}) F where
  skipped := fun _ h_ne => mem_union_iff h_ne
  retired := fun _ _ => Iff.rfl
  ended := .inl (Finset.mem_union_right S (Finset.mem_singleton_self now))

/-- A full flush ends its generation. -/
theorem retire (S F : Finset Nat) (now : Nat) : EndsAt now S F S (F ∪ {now}) where
  skipped := fun _ _ => Iff.rfl
  retired := fun _ h_ne => mem_union_iff h_ne
  ended := .inr (Finset.mem_union_right F (Finset.mem_singleton_self now))

theorem free_iff {S' F' : Finset Nat} (h : EndsAt u S F S' F') :
    s₀.Free S' F' t ↔ s₀.Free S F t ∧ t ≠ u := by
  constructor
  · intro ht
    have h_ne : t ≠ u := by
      rintro rfl
      exact h.ended.elim ht.not_skipped ht.not_retired
    exact ⟨⟨ht.modEq, ht.le, ht.not_recorded, fun h_mem => ht.not_skipped ((h.skipped t h_ne).2 h_mem),
      fun h_mem => ht.not_retired ((h.retired t h_ne).2 h_mem)⟩, h_ne⟩
  · rintro ⟨ht, h_ne⟩
    exact ⟨ht.modEq, ht.le, ht.not_recorded, fun h_mem => ht.not_skipped ((h.skipped t h_ne).1 h_mem),
      fun h_mem => ht.not_retired ((h.retired t h_ne).1 h_mem)⟩

end EndsAt

/-- A generation other than the one that ends stays free. -/
theorem Free.union (h : s₀.Free S F t) (h_ne : t ≠ u) : s₀.Free (S ∪ {u}) F t :=
  (EndsAt.skip S F u).free_iff.2 ⟨h, h_ne⟩

/-- The slot `s` is what has become of `s₀`, as far as its generations are concerned, when the
generations `S` have been skipped and the generations `F` retired. Skips of addresses at which no
generation begins stay in the list for good. -/
structure Course (s₀ : Slot) (S F : Finset Nat) (s : Slot) : Prop where
  gap : s.gap = s₀.gap
  tag : IsLeast {t | s₀.Free S F t} s.tag
  sorted : s.skipped.Pairwise (· < ·)
  skipped : ∀ t, t ∈ s.skipped ↔
    (t ∈ s₀.skipped ∨ t ∈ S) ∧ (t ≡ s₀.tag [MOD s₀.gap] → s.tag < t)
  retired : ∀ t ∈ F, t < s.tag

namespace Course

/-- The slot's generation is one of those it goes through. -/
theorem modEq (h : Course s₀ S F s) : s.tag ≡ s₀.tag [MOD s₀.gap] := h.tag.1.modEq

/-- A slot that has skipped nothing is where its course begins. -/
theorem start (h_none : slot.skipped = []) : Course slot ∅ ∅ slot where
  gap := rfl
  tag := by
    refine ⟨⟨Nat.ModEq.refl _, le_rfl, ?_, by simp, by simp⟩, fun t ht => ht.le⟩
    rw [h_none]
    exact List.not_mem_nil
  sorted := by
    rw [h_none]
    exact List.Pairwise.nil
  skipped := by simp [h_none]
  retired := by simp

/-- The generations that the slot goes through are told from where it began. -/
theorem modEq_iff (h : Course s₀ S F s) : t ≡ s.tag [MOD s.gap] ↔ t ≡ s₀.tag [MOD s₀.gap] := by
  rw [h.gap]
  exact ⟨fun h_own => h_own.trans h.modEq, fun h_own => h_own.trans h.modEq.symm⟩

/-- The generations that are not used up are those that the slot itself knows to be so. -/
theorem free_iff (h : Course s₀ S F s) : s₀.Free S F t ↔ s.Free ∅ ∅ t := by
  constructor
  · intro ht
    refine ⟨h.modEq_iff.2 ht.modEq, h.tag.2 ht, fun h_mem => ?_, by simp, by simp⟩
    exact ((h.skipped t).1 h_mem).1.elim ht.not_recorded ht.not_skipped
  · intro ht
    rcases ht.le.eq_or_lt with rfl | h_lt
    · exact h.tag.1
    have h_new : ¬ (t ∈ s₀.skipped ∨ t ∈ S) := fun h_mem =>
      ht.not_recorded ((h.skipped t).2 ⟨h_mem, fun _ => h_lt⟩)
    rw [not_or] at h_new
    exact ⟨h.modEq_iff.1 ht.modEq, h.tag.1.le.trans ht.le, h_new.1, h_new.2,
      fun h_mem => absurd (h.retired t h_mem) h_lt.not_gt⟩

/-- One may begin to reckon from any slot on the course. -/
theorem here (h : Course s₀ S F s) : Course s ∅ ∅ s where
  gap := rfl
  tag := ⟨h.free_iff.1 h.tag.1, fun _ ht => ht.le⟩
  sorted := h.sorted
  skipped := by
    intro t
    have h_ahead : t ∈ s.skipped → t ≡ s.tag [MOD s.gap] → s.tag < t := fun h_mem h_own =>
      ((h.skipped t).1 h_mem).2 (h.modEq_iff.1 h_own)
    simpa using h_ahead
  retired := by simp

/-- **The generations that were skipped and retired say all.** -/
theorem agree (h : Course s₀ S F s) (h' : Course s₀ S F s') :
    s.tag = s'.tag ∧ s.skipped = s'.skipped := by
  have h_tag := h.tag.unique h'.tag
  -- the lists are sorted, so it is enough that they have the same members
  refine ⟨h_tag, h.sorted.eq_of_mem_iff h'.sorted fun t => ?_⟩
  rw [h.skipped, h'.skipped, h_tag]

/-- The course shows in the generation and the skips alone. -/
theorem congr (h : Course s₀ S F s) (h_gap : s'.gap = s.gap) (h_same : Same s s') :
    Course s₀ S F s' where
  gap := h_gap.trans h.gap
  tag := h_same.tag ▸ h.tag
  sorted := h_same.skipped ▸ h.sorted
  skipped := by
    rw [h_same.tag, h_same.skipped]
    exact h.skipped
  retired := h_same.tag ▸ h.retired

/-! ### Changes -/

section MoveOn

variable {S' F' : Finset Nat} {tag' : Nat} {skipped' : List Nat} (h : Course s₀ S F s)
  (h_gap : 0 < s.gap) (h_ends : EndsAt s.tag S F S' F')
  (h_passes : Passes s.gap (s.tag + s.gap) s.skipped tag' skipped')

include h h_ends

/-- When the present generation has ended, the later ones are free that were so before. -/
theorem free_next (h_gap : 0 < s.gap) : s₀.Free S' F' t ↔
    t ≡ s.tag + s.gap [MOD s.gap] ∧ s.tag + s.gap ≤ t ∧ t ∉ s.skipped := by
  rw [h_ends.free_iff, h.free_iff, modEq_add_gap]
  constructor
  · rintro ⟨ht, h_ne⟩
    have h_lt : s.tag < t := lt_of_le_of_ne ht.le h_ne.symm
    exact ⟨ht.modEq, ht.modEq.symm.add_le_of_lt h_lt, ht.not_recorded⟩
  · rintro ⟨h_own, h_after, h_new⟩
    exact ⟨⟨h_own, by omega, h_new, by simp, by simp⟩, by omega⟩

include h_gap h_passes

/-- When the slot has moved on, the skips ahead are left. -/
theorem skipped_next : t ∈ skipped' ↔
    (t ∈ s₀.skipped ∨ t ∈ S') ∧ (t ≡ s₀.tag [MOD s₀.gap] → tag' < t) := by
  have h_nodup : s.skipped.Nodup := h.sorted.imp fun h_lt => h_lt.ne
  have h_le := h_passes.le
  rw [h_passes.mem_iff h_gap h_nodup, modEq_add_gap, h.modEq_iff]
  by_cases h_own : t ≡ s₀.tag [MOD s₀.gap]
  · constructor
    · rintro ⟨h_mem, h_after⟩
      obtain ⟨h_known, h_lt⟩ := (h.skipped t).1 h_mem
      have h_next := (h.modEq_iff.2 h_own).symm.add_le_of_lt (h_lt h_own)
      have h_ne : t ≠ tag' := fun h_eq => (h_passes.isLeast h_gap h_nodup).1.2.2 (h_eq ▸ h_mem)
      refine ⟨h_known.imp_right (h_ends.skipped t (h_lt h_own).ne').2, fun _ => ?_⟩
      exact lt_of_le_of_ne (h_after h_own h_next) h_ne.symm
    · -- it was kept before, since it lies ahead of where the slot was
      rintro ⟨h_known, h_lt⟩
      have h_later : s.tag < t := by
        have h_ahead := h_lt h_own
        omega
      refine ⟨(h.skipped t).2 ⟨?_, fun _ => h_later⟩, fun _ _ => (h_lt h_own).le⟩
      exact h_known.imp_right (h_ends.skipped t h_later.ne').1
  · -- no generation begins there, and so the slot does not get there
    have h_ne : t ≠ s.tag := by
      rintro rfl
      exact h_own h.modEq
    rw [h.skipped, h_ends.skipped t h_ne]
    simp [h_own]

/-- **The present generation ends**, since it is skipped or retired, and the slot moves on. -/
theorem moveOn (h_same : s'.gap = s.gap ∧ s'.tag = tag' ∧ s'.skipped = skipped') :
    Course s₀ S' F' s' := by
  obtain ⟨h_gap', rfl, rfl⟩ := h_same
  have h_nodup : s.skipped.Nodup := h.sorted.imp fun h_lt => h_lt.ne
  constructor
  case gap => exact h_gap'.trans h.gap
  case tag =>
    have h_free : {t | s₀.Free S' F' t} =
        {t | t ≡ s.tag + s.gap [MOD s.gap] ∧ s.tag + s.gap ≤ t ∧ t ∉ s.skipped} :=
      Set.ext fun t => h.free_next h_ends h_gap
    rw [h_free]
    exact h_passes.isLeast h_gap h_nodup
  case sorted => exact h.sorted.sublist h_passes.sublist
  case skipped => exact fun t => h.skipped_next h_gap h_ends h_passes
  case retired =>
    intro t ht
    have h_le := h_passes.le
    by_cases h_eq : t = s.tag
    · omega
    · -- retired before, so it lay behind the slot already
      have h_lt := h.retired t ((h_ends.retired t h_eq).1 ht)
      omega

end MoveOn

/-- The end of a later generation is recorded. -/
theorem record (h : Course s₀ S F s) (h_later : s.tag < u) (h_new : u ∉ s.skipped)
    (h_same : s'.gap = s.gap ∧ s'.tag = s.tag ∧ s'.skipped = insertSkip u s.skipped) :
    Course s₀ (S ∪ {u}) F s' := by
  obtain ⟨h_gap, h_tag, h_skipped⟩ := h_same
  constructor
  case gap => exact h_gap.trans h.gap
  case tag =>
    -- the generation of the slot is still the first that is free: a later one has been taken
    rw [h_tag]
    exact ⟨h.tag.1.union h_later.ne, fun t ht => h.tag.2 (ht.mono Finset.subset_union_left)⟩
  case sorted => exact h_skipped ▸ pairwise_insertSkip h_new h.sorted
  case skipped =>
    intro t
    rw [h_skipped, mem_insertSkip, h.skipped, h_tag, Finset.mem_union, Finset.mem_singleton]
    constructor
    · rintro (rfl | ⟨h_known, h_ahead⟩)
      · exact ⟨.inr (.inr rfl), fun _ => h_later⟩
      · exact ⟨h_known.imp_right .inl, h_ahead⟩
    · rintro ⟨h_old | h_old | rfl, h_ahead⟩
      · exact .inr ⟨.inl h_old, h_ahead⟩
      · exact .inr ⟨.inr h_old, h_ahead⟩
      · exact .inl rfl
  case retired => exact h_tag ▸ h.retired

end Course

/-! ### Steps -/

/-- The generation that a task skips. -/
def Task.skips? : Task → Option Nat
  | .skip tag => some tag
  | _ => none

/-- The generation that a task retires, since it hands the full flush back. -/
def Task.retires? : Task → Option Nat
  | .release flush => if flush.kind = .full then some flush.tag else none
  | _ => none

namespace Course

/-- A skip that is no fault. -/
theorem skipOver (h : Course s₀ S F s) (h_gap : 0 < s.gap) (h_live : ¬ s.Stopped)
    (h_skip : s.skipOver t = (.ok (), s')) : Course s₀ (S ∪ {t}) F s' := by
  rcases of_skipOver h_live h_skip with
    ⟨rfl, -, -, tag', skipped', rfl, h_passes⟩ | ⟨h_later, h_new, rfl⟩
  · exact h.moveOn h_gap (.skip S F s.tag) h_passes ⟨rfl, rfl, rfl⟩
  · exact h.record h_later h_new ⟨rfl, rfl, rfl⟩

/-- A full flush that is taken back. -/
theorem retire (h : Course s₀ S F s) (h_gap : 0 < s.gap) (h_kind : flush.kind = .full)
    (h_back : s.handBack flush = (.ok (), s')) : Course s₀ S (F ∪ {flush.tag}) s' := by
  obtain ⟨-, h_tag, tag', skipped', rfl, h_passes⟩ := of_handBack_full h_kind h_back
  rw [h_tag]
  exact h.moveOn h_gap (.retire S F s.tag) h_passes ⟨rfl, rfl, rfl⟩

/-- The course behind a release. -/
theorem runRelease (h : Course s₀ S F s) (h_gap : 0 < s.gap)
    (h_sound : ∀ broken, (Slot.run (.release flush) s).1 ≠ faulting broken)
    (h_live : ¬ (Slot.run (.release flush) s).2.Stopped) :
    Course s₀ S (F ∪ (Task.release flush).retires?.toFinset) (Slot.run (.release flush) s).2 := by
  rw [Slot.run] at h_sound h_live ⊢
  rw [Task.retires?]
  cases h_back : s.handBack flush with
  | mk result s' =>
    rw [h_back] at h_sound h_live
    rcases result with (error | broken) | _
    · obtain ⟨reason, rfl⟩ := of_handBack_refused h_back
      exact absurd ⟨reason, rfl⟩ h_live
    · exact absurd rfl (h_sound broken)
    · cases h_kind : flush.kind with
      | full =>
        rw [if_pos rfl, Option.toFinset_some]
        exact h.retire h_gap h_kind h_back
      | early =>
        -- an early flush retires nothing
        rw [if_neg (by decide), Option.toFinset_none, Finset.union_empty]
        obtain ⟨-, -, rfl⟩ := of_handBack_early h_kind h_back
        exact h.congr rfl ⟨rfl, rfl⟩

/-- The course behind a skip. -/
theorem runSkip (h : Course s₀ S F s) (h_gap : 0 < s.gap)
    (h_sound : ∀ broken, (Slot.run (.skip t) s).1 ≠ faulting broken) (h_live : ¬ s.Stopped) :
    Course s₀ (S ∪ {t}) F (Slot.run (.skip t) s).2 := by
  rw [Slot.run] at h_sound ⊢
  cases h_skip : s.skipOver t with
  | mk result s' =>
    rw [h_skip] at h_sound
    rcases result with broken | _
    · exact absurd rfl (h_sound broken)
    · exact h.skipOver h_gap h_live h_skip

/-- **A step on the course**, if it is no fault and does not stop the slot. -/
theorem run (h : Course s₀ S F s) (h_gap : 0 < s.gap)
    (h_sound : ∀ broken, (Slot.run task s).1 ≠ faulting broken)
    (h_live : ¬ (Slot.run task s).2.Stopped) :
    Course s₀ (S ∪ task.skips?.toFinset) (F ∪ task.retires?.toFinset) (Slot.run task s).2 := by
  -- a task skips one generation or retires one, or does neither
  have h_none : ∀ G : Finset Nat, G ∪ (none : Option Nat).toFinset = G := fun G => by
    rw [Option.toFinset_none, Finset.union_empty]
  cases task with
  | release flush =>
    change Course s₀ (S ∪ (none : Option Nat).toFinset) _ _
    rw [h_none]
    exact h.runRelease h_gap h_sound h_live
  | skip tag =>
    have h_before : ¬ s.Stopped := fun h_stopped => h_live (h_stopped.run (.skip tag))
    change Course s₀ _ (F ∪ (none : Option Nat).toFinset) _
    rw [h_none]
    exact h.runSkip h_gap h_sound h_before
  | _ =>
    -- all other steps leave the generation, the gap and the skipped ones
    change Course s₀ (S ∪ (none : Option Nat).toFinset) (F ∪ (none : Option Nat).toFinset) _
    rw [h_none, h_none]
    refine h.congr ?_ (same_run ?_ ?_ s)
    · exact (keeps_run (keeps_sizes s.gap s.capacity) _ (fun _ _ _ => trivial) ⟨rfl, rfl⟩).1
    · rintro _ ⟨⟩
    · rintro _ ⟨⟩

end Course

/-! ### Runs -/

/-- The task that makes a step in this event. -/
def stepped (m : Machine Slot Task Result) : Event Task Empty → List Task
  | .run i =>
    match m.calls[i]? with
    | some (.ready task) => [task]
    | _ => []
  | .expire i =>
    match m.calls[i]? with
    | some (.parked _ _ (some late)) => [late]
    | _ => []
  | _ => []

/-- The step of an event is that of its call. -/
theorem Performs.stepped (h : Performs m e i task) : stepped m e = [task] := by
  rcases h with ⟨rfl, hi⟩ | ⟨c, wake, rfl, hi⟩ <;> rw [Slot.stepped, hi]

/-- The generations that are skipped in these events, each by the step of a call. -/
def skippedIn (m : Machine Slot Task Result) (es : List (Event Task Empty)) : Finset Nat :=
  ((Machine.noted program stepped m es).filterMap Task.skips?).toFinset

/-- The generations that are retired in these events, each by a call that hands a full flush back. -/
def retiredIn (m : Machine Slot Task Result) (es : List (Event Task Empty)) : Finset Nat :=
  ((Machine.noted program stepped m es).filterMap Task.retires?).toFinset

/-- One step adds what it is about, if anything. -/
theorem toFinset_filterMap_concat (f : Task → Option Nat) (tasks : List Task) (task : Task) :
    ((tasks ++ [task]).filterMap f).toFinset = (tasks.filterMap f).toFinset ∪ (f task).toFinset := by
  rw [List.filterMap_append, List.toFinset_append]
  cases h_eq : f task with
  | none => rw [List.filterMap_cons_none h_eq]; rfl
  | some tag => rw [List.filterMap_cons_some h_eq]; rfl

/-- **Where a slot gets to**: whatever calls are made on it and in whatever order they make their steps,
what counts is which generations have been skipped and which were retired. -/
theorem course_steps (h_gap : 0 < m.state.gap)
    (h_here : ¬ m.state.Stopped → Course m.state ∅ ∅ m.state)
    (h_steps : m.steps program es = some m') (h_sound : ¬ Faulted m') (h_live : ¬ m'.state.Stopped) :
    Course m.state (skippedIn m es) (retiredIn m es) m'.state := by
  induction es using List.reverseRecOn generalizing m' with
  | nil =>
    cases h_steps
    exact h_here h_live
  | append_singleton es e ih =>
    obtain ⟨m₁, h₁, h_step⟩ := Machine.steps_concat _ h_steps
    have h_before := ih h₁ (not_faulted_of_step h_sound h_step)
    rw [skippedIn, retiredIn, Machine.noted_concat h₁ h_step]
    -- a call that is made skips and retires nothing yet
    rcases event_cases h_step with ⟨start, rfl, -, h_state⟩ |
      ⟨i, task, h_performs, h_state, status, h_self, h_leads⟩
    · have h_nothing : stepped m₁ (.call start) = [] := rfl
      rw [h_nothing, List.append_nil, h_state]
      exact h_before (h_state ▸ h_live)
    · rw [h_state] at h_live ⊢
      have h_live₁ : ¬ m₁.state.Stopped := fun h_stopped => h_live (h_stopped.run task)
      have h_course := h_before h_live₁
      rw [h_performs.stepped, toFinset_filterMap_concat, toFinset_filterMap_concat]
      exact h_course.run (h_course.gap ▸ h_gap) (sound_of_step h_sound h_self h_leads) h_live

/-! ### Skips, one after another -/

/-- These generations are skipped one after another, the first by the call `i`. -/
def skipCalls : Nat → List Nat → List (Event Task Empty)
  | _, [] => []
  | i, t :: order => [.call (.skip t), .run i, .run i] ++ skipCalls (i + 1) order

/-- A skip is no fault where its generation is not used up and not begun, and another one is left. -/
theorem exists_skipOver (h_live : ¬ s.Stopped) (ht : s.Free ∅ ∅ t)
    (h_open : s.tag = t → s.phase = .filling ∧ s.dirty = 0 ∧ s.highWater ≤ s.buffer.size)
    (h_limit : u < Word.limit) (hu : s.Free ∅ ∅ u) (h_ne : u ≠ t) :
    ∃ s', s.skipOver t = (.ok (), s') := by
  rcases ht.le.eq_or_lt with rfl | h_lt
  · obtain ⟨h_phase, h_dirty, h_high⟩ := h_open rfl
    have h_next : s.tag + s.gap ≤ u := hu.modEq.symm.add_le_of_lt (lt_of_le_of_ne hu.le h_ne.symm)
    rw [skipOver_now h_phase h_dirty]
    rcases advance_passes h_high (h_next.trans_lt h_limit) with ⟨tag, skipped, h_eq, -⟩ | h_out
    · exact ⟨_, h_eq⟩
    · have h_le := h_out.limit_le (modEq_add_gap.2 hu.modEq) h_next hu.not_recorded
      omega
  · exact ⟨_, skipOver_ahead h_live h_lt ht.not_recorded⟩

/-- The steps of a skip that is no fault. -/
theorem steps_skip (h : m.state.skipOver t = (.ok (), s)) :
    m.steps program [.call (.skip t), .run m.calls.length, .run m.calls.length] =
      some ⟨s, m.calls.map (Status.woken 0) ++ [.finished (.ok .done)]⟩ := by
  have h_run : run (.skip t) m.state = (.goto (.announce (.ok .done)), s) := by rw [run, h]
  rw [Machine.steps, Machine.step, Option.bind_some, Machine.steps, step_goto m.calls h_run,
    Option.bind_some, Machine.steps, step_announce, Option.bind_some, Machine.steps]

/-- Of two moves the second decides. -/
theorem renewed_renewed (s : Slot) (tag tag' : Nat) (skipped skipped' : List Nat) :
    (s.renewed tag skipped).renewed tag' skipped' = s.renewed tag' skipped' := by
  have h_clear : ∀ b : Buffer, b.clear 0 = b := fun b => by simp [Buffer.clear, Bytes.zeros]
  simp only [renewed, h_clear]

/-- The slot `s` is what becomes of `s₀` when nothing is done but skip the generations `S`: it has moved
on and is clean, or it is as it was but for the skips that are recorded. -/
structure SkippedTo (s₀ : Slot) (S : Finset Nat) (s : Slot) : Prop extends Course s₀ S ∅ s where
  state : (s₀.tag ∈ S ∧ s = s₀.renewed s.tag s.skipped) ∨
    (s₀.tag ∉ S ∧ s = { s₀ with skipped := s.skipped })

namespace SkippedTo

/-- There is only one way to have skipped a set of generations. -/
theorem unique (h : SkippedTo s₀ S s) (h' : SkippedTo s₀ S s') : s = s' := by
  obtain ⟨h_tag, h_skipped⟩ := h.agree h'.toCourse
  rcases h.state with ⟨h_mem, h_eq⟩ | ⟨h_mem, h_eq⟩
  · rcases h'.state with ⟨-, h_eq'⟩ | ⟨h_not, -⟩
    · rw [h_eq, h_eq', h_tag, h_skipped]
    · exact absurd h_mem h_not
  · rcases h'.state with ⟨h_not, -⟩ | ⟨-, h_eq'⟩
    · exact absurd h_not h_mem
    · rw [h_eq, h_eq', h_skipped]

theorem phase_eq (h : SkippedTo s₀ S s) (h_phase : s₀.phase = .filling) : s.phase = .filling := by
  rcases h.state with ⟨-, h_eq⟩ | ⟨-, h_eq⟩
  · exact congrArg phase h_eq
  · exact (congrArg phase h_eq).trans h_phase

theorem dirty_eq (h : SkippedTo s₀ S s) (h_dirty : s₀.dirty = 0) : s.dirty = 0 := by
  rcases h.state with ⟨-, h_eq⟩ | ⟨-, h_eq⟩
  · exact congrArg dirty h_eq
  · exact (congrArg dirty h_eq).trans h_dirty

/-- The high-water mark falls only if the open generation is among the skips. -/
theorem highWater_eq (h : SkippedTo s₀ S s) :
    s.highWater = if s₀.tag ∈ S then 0 else s₀.highWater := by
  rcases h.state with ⟨h_mem, h_eq⟩ | ⟨h_mem, h_eq⟩
  · rw [if_pos h_mem]
    exact congrArg highWater h_eq
  · rw [if_neg h_mem, h_eq]

theorem high_le (h : SkippedTo s₀ S s) (h_high : s₀.highWater ≤ s₀.buffer.size) :
    s.highWater ≤ s.buffer.size := by
  rcases h.state with ⟨-, h_eq⟩ | ⟨-, h_eq⟩
  · rw [h_eq]
    exact Nat.zero_le _
  · rw [h_eq]
    exact h_high

/-- One more skip. -/
theorem skip (h : SkippedTo s₀ S s) (h_gap : 0 < s.gap) (h_live : ¬ s.Stopped)
    (h_skip : s.skipOver t = (.ok (), s')) : SkippedTo s₀ (S ∪ {t}) s' := by
  refine ⟨h.toCourse.skipOver h_gap h_live h_skip, ?_⟩
  rw [Finset.mem_union, Finset.mem_singleton]
  rcases of_skipOver h_live h_skip with
    ⟨rfl, -, -, tag', skipped', rfl, -⟩ | ⟨h_later, -, rfl⟩
  · -- the slot moves on, maybe not for the first time
    rcases h.state with ⟨h_mem, h_eq⟩ | ⟨-, h_eq⟩
    · refine .inl ⟨.inl h_mem, ?_⟩
      calc s.renewed tag' skipped'
          = (s₀.renewed s.tag s.skipped).renewed tag' skipped' :=
            congrArg (fun s₁ => s₁.renewed tag' skipped') h_eq
        _ = s₀.renewed tag' skipped' := renewed_renewed s₀ _ _ _ _
    · refine .inl ⟨.inr (congrArg Slot.tag h_eq).symm, ?_⟩
      exact congrArg (fun s₁ => s₁.renewed tag' skipped') h_eq
  · have h_ne : s₀.tag ≠ t := (h.tag.1.le.trans_lt h_later).ne
    rw [or_iff_left h_ne]
    -- what is recorded changes, and nothing else
    rcases h.state with ⟨h_mem, h_eq⟩ | ⟨h_mem, h_eq⟩
    · exact .inl ⟨h_mem, congrArg (fun s₁ => { s₁ with skipped := insertSkip t s.skipped }) h_eq⟩
    · exact .inr ⟨h_mem, congrArg (fun s₁ => { s₁ with skipped := insertSkip t s.skipped }) h_eq⟩

end SkippedTo

/-- **Skips one after another**, in any order. -/
theorem steps_skipCalls {order : List Nat} (h_phase : s₀.phase = .filling) (h_dirty : s₀.dirty = 0)
    (h_gap : 0 < s₀.gap) (h_high : s₀.highWater ≤ s₀.buffer.size) (h : SkippedTo s₀ S m.state)
    (h_nodup : order.Nodup) (h_free : ∀ t ∈ order, s₀.Free S ∅ t)
    (h_limit : u < Word.limit) (hu : s₀.Free (S ∪ order.toFinset) ∅ u) :
    ∃ m', m.steps program (skipCalls m.calls.length order) = some m' ∧
      SkippedTo s₀ (S ∪ order.toFinset) m'.state ∧
      ∀ k < order.length, m'.calls[m.calls.length + k]? = some (.finished (.ok .done)) := by
  induction order generalizing m S with
  | nil =>
    rw [List.toFinset_nil, Finset.union_empty]
    exact ⟨m, rfl, h, fun k hk => absurd hk (Nat.not_lt_zero k)⟩
  | cons t order ih =>
    obtain ⟨h_fresh, h_nodup⟩ := List.nodup_cons.1 h_nodup
    have h_union : S ∪ (t :: order).toFinset = (S ∪ {t}) ∪ order.toFinset := by
      rw [List.toFinset_cons, Finset.insert_eq, Finset.union_assoc]
    rw [h_union] at hu ⊢
    have h_live : ¬ m.state.Stopped := not_stopped (h.phase_eq h_phase) nofun
    have h_ne : u ≠ t := by
      rintro rfl
      exact hu.not_skipped (by simp)
    have h_sub : S ⊆ S ∪ {t} ∪ order.toFinset := by
      rw [Finset.union_assoc]
      exact Finset.subset_union_left
    -- there is room behind the skips that are still to come, so that the first one finds it
    obtain ⟨s', h_skip⟩ := exists_skipOver h_live (h.free_iff.1 (h_free t List.mem_cons_self))
      (fun _ => ⟨h.phase_eq h_phase, h.dirty_eq h_dirty, h.high_le h_high⟩) h_limit
      (h.free_iff.1 (hu.mono h_sub)) h_ne
    have h_next := h.skip (h.gap ▸ h_gap) h_live h_skip
    -- the first skip makes its steps, and the others are still free to follow
    have h_first := steps_skip h_skip
    have h_length :
        (m.calls.map (Status.woken 0) ++ [Status.finished (Except.ok Reply.done)]).length =
          m.calls.length + 1 := by
      simp
    have h_free' : ∀ t' ∈ order, s₀.Free (S ∪ {t}) ∅ t' := fun t' ht' =>
      (h_free t' (List.mem_cons_of_mem t ht')).union fun h_eq => h_fresh (h_eq ▸ ht')
    obtain ⟨m', h_rest, h_done, h_calls⟩ := ih
      (m := ⟨s', m.calls.map (Status.woken 0) ++ [.finished (.ok .done)]⟩) h_next h_nodup h_free' hu
    rw [h_length] at h_rest h_calls
    refine ⟨m', ?_, h_done, fun k hk => ?_⟩
    · rw [skipCalls, Machine.steps_append, h_first, Option.bind_some]
      exact h_rest
    · cases k with
      | zero =>
        refine Machine.steps_finished h_rest ?_
        simp
      | succ k =>
        rw [← Nat.add_assoc, Nat.add_right_comm]
        exact h_calls k (Nat.lt_of_succ_lt_succ hk)

/-! ### Slots as they come -/

section Created

variable {index capacity ringSize : Nat} (h_create : Slot.create index capacity ringSize = .ok slot)
  (h_capacity : 0 < capacity) (h_ring : 0 < ringSize)
  (h_steps : (Machine.idle slot).steps program es = some m) (h_sound : ¬ Faulted m)

include h_create h_capacity h_ring h_steps

/-- The gap of a created slot is positive. -/
theorem gap_pos : 0 < m.state.gap := by
  obtain ⟨-, h_new⟩ := of_create h_create h_capacity h_ring
  exact (gap_steps h_steps).symm ▸ h_new.gap_pos

include h_sound

/-- One may begin to reckon anywhere in a run. -/
theorem course_here (h_live : ¬ m.state.Stopped) : Course m.state ∅ ∅ m.state := by
  obtain ⟨-, h_new⟩ := of_create h_create h_capacity h_ring
  obtain ⟨-, -, -, h_none, -⟩ := tracked_create h_create h_capacity
  have h_first : Course slot ∅ ∅ slot := .start h_none
  have h_course : Course slot _ _ m.state :=
    course_steps (m := Machine.idle slot) h_new.gap_pos (fun _ => h_first) h_steps h_sound h_live
  exact h_course.here

/-- What was filled fits the buffer of an open slot. -/
theorem highWater_le_size (h_orderly : Orderly slot es) (h_phase : m.state.phase = .filling) :
    m.state.highWater ≤ m.state.buffer.size := by
  obtain ⟨-, h_new⟩ := of_create h_create h_capacity h_ring
  have h_summary := summary h_new h_orderly h_steps h_sound (not_stopped h_phase nofun)
  obtain ⟨h_holds, -⟩ := h_summary.holding_inside (.inl h_phase)
  exact h_holds.size.symm ▸ h_summary.high_le

/-- All orders in which generations are skipped that may be skipped lead an open and empty slot to the
same slot. -/
theorem exists_skippedTo {S : Finset Nat} (h_orderly : Orderly slot es)
    (h_phase : m.state.phase = .filling) (h_dirty : m.state.dirty = 0)
    (h_free : ∀ t ∈ S, m.state.Free ∅ ∅ t) (h_room : ∃ u < Word.limit, m.state.Free S ∅ u) :
    ∃ s, SkippedTo m.state S s ∧ ∀ order : List Nat, order.Nodup → order.toFinset = S →
      ∃ m', m.steps program (skipCalls m.calls.length order) = some m' ∧ m'.state = s ∧
        ∀ k < order.length, m'.calls[m.calls.length + k]? = some (.finished (.ok .done)) := by
  obtain ⟨u, h_limit, hu⟩ := h_room
  have h_gap := gap_pos h_create h_capacity h_ring h_steps
  have h_high := highWater_le_size h_create h_capacity h_ring h_steps h_sound h_orderly h_phase
  have h_start : SkippedTo m.state ∅ m.state :=
    ⟨course_here h_create h_capacity h_ring h_steps h_sound (not_stopped h_phase nofun),
      .inr ⟨by simp, rfl⟩⟩
  have h_order : ∀ order : List Nat, order.Nodup → order.toFinset = S → ∃ m',
      m.steps program (skipCalls m.calls.length order) = some m' ∧ SkippedTo m.state S m'.state ∧
        ∀ k < order.length, m'.calls[m.calls.length + k]? = some (.finished (.ok .done)) := by
    rintro order h_nodup rfl
    rw [← Finset.empty_union order.toFinset] at hu ⊢
    exact steps_skipCalls h_phase h_dirty h_gap h_high h_start h_nodup
      (fun t ht => h_free t (List.mem_toFinset.2 ht)) h_limit hu
  -- each order leads somewhere, and there is but one slot to lead to
  obtain ⟨m₁, -, h_reached, -⟩ := h_order S.toList S.nodup_toList S.toList_toFinset
  refine ⟨m₁.state, h_reached, fun order h_nodup h_same => ?_⟩
  obtain ⟨m', h_calls, h_reached', h_done⟩ := h_order order h_nodup h_same
  exact ⟨m', h_calls, h_reached'.unique h_reached, h_done⟩

/-- A generation that was neither skipped nor retired may be skipped at any moment, unless something was
filled in it. -/
theorem run_skip_of_free {S F : Finset Nat} (h_orderly : Orderly slot es) (h_live : ¬ m.state.Stopped)
    (h_course : Course s₀ S F m.state) (ht : s₀.Free S F t)
    (h_open : m.state.tag = t → m.state.phase = .filling ∧ m.state.dirty = 0)
    (h_room : ∃ u < Word.limit, s₀.Free (S ∪ {t}) F u) :
    (run (.skip t) m.state).1 = .goto (.announce (.ok .done)) := by
  obtain ⟨u, h_limit, hu⟩ := h_room
  have h_ne : u ≠ t := by
    rintro rfl
    exact hu.not_skipped (by simp)
  have h_fits : m.state.tag = t → m.state.phase = .filling ∧ m.state.dirty = 0 ∧
      m.state.highWater ≤ m.state.buffer.size := by
    -- a skip of the open generation clears the buffer up to the high-water mark
    intro h_tag
    obtain ⟨h_phase, h_dirty⟩ := h_open h_tag
    exact ⟨h_phase, h_dirty,
      highWater_le_size h_create h_capacity h_ring h_steps h_sound h_orderly h_phase⟩
  obtain ⟨s', h_skip⟩ := exists_skipOver h_live (h_course.free_iff.1 ht) h_fits h_limit
    (h_course.free_iff.1 (hu.mono Finset.subset_union_left)) h_ne
  rw [run, h_skip]

end Created

/-- **Skips commute**, with each other and with full flushes. In whatever state a slot comes to be:

If it is open and empty, then generations `S` of it that are not recorded as skipped may be skipped one
after another in any order, as long as they and those that are recorded leave a generation with an
address. No call faults, and all orders lead to the same slot: it is open and empty in the first
generation that is neither in `S` nor recorded, and the skips ahead of it are recorded, the old and the
new ones. Its high-water mark is zero if it has moved on.

More generally, whatever calls are made and in whatever order they make their steps, as long as none
faults and nobody stops the slot, it is in the first generation that was neither skipped nor retired,
and has recorded the skips ahead; so which generations these are says where the slot is and what it has
recorded, and nothing else matters. And a skip is no fault at any moment, before the slot gets to its
generation or when it is there and nothing was filled yet. -/
theorem skips_commute {index capacity ringSize : Nat}
    (h_create : Slot.create index capacity ringSize = .ok slot) (h_capacity : 0 < capacity)
    (h_ring : 0 < ringSize) (h_orderly : Orderly slot es)
    (h_steps : (Machine.idle slot).steps program es = some m) (h_sound : ¬ Faulted m) :
    (∀ S : Finset Nat, m.state.phase = .filling → m.state.dirty = 0 →
      (∀ t ∈ S, m.state.Free ∅ ∅ t) → (∃ u < Word.limit, m.state.Free S ∅ u) →
      ∃ s, Course m.state S ∅ s ∧ s.phase = .filling ∧ s.dirty = 0 ∧
        s.highWater = (if m.state.tag ∈ S then 0 else m.state.highWater) ∧
        ∀ order : List Nat, order.Nodup → order.toFinset = S →
          ∃ m', m.steps program (skipCalls m.calls.length order) = some m' ∧ m'.state = s ∧
            ∀ k < order.length, m'.calls[m.calls.length + k]? = some (.finished (.ok .done))) ∧
    (∀ later m', m.steps program later = some m' → ¬ Faulted m' → ¬ m'.state.Stopped →
      Course m.state (skippedIn m later) (retiredIn m later) m'.state ∧
      ∀ t, Orderly slot (es ++ later) → m.state.Free (skippedIn m later) (retiredIn m later) t →
        (m'.state.tag = t → m'.state.phase = .filling ∧ m'.state.dirty = 0) →
        (∃ u < Word.limit, m.state.Free (skippedIn m later ∪ {t}) (retiredIn m later) u) →
        (run (.skip t) m'.state).1 = .goto (.announce (.ok .done))) ∧
    ∀ later₁ later₂ m₁ m₂, m.steps program later₁ = some m₁ → m.steps program later₂ = some m₂ →
      ¬ Faulted m₁ → ¬ Faulted m₂ → ¬ m₁.state.Stopped → ¬ m₂.state.Stopped →
      skippedIn m later₁ = skippedIn m later₂ → retiredIn m later₁ = retiredIn m later₂ →
      m₁.state.tag = m₂.state.tag ∧ m₁.state.skipped = m₂.state.skipped := by
  have h_gap := gap_pos h_create h_capacity h_ring h_steps
  have h_here := course_here h_create h_capacity h_ring h_steps h_sound
  have h_course : ∀ {later m'}, m.steps program later = some m' → ¬ Faulted m' →
      ¬ m'.state.Stopped → Course m.state (skippedIn m later) (retiredIn m later) m'.state :=
    fun h_later h_sound' h_live => course_steps h_gap h_here h_later h_sound' h_live
  refine ⟨fun S h_phase h_dirty h_free h_room => ?_, fun later m' h_later h_sound' h_live =>
    ⟨h_course h_later h_sound' h_live, fun t h_orderly' ht h_open h_room => ?_⟩, ?_⟩
  · -- skips alone, in any order
    obtain ⟨s, h_to, h_orders⟩ := exists_skippedTo h_create h_capacity h_ring h_steps h_sound
      h_orderly h_phase h_dirty h_free h_room
    exact ⟨s, h_to.toCourse, h_to.phase_eq h_phase, h_to.dirty_eq h_dirty, h_to.highWater_eq,
      h_orders⟩
  · have h_all : (Machine.idle slot).steps program (es ++ later) = some m' := by
      rw [Machine.steps_append, h_steps]
      exact h_later
    exact run_skip_of_free h_create h_capacity h_ring h_all h_sound' h_orderly' h_live
      (h_course h_later h_sound' h_live) ht h_open h_room
  · -- two runs that end the same generations
    intro later₁ later₂ m₁ m₂ h₁ h₂ h_sound₁ h_sound₂ h_live₁ h_live₂ h_skipped h_retired
    have h_course₁ := h_course h₁ h_sound₁ h_live₁
    rw [h_skipped, h_retired] at h_course₁
    exact h_course₁.agree (h_course h₂ h_sound₂ h_live₂)

/-- The third generation is skipped before the slot gets there. -/
def thirdSkipped : List (Event Task Empty) := [.call (.skip 4), .run 0, .run 0]

/-- The slot is still in the first generation then. -/
def withThirdSkipped : Machine Slot Task Result :=
  ⟨{ smallSlot with skipped := [4] }, [.finished (.ok .done)]⟩

/-- The first generation is filled and flushed, and the second one is skipped in between. -/
def secondSkipped : List (Event Task Empty) :=
  [.call (.fillJoin 0 0 [1, 2]), .run 1, .call (.skip 2), .run 2, .call (.release bothBytes), .run 3]

/-- Two skips lead past the third generation in either order, and so does one that is made while the
first generation is being flushed. -/
theorem skips_commute_thirdSkipped : ∃ m₁ m₂ m₃,
    (Machine.idle smallSlot).steps program thirdSkipped = some withThirdSkipped ∧
      withThirdSkipped.steps program (skipCalls 1 [0, 2]) = some m₁ ∧
      m₁.state.tag = 6 ∧ m₁.state.skipped = [] ∧
      withThirdSkipped.steps program (skipCalls 1 [2, 0]) = some m₂ ∧ m₂.state = m₁.state ∧
      withThirdSkipped.steps program secondSkipped = some m₃ ∧ m₃.state.tag = 6 ∧
      Course withThirdSkipped.state {2} {0} m₃.state := by
  have h_create : Slot.create 0 2 1 = .ok smallSlot := rfl
  have h_orderly : Orderly smallSlot thirdSkipped := by decide +kernel
  have h_steps : (Machine.idle smallSlot).steps program thirdSkipped = some withThirdSkipped := rfl
  have h_sound : ¬ Faulted withThirdSkipped := by
    rintro ⟨i, broken, hi⟩
    have h_mem := List.mem_of_getElem? hi
    simp [withThirdSkipped] at h_mem
  obtain ⟨h_orders, h_course, -⟩ :=
    skips_commute h_create (by decide) (by decide) h_orderly h_steps h_sound
  have h_free : ∀ t ∈ ({0, 2} : Finset Nat), withThirdSkipped.state.Free ∅ ∅ t := by
    intro t ht
    rw [Finset.mem_insert, Finset.mem_singleton] at ht
    rcases ht with rfl | rfl <;> exact ⟨by decide, by decide, by decide, by decide, by decide⟩
  have h_room : withThirdSkipped.state.Free {0, 2} ∅ 6 :=
    ⟨by decide, by decide, by decide, by decide, by decide⟩
  obtain ⟨s, -, -, -, -, h_all⟩ := h_orders {0, 2} rfl rfl h_free ⟨6, by decide, h_room⟩
  obtain ⟨m₁, h₁, h_state₁, -⟩ := h_all [0, 2] (by decide) rfl
  obtain ⟨m₂, h₂, h_state₂, -⟩ := h_all [2, 0] (by decide) (by decide)
  have h_first : withThirdSkipped.steps program (skipCalls 1 [0, 2]) = some ⟨
      { smallSlot with tag := 6 },
      [.finished (.ok .done), .finished (.ok .done), .finished (.ok .done)]⟩ := rfl
  cases h_first.symm.trans h₁
  -- the other way, with a flush
  obtain ⟨m₃, h₃, h_tag, h_phase, h_calls⟩ : ∃ m₃,
      withThirdSkipped.steps program secondSkipped = some m₃ ∧ m₃.state.tag = 6 ∧
        m₃.state.phase = .filling ∧ m₃.calls = [.finished (.ok .done),
          .finished (.ok (.joined (some bothBytes))), .ready (.announce (.ok .done)),
          .ready (.announce (.ok .done))] := by
    have h_possible : (withThirdSkipped.steps program secondSkipped).isSome := rfl
    exact ⟨_, (Option.some_get h_possible).symm, rfl, rfl, rfl⟩
  have h_sound₃ : ¬ Faulted m₃ := by
    rintro ⟨i, broken, hi⟩
    have h_mem := List.mem_of_getElem? hi
    rw [h_calls] at h_mem
    simp at h_mem
  obtain ⟨h_reached, -⟩ := h_course secondSkipped m₃ h₃ h_sound₃ (not_stopped h_phase nofun)
  have h_skipped : skippedIn withThirdSkipped secondSkipped = {2} := rfl
  have h_retired : retiredIn withThirdSkipped secondSkipped = {0} := rfl
  rw [h_skipped, h_retired] at h_reached
  exact ⟨_, m₂, m₃, h_steps, h₁, rfl, rfl, h₂, h_state₂.trans h_state₁.symm, h₃, h_tag, h_reached⟩

/-- Somebody fills nothing at an offset of the first generation. -/
def nothingFilled : List (Event Task Empty) := thirdSkipped ++ [.call (.fill 0 1 []), .run 1]

/-- The slot is open and empty, with a skip recorded and a high-water mark. -/
def withNothingFilled : Machine Slot Task Result :=
  ⟨{ smallSlot with skipped := [4], highWater := 1, buffer := ⟨2, [0]⟩ },
    [.finished (.ok .done), .finished (.ok (.filled ⟨0, 1, 0⟩))]⟩

/-- A skip of the second generation then leaves the other skip recorded, and it leaves the high-water
mark where the empty fill has put it. -/
theorem skips_leave_rest : ∃ m',
    (Machine.idle smallSlot).steps program nothingFilled = some withNothingFilled ∧
    withNothingFilled.state.phase = .filling ∧ withNothingFilled.state.dirty = 0 ∧
    withNothingFilled.state.Free ∅ ∅ 2 ∧
    withNothingFilled.steps program (skipCalls 2 [2]) = some m' ∧ m'.state.tag = 0 ∧
    ¬ (m'.state.skipped = [2] ∧ m'.state.dirty = 0 ∧ m'.state.highWater = 0) ∧
    m'.state.skipped = [2, 4] ∧ m'.state.highWater = 1 := by
  have h_free : withNothingFilled.state.Free ∅ ∅ 2 :=
    ⟨by decide, by decide, by decide, by decide, by decide⟩
  refine ⟨⟨{ withNothingFilled.state with skipped := [2, 4] },
    withNothingFilled.calls ++ [.finished (.ok .done)]⟩, rfl, rfl, rfl, h_free, rfl, rfl, ?_, rfl, rfl⟩
  rintro ⟨-, -, h_high⟩
  cases h_high

end GroupCommit.Slot
