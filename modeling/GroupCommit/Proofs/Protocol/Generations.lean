import GroupCommit.Proofs.Protocol.Flushing

/-!
# Ending a generation

A slot ends a generation when its full flush is handed back, and when a block is skipped that it has
reached. In both cases no address of the block is left open, and the slot moves on to the first of its
blocks that is not skipped. A block that is skipped before the slot has reached it is recorded.

* `SlotInv.renew`: a slot at the start of another generation.
* `SlotInv.retire`: the full flush of a slot is handed back.
* `Inv.skip`: a block of the middle is skipped, whatever state its slot is in.
-/

namespace GroupCommit.Log

variable {g : Geometry} {i k : Nat} {A A' : Account} {calls : Nat} {s s' : Slot} {w : Work}
  {P : Picture}

/-! ### Moving on -/

/-- Nothing was noted of a generation of which no call to the Writer was made. -/
theorem flow_unused {J : Journal} {tag : Nat} (h : J.flow g.capacity tag ≠ .misused)
    (h_none : ∀ w, .started w ∈ J → w.IsFlush → w.address ≠ tag) :
    J.flow g.capacity tag = .calm 0 := by
  -- a note on the generation would be on a call to the Writer or on its return
  have h_empty : J.flushNotes tag = [] := by
    cases h_notes : J.flushNotes tag with
    | nil => rfl
    | cons note rest =>
      have h_mem : note ∈ J.flushNotes tag := h_notes ▸ List.mem_cons_self
      obtain ⟨h_in, h_concerns⟩ := List.mem_filter.1 h_mem
      have h_concerns : note.Concerns tag := of_decide_eq_true h_concerns
      cases note with
      | reserved r => exact h_concerns.elim
      | started w => exact absurd h_concerns.2 (h_none w h_in h_concerns.1)
      | returned w outcome =>
        -- the automaton gets stuck on a return before any call
        rw [Journal.flow, h_notes] at h
        exact absurd (Flow.foldl_misused g.capacity rest) h
  rw [Journal.flow, h_empty]
  rfl

section Renew

variable {tag : Nat} {skipped : List Nat} {b : Buffer}

/-- The next blocks of a slot that ends its generation. -/
theorem SlotInv.next (h : SlotInv g A k s) :
    g.capacity ∣ s.tag + s.gap ∧ g.index (s.tag + s.gap) = k ∧ g.capacity ≤ s.gap := by
  refine ⟨?_, ?_, ?_⟩
  · rw [h.gap_eq]
    exact Geometry.dvd_add_gap h.tag_dvd
  · rw [h.gap_eq, Geometry.index_add_gap, h.tag_index]
  · rw [h.gap_eq]
    exact Nat.le_mul_of_pos_right _ g.ringSize_pos

/-- What a slot leaves behind when it moves on is durable, or was skipped. -/
theorem SlotInv.closed_next (h : SlotInv g A k s) (hev : Evolves g i k A A')
    (h_over : ∀ a, g.InBlock s.tag a → A'.Bypassed g a ∨ A'.Durable g a)
    (h_passes : Slot.Passes s.gap (s.tag + s.gap) s.skipped tag skipped) :
    ∀ a < tag, g.index a = k → A'.Bypassed g a ∨ A'.Durable g a := by
  intro a ha h_a
  obtain ⟨h_dvd, h_index, -⟩ := h.next
  rcases Nat.lt_or_ge a s.tag with h_before | h_from
  · exact (h.closed a h_before h_a).imp hev.bypassed_of (hev.durable a)
  · rcases Geometry.inBlock_or_gap_le h.tag_dvd (h_a.trans h.tag_index.symm) h_from with
      h_in | h_beyond
    · exact h_over a h_in
    · -- what the slot passes on its way was skipped
      obtain ⟨t, h_mem, h_in⟩ := h_passes.covered h.gap_eq h_dvd (h_a.trans h_index.symm)
        (h.gap_eq ▸ h_beyond) ha
      exact .inl ⟨t, hev.bypassed (h.skipped t h_mem).2.1, h_in⟩

/-- The skips that a slot has recorded are of its next blocks. -/
theorem SlotInv.skips_ahead (h : SlotInv g A k s) (h_sound : A.Sound g calls) : ∀ t ∈ s.skipped,
    s.tag + s.gap ≤ t ∧ g.capacity ∣ t ∧ g.index t = g.index (s.tag + s.gap) := by
  intro t ht
  obtain ⟨-, h_index, -⟩ := h.next
  obtain ⟨h_lt, h_mem, h_same⟩ := h.skipped t ht
  have h_dvd := h_sound.bypassed_dvd t h_mem
  refine ⟨?_, h_dvd, h_same.trans h_index.symm⟩
  rw [h.gap_eq]
  exact Geometry.gap_separate h.tag_dvd h_dvd (h.tag_index.trans h_same.symm) h_lt

/-- A block without a filled address is as it should be for a clean buffer. -/
theorem Account.Sound.filling_renewed (h_sound : A.Sound g calls)
    (h_none : ∀ a ∈ A.filled, ¬ g.InBlock tag a) (h_size : b.size = g.capacity)
    (h_blank : ∀ j < g.capacity, s.highWater ≤ j → b.read j = 0) :
    PhaseInv g A (({ s with buffer := b } : Slot).renewed tag skipped) .filling := by
  refine ⟨g.capacity_pos, ⟨h_size, ?_, ?_⟩, 0, le_rfl, ?_⟩
  · intro j hj h_mem
    refine absurd ?_ (h_none _ h_mem)
    exact ⟨Nat.le_add_right _ _, by simp only [Slot.renewed]; omega⟩
  · intro j hj _
    simp only [Slot.renewed]
    rw [Buffer.read_clear]
    split
    · rfl
    · next h_not => exact h_blank j hj (by omega)
  · -- a flush of the new generation would have found a byte filled in it
    refine flow_unused (h_sound.flow _) fun v h_started h_flush h_eq => ?_
    obtain ⟨-, -, a, ha, h_in, -⟩ := h_sound.flush v h_started h_flush
    have h_eq : v.address = tag := h_eq
    exact h_none a ha (h_eq ▸ h_in)

/-- **A slot at the start of another generation** satisfies the invariant, provided that no address of
the block it leaves is open and its buffer is clean above the high water. -/
theorem SlotInv.renew (h : SlotInv g A k s) (h_before : A.Sound g calls) (h_sound : A'.Sound g calls)
    (hev : Evolves g i k A A') (h_filled : A'.filled = A.filled)
    (h_bypassed : ∀ t ∈ A'.bypassed, t ∈ A.bypassed ∨ t = s.tag) (h_live : ¬ s.Stopped)
    (h_over : ∀ a, g.InBlock s.tag a → A'.Bypassed g a ∨ A'.Durable g a)
    (h_size : b.size = g.capacity) (h_blank : ∀ j < g.capacity, s.highWater ≤ j → b.read j = 0)
    (h_passes : Slot.Passes s.gap (s.tag + s.gap) s.skipped tag skipped) :
    SlotInv g A' k (({ s with buffer := b } : Slot).renewed tag skipped) := by
  obtain ⟨h_dvd, h_index, h_ring⟩ := h.next
  have h_pos := g.capacity_pos
  have h_le := h_passes.le
  obtain ⟨h_tag_dvd, h_tag_index⟩ := h_passes.tag_index h.gap_eq h_dvd
  have h_tag_index := h_tag_index.trans h_index
  -- nothing is filled ahead of the generation that ends
  have h_none : ∀ a ∈ A'.filled, ¬ g.InBlock tag a := by
    intro a ha h_in
    rw [h_filled] at ha
    have := h.ahead a ha ((h_in.index_eq h_tag_dvd).trans h_tag_index)
    have := h_in.1
    omega
  exact {
    index_eq := h.index_eq
    capacity_eq := h.capacity_eq
    gap_eq := h.gap_eq
    tag_dvd := h_tag_dvd
    tag_index := h_tag_index
    closed := h.closed_next hev h_over h_passes
    ahead := by
      intro a ha h_a
      rw [h_filled] at ha
      have := h.ahead a ha h_a
      simp only [Slot.renewed]
      omega
    dirty_eq := by
      refine (Finset.card_eq_zero.2 (Finset.filter_eq_empty_iff.2 ?_)).symm
      exact fun a ha => h_none a ha
    below := fun a ha h_in => absurd h_in (h_none a ha)
    last := fun h_high => absurd h_high (Nat.lt_irrefl 0)
    claim_le := h.claim_le
    skipped := by
      intro t ht
      obtain ⟨-, h_mem, h_same⟩ := h.skipped t (h_passes.sublist.subset ht)
      have h_ahead := h_passes.lt h.gap_eq h_dvd h.skipped_nodup (h.skips_ahead h_before)
      exact ⟨h_ahead t ht, hev.bypassed h_mem, h_same⟩
    skipped_nodup := h.skipped_nodup.sublist h_passes.sublist
    unpassed := by
      intro _ t ht h_same h_from
      simp only [Slot.renewed] at h_from
      have h_old : t ∈ A.bypassed := (h_bypassed t ht).resolve_right (by omega)
      have h_skipped := h.unpassed h_live t h_old h_same (by omega)
      -- the block is left over unless the slot has passed it
      exact (h_passes.mem_or_lt (by omega) h_skipped).resolve_right (by omega)
    phase := h_sound.filling_renewed h_none h_size h_blank }

end Renew

/-- The room that is left in the address space lets a slot move on from a block that is reserved. -/
theorem Account.Sound.room (h : A.Sound g calls) {tag gap : Nat}
    (h_gap : gap = g.capacity * g.ringSize) (h_le : tag ≤ A.content.length) :
    tag + gap < Word.limit := by
  have : A.content.length + g.capacity * g.ringSize < Word.limit := h.layout.room
  omega

/-- A slot that ends its generation does so without a fault. -/
theorem SlotInv.advance (h : SlotInv g A k s) (h_sound : A.Sound g calls) {b : Buffer}
    (h_size : b.size = g.capacity) (h_tag : s.tag ≤ A.content.length) :
    ∃ tag skipped, ({ s with buffer := b } : Slot).advance =
        (.ok (), ({ s with buffer := b } : Slot).renewed tag skipped) ∧
      Slot.Passes s.gap (s.tag + s.gap) s.skipped tag skipped := by
  refine Slot.advance_ok ?_ (h_sound.room h.gap_eq h_tag) ?_
  · simp only [h_size]
    exact h.highWater_le
  · intro t ht
    have := h_sound.bypassed_le t (h.skipped t ht).2.1
    exact h_sound.room h.gap_eq (by omega)

/-- A slot that moves on leaves its generation. -/
theorem renewed_advances {b : Buffer} {tag : Nat} {skipped : List Nat}
    (h_passes : Slot.Passes s.gap (s.tag + s.gap) s.skipped tag skipped)
    (A' : Account) :
    Advances g A A' s (({ s with buffer := b } : Slot).renewed tag skipped) := by
  have h_le := h_passes.le
  exact ⟨by simp only [Slot.renewed]; omega, fun _ => .inl rfl⟩

/-! ### A full flush -/

/-- A slot whose full flush is handed back. -/
theorem SlotInv.retire (h : SlotInv g A k s) (h_sound : A.Sound g calls) {hold : Hold}
    (h_on : HoldOn g A i hold s) (h_stage : hold.stage = .written) (h_phase : s.phase = .flushing)
    {tag : Nat} {skipped : List Nat}
    (h_passes : Slot.Passes s.gap (s.tag + s.gap) s.skipped tag skipped) :
    SlotInv g A k (({ s with buffer := hold.flush.buffer } : Slot).renewed tag skipped) := by
  have h_dirty : PhaseInv g A s .flushing := h_phase ▸ h.phase
  obtain ⟨h_written, -⟩ : StageInv g A i hold.flush .written := h_stage ▸ h_on.stage
  have h_buffer := h_on.buffer
  refine h.renew h_sound h_sound (Evolves.refl A) rfl (fun t ht => .inl ht) ?_ ?_ h_buffer.size
    ?_ h_passes
    (i := i)
  · exact Slot.not_stopped h_phase (by simp)
  · -- every address of a full block is filled, and what is filled is written
    intro a h_in
    exact .inr (h_written a (h.full_block h_dirty h_in) (h_on.tag_eq.symm ▸ h_in))
  · -- behind the mark the buffer is blank, for nothing was filled in there
    intro j hj h_high
    refine h_buffer.blank j hj fun h_mem => ?_
    have := h.below _ h_mem ⟨Nat.le_add_right _ _, by omega⟩
    omega

/-! ### Skipping a block -/

/-- A block that a call may skip. -/
structure Skippable (g : Geometry) (A : Account) (i tag : Nat) : Prop where
  dvd : g.capacity ∣ tag
  owns : ∀ a, g.InBlock tag a → A.Owns i a
  fresh : ∀ a, g.InBlock tag a → ¬ A.Placed g a

namespace Skippable

variable {tag : Nat}

/-- The generation lies within the content. -/
theorem le_content (h : Skippable g A i tag) (h_sound : A.Sound g calls) :
    tag + g.capacity ≤ A.content.length := by
  have h_pos := g.capacity_pos
  have := h_sound.owned_lt (h.owns (tag + g.capacity - 1) ⟨by omega, by omega⟩)
  omega

/-- It has not been bypassed before. -/
theorem notMem (h : Skippable g A i tag) : tag ∉ A.bypassed := by
  intro h_mem
  have h_in : g.InBlock tag tag := Geometry.inBlock_self tag
  exact h.fresh tag h_in (.inr ⟨tag, h_mem, h_in⟩)

/-- Bypassing it keeps the account sound. -/
theorem sound (h : Skippable g A i tag) (h_sound : A.Sound g calls) :
    (A.bypass tag).Sound g calls :=
  h_sound.bypass h.dvd (h.le_content h_sound) fun a ha h_in => h.fresh a h_in (.inl ha)

theorem evolves (h : Skippable g A i tag) : Evolves g i (g.index tag) A (A.bypass tag) :=
  Evolves.bypass rfl h.owns

/-- The slot has not left it behind. -/
theorem tag_le (h : Skippable g A i tag) (hs : SlotInv g A (g.index tag) s) : s.tag ≤ tag := by
  by_contra h_lt
  -- a slot leaves only what is durable or skipped, and the block is neither
  have h_in : g.InBlock tag tag := Geometry.inBlock_self tag
  rcases hs.closed tag (by omega) rfl with h_bypassed | h_durable
  · exact h.fresh tag h_in (.inr h_bypassed)
  · exact h.fresh tag h_in h_durable.1

/-- A slot that has it open is empty. -/
theorem empty (h : Skippable g A i tag) (hs : SlotInv g A (g.index tag) s) (h_tag : s.tag = tag)
    (h_live : ¬ s.Stopped) : s.phase = .filling ∧ s.dirty = 0 ∧ s.highWater = 0 := by
  subst h_tag
  have h_dirty : s.dirty = 0 := by
    rw [hs.dirty_eq]
    refine Finset.card_eq_zero.2 (Finset.filter_eq_empty_iff.2 ?_)
    exact fun a ha h_in => h.fresh a h_in (.inl ha)
  have h_high : s.highWater = 0 := by
    refine Nat.eq_zero_of_not_pos fun h_pos => ?_
    obtain ⟨a, ha, h_in, -⟩ := hs.last h_pos
    exact h.fresh a h_in (.inl ha)
  have h_pos := g.capacity_pos
  refine ⟨?_, h_dirty, h_high⟩
  have h_phase := hs.phase
  revert h_phase h_live
  unfold Slot.Stopped
  -- in any other phase the slot has bytes
  cases s.phase with
  | filling => exact fun _ _ => rfl
  | full => intro _ h_phase; have := h_phase.1; omega
  | flushing => intro _ h_phase; have : s.dirty = g.capacity := h_phase; omega
  | reserving => intro _ h_phase; have := h_phase.2; omega
  | poisoned reason => exact fun h_live => absurd ⟨reason, rfl⟩ h_live

/-- The slot has it open, and moves on. -/
theorem now (h : Skippable g A i tag) (h_sound : A.Sound g calls)
    (hs : SlotInv g A (g.index tag) s) (h_tag : s.tag = tag) (h_live : ¬ s.Stopped) :
    ∃ next skipped, s.skipOver tag = (.ok (), s.renewed next skipped) ∧
      SlotInv g (A.bypass tag) (g.index tag) (s.renewed next skipped) ∧
      Advances g A (A.bypass tag) s (s.renewed next skipped) := by
  obtain ⟨h_phase, h_dirty, h_high⟩ := h.empty hs h_tag h_live
  obtain ⟨-, h_mirrors, -⟩ : PhaseInv g A s .filling := h_phase ▸ hs.phase
  have h_le := h.le_content h_sound
  obtain ⟨next, skipped, h_advance, h_passes⟩ :=
    hs.advance h_sound h_mirrors.size (by omega)
  -- all that the slot leaves behind is the bypassed generation
  have h_renewed := hs.renew h_sound (h.sound h_sound) h.evolves rfl
    (fun t ht => (Finset.mem_insert.1 ht).symm.imp_right (·.trans h_tag.symm)) h_live
    (fun a h_in => .inl ⟨tag, Finset.mem_insert_self _ _, h_tag ▸ h_in⟩) h_mirrors.size
    (fun j hj _ => h_mirrors.blank j hj fun h_mem =>
      h.fresh _ (h_tag ▸ ⟨Nat.le_add_right _ _, by omega⟩) (.inl h_mem)) h_passes
  refine ⟨next, skipped, ?_, h_renewed, renewed_advances (b := s.buffer) h_passes _⟩
  subst h_tag
  exact (Slot.skipOver_now h_phase h_dirty).trans h_advance

/-- The slot is further back, and keeps the skip. -/
theorem later (h : Skippable g A i tag) (hs : SlotInv g A (g.index tag) s) (h_lt : s.tag < tag)
    (h_live : ¬ s.Stopped) :
    s.skipOver tag = (.ok (), { s with skipped := Slot.insertSkip tag s.skipped }) ∧
      SlotInv g (A.bypass tag) (g.index tag)
        { s with skipped := Slot.insertSkip tag s.skipped } := by
  -- the generation has not been passed over yet, so it is not on the list
  have h_new : tag ∉ s.skipped := fun h_mem => h.notMem (hs.skipped tag h_mem).2.1
  refine ⟨Slot.skipOver_ahead h_live h_lt h_new, ?_⟩
  have hev := h.evolves
  exact { hs with
    closed := fun a ha h_index => (hs.closed a ha h_index).imp hev.bypassed_of (hev.durable a)
    skipped := by
      intro t ht
      rcases Slot.mem_insertSkip.1 ht with rfl | h_old
      · exact ⟨h_lt, Finset.mem_insert_self _ _, rfl⟩
      · obtain ⟨h_lt, h_mem, h_index⟩ := hs.skipped t h_old
        exact ⟨h_lt, hev.bypassed h_mem, h_index⟩
    skipped_nodup := Slot.nodup_insertSkip h_new hs.skipped_nodup
    unpassed := by
      intro _ t ht h_index h_le
      rw [Slot.mem_insertSkip]
      rcases Finset.mem_insert.1 ht with rfl | h_old
      · exact .inl rfl
      · exact .inr (hs.unpassed h_live t h_old h_index h_le)
    phase := PhaseInv.mono hev ⟨fun _ ha _ => ha, rfl⟩ hs.phase }

/-- A slot that is stopped takes no notice. -/
theorem stopped (h : Skippable g A i tag) (hs : SlotInv g A (g.index tag) s)
    (h_stopped : s.Stopped) : SlotInv g (A.bypass tag) (g.index tag) s := by
  have hev := h.evolves
  exact { hs with
    closed := fun a ha h_index => (hs.closed a ha h_index).imp hev.bypassed_of (hev.durable a)
    skipped := by
      intro t ht
      obtain ⟨h_lt, h_mem, h_index⟩ := hs.skipped t ht
      exact ⟨h_lt, hev.bypassed h_mem, h_index⟩
    unpassed := fun h_live => absurd h_stopped h_live
    phase := PhaseInv.mono hev ⟨fun _ ha _ => ha, rfl⟩ hs.phase }

/-- What a slot goes through when a block of it is skipped. -/
structure SkipsTo (g : Geometry) (A : Account) (tag : Nat) (s s' : Slot) : Prop where
  slot : SlotInv g (A.bypass tag) (g.index tag) s'
  advances : Advances g A (A.bypass tag) s s'
  waiters : s'.waiters = s.waiters
  /-- Nobody has a flush of the slot, or it stays as the flush has it. -/
  steady : s.phase = .filling ∨ Steady s s'
  /-- The slot is open, or whoever has looked after it still does. -/
  attended : s'.phase = .filling ∨
    (s'.phase = s.phase ∧ s'.tag = s.tag ∧ s'.durable = s.durable)

/-- **A block may be skipped in every state of its slot.** -/
theorem exists_skipsTo (h : Skippable g A i tag) (h_sound : A.Sound g calls)
    (hs : SlotInv g A (g.index tag) s) :
    ∃ s', s.skipOver tag = (.ok (), s') ∧ SkipsTo g A tag s s' := by
  by_cases h_stopped : s.Stopped
  · exact ⟨s, Slot.skipOver_stopped h_stopped, h.stopped hs h_stopped, Advances.refl _ _ s, rfl,
      .inr (Steady.refl s), .inr ⟨rfl, rfl, rfl⟩⟩
  · rcases (h.tag_le hs).lt_or_eq with h_lt | h_tag
    · obtain ⟨h_eq, h_later⟩ := h.later hs h_lt h_stopped
      exact ⟨_, h_eq, h_later, ⟨le_rfl, fun _ => .inl rfl⟩, rfl, .inr ⟨rfl, rfl, .inl rfl⟩,
        .inr ⟨rfl, rfl, rfl⟩⟩
    · obtain ⟨next, skipped, h_eq, h_now, h_advances⟩ := h.now h_sound hs h_tag h_stopped
      exact ⟨_, h_eq, h_now, h_advances, rfl, .inl (h.empty hs h_tag h_stopped).1, .inl rfl⟩

/-- Who holds a flush on the slot goes on holding it. -/
theorem SkipsTo.holdOn (h_to : SkipsTo g A tag s s') (h : Skippable g A i tag) {j : Nat} {hold : Hold}
    (h_on : HoldOn g A j hold s) : HoldOn g (A.bypass tag) j hold s' := by
  rcases h_to.steady with h_filling | h_steady
  · exact absurd h_filling h_on.not_filling.1
  · exact h_on.mono h.evolves ⟨fun _ ha _ => ha, rfl⟩ h_steady

end Skippable

/-- Only the bypassed block is newly placed. -/
theorem Account.placed_bypass {a tag : Nat} (h : (A.bypass tag).Placed g a) :
    A.Placed g a ∨ g.InBlock tag a := by
  rcases h with h_filled | h_bypassed
  · exact .inl (.inl h_filled)
  · exact (bypassed_bypass.1 h_bypassed).symm.imp_left .inr

theorem MiddleInv.skip {m : Extent} {n tag : Nat} (h : MiddleInv g A i m (.todo n))
    (h_tag : tag = m.start + n * g.capacity) :
    MiddleInv g (A.bypass tag) i m (.todo (n + 1)) := by
  obtain ⟨h_done, h_open, h_none⟩ := h
  refine ⟨?_, ?_, h_none⟩
  · intro a h₁ h₂
    rw [Nat.succ_mul] at h₂
    rcases Nat.lt_or_ge a (m.start + n * g.capacity) with h_lt | h_ge
    · exact (h_done a h₁ h_lt).bypass tag
    · -- the address is of the generation that is skipped now
      exact ⟨tag, Finset.mem_insert_self _ _, by omega, by omega⟩
  · intro a h₁ h₂ h_placed
    rw [Nat.succ_mul] at h₁
    rcases Account.placed_bypass h_placed with h_old | h_in
    · exact h_open a (by omega) h₂ h_old
    · have := h_in.2
      omega

/-- The generations of the middle that are still to do may be skipped. -/
theorem WorkInv.skippable (hw : WorkInv g P i w) (h_sound : P.account.Sound g calls) {n : Nat}
    (h_middle : w.middle = .todo n)
    (hn : n < w.entry.middle.generationCount w.entry.span.capacity) :
    Skippable g P.account i (w.entry.middle.generation w.entry.span.capacity n) := by
  obtain ⟨record, h_mem, h_cut⟩ := hw.cut
  obtain ⟨h_dvd, h_eq, h_le⟩ := h_cut.generation_block hn
  obtain ⟨-, h_open, -⟩ : MiddleInv g P.account i w.entry.middle (.todo n) :=
    h_middle ▸ hw.middle
  refine ⟨h_dvd, fun a h_in => ?_, fun a h_in => ?_⟩
  · -- its addresses are the call's own
    rw [h_eq] at h_in
    have := h_in.1
    have := h_in.2
    exact (hw.middleRegion h_sound (a := a) (by omega) (by omega)).1
  · rw [h_eq] at h_in
    have := h_in.2
    exact h_open a h_in.1 (by omega)

/-- **Skipping a block of the middle keeps the invariant.** -/
theorem Inv.skip (h : Inv g P) (hv : P.calls[i]? = some (.working w)) {n tag : Nat}
    (h_middle : w.middle = .todo n)
    (hn : n < w.entry.middle.generationCount w.entry.span.capacity)
    (h_gen : w.entry.middle.generation w.entry.span.capacity n = tag)
    (hs : P.slots[g.index tag]? = some s) :
    ∃ s', s.skipOver tag = (.ok (), s') ∧ Inv g {
      account := P.account.bypass tag
      slots := P.slots.set (g.index tag) s'
      calls := P.calls.set i (.working { w with middle := .todo (n + 1) }) } := by
  have h_work : WorkInv g P i w := h.call i _ hv
  have h_skip := h_gen ▸ h_work.skippable h.account h_middle hn
  have h_slot := h.slot _ s hs
  obtain ⟨s', h_eq, h_to⟩ := h_skip.exists_skipsTo h.account h_slot
  refine ⟨s', h_eq, ?_⟩
  have h_keeps : ∀ {j : Nat} {hold : Hold}, HoldOn g P.account j hold s →
      HoldOn g (P.account.bypass tag) j hold s' := h_to.holdOn h_skip
  obtain ⟨record, h_mem, h_cut⟩ := h_work.cut
  obtain ⟨-, h_start, h_stop⟩ := h_cut.generation_block hn
  rw [h_gen] at h_start
  have h_todo : MiddleInv g P.account i w.entry.middle (.todo n) := h_middle ▸ h_work.middle
  set w' : Work := { w with middle := .todo (n + 1) } with hw'
  have h_touches : Touches g i (g.index tag) s s' P ⟨P.account.bypass tag,
      P.slots.set (g.index tag) s', P.calls.set i (.working w')⟩ :=
    ⟨h_skip.evolves, hs, rfl, h_to.advances⟩
  have h_tickets : ∀ τ, View.HasTicket (.working w) τ → View.HasTicket (.working w') τ :=
    fun _ h_has => h_has.congr rfl rfl
  refine h.turn { h_touches with
    before := hv
    calls := rfl
    sound := h_skip.sound h.account
    slot := h_to.slot
    view := ?_
    others := fun j _ v _ hold _ _ h_on => h_keeps h_on
    alone := fun hold h_some => .inl ⟨hold, h_some, rfl⟩
    waits := fun _ _ => rfl
    waiters := by rw [h_to.waiters]; rfl
    attended := ?_ }
  · refine h_touches.own h_work rfl ?_ (h_todo.skip h_start)
      fun hold h_some => h_touches.hold h.slot (fun _ => h_keeps) (h_work.hold hold h_some)
    -- the block is of the middle, and the portions lie outside of that
    refine fun q hq => .inl ⟨rfl, ?_, SameHold.refl _ _⟩
    intro a ha h_placed
    refine (Account.placed_bypass h_placed).resolve_right ?_
    rintro ⟨h₁, h₂⟩
    have := h_cut.notMem_middle hq ha
    omega
  · have h_here : P.account.Failed ∨ Attended (P.calls.set i (.working w')) (g.index tag) s' := by
      rcases h_to.attended with h_filling | ⟨h_phase, h_tag, h_durable⟩
      · refine .inr ?_
        unfold Attended
        rw [h_filling]
        trivial
      · exact h.attended_same hv hs h_phase h_tag h_durable (fun τ h_has _ => h_tickets τ h_has)
          fun hold h_some => ⟨hold, h_some, rfl⟩
    exact h_here.imp_right fun h_here =>
      ⟨h_here, fun τ h_has _ => h_tickets τ h_has, fun hold h_some _ => ⟨hold, h_some, rfl⟩⟩

end GroupCommit.Log
