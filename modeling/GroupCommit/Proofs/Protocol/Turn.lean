import GroupCommit.Proofs.Protocol.Picture

/-!
# What a step of one call leaves to the others

A call works on one slot at a time. It fills, skips and notes what is its own, so for the other calls
nothing changes but that more addresses are durable, that their slots may have moved on, and that a
slot may have been stopped under a flush. This module states that as a relation between pictures and
derives what each part of the invariant needs of it; `Inv.turn` puts the parts together, so that of a
step there is left to show only what concerns its own call and slot.

* `Evolves`, `Evolves.fill`, `Evolves.bypass`, `Evolves.note`: how an account grows.
* `Touches`: the slot of the step.
* `Turn`, `Inv.turn`: a step of one call, and that it keeps the invariant.
-/

namespace GroupCommit.Log

variable (g : Geometry)

/-! ### Accounts -/

/-- What the call `i` may add to the account while it works on the slot `k`. -/
structure Evolves (i k : Nat) (A A' : Account) : Prop where
  filled : A.filled ⊆ A'.filled
  bypassed : A.bypassed ⊆ A'.bypassed
  filled_new : ∀ a ∈ A'.filled, a ∈ A.filled ∨ (A.Owns i a ∧ g.index a = k)
  bypassed_new : ∀ t ∈ A'.bypassed,
    t ∈ A.bypassed ∨ (g.index t = k ∧ ∀ a, g.InBlock t a → A.Owns i a)
  durable : ∀ a, A.Durable g a → A'.Durable g a
  read : ∀ a, A.Placed g a → A'.content.read a = A.content.read a
  reserved : ∀ r, .reserved r ∈ A.journal → .reserved r ∈ A'.journal
  reserved_new : ∀ r, .reserved r ∈ A'.journal → .reserved r ∈ A.journal ∨ r.call = i
  direct_new : ∀ w, .started w ∈ A'.journal → w.source = .direct →
    .started w ∈ A.journal ∨ w.call = i
  flow : ∀ t, g.index t ≠ k →
    A'.journal.flow g.capacity t = A.journal.flow g.capacity t
  failed : A.Failed → A'.Failed
  expired : A.allowed.deadlines = true → A'.allowed.deadlines = true

namespace Evolves

variable {g} {i k : Nat} {A A' : Account}

theorem refl (A : Account) : Evolves g i k A A where
  filled := Finset.Subset.refl _
  bypassed := Finset.Subset.refl _
  filled_new := fun _ => .inl
  bypassed_new := fun _ => .inl
  durable := fun _ => id
  read := fun _ _ => rfl
  reserved := fun _ => id
  reserved_new := fun _ => .inl
  direct_new := fun _ h _ => .inl h
  flow := fun _ _ => rfl
  failed := id
  expired := id

/-- A call fills addresses of its own. -/
theorem fill {start stop : Nat}
    (h_own : ∀ a, start ≤ a → a < stop → A.Owns i a ∧ g.index a = k) :
    Evolves g i k A (A.fill start stop) :=
  { refl A with
    filled := Finset.subset_union_left
    filled_new := by
      intro a ha
      rcases Finset.mem_union.1 ha with h_old | h_new
      · exact .inl h_old
      · obtain ⟨h₁, h₂⟩ := Finset.mem_Ico.1 h_new
        exact .inr (h_own a h₁ h₂)
    durable := fun _ h => h.fill start stop }

/-- A call bypasses a block of its own. -/
theorem bypass {tag : Nat} (h_index : g.index tag = k)
    (h_own : ∀ a, g.InBlock tag a → A.Owns i a) : Evolves g i k A (A.bypass tag) :=
  { refl A with
    bypassed := Finset.subset_insert _ _
    bypassed_new := by
      intro t ht
      rcases Finset.mem_insert.1 ht with rfl | h_old
      · exact .inr ⟨h_index, h_own⟩
      · exact .inl h_old
    durable := fun _ h => h.bypass tag }

/-- A call notes something about a slot or about its own writes. -/
theorem note {calls : Nat} (h_sound : A.Sound g calls) {n : Note} (h_call : n.call = i)
    (h_index : ∀ t, n.Concerns t → g.index t = k)
    (h_data : ∀ w outcome, n = .returned w outcome → Account.Faithful g A w) :
    Evolves g i k A (A.note n) :=
  { refl A with
    durable := by
      intro a h
      -- a note on a call that returns may stand for bytes that are written, and those are faithful
      by_cases h_returned : ∃ w outcome, n = .returned w outcome
      · obtain ⟨w, outcome, rfl⟩ := h_returned
        exact h.note_returned (h_data w outcome rfl) outcome
      · exact h.note h_sound fun w outcome h_eq => h_returned ⟨w, outcome, h_eq⟩
    read := fun a ha => Account.read_content_note (h_sound.placed_lt ha) n
    reserved := fun r hr => List.mem_append_left _ hr
    reserved_new := by
      intro r hr
      rcases List.mem_append.1 hr with h_old | h_new
      · exact .inl h_old
      · cases List.mem_singleton.1 h_new
        exact .inr h_call
    direct_new := by
      intro w hw _
      rcases List.mem_append.1 hw with h_old | h_new
      · exact .inl h_old
      · cases List.mem_singleton.1 h_new
        exact .inr h_call
    flow := fun t ht => Account.flow_note_of_not fun h_concerns => ht (h_index t h_concerns)
    failed := fun h => h.note n }

/-- What has been bypassed stays so. -/
theorem bypassed_of (h : Evolves g i k A A') {a : Nat} (ha : A.Bypassed g a) :
    A'.Bypassed g a := by
  obtain ⟨t, h_mem, h_in⟩ := ha
  exact ⟨t, h.bypassed h_mem, h_in⟩

/-- What is placed anew belongs to the call. -/
theorem placed_new (h : Evolves g i k A A') {a : Nat} (ha : A'.Placed g a) :
    A.Placed g a ∨ A.Owns i a := by
  rcases ha with h_filled | ⟨t, h_mem, h_in⟩
  · exact (h.filled_new a h_filled).imp .inl (·.1)
  · rcases h.bypassed_new t h_mem with h_old | ⟨-, h_own⟩
    · exact .inl (.inr ⟨t, h_old, h_in⟩)
    · exact .inr (h_own a h_in)

end Evolves

/-- A block in which nothing is filled anew and of whose flushes no note is taken. -/
structure Untouched (A A' : Account) (tag : Nat) : Prop where
  filled : ∀ a ∈ A'.filled, g.InBlock tag a → a ∈ A.filled
  flow : A'.journal.flow g.capacity tag = A.journal.flow g.capacity tag

section Untouched

variable {g} {i k tag : Nat} {A A' : Account}

theorem Untouched.refl (A : Account) (tag : Nat) : Untouched g A A tag := ⟨fun _ h _ => h, rfl⟩

/-- The blocks of the other slots are untouched. -/
theorem Evolves.untouched (h : Evolves g i k A A') (h_dvd : g.capacity ∣ tag)
    (h_index : g.index tag ≠ k) : Untouched g A A' tag where
  filled := by
    intro a ha h_in
    -- what is filled anew belongs to the slot of the step
    rcases h.filled_new a ha with h_old | ⟨-, h_new⟩
    · exact h_old
    · rw [h_in.index_eq h_dvd] at h_new
      exact absurd h_new h_index
  flow := h.flow tag h_index

variable (h : Evolves g i k A A') (h_untouched : Untouched g A A' tag)

include h h_untouched

/-- An untouched block has as much filled in as before. -/
theorem Untouched.filledIn : A'.filledIn g tag = A.filledIn g tag := by
  unfold Account.filledIn
  congr 1
  ext a
  simp only [Finset.mem_filter]
  exact ⟨fun ha => ⟨h_untouched.filled a ha.1 ha.2, ha.2⟩, fun ha => ⟨h.filled ha.1, ha.2⟩⟩

/-- A buffer goes on holding the content of an untouched block. -/
theorem Untouched.mirrors {b : Buffer} (hb : A.Mirrors g tag b) : A'.Mirrors g tag b where
  size := hb.size
  filled := by
    intro j hj h_mem
    have h_old := h_untouched.filled _ h_mem ⟨Nat.le_add_right _ _, by omega⟩
    rw [hb.filled j hj h_old, h.read _ (.inl h_old)]
  blank := fun j hj h_not => hb.blank j hj fun h_old => h_not (h.filled h_old)

omit h in
/-- The writes of an untouched block are as they were. -/
theorem Untouched.calm {n : Nat} (hc : A.Calm g tag n) : A'.Calm g tag n := by
  obtain ⟨m, h_le, h_flow⟩ := hc
  exact ⟨m, h_le, h_untouched.flow.trans h_flow⟩

end Untouched

/-! ### Slots and flushes -/

section Slots

variable {g} {i j k k' : Nat} {A A' : Account} {s s' : Slot}

/-- What holds in a phase goes on holding while the block is untouched. -/
theorem PhaseInv.mono (hev : Evolves g i k A A') (h_untouched : Untouched g A A' s.tag)
    (h : PhaseInv g A s s.phase) : PhaseInv g A' s s.phase := by
  revert h
  cases s.phase with
  | filling => exact fun h => ⟨h.1, h_untouched.mirrors hev h.2.1, h_untouched.calm h.2.2⟩
  | full => exact fun h => ⟨h.1, h_untouched.mirrors hev h.2.1, h_untouched.calm h.2.2⟩
  | flushing => exact id
  | reserving => exact id
  | poisoned reason => exact hev.failed

theorem SlotInv.mono (h : SlotInv g A k' s) (hev : Evolves g i k A A') (hk : k' ≠ k) :
    SlotInv g A' k' s := by
  -- the step works on another slot, so it fills nothing and skips nothing here
  have h_untouched : Untouched g A A' s.tag :=
    hev.untouched h.tag_dvd (by rw [h.tag_index]; exact hk)
  have h_old : ∀ a ∈ A'.filled, g.index a = k' → a ∈ A.filled := by
    intro a ha h_index
    refine (hev.filled_new a ha).resolve_right ?_
    rintro ⟨-, h_new⟩
    exact hk (h_index.symm.trans h_new)
  exact {
    index_eq := h.index_eq
    capacity_eq := h.capacity_eq
    gap_eq := h.gap_eq
    tag_dvd := h.tag_dvd
    tag_index := h.tag_index
    closed := fun a ha h_index => (h.closed a ha h_index).imp hev.bypassed_of (hev.durable a)
    ahead := fun a ha h_index => h.ahead a (h_old a ha h_index) h_index
    dirty_eq := by rw [h.dirty_eq, h_untouched.filledIn hev]
    below := fun a ha h_in => h.below a (h_untouched.filled a ha h_in) h_in
    last := by
      intro h_pos
      obtain ⟨a, ha, h_in⟩ := h.last h_pos
      exact ⟨a, hev.filled ha, h_in⟩
    claim_le := h.claim_le
    skipped := by
      intro t ht
      -- a skip that is kept here was made before
      obtain ⟨h_lt, h_mem, h_index⟩ := h.skipped t ht
      exact ⟨h_lt, hev.bypassed h_mem, h_index⟩
    skipped_nodup := h.skipped_nodup
    unpassed := by
      intro h_live t ht h_index h_le
      refine h.unpassed h_live t ((hev.bypassed_new t ht).resolve_right ?_) h_index h_le
      rintro ⟨h_new, -⟩
      exact hk (h_index.symm.trans h_new)
    phase := PhaseInv.mono hev h_untouched h.phase }

/-- What a slot with a flush out goes through: it may be stopped. -/
structure Steady (s s' : Slot) : Prop where
  tag : s'.tag = s.tag
  highWater : s'.highWater = s.highWater
  phase : s'.phase = s.phase ∨ s'.Stopped

theorem Steady.refl (s : Slot) : Steady s s := ⟨rfl, rfl, .inl rfl⟩

/-- How far a flush has come stays true while its block is untouched. -/
theorem StageInv.mono {f : Flush} {stage : Stage} (hev : Evolves g i k A A')
    (h_untouched : Untouched g A A' f.tag) (h : StageInv g A j f stage) :
    StageInv g A' j f stage := by
  -- no note is taken of this generation, and what is durable stays so
  cases stage with
  | taken => exact h_untouched.calm h
  | inFlight w =>
    obtain ⟨h_flow, h_rest⟩ := h
    exact ⟨h_untouched.flow.trans h_flow, h_rest⟩
  | written =>
    refine ⟨fun a ha h_in => hev.durable a (h.1 a (h_untouched.filled a ha h_in) h_in), ?_⟩
    exact fun h_early => h_untouched.calm (h.2 h_early)

theorem HoldOn.mono {hold : Hold} (h : HoldOn g A j hold s) (hev : Evolves g i k A A')
    (h_untouched : Untouched g A A' s.tag) (h_steady : Steady s s') : HoldOn g A' j hold s' := by
  -- the slot may have been stopped meanwhile, but neither tag nor high water has changed
  rw [← h_steady.tag] at h_untouched
  have h_tag : hold.flush.tag = s'.tag := h.tag_eq.trans h_steady.tag.symm
  exact {
    tag_eq := h_tag
    phase := by
      rcases h_steady.phase with h_same | h_stopped
      · rw [h_same]
        refine h.phase.imp_right ?_
        rintro ⟨reason, h_phase⟩
        exact ⟨reason, h_same.trans h_phase⟩
      · exact .inr h_stopped
    length_le := h.length_le
    early := by
      intro h_early
      -- an early flush is as long as the mark was high, and that has not moved
      obtain ⟨h_length, h_expired⟩ := h.early h_early
      exact ⟨h_length.trans h_steady.highWater.symm, hev.expired h_expired⟩
    full := h.full
    filled := by
      obtain ⟨a, ha, h_in, h_up⟩ := h.filled
      exact ⟨a, hev.filled ha, h_steady.tag ▸ ⟨h_in, h_up⟩⟩
    reach := by
      intro a ha h_in
      rw [h_steady.tag] at h_in h_untouched ⊢
      exact h.reach a (h_untouched.filled a ha h_in) h_in
    buffer := by
      have := h.buffer
      rw [← h_steady.tag] at this
      exact h_untouched.mirrors hev this
    stage := StageInv.mono hev (h_tag ▸ h_untouched) h.stage }

/-- How a slot may move on under a ticket: an early flush that it takes back has made durable what
was filled. -/
structure Advances (g : Geometry) (A A' : Account) (s s' : Slot) : Prop where
  tag_le : s.tag ≤ s'.tag
  claim : s'.tag = s.tag → s'.durable.claim = s.durable.claim ∨
    ∀ a ∈ A.filled, g.InBlock s.tag a → A'.Durable g a

theorem Advances.refl (A A' : Account) (s : Slot) : Advances g A A' s s := ⟨le_rfl, fun _ => .inl rfl⟩

/-- A ticket stays good while its slot goes forward. -/
theorem TicketOn.mono {e : Entry} {p : Portion} {τ : Ticket} {record : Bytes}
    (h : TicketOn g A e p τ s) (h_cut : PortionCut g e record p) (hev : Evolves g i k A A')
    (h_advances : Advances g A A' s s') : TicketOn g A' e p τ s' where
  tag_eq := h.tag_eq
  tag_le := h.tag_le.trans h_advances.tag_le
  filled := fun a ha => hev.filled (h.filled a ha)
  covered := by
    intro h_tag h_earlier a ha
    -- a slot that is still at the tag was there before
    have h_same : s'.tag = s.tag := by
      have := h.tag_le
      have := h_advances.tag_le
      omega
    rcases h_advances.claim h_same with h_claim | h_durable
    · -- the last early flush is the same as before
      rw [h_claim] at h_earlier
      exact hev.durable a (h.covered (h_tag.trans h_same) h_earlier a ha)
    · -- an early flush has just come back, with all that was filled
      refine h_durable a (h.filled a ha) ?_
      rw [← h_same, ← h_tag, h.tag_eq]
      exact h_cut.inBlock ha

end Slots

/-! ### Pictures -/

/-- The call `i` works on the slot `k`, which is `s` before and `s'` afterwards. -/
structure Touches (i k : Nat) (s s' : Slot) (P P' : Picture) : Prop where
  account : Evolves g i k P.account P'.account
  here : P.slots[k]? = some s
  slots : P'.slots = P.slots.set k s'
  advances : Advances g P.account P'.account s s'

/-- The flush that a portion has is the same, except that it may have come further. -/
def SameHold (p : Portion) (hold hold' : Option Hold) : Prop :=
  ∀ h, hold = some h → h.portion = p →
    ∃ h', hold' = some h' ∧ h'.portion = h.portion ∧ h'.slot = h.slot ∧ h'.flush = h.flush

theorem SameHold.refl (p : Portion) (hold : Option Hold) : SameHold p hold hold :=
  fun h h_some _ => ⟨h, h_some, rfl, rfl, rfl⟩

theorem SameHold.none (p : Portion) (hold : Option Hold) : SameHold p Option.none hold :=
  fun _ h_some => by cases h_some

namespace Touches

variable {g} {i j k k' : Nat} {s s' : Slot} {P P' : Picture}

theorem here' (h : Touches g i k s s' P P') : P'.slots[k]? = some s' := by
  obtain ⟨h_lt, -⟩ := List.getElem?_eq_some_iff.1 h.here
  rw [h.slots, List.getElem?_set_self h_lt]

/-- All other slots are as they were. -/
theorem elsewhere (h : Touches g i k s s' P P') (hk : k' ≠ k) : P'.slots[k']? = P.slots[k']? := by
  rw [h.slots, List.getElem?_set_ne (Ne.symm hk)]

/-- Portions and their tickets: the addresses must not be placed by the step. -/
theorem part (h : Touches g i k s s' P P') {e : Entry} {record : Bytes} {p : Portion}
    {hold hold' : Option Hold} {x : Part} (h_cut : PortionCut g e record p)
    (h_apart : ∀ a, InRegion e p a → P'.account.Placed g a → P.account.Placed g a)
    (h_hold : SameHold p hold hold') (hx : PartInv g P e hold p x) : PartInv g P' e hold' p x := by
  cases x with
  | todo => exact fun a ha h_placed => hx a ha (h_apart a ha h_placed)
  | ticketed τ =>
    obtain ⟨s₁, hs₁, h_on⟩ := hx
    -- only a ticket for the slot of the step sees that slot move on
    by_cases hk : portionSlot g e p = k
    · obtain rfl : s = s₁ := by
        rw [hk, h.here] at hs₁
        exact Option.some.inj hs₁
      exact ⟨s', hk ▸ h.here', h_on.mono h_cut h.account h.advances⟩
    · exact ⟨s₁, (h.elsewhere hk).trans hs₁, h_on.mono h_cut h.account (Advances.refl _ _ _)⟩
  | held =>
    obtain ⟨hold₁, h_some, h_portion, h_slot, h_tag, h_filled⟩ := hx
    obtain ⟨hold₂, h_some₂, h_portion₂, h_slot₂, h_flush₂⟩ := h_hold _ h_some h_portion
    exact ⟨hold₂, h_some₂, h_portion₂.trans h_portion, h_slot₂.trans h_slot, h_flush₂ ▸ h_tag,
      fun a ha => h.account.filled (h_filled a ha)⟩
  | done => exact fun a ha => h.account.durable a (hx a ha)

/-- The middle of another call is as it was. -/
theorem middle (h : Touches g i k s s' P P') {m : Extent} {x : MiddlePart}
    (h_apart : ∀ a, m.start ≤ a → a < m.stop → P'.account.Placed g a → P.account.Placed g a)
    (h_direct : ∀ w, .started w ∈ P'.account.journal → w.source = .direct →
      .started w ∈ P.account.journal ∨ w.call ≠ j)
    (hx : MiddleInv g P.account j m x) : MiddleInv g P'.account j m x := by
  cases x with
  | todo number =>
    -- what is not skipped yet must stay free until the call comes to it
    obtain ⟨h_bypassed, h_open, h_none⟩ := hx
    refine ⟨fun a h₁ h₂ => h.account.bypassed_of (h_bypassed a h₁ h₂), ?_, ?_⟩
    · intro a h₁ h₂ h_placed
      exact h_open a h₁ h₂ (h_apart a (by omega) h₂ h_placed)
    · intro w hw h_source
      exact (h_direct w hw h_source).elim (fun h_old => h_none w h_old h_source) id
  | started => exact fun a h₁ h₂ => h.account.bypassed_of (hx a h₁ h₂)
  | done => exact fun a h₁ h₂ => h.account.durable a (hx a h₁ h₂)

/-- A flush stays right if it is of another slot, or if it stays right on this one. -/
theorem hold (h : Touches g i k s s' P P')
    (h_slot : ∀ k s, P.slots[k]? = some s → SlotInv g P.account k s) {hold : Hold}
    (h_here : hold.slot = k → HoldOn g P.account j hold s → HoldOn g P'.account j hold s')
    (h_hold : ∃ s, P.slots[hold.slot]? = some s ∧ HoldOn g P.account j hold s) :
    ∃ s, P'.slots[hold.slot]? = some s ∧ HoldOn g P'.account j hold s := by
  obtain ⟨s₁, hs₁, h_on⟩ := h_hold
  by_cases hk : hold.slot = k
  · subst hk
    obtain rfl : s = s₁ := Option.some.inj (h.here.symm.trans hs₁)
    exact ⟨s', h.here', h_here rfl h_on⟩
  · have h_inv := h_slot _ _ hs₁
    refine ⟨s₁, (h.elsewhere hk).trans hs₁, h_on.mono h.account ?_ (Steady.refl s₁)⟩
    exact h.account.untouched h_inv.tag_dvd (by rw [h_inv.tag_index]; exact hk)

/-- The addresses of a record that another call has reserved are not placed by the step. -/
theorem apart_of_ne (h : Touches g i k s s' P P') {calls : Nat} (h_sound : P.account.Sound g calls)
    (hj : j ≠ i) {head a : Nat} {record : Bytes}
    (h_mem : .reserved ⟨j, head, record⟩ ∈ P.account.journal) (h₁ : head ≤ a)
    (h₂ : a < head + record.length) (h_placed : P'.account.Placed g a) : P.account.Placed g a := by
  refine (h.account.placed_new h_placed).resolve_right fun h_own => ?_
  exact hj (h_sound.owner_unique ⟨_, Journal.mem_reservations.2 h_mem, rfl, h₁, h₂⟩ h_own)

/-- **The views of the other calls stay true.** -/
theorem view (h : Touches g i k s s' P P') {calls : Nat} (h_sound : P.account.Sound g calls)
    (hj : j ≠ i) {v : View}
    (h_hold : ∀ h, v.hold? = some h → h.slot = k → HoldOn g P.account j h s →
      HoldOn g P'.account j h s')
    (h_slot : ∀ k s, P.slots[k]? = some s → SlotInv g P.account k s)
    (hv : ViewInv g P j v) : ViewInv g P' j v := by
  cases v with
  | failed => exact h.account.failed hv
  | fresh =>
    -- the new reservation, if any, is of the call that makes the step
    intro r hr h_call
    rcases h.account.reserved_new r (Journal.mem_reservations.1 hr) with h_old | h_new
    · exact hv r (Journal.mem_reservations.2 h_old) h_call
    · exact hj (h_call.symm.trans h_new)
  | working w =>
    -- portions and middle lie within the reservation, which no other call touches
    obtain ⟨record, h_mem, h_cut⟩ := hv.cut
    have h_stop : entryStop w.entry = w.entry.span.head + record.length := by
      rw [entryStop, h_cut.total]
    refine ⟨⟨record, h.account.reserved _ h_mem, h_cut⟩, ?_, ?_, ?_⟩
    · intro p hp
      have h_portion := h_cut.portion p hp
      refine h.part h_portion ?_ (SameHold.refl _ _) (hv.part p hp)
      intro a ha
      have h_lt : a < w.entry.span.head + record.length :=
        calc a < regionStop w.entry p := ha.2
          _ ≤ entryStop w.entry := h_portion.le_stop
          _ = w.entry.span.head + record.length := h_stop
      exact h.apart_of_ne h_sound hj h_mem (h_portion.head_le.trans ha.1) h_lt
    · refine h.middle ?_ ?_ hv.middle
      · intro a h₁ h₂
        obtain ⟨h_from, h_to⟩ := h_cut.middle_within
        have h_lt : a < w.entry.span.head + record.length :=
          calc a < w.entry.middle.stop := h₂
            _ ≤ entryStop w.entry := h_to
            _ = w.entry.span.head + record.length := h_stop
        exact h.apart_of_ne h_sound hj h_mem (h_from.trans h₁) h_lt
      · intro w' hw' h_source
        refine (h.account.direct_new w' hw' h_source).imp_right ?_
        rintro rfl
        exact Ne.symm hj
    · exact fun hold h_some => h.hold h_slot (h_hold hold h_some) (hv.hold hold h_some)

/-- The view of the call itself: what the step does not change stays true. -/
theorem own (h : Touches g i k s s' P P') {w w' : Work} (hw : WorkInv g P i w)
    (h_entry : w'.entry = w.entry)
    (h_part : ∀ p, Has w.entry p →
      (w'.part p = w.part p ∧
        (∀ a, InRegion w.entry p a → P'.account.Placed g a → P.account.Placed g a) ∧
        SameHold p w.hold w'.hold) ∨
      PartInv g P' w.entry w'.hold p (w'.part p))
    (h_middle : MiddleInv g P'.account i w.entry.middle w'.middle)
    (h_hold : ∀ h, w'.hold = some h →
      ∃ s, P'.slots[h.slot]? = some s ∧ HoldOn g P'.account i h s) : WorkInv g P' i w' := by
  obtain ⟨record, h_mem, h_cut⟩ := hw.cut
  refine ⟨⟨record, ?_, ?_⟩, ?_, ?_, h_hold⟩
  · rw [h_entry]
    exact h.account.reserved _ h_mem
  · rw [h_entry]
    exact h_cut
  · intro p hp
    rw [h_entry] at hp ⊢
    -- a portion that the step leaves keeps its state; for the others it is given
    rcases h_part p hp with ⟨h_same, h_apart, h_keep⟩ | h_new
    · rw [h_same]
      exact h.part (h_cut.portion p hp) h_apart h_keep (hw.part p hp)
    · exact h_new
  · rw [h_entry]
    exact h_middle

/-- The view of a call that brings one of its portions on, and may take or give a flush for it. -/
theorem ownPart (h : Touches g i k s s' P P') {w : Work} (hw : WorkInv g P i w) {p : Portion}
    {x : Part} {hold : Option Hold} (h_part : PartInv g P' w.entry hold p x)
    (h_apart : ∀ q, Has w.entry q → q ≠ p → ∀ a, InRegion w.entry q a → P'.account.Placed g a →
      P.account.Placed g a)
    (h_keep : ∀ q, q ≠ p → SameHold q w.hold hold)
    (h_middle : MiddleInv g P'.account i w.entry.middle w.middle)
    (h_hold : ∀ h, hold = some h →
      ∃ s, P'.slots[h.slot]? = some s ∧ HoldOn g P'.account i h s) :
    WorkInv g P' i { w.setPart p x with hold } := by
  refine h.own hw rfl (fun q hq => ?_) h_middle h_hold
  by_cases h_eq : q = p
  · subst h_eq
    exact .inr ((w.setPart_self q x).symm ▸ h_part)
  · exact .inl ⟨w.setPart_of_ne h_eq x, h_apart q hq h_eq, h_keep q h_eq⟩

end Touches

section Own

variable {g : Geometry} {i : Nat} {P : Picture} {w : Work} {p : Portion} {τ : Ticket} {s : Slot}

/-- A portion that has its ticket has a good one. -/
theorem WorkInv.ticketOn (hw : WorkInv g P i w) (hp : Has w.entry p) (h_part : w.part p = .ticketed τ)
    (hs : P.slots[portionSlot g w.entry p]? = some s) : TicketOn g P.account w.entry p τ s := by
  obtain ⟨s₁, hs₁, h_ticket⟩ : PartInv g P w.entry w.hold p (.ticketed τ) :=
    h_part ▸ hw.part p hp
  obtain rfl : s = s₁ := Option.some.inj (hs.symm.trans hs₁)
  exact h_ticket

end Own

/-- A flush is held as before if its slot has kept its generation and its mark. -/
theorem HoldOn.steady {g : Geometry} {j : Nat} {A : Account} {hold : Hold} {s s' : Slot}
    (h : HoldOn g A j hold s) (h_steady : Steady s s') : HoldOn g A j hold s' :=
  h.mono (i := j) (k := 0) (Evolves.refl A) (Untouched.refl A _) h_steady

/-! ### Steps -/

/-- A step in which the call `i` works on the slot `k`, with all that is to be shown of it. -/
structure Turn (i k : Nat) (s s' : Slot) (v v' : View) (P P' : Picture) : Prop
    extends Touches g i k s s' P P' where
  before : P.calls[i]? = some v
  calls : P'.calls = P.calls.set i v'
  sound : P'.account.Sound g P.calls.length
  slot : SlotInv g P'.account k s'
  view : ViewInv g P' i v'
  /-- What another call holds of this slot is still right. -/
  others : ∀ j, j ≠ i → ∀ v, P.calls[j]? = some v → ∀ h, v.hold? = some h → h.slot = k →
    HoldOn g P.account j h s → HoldOn g P'.account j h s'
  /-- A flush that the call holds now, it held before, or nobody had a flush of this slot. -/
  alone : ∀ h', v'.hold? = some h' → (∃ h, v.hold? = some h ∧ h.slot = h'.slot) ∨
    (h'.slot = k ∧ ∀ (j : Nat) (v : View), P.calls[j]? = some v → ∀ h, v.hold? = some h → h.slot ≠ k)
  waits : ∀ k', k' ≠ k → v'.waitsOn k' = v.waitsOn k'
  waiters : s'.waiters + (v.waitsOn k).toNat = s.waiters + (v'.waitsOn k).toNat
  attended : P'.account.Failed ∨ (Attended P'.calls k s' ∧
    (∀ τ, v.HasTicket τ → g.index τ.tag ≠ k → v'.HasTicket τ) ∧
    ∀ h, v.hold? = some h → h.slot ≠ k → ∃ h', v'.hold? = some h' ∧ h'.slot = h.slot)

/-- A slot stays looked after when one call changes but keeps what the slot waits for. -/
theorem Attended.set {calls : List View} {i k : Nat} {s s' : Slot} {v v' : View}
    (h : Attended calls k s) (hv : calls[i]? = some v)
    (h_tickets : ∀ τ, v.HasTicket τ → τ.tag = s.tag → s.durable.claim ≤ τ.earlier → v'.HasTicket τ)
    (h_holds : ∀ h, v.hold? = some h → h.slot = k → ∃ h', v'.hold? = some h' ∧ h'.slot = k)
    (h_phase : s'.phase = s.phase) (h_tag : s'.tag = s.tag) (h_durable : s'.durable = s.durable) :
    Attended (calls.set i v') k s' := by
  obtain ⟨h_lt, -⟩ := List.getElem?_eq_some_iff.1 hv
  -- whoever it was that looked after the slot, it is the call itself or its view is the same
  have h_other : ∀ {j : Nat} {u : View}, calls[j]? = some u →
      (j = i ∧ u = v) ∨ (calls.set i v')[j]? = some u := by
    intro j u hu
    by_cases hj : i = j
    · subst hj
      rw [hv] at hu
      exact .inl ⟨rfl, (Option.some.inj hu).symm⟩
    · exact .inr ((List.getElem?_set_ne hj).trans hu)
  have h_held : (∃ j : Nat, ∃ v h, calls[j]? = some v ∧ v.hold? = some h ∧ h.slot = k) →
      ∃ j : Nat, ∃ v h, (calls.set i v')[j]? = some v ∧ v.hold? = some h ∧ h.slot = k := by
    rintro ⟨j, u, hold, hu, h_some, h_slot⟩
    rcases h_other hu with ⟨rfl, rfl⟩ | hu'
    · obtain ⟨hold', h_some', h_slot'⟩ := h_holds hold h_some h_slot
      exact ⟨j, v', hold', List.getElem?_set_self h_lt, h_some', h_slot'⟩
    · exact ⟨j, u, hold, hu', h_some, h_slot⟩
  revert h
  unfold Attended
  rw [h_phase, h_tag, h_durable]
  cases s.phase with
  | filling => exact id
  | poisoned reason => exact id
  | flushing => exact h_held
  | reserving => exact h_held
  | full =>
    rintro ⟨j, u, τ, hu, h_ticket, h_tag', h_claim⟩
    rcases h_other hu with ⟨rfl, rfl⟩ | hu'
    · exact ⟨j, v', τ, List.getElem?_set_self h_lt, h_tickets τ h_ticket h_tag' h_claim, h_tag',
        h_claim⟩
    · exact ⟨j, u, τ, hu', h_ticket, h_tag', h_claim⟩

theorem set_of_getElem? {α : Type} {l : List α} {k : Nat} {a : α} (h : l[k]? = some a) :
    l.set k a = l := by
  obtain ⟨h_lt, rfl⟩ := List.getElem?_eq_some_iff.1 h
  exact List.set_getElem_self h_lt

theorem countP_set {α : Type} (p : α → Bool) {l : List α} {i : Nat} {a b : α}
    (h : l[i]? = some a) :
    (l.set i b).countP p + (p a).toNat = l.countP p + (p b).toNat := by
  induction l generalizing i with
  | nil => simp at h
  | cons c l ih =>
    cases i with
    | zero =>
      obtain rfl : c = a := by simpa using h
      rw [List.set_cons_zero, List.countP_cons, List.countP_cons]
      -- the first of the list is the one that is replaced
      cases p c <;> cases p b <;> simp
    | succ i =>
      have := ih (i := i) (by simpa using h)
      rw [List.set_cons_succ, List.countP_cons, List.countP_cons]
      omega

section Turn

variable {g} {i k : Nat} {s s' : Slot} {v v' : View} {P P' : Picture}

/-- A view behind the turn is the new one of the call, or an old one of another. -/
theorem Turn.call_cases (ht : Turn g i k s s' v v' P P') {j : Nat} {u : View}
    (hu : P'.calls[j]? = some u) : (j = i ∧ u = v') ∨ (j ≠ i ∧ P.calls[j]? = some u) := by
  rw [ht.calls] at hu
  -- only the view of the call itself is another one
  by_cases hj : j = i
  · subst hj
    obtain ⟨h_lt, -⟩ := List.getElem?_eq_some_iff.1 ht.before
    rw [List.getElem?_set_self h_lt] at hu
    exact .inl ⟨rfl, (Option.some.inj hu).symm⟩
  · rw [List.getElem?_set_ne (Ne.symm hj)] at hu
    exact .inr ⟨hj, hu⟩

variable (h : Inv g P) (ht : Turn g i k s s' v v' P P')

include h ht

/-- The slots are right, the one of the step and the others. -/
theorem Inv.slot_turn (k' : Nat) (s₁ : Slot) (hs₁ : P'.slots[k']? = some s₁) :
    SlotInv g P'.account k' s₁ := by
  by_cases hk : k' = k
  · subst hk
    rw [ht.here'] at hs₁
    cases hs₁
    exact ht.slot
  · rw [ht.elsewhere hk] at hs₁
    exact (h.slot k' s₁ hs₁).mono ht.account hk

/-- A flush of the call itself is new only if nobody had one of this slot. -/
theorem Inv.hold_apart_turn {j : Nat} {u : View} {h₁ h₂ : Hold} (hj : j ≠ i)
    (hu : P.calls[j]? = some u) (hu_some : u.hold? = some h₁) (hv_some : v'.hold? = some h₂) :
    h₁.slot ≠ h₂.slot := by
  intro h_slot
  rcases ht.alone h₂ hv_some with ⟨h₃, hv_some', h_slot'⟩ | ⟨h_slot', h_free⟩
  · exact hj (h.alone j i u v h₁ h₃ hu ht.before hu_some hv_some' (h_slot.trans h_slot'.symm))
  · exact h_free j u hu h₁ hu_some (h_slot.trans h_slot')

/-- Still one call at most has the flush of a slot. -/
theorem Inv.alone_turn (j j' : Nat) (u u' : View) (h₁ h₂ : Hold) (hu : P'.calls[j]? = some u)
    (hu' : P'.calls[j']? = some u') (h_some : u.hold? = some h₁) (h_some' : u'.hold? = some h₂)
    (h_slot : h₁.slot = h₂.slot) : j = j' := by
  rcases ht.call_cases hu with ⟨rfl, rfl⟩ | ⟨hj, hu⟩
  · rcases ht.call_cases hu' with ⟨rfl, rfl⟩ | ⟨hj', hu'⟩
    · rfl
    · exact absurd h_slot.symm (h.hold_apart_turn ht hj' hu' h_some' h_some)
  · rcases ht.call_cases hu' with ⟨rfl, rfl⟩ | ⟨hj', hu'⟩
    · exact absurd h_slot (h.hold_apart_turn ht hj hu h_some h_some')
    · exact h.alone j j' u u' h₁ h₂ hu hu' h_some h_some' h_slot

/-- The count of a slot changes by what the call itself contributes to it. -/
theorem Inv.waiters_turn (k' : Nat) (s₁ : Slot) (hs₁ : P'.slots[k']? = some s₁) :
    s₁.waiters = P'.calls.countP (View.waitsOn k') := by
  have h_count := countP_set (View.waitsOn k') (b := v') ht.before
  rw [← ht.calls] at h_count
  by_cases hk : k' = k
  · subst hk
    rw [ht.here'] at hs₁
    cases hs₁
    have h_before := h.waiters k' s ht.here
    -- the slot of the turn counts what the call has changed
    have h_self := ht.waiters
    omega
  · -- the call waits on another slot just as it did
    rw [ht.elsewhere hk] at hs₁
    have h_before := h.waiters k' s₁ hs₁
    have h_self := congrArg Bool.toNat (ht.waits k' hk)
    omega

/-- Other slots are looked after by whoever did so before. -/
theorem Inv.attended_turn : P'.account.Failed ∨
    ∀ (k' : Nat) s₁, P'.slots[k']? = some s₁ → Attended P'.calls k' s₁ := by
  rcases ht.attended with h_failed | ⟨h_here, h_tickets, h_holds⟩
  · exact .inl h_failed
  · rcases h.attended with h_failed | h_all
    · exact .inl (ht.account.failed h_failed)
    · refine .inr fun k' s₁ hs₁ => ?_
      by_cases hk : k' = k
      · subst hk
        rw [ht.here'] at hs₁
        cases hs₁
        exact h_here
      · rw [ht.elsewhere hk] at hs₁
        rw [ht.calls]
        refine (h_all k' s₁ hs₁).set ht.before ?_ ?_ rfl rfl rfl
        · intro τ h_ticket h_tag _
          refine h_tickets τ h_ticket ?_
          rw [h_tag, (h.slot k' s₁ hs₁).tag_index]
          exact hk
        · rintro hold h_some rfl
          exact h_holds hold h_some hk

/-- **A step of one call keeps the invariant.** -/
theorem Inv.turn : Inv g P' where
  account := by
    rw [ht.calls, List.length_set]
    exact ht.sound
  ring := by
    rw [ht.slots, List.length_set]
    exact h.ring
  slot := h.slot_turn ht
  call := by
    intro j u hu
    rcases ht.call_cases hu with ⟨rfl, rfl⟩ | ⟨hj, hu⟩
    · -- the call of the turn
      exact ht.view
    · -- another call, which the turn touches as little as it may
      exact ht.toTouches.view h.account hj (ht.others j hj u hu) h.slot (h.call j u hu)
  alone := h.alone_turn ht
  waiters := h.waiters_turn ht
  attended := h.attended_turn ht

omit h ht

/-- There is a slot at all. -/
theorem Inv.exists_slot (h : Inv g P) : ∃ s, P.slots[0]? = some s := by
  have h_pos : 0 < P.slots.length := h.ring ▸ g.ringSize_pos
  exact ⟨P.slots[0], List.getElem?_eq_getElem h_pos⟩

/-- A slot is looked after as before when neither it nor the flush of the call changes and the call
gives up no ticket that the slot may wait for. -/
theorem Inv.attended_same (h : Inv g P) (hv : P.calls[i]? = some v) (hs : P.slots[k]? = some s)
    (h_phase : s'.phase = s.phase) (h_tag : s'.tag = s.tag) (h_durable : s'.durable = s.durable)
    (h_tickets : ∀ τ, v.HasTicket τ → ¬ s.Settles τ → v'.HasTicket τ)
    (h_holds : ∀ h, v.hold? = some h → ∃ h', v'.hold? = some h' ∧ h'.slot = h.slot) :
    P.account.Failed ∨ Attended (P.calls.set i v') k s' := by
  refine h.attended.imp_right fun h_all => ?_
  refine (h_all k s hs).set hv ?_ ?_ h_phase h_tag h_durable
  · intro τ h_ticket h_tag' h_claim
    refine h_tickets τ h_ticket ?_
    -- the ticket that a full slot waits for is not settled
    rintro (h_past | h_covers)
    · omega
    · have := h_covers.1
      omega
  · rintro hold h_some rfl
    exact h_holds hold h_some

end Turn

end GroupCommit.Log
