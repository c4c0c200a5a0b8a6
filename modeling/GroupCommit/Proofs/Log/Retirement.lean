import GroupCommit.Proofs.Log.Purpose
import GroupCommit.Proofs.Log.Rest
import GroupCommit.Proofs.Slot.Generations

/-!
# How generations are retired

A slot leaves a generation behind when its full flush is handed back, or when it is skipped because it
lies in the middle of a record. So when all is done, every generation below the position has been
retired by a full flush or by a direct write, and as no two such calls share an address, by one only.

* `Run.Retires`, `Run.retires`: what the slots of a run have left behind.
* `Write.Retires`: the calls to the Writer that retire a generation.
* `Run.Still.exists_retires`, `Run.pairwise_successes`: each generation below the position is retired by
  one of them, and no two of them share an address.
-/

namespace GroupCommit.Log

variable {W : Type} [Writer W] {r r' : Run W} {e : Event Task Verdict} {k t : Nat} {s : Slot}

/-! ### What slots leave behind -/

/-- A full flush of the generation has been written. -/
def Run.FlushedFull (r : Run W) (t : Nat) : Prop :=
  ∃ w ∈ r.journal.successes, w.source = .slot .full ∧ w.address = t

/-- Whatever a slot has left behind was flushed in full or lies in the middle of a record, and whatever
it is to pass over lies there. -/
structure Run.Retires (r : Run W) : Prop where
  behind : ∀ (k : Nat) s, r.machine.state.ring.slots[k]? = some s →
    ∀ t, r.log.geometry.capacity ∣ t → r.log.geometry.index t = k → t < s.tag →
      r.FlushedFull t ∨ r.Bypasses t
  skipped : ∀ (k : Nat) s, r.machine.state.ring.slots[k]? = some s → ∀ t ∈ s.skipped, r.Bypasses t

/-- A generation that has been flushed whole stays so. -/
theorem Run.Before.flushedFull (h : r.Before r') (h_flushed : r.FlushedFull t) : r'.FlushedFull t := by
  obtain ⟨w, hw, h_is⟩ := h_flushed
  exact ⟨w, Journal.mem_successes.2 (h.mem_journal (Journal.mem_successes.1 hw)), h_is⟩

/-- Slots begin with their first generation. -/
theorem retires_start (r : Run W) (h_fits : r.Fits) : r.start.Retires := by
  obtain ⟨P, hm, -⟩ := r.start.exists_matches (r.start_before.fits h_fits) r.start.within_all
  -- nothing is reserved, so nothing is skipped or placed
  have h_content : P.account.content.length = 0 := by
    rw [Account.content, hm.journal]
    rfl
  have h_bypassed : ∀ t, t ∉ P.account.bypassed := by
    intro t ht
    have h_le := hm.inv.account.bypassed_le t ht
    have h_pos := r.start.log.geometry.capacity_pos
    omega
  constructor
  · intro k s hs t h_dvd h_index h_lt
    rw [hm.log.slots] at hs
    have h_closed := (hm.inv.slot k s hs).closed t h_lt h_index
    have h_placed : P.account.Placed r.start.log.geometry t := h_closed.elim .inr (·.1)
    have h_below := hm.inv.account.placed_lt h_placed
    omega
  · intro k s hs t ht
    rw [hm.log.slots] at hs
    exact absurd ((hm.inv.slot k s hs).skipped t ht).2.1 (h_bypassed t)

section Step

/-- A call that skips a generation has it in the middle of its record. -/
theorem bypasses_of_skip (h_fits : r.Fits) {i : Nat} {next : Next}
    (hi : r.machine.calls[i]? = some (.ready (.onSlot k (.skip t) next))) : r.Bypasses t := by
  obtain ⟨P, hm, -⟩ := r.exists_matches h_fits r.within_all
  obtain ⟨start, v, -, -, h_stands⟩ := hm.exists_view hi
  cases h_stands with
  | ready h_at =>
    cases h_at with
    -- a call that has failed skips nothing
    | failing h_failing => cases h_failing
    | @skip w n tk h_past h_middle hn =>
      have h_enters := r.enters h_fits i _ w.entry hi rfl
      obtain ⟨record, -, h_cut⟩ := h_enters.cut hm
      obtain ⟨-, h_eq, h_le⟩ := h_cut.generation_block hn
      refine ⟨i, w.entry, h_enters, ?_, ?_⟩
      · rw [h_eq]
        exact Nat.le_add_right _ _
      · rw [h_eq]
        exact h_le

/-- A step that ends a generation has retired it. -/
theorem retired_of_ends (h_fits : r.Fits) {i : Nat} {task : Slot.Task} {next : Next}
    (hi : r.machine.calls[i]? = some (.ready (.onSlot k task next))) (h_ends : task.Ends t) :
    r.FlushedFull t ∨ r.Bypasses t := by
  cases task with
  | release flush =>
    obtain ⟨rfl, h_full⟩ := h_ends
    obtain ⟨w, hw, h_source, h_address⟩ := r.written_of_release h_fits i k flush next hi
    exact .inl ⟨w, hw, h_full ▸ h_source, h_address⟩
  | skip tag =>
    obtain rfl : tag = t := h_ends
    exact .inr (bypasses_of_skip h_fits hi)
  | _ => exact h_ends.elim

/-- How a slot comes to be what it is after an event. -/
inductive Changed (r : Run W) (k : Nat) (s : Slot) : Slot → Prop
  | same : Changed r k s s
  /-- A call that was ready has made its step. -/
  | ready {i : Nat} {task : Slot.Task} {next : Next}
      (hi : r.machine.calls[i]? = some (.ready (.onSlot k task next))) :
      Changed r k s (Slot.run task s).2
  /-- A call has looked at the slot at its deadline. -/
  | late (ticket : Ticket) : Changed r k s (Slot.run (.joinLate ticket) s).2

/-- A slot after an event was there before it, and is what the event has made of it. -/
theorem exists_changed (h_next : r.Next e r') {s' : Slot}
    (hs' : r'.machine.state.ring.slots[k]? = some s') :
    ∃ s, r.machine.state.ring.slots[k]? = some s ∧ Changed r k s s' := by
  -- an event changes the slot only if its call makes a step there
  rcases Machine.step_cases h_next.step with ⟨start, rfl, h_eq⟩ | ⟨i, status, o, h_acts, h_stepped⟩
  · rw [h_eq] at hs'
    exact ⟨s', hs', .same⟩
  · rw [h_stepped.state] at hs'
    cases h_acts with
    | @run i t hi =>
      obtain ⟨s, hs, rfl | ⟨task, next, rfl, rfl⟩⟩ := exists_slot_run hs'
      · exact ⟨s', hs, .same⟩
      · exact ⟨s, hs, .ready hi⟩
    | @expire i c wake late hi =>
      -- a call with a deadline waits for its bytes
      obtain ⟨task, next, rfl, h_late, h_blocks⟩ := r.blocked i c _ _ hi
      cases h_blocks with
      | rejoin ticket =>
        cases h_late
        obtain ⟨s, hs, rfl | ⟨task, next', h_eq, rfl⟩⟩ := exists_slot_run hs'
        · exact ⟨s', hs, .same⟩
        · cases h_eq
          exact ⟨s, hs, .late ticket⟩
      | _ => cases h_late
    | @answer i t verdict hi =>
      have h_ring : (answered t verdict r.machine.state).2.ring = r.machine.state.ring :=
        ring_answered t verdict _
      replace hs' : (answered t verdict r.machine.state).2.ring.slots[k]? = some s' := hs'
      rw [h_ring] at hs'
      exact ⟨s', hs', .same⟩

/-- What a slot leaves behind with an event. -/
theorem Changed.behind {s' : Slot} (h : Changed r k s s') (h_fits : r.Fits)
    (hs : r.machine.state.ring.slots[k]? = some s) :
    (∀ t, r.log.geometry.capacity ∣ t → r.log.geometry.index t = k → t < s'.tag →
        t < s.tag ∨ t ∈ s.skipped ∨ r.FlushedFull t ∨ r.Bypasses t) ∧
      ∀ t ∈ s'.skipped, t ∈ s.skipped ∨ r.Bypasses t := by
  obtain ⟨P, hm, -⟩ := r.exists_matches h_fits r.within_all
  have h_inv := hm.inv.slot k s (hm.log.slots ▸ hs)
  -- the generations of a slot are a gap apart
  have h_mod : ∀ {t}, r.log.geometry.capacity ∣ t → r.log.geometry.index t = k →
      t ≡ s.tag [MOD s.gap] := by
    intro t h_dvd h_index
    have hk : k < r.log.geometry.ringSize := h_index ▸ Geometry.index_lt t
    rw [h_inv.gap_eq]
    exact ((Geometry.modEq_iff hk).2 ⟨h_dvd, h_index⟩).trans
      ((Geometry.modEq_iff hk).2 ⟨h_inv.tag_dvd, h_inv.tag_index⟩).symm
  have h_behind : ∀ {task}, Slot.Behind task s s' →
      (∀ t, task.Ends t → r.FlushedFull t ∨ r.Bypasses t) → (∀ t, task = .skip t → r.Bypasses t) →
      (∀ t, r.log.geometry.capacity ∣ t → r.log.geometry.index t = k → t < s'.tag →
        t < s.tag ∨ t ∈ s.skipped ∨ r.FlushedFull t ∨ r.Bypasses t) ∧
      ∀ t ∈ s'.skipped, t ∈ s.skipped ∨ r.Bypasses t := by
    intro task h_behind h_ends h_skips
    refine ⟨fun t h_dvd h_index h_lt => ?_, fun t ht => (h_behind.skipped t ht).imp_right (h_skips t)⟩
    rcases Nat.lt_or_ge t s.tag with h_before | h_ge
    · exact .inl h_before
    · rcases h_behind.ended t (h_mod h_dvd h_index) h_ge h_lt with h_skipped | ⟨-, h_end⟩
      · exact .inr (.inl h_skipped)
      · exact .inr (.inr (h_ends t h_end))
  cases h with
  | same => exact ⟨fun t _ _ h_lt => .inl h_lt, fun t ht => .inl ht⟩
  | @ready i task next hi =>
    refine h_behind (Slot.run_behind task s) (fun t h_ends => retired_of_ends h_fits hi h_ends) ?_
    rintro t rfl
    exact bypasses_of_skip h_fits hi
  | late ticket => exact h_behind (Slot.run_behind _ s) (fun t h_ends => h_ends.elim) nofun

theorem Run.Retires.next (h : r.Retires) (h_next : r.Next e r') (h_fits : r'.Fits) : r'.Retires := by
  have h_fits₁ : r.Fits := h_next.before.fits h_fits
  have h_keep : ∀ {t}, r.FlushedFull t ∨ r.Bypasses t → r'.FlushedFull t ∨ r'.Bypasses t :=
    Or.imp h_next.before.flushedFull h_next.before.bypasses
  constructor
  · intro k s' hs' t h_dvd h_index h_lt
    rw [← h_next.log] at h_dvd h_index
    obtain ⟨s, hs, h_changed⟩ := exists_changed h_next hs'
    rcases (h_changed.behind h_fits₁ hs).1 t h_dvd h_index h_lt with h_before | h_skipped | h_now
    · exact h_keep (h.behind k s hs t h_dvd h_index h_before)
    · -- kept as a skip, it had been bypassed
      exact h_keep (.inr (h.skipped k s hs t h_skipped))
    · exact h_keep h_now
  · intro k s' hs' t ht
    obtain ⟨s, hs, h_changed⟩ := exists_changed h_next hs'
    rcases (h_changed.behind h_fits₁ hs).2 t ht with h_old | h_now
    · exact h_next.before.bypasses (h.skipped k s hs t h_old)
    · exact h_next.before.bypasses h_now

/-- **What the slots of a run have left behind** was flushed in full or is in the middle of a record. -/
theorem Run.retires (r : Run W) (h_fits : r.Fits) : r.Retires :=
  r.induction (retires_start r h_fits) fun _ _ _ h_next h_before ih =>
    ih.next h_next (h_before.fits h_fits)

end Step

/-! ### Calls that retire a generation -/

/-- The call retires the generation `t`: it flushes it in full, or writes over it past the slots. -/
def Write.Retires (capacity t : Nat) (w : Write) : Prop :=
  (w.source = .slot .full ∧ w.address = t) ∨
    (w.source = .direct ∧ w.address ≤ t ∧ t + capacity ≤ w.stop)

instance (capacity t : Nat) (w : Write) : Decidable (w.Retires capacity t) :=
  inferInstanceAs (Decidable (_ ∨ _))

section Successes

variable {w : Write} (h_fits : r.Fits)

include h_fits

/-- A call that has succeeded and is not early writes whole blocks of what is reserved. -/
theorem Run.whole_of_success (hw : w ∈ r.journal.successes) (h_late : w.source ≠ .slot .early) :
    r.log.geometry.capacity ∣ w.address ∧ r.log.geometry.capacity ∣ w.data.length ∧
      (w.source = .slot .full → w.data.length = r.log.geometry.capacity) ∧
      w.stop ≤ r.machine.state.position := by
  obtain ⟨P, hm, -⟩ := r.exists_matches h_fits r.within_all
  obtain ⟨e, h_enters, h_asks⟩ := r.asks_of_success h_fits hw
  have h_returned := Journal.mem_successes.1 hw
  have h_stop : w.stop ≤ r.machine.state.position := by
    rw [hm.log.position]
    exact hm.inv.account.written_le w (hm.journal ▸ h_returned)
  have h_started : .started w ∈ P.account.journal := by
    rw [hm.journal]
    exact r.started_of_returned h_returned
  cases h_asks with
  | @flush kind p h_source h_has h_tag h_full =>
    cases kind with
    | early => exact absurd h_source h_late
    | full =>
      have h_length := h_full rfl
      obtain ⟨h_dvd, -⟩ := hm.inv.account.flush w h_started (Write.isFlush_of_source h_source)
      exact ⟨h_dvd, h_length ▸ dvd_rfl, fun _ => h_length, h_stop⟩
  | direct h_source h_spanning h_address h_data =>
    -- the middle of a record goes from block to block
    have h_asks : Asks r.log.geometry e w := .direct h_source h_spanning h_address h_data
    obtain ⟨-, -, h_dvd, h_dvd'⟩ := h_asks.middle hm h_enters h_source
    refine ⟨h_dvd, h_dvd', fun h_full => ?_, h_stop⟩
    rw [h_source] at h_full
    cases h_full

/-- A call that retires a generation writes to all of it. -/
theorem Write.Retires.covers {t a : Nat} (h : w.Retires r.log.geometry.capacity t)
    (hw : w ∈ r.journal.successes) (ha : r.log.geometry.InBlock t a) :
    w.source ≠ .slot .early ∧ w.Covers a := by
  rcases h with ⟨h_source, rfl⟩ | ⟨h_source, h_from, h_to⟩
  · have h_late : w.source ≠ .slot .early := by
      rw [h_source]
      decide
    obtain ⟨-, -, h_full, -⟩ := r.whole_of_success h_fits hw h_late
    refine ⟨h_late, ha.1, ?_⟩
    rw [Write.stop, h_full h_source]
    exact ha.2
  · refine ⟨?_, h_from.trans ha.1, ha.2.trans_le h_to⟩
    rw [h_source]
    decide

/-- **No address is written twice**, but by early flushes. -/
theorem Run.pairwise_successes : r.journal.successes.Pairwise fun v w =>
    v.Disjoint w ∨ v.source = .slot .early ∨ w.source = .slot .early := by
  obtain ⟨P, hm, -⟩ := r.exists_matches h_fits r.within_all
  have h_writes := hm.inv.account.writes_disjoint
  rw [hm.journal] at h_writes
  have h_late : r.journal.writes.Pairwise fun v w =>
      v.Disjoint w ∨ v.source = .slot .early ∨ w.source = .slot .early :=
    h_writes.imp fun h => h.imp_right fun h_over => .inl h_over.1
  -- the calls that have succeeded are some of those that were made, in some order
  obtain ⟨L, h_perm, h_sub⟩ := r.successes_subperm
  refine (h_perm.pairwise_iff ?_).1 (h_late.sublist h_sub)
  rintro v w (h_disjoint | h_early | h_early)
  · exact .inl fun a hw hv => h_disjoint a hv hw
  · exact .inr (.inr h_early)
  · exact .inr (.inl h_early)

/-- **Every generation below the position is retired** in a run that has come to rest. -/
theorem Run.Still.exists_retires (h : r.Still) {t : Nat} (ht : r.log.geometry.capacity ∣ t)
    (h_le : t + r.log.geometry.capacity ≤ r.machine.state.position) :
    ∃ w ∈ r.journal.successes, w.Retires r.log.geometry.capacity t := by
  obtain ⟨P, hm, h_clean⟩ := h.exists_matches h_fits
  have h_rest := h.resting hm h_clean
  have h_pos := r.log.geometry.capacity_pos
  rw [hm.log.position] at h_le
  -- the slot of the generation waits for a later one
  obtain ⟨s, hs⟩ := hm.inv.slot_of_lt (Geometry.index_lt t)
  have h_behind : t < s.tag := by
    obtain ⟨⟨-, h_lt⟩, -⟩ := (hm.inv.settles h_rest h_clean hs).tag
    omega
  rcases (r.retires h_fits).behind _ s (hm.log.slots ▸ hs) t ht rfl h_behind with h_full | h_middle
  · obtain ⟨w, hw, h_is⟩ := h_full
    exact ⟨w, hw, .inl h_is⟩
  · -- what lies in the middle of a record is durable, so somebody has written it
    obtain ⟨-, h_replay⟩ := hm.inv.durable_of_resting h_rest (show t < _ by omega)
    rw [hm.journal] at h_replay
    obtain ⟨w, hw, h_covers⟩ := Journal.exists_returned h_replay
    rw [← Journal.mem_successes] at hw
    obtain ⟨e, h_enters, h_asks⟩ := r.asks_of_success h_fits hw
    have h_legal : Legal r.log.geometry P.account w := by
      refine hm.inv.account.legal ?_
      rw [hm.journal]
      exact r.started_of_returned (Journal.mem_successes.1 hw)
    have h_dvd : r.log.geometry.capacity ∣ w.address := by
      by_cases h_direct : w.source = .direct
      · exact (h_asks.middle hm h_enters h_direct).2.2.1
      · exact (h_legal.flush h_direct).1
    exact ⟨w, hw, .inr (h_asks.direct_of_bypasses hm h_enters h_dvd
      (fun h_flush => (h_legal.flush h_flush).2.1) h_middle ht h_covers)⟩

end Successes

end GroupCommit.Log
