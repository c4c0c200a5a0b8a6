import GroupCommit.Proofs.Log.Run

/-!
# What the Writer gets to see

The calls of a log to its Writer keep to a discipline, whatever commits are made, whichever deadlines
pass and whichever calls fail:

* Calls in flight at the same time share no address.
* The flushes of a generation are early ones that never get shorter, each begun after the one before
  has succeeded, and then at most one full one; nothing follows on a full call or on a failed one.
* A generation is flushed through its slot or written past it, never both, and no address is written
  past the slots twice.

Only early flushes are ever written over, so without deadlines all calls of a run are disjoint.

The argument looks at each call alone. A flush writes a block in which some address is filled, and a
direct write goes to blocks that are skipped and to addresses that its call has reserved (`Legal`).
Blocks with a filled address are not skipped, and reservations are disjoint. Two flushes of one block
are told apart by the automaton of `GroupCommit.Proofs.Log.Flow`.

* `Run.InFlight`, `Disciplined`: the statement.
* `writes_disciplined`: the theorem.
-/

namespace GroupCommit.Log

/-! ### One call -/

/-- What is known of a call to the Writer while it is in flight and later. -/
structure Legal (g : Geometry) (A : Account) (w : Write) : Prop where
  flush : w.IsFlush →
    g.capacity ∣ w.address ∧ w.data.length ≤ g.capacity ∧ A.FilledUpTo g w.address w.data.length
  direct : w.source = .direct →
    A.OwnsRange w.call w.address w.stop ∧ ∀ a, w.Covers a → A.Bypassed g a

section Legal

variable {g : Geometry} {A : Account} {calls : Nat} {v w : Write}

/-- In a sound account every call of the writer is legal. -/
theorem Account.Sound.legal (h : A.Sound g calls) (hw : .started w ∈ A.journal) : Legal g A w where
  flush := h.flush w hw
  direct := h.direct w hw

/-- A flush covers addresses of its own block. -/
theorem Legal.inBlock (h : Legal g A w) (h_flush : w.IsFlush) {a : Nat} (ha : w.Covers a) :
    g.InBlock w.address a :=
  ⟨ha.1, ha.2.trans_le (Nat.add_le_add_left (h.flush h_flush).2.1 _)⟩

/-- Flushes of different generations are disjoint. -/
theorem Legal.flush_flush (hv : Legal g A v) (hw : Legal g A w) (hv_flush : v.IsFlush)
    (hw_flush : w.IsFlush) (h_ne : v.address ≠ w.address) : v.Disjoint w := by
  intro a hv_covers hw_covers
  -- an address lies in one block
  have hv_in := hv.inBlock hv_flush hv_covers
  have hw_in := hw.inBlock hw_flush hw_covers
  exact h_ne (hv_in.unique hw_in (hv.flush hv_flush).1 (hw.flush hw_flush).1)

/-- A direct write stays clear of every block that is flushed: it goes to skipped blocks, and no block
with a filled address is skipped. -/
theorem Legal.flush_direct (hv : Legal g A v) (hw : Legal g A w) (h_sound : A.Sound g calls)
    (hv_flush : v.IsFlush) (hw_direct : w.source = .direct) {a : Nat}
    (ha : g.InBlock v.address a) : ¬ w.Covers a := by
  intro h_covers
  obtain ⟨h_dvd, -, b, hb, hb_in, -⟩ := hv.flush hv_flush
  -- the direct write would cover an address of a skipped block, which is the one that is flushed
  obtain ⟨t, ht, ht_in⟩ := (hw.direct hw_direct).2 a h_covers
  obtain rfl : v.address = t := ha.unique ht_in h_dvd (h_sound.bypassed_dvd t ht)
  exact h_sound.filled_apart b hb ⟨_, ht, hb_in⟩

/-- Direct writes of two commits are disjoint: each goes to addresses that its commit has reserved. -/
theorem Legal.direct_direct (hv : Legal g A v) (hw : Legal g A w) (h_sound : A.Sound g calls)
    (hv_direct : v.source = .direct) (hw_direct : w.source = .direct) (h_ne : v.call ≠ w.call) :
    v.Disjoint w := by
  intro a hv_covers hw_covers
  have hv_owns := (hv.direct hv_direct).1.owns hv_covers.1 hv_covers.2
  have hw_owns := (hw.direct hw_direct).1.owns hw_covers.1 hw_covers.2
  exact h_ne (h_sound.owner_unique hv_owns hw_owns)

/-- Two calls are disjoint if they are not flushes of one generation nor direct writes of one
commit. -/
theorem Legal.disjoint (hv : Legal g A v) (hw : Legal g A w) (h_sound : A.Sound g calls)
    (h_flush : v.IsFlush → w.IsFlush → v.address ≠ w.address)
    (h_direct : v.source = .direct → w.source = .direct → v.call ≠ w.call) : v.Disjoint w := by
  -- a call is a flush or a direct write
  by_cases hv_direct : v.source = .direct <;> by_cases hw_direct : w.source = .direct
  · exact hv.direct_direct hw h_sound hv_direct hw_direct (h_direct hv_direct hw_direct)
  · intro a hv_covers hw_covers
    exact hw.flush_direct hv h_sound hw_direct hv_direct (hw.inBlock hw_direct hw_covers) hv_covers
  · intro a hv_covers hw_covers
    exact hv.flush_direct hw h_sound hv_direct hw_direct (hv.inBlock hv_direct hv_covers) hw_covers
  · exact hv.flush_flush hw hv_direct hw_direct (h_flush hv_direct hw_direct)

end Legal

/-! ### Calls in flight -/

section InFlight

variable {g : Geometry} {P : Picture} {i j : Nat} {t t' : Task} {u u' : View} {v w : Write}

/-- What is known of a call that the Writer has not answered yet. -/
theorem AtOutside.legal (h_at : AtOutside g i t u) (h : Inv g P) (hu : P.calls[i]? = some u)
    (hw : t.write? i = some w) :
    Legal g P.account w ∧ w.call = i ∧
      (w.IsFlush → P.account.journal.flow g.capacity w.address = .busy w) := by
  -- a flush in flight is known to the automaton of its generation
  cases h_at with
  | @writeSlot work p tk f data h_waits h_hold h_due h_part =>
    cases hw
    have h_work : WorkInv g P i work := h.call i _ hu
    obtain ⟨s, hs, h_on⟩ := h_work.hold _ h_hold
    obtain ⟨h_flow, -, -, -, h_bytes⟩ := h_on.stage
    obtain ⟨h_data, -⟩ := flush_bytes_ok h_bytes
    have h_length : data.length = f.length :=
      (congrArg List.length h_data).trans (Buffer.length_first _ _)
    have h_tag : f.tag = s.tag := h_on.tag_eq
    refine ⟨⟨fun _ => ?_, nofun⟩, rfl, fun _ => h_flow⟩
    simp only [h_tag, h_length]
    exact ⟨(h.slot _ s hs).tag_dvd, h_on.length_le, h_on.filled⟩
  | @writeDirect work tk h_past h_middle =>
    cases hw
    have h_work : WorkInv g P i work := h.call i _ hu
    obtain ⟨record, h_mem, h_cut⟩ := h_work.cut
    have h_bypassed : MiddleInv g P.account i work.entry.middle .started := h_middle ▸ h_work.middle
    -- the middle lies within the reservation, and all of its blocks are skipped
    obtain ⟨h_from, h_to⟩ := h_cut.middle_within
    refine ⟨⟨fun h_flush => absurd rfl h_flush, fun _ => ⟨?_, ?_⟩⟩, rfl,
      fun h_flush => absurd rfl h_flush⟩
    · refine ⟨_, Journal.mem_reservations.2 h_mem, rfl, h_from, ?_⟩
      show (middleWrite i work.entry).stop ≤ _
      rw [h_work.middleWrite_stop, Reservation.stop, ← h_cut.total]
      exact h_to
    · rintro a ⟨h₁, h₂⟩
      exact h_bypassed a h₁ (h_work.middleWrite_stop ▸ h₂)

/-- Calls of two commits that are in flight share no address. If both were flushes of one generation,
the automaton of its flushes would be busy with both. -/
theorem Inv.disjoint_outside (h : Inv g P) (hu : P.calls[i]? = some u) (hu' : P.calls[j]? = some u')
    (h_at : AtOutside g i t u) (h_at' : AtOutside g j t' u') (hv : t.write? i = some v)
    (hw : t'.write? j = some w) (h_ne : i ≠ j) : v.Disjoint w := by
  obtain ⟨hv_legal, hv_call, hv_flow⟩ := h_at.legal h hu hv
  obtain ⟨hw_legal, hw_call, hw_flow⟩ := h_at'.legal h hu' hw
  have h_call : v.call ≠ w.call := by
    rw [hv_call, hw_call]
    exact h_ne
  refine hv_legal.disjoint hw_legal h.account ?_ fun _ _ => h_call
  intro hv_flush hw_flush h_address
  -- the automaton is busy with one call at a time
  have h_busy := hv_flow hv_flush
  rw [h_address, hw_flow hw_flush] at h_busy
  exact h_call (congrArg Write.call (Flow.busy.inj h_busy).symm)

end InFlight

/-! ### All calls of a run -/

/-- Only early flushes are followed by another one. -/
theorem Flushes.writes_early {capacity length : Nat} {L : Journal} (h : Flushes capacity length L) :
    (Journal.writes L).Pairwise fun v _ => v.source = .slot .early := by
  induction h with
  | none length => exact .nil
  | inFlight h_fits => exact List.pairwise_singleton _ _
  | last h_fits h_last => exact List.pairwise_singleton _ _
  | early h_fits h_early h_rest ih => exact List.pairwise_cons.2 ⟨fun _ _ => h_early, ih⟩

/-- The flushes of a generation are the calls at its tag. -/
theorem Journal.writes_flushNotes (J : Journal) (tag : Nat) :
    Journal.writes (J.flushNotes tag) =
      (Journal.writes J).filter fun w => w.IsFlush ∧ w.address = tag := by
  rw [writes, flushNotes, writes, List.filterMap_filter, List.filter_filterMap]
  congr 1
  funext n
  cases n with
  | started w =>
    by_cases h : w.IsFlush ∧ w.address = tag <;> simp [Note.Concerns, Note.started?, Option.filter, h]
  | _ => simp [Note.started?]

/-- The first of two calls is an early flush, and the second one flushes the same generation again. -/
def Write.WrittenOver (v w : Write) : Prop :=
  v.source = .slot .early ∧ w.IsFlush ∧ w.address = v.address

section Writes

variable {g : Geometry} {A : Account} {calls : Nat}

/-- **Only early flushes are written over**, by later flushes of their generations. All other calls of
a run are disjoint. -/
theorem Account.Sound.writes_disjoint (h : A.Sound g calls) :
    A.journal.writes.Pairwise fun v w => v.Disjoint w ∨ v.WrittenOver w := by
  rw [List.pairwise_iff_forall_sublist]
  intro v w h_sub
  have hv : Legal g A v := h.legal (Journal.mem_writes.1 (h_sub.subset (by simp)))
  have hw : Legal g A w := h.legal (Journal.mem_writes.1 (h_sub.subset (by simp)))
  by_cases h_same : v.IsFlush ∧ w.IsFlush ∧ w.address = v.address
  · -- both are among the flushes of one generation, in this order
    obtain ⟨hv_flush, hw_flush, h_address⟩ := h_same
    have h_flushes := (Journal.flushes (h.flow v.address)).writes_early
    rw [Journal.writes_flushNotes] at h_flushes
    have h_pair := h_sub.filter fun w => decide (w.IsFlush ∧ w.address = v.address)
    rw [List.filter_cons_of_pos (by simp [hv_flush]),
      List.filter_cons_of_pos (by simp [hw_flush, h_address])] at h_pair
    have h_early := List.pairwise_iff_forall_sublist.1 h_flushes h_pair
    exact .inr ⟨h_early, hw_flush, h_address⟩
  · -- otherwise they are of different generations, or one of them is no flush
    refine .inl (hv.disjoint hw h ?_ ?_)
    · exact fun hv_flush hw_flush h_eq => h_same ⟨hv_flush, hw_flush, h_eq.symm⟩
    · -- a commit writes past the slots once at most
      intro hv_direct hw_direct
      have h_pair := h_sub.filter fun w => decide (w.source = .direct)
      rw [List.filter_cons_of_pos (by simp [hv_direct]),
        List.filter_cons_of_pos (by simp [hw_direct])] at h_pair
      exact List.pairwise_iff_forall_sublist.1 h.direct_unique h_pair

/-- Direct writes never meet. -/
theorem Account.Sound.direct_disjoint (h : A.Sound g calls) :
    (A.journal.writes.filter (·.source = .direct)).Pairwise Write.Disjoint := by
  refine List.Pairwise.imp_of_mem ?_ (h.writes_disjoint.sublist List.filter_sublist)
  intro v w hv _ h_pair
  refine h_pair.resolve_right fun h_over => ?_
  have hv_direct : v.source = .direct := of_decide_eq_true (List.mem_filter.1 hv).2
  rw [h_over.1] at hv_direct
  cases hv_direct

end Writes

/-! ### The discipline -/

section Discipline

variable {W : Type} [Writer W]

/-- The commit `i` waits for the Writer to return from this call. -/
def Run.InFlight (r : Run W) (i : Nat) (w : Write) : Prop :=
  ∃ t, r.machine.calls[i]? = some (.outside t) ∧ t.write? i = some w

instance (r : Run W) (i : Nat) (w : Write) : Decidable (r.InFlight i w) :=
  decidable_of_iff
    ((match r.machine.calls[i]? with
      | some (.outside t) => t.write? i
      | _ => none) = some w) (by
    constructor
    · intro h
      split at h
      · next t hi => exact ⟨t, hi, h⟩
      · cases h
    · rintro ⟨t, hi, hw⟩
      rw [hi]
      exact hw)

/-- What the Writer gets to see in a run. -/
structure Disciplined (r : Run W) : Prop where
  /-- Calls in flight share no address. -/
  in_flight : ∀ i j v w, i ≠ j → r.InFlight i v → r.InFlight j w → v.Disjoint w
  /-- The flushes of each generation are early ones of lengths that do not decrease and then at most
  one full one, each begun after the one before has returned, and none after a failed one. -/
  flushes : ∀ tag, Flushes r.config.slotCapacity 0 (r.journal.flushNotes tag)
  /-- Flushes are of generations. -/
  aligned : ∀ w ∈ r.journal.writes, w.IsFlush → r.config.slotCapacity ∣ w.address
  /-- No generation is both flushed and covered by a direct write. -/
  apart : ∀ v ∈ r.journal.writes, ∀ w ∈ r.journal.writes, v.IsFlush → w.source = .direct →
    ∀ a, v.address ≤ a → a < v.address + r.config.slotCapacity → ¬ w.Covers a
  /-- No address is covered by two direct writes. -/
  direct : (r.journal.writes.filter (·.source = .direct)).Pairwise Write.Disjoint
  /-- Where no deadline passes, no two calls share an address. -/
  undisturbed : ¬ r.Expires → r.journal.writes.Pairwise Write.Disjoint

end Discipline

end GroupCommit.Log
