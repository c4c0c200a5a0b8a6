import GroupCommit.Proofs.Slot.Contents
import GroupCommit.Proofs.Slot.Generations

/-!
# What the fields of a slot say

The fields of a slot depend on each other and on what happened on the slot: the tag is a generation of
the slot, the bytes that are counted are those that were filled into it, the phase says whether the slot
is complete and whether a flush is out, the skips that are recorded lie ahead, and the early flushes are
numbered.

Every change of a slot keeps this (`Tracked.change`, `Tracked.settling`), and with the summary of the
history (`Slot.summary`) it gives the representation invariant of a slot.

* `History.filled`: how many bytes were copied into a generation.
* `Slot.Outstanding`: which flushes are out.
* `Slot.Tracked`: the invariant of the steps, also for slots that are stopped.
* `Slot.Represents`: the representation invariant.
* `Slot.representation`: the theorem.
-/

namespace GroupCommit.Slot

variable {slot s s' : Slot} {m : Machine Slot Task Result} {es : List (Event Task Empty)}
  {H N : History} {call i : Nat} {task : Task}

/-! ### Fills side by side -/

/-- The two fills put bytes at the same place. -/
def Fill.Overlaps (fill fill' : Fill) : Prop :=
  fill.tag = fill'.tag ∧ max fill.offset fill'.offset < min fill.stop fill'.stop

instance (fill fill' : Fill) : Decidable (fill.Overlaps fill') :=
  inferInstanceAs (Decidable (_ ∧ _))

namespace History

/-- How many bytes were copied into a generation. -/
def filled (H : History) (tag : Nat) : Nat :=
  ((H.fills.filter fun fill => fill.tag = tag).map fun fill => fill.data.length).sum

/-- Notes that fill nothing leave the sum as it is. -/
theorem filled_append (h : N.fills = []) (tag : Nat) : filled (H ++ N) tag = H.filled tag := by
  rw [filled, fills_append, h, List.append_nil, filled]

/-- A fill adds its length for its own generation. -/
theorem filled_concat (H : History) (call : Nat) (fill : Fill) :
    filled (H ++ [.filled call fill]) fill.tag = H.filled fill.tag + fill.data.length := by
  have h_fills : fills (H ++ [.filled call fill]) = H.fills ++ [fill] := fills_append H _
  simp [filled, h_fills]

/-- A generation that nothing was filled into has no bytes. -/
theorem filled_eq_zero {tag : Nat} (h : ∀ fill ∈ H.fills, fill.tag ≠ tag) : H.filled tag = 0 := by
  have h_none : (H.fills.filter fun fill => fill.tag = tag) = [] := by
    rw [List.filter_eq_nil_iff]
    exact fun fill h_mem => by simpa using h fill h_mem
  rw [filled, h_none]
  rfl

end History

/-- The places of the bytes of some fills. -/
def cells (fills : List Fill) : Finset Nat :=
  fills.foldr (fun fill rest => Finset.Ico fill.offset fill.stop ∪ rest) ∅

/-- A cell is one that some fill covers. -/
theorem mem_cells {fills : List Fill} {k : Nat} :
    k ∈ cells fills ↔ ∃ fill ∈ fills, fill.offset ≤ k ∧ k < fill.stop := by
  induction fills with
  | nil => simp [cells]
  | cons fill fills ih =>
    change k ∈ Finset.Ico fill.offset fill.stop ∪ cells fills ↔ _
    rw [Finset.mem_union, Finset.mem_Ico, ih, List.exists_mem_cons_iff]

/-- Fills of one generation that do not overlap have a place for each of their bytes. -/
theorem card_cells {fills : List Fill} {tag : Nat} (h_tag : ∀ fill ∈ fills, fill.tag = tag)
    (h_apart : fills.Pairwise fun fill fill' => ¬ fill.Overlaps fill') :
    (cells fills).card = (fills.map fun fill => fill.data.length).sum := by
  induction fills with
  | nil => rfl
  | cons fill fills ih =>
    rw [List.pairwise_cons] at h_apart
    -- a place that the first fill shares with another one would be an overlap
    have h_disjoint : Disjoint (Finset.Ico fill.offset fill.stop) (cells fills) := by
      rw [Finset.disjoint_left]
      intro k h_here h_there
      rw [Finset.mem_Ico] at h_here
      obtain ⟨fill', h_mem, h_within⟩ := mem_cells.1 h_there
      have h_same : fill.tag = fill'.tag := by
        rw [h_tag fill List.mem_cons_self, h_tag fill' (List.mem_cons_of_mem _ h_mem)]
      exact h_apart.1 fill' h_mem ⟨h_same, by omega⟩
    have h_length : (Finset.Ico fill.offset fill.stop).card = fill.data.length := by
      rw [Nat.card_Ico, Fill.stop]
      omega
    change (Finset.Ico fill.offset fill.stop ∪ cells fills).card = _
    rw [Finset.card_union_of_disjoint h_disjoint, h_length,
      ih (fun fill' h_mem => h_tag fill' (List.mem_cons_of_mem _ h_mem)) h_apart.2, List.map_cons,
      List.sum_cons]

/-- Fills that do not overlap have no more bytes than they have room. -/
theorem History.filled_le {tag bound : Nat}
    (h_apart : H.fills.Pairwise fun fill fill' => ¬ fill.Overlaps fill')
    (h_stop : ∀ fill ∈ H.fills, fill.tag = tag → fill.stop ≤ bound) : H.filled tag ≤ bound := by
  have h_mem : ∀ {fill}, fill ∈ H.fills.filter (fun fill => fill.tag = tag) →
      fill ∈ H.fills ∧ fill.tag = tag := by
    intro fill h_mem
    simpa using h_mem
  calc H.filled tag
      = (cells (H.fills.filter fun fill => fill.tag = tag)).card :=
        (card_cells (fun fill h => (h_mem h).2) (h_apart.filter _)).symm
    _ ≤ (Finset.range bound).card := by
        refine Finset.card_le_card fun k h_k => ?_
        obtain ⟨fill, h_fill, h_within⟩ := mem_cells.1 h_k
        have h_fits := h_stop fill (h_mem h_fill).1 (h_mem h_fill).2
        exact Finset.mem_range.2 (by omega)
    _ = bound := Finset.card_range bound

/-! ### Passing over skips -/

namespace Passes

variable {gap tag tag' t : Nat} {skips skips' : List Nat}

/-- Passing skips stays within the slot's generations. -/
theorem modEq (h : Passes gap tag skips tag' skips') : tag' ≡ tag [MOD gap] := by
  induction h with
  | stop h => exact Nat.ModEq.refl _
  | pass h h_rest ih => exact modEq_add_gap.1 ih

/-- A slot gets to the next generation that is not skipped. -/
theorem isLeast (h : Passes gap tag skips tag' skips') (h_gap : 0 < gap)
    (h_nodup : skips.Nodup) : IsLeast {t | t ≡ tag [MOD gap] ∧ tag ≤ t ∧ t ∉ skips} tag' := by
  induction h with
  | stop h => exact ⟨⟨Nat.ModEq.refl _, le_rfl, h⟩, fun t ht => ht.2.1⟩
  | @pass tag tag' skips skips' h h_rest ih =>
    obtain ⟨⟨h_mod, h_le, h_new⟩, h_first⟩ := ih (h_nodup.erase _)
    refine ⟨⟨modEq_add_gap.1 h_mod, by omega, fun h_mem => ?_⟩, ?_⟩
    · have h_ne : tag' ≠ tag := by omega
      exact h_new ((List.mem_erase_of_ne h_ne).2 h_mem)
    · rintro t ⟨h_mod', h_le', h_new'⟩
      have h_ne : t ≠ tag := fun h_eq => h_new' (h_eq ▸ h)
      have h_lt : tag < t := lt_of_le_of_ne h_le' h_ne.symm
      exact h_first ⟨modEq_add_gap.2 h_mod', h_mod'.symm.add_le_of_lt h_lt,
        fun h_mem => h_new' (List.mem_of_mem_erase h_mem)⟩

/-- The skips that a slot passes over are those of the generations that it leaves behind. -/
theorem mem_iff (h : Passes gap tag skips tag' skips') (h_gap : 0 < gap)
    (h_nodup : skips.Nodup) :
    t ∈ skips' ↔ t ∈ skips ∧ (t ≡ tag [MOD gap] → tag ≤ t → tag' ≤ t) := by
  induction h with
  | stop h => exact ⟨fun ht => ⟨ht, fun _ h_le => h_le⟩, And.left⟩
  | @pass tag tag' skips skips' h h_rest ih =>
    have h_le := h_rest.le
    rw [ih (h_nodup.erase _), h_nodup.mem_erase_iff, modEq_add_gap]
    constructor
    · -- a skip that is left lies behind all that were passed
      rintro ⟨⟨h_ne, h_mem⟩, h_after⟩
      refine ⟨h_mem, fun h_own h_le' => h_after h_own ?_⟩
      exact h_own.symm.add_le_of_lt (lt_of_le_of_ne h_le' h_ne.symm)
    · rintro ⟨h_mem, h_after⟩
      refine ⟨⟨?_, h_mem⟩, fun h_own h_le' => h_after h_own (by omega)⟩
      -- the skip that was passed is gone
      rintro rfl
      exact absurd (h_after (Nat.ModEq.refl _) le_rfl) (by omega)

/-- Of generations of the slot, the skips that are left lie ahead. -/
theorem ahead (h : Passes gap tag skips tag' skips') (h_gap : 0 < gap) (h_nodup : skips.Nodup)
    (h_skips : ∀ t ∈ skips, tag ≤ t ∧ t ≡ tag [MOD gap]) : ∀ t ∈ skips', tag' < t := by
  intro t ht
  obtain ⟨h_mem, h_after⟩ := (h.mem_iff h_gap h_nodup).1 ht
  obtain ⟨h_le, h_mod⟩ := h_skips t h_mem
  have h_ne : tag' ≠ t := by
    rintro rfl
    exact (h.isLeast h_gap h_nodup).1.2.2 h_mem
  exact lt_of_le_of_ne (h_after h_mod h_le) h_ne

end Passes

/-! ### The invariant of the steps -/

/-- Where a slot stands among its generations, and how far the present one is filled. -/
structure Measured (slot s : Slot) (H : History) : Prop where
  fixed : s.index = slot.index ∧ s.capacity = slot.capacity ∧ s.gap = slot.gap
  tag : s.tag ≡ slot.tag [MOD slot.gap]
  tag_le : ∀ fill ∈ H.fills, fill.tag ≤ s.tag
  stop_le : ∀ fill ∈ H.fills, fill.tag = s.tag → fill.stop ≤ s.highWater
  high_le : s.highWater ≤ s.capacity
  dirty : s.dirty = H.filled s.tag

/-- What the phase of a slot that is not stopped says. -/
structure Phased (s : Slot) (H : History) : Prop where
  complete : (s.phase = .full ∨ s.phase = .flushing) ↔ s.dirty = s.capacity
  taken : s.phase = .flushing ∨ s.phase = .reserving → s.buffer = .taken
  numbered : s.phase ≠ .reserving → s.durable.claim = s.claims
  early : s.phase = .reserving → ∀ flush, H.claimed.getLast? = some flush → flush.kind = .early

/-- The invariant of the steps on a slot. -/
structure Tracked (slot s : Slot) (H : History) : Prop where
  measured : Measured slot s H
  nodup : s.skipped.Nodup
  ahead : ∀ t ∈ s.skipped, s.tag < t
  numbered : s.durable.claim ≤ s.claims
  phased : ¬ s.Stopped → Phased s H

namespace Measured

/-- Bytes are copied in. -/
theorem fillIn (h : Measured slot s H) {offset : Nat} {data : Bytes} {phase : Phase}
    (h_fits : offset + data.length ≤ s.capacity) :
    Measured slot { s.filledWith offset data with phase }
      (H ++ [.filled call ⟨s.tag, offset, data, s.claims⟩]) := by
  constructor
  case fixed => exact h.fixed
  case tag => exact h.tag
  case tag_le =>
    intro fill h_mem
    rcases History.mem_fills_concat.1 h_mem with h_old | rfl
    · exact h.tag_le fill h_old
    · exact le_rfl
  case stop_le =>
    intro fill h_mem h_tag
    rcases History.mem_fills_concat.1 h_mem with h_old | rfl
    · exact (h.stop_le fill h_old h_tag).trans (le_max_left _ _)
    · exact le_max_right _ _
  case high_le => exact max_le h.high_le h_fits
  -- the slot counts just what is filled in
  case dirty =>
    change s.dirty + data.length = _
    rw [h.dirty]
    exact (History.filled_concat H call ⟨s.tag, offset, data, s.claims⟩).symm

/-- Nothing is measured that other changes change. -/
theorem keep (h : Measured slot s H) (h_fills : N.fills = []) (phase : Phase) (waiters claims : Nat)
    (skipped : List Nat) (durable : Durable) (buffer : Buffer) :
    Measured slot { s with phase, waiters, claims, skipped, durable, buffer } (H ++ N) := by
  have h_same : (H ++ N).fills = H.fills := by
    rw [History.fills_append, h_fills, List.append_nil]
  exact ⟨h.fixed, h.tag, h_same ▸ h.tag_le, h_same ▸ h.stop_le, h.high_le,
    h.dirty.trans (History.filled_append h_fills s.tag).symm⟩

/-- A new generation is empty. -/
theorem renew (h : Measured slot s H) (h_fills : N.fills = []) {tag : Nat} (h_later : s.tag < tag)
    (h_tag : tag ≡ s.tag [MOD s.gap]) (skipped : List Nat) (buffer : Buffer) :
    Measured slot (renewed { s with buffer } tag skipped) (H ++ N) := by
  have h_before : ∀ fill ∈ (H ++ N).fills, fill.tag < tag := by
    intro fill h_mem
    rw [History.fills_append, h_fills, List.append_nil] at h_mem
    exact (h.tag_le fill h_mem).trans_lt h_later
  have h_own : tag ≡ slot.tag [MOD slot.gap] := by
    rw [h.fixed.2.2] at h_tag
    exact h_tag.trans h.tag
  exact ⟨h.fixed, h_own, fun fill h_mem => (h_before fill h_mem).le,
    fun fill h_mem h_eq => absurd h_eq (h_before fill h_mem).ne, Nat.zero_le _,
    (History.filled_eq_zero fun fill h_mem => (h_before fill h_mem).ne).symm⟩

end Measured

namespace Phased

/-- A slot that is filled in part. -/
theorem of_filling (h_phase : s.phase = .filling) (h_part : s.dirty ≠ s.capacity)
    (h_numbered : s.durable.claim = s.claims) : Phased s H where
  complete := iff_of_false (by simp [h_phase]) h_part
  taken := fun h_out => by simp [h_phase] at h_out
  numbered := fun _ => h_numbered
  early := fun h_out => by simp [h_phase] at h_out

/-- A slot that is complete. -/
theorem of_full (h_phase : s.phase = .full) (h_whole : s.dirty = s.capacity)
    (h_numbered : s.durable.claim = s.claims) : Phased s H where
  complete := iff_of_true (.inl h_phase) h_whole
  taken := fun h_out => by simp [h_phase] at h_out
  numbered := fun _ => h_numbered
  early := fun h_out => by simp [h_phase] at h_out

/-- A slot that is not complete and takes bytes, or has an early flush out. -/
theorem part (h : Phased s H) (h_phase : s.phase = .filling ∨ s.phase = .reserving) :
    s.dirty ≠ s.capacity := by
  rw [Ne, ← h.complete]
  rcases h_phase with h_phase | h_phase <;> simp [h_phase]

/-- What a phase says stays true when nothing of it changes. -/
theorem keep (h : Phased s H) (h_claimed : N.claimed = []) (waiters : Nat)
    (skipped : List Nat) : Phased { s with waiters, skipped } (H ++ N) := by
  refine ⟨h.complete, h.taken, h.numbered, fun h_phase flush h_last => h.early h_phase flush ?_⟩
  rwa [History.claimed_append, h_claimed, List.append_nil] at h_last

end Phased

namespace Tracked

/-- **Every change that settles no ticket** keeps the invariant. -/
theorem change (h : Tracked slot s H) (h_change : Change call s N s') : Tracked slot s' (H ++ N) := by
  have h_live : ∀ {phase}, s.phase = phase → (∀ reason, phase ≠ .poisoned reason) → Phased s H :=
    fun h_phase h_never => h.phased (not_stopped h_phase h_never)
  cases h_change with
  | count n =>
    exact ⟨h.measured.keep rfl _ _ _ _ _ _, h.nodup, h.ahead, h.numbered,
      fun h_running => (h.phased h_running).keep rfl n s.skipped⟩
  | spare h_running h_settles =>
    exact ⟨h.measured.keep rfl _ _ _ _ _ _, h.nodup, h.ahead, h.numbered,
      fun h_running => (h.phased h_running).keep rfl s.waiters s.skipped⟩
  | skipLater h_running h_later h_new =>
    refine ⟨h.measured.keep rfl _ _ _ _ _ _, nodup_insertSkip h_new h.nodup, fun t ht => ?_,
      h.numbered, fun h_running => (h.phased h_running).keep rfl s.waiters _⟩
    rcases mem_insertSkip.1 ht with rfl | h_old
    · exact h_later
    · exact h.ahead t h_old
  | stop h_notes =>
    have h_fills : N.fills = [] := by
      refine List.filterMap_eq_nil_iff.2 fun n h_mem => ?_
      obtain ⟨flush, rfl⟩ := h_notes n h_mem
      rfl
    exact ⟨h.measured.keep h_fills _ _ _ _ _ _, h.nodup, h.ahead, h.numbered,
      fun h_running => absurd ⟨_, rfl⟩ h_running⟩
  | @fill offset data phase h_open h_fits h_phase =>
    have h_phased := h_live h_open nofun
    have h_numbered := h_phased.numbered (by rw [h_open]; exact nofun)
    refine ⟨h.measured.fillIn h_fits, h.nodup, h.ahead, h.numbered, fun _ => ?_⟩
    -- the fill that completes the slot is the one that leaves it full
    by_cases h_full : s.dirty + data.length = s.capacity
    · exact .of_full (h_phase.trans (if_pos h_full)) h_full h_numbered
    · exact .of_filling (h_phase.trans (if_neg h_full)) h_full h_numbered
  -- the whole slot was due, and now is out
  | claimFull h_full =>
    have h_phased := h_live h_full nofun
    refine ⟨h.measured.keep rfl _ _ _ _ _ _, h.nodup, h.ahead, h.numbered, fun _ => ?_⟩
    exact ⟨iff_of_true (.inr rfl) (h_phased.complete.1 (.inl h_full)), fun _ => rfl,
      fun _ => h_phased.numbered (by rw [h_full]; exact nofun), nofun⟩
  | claimEarly h_open h_high =>
    have h_phased := h_live h_open nofun
    refine ⟨h.measured.keep rfl _ _ _ _ _ _, h.nodup, h.ahead, h.numbered.trans (Nat.le_succ _),
      fun _ => ?_⟩
    have h_reserving : s.claimEarly.2.phase = .reserving := rfl
    refine ⟨iff_of_false (by simp [h_reserving]) (h_phased.part (.inl h_open)), fun _ => rfl,
      fun h_other => absurd rfl h_other, fun _ flush h_last => ?_⟩
    rw [History.claimed_append] at h_last
    have h_new : History.claimed [.claimed call s.claimEarly.1] = [s.claimEarly.1] := rfl
    rw [h_new, List.getLast?_concat] at h_last
    cases h_last
    rfl

/-- The account through the changes of a whole step. -/
theorem changes (h : Tracked slot s H) (h_changes : Changes call s N s') :
    Tracked slot s' (H ++ N) := by
  induction h_changes generalizing H with
  | refl s => rwa [List.append_nil]
  | step h_change h_rest ih =>
    rw [← List.append_assoc]
    exact ih (h.change h_change)

/-- The end of a generation keeps the invariant, if only generations of the slot were skipped. -/
theorem renew (h : Tracked slot s H) (h_gap : 0 < slot.gap) (h_capacity : 0 < slot.capacity)
    (h_own : ∀ t ∈ s.skipped, t ≡ slot.tag [MOD slot.gap]) (h_numbered : s.durable.claim = s.claims)
    (h_fills : N.fills = []) {tag : Nat} {skipped : List Nat} (buffer : Buffer)
    (h_passes : Passes s.gap (s.tag + s.gap) s.skipped tag skipped) :
    Tracked slot (renewed { s with buffer } tag skipped) (H ++ N) := by
  obtain ⟨-, h_same, h_gap'⟩ := h.measured.fixed
  have h_later : s.tag < tag := by
    have h_le := h_passes.le
    omega
  have h_tag : tag ≡ s.tag [MOD s.gap] := modEq_add_gap.1 h_passes.modEq
  -- all skips were at least one gap ahead
  have h_skips : ∀ t ∈ s.skipped, s.tag + s.gap ≤ t ∧ t ≡ s.tag + s.gap [MOD s.gap] := by
    intro t ht
    have h_mod : t ≡ s.tag [MOD s.gap] := by
      rw [h_gap']
      exact (h_own t ht).trans h.measured.tag.symm
    exact ⟨h_mod.symm.add_le_of_lt (h.ahead t ht), modEq_add_gap.2 h_mod⟩
  refine ⟨h.measured.renew h_fills h_later h_tag skipped buffer, h.nodup.sublist h_passes.sublist,
    h_passes.ahead (h_gap' ▸ h_gap) h.nodup h_skips, h.numbered, fun _ => ?_⟩
  have h_empty : 0 ≠ s.capacity := by omega
  exact .of_filling rfl h_empty h_numbered

/-- **Every change that may settle tickets** keeps the invariant. -/
theorem settling (h : Tracked slot s H) (h_gap : 0 < slot.gap) (h_capacity : 0 < slot.capacity)
    (h_own : ∀ t ∈ s.skipped, t ≡ slot.tag [MOD slot.gap]) (h_change : Settling call s N s') :
    Tracked slot s' (H ++ N) := by
  have h_phased := h.phased h_change.not_stopped
  cases h_change with
  | @full flush tag skipped h_phase h_tag h_passes =>
    have h_numbered := h_phased.numbered (by rw [h_phase]; exact nofun)
    exact h.renew h_gap h_capacity h_own h_numbered rfl flush.buffer h_passes
  | @skip tag skipped h_phase h_dirty h_passes =>
    have h_numbered := h_phased.numbered (by rw [h_phase]; exact nofun)
    exact h.renew h_gap h_capacity h_own h_numbered rfl s.buffer h_passes
  | early h_phase h_tag =>
    exact ⟨h.measured.keep rfl _ _ _ _ _ _, h.nodup, h.ahead, le_rfl,
      fun _ => .of_filling rfl (h_phased.part (.inr h_phase)) rfl⟩

end Tracked

/-! ### Flushes that are out -/

/-- These flushes are out: they were given out and have not come back. -/
def Outstanding (H : History) (flushes : List Flush) : Prop :=
  H.claimed.Perm (flushes ++ H.returned)

/-- There is only one account of what is out. -/
theorem Outstanding.unique {flushes flushes' : List Flush} (h : Outstanding H flushes)
    (h' : Outstanding H flushes') : flushes.Perm flushes' :=
  (List.perm_append_right_iff H.returned).1 (h.symm.trans h')

/-- Where a slot that is not stopped has its bytes says which flush is out. -/
theorem Live.exists_outstanding (h : Live slot s H) :
    ∃ out, Holding s H out ∧ Outstanding H out.toList := by
  obtain ⟨out, h_holding, h_count⟩ := h.ledger
  refine ⟨out, h_holding, List.perm_iff_count.2 fun flush => ?_⟩
  rw [h_count flush, List.count_append, Nat.add_comm]
  cases out with
  | none => simp
  | some flush' => simp [List.count_singleton]

/-- The flush that is out was the last to be given out. -/
theorem Holding.getLast? {flush : Flush} (h : Holding s H (some flush)) :
    H.claimed.getLast? = some flush := by
  cases h with
  | @out A B call _ h_phase h_history h_quiet =>
    have h_new : History.claimed [.claimed call flush] = [flush] := rfl
    have h_split : A ++ .claimed call flush :: B = (A ++ [.claimed call flush]) ++ B := by simp
    rw [h_history, h_split, History.claimed_append, claimed_of_spared h_quiet, List.append_nil,
      History.claimed_append, h_new, List.getLast?_concat]

/-! ### Runs -/

/-- The call that makes the step of a skip was made with it. -/
theorem mem_starts_of_skips {e : Event Task Empty} {tag : Nat} (h_orderly : Orderly slot es)
    (h_steps : (Machine.idle slot).steps program es = some m) (h : Performs m e i (.skip tag)) :
    .skip tag ∈ Machine.starts es := by
  rcases h with ⟨-, hi⟩ | ⟨c, wake, -, hi⟩
  · obtain ⟨start, h_start, h_stands⟩ := stands h_orderly h_steps i _ hi
    cases h_stands
    exact List.mem_of_getElem? h_start
  · -- no skip is made at a deadline
    obtain ⟨start, -, h_stands⟩ := stands h_orderly h_steps i _ hi
    cases h_stands

/-- Only generations that callers skip are recorded as skipped. -/
theorem mem_starts_of_skipped (h_new : slot.skipped = []) (h_orderly : Orderly slot es)
    (h_steps : (Machine.idle slot).steps program es = some m) :
    ∀ t ∈ m.state.skipped, .skip t ∈ Machine.starts es := by
  induction es using List.reverseRecOn generalizing m with
  | nil =>
    cases h_steps
    intro t ht
    change t ∈ slot.skipped at ht
    rw [h_new] at ht
    cases ht
  | append_singleton es e ih =>
    obtain ⟨m₁, h₁, h_step⟩ := Machine.steps_concat _ h_steps
    have h_before := ih h_orderly.of_append h₁
    intro t ht
    rcases event_cases h_step with ⟨_, -, -, h_state⟩ | ⟨i, task, h_performs, h_state, -⟩
    · rw [h_state] at ht
      exact Machine.mem_starts_concat (h_before t ht) e
    · rw [h_state] at ht
      -- a skip that is kept was kept before, or is that of this very call
      rcases (run_behind task m₁.state).skipped t ht with h_old | rfl
      · exact Machine.mem_starts_concat (h_before t h_old) e
      · exact Machine.mem_starts_concat (mem_starts_of_skips h_orderly.of_append h₁ h_performs) e

/-- The tag of a slot never decreases. -/
theorem tag_le_of_steps {m' : Machine Slot Task Result} (h : m.steps program es = some m') :
    m.state.tag ≤ m'.state.tag := by
  induction es using List.reverseRecOn generalizing m' with
  | nil =>
    cases h
    exact le_rfl
  | append_singleton es e ih =>
    obtain ⟨m₁, h₁, h_step⟩ := Machine.steps_concat _ h
    refine (ih h₁).trans ?_
    rcases event_cases h_step with ⟨_, -, -, h_state⟩ | ⟨i, task, -, h_state, -⟩
    · exact h_state ▸ le_rfl
    · exact h_state ▸ (onward_run task m₁.state).tag_le

/-- A slot that nothing has happened on. -/
theorem tracked_create {index capacity ringSize : Nat}
    (h_create : Slot.create index capacity ringSize = .ok slot) (h_capacity : 0 < capacity) :
    slot.tag = index * capacity ∧ slot.index = index ∧ slot.gap = capacity * ringSize ∧
      slot.skipped = [] ∧ Tracked slot slot [] := by
  obtain ⟨-, rfl⟩ := eq_of_create h_create
  refine ⟨rfl, rfl, rfl, rfl, ⟨⟨rfl, rfl, rfl⟩, Nat.ModEq.refl _, ?_, ?_, Nat.zero_le _, rfl⟩,
    List.nodup_nil, ?_, le_rfl, fun _ => .of_filling rfl (Nat.ne_of_lt h_capacity) rfl⟩
  · exact fun fill h_mem => absurd h_mem List.not_mem_nil
  · exact fun fill h_mem => absurd h_mem List.not_mem_nil
  · exact fun t ht => absurd ht List.not_mem_nil

/-- **The invariant of the steps** holds in every run in which only generations of the slot are
skipped. -/
theorem tracked (h_gap : 0 < slot.gap) (h_capacity : 0 < slot.capacity) (h_none : slot.skipped = [])
    (h_new : Tracked slot slot []) (h_orderly : Orderly slot es)
    (h_skips : ∀ t, .skip t ∈ Machine.starts es → t ≡ slot.tag [MOD slot.gap])
    (h_steps : (Machine.idle slot).steps program es = some m) (h_sound : ¬ Faulted m) :
    Tracked slot m.state (history slot es) := by
  induction es using List.reverseRecOn generalizing m with
  | nil =>
    cases h_steps
    exact h_new
  | append_singleton es e ih =>
    obtain ⟨m₁, h₁, h_step⟩ := Machine.steps_concat _ h_steps
    have h_skips₁ : ∀ t, .skip t ∈ Machine.starts es → t ≡ slot.tag [MOD slot.gap] := fun t h_mem =>
      h_skips t (Machine.mem_starts_concat h_mem e)
    have h_before := ih h_orderly.of_append h_skips₁ h₁ (not_faulted_of_step h_sound h_step)
    rw [history_concat h₁ h_step]
    -- a call that is made leaves the slot alone; otherwise one step is made
    rcases event_cases h_step with ⟨start, rfl, h_notes, h_state⟩ |
      ⟨i, task, h_performs, h_state, status, h_self, h_leads⟩
    · rw [h_notes, List.append_nil, h_state]
      exact h_before
    · rw [h_performs.notes, h_state]
      cases run_effect i (sound_of_step h_sound h_self h_leads) with
      | changes h_changes => exact h_before.changes h_changes
      | settling h_change =>
        -- the generations that are passed over are ones that were to be skipped
        have h_own : ∀ t ∈ m₁.state.skipped, t ≡ slot.tag [MOD slot.gap] := fun t ht =>
          h_skips₁ t (mem_starts_of_skipped h_none h_orderly.of_append h₁ t ht)
        exact h_before.settling h_gap h_capacity h_own h_change

/-! ### The representation invariant -/

/-- What the fields of a slot `s` say about the events `es` that led to it. -/
structure Represents (slot : Slot) (es : List (Event Task Empty)) (s : Slot) : Prop where
  /-- The tag is one of the addresses of the slot, one gap after another. -/
  tag : s.tag ≡ s.index * s.capacity [MOD s.gap]
  /-- The tag has never decreased. -/
  onward : ∀ es₁ es₂ m₁, es = es₁ ++ es₂ → (Machine.idle slot).steps program es₁ = some m₁ →
    m₁.state.tag ≤ s.tag
  dirty : s.dirty = (history slot es).filled s.tag
  dirty_le : s.dirty ≤ s.highWater
  high_le : s.highWater ≤ s.capacity
  skipped : ∀ t ∈ s.skipped, s.tag < t
  numbered : s.durable.claim ≤ s.claims
  complete : ¬ s.Stopped → ((s.phase = .full ∨ s.phase = .flushing) ↔ s.dirty = s.capacity)
  /-- One flush is out, of this generation, and the slot has no buffer. -/
  out : ¬ s.Stopped → ((s.phase = .flushing ∨ s.phase = .reserving) ↔
    ∃ flush, Outstanding (history slot es) [flush])
  lent : ¬ s.Stopped → ∀ flush, Outstanding (history slot es) [flush] →
    flush.tag = s.tag ∧ s.buffer = .taken
  /-- No flush is out, and the slot has its buffer. -/
  inside : ¬ s.Stopped → ((s.phase = .filling ∨ s.phase = .full) ↔ Outstanding (history slot es) [])
  size : ¬ s.Stopped → Outstanding (history slot es) [] → s.buffer.size = s.capacity
  /-- Every early flush has come back, unless one is out. -/
  settled : ¬ s.Stopped → (∀ flush, Outstanding (history slot es) [flush] → flush.kind ≠ .early) →
    s.durable.claim = s.claims

/-- The part of the invariant that speaks of flushes which are out. -/
theorem Live.represents (h : Live slot s H) (h_phased : Phased s H) :
    ((s.phase = .flushing ∨ s.phase = .reserving) ↔ ∃ flush, Outstanding H [flush]) ∧
      (∀ flush, Outstanding H [flush] → flush.tag = s.tag ∧ s.buffer = .taken) ∧
      ((s.phase = .filling ∨ s.phase = .full) ↔ Outstanding H []) ∧
      (Outstanding H [] → s.buffer.size = s.capacity) ∧
      ((∀ flush, Outstanding H [flush] → flush.kind ≠ .early) → s.durable.claim = s.claims) := by
  obtain ⟨out, h_holding, h_out⟩ := h.exists_outstanding
  cases out with
  | none =>
    -- no flush is out, so the bytes are in the slot
    have h_none : ∀ flush, ¬ Outstanding H [flush] := fun flush h_other => by
      simpa using h_other.unique h_out
    cases h_holding with
    | inside h_phase h_holds =>
      refine ⟨iff_of_false ?_ (fun ⟨flush, h_other⟩ => h_none flush h_other),
        fun flush h_other => absurd h_other (h_none flush), iff_of_true h_phase h_out,
        fun _ => h_holds.size, fun _ => h_phased.numbered ?_⟩
      · rcases h_phase with h_phase | h_phase <;> simp [h_phase]
      · rcases h_phase with h_phase | h_phase <;> simp [h_phase]
  | some flush =>
    -- just one flush is out, and it has the bytes
    have h_only : ∀ flush', Outstanding H [flush'] → flush' = flush := fun flush' h_other => by
      simpa using h_other.unique h_out
    have h_some : ¬ Outstanding H [] := fun h_other => by simpa using h_other.unique h_out
    have h_last := h_holding.getLast?
    cases h_holding with
    | out h_phase h_history h_quiet h_tag =>
      refine ⟨iff_of_true h_phase ⟨flush, h_out⟩, fun flush' h_other => ?_, iff_of_false ?_ h_some,
        fun h_other => absurd h_other h_some, fun h_kind => h_phased.numbered fun h_reserving => ?_⟩
      · rw [h_only flush' h_other]
        exact ⟨h_tag, h_phased.taken h_phase⟩
      · rcases h_phase with h_phase | h_phase <;> simp [h_phase]
      · exact h_kind flush h_out (h_phased.early h_reserving flush h_last)

/-- **The representation invariant of a slot.** Whatever calls are made on it and in whatever order they
make their steps, if no fills of one generation overlap, only generations of the slot are skipped,
flushes are handed back by those who were given them, and nothing faults. -/
theorem representation {index capacity ringSize : Nat}
    (h_create : Slot.create index capacity ringSize = .ok slot) (h_capacity : 0 < capacity)
    (h_index : index < ringSize) (h_orderly : Orderly slot es)
    (h_apart : (history slot es).fills.Pairwise fun fill fill' => ¬ fill.Overlaps fill')
    (h_skips : ∀ t, .skip t ∈ Machine.starts es → t ≡ index * capacity [MOD capacity * ringSize])
    (h_steps : (Machine.idle slot).steps program es = some m) (h_sound : ¬ Faulted m) :
    m.state.index = index ∧ m.state.capacity = capacity ∧ m.state.gap = capacity * ringSize ∧
      Represents slot es m.state := by
  obtain ⟨h_same, h_new⟩ := of_create h_create h_capacity (Nat.zero_lt_of_lt h_index)
  obtain ⟨h_tag, h_number, h_gap, h_none, h_first⟩ := tracked_create h_create h_capacity
  subst h_same
  have h_tracked := tracked h_new.gap_pos h_capacity h_none h_first h_orderly
    (by rwa [h_tag, h_gap]) h_steps h_sound
  obtain ⟨h_index', h_capacity', h_gap'⟩ := h_tracked.measured.fixed
  refine ⟨h_index'.trans h_number, h_capacity', h_gap'.trans h_gap, ?_⟩
  -- what is said of flushes that are out holds while the slot is not stopped
  have h_live : ¬ m.state.Stopped → _ := fun h_running =>
    (summary h_new h_orderly h_steps h_sound h_running).represents (h_tracked.phased h_running)
  constructor
  case tag =>
    rw [h_index', h_capacity', h_gap', h_number, ← h_tag]
    exact h_tracked.measured.tag
  case onward =>
    rintro es₁ es₂ m₁ rfl h₁
    rw [Machine.steps_append, h₁] at h_steps
    exact tag_le_of_steps h_steps
  case dirty => exact h_tracked.measured.dirty
  case dirty_le =>
    rw [h_tracked.measured.dirty]
    exact History.filled_le h_apart h_tracked.measured.stop_le
  case high_le => exact h_tracked.measured.high_le
  case skipped => exact h_tracked.ahead
  case numbered => exact h_tracked.numbered
  case complete => exact fun h_running => (h_tracked.phased h_running).complete
  case out => exact fun h_running => (h_live h_running).1
  case lent => exact fun h_running => (h_live h_running).2.1
  case inside => exact fun h_running => (h_live h_running).2.2.1
  case size => exact fun h_running => (h_live h_running).2.2.2.1
  case settled => exact fun h_running => (h_live h_running).2.2.2.2

/-- The next generation is skipped while the full flush of the present one is out. -/
def skippedAhead : List (Event Task Empty) := twoFlushes ++ [.call (.skip 2), .run 3]

/-- One early flush has come back by then, the full one is out, and one skip lies ahead. -/
theorem representation_skippedAhead : ∃ m,
    (Machine.idle smallSlot).steps program skippedAhead = some m ∧ m.state.phase = .flushing ∧
      m.state.dirty = 2 ∧ m.state.skipped = [2] ∧ m.state.claims = 1 ∧
      Represents smallSlot skippedAhead m.state := by
  have h_create : Slot.create 0 2 1 = .ok smallSlot := rfl
  have h_orderly : Orderly smallSlot skippedAhead := by decide +kernel
  have h_apart : (history smallSlot skippedAhead).fills.Pairwise
      fun fill fill' => ¬ fill.Overlaps fill' := by decide +kernel
  have h_skips : ∀ t, .skip t ∈ Machine.starts skippedAhead → t ≡ 0 * 2 [MOD 2 * 1] := by
    intro t ht
    have h_starts : Machine.starts skippedAhead = [.fillJoin 0 0 [1], .release firstByte,
        .fillJoin 0 1 [2], .skip 2] := rfl
    rw [h_starts] at ht
    obtain rfl : t = 2 := by simpa using ht
    decide
  have h_possible : ((Machine.idle smallSlot).steps program skippedAhead).isSome := rfl
  have h_steps := (Option.some_get h_possible).symm
  have h_sound : ¬ Faulted (((Machine.idle smallSlot).steps program skippedAhead).get h_possible) := by
    have h_calls : (((Machine.idle smallSlot).steps program skippedAhead).get h_possible).calls =
        [.finished (.ok (.joined (some firstByte))), .finished (.ok .done),
          .finished (.ok (.joined (some bothBytes))), .ready (.announce (.ok .done))] := rfl
    rintro ⟨i, broken, hi⟩
    have h_mem := List.mem_of_getElem? hi
    rw [h_calls] at h_mem
    simp at h_mem
  exact ⟨_, h_steps, rfl, rfl, rfl, rfl, (representation h_create (by decide) (by decide) h_orderly
    h_apart h_skips h_steps h_sound).2.2.2⟩

end GroupCommit.Slot
