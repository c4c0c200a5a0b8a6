import GroupCommit.Proofs.Slot.Returns
import Mathlib.Order.Bounds.Basic

/-!
# What a flush writes

Every flush that a slot gives out has exactly the bytes that were copied into its generation: at each
offset the byte of the last fill there, and zero where nothing was filled. This holds whatever calls are
made on the slot and in whatever order they make their steps. The buffer itself comes and goes with the
flushes, and is used again for later generations; nothing of an earlier generation ever shows.

* `Slot.Exact`: the flush has the bytes of its generation, no more and no fewer.
* `Slot.flush_exact`: the theorem.
-/

namespace GroupCommit.Slot

variable {slot s s' : Slot} {m : Machine Slot Task Result} {es : List (Event Task Empty)}
  {H N : History} {flush : Flush} {i call : Nat}

/-- The flush has the bytes that its generation has after this history. A full flush has all the slot,
an early one reaches as far as the furthest fill. -/
structure Exact (capacity : Nat) (H : History) (flush : Flush) : Prop where
  bytes : ∃ data, flush.bytes = .ok data ∧ data.length = flush.length ∧
    ∀ k < flush.length, Bytes.read data k = H.latest flush.tag k
  full : flush.kind = .full → flush.length = capacity
  early : flush.kind = .early →
    IsGreatest {stop | ∃ fill ∈ H.fills, fill.tag = flush.tag ∧ fill.stop = stop} flush.length

/-- The change that gives out a flush notes nothing else, and the slot is not stopped. -/
theorem Change.claims (h : Change call s N s') (h_mem : .claimed i flush ∈ N) :
    N = [.claimed i flush] ∧ ¬ s.Stopped := by
  cases h with
  | claimFull h_full => exact ⟨by rw [List.mem_singleton.1 h_mem], not_stopped h_full nofun⟩
  | claimEarly h_open => exact ⟨by rw [List.mem_singleton.1 h_mem], not_stopped h_open nofun⟩
  | stop h_notes =>
    obtain ⟨_, h_eq⟩ := h_notes _ h_mem
    cases h_eq
  -- the others take no flush
  | fill => cases List.mem_singleton.1 h_mem
  | spare => cases List.mem_singleton.1 h_mem
  | count => cases h_mem
  | skipLater => cases h_mem

/-- What settles tickets takes no flush. -/
theorem Settling.not_claimed (h : Settling call s N s') : .claimed i flush ∉ N := by
  intro h_mem
  cases h with
  | skip => cases h_mem
  | full => cases List.mem_singleton.1 h_mem
  | early => cases List.mem_singleton.1 h_mem

/-- A flush that is given out has the bytes of the slot. -/
theorem Live.exact (h : Live slot s H) (h_change : Change call s [.claimed i flush] s') :
    flush.tag = s.tag ∧ Exact slot.capacity H flush := by
  cases h_change with
  | claimFull h_full =>
    obtain ⟨h_holds, -⟩ := h.holding_inside (.inr h_full)
    have h_bytes : Holds s.claimFull.1.buffer s.capacity H s.tag := h_holds
    exact ⟨rfl, h_bytes.exists_bytes le_rfl, fun _ => h.capacity, nofun⟩
  | claimEarly h_open h_high =>
    obtain ⟨h_holds, -⟩ := h.holding_inside (.inl h_open)
    have h_bytes : Holds s.claimEarly.1.buffer s.capacity H s.tag := h_holds
    refine ⟨rfl, h_bytes.exists_bytes h.high_le, nofun, fun _ => ?_⟩
    -- the furthest fill is the reach of an early flush
    refine ⟨h.furthest h_high, ?_⟩
    rintro stop ⟨fill, h_fill, h_tag, rfl⟩
    exact h.stop_le fill h_fill h_tag
  | stop h_notes =>
    obtain ⟨_, h_eq⟩ := h_notes _ (List.mem_singleton_self _)
    cases h_eq

/-- A flush that is given out in a step has the bytes that the slot has by then: the step may have
copied some in before. -/
theorem exact_of_changes (h : ¬ s.Stopped → Live slot s H) (h_changes : Changes call s N s')
    (h_mem : .claimed i flush ∈ N) : flush.tag = s.tag ∧
      ∃ A B, N = A ++ .claimed i flush :: B ∧ Exact slot.capacity (H ++ A) flush := by
  induction h_changes generalizing H with
  | refl s => cases h_mem
  | @step s s₁ s' N N' h_change h_rest ih =>
    rcases List.mem_append.1 h_mem with h_here | h_later
    · -- taken in this change, out of the state in front of it
      obtain ⟨rfl, h_live⟩ := h_change.claims h_here
      obtain ⟨h_tag, h_exact⟩ := (h h_live).exact h_change
      exact ⟨h_tag, [], N', rfl, by rwa [List.append_nil]⟩
    · -- taken later, when the account is that of the next state
      have h_next : ¬ s₁.Stopped → Live slot s₁ (H ++ N) := fun h_live =>
        (h fun h_stopped => h_live (h_change.stopped h_stopped)).change h_change h_live
      obtain ⟨h_tag, A, B, rfl, h_exact⟩ := ih h_next h_later
      refine ⟨h_tag.trans h_change.same.1, N ++ A, B, by simp, ?_⟩
      rwa [← List.append_assoc]

/-- **What a flush writes.** A flush that some call on a slot returns has as its address the generation
that the slot was in when the call got it, and exactly the bytes that had been copied into that
generation by then. -/
theorem flush_exact {index capacity ringSize : Nat}
    (h_create : Slot.create index capacity ringSize = .ok slot) (h_capacity : 0 < capacity)
    (h_ring : 0 < ringSize) (h_orderly : Orderly slot es)
    (h_steps : (Machine.idle slot).steps program es = some m) (h_sound : ¬ Faulted m)
    (hi : m.calls[i]? = some (.finished (.ok (.joined (some flush))))) :
    ∃ es₁ e es₂ m₁ A B, es = es₁ ++ e :: es₂ ∧ (Machine.idle slot).steps program es₁ = some m₁ ∧
      notes m₁ e = A ++ .claimed i flush :: B ∧ flush.tag = m₁.state.tag ∧
      Exact capacity (history slot es₁ ++ A) flush := by
  obtain ⟨rfl, h_new⟩ := of_create h_create h_capacity h_ring
  obtain ⟨start, -, h_mem⟩ := told h_orderly h_steps hi
  obtain ⟨es₁, e, es₂, m₁, m₂, rfl, h₁, h_step, h_note⟩ :=
    Machine.exists_event_of_noted h_steps h_mem
  refine ⟨es₁, e, es₂, m₁, ?_⟩
  -- what holds of the whole run holds of the part up to the event
  have h_sound₂ := not_faulted_of_event h_steps h_sound h₁ h_step
  have h_live := summary h_new h_orderly.of_append h₁ (not_faulted_of_step h_sound₂ h_step)
  rcases event_cases h_step with ⟨_, -, h_notes, -⟩ |
    ⟨j, task, h_performs, -, status, h_self, h_leads⟩
  · rw [h_notes] at h_note
    cases h_note
  · rw [h_performs.notes] at h_note ⊢
    cases run_effect j (sound_of_step h_sound₂ h_self h_leads) with
    | changes h_changes =>
      obtain ⟨h_tag, A, B, h_eq, h_exact⟩ := exact_of_changes h_live h_changes h_note
      exact ⟨A, B, rfl, h₁, h_eq, h_tag, h_exact⟩
    | settling h_change =>
      -- a flush is taken by a step that settles nothing
      exact absurd h_note h_change.not_claimed

/-! ### An early flush and a full one -/

/-- The early flush of a slot that has its first byte. -/
def firstByte : Flush := ⟨0, 1, .early, ⟨2, [1]⟩⟩

/-- The full flush of the slot. -/
def bothBytes : Flush := ⟨0, 2, .full, ⟨2, [1, 2]⟩⟩

/-- A call copies the first byte in and takes the early flush at its deadline; another one copies the
second byte in, which completes the slot. -/
def twoFlushes : List (Event Task Empty) :=
  [.call (.fillJoin 0 0 [1]), .run 0, .run 0, .expire 0, .call (.release firstByte), .run 1, .run 1,
    .call (.fillJoin 0 1 [2]), .run 2]

/-- How the calls end then. -/
theorem twoFlushes_calls : ∃ m, (Machine.idle smallSlot).steps program twoFlushes = some m ∧
    m.calls = [.finished (.ok (.joined (some firstByte))), .finished (.ok .done),
      .finished (.ok (.joined (some bothBytes)))] := by
  have h_possible : ((Machine.idle smallSlot).steps program twoFlushes).isSome := rfl
  exact ⟨_, (Option.some_get h_possible).symm, rfl⟩

/-- The flush of the third call has both bytes, though one of them has been out with another flush in the
meantime. -/
theorem flush_exact_twoFlushes : ∃ es₁ e es₂ m₁ A B, twoFlushes = es₁ ++ e :: es₂ ∧
    (Machine.idle smallSlot).steps program es₁ = some m₁ ∧
    notes m₁ e = A ++ .claimed 2 bothBytes :: B ∧ bothBytes.tag = m₁.state.tag ∧
    Exact 2 (history smallSlot es₁ ++ A) bothBytes := by
  have h_create : Slot.create 0 2 1 = .ok smallSlot := rfl
  have h_orderly : Orderly smallSlot twoFlushes := by decide +kernel
  obtain ⟨m, h_steps, h_calls⟩ := twoFlushes_calls
  have h_sound : ¬ Faulted m := by
    rintro ⟨i, broken, hi⟩
    have h_mem := List.mem_of_getElem? hi
    rw [h_calls] at h_mem
    simp at h_mem
  exact flush_exact h_create (by decide) (by decide) h_orderly h_steps h_sound (by rw [h_calls]; rfl)

end GroupCommit.Slot
