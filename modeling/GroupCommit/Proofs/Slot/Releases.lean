import GroupCommit.Proofs.Slot.Contents

/-!
# Nobody is released too early

A call that waits for its bytes on a slot returns without a flush only when they are written: before
that, a flush was taken after the fill, with the bytes of the fill or those that a later fill put in
their place, and it was handed back as written. A ticket becomes settled by just such a flush, in the
step that hands it back. So no call is released by a flush that was taken before its fill, by one of
another generation, by one that could not be written or that the slot did not take back, or by the end
of a generation that was skipped.

* `Slot.Honest`: the statement.
* `Slot.released_written`: the theorem.
-/

namespace GroupCommit.Slot

variable {slot s s' : Slot} {m m' : Machine Slot Task Result} {es : List (Event Task Empty)}
  {H N A B : History} {ticket : Ticket} {i call : Nat}

/-- Nobody was released too early in these events. -/
structure Honest (slot : Slot) (es : List (Event Task Empty)) (m : Machine Slot Task Result) :
    Prop where
  /-- A call that returns without a flush has waited with a ticket. Every fill with that ticket was
  written before the call returned. -/
  written : ∀ i, m.calls[i]? = some (.finished (.ok (.joined none))) →
    ∃ start ticket A B, (Machine.starts es)[i]? = some start ∧
      history slot es = A ++ .spared i ticket :: B ∧ Awaits A i start ticket ∧
      ∀ C j fill D, A = C ++ .filled j fill :: D → fill.ticket = ticket → fill.data ≠ [] →
        Written fill D
  /-- An event that settles the ticket of a fill is the step that hands back a flush which was taken
  after the fill and has its bytes. Nothing else has happened since the flush was taken but that waiting
  calls returned. -/
  settled : ∀ es₁ e es₂ m₁ m₂, es = es₁ ++ e :: es₂ →
    (Machine.idle slot).steps program es₁ = some m₁ → m₁.step program e = some m₂ →
    ∀ C j fill D, history slot es₁ = C ++ .filled j fill :: D → fill.data ≠ [] →
      ¬ m₁.state.Settles fill.ticket → m₂.state.Settles fill.ticket →
      ∃ k flush A i B, notes m₁ e = [.released k flush] ∧ D = A ++ .claimed i flush :: B ∧
        (∀ n ∈ B, n.IsSpared) ∧ Served fill A flush

/-! ### Steps -/

/-- The change that lets a waiting call return finds its ticket settled. -/
theorem Change.spares (h : Change call s N s') (h_eq : N = A ++ .spared i ticket :: B) :
    A = [] ∧ ¬ s.Stopped ∧ s.Settles ticket := by
  have h_mem : .spared i ticket ∈ N := h_eq ▸ List.mem_append_right A List.mem_cons_self
  cases h with
  | @spare ticket' h_live h_settles =>
    obtain ⟨rfl, h_here⟩ := List.append_eq_singleton_iff.1 h_eq.symm |>.resolve_right (by simp)
    cases h_here
    exact ⟨rfl, h_live, h_settles⟩
  | stop h_notes =>
    obtain ⟨_, h_note⟩ := h_notes _ h_mem
    cases h_note
  -- the others let nobody off
  | fill => cases List.mem_singleton.1 h_mem
  | claimFull => cases List.mem_singleton.1 h_mem
  | claimEarly => cases List.mem_singleton.1 h_mem
  | count => cases h_mem
  | skipLater => cases h_mem

/-- A call that need not wait any more finds all fills of its ticket written, also within a step. -/
theorem written_of_changes (h : ¬ s.Stopped → Live slot s H) (h_changes : Changes call s N s')
    (h_eq : N = A ++ .spared i ticket :: B) :
    ∀ C j fill D, H ++ A = C ++ .filled j fill :: D → fill.ticket = ticket → fill.data ≠ [] →
      Written fill D := by
  induction h_changes generalizing H A with
  | refl s => cases A <;> cases h_eq
  | @step s s₁ s' N N' h_change h_rest ih =>
    rcases append_eq_cons h_eq with ⟨B', h_here, -⟩ | ⟨A', rfl, h_later⟩
    · obtain ⟨rfl, h_live, h_settles⟩ := h_change.spares h_here
      rw [List.append_nil]
      -- the account of the state in front of this change says so
      rintro C j fill D h_fill rfl h_data
      exact (h h_live).written C j fill D h_fill h_data h_settles
    · have h_next : ¬ s₁.Stopped → Live slot s₁ (H ++ N) := fun h_live =>
        (h fun h_stopped => h_live (h_change.stopped h_stopped)).change h_change h_live
      rw [← List.append_assoc]
      exact ih h_next h_later

/-- What settles tickets lets nobody off, who looks only later. -/
theorem Settling.not_spared (h : Settling call s N s') : .spared i ticket ∉ N := by
  intro h_mem
  cases h with
  | skip => cases h_mem
  | full => cases List.mem_singleton.1 h_mem
  | early => cases List.mem_singleton.1 h_mem

/-! ### Runs -/

/-- Whoever has waited with a ticket returns when every fill with that ticket is written. -/
theorem written_of_spared (h_new : New slot) (h_orderly : Orderly slot es)
    (h_steps : (Machine.idle slot).steps program es = some m) (h_sound : ¬ Faulted m)
    (h_eq : history slot es = A ++ .spared i ticket :: B) :
    ∀ C j fill D, A = C ++ .filled j fill :: D → fill.ticket = ticket → fill.data ≠ [] →
      Written fill D := by
  -- by induction on the events, to reach the one with the note
  induction es using List.reverseRecOn generalizing m B with
  | nil => cases A <;> cases h_eq
  | append_singleton es e ih =>
    obtain ⟨m₁, h₁, h_step⟩ := Machine.steps_concat _ h_steps
    have h_sound₁ := not_faulted_of_step h_sound h_step
    rw [history_concat h₁ h_step] at h_eq
    rcases append_eq_cons h_eq with ⟨B', h_before, -⟩ | ⟨A', rfl, h_here⟩
    · exact ih h_orderly.of_append h₁ h_sound₁ h_before
    · -- the event lets the call return
      have h_live := summary h_new h_orderly.of_append h₁ h_sound₁
      rcases event_cases h_step with ⟨_, -, h_notes, -⟩ |
        ⟨k, task, h_performs, -, status, h_self, h_leads⟩
      · rw [h_notes] at h_here
        cases A' <;> cases h_here
      · rw [h_performs.notes] at h_here
        cases run_effect k (sound_of_step h_sound h_self h_leads) with
        | changes h_changes => exact written_of_changes h_live h_changes h_here
        -- a step that settles tickets lets nobody off
        | settling h_change =>
          have h_mem : .spared i ticket ∈ m₁.state.stepNotes k task := by
            rw [h_here]
            exact List.mem_append_right A' List.mem_cons_self
          exact absurd h_mem h_change.not_spared

/-- **Nobody is released too early.** -/
theorem released_written {index capacity ringSize : Nat}
    (h_create : Slot.create index capacity ringSize = .ok slot) (h_capacity : 0 < capacity)
    (h_ring : 0 < ringSize) (h_orderly : Orderly slot es)
    (h_steps : (Machine.idle slot).steps program es = some m) (h_sound : ¬ Faulted m) :
    Honest slot es m := by
  obtain ⟨-, h_new⟩ := of_create h_create h_capacity h_ring
  constructor
  case written =>
    intro i hi
    obtain ⟨start, h_start, ticket, A, B, h_eq, h_awaits⟩ := told h_orderly h_steps hi
    exact ⟨start, ticket, A, B, h_start, h_eq, h_awaits,
      written_of_spared h_new h_orderly h_steps h_sound h_eq⟩
  case settled =>
    rintro es₁ e es₂ m₁ m₂ rfl h₁ h_step C j fill D h_fill h_data h_waits h_settled
    have h_sound₂ := not_faulted_of_event h_steps h_sound h₁ h_step
    have h_orderly₁ := h_orderly.of_append
    have h_live := summary h_new h_orderly₁ h₁ (not_faulted_of_step h_sound₂ h_step)
    rcases event_cases h_step with ⟨_, -, -, h_state⟩ |
      ⟨k, task, h_performs, h_state, status, h_self, h_leads⟩
    · -- a call that is made settles no ticket
      exact absurd (h_state ▸ h_settled) h_waits
    · have h_owned := owned_of_performs h_orderly₁ h₁ h_performs
      rw [h_performs.notes] at h_owned ⊢
      rw [h_state] at h_settled
      cases run_effect k (sound_of_step h_sound₂ h_self h_leads) with
      -- what settles no ticket has not settled this one
      | changes h_changes => exact absurd (h_changes.settles.1 h_settled) h_waits
      | settling h_change =>
        obtain ⟨flush, A, i, B, h_notes, h_eq, h_served⟩ :=
          (h_live h_change.not_stopped).settled_by h_change h_owned h_fill h_data h_waits
        exact ⟨k, flush, A, i, B, h_notes, h_eq, h_served⟩

/-! ### A call that is released by another one -/

/-- A call copies the first byte in and waits. Another one copies the second byte in, which completes
the slot, and hands the flush back; and the first call is woken and returns. -/
def releasedFiller : List (Event Task Empty) :=
  [.call (.fillJoin 0 0 [1]), .run 0, .run 0, .call (.fillJoin 0 1 [2]), .run 1,
    .call (.release bothBytes), .run 2, .run 2, .run 0]

/-- The first call returns without a flush, and its byte was written. -/
theorem released_written_releasedFiller : ∃ m,
    (Machine.idle smallSlot).steps program releasedFiller = some m ∧
      m.calls[0]? = some (.finished (.ok (.joined none))) ∧ Honest smallSlot releasedFiller m := by
  have h_create : Slot.create 0 2 1 = .ok smallSlot := rfl
  have h_orderly : Orderly smallSlot releasedFiller := by decide +kernel
  have h_possible : ((Machine.idle smallSlot).steps program releasedFiller).isSome := rfl
  have h_steps := (Option.some_get h_possible).symm
  have h_calls : (((Machine.idle smallSlot).steps program releasedFiller).get h_possible).calls =
      [.finished (.ok (.joined none)), .finished (.ok (.joined (some bothBytes))),
        .finished (.ok .done)] := rfl
  refine ⟨_, h_steps, by rw [h_calls]; rfl,
    released_written h_create (by decide) (by decide) h_orderly h_steps ?_⟩
  rintro ⟨i, broken, hi⟩
  have h_mem := List.mem_of_getElem? hi
  rw [h_calls] at h_mem
  simp at h_mem

end GroupCommit.Slot
