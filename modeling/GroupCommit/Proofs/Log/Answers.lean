import GroupCommit.Proofs.Log.Steps
import GroupCommit.Proofs.WriteDiscipline

/-!
# Calls to the Writer, from their answers

Whatever the Writer answers, it was asked before. So what is known of the calls that were made is known
of those that have succeeded, in the order in which they did: when two of them share an address, the
later one writes over all that the earlier one has written. They flush the same generation then, and its
flushes never get shorter.

* `Run.started_of_returned`: no call returns that was not made.
* `Flushes.pairwise_returned`: the flushes of a generation, in the order in which they return.
* `Run.covers_of_meets`: writing over a call that has succeeded.
-/

namespace GroupCommit.Log

variable {W : Type}

/-! ### Calls are made before they return -/

section Step

variable {log : Log W} {t pending : Task}

/-- A step that waits for the outside world is a call to the Writer, which is noted. -/
theorem run_outside (h : (run t log).1.Leads (.outside pending)) (i : Nat) :
    pending = t ∧ runNotes log i t = ((t.write? i).map .started).toList := by
  have h_effect := run_effect t log
  generalize run t log = o at h h_effect
  cases h_effect with
  | onSlot hs =>
    cases lands hs h with
    | resumed h_result h => cases GoesOn.resume h
  | poisons => cases GoesOn.poisonFrom h
  | writesSlot | writesDirect =>
    cases h
    exact ⟨rfl, rfl⟩
  | _ => cases h

end Step

section Runs

variable [Writer W] {r r' : Run W} {e : Event Task Verdict}

/-- The calls of a log that wait for the Writer have been noted, and so have those that have
returned. -/
structure Asked (r : Run W) : Prop where
  pending : ∀ (i : Nat) t w, r.machine.calls[i]? = some (.outside t) → t.write? i = some w →
    .started w ∈ r.journal
  returned : ∀ w outcome, .returned w outcome ∈ r.journal → .started w ∈ r.journal

/-- A step after which its call waits for the Writer is the one that is noted. -/
theorem started_of_acts {i : Nat} {status : Status Task Result} {o : Move Task Result × Log W}
    (h : Machine.Acts (program W) r.machine e i status o) {t : Task} {w : Write}
    (h_leads : o.1.Leads (.outside t)) (hw : t.write? i = some w) : .started w ∈ notes r.machine e := by
  cases h with
  | run hi =>
    obtain ⟨rfl, h_notes⟩ := run_outside h_leads i
    rw [notes_run hi, h_notes, hw]
    exact List.mem_singleton_self _
  | expire hi =>
    -- a deadline makes its call look at its slot
    obtain ⟨task, next, -, h_late, -⟩ := r.blocked i _ _ _ hi
    obtain ⟨task', -, rfl⟩ := Option.map_eq_some_iff.1 h_late.symm
    obtain ⟨rfl, -⟩ := run_outside h_leads i
    cases hw
  | answer hi => cases GoesOn.answered h_leads

/-- What has been asked of the Writer stays asked. -/
theorem Asked.next (h : Asked r) (h_next : r.Next e r') : Asked r' := by
  have h_old : ∀ {n}, n ∈ r.journal → n ∈ r'.journal := h_next.before.mem_journal
  constructor
  · intro j t w hj hw
    cases Machine.came h_next.step hj with
    | stepped h_acts h_stepped h_leads =>
      rw [h_next.journal]
      exact List.mem_append_right _ (started_of_acts h_acts h_leads hw)
    | remained hj h_remains =>
      cases h_remains
      exact h_old (h.pending j t w hj hw)
  · intro w outcome h_mem
    rw [h_next.journal] at h_mem
    rcases List.mem_append.1 h_mem with h_mem | h_mem
    · exact h_old (h.returned w outcome h_mem)
    · rcases Machine.step_cases h_next.step with ⟨start, rfl, -⟩ | ⟨i, status, o, h_acts, -⟩
      · cases h_mem
      · cases h_acts with
        | run hi =>
          rw [notes_run hi] at h_mem
          exact absurd h_mem (not_mem_runNotes _ _ _ _ _)
        | expire hi => cases h_mem
        | @answer i task verdict hi =>
          -- the call has waited for its answer
          rw [notes_answer hi, answerNotes, Option.mem_toList, Option.map_eq_some_iff] at h_mem
          obtain ⟨w', hw, h_eq⟩ := h_mem
          cases h_eq
          exact h_old (h.pending i task w hi hw)

/-- No call to the Writer returns that was not made. -/
theorem Run.started_of_returned (r : Run W) {w : Write} {outcome : Except (Stop IoError) Unit}
    (h : .returned w outcome ∈ r.journal) : .started w ∈ r.journal := by
  have h_asked : Asked r := by
    refine r.induction ⟨fun i t w hi => ?_, fun w outcome h_mem => ?_⟩
      fun r₁ e r₂ h_next _ ih => ih.next h_next
    · cases (r.getElem?_calls_start i).symm.trans hi
    · cases h_mem
  exact h_asked.returned w outcome h

/-! ### Writing over what was written -/

/-- The flushes of a generation return in the order of their lengths. -/
theorem Flushes.pairwise_returned {capacity length : Nat} {L : Journal}
    (h : Flushes capacity length L) :
    (∀ w outcome, .returned w outcome ∈ L → length ≤ w.data.length) ∧
      L.Pairwise fun m n => ∀ v w o o', m = .returned v o → n = .returned w o' →
        v.data.length ≤ w.data.length := by
  induction h with
  | none length => exact ⟨nofun, .nil⟩
  | inFlight h_fits => exact ⟨by simp, List.pairwise_singleton _ _⟩
  | last h_fits h_last => exact ⟨by simpa using h_fits.length_le, by simp⟩
  | @early length w rest h_fits h_early h_rest ih =>
    -- the flushes behind an early one begin where it has ended
    obtain ⟨h_le, h_pairs⟩ := ih
    constructor
    · intro v outcome h_mem
      rcases List.mem_cons.1 h_mem with h_eq | h_mem
      · cases h_eq
      · rcases List.mem_cons.1 h_mem with h_eq | h_mem
        · cases h_eq
          exact h_fits.length_le
        · exact h_fits.length_le.trans (h_le v outcome h_mem)
    · refine List.pairwise_cons.2 ⟨?_, List.pairwise_cons.2 ⟨?_, h_pairs⟩⟩
      · rintro n - v v' o o' ⟨⟩
      · rintro n h_mem v v' o o' ⟨⟩ rfl
        exact h_le v' o' h_mem

variable {v w : Write}

/-- **Writing over a call is writing over all of it.** If a call has returned that shares an address with
one before, then it reaches every address of that one. -/
theorem Run.covers_of_meets (h_fits : r.Fits) {o o' : Except (Stop IoError) Unit}
    (h_sub : [.returned v o, .returned w o'].Sublist r.journal) {a b : Nat}
    (hv : v.Covers a) (hw : w.Covers a) (hb : v.Covers b) : w.Covers b := by
  obtain ⟨P, hm, -⟩ := r.exists_matches h_fits r.within_all
  have h_sound := hm.inv.account
  have hv_started := r.started_of_returned (h_sub.subset (List.mem_cons_self))
  have hw_started := r.started_of_returned
    (h_sub.subset (List.mem_cons_of_mem _ (List.mem_singleton_self _)))
  rw [← hm.journal] at hv_started hw_started
  have hv_legal := h_sound.legal hv_started
  have hw_legal := h_sound.legal hw_started
  -- they are flushes of one generation, or one and the same direct write
  by_cases h_flush : v.IsFlush ∧ w.IsFlush ∧ v.address = w.address
  · obtain ⟨hv_flush, hw_flush, h_address⟩ := h_flush
    have h_flushes := (Journal.flushes (h_sound.flow w.address)).pairwise_returned.2
    have h_pair := h_sub.filter fun n => decide (n.Concerns w.address)
    rw [List.filter_cons_of_pos (by simp [Note.Concerns, hv_flush, h_address]),
      List.filter_cons_of_pos (by simp [Note.Concerns, hw_flush]), List.filter_nil, ← hm.journal]
      at h_pair
    -- of two flushes of one generation the later one reaches as far at least
    have h_le := List.pairwise_iff_forall_sublist.1 h_flushes h_pair v w _ _ rfl rfl
    rw [Write.Covers, Write.stop] at hb ⊢
    omega
  · -- apart from that, two writes that meet are one call's direct write
    have h_same : v.source = .direct ∧ w.source = .direct ∧ v.call = w.call := by
      by_contra h_other
      refine hv_legal.disjoint hw_legal h_sound ?_ ?_ a hv hw
      · exact fun hv_flush hw_flush h_eq => h_flush ⟨hv_flush, hw_flush, h_eq⟩
      · exact fun hv_direct hw_direct h_eq => h_other ⟨hv_direct, hw_direct, h_eq⟩
    obtain ⟨hv_direct, hw_direct, h_call⟩ := h_same
    have h_mem : ∀ {u : Write}, .started u ∈ P.account.journal → u.source = .direct →
        u ∈ P.account.journal.writes.filter (·.source = .direct) := fun hu h_direct =>
      List.mem_filter.2 ⟨Journal.mem_writes.2 hu, decide_eq_true h_direct⟩
    have h_symm : Std.Symm fun v w : Write => v.call ≠ w.call := ⟨fun _ _ => Ne.symm⟩
    have h_eq : v = w := by
      by_contra h_ne
      exact h_sound.direct_unique.forall (h_mem hv_started hv_direct) (h_mem hw_started hw_direct)
        h_ne h_call
    exact h_eq ▸ hb

end Runs

end GroupCommit.Log
