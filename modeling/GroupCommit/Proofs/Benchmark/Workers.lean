import GroupCommit.Benchmark.Session
import GroupCommit.Proofs.Benchmark.Overtaking
import Mathlib.Algebra.BigOperators.Ring.Finset
import Mathlib.Algebra.Order.BigOperators.Group.Finset

/-!
# The workers of a benchmark

The commits of a benchmark are shared out among its workers, and a worker makes its own one after another.
So a call is overtaken by calls of other workers only, and those make all commits but its own worker's
share.

* `share`, `sum_share`: what each worker makes, and that it is all together.
* `Run.Staffed`: a run whose calls are made by workers.
* `Run.separate`: the calls of one worker do not interleave.
* `Run.le_of_overtaken`: how many calls can overtake one.
-/

namespace GroupCommit.Benchmark.Progress

/-! ### Shares -/

/-- The commits of a worker: an equal part of all, and one of those left over for the first workers. -/
def share (total workers worker : ℕ) : ℕ :=
  total / workers + if worker < total % workers then 1 else 0

/-- A session shares its commits out in this way. -/
theorem session_share (s : Session) (worker : ℕ) :
    s.share worker = share s.arguments.commits s.workers worker := rfl

/-- The shares are all commits together. -/
theorem sum_share {total workers : ℕ} (h : 0 < workers) :
    ∑ w ∈ Finset.range workers, share total workers w = total := by
  have h_left : {w ∈ Finset.range workers | w < total % workers} = Finset.range (total % workers) := by
    ext w
    have h_mod := Nat.mod_lt total h
    simp only [Finset.mem_filter, Finset.mem_range]
    omega
  calc ∑ w ∈ Finset.range workers, share total workers w
      = ∑ _w ∈ Finset.range workers, total / workers +
          ∑ w ∈ Finset.range workers, if w < total % workers then 1 else 0 := Finset.sum_add_distrib
    _ = workers * (total / workers) + total % workers := by
        rw [Finset.sum_const_nat fun _ _ => rfl, Finset.sum_boole, h_left, Finset.card_range,
          Finset.card_range, Nat.cast_id]
    _ = total := Nat.div_add_mod total workers

/-- What the others make. -/
theorem sum_share_erase {total workers worker : ℕ} (h : worker < workers) :
    ∑ w ∈ (Finset.range workers).erase worker, share total workers w ≤ total - total / workers := by
  have h_all := Finset.add_sum_erase (Finset.range workers) (share total workers) (Finset.mem_range.2 h)
  rw [sum_share (Nat.zero_lt_of_lt h)] at h_all
  have h_own : total / workers ≤ share total workers worker := Nat.le_add_right _ _
  omega

/-! ### Calls that do not interleave -/

namespace Journal

variable {J : Journal} {i j : ℕ}

/-- What is noted of the call `i` comes before what is noted of the call `j`. -/
def Apart (J : Journal) (i j : ℕ) : Prop :=
  ∃ J₁ J₂ : Journal, J = J₁ ++ J₂ ∧ J₁.Silent j ∧ J₂.Silent i

/-- Silent throughout is silent in the first note and in the rest. -/
theorem silent_cons {note : Note} {K : Journal} :
    Silent (note :: K) i ↔ Silent [note] i ∧ K.Silent i := silent_append (J := [note])

/-- Behind a note on the later call nothing is noted of the earlier one. -/
theorem Apart.silent (h : J.Apart i j) {K R : Journal} {note : Note} (hJ : J = K ++ note :: R)
    (h_note : ¬ Silent [note] j) : R.Silent i := by
  obtain ⟨J₁, J₂, rfl, h₁, h₂⟩ := h
  rcases List.append_eq_append_iff.1 hJ with ⟨D, rfl, rfl⟩ | ⟨D, rfl, h_rest⟩
  · exact (silent_cons.1 (silent_append.1 h₂).2).2
  · cases D with
    | nil =>
      obtain rfl : note :: R = J₂ := h_rest
      exact (silent_cons.1 h₂).2
    | cons d D =>
      obtain ⟨rfl, -⟩ := List.cons.inj h_rest
      exact absurd (silent_cons.1 (silent_append.1 h₁).2).1 h_note

/-- Where a call was counted splits the list of those counted. -/
theorem counted_split {K L N : Journal} {b : ℕ}
    (hJ : J = K ++ .added j b :: (L ++ .counted j :: N)) :
    J.counted = K.counted ++ (L.counted ++ j :: N.counted) := by
  have h_rest : counted (.added j b :: (L ++ .counted j :: N)) = L.counted ++ j :: N.counted :=
    counted_append L (.counted j :: N)
  rw [hJ, counted_append, h_rest]

/-- Calls stay apart while the first is silent. -/
theorem Apart.append (h : J.Apart i j) {K : Journal} (h_silent : K.Silent i) : Apart (J ++ K) i j := by
  obtain ⟨J₁, J₂, rfl, h₁, h₂⟩ := h
  exact ⟨J₁, J₂ ++ K, List.append_assoc J₁ J₂ K, h₁, silent_append.2 ⟨h₂, h_silent⟩⟩

end Journal

namespace Run

/-- A worker makes a call when its earlier ones have returned. -/
def Serial (total : ℕ) (worker : ℕ → ℕ) (events : List (Event Task ℕ)) : Prop :=
  ∀ es start es' m, events = es ++ .call start :: es' →
    (Machine.idle { total }).steps program es = some m →
    ∀ i < m.calls.length, worker i = worker m.calls.length →
      ∃ result, m.calls[i]? = some (.finished result)

/-- The events so far are serial as well. -/
theorem Serial.of_append {total : ℕ} {worker : ℕ → ℕ} {es fs : List (Event Task ℕ)}
    (h : Serial total worker (es ++ fs)) : Serial total worker es := by
  rintro es₁ start es₂ m rfl h_steps
  exact h es₁ start (es₂ ++ fs) m (by rw [List.append_assoc, List.cons_append]) h_steps

/-- The calls of a run are made by workers, each its share of the commits. -/
structure Staffed (r : Run) (workers : ℕ) (worker : ℕ → ℕ) : Prop where
  serial : Serial r.total worker r.events
  worker_lt : ∀ i < r.machine.calls.length, worker i < workers
  shared : ∀ w < workers,
    {i ∈ Finset.range r.machine.calls.length | worker i = w}.card ≤ share r.total workers w

/-- Of two calls of a worker the earlier one has returned, and what is noted of it comes first. -/
def Separate (worker : ℕ → ℕ) (J : Journal) (m : Recording) : Prop :=
  ∀ j < m.calls.length, ∀ i < j, worker i = worker j →
    (∃ result, m.calls[i]? = some (.finished result)) ∧ J.Apart i j

namespace Separate

variable {worker : ℕ → ℕ} {J ns : Journal} {m : Recording} {k total : ℕ}

/-- A new call of a worker comes after its earlier ones. -/
theorem made (h : Separate worker J m) (h_kept : Kept total J m) (start : Task)
    (h_serial : ∀ i < m.calls.length, worker i = worker m.calls.length →
      ∃ result, m.calls[i]? = some (.finished result)) :
    Separate worker J { m with calls := m.calls ++ [.ready start] } := by
  intro j hj i hij h_same
  rw [List.length_append, List.length_singleton] at hj
  rcases Nat.lt_succ_iff_lt_or_eq.1 hj with h_old | rfl
  · obtain ⟨⟨result, hi⟩, h_apart⟩ := h j h_old i hij h_same
    exact ⟨⟨result, (List.getElem?_append_left (hij.trans h_old)).trans hi⟩, h_apart⟩
  · obtain ⟨result, hi⟩ := h_serial i hij h_same
    refine ⟨⟨result, (List.getElem?_append_left hij).trans hi⟩, J, [], (List.append_nil J).symm, ?_, ?_⟩
    · exact h_kept.silent _ (Nat.le_refl _)
    · exact ⟨List.not_mem_nil, List.not_mem_nil⟩

/-- A step of a call is not one of a call that has returned. -/
theorem own (h : Separate worker J m) {status status' : Status Task (Except Fault Unit)} {p' : Progress}
    (hk : m.calls[k]? = some status) (h_own : Own k m.state status ns status' p') :
    Separate worker (J ++ ns) ⟨p', m.calls.set k status'⟩ := by
  intro j hj i hij h_same
  rw [List.length_set] at hj
  obtain ⟨⟨result, hi⟩, h_apart⟩ := h j hj i hij h_same
  have h_ne : i ≠ k := by
    rintro rfl
    cases hk.symm.trans hi
    cases h_own
  exact ⟨⟨result, (List.getElem?_set_ne (Ne.symm h_ne)).trans hi⟩,
    h_apart.append (h_own.silent_of_ne h_ne)⟩

end Separate

/-- **The calls of a worker do not interleave,** by induction on the events. -/
theorem separate (r : Run) {worker : ℕ → ℕ} (h_serial : Serial r.total worker r.events) :
    Separate worker r.journal r.machine := by
  obtain ⟨total, events, h_begins, m, h⟩ := r
  dsimp only at h_serial ⊢
  induction events using List.reverseRecOn generalizing m with
  | nil =>
    cases h
    exact fun j hj => absurd hj (Nat.not_lt_zero j)
  | append_singleton es e ih =>
    obtain ⟨m₁, h₁, h_step⟩ := Machine.steps_concat _ h
    have h_begins₁ := fun start h_mem => h_begins start (Machine.mem_starts_concat h_mem e)
    have h_before := ih h_begins₁ m₁ h₁ h_serial.of_append
    -- what is known of all runs is known of this one without its last event
    have h_kept := (Run.mk total es h_begins₁ m₁ h₁).kept
    have h_effect := effect h_kept.calls h_step
    rw [journal, Machine.noted_concat h₁ h_step]
    generalize notes m₁ e = ns at h_effect
    cases h_effect with
    | made start =>
      rw [List.append_nil]
      exact h_before.made h_kept start (h_serial es start [] m₁ rfl h₁)
    | own _ hi h_own => exact h_before.own hi h_own

/-! ### How many calls overtake one -/

variable {r : Run} {workers : ℕ} {worker : ℕ → ℕ} {j k : ℕ}

/-- A call of which something is noted has been made. -/
theorem lt_of_counted {i : ℕ} (h : i ∈ r.journal.counted) : i < r.machine.calls.length := by
  by_contra h_not
  exact (r.kept.silent i (Nat.le_of_not_lt h_not)).2 h

/-- Between the addition and the count of a call no other call of its worker counts. -/
theorem worker_ne (h_serial : Serial r.total worker r.events) {K L N : Journal} {b i : ℕ}
    (hJ : r.journal = K ++ .added j b :: (L ++ .counted j :: N)) (hi : i ∈ L.counted) :
    worker i ≠ worker j := by
  intro h_same
  have h_counted := Journal.counted_split hJ
  have hi_lt : i < r.machine.calls.length := lt_of_counted (by simp [h_counted, hi])
  have hj_lt : j < r.machine.calls.length := lt_of_counted (by simp [h_counted])
  have h_separate := separate r h_serial
  -- of two calls of one worker, the earlier one is through before the later one begins
  rcases Nat.lt_trichotomy i j with h_lt | rfl | h_gt
  · -- the earlier call would count after the later one has added its bytes
    obtain ⟨-, h_apart⟩ := h_separate j hj_lt i h_lt h_same
    have h_silent := h_apart.silent hJ fun h => h.1 List.mem_cons_self
    exact (Journal.silent_append.1 h_silent).1.2 hi
  · have h_nodup := r.kept.sound.counted_nodup
    rw [h_counted] at h_nodup
    exact List.disjoint_of_nodup_append (List.Nodup.of_append_right h_nodup) hi List.mem_cons_self
  · -- the later call would count before the earlier one does
    obtain ⟨-, h_apart⟩ := h_separate i hi_lt j h_gt h_same.symm
    obtain ⟨L₁, L₂, rfl⟩ := Journal.exists_split_counted hi
    have hJ' : r.journal = (K ++ .added j b :: L₁) ++ .counted i :: (L₂ ++ .counted j :: N) := by
      simp [hJ]
    have h_silent := h_apart.silent hJ' fun h => h.2 List.mem_cons_self
    exact (Journal.silent_append.1 h_silent).2.2 List.mem_cons_self

/-- The calls that are not made by a worker. -/
theorem card_others_le (h : r.Staffed workers worker) {w : ℕ} (hw : w < workers) :
    {i ∈ Finset.range r.machine.calls.length | worker i ≠ w}.card ≤ r.total - r.total / workers := by
  -- the calls of the other workers, worker by worker
  have h_maps : ∀ i ∈ ({i ∈ Finset.range r.machine.calls.length | worker i ≠ w} : Finset ℕ),
      worker i ∈ (Finset.range workers).erase w := by
    intro i hi
    obtain ⟨h_made, h_other⟩ := Finset.mem_filter.1 hi
    exact Finset.mem_erase.2 ⟨h_other, Finset.mem_range.2 (h.worker_lt i (Finset.mem_range.1 h_made))⟩
  calc {i ∈ Finset.range r.machine.calls.length | worker i ≠ w}.card
      = ∑ w' ∈ (Finset.range workers).erase w,
          {i ∈ {i ∈ Finset.range r.machine.calls.length | worker i ≠ w} | worker i = w'}.card :=
        Finset.card_eq_sum_card_fiberwise h_maps
    _ ≤ ∑ w' ∈ (Finset.range workers).erase w, share r.total workers w' := by
        refine Finset.sum_le_sum fun w' hw' => ?_
        have h_shared := h.shared w' (Finset.mem_range.1 (Finset.mem_of_mem_erase hw'))
        exact (Finset.card_le_card
          (Finset.filter_subset_filter _ (Finset.filter_subset _ _))).trans h_shared
    _ ≤ r.total - r.total / workers := sum_share_erase hw

/-- **A call is overtaken by calls of other workers,** so by no more than those make. -/
theorem le_of_overtaken (h : r.Staffed workers worker) (h_overtaken : r.journal.Overtaken j k) :
    k ≤ r.total - r.total / workers := by
  obtain ⟨K, b, L, N, hJ, hk⟩ := h_overtaken
  have h_counted := Journal.counted_split hJ
  have h_nodup : L.counted.Nodup := by
    have h_nodup := r.kept.sound.counted_nodup
    rw [h_counted] at h_nodup
    exact (List.Nodup.of_append_right h_nodup).of_append_left
  have hj : j < r.machine.calls.length := lt_of_counted (by simp [h_counted])
  -- a call of the same worker counts before this one adds its bytes, or adds after this one counts
  have h_others : L.counted.toFinset ⊆
      {i ∈ Finset.range r.machine.calls.length | worker i ≠ worker j} := by
    intro i hi
    rw [List.mem_toFinset] at hi
    have hi_lt : i < r.machine.calls.length := lt_of_counted (by simp [h_counted, hi])
    exact Finset.mem_filter.2 ⟨Finset.mem_range.2 hi_lt, worker_ne h.serial hJ hi⟩
  calc k ≤ L.counted.length := hk
    _ = L.counted.toFinset.card := (List.toFinset_card_of_nodup h_nodup).symm
    _ ≤ {i ∈ Finset.range r.machine.calls.length | worker i ≠ worker j}.card :=
        Finset.card_le_card h_others
    _ ≤ r.total - r.total / workers :=
        card_others_le h (h.worker_lt j hj)

end Run

end GroupCommit.Benchmark.Progress
