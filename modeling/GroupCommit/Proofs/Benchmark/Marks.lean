import GroupCommit.Proofs.Benchmark.Workers

/-!
# The marks of a benchmark

A mark is set by the call that counts the commit for it, but to the bytes that this call saw when it added
its own. The rate is measured from the first mark to the last, which supposes that the bytes at the last
mark are not fewer. They are fewer exactly where the call for the last mark added its bytes before the
call for the first mark did; it is then overtaken by as many calls as there are commits between the marks.
A single worker cannot do that, and up to four cannot in a benchmark of any length, since the others do
not make that many commits. More workers can, and nothing stops them: the rate is a fault then.

* `window_eq_error`, `exitCode_of_window`: when the rate is a fault, and what becomes of the benchmark.
* `Run.marks_exact`: which bytes the marks have, when they are in order, and when the rate is a fault.
* `Run.ordered_of_four`: four workers.
* `Run.overtaken`, `Run.exists_disordered`: ten workers whose last mark has fewer bytes than the first.
-/

namespace GroupCommit.Benchmark.Progress

/-! ### Marks -/

/-- The bytes between the marks are a fault exactly if time has passed and the last mark has fewer. -/
theorem window_eq_error {p : Progress} {broken : Fault} :
    p.window = .error broken ↔ broken = .subOverflow ∧
      ∃ first last, p.first = some first ∧ p.last = some last ∧ first.time < last.time ∧
        last.bytes < first.bytes := by
  rw [window]
  constructor
  · intro h
    split at h
    · next first last h_first h_last =>
      split at h
      · next h_time =>
        -- of what is computed here only the difference can be a fault
        cases h_sub : Word.sub last.bytes first.bytes with
        | ok bytes =>
          rw [h_sub] at h
          cases h
        | error broken =>
          rw [h_sub] at h
          cases h
          obtain ⟨rfl, h_lt⟩ := Word.sub_eq_error.1 h_sub
          exact ⟨rfl, first, last, h_first, h_last, h_time, h_lt⟩
      · cases h
    · cases h
  · rintro ⟨rfl, first, last, h_first, h_last, h_time, h_lt⟩
    rw [h_first, h_last]
    dsimp only
    rw [if_pos h_time, Word.sub_eq_error.2 ⟨rfl, h_lt⟩]
    rfl

/-- Where the bytes between the marks are a fault, the benchmark ends with it and reports nothing. -/
theorem exitCode_of_window {s : Session} {broken : Fault} (h : s.progress.window = .error broken) :
    s.exitCode = 101 ∧ s.report = [] := by
  have h_lines : s.lines = .error broken := by
    rw [Session.lines, Session.throughput?, h]
    rfl
  exact ⟨by rw [Session.exitCode, h_lines], by rw [Session.report, h_lines]; rfl⟩

namespace Run

/-- What the marks of a run are. -/
structure Marked (r : Run) : Prop where
  /-- A mark is set by the call that counted the commit for it, to the bytes that this call saw. -/
  first : ∀ mark, r.machine.state.first = some mark → ∃ i, r.journal.Saw (r.total / 10) i mark.bytes
  last : ∀ mark, r.machine.state.last = some mark → ∃ i, r.journal.Saw (r.total * 9 / 10) i mark.bytes
  /-- A call that has recorded one of these commits has set the mark. -/
  setFirst : ∀ i : ℕ, r.machine.calls[i]? = some (.finished (.ok ())) →
    r.journal.Numbered (r.total / 10) i → r.machine.state.first.isSome
  setLast : ∀ i : ℕ, r.machine.calls[i]? = some (.finished (.ok ())) →
    r.journal.Numbered (r.total * 9 / 10) i → r.machine.state.last.isSome
  /-- The marks are out of order exactly if the call for the last one added its bytes before the call for
  the first one. -/
  disordered : bytesOf r.journal.added < Word.limit → ∀ first last,
    r.machine.state.first = some first → r.machine.state.last = some last →
    ∀ i j, r.journal.Numbered (r.total / 10) i → r.journal.Numbered (r.total * 9 / 10) j →
      (last.bytes < first.bytes ↔ r.journal.Ahead j i)
  /-- Then as many calls overtook it as there are commits between the marks. -/
  overtaken : bytesOf r.journal.added < Word.limit → ∀ first last,
    r.machine.state.first = some first → r.machine.state.last = some last →
    last.bytes < first.bytes →
    ∃ j, r.journal.Numbered (r.total * 9 / 10) j ∧
      r.journal.Overtaken j (r.total * 9 / 10 - r.total / 10)
  /-- The marks are in order if the calls count in the order in which they add. -/
  inOrder : bytesOf r.journal.added < Word.limit → r.journal.counted <+: r.journal.adders →
    ∀ first last, r.machine.state.first = some first → r.machine.state.last = some last →
      first.bytes ≤ last.bytes
  /-- They are in order if all workers but one, whichever that is, make fewer commits than there are
  between the marks. -/
  staffed : bytesOf r.journal.added < Word.limit → ∀ workers worker, r.Staffed workers worker →
    r.total - r.total / workers < r.total * 9 / 10 - r.total / 10 →
    ∀ first last, r.machine.state.first = some first → r.machine.state.last = some last →
      first.bytes ≤ last.bytes
  /-- The bytes between the marks are a fault exactly if the marks are out of order. -/
  fault : ∀ broken, r.machine.state.window = .error broken ↔ broken = .subOverflow ∧
    ∃ first last, r.machine.state.first = some first ∧ r.machine.state.last = some last ∧
      first.time < last.time ∧ last.bytes < first.bytes

variable {r : Run} {first last : Mark} {i j : ℕ}

/-- As long as the bytes fit in a word, a mark has the sum up to the addition of its call. -/
theorem upTo_of_saw (h_fits : bytesOf r.journal.added < Word.limit) {n b : ℕ}
    (h : r.journal.Saw n i b) : r.journal.UpTo i b := by
  obtain ⟨-, sum, h_upTo, rfl⟩ := h
  rwa [Nat.mod_eq_of_lt (Nat.lt_of_le_of_lt h_upTo.le h_fits)]

/-- While the bytes fit a word, the marks are in disorder iff the later one's call added its bytes
first. -/
theorem lt_iff_ahead (h_fits : bytesOf r.journal.added < Word.limit)
    (h_first : r.machine.state.first = some first) (h_last : r.machine.state.last = some last)
    (hi : r.journal.Numbered (r.total / 10) i) (hj : r.journal.Numbered (r.total * 9 / 10) j) :
    last.bytes < first.bytes ↔ r.journal.Ahead j i := by
  obtain ⟨i', h_sawFirst⟩ := r.kept.first first h_first
  obtain ⟨j', h_sawLast⟩ := r.kept.last last h_last
  obtain rfl := hi.unique h_sawFirst.1
  obtain rfl := hj.unique h_sawLast.1
  exact (Journal.ahead_iff r.kept.sound (upTo_of_saw h_fits h_sawLast)
    (upTo_of_saw h_fits h_sawFirst)).symm

/-- Marks in disorder were made by a call that many others overtook. -/
theorem overtaken_of_lt (h_fits : bytesOf r.journal.added < Word.limit)
    (h_first : r.machine.state.first = some first) (h_last : r.machine.state.last = some last)
    (h_lt : last.bytes < first.bytes) :
    ∃ j, r.journal.Numbered (r.total * 9 / 10) j ∧
      r.journal.Overtaken j (r.total * 9 / 10 - r.total / 10) := by
  obtain ⟨i, hi, -⟩ := r.kept.first first h_first
  obtain ⟨j, hj, -⟩ := r.kept.last last h_last
  have h_ahead := (lt_iff_ahead h_fits h_first h_last hi hj).1 h_lt
  exact ⟨j, hj, Journal.overtaken_of_ahead r.kept.sound h_ahead hi hj⟩

/-- The others are not enough to overtake a call for so long. -/
theorem ordered_of_staffed (h_fits : bytesOf r.journal.added < Word.limit) {workers : ℕ} {worker : ℕ → ℕ}
    (h_staffed : r.Staffed workers worker)
    (h_few : r.total - r.total / workers < r.total * 9 / 10 - r.total / 10)
    (h_first : r.machine.state.first = some first) (h_last : r.machine.state.last = some last) :
    first.bytes ≤ last.bytes := by
  by_contra h_not
  obtain ⟨j, -, h_overtaken⟩ := overtaken_of_lt h_fits h_first h_last (Nat.lt_of_not_le h_not)
  exact absurd (le_of_overtaken h_staffed h_overtaken) (Nat.not_le_of_lt h_few)

/-- **Four workers keep the marks in order,** unless there are hardly any commits. -/
theorem ordered_of_four (h_fits : bytesOf r.journal.added < Word.limit) {workers : ℕ} {worker : ℕ → ℕ}
    (h_staffed : r.Staffed workers worker) (h_workers : 0 < workers ∧ workers ≤ 4) (h_total : 32 ≤ r.total)
    (h_first : r.machine.state.first = some first) (h_last : r.machine.state.last = some last) :
    first.bytes ≤ last.bytes := by
  refine ordered_of_staffed h_fits h_staffed ?_ h_first h_last
  have h_share : r.total / 4 ≤ r.total / workers := Nat.div_le_div_left h_workers.2 h_workers.1
  omega

/-- **What the marks of every run are.** -/
theorem marks_exact (r : Run) : r.Marked where
  first := r.kept.first
  last := r.kept.last
  setFirst i h_recorded h_number := by
    cases r.kept.calls i _ h_recorded with
    | recorded h_saw h_first _ =>
      exact h_first (by rw [r.kept.total_eq]; exact h_saw.1.number_unique r.kept.sound h_number)
  setLast i h_recorded h_number := by
    cases r.kept.calls i _ h_recorded with
    | recorded h_saw _ h_last =>
      exact h_last (by rw [r.kept.total_eq]; exact h_saw.1.number_unique r.kept.sound h_number)
  disordered h_fits first last h_first h_last i j hi hj := lt_iff_ahead h_fits h_first h_last hi hj
  overtaken h_fits first last h_first h_last h_lt := overtaken_of_lt h_fits h_first h_last h_lt
  inOrder h_fits h_order first last h_first h_last := by
    -- each mark was made by the call of its number, and these added in their order
    obtain ⟨i, hi, -⟩ := r.kept.first first h_first
    obtain ⟨j, hj, -⟩ := r.kept.last last h_last
    have h_not := Journal.not_ahead r.kept.sound h_order hi hj (by omega)
    exact Nat.le_of_not_lt (mt (lt_iff_ahead h_fits h_first h_last hi hj).1 h_not)
  staffed h_fits workers worker h_staffed h_few first last h_first h_last :=
    ordered_of_staffed h_fits h_staffed h_few h_first h_last
  fault broken := window_eq_error

/-! ### A run with its marks out of order -/

/-- A call from its begin to its end, where it sets no mark. -/
def whole (i : ℕ) : List (Event Task ℕ) := .call (.addLatency 512 7) :: List.replicate 5 (.run i)

/-- Ten workers make a commit each. The first of them adds its bytes and stops there. The next one adds
its own, counts the first commit and sets the first mark; seven more follow. Then the first one counts the
ninth commit and sets the last mark, and the tenth follows. -/
def overtakenEvents : List (Event Task ℕ) :=
  [.call (.addLatency 512 7), .run 0, .run 0] ++
    [.call (.addLatency 512 7), .run 1, .run 1, .run 1, .run 1, .answer 1 1, .run 1] ++
    (List.range' 2 7).flatMap whole ++ [.run 0, .run 0, .run 0, .answer 0 2] ++ whole 9

/-- The progress and the calls after these events. -/
def overtakenMachine : Recording :=
  ⟨⟨10, 10, 5120, 70, some ⟨1, 1024⟩, some ⟨2, 512⟩⟩, List.replicate 10 (.finished (.ok ()))⟩

set_option maxRecDepth 2000 in
/-- The events lead to the machine given here. -/
theorem reached_overtaken :
    (Machine.idle { total := 10 }).steps program overtakenEvents = some overtakenMachine := rfl

def overtaken : Run where
  total := 10
  events := overtakenEvents
  begins start h := by
    have h_same : Machine.starts overtakenEvents = List.replicate 10 (.addLatency 512 7) := rfl
    rw [h_same] at h
    exact ⟨512, 7, List.eq_of_mem_replicate h⟩
  machine := overtakenMachine
  reached := reached_overtaken

/-- Each call is one of a worker of its own. -/
theorem staffed_overtaken : overtaken.Staffed 10 id where
  serial _ _ _ m _ _ i hi h_same := absurd h_same (Nat.ne_of_lt hi)
  worker_lt i hi := hi
  shared := by decide

/-- The call that made the last mark of this run was overtaken by the eight commits between the marks. -/
theorem marks_exact_overtaken :
    bytesOf overtaken.journal.added < Word.limit ∧ overtaken.journal.Numbered 1 1 ∧
      overtaken.journal.Numbered 9 0 ∧ overtaken.journal.Ahead 0 1 ∧
      ∃ j, overtaken.journal.Numbered 9 j ∧ overtaken.journal.Overtaken j 8 := by
  have h_fits : bytesOf overtaken.journal.added < Word.limit := by decide
  have h_first : overtaken.journal.Numbered 1 1 := by decide
  have h_last : overtaken.journal.Numbered 9 0 := by decide
  have h_marked := marks_exact overtaken
  refine ⟨h_fits, h_first, h_last, ?_, ?_⟩
  · exact (h_marked.disordered h_fits ⟨1, 1024⟩ ⟨2, 512⟩ rfl rfl 1 0 h_first h_last).1 (by decide)
  · exact h_marked.overtaken h_fits ⟨1, 1024⟩ ⟨2, 512⟩ rfl rfl (by decide)

/-- **The marks need not be in order,** and then the benchmark ends with a fault. -/
theorem exists_disordered :
    overtaken.Staffed 10 id ∧
      overtaken.machine.calls.map Status.result? = List.replicate 10 (some (.ok ())) ∧
      overtaken.machine.state.first = some ⟨1, 1024⟩ ∧ overtaken.machine.state.last = some ⟨2, 512⟩ ∧
      overtaken.machine.state.window = .error .subOverflow ∧
      (∀ s : Session, s.progress = overtaken.machine.state → s.exitCode = 101 ∧ s.report = []) ∧
      ¬ ∀ (r : Run) first last, r.machine.state.first = some first →
        r.machine.state.last = some last → first.bytes ≤ last.bytes := by
  have h_fault : overtaken.machine.state.window = .error .subOverflow := rfl
  refine ⟨staffed_overtaken, rfl, rfl, rfl, h_fault, fun s h => exitCode_of_window (h ▸ h_fault), fun h => ?_⟩
  have h_le : 1024 ≤ 512 := h overtaken ⟨1, 1024⟩ ⟨2, 512⟩ rfl rfl
  exact absurd h_le (by decide)

end Run

end GroupCommit.Benchmark.Progress
