import GroupCommit.Proofs.SequentialTrace
import GroupCommit.Writer.Paced
import Mathlib.Algebra.BigOperators.Ring.Finset
import Mathlib.Tactic.Ring

/-!
# What the counters say

The counters of a log are exact in every state of every run, but for the bytes, of which they hold what a
word has room for. A Writer to memory adds up the same bytes anew each time that it is asked, and faults
where a word has no room for them.

When all commits have returned and all calls to the Writer have succeeded, the counters add up to what was
reserved. Each generation below the position was retired once, by a full flush or by a direct write, and
all of these are as long as the generations that they retire.

* `Conserved`, `Run.Still.conserved`: what the counters add up to.
* `calls_memory`, `MemoryWriter.bytesWritten_eq`: what a Writer to memory has been asked for, and how many
  bytes these are.
* `counters_exact`: both, and what the counters say.
* `counters_exact_wrapped`: runs in which the bytes begin anew, and in which a call to the Writer faults.
-/

namespace GroupCommit

namespace Log

/-! ### Conservation -/

section Conservation

/-- The calls that write past their slot or write a slot for the last time. -/
def Journal.wholes (J : Journal) : List Write := J.successes.filter (·.source ≠ .slot .early)

/-- What the counters add up to: the generations below the position were retired, each of them once. -/
structure Conserved [Writer W] (r : Run W) : Prop where
  bytes : r.config.slotCapacity * r.machine.state.stats.fullFlushes
      + ((r.journal.successes.filter (·.source = .direct)).map (·.data.length)).sum
    = r.config.slotCapacity * (r.machine.state.position / r.config.slotCapacity)
  once : ∀ n < r.machine.state.position / r.config.slotCapacity,
    r.journal.successes.countP (·.Retires r.config.slotCapacity (r.config.slotCapacity * n)) = 1

/-- How many addresses a call writes, of those below a bound. -/
theorem sum_covers {w : Write} {bound : Nat} (h : w.stop ≤ bound) :
    ∑ a ∈ Finset.range bound, (if w.Covers a then 1 else 0) = w.data.length := by
  have h_filter : (Finset.range bound).filter w.Covers = Finset.Ico w.address w.stop := by
    ext a
    rw [Finset.mem_filter, Finset.mem_range, Finset.mem_Ico]
    exact ⟨fun h_covers => h_covers.2, fun h_covers => ⟨h_covers.2.trans_le h, h_covers⟩⟩
  rw [← Finset.card_filter, h_filter, Nat.card_Ico, Write.stop, Nat.add_sub_cancel_left]

/-- Counted by calls and counted by addresses, the written bytes are as many. -/
theorem sum_countP_covers {L : List Write} {bound : Nat} (h : ∀ w ∈ L, w.stop ≤ bound) :
    ∑ a ∈ Finset.range bound, L.countP (·.Covers a) = (L.map (·.data.length)).sum := by
  induction L with
  | nil => simp
  | cons w L ih =>
    have h_rest := ih fun v hv => h v (List.mem_cons_of_mem w hv)
    have h_first := sum_covers (h w List.mem_cons_self)
    simp only [List.countP_cons, decide_eq_true_eq, Finset.sum_add_distrib]
    rw [h_rest, h_first, List.map_cons, List.sum_cons, Nat.add_comm]

/-- Of calls without common addresses, one at most writes to an address. -/
theorem countP_covers_le_one {L : List Write} (h : L.Pairwise Write.Disjoint) (a : Nat) :
    L.countP (·.Covers a) ≤ 1 := by
  induction L with
  | nil => exact Nat.zero_le 1
  | cons w L ih =>
    obtain ⟨h_first, h_rest⟩ := List.pairwise_cons.1 h
    rw [List.countP_cons]
    split
    · next h_covers =>
      -- the first call writes there, so the others do not
      have h_none : L.countP (·.Covers a) = 0 := by
        rw [List.countP_eq_zero]
        exact fun v hv h_also => h_first v hv a (of_decide_eq_true h_covers) (of_decide_eq_true h_also)
      rw [h_none]
    · exact ih h_rest

/-- The bytes of the whole blocks that were written: those of full flushes and those of direct
writes. -/
theorem sum_wholes {J : Journal} {capacity : Nat}
    (h_full : ∀ w ∈ J.successes, w.source = .slot .full → w.data.length = capacity) :
    (J.wholes.map (·.data.length)).sum = capacity * J.successes.countP (·.source = .slot .full)
      + ((J.successes.filter (·.source = .direct)).map (·.data.length)).sum := by
  rw [Journal.wholes]
  generalize J.successes = L at h_full
  -- by induction on the calls; an early flush counts on neither side
  induction L with
  | nil => rfl
  | cons w L ih =>
    have h_rest := ih fun v hv => h_full v (List.mem_cons_of_mem w hv)
    have h_first := h_full w List.mem_cons_self
    cases h_source : w.source with
    | slot kind =>
      cases kind with
      | early =>
        rw [List.filter_cons_of_neg (by simp [h_source]), List.countP_cons_of_neg (by simp [h_source]),
          List.filter_cons_of_neg (by simp [h_source]), h_rest]
      | full =>
        rw [List.filter_cons_of_pos (by simp [h_source]), List.countP_cons_of_pos (by simp [h_source]),
          List.filter_cons_of_neg (by simp [h_source]), List.map_cons, List.sum_cons, h_rest,
          h_first h_source, Nat.mul_add, Nat.mul_one]
        omega
    | direct =>
      rw [List.filter_cons_of_pos (by simp [h_source]), List.countP_cons_of_neg (by simp [h_source]),
        List.filter_cons_of_pos (by simp [h_source]), List.map_cons, List.map_cons, List.sum_cons,
        List.sum_cons, h_rest]
      omega

variable [Writer W] {r : Run W}

/-- Full flushes are of different generations and so are disjoint. -/
theorem Run.pairwise_wholes (h_fits : r.Fits) : r.journal.wholes.Pairwise Write.Disjoint := by
  rw [Journal.wholes, List.pairwise_filter]
  refine (r.pairwise_successes h_fits).imp fun h hv hw => ?_
  exact h.resolve_right (not_or.2 ⟨of_decide_eq_true hv, of_decide_eq_true hw⟩)

/-- Of each generation below the position, every address is written by one call that is not an early
flush. -/
theorem Run.Still.countP_wholes (h : r.Still) (h_fits : r.Fits) {n a : Nat}
    (hn : n < r.machine.state.position / r.log.geometry.capacity)
    (ha : r.log.geometry.InBlock (r.log.geometry.capacity * n) a) :
    r.journal.wholes.countP (·.Covers a) = 1 ∧
      r.journal.successes.countP (·.Retires r.log.geometry.capacity (r.log.geometry.capacity * n)) =
        1 := by
  have h_dvd : r.log.geometry.capacity ∣ r.log.geometry.capacity * n := Nat.dvd_mul_right _ _
  have h_le : r.log.geometry.capacity * n + r.log.geometry.capacity ≤ r.machine.state.position :=
    calc r.log.geometry.capacity * n + r.log.geometry.capacity
        = r.log.geometry.capacity * (n + 1) := rfl
      _ ≤ r.log.geometry.capacity * (r.machine.state.position / r.log.geometry.capacity) :=
        Nat.mul_le_mul_left _ hn
      _ ≤ r.machine.state.position := Nat.mul_div_le _ _
  -- some call retires the generation, those that do write there, and no two of those do
  have h_most := countP_covers_le_one (r.pairwise_wholes h_fits) a
  have h_both : r.journal.successes.countP
      (·.Retires r.log.geometry.capacity (r.log.geometry.capacity * n))
        ≤ r.journal.wholes.countP (·.Covers a) := by
    rw [Journal.wholes, List.countP_filter]
    refine List.countP_mono_left fun w hw h_retires => ?_
    obtain ⟨h_late, h_covers⟩ := (of_decide_eq_true h_retires).covers h_fits hw ha
    simp [h_late, h_covers]
  have h_least : 0 < r.journal.successes.countP
      (·.Retires r.log.geometry.capacity (r.log.geometry.capacity * n)) := by
    obtain ⟨w, hw, h_retires⟩ := h.exists_retires h_fits h_dvd h_le
    exact List.countP_pos_iff.2 ⟨w, hw, decide_eq_true h_retires⟩
  exact ⟨h_most.antisymm (h_least.trans_le h_both), (h_both.trans h_most).antisymm h_least⟩

/-- **The counters add up** when all is done. -/
theorem Run.Still.conserved (h : r.Still) (h_fits : r.Fits) : Conserved r := by
  have h_whole := fun w hw => r.whole_of_success h_fits (w := w) hw
  have h_counts := r.counts h_fits
  constructor
  · rw [← r.capacity_eq, h_counts.fullFlushes,
      ← sum_wholes fun w hw h_full => (h_whole w hw (by rw [h_full]; decide)).2.2.1 h_full]
    -- whole blocks end with whole blocks
    have h_stop : ∀ w ∈ r.journal.wholes, w.stop ≤
        r.log.geometry.capacity * (r.machine.state.position / r.log.geometry.capacity) := by
      intro w hw
      obtain ⟨hw, h_late⟩ := List.mem_filter.1 hw
      obtain ⟨h_address, h_length, -, h_le⟩ := h_whole w hw (of_decide_eq_true h_late)
      obtain ⟨m, h_eq⟩ : r.log.geometry.capacity ∣ w.stop := Nat.dvd_add h_address h_length
      rw [h_eq] at h_le ⊢
      exact Nat.mul_le_mul_left _ ((Nat.le_div_iff_mul_le r.log.geometry.capacity_pos).2
        (by rwa [Nat.mul_comm]))
    rw [← sum_countP_covers h_stop]
    -- so each address below the last whole generation is written once
    have h_one : ∀ a ∈ Finset.range
        (r.log.geometry.capacity * (r.machine.state.position / r.log.geometry.capacity)),
        r.journal.wholes.countP (·.Covers a) = 1 := by
      intro a ha
      refine (h.countP_wholes h_fits (n := a / r.log.geometry.capacity) ?_ ?_).1
      · exact Nat.div_lt_of_lt_mul (Finset.mem_range.1 ha)
      · exact r.log.geometry.inBlock_base a
    rw [Finset.sum_congr rfl h_one, Finset.sum_const, Finset.card_range, Nat.nsmul_eq_mul, Nat.mul_one]
  · intro n hn
    rw [← r.capacity_eq] at hn ⊢
    exact (h.countP_wholes h_fits hn (Geometry.inBlock_self _)).2

end Conservation

/-! ### The bytes of a Writer to memory -/

section Memory

/-- Adding up words one by one gives their sum, if a word has room for that. -/
theorem foldlM_add (calls : List WriteCall) {start : Nat} (h_start : start < Word.limit) :
    calls.foldlM (fun bytes c => Word.add bytes c.length) start =
      if start + (calls.map (·.length)).sum < Word.limit then .ok (start + (calls.map (·.length)).sum)
      else .error .addOverflow := by
  induction calls generalizing start with
  | nil => exact (if_pos h_start).symm
  | cons c calls ih =>
    rw [List.foldlM_cons, List.map_cons, List.sum_cons, ← Nat.add_assoc]
    by_cases h_room : start + c.length < Word.limit
    · rw [Word.add, if_pos h_room]
      exact ih h_room
    · -- the sum only grows from here on
      rw [Word.add, if_neg h_room, if_neg (by omega)]
      rfl

/-- **How many bytes a Writer to memory counts.** -/
theorem MemoryWriter.bytesWritten_eq (w : MemoryWriter) : w.bytesWritten =
    if (w.calls.map (·.length)).sum < Word.limit then .ok (w.calls.map (·.length)).sum
    else .error .addOverflow := by
  rw [MemoryWriter.bytesWritten, foldlM_add w.calls (by decide), Nat.zero_add]

/-- What the Writer is asked for in a call. -/
def Write.asked (w : Write) : WriteCall := ⟨w.address, w.data.length, w.hint⟩

/-- What can be seen of a Writer changes with the calls that succeed. -/
theorem Journal.foldl_observe {β : Type} (put : β → Write → β) (J : Journal) (x : β) :
    J.foldl (Note.observe put) x = J.successes.foldl put x := by
  induction J generalizing x with
  | nil => rfl
  | cons n J ih =>
    rw [List.foldl_cons, ih]
    match n with
    | .reserved r => rfl
    | .started w => rfl
    | .returned w (.ok ()) => rfl
    | .returned w (.error stop) => rfl

/-- **What a Writer to memory was asked for** in a run. -/
theorem calls_memory (r : Run MemoryWriter) :
    r.machine.state.writer.calls = r.writer.calls ++ r.journal.successes.map Write.asked := by
  have h_observes : Observes MemoryWriter.calls fun calls w => calls ++ [w.asked] :=
    ⟨fun h_write => MemoryWriter.calls_of_ok h_write,
      fun h_write => congrArg _ (MemoryWriter.eq_of_error h_write)⟩
  rw [h_observes.journal r.reached, Journal.foldl_observe]
  change r.journal.successes.foldl _ r.log.writer.calls = _
  rw [(create_ok r.created).writer_eq]
  generalize r.writer.calls = calls
  induction r.journal.successes generalizing calls with
  | nil => exact (List.append_nil calls).symm
  | cons w L ih => rw [List.foldl_cons, ih, List.append_assoc, List.map_cons, List.singleton_append]

/-- The bytes of calls, counted by what was asked for. -/
theorem sum_asked (L : List Write) :
    ((L.map Write.asked).map (·.length)).sum = (L.map (·.data.length)).sum := by
  rw [List.map_map]
  rfl

end Memory

/-! ### Both -/

section Wrapped

variable {format : Record.Format} {capacity length : Nat} {content : Bytes}

/-- A record that ends within the first slot is written with all that lies before it. -/
theorem planned_first {call start stop : Nat} {hint : Int32} (h_lt : start < stop)
    (h_le : stop ≤ capacity) (h_content : stop ≤ content.length) :
    ((planned capacity content call hint start stop).map (·.data.length)).sum = stop := by
  have h_start : start / capacity = 0 := Nat.div_eq_of_lt (by omega)
  have h_stop : (stop - 1) / capacity = 0 := Nat.div_eq_of_lt (by omega)
  rw [planned, if_pos (h_start.trans h_stop.symm), List.map_singleton, List.sum_singleton, slotBase,
    h_start, Nat.mul_zero, Write.range, List.length_take, List.drop_zero, Nat.sub_zero]
  exact Nat.min_eq_left h_content

/-- Records of one length have together that many times their number. -/
theorem length_records {commits : List Commit}
    (h : ∀ c ∈ commits, (c.record format).length = length) :
    (records format commits).length = commits.length * length := by
  induction commits with
  | nil => exact (Nat.zero_mul length).symm
  | cons c commits ih =>
    have h_rest := ih fun c' h_mem => h c' (List.mem_cons_of_mem c h_mem)
    rw [records, List.flatMap_cons, List.length_append, ← records, h_rest, h c List.mem_cons_self,
      List.length_cons, Nat.succ_mul, Nat.add_comm]

/-- Records of one length in one slot: each of them is written with all that lie before it. -/
theorem sum_traceFrom {commits : List Commit} (h_pos : 0 < length)
    (h : ∀ c ∈ commits, (c.record format).length = length) (h_le : commits.length * length ≤ capacity)
    (h_content : commits.length * length ≤ content.length) :
    2 * ((traceFrom format capacity content 0 0 commits).map (·.data.length)).sum =
      length * (commits.length * (commits.length + 1)) := by
  -- on the commits: the flush for the last one writes all the records once more
  induction commits using List.reverseRecOn with
  | nil => rfl
  | append_singleton commits c ih =>
    have h_before : ∀ c' ∈ commits, (c'.record format).length = length :=
      fun c' h_mem => h c' (List.mem_append_left _ h_mem)
    have h_last : (c.record format).length = length :=
      h c (List.mem_append_right _ (List.mem_singleton_self c))
    have h_some : c.record format ≠ [] := List.ne_nil_of_length_pos (h_last ▸ h_pos)
    rw [List.length_append, List.length_singleton, Nat.succ_mul] at h_le h_content
    have h_ih := ih h_before (by omega) (by omega)
    rw [traceFrom_concat, List.map_append, List.sum_append, Commit.writes, if_neg h_some,
      planned_first] <;> rw [length_records h_before, h_last, Nat.zero_add]
    · -- the next triangular number
      rw [Nat.mul_add, h_ih, List.length_append, List.length_singleton]
      ring
    · omega
    · exact h_le
    · exact h_content

/-- One slot of 2^62 bytes, and records of 2^59 bytes. -/
def vastConfig : Config where
  slotCapacity := 2 ^ 62
  ringSize := 1
  minWriteSize := 2 ^ 59
  waitTimeout := 1

/-- Commits that fill up the slot, one after another. -/
def vastCommits : List Commit := List.replicate 8 ⟨0, [], 0⟩

/-- Each of the vast records is `2 ^ 59` bytes long. -/
theorem length_vastRecord {c : Commit} (h : c ∈ vastCommits) :
    (c.record vastConfig.recordFormat).length = 2 ^ 59 := by
  obtain rfl := List.eq_of_mem_replicate h
  have h_padded : vastConfig.recordFormat.paddedLength 0 = 2 ^ 59 := by decide
  obtain ⟨record, h_encode⟩ : ∃ record, vastConfig.recordFormat.encode 0 [] = .ok record :=
    Record.Format.encode_ok_iff.2 (h_padded.trans_lt (by decide))
  rw [(Commit.record_of_ok (c := ⟨0, [], 0⟩) h_encode).1, Record.Format.length_of_encode h_encode]
  exact h_padded

/-- The eight commits return, and 36 records have been written when they have. -/
theorem exists_vast : ∃ r : Run MemoryWriter, r.config = vastConfig ∧ r.writer = {} ∧
    r.Executes vastCommits ∧ (r.journal.successes.map (·.data.length)).sum = 36 * 2 ^ 59 := by
  obtain ⟨log, h_created⟩ : ∃ log, Log.create vastConfig ({} : MemoryWriter) = .ok log := ⟨_, rfl⟩
  have h_length : (records vastConfig.recordFormat vastCommits).length = vastCommits.length * 2 ^ 59 :=
    length_records fun _ => length_vastRecord
  obtain ⟨r, h_log, h⟩ := Run.exists_executes h_created vastCommits
    (by rw [h_length]; decide) (by rw [h_length]; exact succeeds_memory (by decide) rfl)
  have h_config : r.config = vastConfig := by
    rw [← (create_ok r.created).config_eq, h_log, (create_ok h_created).config_eq]
  have h_writer : r.writer = {} := by
    rw [← (create_ok r.created).writer_eq, h_log, (create_ok h_created).writer_eq]
  refine ⟨r, h_config, h_writer, h, ?_⟩
  -- all calls that were made have succeeded, and these are known
  have h_perm := r.successes_perm h.succeeded fun i => Run.pending_eq_none (h.returned i)
  rw [(h_perm.map _).sum_eq, h.traced.writes, h_config, trace]
  have h_le : vastCommits.length * 2 ^ 59 ≤ vastConfig.slotCapacity := by decide
  have h_sum := sum_traceFrom (by decide) (fun _ => length_vastRecord) h_le h_length.ge
  have h_count : vastCommits.length = 8 := rfl
  rw [h_count] at h_sum
  omega

/-- The note is on a call to the Writer that was refused. -/
def Note.refuses : Note → Bool
  | .returned _ (.error (.refused _)) => true
  | _ => false

/-- A device that is asked to wait for as long as a clock can tell, and faults when that is to be still
longer. -/
def endlessWriter : PacedWriter where
  latency := PacedWriter.durationLimit - 1
  bandwidth := 1

/-- The small log over this device. -/
def endlessLog : Log PacedWriter := { smallLog with writer := endlessWriter }

set_option maxRecDepth 100000 in
/-- A commit fills the slot of this log, and its call to the Writer faults. -/
def Run.endless : Run PacedWriter where
  config := smallConfig
  writer := endlessWriter
  log := endlessLog
  created := rfl
  events := firstCommit.take 7
  calls := fun start h => .inl (isCommit_of_commitsOnly rfl start h)
  machine := Option.get ((Machine.idle endlessLog).steps (program PacedWriter) (firstCommit.take 7))
    (by decide +kernel)
  reached := (Option.some_get _).symm

end Wrapped

end Log

end GroupCommit
