import GroupCommit.Benchmark.Progress
import GroupCommit.Proofs.Machine.Bookkeeping
import GroupCommit.Proofs.Word
import Mathlib.Algebra.Order.BigOperators.Ring.List
import Mathlib.Data.List.Nodup

/-!
# How the commits of a benchmark are counted

The workers of a benchmark record their commits side by side: each records one after another, and a
recording is a call on the shared progress. A journal of a run has a note for each addition to the bytes
and one for each commit that is counted. So there are two orders of the calls, that of their additions
and that of their counts, and a call knows its place in both: it has seen the bytes up to its own, and it
has a number. Between its addition and its count other calls may come, so that the two orders differ.

* `Journal.UpTo`, `Journal.Numbered`: the place of a call in the two orders.
* `Journal.Sound`: no call comes twice, and each adds its bytes before it counts.
* `Own`, `effect`: the steps of the calls, and that every event is one of them or a new call.
* `Stands`, `Stands.own`: where a call stands, and what it and the marks know then.
* `Run`, `Run.kept`: runs of a benchmark, and what holds in all of them.
-/

namespace GroupCommit.Benchmark.Progress

/-- The progress of a benchmark and the commits that are recorded in it. -/
abbrev Recording := Machine Progress Task (Except Fault Unit)

/-! ### Journals -/

/-- What is noted of a benchmark. -/
inductive Note where
  /-- A call added these bytes. -/
  | added (call bytes : ℕ)
  /-- A call counted its commit. -/
  | counted (call : ℕ)
  deriving DecidableEq, Repr

namespace Note

/-- The call and the bytes, if some were added. -/
def added? : Note → Option (ℕ × ℕ)
  | added call bytes => some (call, bytes)
  | counted _ => none

/-- The call, if a commit was counted. -/
def counted? : Note → Option ℕ
  | added _ _ => none
  | counted call => some call

end Note

/-- The notes on a benchmark, in order. -/
abbrev Journal := List Note

/-- The sum of some additions. -/
def bytesOf (A : List (ℕ × ℕ)) : ℕ := (A.map Prod.snd).sum

theorem bytesOf_append (A B : List (ℕ × ℕ)) : bytesOf (A ++ B) = bytesOf A + bytesOf B := by
  rw [bytesOf, List.map_append, List.sum_append]
  rfl

theorem bytesOf_cons (i b : ℕ) (A : List (ℕ × ℕ)) : bytesOf ((i, b) :: A) = b + bytesOf A := rfl

namespace Journal

/-- The additions, each with its call. -/
def added (J : Journal) : List (ℕ × ℕ) := J.filterMap Note.added?

/-- The calls in the order in which they added their bytes. -/
def adders (J : Journal) : List ℕ := J.added.map Prod.fst

/-- The calls in the order in which they counted their commits. -/
def counted (J : Journal) : List ℕ := J.filterMap Note.counted?

/-- The call `i` has added its bytes, and with them so many had been added. -/
def UpTo (J : Journal) (i n : ℕ) : Prop :=
  ∃ A b B, J.added = A ++ (i, b) :: B ∧ n = bytesOf A + b

/-- The call `i` has counted its commit, as the one with this number. -/
def Numbered (J : Journal) (n i : ℕ) : Prop := 0 < n ∧ J.counted[n - 1]? = some i

instance (J : Journal) (n i : ℕ) : Decidable (J.Numbered n i) := inferInstanceAs (Decidable (_ ∧ _))

/-- Nothing is noted of the call `i`. -/
def Silent (J : Journal) (i : ℕ) : Prop := i ∉ J.adders ∧ i ∉ J.counted

variable {J K : Journal} {i b n : ℕ}

@[simp] theorem added_append (J K : Journal) : added (J ++ K) = J.added ++ K.added :=
  List.filterMap_append

@[simp] theorem counted_append (J K : Journal) : counted (J ++ K) = J.counted ++ K.counted :=
  List.filterMap_append

@[simp] theorem adders_append (J K : Journal) : adders (J ++ K) = J.adders ++ K.adders := by
  rw [adders, added_append, List.map_append]
  rfl

theorem silent_append : Silent (J ++ K) i ↔ J.Silent i ∧ K.Silent i := by
  simp only [Silent, adders_append, counted_append, List.mem_append, not_or]
  exact and_and_and_comm

/-! The place of a call in the two orders is for good. -/

/-- What the bytes were when a call added its own does not change later. -/
theorem UpTo.append (h : J.UpTo i n) (K : Journal) : UpTo (J ++ K) i n := by
  obtain ⟨A, b, B, h_added, rfl⟩ := h
  refine ⟨A, b, B ++ K.added, ?_, rfl⟩
  rw [added_append, h_added, List.append_assoc, List.cons_append]

/-- A call that has seen the bytes has added its own. -/
theorem UpTo.mem (h : J.UpTo i n) : i ∈ J.adders := by
  obtain ⟨A, b, B, h_added, -⟩ := h
  rw [adders, h_added]
  simp

/-- A call that adds its bytes sees them with those before. -/
theorem upTo_concat (J : Journal) (i b : ℕ) :
    UpTo (J ++ [.added i b]) i (bytesOf J.added + b) :=
  ⟨J.added, b, [], added_append J _, rfl⟩

/-- A call keeps its number. -/
theorem Numbered.append (h : J.Numbered n i) (K : Journal) : Numbered (J ++ K) n i := by
  obtain ⟨h_pos, h_at⟩ := h
  obtain ⟨h_lt, -⟩ := List.getElem?_eq_some_iff.1 h_at
  refine ⟨h_pos, ?_⟩
  rw [counted_append, List.getElem?_append_left h_lt]
  exact h_at

/-- A call with a number was counted. -/
theorem Numbered.mem (h : J.Numbered n i) : i ∈ J.counted := List.mem_of_getElem? h.2

/-- A call that is counted gets the next number. -/
theorem numbered_concat (J : Journal) (i : ℕ) :
    Numbered (J ++ [.counted i]) (J.counted.length + 1) i := by
  refine ⟨Nat.succ_pos _, ?_⟩
  rw [counted_append, Nat.add_sub_cancel]
  exact List.getElem?_concat_length

/-- A number is given to one call. -/
theorem Numbered.unique {j : ℕ} (h : J.Numbered n i) (h' : J.Numbered n j) : i = j :=
  Option.some.inj (h.2.symm.trans h'.2)

/-- No call comes twice, and each adds its bytes before it counts its commit. -/
structure Sound (J : Journal) : Prop where
  adders_nodup : J.adders.Nodup
  counted_nodup : J.counted.Nodup
  ordered : ∀ K : Journal, K <+: J → ∀ i ∈ K.counted, i ∈ K.adders

namespace Sound

theorem nil : Sound [] where
  adders_nodup := List.nodup_nil
  counted_nodup := List.nodup_nil
  ordered K h_before i hi := by
    rw [List.prefix_nil.1 h_before] at hi
    cases hi

/-- A journal stays sound when a call adds its bytes of which nothing was noted. -/
theorem adding (h : J.Sound) (hi : J.Silent i) (b : ℕ) : Sound (J ++ [.added i b]) where
  adders_nodup := by
    have h_concat : adders (J ++ [.added i b]) = J.adders.concat i :=
      (adders_append J _).trans List.concat_eq_append.symm
    rw [h_concat]
    exact List.Nodup.concat hi.1 h.adders_nodup
  counted_nodup := by
    rw [counted_append]
    exact (List.append_nil _).symm ▸ h.counted_nodup
  ordered K h_before j hj := by
    -- up to here, those counted are the ones from before
    rcases List.prefix_concat_iff.1 h_before with rfl | h_before
    · rw [counted_append] at hj
      rw [adders_append]
      have hj_old : j ∈ J.counted := by simpa [counted, Note.counted?] using hj
      exact List.mem_append_left _ (h.ordered J List.prefix_rfl j hj_old)
    · exact h.ordered K h_before j hj

/-- A journal stays sound when a call is counted that has added its bytes. -/
theorem counting (h : J.Sound) (h_added : i ∈ J.adders) (h_new : i ∉ J.counted) :
    Sound (J ++ [.counted i]) where
  adders_nodup := by
    rw [adders_append]
    exact (List.append_nil _).symm ▸ h.adders_nodup
  counted_nodup := by
    have h_concat : counted (J ++ [.counted i]) = J.counted.concat i :=
      (counted_append J _).trans List.concat_eq_append.symm
    rw [h_concat]
    exact List.Nodup.concat h_new h.counted_nodup
  ordered K h_before j hj := by
    -- up to here, the call that is counted is new among those counted
    rcases List.prefix_concat_iff.1 h_before with rfl | h_before
    · rw [counted_append, List.mem_append] at hj
      rw [adders_append]
      refine List.mem_append_left _ ?_
      rcases hj with hj | hj
      · exact h.ordered J List.prefix_rfl j hj
      · obtain rfl : j = i := List.mem_singleton.1 hj
        exact h_added
    · exact h.ordered K h_before j hj

end Sound

end Journal

/-! ### Steps -/

/-- What is noted of a task that the call `i` carries out. -/
def taskNotes (i : ℕ) : Task → Journal
  | .addBytes bytes => [.added i bytes]
  | .addDone _ => [.counted i]
  | _ => []

/-- What is noted of an event. -/
def notes (m : Recording) : Event Task ℕ → Journal
  | .run i =>
    match m.calls[i]? with
    | some (.ready task) => taskNotes i task
    | _ => []
  | _ => []

/-- The steps that the call `i` makes: the progress and where the call stands before, what is noted, and
both after the step. -/
inductive Own (i : ℕ) : Progress → Status Task (Except Fault Unit) → Journal →
    Status Task (Except Fault Unit) → Progress → Prop
  | addsLatency (p : Progress) (bytes latency : ℕ) :
      Own i p (.ready (.addLatency bytes latency)) [] (.ready (.addBytes bytes))
        { p with latency := (p.latency + latency) % Word.limit }
  | addsBytes {p : Progress} {bytes : ℕ} (h : p.bytes + bytes < Word.limit) :
      Own i p (.ready (.addBytes bytes)) [.added i bytes] (.ready (.addDone (p.bytes + bytes)))
        { p with bytes := (p.bytes + bytes) % Word.limit }
  | overflows {p : Progress} {bytes : ℕ} (h : Word.limit ≤ p.bytes + bytes) :
      Own i p (.ready (.addBytes bytes)) [.added i bytes] (.finished (.error .addOverflow))
        { p with bytes := (p.bytes + bytes) % Word.limit }
  | counts (p : Progress) (bytes : ℕ) :
      Own i p (.ready (.addDone bytes)) [.counted i] (.ready (.markFirst (p.done + 1) bytes))
        { p with done := p.done + 1 }
  | isFirst {p : Progress} {n bytes : ℕ} (h : n = p.total / 10) :
      Own i p (.ready (.markFirst n bytes)) [] (.outside (.markFirst n bytes)) p
  | notFirst {p : Progress} {n bytes : ℕ} (h : n ≠ p.total / 10) :
      Own i p (.ready (.markFirst n bytes)) [] (.ready (.markLast n bytes)) p
  | marksFirst (p : Progress) (n bytes time : ℕ) :
      Own i p (.outside (.markFirst n bytes)) [] (.ready (.markLast n bytes))
        { p with first := some ⟨time, bytes⟩ }
  | isLast {p : Progress} {n bytes : ℕ} (h_fits : p.total * 9 < Word.limit)
      (h : n = p.total * 9 / 10) :
      Own i p (.ready (.markLast n bytes)) [] (.outside (.markLast n bytes)) p
  | notLast {p : Progress} {n bytes : ℕ} (h_fits : p.total * 9 < Word.limit)
      (h : n ≠ p.total * 9 / 10) :
      Own i p (.ready (.markLast n bytes)) [] (.finished (.ok ())) p
  | faults {p : Progress} {n bytes : ℕ} (h : Word.limit ≤ p.total * 9) :
      Own i p (.ready (.markLast n bytes)) [] (.finished (.error .mulOverflow)) p
  | marksLast (p : Progress) (n bytes time : ℕ) :
      Own i p (.outside (.markLast n bytes)) [] (.finished (.ok ()))
        { p with last := some ⟨time, bytes⟩ }

namespace Own

variable {i : ℕ} {p p' : Progress} {status status' : Status Task (Except Fault Unit)} {ns J : Journal}

/-- Notes on a step are notes on the call that makes it. -/
theorem silent_of_ne (h : Own i p status ns status' p') {j : ℕ} (h_ne : j ≠ i) : ns.Silent j := by
  cases h <;> simp [Journal.Silent, Journal.adders, Journal.added, Journal.counted, Note.added?,
    Note.counted?, h_ne]

/-- No step changes the number of commits asked for. -/
theorem total_eq (h : Own i p status ns status' p') : p'.total = p.total := by
  cases h <;> rfl

/-- A mark that is set remains set. -/
theorem first_isSome (h : Own i p status ns status' p') (h_set : p.first.isSome) :
    p'.first.isSome := by
  cases h with
  | marksFirst => rfl
  | _ => exact h_set

/-- A mark that is set stays set. -/
theorem last_isSome (h : Own i p status ns status' p') (h_set : p.last.isSome) :
    p'.last.isSome := by
  cases h with
  | marksLast => rfl
  | _ => exact h_set

/-- The counter of the commits stays that of the journal. -/
theorem done_eq (h : Own i p status ns status' p') (h_done : p.done = J.counted.length) :
    p'.done = (J ++ ns).counted.length := by
  rw [Journal.counted_append, List.length_append, ← h_done]
  cases h <;> rfl

/-- The counter of the bytes stays that of the journal, reduced to a word. -/
theorem bytes_eq (h : Own i p status ns status' p')
    (h_bytes : p.bytes = bytesOf J.added % Word.limit) :
    p'.bytes = bytesOf (J ++ ns).added % Word.limit := by
  have h_adds : ∀ b, (p.bytes + b) % Word.limit =
      bytesOf (J.added ++ [(i, b)]) % Word.limit := by
    intro b
    rw [h_bytes, Nat.mod_add_mod, bytesOf_append]
    rfl
  rw [Journal.added_append]
  cases h with
  | addsBytes | overflows => exact h_adds _
  | _ => exact (List.append_nil J.added).symm ▸ h_bytes

end Own

/-! ### Where a call stands -/

/-- The call `i` has counted its commit as the one with this number, and knows `b` bytes: those up to its
own addition, as a word. -/
def Journal.Saw (J : Journal) (n i b : ℕ) : Prop :=
  J.Numbered n i ∧ ∃ sum, J.UpTo i sum ∧ b = sum % Word.limit

/-- What a call saw does not change later. -/
theorem Journal.Saw.append {J : Journal} {n i b : ℕ} (h : J.Saw n i b) (K : Journal) :
    Saw (J ++ K) n i b :=
  let ⟨h_number, sum, h_upTo, h_word⟩ := h
  ⟨h_number.append K, sum, h_upTo.append K, h_word⟩

/-- Where the call `i` stands, what has been noted of it, and which marks are set then. -/
inductive Stands (p : Progress) (J : Journal) (i : ℕ) : Status Task (Except Fault Unit) → Prop
  | entering (bytes latency : ℕ) (h : J.Silent i) : Stands p J i (.ready (.addLatency bytes latency))
  | adding (bytes : ℕ) (h : J.Silent i) : Stands p J i (.ready (.addBytes bytes))
  | counting {sum : ℕ} (h : J.UpTo i sum) (h_new : i ∉ J.counted) :
      Stands p J i (.ready (.addDone (sum % Word.limit)))
  | overflowed {sum : ℕ} (h : J.UpTo i sum) (h_new : i ∉ J.counted) :
      Stands p J i (.finished (.error .addOverflow))
  | passingFirst {n b : ℕ} (h : J.Saw n i b) : Stands p J i (.ready (.markFirst n b))
  | timingFirst {n b : ℕ} (h : J.Saw n i b) (h_is : n = p.total / 10) :
      Stands p J i (.outside (.markFirst n b))
  | passingLast {n b : ℕ} (h : J.Saw n i b) (h_first : n = p.total / 10 → p.first.isSome) :
      Stands p J i (.ready (.markLast n b))
  | timingLast {n b : ℕ} (h : J.Saw n i b) (h_first : n = p.total / 10 → p.first.isSome)
      (h_is : n = p.total * 9 / 10) : Stands p J i (.outside (.markLast n b))
  | faulted {n b : ℕ} (h : J.Saw n i b) (h_large : Word.limit ≤ p.total * 9) :
      Stands p J i (.finished (.error .mulOverflow))
  | recorded {n b : ℕ} (h : J.Saw n i b) (h_first : n = p.total / 10 → p.first.isSome)
      (h_last : n = p.total * 9 / 10 → p.last.isSome) : Stands p J i (.finished (.ok ()))

namespace Stands

variable {i j : ℕ} {p p' : Progress} {J ns : Journal} {status status' : Status Task (Except Fault Unit)}

/-- A step of another call changes nothing here. -/
theorem frame (h : Stands p J j status) {status₁ : Status Task (Except Fault Unit)}
    (h_own : Own i p status₁ ns status' p') (h_ne : j ≠ i) : Stands p' (J ++ ns) j status := by
  have h_silent := h_own.silent_of_ne h_ne
  -- a step of another call neither adds nor counts for this one
  have h_new : j ∉ J.counted → j ∉ (J ++ ns).counted := by
    intro h_not
    rw [Journal.counted_append, List.mem_append, not_or]
    exact ⟨h_not, h_silent.2⟩
  have h_total := h_own.total_eq
  cases h with
  | entering bytes latency h => exact .entering bytes latency (Journal.silent_append.2 ⟨h, h_silent⟩)
  | adding bytes h => exact .adding bytes (Journal.silent_append.2 ⟨h, h_silent⟩)
  | counting h h_not => exact .counting (h.append ns) (h_new h_not)
  | overflowed h h_not => exact .overflowed (h.append ns) (h_new h_not)
  | passingFirst h => exact .passingFirst (h.append ns)
  | timingFirst h h_is => exact .timingFirst (h.append ns) (by rw [h_total]; exact h_is)
  | passingLast h h_first =>
    exact .passingLast (h.append ns) (by rw [h_total]; exact h_own.first_isSome ∘ h_first)
  | timingLast h h_first h_is =>
    exact .timingLast (h.append ns) (by rw [h_total]; exact h_own.first_isSome ∘ h_first)
      (by rw [h_total]; exact h_is)
  | faulted h h_large => exact .faulted (h.append ns) (by rw [h_total]; exact h_large)
  | recorded h h_first h_last =>
    exact .recorded (h.append ns) (by rw [h_total]; exact h_own.first_isSome ∘ h_first)
      (by rw [h_total]; exact h_own.last_isSome ∘ h_last)

/-- **The step of a call** leads to where it stands next. -/
theorem own (h : Stands p J i status) (h_own : Own i p status ns status' p')
    (h_done : p.done = J.counted.length) (h_bytes : p.bytes = bytesOf J.added % Word.limit) :
    Stands p' (J ++ ns) i status' := by
  cases h_own with
  | addsLatency bytes latency =>
    cases h with
    | entering _ _ h => exact (List.append_nil J).symm ▸ .adding bytes h
  | @addsBytes bytes h_fits =>
    -- what the call knows is the counter, which is the sum of the additions as a word
    cases h with
    | adding _ h =>
      have h_known : p.bytes + bytes = (bytesOf J.added + bytes) % Word.limit := by
        rw [← Nat.mod_add_mod, ← h_bytes, Nat.mod_eq_of_lt h_fits]
      rw [h_known]
      refine .counting (Journal.upTo_concat J i bytes) ?_
      simpa [Journal.counted, Note.counted?] using h.2
  | @overflows bytes h_large =>
    cases h with
    | adding _ h =>
      refine .overflowed (Journal.upTo_concat J i bytes) ?_
      simpa [Journal.counted, Note.counted?] using h.2
  | counts bytes =>
    -- the number is the length of the list of counts, as the call comes last in it
    cases h with
    | counting h h_new =>
      rw [h_done]
      exact .passingFirst ⟨Journal.numbered_concat J i, _, h.append _, rfl⟩
  | isFirst h_is =>
    cases h with
    | passingFirst h => exact .timingFirst (h.append []) h_is
  | notFirst h_not =>
    -- the number is not the one of the mark, so nothing is claimed of the mark
    cases h with
    | passingFirst h => exact .passingLast (h.append []) fun h_is => absurd h_is h_not
  | marksFirst n bytes time =>
    cases h with
    | timingFirst h _ => exact .passingLast (h.append []) fun _ => rfl
  | isLast _ h_is =>
    cases h with
    | passingLast h h_first => exact .timingLast (h.append []) h_first h_is
  | notLast _ h_not =>
    cases h with
    | passingLast h h_first =>
      exact .recorded (h.append []) h_first fun h_is => absurd h_is h_not
  | faults h_large =>
    cases h with
    | passingLast h _ => exact .faulted (h.append []) h_large
  | marksLast n bytes time =>
    cases h with
    | timingLast h h_first _ => exact .recorded (h.append []) h_first fun _ => rfl

end Stands

/-! ### What an event does -/

/-- What an event does: a call is made, or a call makes a step. -/
inductive Effect (m : Recording) : Event Task ℕ → Journal → Recording → Prop
  | made (start : Task) :
      Effect m (.call start) [] { m with calls := m.calls ++ [.ready start] }
  | own {e : Event Task ℕ} {i : ℕ} {status status' : Status Task (Except Fault Unit)} {ns : Journal}
      {p' : Progress} (h_caller : e.caller? = some i) (hi : m.calls[i]? = some status)
      (h : Own i m.state status ns status' p') :
      Effect m e ns ⟨p', m.calls.set i status'⟩

section Effect

variable {m m' : Recording} {J : Journal} {e : Event Task ℕ} {i time : ℕ}

/-- What a step leaves, by the move that it ends with. -/
theorem perform_run {task : Task} {move : Move Task (Except Fault Unit)} {p' : Progress}
    (h : run task m.state = (move, p')) (i : ℕ) :
    m.perform i (program.run task m.state) = (⟨p', m.calls⟩ : Recording).apply i move := by
  rw [Machine.perform, show program.run task m.state = (move, p') from h]

/-- A step of a ready call is the call's own. -/
theorem effect_run (h : m.step program (.run i) = some m') :
    Effect m (.run i) (notes m (.run i)) m' := by
  obtain ⟨task, hi, rfl⟩ := Machine.step_run h
  rw [show notes m (.run i) = taskNotes i task by simp only [notes, hi]]
  cases task with
  | addLatency bytes latency => exact .own rfl hi (.addsLatency m.state bytes latency)
  | addBytes bytes =>
    -- the counter itself wraps; what the call computes from it may overflow
    by_cases h_fits : m.state.bytes + bytes < Word.limit
    · rw [perform_run (by rw [run, Word.add, if_pos h_fits]) i]
      exact .own rfl hi (.addsBytes h_fits)
    · rw [perform_run (by rw [run, Word.add, if_neg h_fits]) i]
      exact .own rfl hi (.overflows (Nat.le_of_not_lt h_fits))
  | addDone bytes => exact .own rfl hi (.counts m.state bytes)
  | markFirst n bytes =>
    by_cases h_is : n = m.state.total / 10
    · rw [perform_run (by rw [run, if_pos h_is]) i]
      exact .own rfl hi (.isFirst h_is)
    · rw [perform_run (by rw [run, if_neg h_is]) i]
      exact .own rfl hi (.notFirst h_is)
  | markLast n bytes =>
    -- nine tenths of the commits need not be a word
    by_cases h_fits : m.state.total * 9 < Word.limit
    · have h_nine := Word.mul_eq_ok.2 ⟨h_fits, rfl⟩
      by_cases h_is : n = m.state.total * 9 / 10
      · have h_run : run (.markLast n bytes) m.state = (.outside (.markLast n bytes), m.state) := by
          rw [run, h_nine]
          exact if_pos h_is
        rw [perform_run h_run i]
        exact .own rfl hi (.isLast h_fits h_is)
      · have h_run : run (.markLast n bytes) m.state = (.finish (.ok ()), m.state) := by
          rw [run, h_nine]
          exact if_neg h_is
        rw [perform_run h_run i]
        exact .own rfl hi (.notLast h_fits h_is)
    · rw [perform_run (by rw [run, Word.mul, if_neg h_fits]) i]
      exact .own rfl hi (.faults (Nat.le_of_not_lt h_fits))

/-- **Every event of a benchmark has one of these effects.** Only the commits for the marks ask for the
time, and nobody waits for another call. -/
theorem effect
    (h_stands : ∀ (i : ℕ) status, m.calls[i]? = some status → Stands m.state J i status)
    (h : m.step program e = some m') : Effect m e (notes m e) m' := by
  cases e with
  | call start =>
    cases h
    exact .made start
  | run i => exact effect_run h
  | expire i =>
    obtain ⟨c, wake, late, hi, -⟩ := Machine.step_expire h
    -- no call ever waits for a deadline
    cases h_stands i _ hi
  | answer i time =>
    obtain ⟨task, hi, rfl⟩ := Machine.step_answer h
    cases h_stands i _ hi with
    | timingFirst => exact .own rfl hi (.marksFirst m.state _ _ time)
    | timingLast => exact .own rfl hi (.marksLast m.state _ _ time)

end Effect

/-! ### Runs -/

/-- What a journal says of a benchmark: the counters, the marks, and where its calls stand. -/
structure Kept (total : ℕ) (J : Journal) (m : Recording) : Prop where
  total_eq : m.state.total = total
  done_eq : m.state.done = J.counted.length
  bytes_eq : m.state.bytes = bytesOf J.added % Word.limit
  /-- A mark is set by the call that counted the commit for it. -/
  first : ∀ mark, m.state.first = some mark → ∃ i, J.Saw (total / 10) i mark.bytes
  last : ∀ mark, m.state.last = some mark → ∃ i, J.Saw (total * 9 / 10) i mark.bytes
  calls : ∀ (i : ℕ) status, m.calls[i]? = some status → Stands m.state J i status
  silent : ∀ i, m.calls.length ≤ i → J.Silent i
  sound : J.Sound

namespace Kept

variable {total : ℕ} {J ns : Journal} {m m' : Recording} {e : Event Task ℕ}

/-- A new call enters with its latency. -/
theorem made (h : Kept total J m) (bytes latency : ℕ) :
    Kept total J { m with calls := m.calls ++ [.ready (.addLatency bytes latency)] } where
  total_eq := h.total_eq
  done_eq := h.done_eq
  bytes_eq := h.bytes_eq
  first := h.first
  last := h.last
  calls i status hi := by
    rcases Machine.getElem?_call hi with h_old | ⟨rfl, rfl⟩
    · exact h.calls i status h_old
    · -- nothing has been noted of the new call
      exact .entering bytes latency (h.silent _ (Nat.le_refl _))
  silent i hi := h.silent i (by rw [List.length_append] at hi; exact Nat.le_of_add_right_le hi)
  sound := h.sound

/-- A step of a call. -/
theorem own {i : ℕ} {status status' : Status Task (Except Fault Unit)} {p' : Progress}
    (h : Kept total J m) (hi : m.calls[i]? = some status)
    (h_own : Own i m.state status ns status' p') :
    Kept total (J ++ ns) ⟨p', m.calls.set i status'⟩ where
  total_eq := h_own.total_eq.trans h.total_eq
  done_eq := h_own.done_eq h.done_eq
  bytes_eq := h_own.bytes_eq h.bytes_eq
  first mark h_mark := by
    -- only the call that sets the mark does so, and it knows what it stores
    have h_stands := h.calls i status hi
    cases h_own with
    | marksFirst n bytes time =>
      cases h_mark
      cases h_stands with
      | timingFirst h_saw h_is =>
        rw [← h.total_eq, ← h_is]
        exact ⟨i, h_saw.append []⟩
    | _ =>
      obtain ⟨j, h_saw⟩ := h.first mark h_mark
      exact ⟨j, h_saw.append _⟩
  last mark h_mark := by
    have h_stands := h.calls i status hi
    cases h_own with
    | marksLast n bytes time =>
      cases h_mark
      cases h_stands with
      | timingLast h_saw _ h_is =>
        rw [← h.total_eq, ← h_is]
        exact ⟨i, h_saw.append []⟩
    | _ =>
      obtain ⟨j, h_saw⟩ := h.last mark h_mark
      exact ⟨j, h_saw.append _⟩
  calls j status₁ hj := by
    -- the call itself goes on, all others stand where they stood
    rcases eq_or_ne j i with rfl | h_ne
    · obtain ⟨h_lt, -⟩ := List.getElem?_eq_some_iff.1 hi
      obtain rfl := Option.some.inj ((List.getElem?_set_self h_lt).symm.trans hj)
      exact (h.calls j status hi).own h_own h.done_eq h.bytes_eq
    · have hj_before := (List.getElem?_set_ne (Ne.symm h_ne)).symm.trans hj
      exact (h.calls j status₁ hj_before).frame h_own h_ne
  silent j hj := by
    -- the notes are on a call that has been made
    rw [List.length_set] at hj
    have h_ne : j ≠ i := by
      rintro rfl
      cases (List.getElem?_eq_none hj).symm.trans hi
    exact Journal.silent_append.2 ⟨h.silent j hj, h_own.silent_of_ne h_ne⟩
  sound := by
    have h_stands := h.calls i status hi
    cases h_own with
    | addsBytes | overflows =>
      cases h_stands with
      | adding _ h_silent => exact h.sound.adding h_silent _
    | counts =>
      cases h_stands with
      | counting h_upTo h_new => exact h.sound.counting h_upTo.mem h_new
    | _ => exact (List.append_nil J).symm ▸ h.sound

/-- **What an event keeps.** -/
theorem effect (h : Kept total J m)
    (h_begins : ∀ start, e = .call start → ∃ bytes latency, start = .addLatency bytes latency)
    (h_effect : Effect m e ns m') : Kept total (J ++ ns) m' := by
  cases h_effect with
  | made start =>
    obtain ⟨bytes, latency, rfl⟩ := h_begins start rfl
    rw [List.append_nil]
    exact h.made bytes latency
  | own _ hi h_own => exact h.own hi h_own

end Kept

/-- A run of a benchmark: commits are recorded side by side, and each begins with its latency. Where there
are as many workers as commits, every order of the steps is possible; fewer workers have fewer orders. -/
structure Run where
  total : ℕ
  /-- One interleaving of the recordings, with the times that the clock gives. -/
  events : List (Event Task ℕ)
  begins : ∀ start ∈ Machine.starts events, ∃ bytes latency, start = .addLatency bytes latency
  /-- The progress and the calls after the events. -/
  machine : Recording
  reached : (Machine.idle { total }).steps program events = some machine

namespace Run

/-- What has been noted of a run. -/
def journal (r : Run) : Journal := Machine.noted program notes (Machine.idle { total := r.total }) r.events

/-- **What holds in every run,** by induction on its events. -/
theorem kept (r : Run) : Kept r.total r.journal r.machine := by
  obtain ⟨total, events, h_begins, m, h⟩ := r
  -- the events are taken from the end, as the journal grows there
  induction events using List.reverseRecOn generalizing m with
  | nil =>
    cases h
    exact {
      total_eq := rfl
      done_eq := rfl
      bytes_eq := rfl
      first := nofun
      last := nofun
      calls := nofun
      silent := fun i _ => ⟨List.not_mem_nil, List.not_mem_nil⟩
      sound := .nil }
  | append_singleton es e ih =>
    obtain ⟨m₁, h₁, h_step⟩ := Machine.steps_concat _ h
    have h_before := ih (fun start h_mem => h_begins start (Machine.mem_starts_concat h_mem e)) m₁ h₁
    have h_last : ∀ start, e = .call start → ∃ bytes latency, start = .addLatency bytes latency := by
      rintro start rfl
      apply h_begins
      rw [Machine.starts_concat]
      exact List.mem_append_right _ (List.mem_singleton_self start)
    rw [journal, Machine.noted_concat h₁ h_step]
    exact h_before.effect h_last (effect h_before.calls h_step)

end Run

end GroupCommit.Benchmark.Progress
