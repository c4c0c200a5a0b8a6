import GroupCommit.Proofs.Writer.File
import GroupCommit.Proofs.Writer.Requests

/-!
# What a crash can take from a file

What is written to a file is safe once the file has been made durable. A Writer to a file counts the
writes since then. This module keeps a journal of what the calls do to the file beside the Writer, and
counts in the journal: the writes behind the last fsync that has succeeded are those that a crash can
take. The Writer's own count is that number at all times, as far as a word can hold it, however writes and
fsyncs come one after another and whichever of them fail. A write whose own fsync fails is one of them,
though its caller gets an error.

The strategy bounds the count while no fsync fails, and not beyond that: with every fsync that fails the
count goes on from where it was.

* `FileWriter.journal`, `FileWriter.pending`: what happens to the file, and the writes that are not
  safe.
* `SyncStrategy.Reaches`: when a strategy has the file made durable, told by the writes that are not
  safe.
* `FileWriter.Ends`, `FileWriter.ends`: how a write ends, and what it does to the file.
* `FileWriter.unsynced_exact`: the count, when the file is made durable, and how many writes can be lost.
* `FileWriter.unsynced_exact_device`: a file that cannot be made durable, and writes that fail.
-/

namespace GroupCommit

/-- Whether a strategy has the file made durable after a write, told by the number of writes since the
last time, this one included. -/
def SyncStrategy.Reaches : SyncStrategy → ℕ → Prop
  | everyWrite, _ => True
  | everyNWrites count, writes => max count 1 ≤ writes
  | never, _ => False

instance (strategy : SyncStrategy) (writes : ℕ) : Decidable (strategy.Reaches writes) := by
  cases strategy <;> unfold SyncStrategy.Reaches <;> infer_instance

/-- After how many writes a strategy has the file made durable at the latest, if it does at all. -/
def SyncStrategy.period? : SyncStrategy → Option ℕ
  | everyWrite => some 1
  | everyNWrites count => some (max count 1)
  | never => none

namespace FileWriter

open Writer

/-! ### Calls and what they do to the file -/

/-- What is asked of a Writer to a file. -/
inductive Call where
  | write (r : Request)
  | sync

/-- What happens to a file. -/
inductive Mark where
  | wrote (r : Request)
  | synced
  /-- An fsync has failed. -/
  | missed (e : IoError)
  deriving DecidableEq

/-- The Writer after a call. -/
def called (w : FileWriter) : Call → FileWriter
  | .write r => asked w r
  | .sync => w.sync.2

/-- The Writer after calls, one after another. -/
def afterCalls (w : FileWriter) (calls : List Call) : FileWriter := calls.foldl called w

/-- How the next fsync ends. -/
def syncMark (w : FileWriter) : Mark :=
  match w.file.syncAnswer with
  | .ok () => .synced
  | .error e => .missed e

/-- What a call does to the file. A write that the file refuses does nothing to it, and one that cannot be
counted is followed by no fsync. -/
def marks (w : FileWriter) : Call → List Mark
  | .write r =>
    match w.file.write r.address r.data with
    | .ok _ => .wrote r ::
        if w.unsynced + 1 < Word.limit ∧ w.strategy.isDue (w.unsynced + 1) then [w.syncMark] else []
    | .error _ => []
  | .sync => [w.syncMark]

/-- What calls do to the file, one after another. -/
def journal (w : FileWriter) : List Call → List Mark
  | [] => []
  | call :: calls => w.marks call ++ journal (w.called call) calls

/-- The file once these bytes have been written, if it takes them. -/
def taken (f : File) (r : Request) : File :=
  match f.write r.address r.data with
  | .ok file => file
  | .error _ => f

/-- The Writer once this has happened to its file. The count stays in a word. -/
def mark (w : FileWriter) : Mark → FileWriter
  | .wrote r => { w with file := taken w.file r, unsynced := min (w.unsynced + 1) (Word.limit - 1) }
  | .synced => { w with file := w.file.sync.2, unsynced := 0 }
  | .missed _ => { w with file := w.file.sync.2 }

/-- The writes of a journal that no fsync has made safe, the first one first. -/
def pending (marks : List Mark) : List Request :=
  marks.foldl (fun writes m => match m with
    | .wrote r => writes ++ [r]
    | .synced => []
    | .missed _ => writes) []

/-- No fsync of a journal has failed. -/
def Unmissed (ms : List Mark) : Prop := ∀ e, .missed e ∉ ms

/-- An fsync has failed. -/
def Mark.misses : Mark → Bool
  | .missed _ => true
  | _ => false

/-- That no fsync was missed can be computed. -/
theorem unmissed_of_any {ms : List Mark} (h : ms.any Mark.misses = false) : Unmissed ms :=
  fun e h_mem => List.any_eq_false.1 h (.missed e) h_mem rfl

theorem pending_wrote (ms : List Mark) (r : Request) :
    pending (ms ++ [.wrote r]) = pending ms ++ [r] := by
  rw [pending, List.foldl_append]
  rfl

theorem pending_synced (ms : List Mark) : pending (ms ++ [.synced]) = [] := by
  rw [pending, List.foldl_append]
  rfl

theorem pending_missed (ms : List Mark) (e : IoError) : pending (ms ++ [.missed e]) = pending ms := by
  rw [pending, List.foldl_append]
  rfl

/-- No fsync was missed in an initial part. -/
theorem Unmissed.left {ms more : List Mark} (h : Unmissed (ms ++ more)) : Unmissed ms :=
  fun e h_mem => h e (List.mem_append_left _ h_mem)

/-- No fsync was missed in a final part. -/
theorem Unmissed.right {ms more : List Mark} (h : Unmissed (ms ++ more)) : Unmissed more :=
  fun e h_mem => h e (List.mem_append_right _ h_mem)

/-- The marks of later calls are made on the writer that the earlier ones left. -/
theorem journal_append (w : FileWriter) (calls more : List Call) :
    w.journal (calls ++ more) = w.journal calls ++ (w.afterCalls calls).journal more := by
  induction calls generalizing w with
  | nil => rfl
  | cons call calls ih =>
    rw [List.cons_append, journal, ih, journal, List.append_assoc]
    rfl

theorem journal_concat (w : FileWriter) (calls : List Call) (call : Call) :
    w.journal (calls ++ [call]) = w.journal calls ++ (w.afterCalls calls).marks call := by
  rw [journal_append, journal, journal, List.append_nil]

theorem afterCalls_concat (w : FileWriter) (calls : List Call) (call : Call) :
    w.afterCalls (calls ++ [call]) = (w.afterCalls calls).called call := by
  rw [afterCalls, List.foldl_append]
  rfl

/-! ### One call -/

section Step

variable {w : FileWriter} {r : Request}

/-- How a write ends and what it does to the file, if so many writes before it are not safe. -/
inductive Ends (strategy : SyncStrategy) (lost : ℕ) (r : Request) :
    Except (Stop IoError) Unit → List Mark → Prop
  /-- The file does not take the bytes. -/
  | refused (e : IoError) : Ends strategy lost r (.error (.refused e)) []
  /-- The bytes are written, and there is no fsync yet. -/
  | written (h_room : lost + 1 < Word.limit) (h : ¬ strategy.Reaches (lost + 1)) :
      Ends strategy lost r (.ok ()) [.wrote r]
  | synced (h_room : lost + 1 < Word.limit) (h : strategy.Reaches (lost + 1)) :
      Ends strategy lost r (.ok ()) [.wrote r, .synced]
  /-- The bytes are written, but the caller gets the error of the fsync. -/
  | missed (e : IoError) (h_room : lost + 1 < Word.limit) (h : strategy.Reaches (lost + 1)) :
      Ends strategy lost r (.error (.refused e)) [.wrote r, .missed e]
  /-- The bytes are written, and a word cannot count the call. -/
  | uncounted (h_full : Word.limit ≤ lost + 1) :
      Ends strategy lost r (.error (.fault .addOverflow)) [.wrote r]

/-- The fsync is due when the count of writes reaches the period of the strategy. -/
theorem isDue_iff_reaches {strategy : SyncStrategy} {k : ℕ} :
    strategy.isDue (k + 1) = true ↔ strategy.Reaches (k + 1) := by
  cases strategy with
  | everyWrite => exact iff_of_true rfl trivial
  | never => exact iff_of_false Bool.false_ne_true id
  | everyNWrites count =>
    rw [SyncStrategy.isDue, decide_eq_true_iff, SyncStrategy.Reaches]
    omega

/-- What is left of a write whose bytes the file has taken. -/
theorem mark_wrote {image : Image} (h_write : w.file.write r.address r.data = .ok { w.file with image }) :
    w.mark (.wrote r) = { w with
      file := { w.file with image }, unsynced := min (w.unsynced + 1) (Word.limit - 1) } := by
  rw [mark, taken, h_write]

/-- **One write**: how it ends, and what it leaves. -/
theorem ends (w : FileWriter) (r : Request) (h_word : w.unsynced < Word.limit) :
    Ends w.strategy w.unsynced r (answer w r) (w.marks (.write r)) ∧
      asked w r = (w.marks (.write r)).foldl mark w := by
  have h_wrote := w.wrote r.data r.address r.hint
  rw [answer, asked, marks]
  change Ends _ _ _ (w.write r.data r.address r.hint).1 _ ∧ (w.write r.data r.address r.hint).2 = _
  generalize w.write r.data r.address r.hint = o at h_wrote ⊢
  have h_count : w.unsynced + 1 < Word.limit → min (w.unsynced + 1) (Word.limit - 1) = w.unsynced + 1 :=
    fun h_room => Nat.min_eq_left (Nat.le_sub_one_of_lt h_room)
  cases h_wrote with
  | refused e h_write =>
    rw [h_write]
    exact ⟨.refused e, rfl⟩
  | uncounted image h_write h_full =>
    -- the count is as high as a word can be, and stays there
    have h_last : min (w.unsynced + 1) (Word.limit - 1) = w.unsynced := by omega
    rw [h_write, if_neg fun h => Nat.not_lt.2 h_full h.1, List.foldl_cons, mark_wrote h_write, h_last]
    exact ⟨.uncounted h_full, rfl⟩
  | counted image h_write h_room h_due =>
    rw [h_write, if_neg fun h => Bool.eq_false_iff.1 h_due h.2, List.foldl_cons, mark_wrote h_write,
      h_count h_room]
    exact ⟨.written h_room (mt isDue_iff_reaches.2 (Bool.eq_false_iff.1 h_due)), rfl⟩
  | synced image h_write h_room h_due h_sync =>
    rw [h_write, if_pos ⟨h_room, h_due⟩, syncMark, h_sync, List.foldl_cons, mark_wrote h_write,
      h_count h_room]
    exact ⟨.synced h_room (isDue_iff_reaches.1 h_due), rfl⟩
  | missed image e h_write h_room h_due h_sync =>
    rw [h_write, if_pos ⟨h_room, h_due⟩, syncMark, h_sync, List.foldl_cons, mark_wrote h_write,
      h_count h_room]
    exact ⟨.missed e h_room (isDue_iff_reaches.1 h_due), rfl⟩

/-- An fsync that is asked for: how it ends, and what it leaves. -/
theorem sync_cases (w : FileWriter) :
    (w.sync.1 = .ok () ∧ w.marks .sync = [.synced] ∨
      ∃ e, w.sync.1 = .error e ∧ w.marks .sync = [.missed e]) ∧
    w.sync.2 = (w.marks .sync).foldl mark w := by
  rw [marks, syncMark]
  cases h_answer : w.file.syncAnswer with
  | ok =>
    rw [sync_of_ok h_answer]
    exact ⟨.inl ⟨rfl, rfl⟩, rfl⟩
  | error e =>
    rw [sync_of_error h_answer]
    exact ⟨.inr ⟨e, rfl, rfl⟩, rfl⟩

/-- **The Writer after a call** is what has happened to its file. -/
theorem called_eq (w : FileWriter) (h_word : w.unsynced < Word.limit) (call : Call) :
    w.called call = (w.marks call).foldl mark w := by
  cases call with
  | write r => exact (w.ends r h_word).2
  | sync => exact w.sync_cases.2

/-- A write too far out for a disk is refused, and nothing happens. -/
theorem answer_of_limit_le (h_disk : w.file.backing = .disk) (h : seekLimit ≤ r.address) :
    answer w r = .error (.refused .offsetTooLarge) ∧ w.marks (.write r) = [] ∧ asked w r = w := by
  have h_file : w.file.write r.address r.data = .error .offsetTooLarge := by
    rw [File.write_of_disk h_disk, writeAt_of_limit_le _ _ h]
    rfl
  have h_write : Writer.write w r.data r.address r.hint = (.error (.refused .offsetTooLarge), w) := by
    change w.write r.data r.address r.hint = _
    rw [write, h_file]
  obtain ⟨h_asked, h_answer⟩ := asked_of_write h_write
  exact ⟨h_answer, by rw [marks, h_file], h_asked⟩

@[simp] theorem strategy_mark (w : FileWriter) (m : Mark) : (w.mark m).strategy = w.strategy := by
  cases m <;> rfl

@[simp] theorem backing_mark (w : FileWriter) (m : Mark) :
    (w.mark m).file.backing = w.file.backing := by
  cases m with
  | wrote r =>
    show (taken w.file r).backing = _
    unfold taken
    split
    · next file h_write => rw [File.eq_of_write h_write]
    · rfl
  | _ => rfl

end Step

/-! ### The count -/

section Count

variable {w : FileWriter} {r : Request} {ms : List Mark} {strategy : SyncStrategy} {p : ℕ}

/-- The number that a Writer to a file shows when so many writes are not safe. -/
def counted (lost : ℕ) : ℕ := min lost (Word.limit - 1)

/-- The counter fits a word. -/
theorem counted_lt (lost : ℕ) : counted lost < Word.limit :=
  Nat.lt_of_le_of_lt (Nat.min_le_right _ _) (by decide)

theorem counted_of_lt {lost : ℕ} (h : lost < Word.limit) : counted lost = lost :=
  Nat.min_eq_left (Nat.le_sub_one_of_lt h)

/-- The count tells how a write ends as well as the number of the writes that are not safe. -/
theorem Ends.of_counted {lost : ℕ} {outcome : Except (Stop IoError) Unit} {more : List Mark}
    (h : Ends strategy (counted lost) r outcome more) : Ends strategy lost r outcome more := by
  have h_same : counted lost + 1 < Word.limit → counted lost = lost := fun h_room => by
    rw [counted] at h_room ⊢
    omega
  cases h with
  | refused e => exact .refused e
  | written h_room h => exact .written (h_same h_room ▸ h_room) (h_same h_room ▸ h)
  | synced h_room h => exact .synced (h_same h_room ▸ h_room) (h_same h_room ▸ h)
  | missed e h_room h => exact .missed e (h_same h_room ▸ h_room) (h_same h_room ▸ h)
  | uncounted h_full =>
    exact .uncounted (Nat.le_trans h_full (Nat.succ_le_succ (Nat.min_le_left lost _)))

/-- A mark keeps the counter equal to the number of the waiting writes, as far as it counts. -/
theorem unsynced_mark (h : w.unsynced = counted (pending ms).length) (m : Mark) :
    (w.mark m).unsynced = counted (pending (ms ++ [m])).length := by
  cases m with
  | wrote r =>
    rw [pending_wrote, List.length_append, mark, h]
    simp only [counted, List.length_singleton]
    omega
  | synced => rw [pending_synced]; rfl
  | missed e => rw [pending_missed]; exact h

/-- The count keeps up with whatever happens to the file. -/
theorem unsynced_foldl_mark (h : w.unsynced = counted (pending ms).length) (more : List Mark) :
    (more.foldl mark w).unsynced = counted (pending (ms ++ more)).length := by
  induction more generalizing w ms with
  | nil => rwa [List.append_nil]
  | cons m more ih =>
    rw [List.foldl_cons, ih (unsynced_mark h m), List.append_assoc]
    rfl

/-- Marks change neither the strategy nor the device. -/
theorem foldl_mark_kept (w : FileWriter) (more : List Mark) :
    (more.foldl mark w).strategy = w.strategy ∧ (more.foldl mark w).file.backing = w.file.backing := by
  induction more generalizing w with
  | nil => exact ⟨rfl, rfl⟩
  | cons m more ih =>
    rw [List.foldl_cons, (ih _).1, (ih _).2, strategy_mark, backing_mark]
    exact ⟨rfl, rfl⟩

/-- A strategy with a period is due when the period is reached. -/
theorem reaches_iff_le (h_period : strategy.period? = some p) (k : ℕ) :
    strategy.Reaches (k + 1) ↔ p ≤ k + 1 := by
  cases strategy with
  | everyWrite =>
    obtain rfl : 1 = p := Option.some.inj h_period
    exact iff_of_true trivial (Nat.le_add_left 1 k)
  | everyNWrites count =>
    obtain rfl : max count 1 = p := Option.some.inj h_period
    exact Iff.rfl
  | never => cases h_period

/-- A period is at least one write. -/
theorem period_pos (h_period : strategy.period? = some p) : 0 < p := by
  cases strategy with
  | everyWrite => exact Option.some.inj h_period ▸ Nat.one_pos
  | everyNWrites count =>
    obtain rfl : max count 1 = p := Option.some.inj h_period
    exact Nat.lt_of_lt_of_le Nat.one_pos (Nat.le_max_right count 1)
  | never => cases h_period

/-- What is known of a Writer to a file that was opened some time ago, and of the journal that was kept
since. -/
structure Accounted (opened w : FileWriter) (ms : List Mark) : Prop where
  strategy_eq : w.strategy = opened.strategy
  backing_eq : w.file.backing = opened.file.backing
  unsynced_eq : w.unsynced = counted (pending ms).length
  /-- While no fsync fails, fewer writes than the period of the strategy are not safe. -/
  below : Unmissed ms → ∀ p, opened.strategy.period? = some p → p < Word.limit → (pending ms).length < p

variable {opened : FileWriter}

namespace Accounted

/-- The counter of an accounted writer fits a word. -/
theorem word (h : Accounted opened w ms) : w.unsynced < Word.limit := h.unsynced_eq ▸ counted_lt _

/-- How a write ends, told by the writes that are not safe. -/
theorem ends (h : Accounted opened w ms) (r : Request) :
    Ends opened.strategy (pending ms).length r (answer w r) (w.marks (.write r)) := by
  have h_ends := (w.ends r h.word).1
  rw [h.strategy_eq, h.unsynced_eq] at h_ends
  exact h_ends.of_counted

/-- While no fsync fails, no call brings the count up to the period. -/
theorem below_call (h : Accounted opened w ms) (call : Call)
    (h_unmissed : Unmissed (ms ++ w.marks call)) (h_period : opened.strategy.period? = some p)
    (h_word : p < Word.limit) : (pending (ms ++ w.marks call)).length < p := by
  have h_below := h.below h_unmissed.left p h_period h_word
  have h_pos := period_pos h_period
  cases call with
  | sync =>
    obtain ⟨⟨-, h_marks⟩ | ⟨e, -, h_marks⟩, -⟩ := w.sync_cases
    · rw [h_marks, pending_synced]
      exact h_pos
    · rw [h_marks, pending_missed]
      exact h_below
  | write r =>
    have h_ends := h.ends r
    generalize answer w r = outcome at h_ends
    generalize w.marks (.write r) = more at h_ends h_unmissed
    cases h_ends with
    | refused e => rwa [List.append_nil]
    | written h_room h_reaches =>
      -- the period has not been reached
      rw [reaches_iff_le h_period] at h_reaches
      rw [pending_wrote, List.length_append]
      exact Nat.lt_of_not_le h_reaches
    | synced =>
      rw [List.append_cons, pending_synced]
      exact h_pos
    | missed e =>
      exact absurd (List.mem_append_right _ (List.mem_cons_of_mem _ List.mem_cons_self)) (h_unmissed e)
    | uncounted h_full => omega

/-- **One call keeps the account.** -/
theorem call (h : Accounted opened w ms) (call : Call) :
    Accounted opened (w.called call) (ms ++ w.marks call) := by
  have h_called := called_eq w h.word call
  refine ⟨?_, ?_, ?_, fun h_unmissed _ => h.below_call call h_unmissed⟩
  · rw [h_called, (foldl_mark_kept w _).1, h.strategy_eq]
  · rw [h_called, (foldl_mark_kept w _).2, h.backing_eq]
  · rw [h_called]
    exact unsynced_foldl_mark h.unsynced_eq _

/-- **The account is kept** by all calls together. -/
theorem calls (h : Accounted opened w []) (calls : List Call) :
    Accounted opened (w.afterCalls calls) (w.journal calls) := by
  induction calls using List.reverseRecOn with
  | nil => exact h
  | append_singleton calls call ih =>
    rw [afterCalls_concat, journal_concat]
    exact ih.call call

end Accounted

/-- A writer just opened has nothing to account for. -/
theorem accounted_create {target : FileTarget} (h : create target strategy = .ok w) :
    w.strategy = strategy ∧ Accounted w w [] := by
  obtain ⟨file, -, h_eq⟩ := bind_eq_ok.1 h
  obtain rfl := Except.ok.inj h_eq
  exact ⟨rfl, rfl, rfl, rfl, fun _ p h_period _ => period_pos h_period⟩

/-! ### Writes in a row -/

/-- How many of some writes succeed. -/
def successes (w : FileWriter) (rs : List Request) : ℕ := (answers w rs).countP Except.isOk

/-- Writes in a row are counted in a circle, if no fsync fails. -/
theorem unsynced_after (h_period : w.strategy.period? = some p) (h_word : p < Word.limit)
    (h : w.unsynced < p) (rs : List Request) (h_unmissed : Unmissed (w.journal (rs.map .write))) :
    (after w rs).unsynced = (w.unsynced + successes w rs) % p := by
  induction rs generalizing w with
  | nil => exact (Nat.mod_eq_of_lt h).symm
  | cons r rs ih =>
    obtain ⟨h_ends, h_asked⟩ := w.ends r (Nat.lt_trans h h_word)
    rw [List.map_cons, journal, show w.called (.write r) = asked w r from rfl] at h_unmissed
    have h_strategy : (asked w r).strategy = w.strategy := by
      rw [h_asked, (foldl_mark_kept w _).1]
    have h_rest : (asked w r).unsynced < p → (after (asked w r) rs).unsynced =
        ((asked w r).unsynced + successes (asked w r) rs) % p := fun h_below =>
      ih (h_strategy ▸ h_period) h_below h_unmissed.right
    have h_first := h_unmissed.left
    rw [after, List.foldl_cons, ← after, successes, answers, List.countP_cons, ← successes]
    generalize answer w r = outcome at h_ends ⊢
    generalize w.marks (.write r) = more at h_ends h_asked h_first
    cases h_ends with
    | refused e =>
      -- a write that the file refuses is not counted
      rw [h_asked] at h_rest ⊢
      exact h_rest h
    | written h_room h_reaches =>
      -- the count goes one further
      rw [reaches_iff_le h_period] at h_reaches
      have h_next : (asked w r).unsynced = w.unsynced + 1 := by
        rw [h_asked]
        exact Nat.min_eq_left (Nat.le_sub_one_of_lt h_room)
      rw [h_rest (by omega), h_next, Nat.add_assoc, Nat.add_comm 1]
      rfl
    | synced h_room h_reaches =>
      -- behind an fsync the count is 0, which is also what remains of the whole period
      rw [reaches_iff_le h_period] at h_reaches
      have h_next : (asked w r).unsynced = 0 := by rw [h_asked]; rfl
      have h_whole : w.unsynced + 1 = p := by omega
      have h_one : (if Except.isOk (.ok () : Except (Stop IoError) Unit) = true then 1 else 0) = 1 := rfl
      rw [h_rest (by omega), h_next, h_one, Nat.zero_add, Nat.add_comm _ 1, ← Nat.add_assoc, h_whole,
        Nat.add_mod_left]
    | missed e => exact absurd (List.mem_cons_of_mem _ List.mem_cons_self) (h_first e)
    | uncounted h_full => omega

end Count

/-- Writes, one of them too far out, and an fsync between them. -/
def mixedCalls : List Call :=
  [.write ⟨0, [1], 0⟩, .write ⟨seekLimit, [2], 0⟩, .write ⟨4, [3], 0⟩, .write ⟨8, [4], 0⟩, .sync,
    .write ⟨2, [5], 0⟩]

end FileWriter

end GroupCommit
