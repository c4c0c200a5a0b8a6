import GroupCommit.Proofs.Writer.File
import GroupCommit.Proofs.Writer.Requests
import GroupCommit.Writer.Memory

/-!
# Memory stands for a file

A Writer to memory and a Writer to a file on a disk that was empty at first hold the same bytes after the
same calls, whether these overlap or leave gaps, in whatever order they come and however the fsyncs of
the file end: the byte string that the calls describe. So what is found out about a log in memory is true
of the file that it would have left. The two Writers refuse different calls, an empty one far out for
example, or one that no buffer can hold; calls with bytes that end below the limit on offsets are taken
by both.

* `FileWriter.image_after`, `MemoryWriter.after_of_spare`: each of the two and a list of calls.
* `MemoryWriter.after_of_exhausted`: nothing changes once a Writer is to fail.
* `memory_stands_for_file`: both at once.
-/

namespace GroupCommit

open Writer

variable {rs : List Request} {r : Request}

namespace FileWriter

variable {w : FileWriter}

/-- The file takes a call with bytes that ends below the limit on offsets. -/
theorem image_asked (h_disk : w.file.backing = .disk) (h_data : r.data ≠ [])
    (h_stop : r.stop < seekLimit) :
    (asked w r).file.backing = .disk ∧ (asked w r).image = w.image.write r.address r.data := by
  have h_write : writeAt w.image r.address r.data = .ok (w.image.write r.address r.data) :=
    writeAt_of_lt w.image h_data h_stop
  have h_wrote := wrote w r.data r.address r.hint
  rw [asked]
  change Wrote w r.data r.address (Writer.write w r.data r.address r.hint) at h_wrote
  generalize Writer.write w r.data r.address r.hint = o at h_wrote ⊢
  cases h_wrote with
  -- the offset is in range, so the disk does not refuse the write
  | refused e h_refused =>
    rw [File.write_of_disk h_disk] at h_refused
    rw [image] at h_write
    rw [h_write] at h_refused
    cases h_refused
  -- in all other cases the bytes are there before anything is counted or synced
  | uncounted image h_take | counted image h_take | synced image h_take | missed image e h_take =>
    have h_image := File.writeAt_of_write h_disk h_take
    exact ⟨h_disk, Except.ok.inj (h_image.symm.trans h_write)⟩

/-- The call succeeds if the fsync does that may belong to it, as long as the calls can be counted. -/
theorem answer_asked (h_disk : w.file.backing = .disk) (h_data : r.data ≠ [])
    (h_stop : r.stop < seekLimit) (h_syncs : w.file.SyncsSucceed)
    (h_room : w.unsynced + 1 < Word.limit) :
    answer w r = .ok () ∧ (asked w r).file.SyncsSucceed ∧ (asked w r).unsynced ≤ w.unsynced + 1 := by
  have h_write : writeAt w.file.image r.address r.data = .ok (w.image.write r.address r.data) :=
    writeAt_of_lt w.image h_data h_stop
  have h_wrote := wrote w r.data r.address r.hint
  rw [answer, asked]
  change Wrote w r.data r.address (Writer.write w r.data r.address r.hint) at h_wrote
  generalize Writer.write w r.data r.address r.hint = o at h_wrote ⊢
  cases h_wrote with
  | refused e h_refused =>
    -- neither the write nor its count nor its fsync can fail here
    rw [File.write_of_disk h_disk, h_write] at h_refused
    cases h_refused
  | uncounted image h_take h_full => exact absurd h_room (Nat.not_lt.2 h_full)
  | counted image => exact ⟨rfl, ⟨h_syncs.next, h_syncs.later⟩, Nat.le_refl _⟩
  | synced image => exact ⟨rfl, h_syncs.tail image, Nat.zero_le _⟩
  | missed image e h_take h_room h_due h_sync => cases h_syncs.syncAnswer.symm.trans h_sync

/-- A disk file holds the calls in layers over what it held, whatever becomes of the fsyncs. -/
theorem image_after (h_disk : w.file.backing = .disk) (h_data : ∀ r ∈ rs, r.data ≠ [])
    (h_stop : ∀ r ∈ rs, r.stop < seekLimit) : (after w rs).image = w.image.layers rs := by
  induction rs generalizing w with
  | nil => rfl
  | cons r rs ih =>
    obtain ⟨h_disk', h_image⟩ :=
      image_asked h_disk (h_data r List.mem_cons_self) (h_stop r List.mem_cons_self)
    have h_after := ih h_disk' (fun s hs => h_data s (List.mem_cons_of_mem r hs))
      fun s hs => h_stop s (List.mem_cons_of_mem r hs)
    rw [after, List.foldl_cons, ← after, h_after, h_image]
    rfl

/-- Every call is answered `Ok` while the fsyncs succeed and the counter has room. -/
theorem answers_of_syncsSucceed (h_disk : w.file.backing = .disk) (h_data : ∀ r ∈ rs, r.data ≠ [])
    (h_stop : ∀ r ∈ rs, r.stop < seekLimit) (h_syncs : w.file.SyncsSucceed)
    (h_room : w.unsynced + rs.length < Word.limit) : answers w rs = rs.map fun _ => .ok () := by
  induction rs generalizing w with
  | nil => rfl
  | cons r rs ih =>
    rw [List.length_cons] at h_room
    have hr_data := h_data r List.mem_cons_self
    have hr_stop := h_stop r List.mem_cons_self
    obtain ⟨h_answer, h_syncs', h_le⟩ := answer_asked h_disk hr_data hr_stop h_syncs (by omega)
    have h_answers := ih (image_asked h_disk hr_data hr_stop).1
      (fun s hs => h_data s (List.mem_cons_of_mem r hs))
      (fun s hs => h_stop s (List.mem_cons_of_mem r hs)) h_syncs' (by omega)
    rw [answers, h_answer, h_answers, List.map_cons]

/-- A file that is opened to be written is empty, and otherwise as it was found. -/
theorem eq_of_create {f : File} {strategy : SyncStrategy} (h : create (.file f) strategy = .ok w) :
    w = ⟨f.truncate, strategy, 0⟩ := (Except.ok.inj h).symm

end FileWriter

namespace MemoryWriter

variable {w : MemoryWriter}

/-- The injected failures begin with the call after the first `k`. -/
theorem exhausted_iff : w.exhausted = true ↔ ∃ k, w.failAfter = some k ∧ k ≤ w.calls.length := by
  rw [exhausted]
  cases w.failAfter with
  | none => simp
  | some k => simp

/-- From then on each call is refused and changes nothing. -/
theorem write_of_exhausted (h : w.exhausted = true) (r : Request) :
    Writer.write w r.data r.address r.hint =
      (.error (.refused (.injected r.data.length r.address)), w) := by
  change w.write r.data r.address r.hint = _
  rw [MemoryWriter.write, if_pos h]

/-- A call that ends below the limit on offsets asks for no buffer that cannot be. -/
theorem write_of_spare (h : w.exhausted = false) (h_stop : r.stop < seekLimit) :
    Writer.write w r.data r.address r.hint =
      (.ok (), { w with image := w.image.write r.address r.data, calls := w.calls ++ [r.call] }) := by
  have h_grow : w.grow r.address r.data.length = .ok () := by
    refine bind_eq_ok.2 ⟨r.stop, Word.add_eq_ok.2 ⟨Nat.lt_trans h_stop (by decide), rfl⟩, ?_⟩
    split
    · exact Word.allocate_eq_ok.2 h_stop
    · rfl
  change w.write r.data r.address r.hint = _
  rw [MemoryWriter.write, h, h_grow]
  rfl

/-- As long as it is not to fail, the Writer accepts every call. -/
theorem after_of_spare (h_spare : ∀ k, w.failAfter = some k → w.calls.length + rs.length ≤ k)
    (h_stop : ∀ r ∈ rs, r.stop < seekLimit) :
    after w rs = { w with image := w.image.layers rs, calls := w.calls ++ rs.map Request.call } ∧
      answers w rs = rs.map fun _ => .ok () := by
  induction rs generalizing w with
  | nil => exact ⟨by rw [List.map_nil, List.append_nil]; rfl, rfl⟩
  | cons r rs ih =>
    have h_open : w.exhausted = false := by
      refine Bool.eq_false_iff.2 fun h => ?_
      obtain ⟨k, h_fail, h_le⟩ := exhausted_iff.1 h
      have := h_spare k h_fail
      rw [List.length_cons] at this
      omega
    obtain ⟨h_asked, h_answer⟩ := asked_of_write (write_of_spare h_open (h_stop r List.mem_cons_self))
    -- one call less is to come, and one more has been accepted
    have h_spare' : ∀ k, w.failAfter = some k → (w.calls ++ [r.call]).length + rs.length ≤ k := by
      intro k h_fail
      have := h_spare k h_fail
      rw [List.length_cons] at this
      rw [List.length_append, List.length_singleton]
      omega
    obtain ⟨h_after, h_answers⟩ := ih
      (w := { w with image := w.image.write r.address r.data, calls := w.calls ++ [r.call] })
      h_spare' fun s hs => h_stop s (List.mem_cons_of_mem r hs)
    constructor
    · rw [after, List.foldl_cons, h_asked, ← after, h_after, List.map_cons, List.append_assoc]
      rfl
    · rw [answers, h_answer, h_asked, h_answers, List.map_cons]

/-- A Writer that is to fail refuses every call and stays as it is. -/
theorem after_of_exhausted (h : w.exhausted = true) (rs : List Request) :
    after w rs = w ∧
      answers w rs = rs.map fun r => .error (.refused (.injected r.data.length r.address)) := by
  induction rs with
  | nil => exact ⟨rfl, rfl⟩
  | cons r rs ih =>
    obtain ⟨h_asked, h_answer⟩ := asked_of_write (write_of_exhausted h r)
    constructor
    · rw [after, List.foldl_cons, h_asked]
      exact ih.1
    · rw [answers, h_answer, h_asked, ih.2, List.map_cons]

/-- A Writer that accepts so many calls and no more: its answers, and what they leave behind. -/
theorem after_failing (k : Nat) (h_stop : ∀ r ∈ rs, r.stop < seekLimit) :
    after ({ failAfter := some k } : MemoryWriter) rs =
        { image := Image.blank.layers (rs.take k), calls := (rs.take k).map Request.call,
          failAfter := some k } ∧
      answers ({ failAfter := some k } : MemoryWriter) rs =
        ((rs.take k).map fun _ => .ok ()) ++
          (rs.drop k).map fun r => .error (.refused (.injected r.data.length r.address)) := by
  -- the first `k` calls leave room for each other
  have h_spare : ∀ j, some k = some j → ([] : List WriteCall).length + (rs.take k).length ≤ j := by
    rintro j h_eq
    cases h_eq
    rw [List.length_nil, Nat.zero_add]
    exact List.length_take_le k rs
  obtain ⟨h_first, h_accepted⟩ := after_of_spare (w := { failAfter := some k }) h_spare
    fun r hr => h_stop r (List.mem_of_mem_take hr)
  -- the rest is refused, if there is any
  obtain ⟨h_rest, h_refused⟩ :
      after (after ({ failAfter := some k } : MemoryWriter) (rs.take k)) (rs.drop k) =
          after ({ failAfter := some k } : MemoryWriter) (rs.take k) ∧
        answers (after ({ failAfter := some k } : MemoryWriter) (rs.take k)) (rs.drop k) =
          (rs.drop k).map fun r => .error (.refused (.injected r.data.length r.address)) := by
    by_cases h_le : k ≤ rs.length
    · have h_length : ((rs.take k).map Request.call).length = k := by
        rw [List.length_map, List.length_take, Nat.min_eq_left h_le]
      refine after_of_exhausted (exhausted_iff.2 ⟨k, by rw [h_first], ?_⟩) _
      rw [h_first]
      exact Nat.le_of_eq h_length.symm
    · -- fewer than `k` calls, so none is left over
      rw [List.drop_eq_nil_of_le (Nat.le_of_not_le h_le)]
      exact ⟨rfl, rfl⟩
  constructor
  · rw [← List.take_append_drop k rs, after_append, h_rest, List.take_append_drop, h_first,
      List.nil_append]
  · have h_split := answers_append ({ failAfter := some k } : MemoryWriter) (rs.take k) (rs.drop k)
    rw [List.take_append_drop] at h_split
    rw [h_split, h_accepted, h_refused]

end MemoryWriter

/-- **Memory and file agree.** Both take all calls with bytes that end below the limit on offsets and hold
the byte string that the calls describe afterwards, whatever the strategy of the file and however its
fsyncs end; the memory notes every call in order, and the calls to the file succeed if no fsync fails, as
long as they can be counted. A Writer to memory that is to fail accepts so many calls, refuses the others,
and is then what these calls have made of it. -/
theorem memory_stands_for_file {f : File} {strategy : SyncStrategy} {file : FileWriter}
    (h_disk : f.backing = .disk) (h_create : FileWriter.create (.file f) strategy = .ok file)
    (h_data : ∀ r ∈ rs, r.data ≠ []) (h_stop : ∀ r ∈ rs, r.stop < seekLimit) :
    ((after file rs).image.content = Request.described rs ∧
      (f.SyncsSucceed → rs.length < Word.limit → answers file rs = rs.map fun _ => .ok ())) ∧
    (answers ({} : MemoryWriter) rs = (rs.map fun _ => .ok ()) ∧
      (after ({} : MemoryWriter) rs).image.content = Request.described rs ∧
      (after ({} : MemoryWriter) rs).calls = rs.map Request.call) ∧
    ∀ k, answers ({ failAfter := some k } : MemoryWriter) rs =
        ((rs.take k).map fun _ => .ok ()) ++
          ((rs.drop k).map fun r => .error (.refused (.injected r.data.length r.address))) ∧
      after ({ failAfter := some k } : MemoryWriter) rs =
        { after ({} : MemoryWriter) (rs.take k) with failAfter := some k } ∧
      (after ({ failAfter := some k } : MemoryWriter) rs).bytesWritten =
        (after ({} : MemoryWriter) (rs.take k)).bytesWritten := by
  rw [FileWriter.eq_of_create h_create]
  have h_memory : ∀ ts : List Request, (∀ r ∈ ts, r.stop < seekLimit) →
      after ({} : MemoryWriter) ts = { image := Image.blank.layers ts, calls := ts.map Request.call } ∧
        answers ({} : MemoryWriter) ts = ts.map fun _ => .ok () :=
    fun ts h_ts => MemoryWriter.after_of_spare nofun h_ts
  -- both hold the calls in layers over nothing, and layers are what the calls describe
  refine ⟨⟨?_, fun h_syncs h_room => ?_⟩, ⟨(h_memory rs h_stop).2, ?_, ?_⟩, fun k => ?_⟩
  · rw [FileWriter.image_after (w := ⟨f.truncate, strategy, 0⟩) h_disk h_data h_stop]
    exact Image.content_layers rs
  · refine FileWriter.answers_of_syncsSucceed (w := ⟨f.truncate, strategy, 0⟩) h_disk h_data h_stop
      ⟨h_syncs.next, h_syncs.later⟩ ?_
    rwa [Nat.zero_add]
  · rw [(h_memory rs h_stop).1, Image.content_layers]
  · rw [(h_memory rs h_stop).1]
  · obtain ⟨h_after, h_answers⟩ := MemoryWriter.after_failing k h_stop
    have h_taken := (h_memory (rs.take k) fun r hr => h_stop r (List.mem_of_mem_take hr)).1
    refine ⟨h_answers, ?_, ?_⟩
    · rw [h_after, h_taken]
    · rw [h_after, h_taken]
      rfl

/-- Three calls: the second one writes over the beginning of the first, the third one leaves a gap. -/
def overlappingRequests : List Request := [⟨2, [1, 2, 3], 7⟩, ⟨0, [9, 9, 9], 0⟩, ⟨7, [5], -1⟩]

/-- What the three calls leave of a file that was not empty, also if the first fsync fails. -/
theorem memory_stands_for_file_overlapping :
    let file : FileWriter := ⟨{ syncs := [some .deviceFull] }, .everyNWrites 2, 0⟩
    FileWriter.create (.file { image := .ofBytes [8, 8], syncs := [some .deviceFull] })
        (.everyNWrites 2) = .ok file ∧
      (∀ r ∈ overlappingRequests, r.data ≠ []) ∧ (∀ r ∈ overlappingRequests, r.stop < seekLimit) ∧
      (after file overlappingRequests).image.content = [9, 9, 9, 2, 3, 0, 0, 5] ∧
      answers file overlappingRequests = [.ok (), .error (.refused .deviceFull), .ok ()] ∧
      (after ({} : MemoryWriter) overlappingRequests).image.content = [9, 9, 9, 2, 3, 0, 0, 5] ∧
      answers ({ failAfter := some 2 } : MemoryWriter) overlappingRequests =
        [.ok (), .ok (), .error (.refused (.injected 1 7))] ∧
      (after ({ failAfter := some 2 } : MemoryWriter) overlappingRequests).bytesWritten = .ok 6 := by
  -- what the file held is truncated when it is opened
  have h_create : FileWriter.create
      (.file { image := .ofBytes [8, 8], syncs := [some .deviceFull] }) (.everyNWrites 2) =
        .ok ⟨{ syncs := [some .deviceFull] }, .everyNWrites 2, 0⟩ := rfl
  have h_data : ∀ r ∈ overlappingRequests, r.data ≠ [] := by decide
  have h_stop : ∀ r ∈ overlappingRequests, r.stop < seekLimit := by decide
  have h_described : Request.described overlappingRequests = [9, 9, 9, 2, 3, 0, 0, 5] := by decide
  -- the second fsync fails, and the bytes are there all the same
  obtain ⟨⟨h_file, -⟩, ⟨-, h_memory, -⟩, h_failing⟩ :=
    memory_stands_for_file rfl h_create h_data h_stop
  obtain ⟨h_answers, -, h_bytes⟩ := h_failing 2
  exact ⟨h_create, h_data, h_stop, h_file.trans h_described, rfl, h_memory.trans h_described, h_answers,
    h_bytes.trans rfl⟩

end GroupCommit
