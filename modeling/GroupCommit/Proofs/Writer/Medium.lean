import GroupCommit.Proofs.Log.Effects
import GroupCommit.Proofs.Writer.File
import GroupCommit.Writer.Memory
import Mathlib.Data.List.Induction

/-!
# Media

A log relies on one thing about its Writer: a call that succeeds sets just the bytes of its range, and
one that does not succeed sets some of them or none. A medium is a Writer of which that is known,
together with a way to read it. What the journal of a run says of a byte is then found on the medium, the
last successful call over an address deciding about its byte, unless a later one may have touched it
without success.

* `Medium`: Writers that can be read; the Writers to memory and to files on a disk are such.
* `Written`, `written_step`: only calls to the Writer change it.
* `Observes.journal`: what can be seen of the Writer of a run follows from the journal, if calls that do
  not succeed leave it as it is.
* `read_journal`, `image_journal`: the medium after the events of a run.
* `Journal.size_image_le_iff`: how far it reaches.
-/

namespace GroupCommit

/-- Writers whose medium can be read. -/
class Medium (W : Type) [Writer W] where
  /-- The byte at an address. -/
  read : W → Nat → UInt8
  /-- A call that succeeds sets just the bytes of its range. -/
  read_write : ∀ {w w' : W} {data : Bytes} {address : Nat} {hint : Int32},
    Writer.write w data address hint = (.ok (), w') → ∀ a,
      read w' a =
        if address ≤ a ∧ a < address + data.length then data.read (a - address) else read w a
  /-- A call that does not succeed leaves each byte as it is, or sets it if it is one of its range. -/
  read_failed : ∀ {w w' : W} {data : Bytes} {address : Nat} {hint : Int32} {stop : Stop IoError},
    Writer.write w data address hint = (.error stop, w') → ∀ a,
      read w' a = read w a ∨
        (address ≤ a ∧ a < address + data.length) ∧ read w' a = data.read (a - address)

namespace Medium

variable {W : Type} [Writer W] [Medium W]

/-- The bytes from `start` on. -/
def bytes (w : W) (start length : Nat) : Bytes :=
  (List.range length).map fun k => read w (start + k)

/-- Bytes that agree address by address are the same. -/
theorem bytes_eq {w : W} {start : Nat} {data : Bytes}
    (h : ∀ k < data.length, read w (start + k) = data.read k) : bytes w start data.length = data := by
  refine List.ext_getElem (by simp [bytes]) fun k h₁ h₂ => ?_
  simp only [bytes, List.getElem_map, List.getElem_range]
  rw [h k h₂, Bytes.read, List.getD_eq_getElem?_getD, List.getElem?_eq_getElem h₂]
  rfl

end Medium

/-- A call that succeeds puts its bytes in the image. -/
theorem MemoryWriter.image_of_ok {w w' : MemoryWriter} {data : Bytes} {address : Nat} {hint : Int32}
    (h : w.write data address hint = (.ok (), w')) : w'.image = w.image.write address data := by
  rw [write] at h
  split at h
  · cases h
  · split at h <;> cases h
    rfl

/-- A call that succeeds is recorded. -/
theorem MemoryWriter.calls_of_ok {w w' : MemoryWriter} {data : Bytes} {address : Nat} {hint : Int32}
    (h : w.write data address hint = (.ok (), w')) :
    w'.calls = w.calls ++ [⟨address, data.length, hint⟩] := by
  rw [write] at h
  split at h
  · cases h
  · split at h <;> cases h
    rfl

/-- A call that is refused leaves the memory as it is. -/
theorem MemoryWriter.eq_of_error {w w' : MemoryWriter} {data : Bytes} {address : Nat} {hint : Int32}
    {stop : Stop IoError} (h : w.write data address hint = (.error stop, w')) : w' = w := by
  rw [write] at h
  split at h
  · cases h
    rfl
  · split at h <;> cases h
    rfl

instance : Medium MemoryWriter where
  read w a := w.image.read a
  read_write h a := by rw [MemoryWriter.image_of_ok h, Image.read_write]
  read_failed h _ := .inl (by rw [MemoryWriter.eq_of_error h])

/-- A Writer to a file on a disk. -/
def DiskWriter : Type := { w : FileWriter // w.file.backing = .disk }

namespace DiskWriter

/-- A disk stays one, whatever is written to it. -/
instance : Writer DiskWriter where
  write w data address hint :=
    ((w.1.write data address hint).1,
      ⟨(w.1.write data address hint).2, FileWriter.backing_write w.2 data address hint⟩)

/-- A write of the disk writer is one of the file writer below it. -/
theorem write_eq {w w' : DiskWriter} {data : Bytes} {address : Nat} {hint : Int32}
    {outcome : Except (Stop IoError) Unit} (h : Writer.write w data address hint = (outcome, w')) :
    w.1.write data address hint = (outcome, w'.1) :=
  congrArg (fun o : Except (Stop IoError) Unit × DiskWriter => (o.1, o.2.1)) h

instance : Medium DiskWriter where
  read w a := w.1.image.read a
  read_write {w w'} data address hint h a := by
    obtain ⟨-, h_image | ⟨-, e, h_refused⟩⟩ := FileWriter.image_of_write w.2 (write_eq h)
    · exact read_writeAt h_image a
    · cases h_refused
  read_failed {w w'} data address hint stop h a := by
    obtain ⟨-, h_image | ⟨h_same, -⟩⟩ := FileWriter.image_of_write w.2 (write_eq h)
    · -- the bytes were written, and it is the fsync or the count that failed
      rw [read_writeAt h_image a]
      split
      · next h_in => exact .inr ⟨h_in, rfl⟩
      · exact .inl rfl
    · rw [h_same]
      exact .inl rfl

end DiskWriter

namespace Log

/-! ### The Writer of a run -/

variable {W : Type} [Writer W]

omit [Writer W] in
/-- A step that asks nothing of the Writer leaves it as it is. -/
theorem writer_run (task : Task) (log : Log W) : (run task log).2.writer = log.writer := by
  have h_effect := run_effect task log
  generalize run task log = o at h_effect ⊢
  cases h_effect with
  | onSlot hs =>
    rw [run_onSlot hs]
    rfl
  | _ => rfl

/-- What an event does to the Writer of a log. -/
inductive Written (m m' : Machine (Log W) Task Result) (e : Event Task Verdict) : Prop
  /-- The Writer stays as it is, and no success is noted. -/
  | kept (h_writer : m'.state.writer = m.state.writer)
      (h_notes : ∀ w, .returned w (.ok ()) ∉ notes m e)
  /-- The Writer is asked for something, and nothing but its answer is noted. -/
  | asked (w : Write) (outcome : Except (Stop IoError) Unit)
      (h_write : Writer.write m.state.writer w.data w.address w.hint = (outcome, m'.state.writer))
      (h_notes : notes m e = [.returned w outcome])

section Written

omit [Writer W] in
/-- A step inside the program returns no call of the writer. -/
theorem not_mem_runNotes (log : Log W) (i : Nat) (task : Task) (w : Write)
    (outcome : Except (Stop IoError) Unit) : .returned w outcome ∉ runNotes log i task := by
  cases task <;> simp [runNotes, Task.write?]

/-- The answer to a call is that of the Writer, or it comes without the Writer and is no success. -/
theorem written_call {log : Log W} {verdict : Verdict} {task : Task} {i : Nat} {w : Write}
    {outcome : Except (Stop IoError) Unit} {writer : W} (h_task : task.write? i = some w)
    (h : log.write verdict w.data w.address w.hint = (outcome, writer)) :
    (writer = log.writer ∧ ∀ v, .returned v (.ok ()) ∉ answerNotes log i verdict task) ∨
      ∃ v outcome, Writer.write log.writer v.data v.address v.hint = (outcome, writer) ∧
        answerNotes log i verdict task = [.returned v outcome] := by
  have h_notes : answerNotes log i verdict task = [.returned w outcome] := by
    rw [answerNotes_of_write h_task, Log.outcome, h]
  cases verdict with
  | pass => exact .inr ⟨w, outcome, h, h_notes⟩
  -- an injected failure is answered without asking the writer
  | fail error =>
    cases h
    refine .inl ⟨rfl, fun v h_mem => ?_⟩
    rw [h_notes] at h_mem
    cases List.mem_singleton.1 h_mem

/-- An answer either leaves the writer alone or makes exactly one call, whose return is noted. -/
theorem written_answered (task : Task) (verdict : Verdict) (log : Log W) (i : Nat) :
    ((answered task verdict log).2.writer = log.writer ∧
        ∀ w, .returned w (.ok ()) ∉ answerNotes log i verdict task) ∨
      ∃ w outcome,
        Writer.write log.writer w.data w.address w.hint
          = (outcome, (answered task verdict log).2.writer) ∧
        answerNotes log i verdict task = [.returned w outcome] := by
  have h_reaction := answered_reaction task verdict log
  generalize answered task verdict log = o at h_reaction ⊢
  -- the task is a write of a slot, a direct write, or not one that is answered by the writer
  cases h_reaction with
  | slotWritten h_write | slotRefused h_write | slotFaulted h_write | directWritten h_write
  | directRefused h_write | directFaulted h_write => exact written_call rfl h_write
  | idle h_none =>
    refine .inl ⟨rfl, fun w h_mem => ?_⟩
    rw [answerNotes_of_none (h_none i)] at h_mem
    cases h_mem

/-- **Only calls to the Writer change it**, one with each event at most. -/
theorem written_step {m m' : Machine (Log W) Task Result} {e : Event Task Verdict}
    (h_step : m.step (program W) e = some m') : Written m m' e := by
  cases e with
  | call start =>
    cases h_step
    exact .kept rfl nofun
  | run i =>
    obtain ⟨task, hi, rfl⟩ := Machine.step_run h_step
    refine .kept ?_ fun w => ?_
    · rw [Machine.perform, Machine.state_apply]
      exact writer_run task m.state
    · rw [notes_run hi]
      exact not_mem_runNotes m.state i task w _
  | expire i =>
    obtain ⟨condition, wake, late, hi, rfl⟩ := Machine.step_expire h_step
    refine .kept ?_ nofun
    rw [Machine.perform, Machine.state_apply]
    exact writer_run late m.state
  | answer i verdict =>
    -- only an answer is one of the Writer
    obtain ⟨task, hi, rfl⟩ := Machine.step_answer h_step
    have h_notes : notes m (.answer i verdict) = answerNotes m.state i verdict task := notes_answer hi
    rcases written_answered task verdict m.state i with
      ⟨h_writer, h_none⟩ | ⟨w, outcome, h_write, h_eq⟩
    · refine .kept ?_ (h_notes ▸ h_none)
      rw [Machine.perform, Machine.state_apply]
      exact h_writer
    · refine .asked w outcome ?_ (h_notes.trans h_eq)
      rw [Machine.perform, Machine.state_apply]
      exact h_write

end Written

/-- What a note says of a view of the Writer: a successful call changes it as `put` says, and nothing
else does. -/
def Note.observe {β : Type} (put : β → Write → β) (x : β) : Note → β
  | .returned w (.ok ()) => put x w
  | _ => x

/-- Only a successful return is observed. -/
theorem Note.observe_of_ne {β : Type} {put : β → Write → β} {x : β} {n : Note}
    (h : ∀ w, n ≠ .returned w (.ok ())) : n.observe put x = x := by
  match n, h with
  | .reserved r, _ => rfl
  | .started w, _ => rfl
  | .returned w (.error stop), _ => rfl
  | .returned w (.ok ()), h => exact absurd rfl (h w)

/-- A view of the Writer that every call changes as `put` says when it succeeds, and leaves as it is when
it does not. -/
structure Observes {β : Type} (view : W → β) (put : β → Write → β) : Prop where
  success : ∀ {writer writer' : W} {w : Write},
    Writer.write writer w.data w.address w.hint = (.ok (), writer') →
      view writer' = put (view writer) w
  failure : ∀ {writer writer' : W} {w : Write} {stop : Stop IoError},
    Writer.write writer w.data w.address w.hint = (.error stop, writer') → view writer' = view writer

section Observe

variable {β : Type} {view : W → β} {put : β → Write → β}

/-- A journal without successful returns is not observed. -/
theorem foldl_observe_of_not_mem {L : Journal} (h : ∀ w, .returned w (.ok ()) ∉ L) (x : β) :
    L.foldl (Note.observe put) x = x := by
  induction L with
  | nil => rfl
  | cons n L ih =>
    rw [List.foldl_cons, Note.observe_of_ne fun w h_eq => h w (h_eq ▸ List.mem_cons_self)]
    exact ih fun w h_mem => h w (List.mem_cons_of_mem n h_mem)

/-- One step keeps a view of the writer in agreement with the notes. -/
theorem Observes.step (h : Observes view put) {m m' : Machine (Log W) Task Result}
    {e : Event Task Verdict} (h_step : m.step (program W) e = some m') :
    view m'.state.writer = (notes m e).foldl (Note.observe put) (view m.state.writer) := by
  cases written_step h_step with
  | kept h_writer h_notes => rw [foldl_observe_of_not_mem h_notes, h_writer]
  | asked w outcome h_write h_notes =>
    rw [h_notes]
    rcases outcome with stop | ⟨⟩
    · exact h.failure h_write
    · exact h.success h_write

/-- **The Writer of a run**: what can be seen of it follows from the journal. -/
theorem Observes.journal (h : Observes view put) {m m' : Machine (Log W) Task Result}
    {es : List (Event Task Verdict)} (h_steps : m.steps (program W) es = some m') :
    view m'.state.writer = (Log.journal m es).foldl (Note.observe put) (view m.state.writer) := by
  induction es using List.reverseRecOn generalizing m' with
  | nil =>
    cases h_steps
    rfl
  | append_singleton es e ih =>
    -- by induction on the run, from its end: the last event adds the last notes
    obtain ⟨m₁, h₁, h_step⟩ := Machine.steps_concat _ h_steps
    rw [journal_concat h₁ h_step, List.foldl_append, ← ih h₁]
    exact h.step h_step

end Observe

/-! ### What is on the medium -/

/-- What is known of a byte after a note was known before, unless the note is on a success. -/
theorem Note.of_replay {n : Note} {below : Option UInt8} {a : Nat} {b : UInt8}
    (h_ne : ∀ w, n ≠ .returned w (.ok ())) (h : n.replay below a = some b) : below = some b := by
  match n, h_ne with
  | .reserved r, _ => exact h
  | .started w, _ => exact h
  | .returned w (.error stop), _ =>
    rw [Note.replay] at h
    split at h
    · cases h
    · exact h
  | .returned w (.ok ()), h_ne => exact absurd rfl (h_ne w)

/-- What is known after notes without successful returns was known before. -/
theorem Journal.of_replay_append {J L : Journal} (h_ne : ∀ w, .returned w (.ok ()) ∉ L) {a : Nat}
    {b : UInt8} (h : Journal.replay (J ++ L) a = some b) : J.replay a = some b := by
  induction L using List.reverseRecOn with
  | nil => rwa [List.append_nil] at h
  | append_singleton L n ih =>
    rw [← List.append_assoc, Journal.replay_concat] at h
    refine ih (fun w h_mem => h_ne w (List.mem_append_left _ h_mem)) (Note.of_replay ?_ h)
    rintro w rfl
    exact h_ne w (List.mem_append_right _ (List.mem_singleton_self _))

/-- A byte that a call covers and that is known after it is the one of the call. -/
theorem Note.replay_of_covers {w : Write} {outcome : Except (Stop IoError) Unit} {below : Option UInt8}
    {a : Nat} {b : UInt8} (h_covers : w.Covers a)
    (h : (Note.returned w outcome).replay below a = some b) :
    Bytes.read w.data (a - w.address) = b := by
  rcases outcome with stop | ⟨⟩
  · -- the byte stays known only if the call would not change it
    rw [Note.replay] at h
    split at h
    · cases h
    · next h_known =>
      by_contra h_ne
      refine h_known ⟨h_covers, fun h_eq => h_ne ?_⟩
      exact Option.some.inj (h_eq.symm.trans h)
  · -- the call succeeded and set the byte
    rw [Note.replay, if_pos h_covers] at h
    exact Option.some.inj h

/-- A return changes what is known at its own addresses only. -/
theorem Note.replay_of_not_covers {w : Write} {a : Nat} (h_not : ¬ w.Covers a)
    (outcome : Except (Stop IoError) Unit) (below : Option UInt8) :
    (Note.returned w outcome).replay below a = below := by
  rcases outcome with stop | ⟨⟩
  · exact if_neg fun h => h_not h.1
  · exact if_neg h_not

/-- A call sets the bytes that are known after it as the note on it says. -/
theorem read_asked [Medium W] {writer writer' : W} {w : Write} {outcome : Except (Stop IoError) Unit}
    (h_write : Writer.write writer w.data w.address w.hint = (outcome, writer')) {below : Option UInt8}
    {a : Nat} {b : UInt8} (h_below : ∀ b, below = some b → Medium.read writer a = b)
    (h : (Note.returned w outcome).replay below a = some b) : Medium.read writer' a = b := by
  rcases outcome with stop | ⟨⟩
  · -- a failed call may have set some of its bytes, each to what it was to be
    rcases Medium.read_failed h_write a with h_same | ⟨h_covers, h_set⟩
    · rw [h_same]
      exact h_below b (Note.of_replay (fun v h_eq => by cases h_eq) h)
    · rw [h_set]
      exact Note.replay_of_covers h_covers h
  · rw [Medium.read_write h_write a]
    -- the call succeeded, so its own addresses hold its bytes and the others what they held
    by_cases h_covers : w.Covers a
    · rw [← Note.replay_of_covers h_covers h]
      exact if_pos h_covers
    · rw [Note.replay_of_not_covers h_covers] at h
      rw [← h_below b h]
      exact if_neg h_covers

/-- **The medium of a run** holds what the journal replays. -/
theorem read_journal [Medium W] {m m' : Machine (Log W) Task Result} {es : List (Event Task Verdict)}
    (h_steps : m.steps (program W) es = some m') {a : Nat} {b : UInt8}
    (h : (journal m es).replay a = some b) : Medium.read m'.state.writer a = b := by
  -- on the events, since the last return decides
  induction es using List.reverseRecOn generalizing m' b with
  | nil => cases h
  | append_singleton es e ih =>
    obtain ⟨m₁, h₁, h_step⟩ := Machine.steps_concat _ h_steps
    rw [journal_concat h₁ h_step] at h
    -- the last event asked the writer at most once
    cases written_step h_step with
    | kept h_writer h_notes =>
      rw [h_writer]
      exact ih h₁ (Journal.of_replay_append h_notes h)
    | asked w outcome h_write h_notes =>
      rw [h_notes, Journal.replay_concat] at h
      exact read_asked h_write (fun b hb => ih h₁ hb) h

/-! ### Images -/

/-- The image after a call that writes into it. -/
def Write.into (image : Image) (w : Write) : Image := image.write w.address w.data

/-- The image after the successful calls. -/
def Journal.image (J : Journal) (image : Image) : Image := J.foldl (Note.observe Write.into) image

/-- The image of a memory writer is that of the journal. -/
theorem image_journal {m m' : Machine (Log MemoryWriter) Task Result}
    {es : List (Event Task Verdict)} (h_steps : m.steps (program MemoryWriter) es = some m') :
    m'.state.writer.image = (journal m es).image m.state.writer.image := by
  have h_observes : Observes MemoryWriter.image Write.into :=
    ⟨fun h_write => MemoryWriter.image_of_ok h_write,
      fun h_write => congrArg _ (MemoryWriter.eq_of_error h_write)⟩
  exact h_observes.journal h_steps

namespace Journal

/-- The last note comes on top. -/
theorem image_concat (J : Journal) (n : Note) (image : Image) :
    Journal.image (J ++ [n]) image = n.observe Write.into (J.image image) := by
  rw [Journal.image, List.foldl_append]
  rfl

/-- The image ends with the furthest successful return. -/
theorem size_image_le_iff {J : Journal} {image : Image} {size : Nat} :
    (J.image image).size ≤ size ↔
      image.size ≤ size ∧ ∀ w, .returned w (.ok ()) ∈ J → w.stop ≤ size := by
  induction J using List.reverseRecOn with
  | nil => exact ⟨fun h => ⟨h, nofun⟩, And.left⟩
  | append_singleton J n ih =>
    rw [image_concat]
    simp only [List.mem_append, List.mem_singleton]
    -- only a call that succeeds makes the image larger
    by_cases h_ok : ∃ w, n = .returned w (.ok ())
    · obtain ⟨w, rfl⟩ := h_ok
      show max _ w.stop ≤ size ↔ _
      rw [Nat.max_le, ih]
      constructor
      · rintro ⟨⟨h_image, h_old⟩, h_new⟩
        refine ⟨h_image, ?_⟩
        rintro v (hv | h_eq)
        · exact h_old v hv
        · rw [(Note.returned.inj h_eq).1]
          exact h_new
      · rintro ⟨h_image, h_all⟩
        exact ⟨⟨h_image, fun v hv => h_all v (.inl hv)⟩, h_all w (.inr rfl)⟩
    · have h_ne : ∀ w, n ≠ .returned w (.ok ()) := fun w h_eq => h_ok ⟨w, h_eq⟩
      rw [Note.observe_of_ne h_ne, ih]
      simp only [(h_ne _).symm, or_false]

/-- What is replayed at an address was written by a successful call. -/
theorem exists_returned {J : Journal} {a : Nat} {b : UInt8} (h : J.replay a = some b) :
    ∃ w, .returned w (.ok ()) ∈ J ∧ w.Covers a := by
  induction J using List.reverseRecOn with
  | nil => cases h
  | append_singleton J n ih =>
    rw [replay_concat] at h
    have h_before : Journal.replay J a = some b →
        ∃ w, .returned w (.ok ()) ∈ J ++ [n] ∧ w.Covers a := by
      intro h_old
      obtain ⟨w, hw, h_covers⟩ := ih h_old
      exact ⟨w, List.mem_append_left _ hw, h_covers⟩
    -- the byte is from the last note or was there before it
    by_cases h_ok : ∃ w, n = .returned w (.ok ())
    · obtain ⟨w, rfl⟩ := h_ok
      rw [Note.replay] at h
      split at h
      · next h_covers => exact ⟨w, List.mem_append_right _ (List.mem_singleton_self _), h_covers⟩
      · exact h_before h
    · exact h_before (Note.of_replay (fun w h_eq => h_ok ⟨w, h_eq⟩) h)

end Journal

end Log

end GroupCommit
