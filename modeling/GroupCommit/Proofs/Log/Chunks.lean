import GroupCommit.Proofs.Log.Entries
import GroupCommit.Proofs.Record.Padding
import GroupCommit.Proofs.Slot.Chunks

/-!
# Logs that work in chunks

Records are padded to whole chunks, and a slot holds a whole number of them. So whatever a log does it
does in whole chunks: records begin with one, they are cut between two of them, and the slots are filled
and written in whole ones.

This is kept by every step of a call, whether the call faults or not, and whatever becomes of the
addresses: the next address is a word, and there is a whole number of chunks in the address space.

* `Chunked`, `Cut.chunked`: a record is cut into chunks.
* `Task.Chunked`, `Status.Chunked`: what a call is about to do, it does in chunks.
* `Aligned`: the log itself.
* `aligned_run`, `chunked_run`, `aligned_answered`, `chunked_answered`: the steps.
-/

namespace GroupCommit.Log

variable {W : Type} {g : Geometry} {e : Entry} {p : Portion} {c : Nat}

/-! ### Entries -/

/-- The pieces of a record are whole chunks. -/
structure Chunked (c : Nat) (e : Entry) : Prop where
  portion : ∀ p, Has e p → Slot.InChunks c (portionOffset e p) (portionBytes e p)
  start : c ∣ e.middle.start
  direct : c ∣ e.direct.length

/-- **A record of whole chunks is cut between chunks** if it begins with one. -/
theorem Cut.chunked {record : Bytes} (h : Cut g e record) (h_capacity : c ∣ g.capacity)
    (h_head : c ∣ e.span.head) (h_record : c ∣ record.length) : Chunked c e := by
  have h_stop : c ∣ entryStop e := by
    rw [entryStop, h.total]
    exact (Nat.dvd_add_right h_head).2 h_record
  -- a portion lies between chunks if it begins and ends with its block or with the record
  have h_portion : ∀ {p}, Has e p → c ∣ regionStart e p → c ∣ regionStop e p →
      Slot.InChunks c (portionOffset e p) (portionBytes e p) := by
    intro p hp h_from h_to
    have h_tag : c ∣ portionTag e p := h_capacity.trans (h.portion p hp).tag_dvd
    exact ⟨(Nat.dvd_add_right h_tag).1 h_from, (Nat.dvd_add_right h_from).1 h_to,
      (h.portion p hp).nonempty⟩
  have h_first : c ∣ regionStart e .head := h.first ▸ h_head
  cases h_single : e.span.isSingleSlot with
  | true =>
    -- the only portion is the whole record, and the middle is empty
    obtain ⟨h_whole, h_middle⟩ := h.single h_single
    refine ⟨fun p hp => ?_, ?_, ?_⟩
    · obtain rfl := Cut.not_has_of_single h_single hp
      exact h_portion hp h_first (regionStop_whole e ▸ h_whole ▸ h_stop)
    · rw [h_middle]
      exact h_head
    · rw [h.direct_length, h_middle, Nat.sub_self]
      exact Nat.dvd_zero c
  | false =>
    have h_start := h_capacity.trans (h.start_dvd h_single)
    have h_end := h_capacity.trans (h.stop_dvd h_single)
    refine ⟨fun p hp => ?_, h_start, h.direct_length ▸ Nat.dvd_sub h_end h_start⟩
    cases p with
    | whole => exact absurd hp (by simp [Has, h_single])
    | head => exact h_portion hp h_first (h.head_stop h_single ▸ h_start)
    | tail =>
      obtain ⟨h_from, h_to⟩ := h.tail_start hp
      exact h_portion hp (h_from ▸ h_end) (h_to ▸ h_stop)

/-- A record that is cut at some place ends inside the address space. -/
theorem CutInto.cut {head : Nat} {record : Bytes} {hint : Int32} (h : CutInto g head record hint e)
    (h_capacity : g.capacity ≤ Word.limit) : e.span.head = head ∧ Cut g e record := by
  have h_cut := h
  rw [CutInto, Geometry.span] at h
  -- an empty record has no span, and neither has one that ends behind the last address
  split at h
  · cases h
  · next h_pos =>
    have h_fit : head + record.length < Word.limit := by
      cases h_add : Word.add head record.length with
      | error broken =>
        rw [h_add] at h
        cases h
      | ok stop => exact (Word.add_eq_ok.1 h_add).1
    obtain ⟨e', h_cut', h_head, h_pieces⟩ :=
      exists_cut h_capacity (Nat.pos_of_ne_zero h_pos) h_fit hint
    cases h_cut.symm.trans h_cut'
    exact ⟨h_head, h_pieces⟩

/-! ### Tasks -/

/-- The task of a slot copies in chunks, and it tells of no flush but one of chunks. -/
def SlotTaskChunked (c : Nat) (task : Slot.Task) : Prop :=
  (∀ offset data, task.Copies offset data → Slot.InChunks c offset data) ∧
    ∀ result, task = .announce result → Slot.given? (.finish result) = none

/-- What follows when a call to a slot returns is about pieces that the record has, and they are
chunks. -/
def Next.Chunked (c : Nat) : Next → Prop
  | .acquired e p _ => Log.Chunked c e ∧ Has e p
  | .joined e p _ => Log.Chunked c e ∧ Has e p
  | .handedBack e p _ => Log.Chunked c e ∧ Has e p
  | .tailOffered e _ => Log.Chunked c e ∧ Has e .tail
  | .tailFilled e _ => Log.Chunked c e ∧ Has e .tail
  | .skipped e _ _ => Log.Chunked c e ∧ e.span.isSingleSlot = false
  | _ => True

/-- What the call is about to do, it does in chunks. -/
def Task.Chunked (c : Nat) : Task → Prop
  | .reserve record _ => c ∣ record.length
  | .onSlot _ task next => SlotTaskChunked c task ∧ next.Chunked c
  | .writeSlot _ flush data e p _ => (c ∣ flush.tag ∧ c ∣ data.length) ∧ Log.Chunked c e ∧ Has e p
  | .writeDirect e _ => Log.Chunked c e ∧ e.span.isSingleSlot = false
  | _ => True

/-- What the call does next, it does in chunks. -/
def Status.Chunked (c : Nat) : Status Task Result → Prop
  | .ready task => task.Chunked c
  | .parked _ wake _ => wake.Chunked c
  | .outside task => task.Chunked c
  | .finished _ => True

/-- Waking a call leaves it in chunks. -/
theorem Status.Chunked.remains {status status' : Status Task Result} (h : Status.Chunked c status)
    (h_remains : status.Remains status') : Status.Chunked c status' := by
  cases h_remains <;> exact h

/-- The task of a slot neither copies bytes in nor tells of a result. -/
def silent : Slot.Task → Bool
  | .fill _ _ _ => false
  | .fillJoin _ _ _ => false
  | .announce _ => false
  | _ => true

/-- A task that brings no bytes is in chunks. -/
theorem slotTaskChunked_of {task : Slot.Task} (h : silent task = true) : SlotTaskChunked c task := by
  constructor
  · rintro _ _ (_ | _) <;> cases h
  · rintro _ rfl
    cases h

theorem slotTaskChunked_fill {tag offset : Nat} {data : Bytes} (h : Slot.InChunks c offset data) :
    SlotTaskChunked c (.fill tag offset data) := by
  constructor
  · rintro _ _ ⟨⟩
    exact h
  · rintro _ ⟨⟩

theorem slotTaskChunked_fillJoin {tag offset : Nat} {data : Bytes}
    (h : Slot.InChunks c offset data) : SlotTaskChunked c (.fillJoin tag offset data) := by
  constructor
  · rintro _ _ ⟨⟩
    exact h
  · rintro _ ⟨⟩

theorem slotTaskChunked_announce {result : Slot.Result}
    (h : Slot.given? (.finish result) = none) : SlotTaskChunked c (.announce result) := by
  constructor
  · rintro _ _ ⟨⟩
  · rintro _ ⟨⟩
    exact h

section Way

variable {tk : Option Ticket} (h : Chunked c e)

include h

/-- A call that goes on with its entry goes on in chunks. -/
theorem Chunked.acquireTask (hp : Has e p) : (acquireTask g e p tk).Chunked c :=
  ⟨slotTaskChunked_of rfl, h, hp⟩

theorem Chunked.fillJoinTask (hp : Has e p) : (fillJoinTask g e p tk).Chunked c :=
  ⟨slotTaskChunked_fillJoin (h.portion p hp), h, hp⟩

theorem Chunked.offerTailTask (hp : Has e .tail) (afterHead : Bool) :
    (offerTailTask g e afterHead).Chunked c :=
  ⟨slotTaskChunked_of rfl, h, hp⟩

theorem Chunked.tailTask (h_spanning : e.span.isSingleSlot = false) : (tailTask g e tk).Chunked c := by
  unfold Log.tailTask
  split
  · exact trivial
  · next h_tail =>
    have hp : Has e .tail := ⟨h_spanning, Nat.pos_of_ne_zero h_tail⟩
    cases tk with
    | none => exact h.acquireTask hp
    | some ticket =>
      exact ⟨slotTaskChunked_of rfl, h, hp⟩

theorem Chunked.skipOrWriteTask (h_spanning : e.span.isSingleSlot = false) (number : Nat) :
    (skipOrWriteTask g e number tk).Chunked c := by
  unfold Log.skipOrWriteTask
  split
  · exact ⟨slotTaskChunked_of rfl, h, h_spanning⟩
  · exact ⟨h, h_spanning⟩

theorem Chunked.middleTask (h_spanning : e.span.isSingleSlot = false) :
    (middleTask g e tk).Chunked c := by
  unfold Log.middleTask
  split
  · exact h.tailTask h_spanning
  · exact h.skipOrWriteTask h_spanning 0

theorem Chunked.headTask (h_spanning : e.span.isSingleSlot = false) : (headTask g e tk).Chunked c := by
  unfold Log.headTask
  split
  · exact h.middleTask h_spanning
  · next h_head => exact h.acquireTask ⟨h_spanning, Nat.pos_of_ne_zero h_head⟩

theorem Chunked.entryTask : (entryTask g e).Chunked c := by
  unfold Log.entryTask
  split
  · next h_single => exact h.acquireTask h_single
  · next h_single =>
    have h_spanning : e.span.isSingleSlot = false := by simpa using h_single
    split
    · exact h.headTask h_spanning
    · next h_tail => exact h.offerTailTask ⟨h_spanning, Nat.pos_of_ne_zero h_tail⟩ false

theorem Chunked.afterOfferTask (hp : Has e .tail) (afterHead : Bool) :
    (afterOfferTask g e afterHead tk).Chunked c := by
  unfold Log.afterOfferTask
  split
  · exact h.middleTask hp.1
  · exact h.headTask hp.1

theorem Chunked.portionTask (hp : Has e p) : (portionTask g e p tk).Chunked c := by
  unfold Log.portionTask
  split
  · exact trivial
  · split
    · exact h.middleTask hp.1
    · next h_tail =>
      have h_pos : e.span.tailLength ≠ 0 := fun h_none => h_tail (.inl h_none)
      exact h.offerTailTask ⟨hp.1, Nat.pos_of_ne_zero h_pos⟩ true
  · exact trivial

end Way

/-- Poisoning the ring brings no bytes. -/
theorem chunked_poisonFrom {index : Nat} {reason : PoisonReason} {result : Result}
    {status : Status Task Result} (h : (poisonFrom g index reason result).Leads status) :
    Status.Chunked c status := by
  cases poisonsFrom h with
  | slot => exact ⟨slotTaskChunked_of rfl, trivial⟩
  | all => exact trivial

/-- **A call goes on in chunks** with the answer of a slot, and with a flush if it was given one. -/
theorem chunked_resume {next : Next} {answer : Slot.Result} {status : Status Task Result}
    (h_next : next.Chunked c)
    (h_answer : ∀ flush, Slot.given? (.finish answer) = some flush → c ∣ flush.tag ∧ c ∣ flush.length)
    (h : (resume g next answer).Leads status) : Status.Chunked c status := by
  cases goesWith h with
  | finishes | stopped | ended | unreadable => exact trivial
  | poisoned h => exact chunked_poisonFrom h
  | acquired => exact h_next.1.fillJoinTask (g := g) h_next.2
  | @given e p tk flush data h_bytes =>
    -- as many bytes are written as the flush is long
    obtain ⟨h_tag, h_length⟩ := h_answer flush rfl
    refine ⟨⟨h_tag, ?_⟩, h_next⟩
    rw [Flush.bytes] at h_bytes
    split at h_bytes
    · cases h_bytes
    · cases h_bytes
      rw [Buffer.length_first]
      exact h_length
  | spared | handedBack => exact h_next.1.portionTask h_next.2
  | accepted => exact ⟨slotTaskChunked_fill (h_next.1.portion .tail h_next.2), h_next⟩
  | declined | filled | unfilled => exact h_next.1.afterOfferTask h_next.2 _
  | skipped => exact h_next.1.skipOrWriteTask h_next.2 _

/-! ### The log -/

/-- The log reckons in chunks of `c` bytes: its addresses, its records and its slots are whole chunks. -/
structure Aligned (c : Nat) (log : Log W) : Prop where
  chunkSize : log.format.chunkSize = c
  capacity : c ∣ log.geometry.capacity
  limit : c ∣ Word.limit
  room : log.geometry.capacity ≤ Word.limit
  position : c ∣ log.position
  slot : ∀ (k : Nat) (s : Slot), log.ring.slots[k]? = some s → s.Aligned c

section Steps

variable {log : Log W} {t : Task} {status : Status Task Result}

/-- No step touches the configuration or the geometry. -/
theorem frame_run (t : Task) (log : Log W) :
    (run t log).2.config = log.config ∧ (run t log).2.geometry = log.geometry := by
  have h_effect := run_effect t log
  generalize run t log = o at h_effect ⊢
  cases h_effect with
  | onSlot hs =>
    rw [run_onSlot hs]
    exact ⟨rfl, rfl⟩
  | _ => exact ⟨rfl, rfl⟩

/-- Addresses are given out by a reservation only. -/
theorem position_run (t : Task) (log : Log W) : (run t log).2.position = log.position ∨
    ∃ record hint, t = .reserve record hint ∧
      (run t log).2.position = (log.position + record.length) % Word.limit := by
  have h_effect := run_effect t log
  generalize run t log = o at h_effect ⊢
  cases h_effect with
  | unplaced | placed => exact .inr ⟨_, _, rfl, rfl⟩
  | onSlot hs =>
    rw [run_onSlot hs]
    exact .inl rfl
  | _ => exact .inl rfl

/-- **A step keeps the log aligned.** -/
theorem aligned_run (h : Aligned c log) (ht : t.Chunked c) : Aligned c (run t log).2 := by
  obtain ⟨h_config, h_geometry⟩ := frame_run t log
  constructor
  case chunkSize =>
    rw [Log.format, h_config]
    exact h.chunkSize
  case capacity => exact h_geometry ▸ h.capacity
  case limit => exact h.limit
  case room => exact h_geometry ▸ h.room
  case position =>
    rcases position_run t log with h_same | ⟨record, hint, rfl, h_next⟩
    · exact h_same ▸ h.position
    · -- also where the addresses begin anew
      rw [h_next]
      exact (Nat.dvd_mod_iff h.limit).2 ((Nat.dvd_add_right h.position).2 ht)
  -- the slot is the step's own, or as it was
  case slot =>
    intro k s' hs'
    obtain ⟨s, hs, rfl | ⟨task, next, rfl, rfl⟩⟩ := exists_slot_run hs'
    · exact h.slot k _ hs
    · exact Slot.aligned_run (h.slot k s hs) ht.1.1

/-- **A call goes on in chunks.** -/
theorem chunked_run (h_log : Aligned c log) (ht : t.Chunked c) (h : (run t log).1.Leads status) :
    Status.Chunked c status := by
  have h_effect := run_effect t log
  generalize run t log = o at h h_effect
  cases h_effect with
  | @encoded timestamp payload hint record h_live h_encode =>
    -- the record is padded to whole chunks
    cases h
    show c ∣ record.length
    rw [Record.Format.length_of_encode h_encode, ← h_log.chunkSize]
    exact (log.format.isLeast_paddedLength payload.length).1.1
  | placed h_cut =>
    cases h
    obtain ⟨h_head, h_pieces⟩ := CutInto.cut h_cut h_log.room
    exact (h_pieces.chunked h_log.capacity (h_head ▸ h_log.position) ht).entryTask
  | @onSlot k task next s hs =>
    obtain ⟨h_task, h_next⟩ := ht
    cases lands hs h with
    | parked h_wake =>
      -- woken, it tries again or looks after its ticket
      rcases h_wake with rfl | ⟨ticket, rfl⟩
      · exact ⟨h_task, h_next⟩
      · exact ⟨slotTaskChunked_of rfl, h_next⟩
    | join => exact ⟨slotTaskChunked_of rfl, h_next⟩
    | announce h_result h_run =>
      exact ⟨slotTaskChunked_announce (Slot.announced_run h_run), h_next⟩
    | resumed h_result h =>
      refine chunked_resume h_next (fun flush h_given => ?_) h
      rcases h_result with h_tell | ⟨h_run, -⟩
      · rw [h_task.2 _ h_tell] at h_given
        cases h_given
      · exact Slot.aligned_given (h_log.slot k s hs) h_task.1 (h_run ▸ h_given)
  | writesSlot | writesDirect =>
    cases h
    exact ht
  | poisons => exact chunked_poisonFrom h
  | _ =>
    cases h
    exact trivial

variable [Writer W] {verdict : Verdict}

/-- No answer of the Writer touches what is in chunks. -/
theorem aligned_answered (h : Aligned c log) : Aligned c (answered t verdict log).2 := by
  have h_congr : ∀ {log' : Log W}, log'.config = log.config → log'.allocator = log.allocator →
      log'.ring = log.ring → Aligned c log' := by
    rintro ⟨config, allocator, ring, writer, stats⟩ rfl rfl rfl
    exact ⟨h.chunkSize, h.capacity, h.limit, h.room, h.position, h.slot⟩
  have h_reaction := answered_reaction t verdict log
  generalize answered t verdict log = o at h_reaction ⊢
  cases h_reaction with
  | idle => exact h
  | _ => exact h_congr rfl rfl rfl

/-- A call that has had the Writer's answer goes on in chunks. -/
theorem chunked_answered (ht : t.Chunked c) (h : (answered t verdict log).1.Leads status) :
    Status.Chunked c status := by
  have h_reaction := answered_reaction t verdict log
  generalize answered t verdict log = o at h h_reaction
  cases h_reaction with
  | slotWritten =>
    cases h
    exact ⟨slotTaskChunked_of rfl, ht.2⟩
  | slotRefused =>
    cases h
    exact ⟨slotTaskChunked_of rfl, trivial⟩
  | directWritten =>
    cases h
    exact ht.1.tailTask ht.2
  | idle =>
    cases h
    exact ht
  | _ =>
    cases h
    exact trivial

end Steps

end GroupCommit.Log
