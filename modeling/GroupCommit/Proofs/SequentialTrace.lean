import GroupCommit.Proofs.Log.Counting
import GroupCommit.Proofs.Log.Completion
import GroupCommit.Proofs.Poisoning

/-!
# The trace of commits that are made one after another

What commits write that are made one after another, each when the one before has returned, is known in
advance, to the last byte. It depends on the records and on the capacity of the slots, and neither on how
many slots there are nor on what the slots have been through. A record in one slot is written with its
slot; any other record is written in up to three calls, for its head, its middle and its tail.

* `planned`, `entry_eq_planned`: the calls of one commit, in closed form.
* `trace`, `Run.Executes`: the calls of a list of commits, and the runs that make them.
* `Run.Executes.writes_eq`: what such a run writes, by induction on the commits.
* `Run.exists_executes`: that there is such a run, as every commit returns.
* `Traced`, `trace_exact`: the statement and the theorem.
-/

namespace GroupCommit.Log

/-! ### The calls of one commit -/

/-- The first address of the slot that holds an address. -/
def slotBase (capacity a : Nat) : Nat := capacity * (a / capacity)

/-- The first address from `a` on with which a slot begins. -/
def slotCeil (capacity a : Nat) : Nat := capacity * ((a + capacity - 1) / capacity)

/-- The calls to the Writer of the commit with the number `call`, if its record takes up the addresses
from `start` up to `stop` in a log that comes to hold these bytes. A record in one slot is written with
its slot. Any other record is written in three parts: the head with its slot, which it fills up, then the
whole slots in the middle, past the ring, and then the tail with its slot. -/
def planned (capacity : Nat) (content : Bytes) (call : Nat) (hint : Int32) (start stop : Nat) :
    List Write :=
  if start / capacity = (stop - 1) / capacity then
    [.range content call hint (.slot (if stop % capacity = 0 then .full else .early))
      (slotBase capacity start) stop]
  else
    (if start % capacity = 0 then []
      else [.range content call hint (.slot .full) (slotBase capacity start)
        (slotBase capacity start + capacity)]) ++
    (if slotBase capacity stop ≤ slotCeil capacity start then []
      else [.range content call hint .direct (slotCeil capacity start) (slotBase capacity stop)]) ++
    (if stop % capacity = 0 then []
      else [.range content call hint (.slot .early) (slotBase capacity (stop - 1)) stop])

example : (planned 16 (Bytes.zeros 64) 0 7 10 50).map (fun w => (w.source, w.address, w.data.length)) =
    [(.slot .full, 0, 16), (.direct, 16, 32), (.slot .early, 48, 2)] := by decide

section Entry

variable {g : Geometry} {head : Nat} {record : Bytes} {hint : Int32} {e : Entry}

/-- A record that is cut keeps its span and its hint. -/
theorem CutInto.spanOf (h : CutInto g head record hint e) (hC : g.capacity ≤ Word.limit)
    (h_pos : 0 < record.length) (h_fit : head + record.length < Word.limit) :
    SpanOf g head record.length e.span ∧ e.hint = hint := by
  obtain ⟨s, h_span, hs⟩ := Geometry.exists_spanOf hC h_pos h_fit
  rw [CutInto, h_span] at h
  change Entry.ofRecord s record hint = .ok e at h
  -- the parts of a record all come from its one span
  cases h_single : s.isSingleSlot with
  | true =>
    rw [Entry.ofRecord, if_pos h_single] at h
    cases h
    exact ⟨hs, rfl⟩
  | false =>
    obtain ⟨m, h_middle, h_parts⟩ := hs.middle h_single
    cases h.symm.trans (ofRecord_spanning hs h_single h_middle h_parts)
    exact ⟨hs, rfl⟩

/-- From within a slot on, the next one begins where this one ends. -/
theorem slotCeil_of_offset {capacity a : Nat} (h_pos : 0 < capacity) (h_some : a % capacity ≠ 0) :
    slotCeil capacity a = slotBase capacity a + capacity := by
  have h_div := Nat.div_add_mod' a capacity
  have h_lt := Nat.mod_lt a h_pos
  have h_ceil : (a + capacity - 1) / capacity = a / capacity + 1 := by
    apply Nat.div_eq_of_lt_le <;> simp only [Nat.add_mul, Nat.one_mul] <;> omega
  rw [slotCeil, slotBase, h_ceil, Nat.mul_succ]

/-- A slot that begins with an address is the first one from there on. -/
theorem slotCeil_of_aligned {capacity a : Nat} (h_pos : 0 < capacity) (h_none : a % capacity = 0) :
    slotCeil capacity a = a := by
  have h_div := Nat.div_add_mod' a capacity
  have h_ceil : (a + capacity - 1) / capacity = a / capacity := by
    apply Nat.div_eq_of_lt_le
    · omega
    · rw [Nat.add_mul]
      omega
  rw [slotCeil, h_ceil, Nat.mul_comm]
  omega

/-- The head of a span reaches to the next slot. -/
theorem head_add_headLength {s : Span} (h : SpanOf g head record.length s) :
    head + s.headLength = slotCeil g.capacity head := by
  have h_div := Nat.div_add_mod head g.capacity
  have h_lt := Nat.mod_lt head g.capacity_pos
  rw [Span.headLength, h.headOffset_eq, h.capacity_eq]
  split
  · next h_some =>
    rw [slotCeil_of_offset g.capacity_pos (Nat.ne_of_gt h_some), slotBase]
    omega
  · next h_none =>
    have h_zero : head % g.capacity = 0 := by omega
    rw [Nat.add_zero, slotCeil_of_aligned g.capacity_pos h_zero]

/-- A span has no head iff it begins with a slot. -/
theorem headLength_eq_zero_iff {s : Span} (h : SpanOf g head record.length s) :
    s.headLength = 0 ↔ head % g.capacity = 0 := by
  have h_lt := Nat.mod_lt head g.capacity_pos
  rw [Span.headLength, h.headOffset_eq, h.capacity_eq]
  split <;> omega

/-- Where the middle of a record begins and ends. -/
theorem middle_bounds (h : SpanOf g head record.length e.span) (h_cut : Cut g e record)
    (h_spanning : e.span.isSingleSlot = false) : e.middle.start = slotCeil g.capacity head ∧
      e.middle.stop = slotBase g.capacity (head + record.length) := by
  constructor
  · rw [← head_add_headLength h, ← h_cut.head_stop h_spanning, regionStop, h_cut.first, h.head_eq,
      ← h_cut.head_length h_spanning]
    rfl
  · have h_pos := h.nonempty
    obtain ⟨h_in, h_out⟩ := g.end_block (head + record.length) (by omega)
    have h_tail := h.tailLength_eq
    by_cases h_none : e.span.tailLength = 0
    · -- the record ends with the middle
      rw [h_cut.no_tail h_spanning h_none, entryStop, h.head_eq, h.total_eq, slotBase]
      have := Nat.div_add_mod (head + record.length) g.capacity
      omega
    · obtain ⟨h_start, -⟩ := h_cut.tail_start ⟨h_spanning, Nat.pos_of_ne_zero h_none⟩
      rw [← h_start, slotBase]
      show e.span.tailTag + 0 = _
      rw [h.tailTag_eq]
      have := h_in (by omega)
      omega

/-- What a portion plans is the flush of its range, full if it ends the slot. -/
theorem Plan.portion_eq {x : Plan} {p : Portion} {start stop : Nat} (h_tag : portionTag e p = start)
    (h_stop : regionStop e p = stop) : x.portion e p = .range x.content x.call e.hint
      (.slot (if stop % x.geometry.capacity = 0 then .full else .early)) start stop := by
  rw [Plan.portion, h_tag, h_stop, if_congr Nat.dvd_iff_mod_eq_zero rfl rfl]

section Plan

variable {x : Plan} (h : SpanOf x.geometry head record.length e.span) (h_cut : Cut x.geometry e record)

include h h_cut

/-- A record within one slot is written with that slot. -/
theorem Plan.portion_whole (h_single : e.span.isSingleSlot = true) : x.portion e .whole =
    .range x.content x.call e.hint
      (.slot (if (head + record.length) % x.geometry.capacity = 0 then .full else .early))
      (slotBase x.geometry.capacity head) (head + record.length) := by
  have h_tag : portionTag e .whole = slotBase x.geometry.capacity head := h.headTag_eq
  refine Plan.portion_eq h_tag ((h_cut.single h_single).1.trans ?_)
  rw [entryStop, h.head_eq, h.total_eq]

/-- The head of a record is written with its slot, which it fills up. -/
theorem Plan.portion_head (h_spanning : e.span.isSingleSlot = false)
    (h_some : head % x.geometry.capacity ≠ 0) : x.portion e .head =
      .range x.content x.call e.hint (.slot .full) (slotBase x.geometry.capacity head)
        (slotBase x.geometry.capacity head + x.geometry.capacity) := by
  have h_tag : portionTag e .head = slotBase x.geometry.capacity head := h.headTag_eq
  have h_stop : regionStop e .head = slotBase x.geometry.capacity head + x.geometry.capacity :=
    calc regionStop e .head = e.middle.start := h_cut.head_stop h_spanning
      _ = slotCeil x.geometry.capacity head := (middle_bounds h h_cut h_spanning).1
      _ = _ := slotCeil_of_offset x.geometry.capacity_pos h_some
  have h_full : (slotBase x.geometry.capacity head + x.geometry.capacity) % x.geometry.capacity = 0 := by
    rw [Nat.add_mod_right, slotBase, Nat.mul_mod_right]
  rw [Plan.portion_eq h_tag h_stop, if_pos h_full]

/-- The tail of a record is written with its slot, which it leaves open. -/
theorem Plan.portion_tail (h_spanning : e.span.isSingleSlot = false)
    (h_some : (head + record.length) % x.geometry.capacity ≠ 0) : x.portion e .tail =
      .range x.content x.call e.hint (.slot .early)
        (slotBase x.geometry.capacity (head + record.length - 1)) (head + record.length) := by
  have h_tag : portionTag e .tail = slotBase x.geometry.capacity (head + record.length - 1) :=
    h.tailTag_eq
  have h_has : Has e .tail := ⟨h_spanning, h.tailLength_eq ▸ Nat.pos_of_ne_zero h_some⟩
  have h_stop : regionStop e .tail = head + record.length := by
    rw [(h_cut.tail_start h_has).2, entryStop, h.head_eq, h.total_eq]
  rw [Plan.portion_eq h_tag h_stop, if_neg h_some]

/-- **The plan of a record in closed form.** -/
theorem entry_eq_planned : x.entry e =
    planned x.geometry.capacity x.content x.call e.hint head (head + record.length) := by
  unfold Plan.entry planned
  cases h_single : e.span.isSingleSlot with
  | true =>
    rw [if_pos rfl, if_pos (h.isSingleSlot_iff.1 h_single), Plan.portion_whole h h_cut h_single]
  | false =>
    obtain ⟨h_start, h_end⟩ := middle_bounds h h_cut h_single
    rw [if_neg (by decide), if_neg fun h_eq => by simp [h.isSingleSlot_iff.2 h_eq] at h_single,
      Plan.head_eq]
    congr 1
    congr 1
    · -- the head
      refine ite_congr (propext (headLength_eq_zero_iff h)) (fun _ => rfl) fun h_some => ?_
      rw [Plan.portion_head h h_cut h_single h_some]
    · -- the middle
      rw [Plan.direct, Extent.isEmpty, h_start, h_end]
      simp only [decide_eq_true_eq]
    · -- the tail
      rw [Plan.tail, h.tailLength_eq]
      refine ite_congr rfl (fun _ => rfl) fun h_some => ?_
      rw [Plan.portion_tail h h_cut h_single h_some]

end Plan

end Entry

/-! ### Commits -/

/-- What a commit is asked for with. -/
structure Commit where
  timestamp : UInt64
  payload : Bytes
  hint : Int32
  deriving DecidableEq, Repr

namespace Commit

/-- The task that the commit begins with. -/
def task (c : Commit) : Task := .commit c.timestamp c.payload c.hint

/-- The record of the commit. There is none if it cannot be encoded. -/
def record (format : Record.Format) (c : Commit) : Bytes :=
  match format.encode c.timestamp c.payload with
  | .ok record => record
  | .error _ => []

variable {format : Record.Format} {c : Commit}

/-- The record of a commit is its encoding, which is not empty. -/
theorem record_of_ok {record : Bytes} (h : format.encode c.timestamp c.payload = .ok record) :
    c.record format = record ∧ c.record format ≠ [] := by
  have h_eq : c.record format = record := by rw [Commit.record, h]
  exact ⟨h_eq, h_eq ▸ List.ne_nil_of_length_pos (Record.Format.length_pos_of_encode h)⟩

/-- A commit that cannot be encoded has no record. -/
theorem record_of_error {broken : Fault} (h : format.encode c.timestamp c.payload = .error broken) :
    c.record format = [] := by
  rw [Commit.record, h]

/-- The calls to the Writer of the commit with the number `call`, if its record begins at `start`. -/
def writes (format : Record.Format) (capacity : Nat) (content : Bytes) (call start : Nat) (c : Commit) :
    List Write :=
  if c.record format = [] then []
  else planned capacity content call c.hint start (start + (c.record format).length)

end Commit

/-- The records of commits, one after another. -/
def records (format : Record.Format) (commits : List Commit) : Bytes :=
  commits.flatMap (Commit.record format)

/-- The calls to the Writer of commits that are made one after another, of which the first one has the
number `call` and its record begins at `start`. -/
def traceFrom (format : Record.Format) (capacity : Nat) (content : Bytes) :
    Nat → Nat → List Commit → List Write
  | _, _, [] => []
  | call, start, c :: rest => c.writes format capacity content call start ++
      traceFrom format capacity content (call + 1) (start + (c.record format).length) rest

/-- **The calls to the Writer** of commits that are made one after another in a log whose slots have this
capacity. How many slots there are makes no difference. -/
def trace (format : Record.Format) (capacity : Nat) (commits : List Commit) : List Write :=
  traceFrom format capacity (records format commits) 0 0 commits

section Trace

variable {format : Record.Format} {capacity : Nat} {content : Bytes}

theorem records_concat (commits : List Commit) (c : Commit) :
    records format (commits ++ [c]) = records format commits ++ c.record format := by
  rw [records, List.flatMap_append, List.flatMap_cons, List.flatMap_nil, List.append_nil]
  rfl

/-- The last commit writes from where the records before it end. -/
theorem traceFrom_concat (call start : Nat) (commits : List Commit) (c : Commit) :
    traceFrom format capacity content call start (commits ++ [c]) =
      traceFrom format capacity content call start commits ++
        c.writes format capacity content (call + commits.length)
          (start + (records format commits).length) := by
  induction commits generalizing call start with
  | nil => exact List.append_nil _
  | cons c' rest ih =>
    rw [List.cons_append, traceFrom, ih, traceFrom, List.append_assoc, records, records,
      List.flatMap_cons, List.length_append, List.length_cons]
    congr 3 <;> omega

end Trace

/-! ### Runs of commits that are made one after another -/

variable {W : Type} [Writer W] {r r' : Run W} {commits : List Commit} {c : Commit} {i : Nat}

/-- The run makes these commits, each of them when the one before has returned. All have returned, no
call to the Writer has failed, and there is room in the address space. -/
structure Run.Executes (r : Run W) (commits : List Commit) : Prop where
  starts : r.starts = commits.map Commit.task
  sequential : r.Sequential
  returned : ∀ i, ¬ r.Pending i
  succeeded : ¬ r.journal.Failed
  fits : r.Fits

/-- What is left of a commit that has returned. -/
inductive Run.Committed (r : Run W) (content : Bytes) (i : Nat) (c : Commit) : Prop
  | placed {head : Nat} {record : Bytes}
      (h_encode : r.log.format.encode c.timestamp c.payload = .ok record)
      (h_mem : ⟨i, head, record⟩ ∈ r.journal.reservations)
      (h_result : r.machine.calls[i]? = some (.finished (.ok (.appended head))))
      (h_writes : r.journal.writes.filter (·.call = i) =
        planned r.log.geometry.capacity content i c.hint head (head + record.length))
  /-- The record cannot be encoded, and nothing is written. -/
  | unencoded {broken : Fault} (h_encode : r.log.format.encode c.timestamp c.payload = .error broken)
      (h_none : ∀ res ∈ r.journal.reservations, res.call ≠ i)
      (h_writes : r.journal.writes.filter (·.call = i) = [])

namespace Run

/-- The plan of a commit in closed form. -/
theorem Enters.plan_eq {e : Entry} (h : r.Enters i e) (h_fits : r.Fits) (content : Bytes)
    (h_start : r.starts[i]? = some c.task) : ∃ record,
      r.log.format.encode c.timestamp c.payload = .ok record ∧
      ⟨i, e.span.head, record⟩ ∈ r.journal.reservations ∧ (r.plan content i).entry e =
        planned r.log.geometry.capacity content i c.hint e.span.head (e.span.head + record.length) := by
  obtain ⟨P, hm, -⟩ := r.exists_matches h_fits r.within_all
  obtain ⟨record₁, h_mem₁, h_cut₁⟩ := h.cut hm
  obtain ⟨timestamp, payload, hint, record, h_start', h_encode, h_mem, h_cut⟩ := h
  cases h_start.symm.trans h_start'
  rw [← Journal.mem_reservations] at h_mem h_mem₁
  -- the call has one reservation, so both records are the same
  have h_same := eq_of_call h_fits h_mem h_mem₁ rfl
  have h_record : record = record₁ := congrArg Reservation.record h_same
  subst h_record
  have h_layout := hm.inv.account.layout
  have h_room := h_layout.room
  have h_gap := Nat.le_mul_of_pos_right r.log.geometry.capacity r.log.geometry.ringSize_pos
  have h_le : e.span.head + record.length ≤ 0 + _ := h_layout.tiles.stop_le (hm.journal ▸ h_mem)
  -- the log and the ring behind it fit the address space
  obtain ⟨h_span, h_hint⟩ := h_cut.spanOf (by omega) (Record.Format.length_pos_of_encode h_encode)
    (by omega)
  refine ⟨record, h_encode, h_mem, ?_⟩
  rw [← h_hint]
  exact entry_eq_planned (x := r.plan content i) h_span h_cut₁

/-- If all that is noted from some moment on is about one call, its record is the only one that is reserved
from then on, and lies behind all others. -/
theorem reservations_eq {J K : Journal} {res : Reservation} (h_fits : r.Fits)
    (h_journal : r.journal = J ++ K) (h_calls : ∀ n ∈ K, n.call = i) (h_mem : res ∈ K.reservations) :
    K.reservations = [res] ∧ res.head = J.content.length := by
  obtain ⟨P, hm, -⟩ := r.exists_matches h_fits r.within_all
  have h_layout := hm.inv.account.layout
  rw [hm.journal, h_journal, Journal.reservations_append] at h_layout
  have h_nodup : K.reservations.Nodup :=
    (List.Nodup.of_map _ h_layout.nodup).sublist (List.sublist_append_right _ _)
  -- all notes of the last part are of one call, which reserves once
  have h_unique : ∀ res' ∈ K.reservations, res' = res := fun res' h_mem' =>
    h_layout.eq_of_call (List.mem_append_right _ h_mem') (List.mem_append_right _ h_mem)
      ((h_calls _ (Journal.mem_reservations.1 h_mem')).trans
        (h_calls _ (Journal.mem_reservations.1 h_mem)).symm)
  have h_single : K.reservations = [res] := by
    refine List.perm_singleton.1 ((List.perm_ext_iff_of_nodup h_nodup (List.nodup_singleton _)).2 ?_)
    exact fun res' => ⟨fun h' => List.mem_singleton.2 (h_unique _ h'), fun h' =>
      List.mem_singleton.1 h' ▸ h_mem⟩
  refine ⟨h_single, ?_⟩
  -- and the reservation comes after those before, where the content ends
  have h_tiles := h_layout.tiles
  rw [h_single] at h_tiles
  exact h_tiles.head_concat.trans (Nat.zero_add _)

namespace Executes

variable (h : r.Executes commits)

include h

/-- Nothing fails in an execution, and nobody asks for a poisoning. -/
theorem clean : r.Clean := by
  refine ⟨h.succeeded, ?_⟩
  rintro ⟨start, h_mem, reason, rfl⟩
  have h_start : .poison reason (.ok .poisoned) ∈ r.starts :=
    List.mem_flatMap.2 ⟨_, h_mem, List.mem_singleton_self _⟩
  rw [h.starts] at h_start
  obtain ⟨c, -, h_eq⟩ := List.mem_map.1 h_start
  cases h_eq

/-- **Every commit has returned**, and has made the calls to the Writer that were planned. -/
theorem committed {content : Bytes} (h_grows : r.journal.content <+: content)
    (hi : commits[i]? = some c) : r.Committed content i c := by
  have h_start : r.starts[i]? = some c.task := by rw [h.starts, List.getElem?_map, hi]; rfl
  obtain ⟨P, hm, h_unfailed⟩ := h.clean.exists_matches h.fits
  obtain ⟨h_lt, -⟩ := List.getElem?_eq_some_iff.1 h_start
  rw [r.starts_length] at h_lt
  have hi' := List.getElem?_eq_getElem h_lt
  -- the call is not pending, so it has returned
  obtain ⟨result, h_result⟩ : ∃ result, r.machine.calls[i] = .finished result := by
    by_contra h_open
    rw [not_exists] at h_open
    exact h.returned i ⟨_, hi', h_open⟩
  rw [h_result] at hi'
  obtain ⟨start, v, h_start', hv, h_stands⟩ := hm.exists_view hi'
  cases h_start.symm.trans h_start'
  have h_view := hm.inv.call i v hv
  cases h_stands with
  | @appended w h_done =>
    obtain ⟨record, h_mem, -⟩ := WorkInv.cut h_view
    rw [hm.journal, ← Journal.mem_reservations] at h_mem
    -- it has entered the ring with its reservation and has made the calls of its plan
    obtain ⟨e, h_enters, h_head⟩ := r.exists_enters h.fits h_mem
    obtain ⟨record', h_encode, h_mem', h_plan⟩ := h_enters.plan_eq h.fits content h_start
    have h_writes := h.sequential.onPlan h.fits h.clean h_grows i _ e hi' h_enters
    rw [h_plan] at h_writes
    refine .placed h_encode h_mem' (h_head ▸ hi') ((List.append_nil _).symm.trans h_writes)
  | turnedAway =>
    -- nobody is turned away as long as nothing fails
    rcases r.unharmed h.fits with (⟨j, error, w, -, h_mem⟩ | h_poisons) | h_unharmed
    · exact absurd ⟨w, _, h_mem⟩ h.succeeded
    · exact absurd h_poisons h.clean.unpoisoned
    · exact absurd (.finished _) (h_unharmed.unrefused i _ hi')
  | unencoded h_eq h_encode =>
    cases h_eq
    have h_none : ∀ res ∈ r.journal.reservations, res.call ≠ i := hm.journal ▸ h_view
    refine .unencoded h_encode h_none (r.writes_eq_nil h.fits fun e h_enters => ?_)
    obtain ⟨record, -, h_mem, -⟩ := h_enters.place h.fits
    exact h_none _ h_mem rfl
  | stopped => exact absurd h_view h_unfailed
  | crashed => exact absurd h_view h_unfailed

omit h in
/-- A run begins with the run of all commits but the last one. -/
theorem exists_before (h : r.Executes (commits ++ [c])) : ∃ r₁ : Run W, r₁.Before r ∧
    r₁.Executes commits ∧ ∃ K, r.journal = r₁.journal ++ K ∧ ∀ n ∈ K, n.call = commits.length := by
  have h_starts := h.starts
  rw [List.map_append] at h_starts
  -- the run up to the last commit, when all the others have returned
  obtain ⟨r₁, r₂, h_next, h_before, h_starts₁⟩ := r.exists_last_call _ _ h_starts
  have h_before₁ := h_next.before.trans h_before
  have h_done := h.sequential r₁ _ r₂ h_next h_before
  have h_length : r₁.machine.calls.length = commits.length := by
    rw [← r₁.starts_length, h_starts₁, List.length_map]
  refine ⟨r₁, h_before₁, ⟨h_starts₁, h_before₁.sequential h.sequential, h_done,
    (h_before₁.clean h.clean).succeeded, h_before₁.fits h.fits⟩, ?_⟩
  obtain ⟨K, h_journal, h_calls⟩ := h_before₁.call_eq h_done (by
    rw [h_length, ← r.starts_length, h.starts, List.length_map, List.length_append,
      List.length_singleton])
  exact ⟨K, h_journal, fun n hn => h_length ▸ h_calls n hn⟩

omit h in
/-- What is noted of the last commit: its calls to the Writer, and its record, which lies behind all
others. -/
theorem last {r₁ : Run W} {K : Journal} {content : Bytes} (h : r.Executes (commits ++ [c]))
    (h₁ : r₁.Executes commits) (h_journal : r.journal = r₁.journal ++ K)
    (h_calls : ∀ n ∈ K, n.call = commits.length) (h_grows : r.journal.content <+: content) :
    K.writes = c.writes r.log.format r.log.geometry.capacity content commits.length
        r₁.journal.content.length ∧
      K.content = c.record r.log.format ∧
      ∀ record, r.log.format.encode c.timestamp c.payload = .ok record →
        ⟨commits.length, r₁.journal.content.length, record⟩ ∈ K.reservations := by
  -- the notes of before are on earlier commits, so the last one has just the new notes
  have h_lt : ∀ n ∈ r₁.journal, n.call ≠ commits.length := fun n hn => by
    have h_lt := r₁.call_lt n hn
    rw [← r₁.starts_length, h₁.starts, List.length_map] at h_lt
    exact h_lt.ne
  have h_writes_eq : r.journal.writes.filter (·.call = commits.length) = K.writes := by
    rw [h_journal, Journal.writes_append, List.filter_append, (filter_call_of_ne h_lt).1,
      List.nil_append, List.filter_eq_self]
    exact fun w hw => decide_eq_true (h_calls _ (Journal.mem_writes.1 hw))
  rw [← h_writes_eq, Commit.writes]
  cases h.committed h_grows List.getElem?_concat_length with
  | @placed head record h_encode h_mem h_result h_writes =>
    have h_mem_K : ⟨commits.length, head, record⟩ ∈ K.reservations := by
      rw [h_journal, Journal.reservations_append, List.mem_append] at h_mem
      exact h_mem.resolve_left fun h_old => h_lt _ (Journal.mem_reservations.1 h_old) rfl
    obtain ⟨h_single, h_head⟩ := reservations_eq h.fits h_journal h_calls h_mem_K
    obtain ⟨h_record, h_some⟩ := Commit.record_of_ok h_encode
    rw [if_neg h_some, h_record, h_writes, ← h_head, Journal.content, h_single]
    refine ⟨rfl, List.append_nil _, fun record' h_encode' => ?_⟩
    cases h_encode.symm.trans h_encode'
    exact List.mem_singleton_self _
  | unencoded h_encode h_none h_writes =>
    -- a commit that is not encoded reserves nothing and writes nothing
    have h_nothing : K.reservations = [] := by
      refine List.eq_nil_iff_forall_not_mem.2 fun res h_res => h_none res ?_ ?_
      · rw [h_journal, Journal.reservations_append]
        exact List.mem_append_right _ h_res
      · exact h_calls _ (Journal.mem_reservations.1 h_res)
    have h_record := Commit.record_of_error h_encode
    rw [if_pos h_record, h_record, Journal.content, h_nothing]
    exact ⟨h_writes, rfl, fun record h_encode' => by cases h_encode.symm.trans h_encode'⟩

omit h in
/-- **All commits together**: what they write, and what is reserved for them. -/
theorem writes_eq : ∀ {commits : List Commit} {r : Run W} {content : Bytes}, r.Executes commits →
    r.journal.content <+: content →
    r.journal.writes =
      traceFrom r.log.format r.log.geometry.capacity content 0 0 commits ∧
      r.journal.content = records r.log.format commits := by
  intro commits
  -- by induction on the commits, from the last one on
  induction commits using List.reverseRecOn with
  | nil =>
    intro r content h h_grows
    have h_none : r.journal = [] := by
      refine List.eq_nil_iff_forall_not_mem.2 fun n hn => ?_
      have h_lt := r.call_lt n hn
      rw [← r.starts_length, h.starts] at h_lt
      exact Nat.not_lt_zero _ h_lt
    rw [h_none]
    exact ⟨rfl, rfl⟩
  | append_singleton commits c ih =>
    intro r content h h_grows
    obtain ⟨r₁, h_before, h₁, K, h_journal, h_calls⟩ := h.exists_before
    obtain ⟨h_writes₁, h_content₁⟩ := ih h₁ (h_before.content_grows.trans h_grows)
    obtain ⟨h_writes, h_content, -⟩ := h.last h₁ h_journal h_calls h_grows
    rw [h_before.log] at h_writes₁ h_content₁
    rw [h_content₁] at h_writes
    rw [h_journal, Journal.writes_append, Journal.content_append, h_writes₁, h_writes, h_content₁,
      h_content, traceFrom_concat, records_concat, Nat.zero_add, Nat.zero_add]
    exact ⟨rfl, rfl⟩

omit h in
/-- Each record lies behind those of the commits before. -/
theorem reserved : ∀ {commits : List Commit} {r : Run W}, r.Executes commits →
    ∀ before c after record, commits = before ++ c :: after →
      r.log.format.encode c.timestamp c.payload = .ok record →
      ⟨before.length, (records r.log.format before).length, record⟩ ∈ r.journal.reservations := by
  intro commits
  -- on the commits, since each is reserved behind those before it
  induction commits using List.reverseRecOn with
  | nil =>
    intro r h before c after record h_eq
    exact absurd h_eq.symm (List.append_ne_nil_of_right_ne_nil _ (List.cons_ne_nil _ _))
  | append_singleton commits c ih =>
    intro r h before c' after record h_eq h_encode
    obtain ⟨r₁, h_before, h₁, K, h_journal, h_calls⟩ := h.exists_before
    rw [h_journal, Journal.reservations_append]
    rcases after.eq_nil_or_concat with rfl | ⟨after, c'', rfl⟩
    · -- the last commit
      obtain ⟨rfl, h_last⟩ := List.append_inj' h_eq rfl
      cases h_last
      obtain ⟨-, -, h_mem⟩ := h.last h₁ h_journal h_calls List.prefix_rfl
      have h_content := (h₁.writes_eq List.prefix_rfl).2
      rw [h_before.log] at h_content
      rw [← h_content]
      exact List.mem_append_right _ (h_mem record h_encode)
    · rw [List.concat_eq_append, ← List.cons_append, ← List.append_assoc] at h_eq
      obtain ⟨h_eq, -⟩ := List.append_inj' h_eq rfl
      rw [← h_before.log] at h_encode ⊢
      exact List.mem_append_left _ (ih h₁ before c' after record h_eq h_encode)

end Executes

end Run

/-! ### What is written -/

/-- What is known of a run that makes commits one after another. -/
structure Traced (format : Record.Format) (capacity : Nat) (commits : List Commit) (r : Run W) : Prop where
  /-- All calls to the Writer, in order. -/
  writes : r.journal.writes = trace format capacity commits
  /-- A commit is given the addresses behind all earlier records, so that the log has all of its bytes, and
  these are the calls that it makes. -/
  commit : ∀ before c after record, commits = before ++ c :: after →
    format.encode c.timestamp c.payload = .ok record →
    format.totalLength c.payload.length = .ok record.length ∧
      (records format before).length + record.length ≤ (records format commits).length ∧
      r.machine.calls[before.length]? =
        some (.finished (.ok (.appended (records format before).length))) ∧
      r.journal.writes.filter (·.call = before.length) =
        planned capacity (records format commits) before.length c.hint (records format before).length
          ((records format before).length + record.length)
  /-- The calls are counted by what they are for. -/
  fullFlushes : r.machine.state.stats.fullFlushes =
    (trace format capacity commits).countP (·.source = .slot .full)
  earlyFlushes : r.machine.state.stats.earlyFlushes =
    (trace format capacity commits).countP (·.source = .slot .early)
  directWrites : r.machine.state.stats.directWrites =
    (trace format capacity commits).countP (·.source = .direct)

/-- A call that has returned waits for nothing. -/
theorem Run.pending_eq_none (h : ¬ r.Pending i) : r.pending i = none := by
  rw [Run.pending]
  cases hi : r.machine.calls[i]? with
  | none => rfl
  | some status =>
    cases status with
    | finished result => rfl
    | _ => exact absurd ⟨_, hi, by rintro result ⟨⟩⟩ h

/-- **Every run that makes commits one after another** writes what is planned. -/
theorem Run.Executes.traced (h : r.Executes commits) :
    Traced r.config.recordFormat r.config.slotCapacity commits r := by
  -- the reserved records are the planned ones, one after another
  have h_content := (h.writes_eq List.prefix_rfl).2
  have h_grows : r.journal.content <+: records r.log.format commits := by rw [h_content]
  have h_writes := (h.writes_eq h_grows).1
  rw [← r.format_eq, ← r.capacity_eq]
  have h_counts := r.counts h.fits
  -- the calls that succeeded are the ones that were made, in some order
  have h_perm := r.successes_perm h.succeeded fun i => Run.pending_eq_none (h.returned i)
  rw [h_writes] at h_perm
  refine ⟨h_writes, fun before c after record h_eq h_encode => ?_, ?_, ?_, ?_⟩
  · have h_mem := h.reserved before c after record h_eq h_encode
    have hi : commits[before.length]? = some c := by
      rw [h_eq, List.getElem?_append_right le_rfl, Nat.sub_self]
      rfl
    cases h.committed h_grows hi with
    | @placed head record' h_encode' h_mem' h_result h_own =>
      have h_head : (records r.log.format before).length = head :=
        congrArg Reservation.head (Run.eq_of_call h.fits h_mem h_mem' rfl)
      cases h_encode.symm.trans h_encode'
      refine ⟨Record.Format.totalLength_of_encode h_encode, ?_, h_head ▸ h_result, h_head ▸ h_own⟩
      rw [h_eq, records, records, List.flatMap_append, List.flatMap_cons, List.length_append,
        List.length_append, (Commit.record_of_ok h_encode).1]
      omega
    | unencoded h_encode' => cases h_encode.symm.trans h_encode'
  · rw [h_counts.fullFlushes, h_perm.countP_eq]
    rfl
  · rw [h_counts.earlyFlushes, h_perm.countP_eq]
    rfl
  · rw [h_counts.directWrites, h_perm.countP_eq]
    rfl

/-! ### That the commits return -/

section Existence

variable {config : Config} {writer : W} {log : Log W} {limit : Nat}

/-- A log that has just been created, before any commit. -/
theorem Run.exists_calm (h_created : Log.create config writer = .ok log)
    (h_writer : Succeeds limit writer)
    (h_limit : limit + config.slotCapacity * config.ringSize < Word.limit) :
    ∃ r : Run W, r.log = log ∧ r.config = config ∧ r.Calm limit ∧ (∀ i, ¬ r.Pending i) ∧
      r.starts = [] := by
  -- nothing has happened yet
  let r : Run W := {
    config, writer, log
    created := h_created
    events := []
    calls := fun _ h => by cases h
    machine := Machine.idle log
    reached := rfl }
  have h_calm : r.Calm limit := {
    sequential := fun r₁ start r₂ h_next h_before => by
      have h_nil := List.prefix_nil.1 h_before.events
      rw [h_next.events] at h_nil
      exact absurd h_nil (List.append_ne_nil_of_right_ne_nil _ (List.cons_ne_nil _ _))
    clean := ⟨fun ⟨_, _, h⟩ => (by cases h), fun ⟨_, h, _⟩ => (by cases h)⟩
    writer := (create_ok h_created).writer_eq.symm ▸ h_writer
    content_le := Nat.zero_le _
    limit_lt := h_limit }
  refine ⟨r, rfl, rfl, h_calm, ?_, rfl⟩
  rintro i ⟨status, hi, -⟩
  cases hi

/-- **Commits that are made one after another return.** -/
theorem Run.exists_executes (h_created : Log.create config writer = .ok log) (commits : List Commit)
    (h_room : (records config.recordFormat commits).length +
      config.slotCapacity * config.ringSize < Word.limit)
    (h_writer : Succeeds (records config.recordFormat commits).length writer) :
    ∃ r : Run W, r.log = log ∧ r.Executes commits := by
  suffices h : ∀ made, (records config.recordFormat made).length ≤
      (records config.recordFormat commits).length → ∃ r : Run W, r.log = log ∧ r.config = config ∧
        r.Calm (records config.recordFormat commits).length ∧ r.Executes made by
    obtain ⟨r, h_log, -, -, h_executes⟩ := h commits le_rfl
    exact ⟨r, h_log, h_executes⟩
  intro made
  -- one commit after another
  induction made using List.reverseRecOn with
  | nil =>
    intro h_le
    obtain ⟨r, h_log, h_config, h_calm, h_done, h_starts⟩ :=
      Run.exists_calm h_created h_writer h_room
    exact ⟨r, h_log, h_config, h_calm,
      ⟨h_starts, h_calm.sequential, h_done, h_calm.clean.succeeded, h_calm.fits⟩⟩
  | append_singleton made c ih =>
    intro h_le
    rw [records_concat, List.length_append] at h_le
    obtain ⟨r, h_log, h_config, h_calm, h_executes⟩ := ih ((Nat.le_add_right _ _).trans h_le)
    have h_format : r.log.format = config.recordFormat := by rw [r.format_eq, h_config]
    have h_content := (h_executes.writes_eq List.prefix_rfl).2
    rw [h_format] at h_content
    obtain ⟨r', h_before, h_calm', h_done, h_starts⟩ :=
      h_calm.exists_committed h_executes.returned c.timestamp c.payload c.hint (by
        intro record h_encode
        rw [h_format] at h_encode
        rw [h_content, ← (Commit.record_of_ok h_encode).1]
        exact h_le)
    -- the run with one commit more executes the commits with this one behind them
    refine ⟨r', h_before.log ▸ h_log, h_before.config_eq ▸ h_config, h_calm', ?_,
      h_calm'.sequential, h_done, h_calm'.clean.succeeded, h_calm'.fits⟩
    rw [h_starts, h_executes.starts, List.map_append]
    rfl

end Existence

/-- **The exact trace of sequential commits.** Commits that are made one after another make just the
calls to the Writer that are planned for them, each of them in its place and with its hint, and are
counted so: in every run, whatever the ring and the Writer are, if no call to the Writer fails. The
number of slots makes no difference. And on every log that is created, over a Writer that goes on with
every call, there is such a run: the commits return, when their deadlines pass. -/
theorem trace_exact :
    (∀ (W : Type) [Writer W] (r : Run W) (commits : List Commit), r.Executes commits →
      Traced r.config.recordFormat r.config.slotCapacity commits r) ∧
    (∀ (V W : Type) [Writer V] [Writer W] (r : Run V) (r' : Run W) (commits : List Commit),
      r.config.slotCapacity = r'.config.slotCapacity → r.config.recordFormat = r'.config.recordFormat →
      r.Executes commits → r'.Executes commits → r.journal.writes = r'.journal.writes) ∧
    ∀ (W : Type) [Writer W] (config : Config) (writer : W) (log : Log W) (commits : List Commit),
      Log.create config writer = .ok log →
      (records config.recordFormat commits).length + config.slotCapacity * config.ringSize <
        Word.limit →
      Succeeds (records config.recordFormat commits).length writer →
      ∃ r : Run W, r.log = log ∧ r.Executes commits := by
  refine ⟨fun W _ r commits h => h.traced, ?_, ?_⟩
  · intro V W _ _ r r' commits h_capacity h_format h h'
    -- the trace depends on the capacity, the format and the commits, and not on the ring
    rw [h.traced.writes, h'.traced.writes, h_capacity, h_format]
  · exact fun W _ config writer log commits h_created h_room h_writer =>
      Run.exists_executes h_created commits h_room h_writer

/-! ### Two rings -/

/-- A Writer to memory goes on with every call, unless it was told to fail. -/
theorem succeeds_memory {limit : Nat} (h_limit : limit < Word.allocationLimit) {writer : MemoryWriter}
    (h_writer : writer.failAfter = none) : Succeeds limit writer := by
  refine ⟨fun w => w.failAfter = none, h_writer, fun w data address hint h_good h_le => ?_⟩
  have h_exhausted : w.exhausted = false := by rw [MemoryWriter.exhausted, h_good]
  have h_lt : address + data.length < Word.allocationLimit := h_le.trans_lt h_limit
  have h_limits : Word.allocationLimit < Word.limit := by decide
  have h_stop : Word.add address data.length = .ok (address + data.length) := by
    rw [Word.add, if_pos (h_lt.trans h_limits)]
  have h_room : Word.allocate (address + data.length) = .ok () := by rw [Word.allocate, if_pos h_lt]
  -- the image can be made as large as the call needs it
  have h_grow : w.grow address data.length = .ok () := by
    rw [MemoryWriter.grow, h_stop]
    show (if w.image.size < address + data.length then Word.allocate (address + data.length)
      else pure ()) = _
    rw [h_room]
    exact ite_self _
  refine ⟨{ w with
    image := w.image.write address data
    calls := w.calls ++ [⟨address, data.length, hint⟩] }, ?_, h_good⟩
  show MemoryWriter.write w data address hint = _
  rw [MemoryWriter.write, h_exhausted, h_grow]
  rfl

/-- A record in one slot, and one over several. -/
def smallCommits : List Commit := [⟨7, [1, 2, 3], 0⟩, ⟨8, List.replicate 60 1, 1⟩]

/-- The small log with this number of slots. -/
def ringConfig (ringSize : Nat) : Config := { smallConfig with ringSize }

/-- The configuration of a run on the small log. -/
theorem config_of_ring {ringSize : Nat} {log : Log MemoryWriter} {r : Run MemoryWriter}
    (h_created : Log.create (ringConfig ringSize) {} = .ok log) (h_log : r.log = log) :
    r.config = ringConfig ringSize := by
  rw [← (create_ok r.created).config_eq, h_log, (create_ok h_created).config_eq]

set_option maxRecDepth 100000 in
/-- The small log makes two commits, with one slot and with two. -/
theorem trace_exact_small : ∃ r r' : Run MemoryWriter,
    r.config = ringConfig 1 ∧ r'.config = ringConfig 2 ∧
      r.Executes smallCommits ∧ r'.Executes smallCommits ∧
      Traced r.config.recordFormat r.config.slotCapacity smallCommits r ∧
      r.journal.writes = r'.journal.writes := by
  have h_writer : Succeeds 136 ({} : MemoryWriter) := succeeds_memory (by decide) rfl
  -- the two rings use the same format
  have h_length : ∀ n, (records (ringConfig n).recordFormat smallCommits).length = 136 := by
    intro n
    show (records (ringConfig 1).recordFormat smallCommits).length = 136
    decide +kernel
  have h_exists : ∀ {n : Nat} {log : Log MemoryWriter}, Log.create (ringConfig n) {} = .ok log →
      64 * n < 1000 → ∃ r : Run MemoryWriter, r.log = log ∧ r.Executes smallCommits := by
    intro n log h_created h_small
    refine trace_exact.2.2 MemoryWriter (ringConfig n) {} log smallCommits h_created ?_ ?_
    · rw [h_length]
      show 136 + 64 * n < 18446744073709551616
      omega
    · rw [h_length]
      exact h_writer
  -- the same commits on a ring of one slot and of two
  obtain ⟨r, h_log, h⟩ := h_exists (n := 1) rfl (by decide)
  obtain ⟨r', h_log', h'⟩ := h_exists (n := 2) rfl (by decide)
  have h_config : r.config = ringConfig 1 := config_of_ring rfl h_log
  have h_config' : r'.config = ringConfig 2 := config_of_ring rfl h_log'
  refine ⟨r, r', h_config, h_config', h, h', trace_exact.1 MemoryWriter r smallCommits h, ?_⟩
  refine trace_exact.2.1 MemoryWriter MemoryWriter r r' smallCommits ?_ ?_ h h' <;>
    rw [h_config, h_config'] <;> rfl

end GroupCommit.Log
