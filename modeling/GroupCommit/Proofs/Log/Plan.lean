import GroupCommit.Proofs.Log.Cut
import GroupCommit.Proofs.Log.Journal
import GroupCommit.Proofs.Machine.WakeUps

/-!
# The plan of a commit

A commit that nobody disturbs makes its calls to the Writer by a fixed plan. One call writes the slot of
a record that lies within one slot. Otherwise the head comes first, which fills its slot up, then the
middle and at last the tail. Each call writes what the log has from the start of the slot on, so that
only the layout of the record matters, and not how far the slots of the ring have got.

* `Write.range`: a call that writes what the log has in a range.
* `Plan`, `Plan.entry`: the calls of a commit.
* `Plan.task`, `Plan.status`: those that are still to come when a call has got so far. The order in
  which a record goes through the ring keeps to the plan (`Plan.task_entryTask`,
  `Plan.task_portionTask`).
-/

namespace GroupCommit.Log

/-! ### Ranges -/

/-- The call to the Writer that writes the addresses from `start` up to `stop`, with the bytes that the
log has there. -/
def Write.range (content : Bytes) (call : Nat) (hint : Int32) (source : Source) (start stop : Nat) :
    Write where
  call
  source
  address := start
  data := (content.drop start).take (stop - start)
  hint

section Range

variable {content content' : Bytes} {call start stop : Nat} {hint : Int32} {source : Source}

/-- A write of a range ends where the range does. -/
theorem Write.stop_range (h : start ≤ stop) (h_stop : stop ≤ content.length) :
    (Write.range content call hint source start stop).stop = stop := by
  rw [Write.stop, Write.range, List.length_take, List.length_drop, Nat.min_eq_left (by omega)]
  exact Nat.add_sub_of_le h

/-- What comes into the log behind the range does not change the call. -/
theorem Write.range_of_prefix (h : content <+: content') (h_stop : stop ≤ content.length) :
    Write.range content' call hint source start stop =
      Write.range content call hint source start stop := by
  obtain ⟨more, rfl⟩ := h
  rw [Write.range, Write.range, Write.mk.injEq]
  refine ⟨rfl, rfl, rfl, ?_, rfl⟩
  rcases Nat.le_total start content.length with h_start | h_start
  · rw [List.drop_append_of_le_length h_start, List.take_append_of_le_length]
    rw [List.length_drop]
    omega
  · -- nothing is in the range
    rw [Nat.sub_eq_zero_of_le (h_stop.trans h_start), List.take_zero, List.take_zero]

/-- A call that writes the range byte by byte. -/
theorem Write.eq_range {w : Write} (h_address : w.address = start) (h_le : start ≤ stop)
    (h_stop : stop ≤ content.length) (h_length : w.data.length = stop - start)
    (h_read : ∀ a, start ≤ a → a < stop → Bytes.read w.data (a - start) = content.read a) :
    w = Write.range content w.call w.hint w.source start stop := by
  have h_data : w.data = (content.drop start).take (stop - start) := by
    -- byte for byte
    refine List.ext_getElem ?_ fun k hk hk' => ?_
    · rw [List.length_take, List.length_drop, h_length, Nat.min_eq_left (by omega)]
    · have h := h_read (start + k) (Nat.le_add_right _ _) (by omega)
      rw [Nat.add_sub_cancel_left, Bytes.read, Bytes.read, List.getD_eq_getElem?_getD,
        List.getD_eq_getElem?_getD, List.getElem?_eq_getElem hk,
        List.getElem?_eq_getElem (by omega)] at h
      rw [List.getElem_take, List.getElem_drop]
      exact h
  cases w with
  | mk call source address data hint =>
    obtain rfl : address = start := h_address
    exact congrArg (Write.mk call source address · hint) h_data

end Range

/-! ### The calls of a commit -/

/-- What the calls of a commit depend on, besides the entry of its record: the geometry of the ring, the
bytes of the log, and the number of the commit. -/
structure Plan where
  geometry : Geometry
  content : Bytes
  call : Nat

namespace Plan

variable (x : Plan) (e : Entry)

/-- The call that writes the slot of a portion, from its start up to the end of the portion. -/
def portion (p : Portion) : Write :=
  .range x.content x.call e.hint
    (.slot (if x.geometry.capacity ∣ regionStop e p then .full else .early)) (portionTag e p)
    (regionStop e p)

/-- The call that writes the middle. -/
def direct : Write := .range x.content x.call e.hint .direct e.middle.start e.middle.stop

/-- The calls from the tail on. -/
def tail : List Write := if e.span.tailLength = 0 then [] else [x.portion e .tail]

/-- The calls from the middle on. -/
def middle : List Write := (if e.middle.isEmpty then [] else [x.direct e]) ++ x.tail e

/-- The calls from the head on. -/
def head : List Write := (if e.span.headLength = 0 then [] else [x.portion e .head]) ++ x.middle e

/-- All calls. -/
def entry : List Write := if e.span.isSingleSlot then [x.portion e .whole] else x.head e

/-- The calls after a portion is written. -/
def after : Portion → List Write
  | .whole => []
  | .head => x.middle e
  | .tail => []

/-! ### The calls to come -/

/-- The calls that come once a call to a slot returns. -/
def next : Next → List Write
  | .acquired e p _ => x.portion e p :: x.after e p
  | .joined e p _ => x.portion e p :: x.after e p
  | .handedBack e p _ => x.after e p
  | .tailOffered e afterHead => if afterHead then x.middle e else x.head e
  | .tailFilled e afterHead => if afterHead then x.middle e else x.head e
  | .skipped e _ _ => x.direct e :: x.tail e
  | _ => []

/-- The calls that come from this task on, if the record has its addresses. -/
def task : Task → List Write
  | .onSlot _ _ next => x.next next
  | .writeSlot _ _ _ e p _ => x.portion e p :: x.after e p
  | .writeDirect e _ => x.direct e :: x.tail e
  | _ => []

/-- The calls that are still to be made. -/
def status : Status Task Result → List Write
  | .ready t => x.task t
  | .parked _ wake _ => x.task wake
  | .outside (.writeSlot _ _ _ e p _) => x.after e p
  | .outside (.writeDirect e _) => x.tail e
  | _ => []

variable {x} {e} {g : Geometry} {tk : Option Ticket}

/-- What remains in front of the tail is the tail. -/
theorem task_tailTask : x.task (tailTask g e tk) = x.tail e := by
  unfold tailTask tail
  split
  · rfl
  · cases tk <;> rfl

theorem task_skipOrWriteTask (n : Nat) :
    x.task (skipOrWriteTask g e n tk) = x.direct e :: x.tail e := by
  unfold skipOrWriteTask
  split <;> rfl

/-- What remains in front of the middle is the middle and what follows it. -/
theorem task_middleTask : x.task (middleTask g e tk) = x.middle e := by
  unfold middleTask middle
  split
  · rw [task_tailTask, List.nil_append]
  · rw [task_skipOrWriteTask, List.singleton_append]

/-- What remains in front of the head is the head and what follows it. -/
theorem task_headTask : x.task (headTask g e tk) = x.head e := by
  unfold headTask head
  split
  · rw [task_middleTask, List.nil_append]
  · rfl

/-- What remains at the beginning is the whole plan. -/
theorem task_entryTask : x.task (entryTask g e) = x.entry e := by
  unfold entryTask entry
  split
  · rfl
  · split
    · exact task_headTask
    · rfl

/-- What remains once the head has been offered or is not there. -/
theorem task_afterOfferTask (afterHead : Bool) :
    x.task (afterOfferTask g e afterHead tk) = if afterHead then x.middle e else x.head e := by
  unfold afterOfferTask
  cases afterHead with
  | true => exact task_middleTask
  | false => exact task_headTask

/-- What remains behind a portion. -/
theorem task_portionTask (p : Portion) : x.task (portionTask g e p tk) = x.after e p := by
  cases p with
  | whole => rfl
  | head =>
    rw [portionTask]
    split
    · exact task_middleTask
    · rfl
  | tail => rfl

/-- Being woken changes nothing about what is to come. -/
theorem status_remains {status status' : Status Task Result} (h : status.Remains status') :
    x.status status' = x.status status := by
  cases h <;> rfl

end Plan

end GroupCommit.Log
