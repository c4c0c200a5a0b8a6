import GroupCommit.Proofs.Protocol.Picture

/-!
# The way of a record

How what a call is about to do goes together with its view in a picture. A commit is a fixed sequence
of tasks for its record; `At` lists them, each with what has been done of the record by then, and the
functions that choose the next task are shown to keep to the list.

* `At`, `AtOutside`, `Stands`: tasks and statuses of a call, with its view.
* `At.entryTask`, `At.portionTask`, `At.afterOfferTask`, `At.skipOrWriteTask`, `At.tailTask`: the order
  in which a record goes through the ring.
-/

namespace GroupCommit.Log

/-! ### What has been done by when -/

/-- The call has no flush and is not counted as a waiter. -/
structure Work.Free (w : Work) : Prop where
  hold : w.hold = none
  waits : w.waits = none

/-- The middle is written, if there is any. -/
def Work.MiddleDone (w : Work) : Prop := w.entry.middle.isEmpty = false → w.middle = .done

/-- How far the tail has come while the rest is on its way: it may have been filled ahead. -/
def tailPart : Option Ticket → Part
  | none => .todo
  | some τ => .ticketed τ

/-- How far the head has come when the tail is tried. -/
def headPart (afterHead : Bool) : Part := if afterHead then .done else .todo

/-- It is the turn of a portion. -/
inductive Due (w : Work) : Portion → Option Ticket → Prop
  | whole (h_has : Has w.entry .whole) (h_middle : w.MiddleDone) : Due w .whole none
  | head {tk : Option Ticket} (h_has : Has w.entry .head) (h_middle : w.middle = .todo 0)
      (h_tail : Has w.entry .tail → w.part .tail = tailPart tk) : Due w .head tk
  | tail {tk : Option Ticket} (h_has : Has w.entry .tail)
      (h_head : Has w.entry .head → w.part .head = .done) (h_middle : w.MiddleDone) :
      Due w .tail tk

/-- A portion that is due is there. -/
theorem Due.has {w : Work} {p : Portion} {tk : Option Ticket} (h : Due w p tk) : Has w.entry p := by
  cases h <;> assumption

/-- Whose turn it is does not depend on how far that portion has come itself. -/
theorem Due.congr {w w' : Work} {p : Portion} {tk : Option Ticket} (h : Due w p tk)
    (h_entry : w'.entry = w.entry) (h_part : ∀ q, q ≠ p → w'.part q = w.part q)
    (h_middle : w'.middle = w.middle) : Due w' p tk := by
  have h_middle_done : w.MiddleDone → w'.MiddleDone := by
    intro h_done h_some
    rw [h_entry] at h_some
    exact h_middle.trans (h_done h_some)
  -- the turn of a portion speaks of the other portions and of the middle
  cases h with
  | whole h_has h_done => exact .whole (h_entry ▸ h_has) (h_middle_done h_done)
  | head h_has h_todo h_tail =>
    refine .head (h_entry ▸ h_has) (h_middle.trans h_todo) fun h => ?_
    rw [h_part .tail (by decide)]
    exact h_tail (h_entry ▸ h)
  | tail h_has h_head h_done =>
    refine .tail (h_entry ▸ h_has) (fun h => ?_) (h_middle_done h_done)
    rw [h_part .head (by decide)]
    exact h_head (h_entry ▸ h)

/-- The tail is to be tried, before the head or after it. -/
structure Offer (w : Work) (afterHead : Bool) : Prop where
  free : w.Free
  has : Has w.entry .tail
  head : Has w.entry .head → w.part .head = headPart afterHead
  middle : w.middle = .todo 0

/-- The head is behind the call, and the tail may have been filled. -/
structure PastHead (w : Work) (tk : Option Ticket) : Prop where
  free : w.Free
  spanning : w.entry.span.isSingleSlot = false
  head : Has w.entry .head → w.part .head = .done
  tail : Has w.entry .tail → w.part .tail = tailPart tk

/-- All of the record is durable. -/
structure Work.Done (w : Work) : Prop where
  free : w.Free
  part : ∀ p, Has w.entry p → w.part p = .done
  middle : w.MiddleDone

/-! ### Tasks -/

/-- How a call ends that has stopped the log: with an error, or as it was asked to. -/
inductive Stops : Result → Prop
  | refused (error : LogError) : Stops (.error (.refused error))
  | poisoned : Stops (.ok .poisoned)

/-- What a call does that has failed: it stops the slot of its write, marks the log and stops all
slots. -/
inductive Failing (g : Geometry) : Task → Prop
  | abandon {k : Nat} (hk : k < g.ringSize) (flush : Flush) (reason : PoisonReason) (error : IoError) :
      Failing g (.onSlot k (.abandon flush reason) (.stopped error reason))
  | abandoned {k : Nat} (hk : k < g.ringSize) (reason : PoisonReason) (error : IoError) :
      Failing g (.onSlot k (.announce (.ok .done)) (.stopped error reason))
  | poison (reason : PoisonReason) {result : Result} (h_result : Stops result) :
      Failing g (.poison reason result)
  | poisonSlot {k : Nat} (hk : k < g.ringSize) (reason : PoisonReason) {result : Result}
      (h_result : Stops result) :
      Failing g (.onSlot k (.poison reason) (.poisoned k reason result))
  | poisonedSlot {k : Nat} (hk : k < g.ringSize) (reason : PoisonReason) {result : Result}
      (h_result : Stops result) :
      Failing g (.onSlot k (.announce (.ok .done)) (.poisoned k reason result))
  /-- A flush was handed back to a slot that is stopped. -/
  | handedBack {k : Nat} (hk : k < g.ringSize) (reason : PoisonReason) (e : Entry) (p : Portion)
      (tk : Option Ticket) :
      Failing g (.onSlot k (.announce (.error (Slot.poisonedStop reason))) (.handedBack e p tk))

/-- The task of a ready call, and its view. `start` is the task that the call was made with. -/
inductive At (g : Geometry) (format : Record.Format) (start : Task) : Task → View → Prop
  | commit {timestamp : UInt64} {payload : Bytes} {hint : Int32}
      (h_start : start = .commit timestamp payload hint) :
      At g format start (.commit timestamp payload hint) .fresh
  | reserve {timestamp : UInt64} {payload record : Bytes} {hint : Int32}
      (h_start : start = .commit timestamp payload hint)
      (h_encode : format.encode timestamp payload = .ok record) :
      At g format start (.reserve record hint) .fresh
  | acquire {w : Work} {p : Portion} {tk : Option Ticket} (h_free : w.Free) (h_due : Due w p tk)
      (h_part : w.part p = .todo) :
      At g format start (acquireTask g w.entry p tk) (.working w)
  | fillJoin {w : Work} {p : Portion} {tk : Option Ticket} (h_free : w.Free) (h_due : Due w p tk)
      (h_part : w.part p = .todo) :
      At g format start (fillJoinTask g w.entry p tk) (.working w)
  | join {w : Work} {p : Portion} {tk : Option Ticket} {τ : Ticket} (h_free : w.Free)
      (h_due : Due w p tk) (h_part : w.part p = .ticketed τ) :
      At g format start (.onSlot (portionSlot g w.entry p) (.join τ) (.joined w.entry p tk))
        (.working w)
  | rejoin {w : Work} {p : Portion} {tk : Option Ticket} {τ : Ticket} (h_hold : w.hold = none)
      (h_waits : w.waits = some (portionSlot g w.entry p)) (h_due : Due w p tk)
      (h_part : w.part p = .ticketed τ) :
      At g format start (.onSlot (portionSlot g w.entry p) (.rejoin τ) (.joined w.entry p tk))
        (.working w)
  | offer {w : Work} {afterHead : Bool} (h_offer : Offer w afterHead)
      (h_part : w.part .tail = .todo) :
      At g format start (offerTailTask g w.entry afterHead) (.working w)
  | fillTail {w : Work} {afterHead : Bool} (h_offer : Offer w afterHead)
      (h_part : w.part .tail = .todo) :
      At g format start (.onSlot (portionSlot g w.entry .tail)
        (.fill w.entry.span.tailTag 0 w.entry.tail) (.tailFilled w.entry afterHead)) (.working w)
  | filledTail {w : Work} {afterHead : Bool} {τ : Ticket} (h_offer : Offer w afterHead)
      (h_part : w.part .tail = .ticketed τ) :
      At g format start (.onSlot (portionSlot g w.entry .tail)
        (.announce (.ok (.filled τ))) (.tailFilled w.entry afterHead)) (.working w)
  | skip {w : Work} {n : Nat} {tk : Option Ticket} (h_past : PastHead w tk)
      (h_middle : w.middle = .todo n)
      (hn : n < w.entry.middle.generationCount w.entry.span.capacity) :
      At g format start (skipTask g w.entry n tk) (.working w)
  | skipped {w : Work} {n k : Nat} {tk : Option Ticket} (h_past : PastHead w tk)
      (hk : k < g.ringSize) (h_middle : w.middle = .todo (n + 1))
      (hn : n < w.entry.middle.generationCount w.entry.span.capacity) :
      At g format start (.onSlot k (.announce (.ok .done)) (.skipped w.entry n tk)) (.working w)
  | writeSlot {w : Work} {p : Portion} {tk : Option Ticket} {f : Flush} {data : Bytes}
      (h_waits : w.waits = none)
      (h_hold : w.hold = some ⟨portionSlot g w.entry p, p, f, .taken⟩) (h_due : Due w p tk)
      (h_part : w.part p = .held) (h_bytes : f.bytes = .ok data) :
      At g format start (.writeSlot (portionSlot g w.entry p) f data w.entry p tk) (.working w)
  | release {w : Work} {p : Portion} {tk : Option Ticket} {f : Flush} (h_waits : w.waits = none)
      (h_hold : w.hold = some ⟨portionSlot g w.entry p, p, f, .written⟩) (h_due : Due w p tk)
      (h_part : w.part p = .held) :
      At g format start (.onSlot (portionSlot g w.entry p) (.release f)
        (.handedBack w.entry p tk)) (.working w)
  | released {w : Work} {p : Portion} {tk : Option Ticket} (h_free : w.Free) (h_due : Due w p tk)
      (h_part : w.part p = .done) :
      At g format start (.onSlot (portionSlot g w.entry p) (.announce (.ok .done))
        (.handedBack w.entry p tk)) (.working w)
  | writeDirect {w : Work} {tk : Option Ticket} (h_past : PastHead w tk)
      (h_middle : w.middle = .todo (w.entry.middle.generationCount w.entry.span.capacity)) :
      At g format start (.writeDirect w.entry tk) (.working w)
  | complete {w : Work} (h_done : w.Done) :
      At g format start (.complete w.entry.span.head) (.working w)
  | failing {t : Task} (h : Failing g t) : At g format start t .failed

/-- The task of the call `i` while it waits for an answer to a call to the Writer, and its view. -/
inductive AtOutside (g : Geometry) (i : Nat) : Task → View → Prop
  | writeSlot {w : Work} {p : Portion} {tk : Option Ticket} {f : Flush} {data : Bytes}
      (h_waits : w.waits = none)
      (h_hold : w.hold = some ⟨portionSlot g w.entry p, p, f,
        .inFlight ⟨i, .slot f.kind, f.tag, data, w.entry.hint⟩⟩)
      (h_due : Due w p tk) (h_part : w.part p = .held) :
      AtOutside g i (.writeSlot (portionSlot g w.entry p) f data w.entry p tk) (.working w)
  | writeDirect {w : Work} {tk : Option Ticket} (h_past : PastHead w tk)
      (h_middle : w.middle = .started) :
      AtOutside g i (.writeDirect w.entry tk) (.working w)

/-- What a waiting call does at its deadline. -/
inductive Deadline : Task → Task → Prop
  | rejoin (k : Nat) (τ : Ticket) (next : Next) :
      Deadline (.onSlot k (.rejoin τ) next) (.onSlot k (.joinLate τ) next)

/-- Where the call `i` stands, and its view. -/
inductive Stands (g : Geometry) (format : Record.Format) (start : Task) (J : Journal) (i : Nat) :
    Status Task Result → View → Prop
  | ready {t : Task} {v : View} (h : At g format start t v) : Stands g format start J i (.ready t) v
  | parked {k : Nat} {task : Slot.Task} {next : Next} {late : Option Task} {v : View}
      (h : At g format start (.onSlot k task next) v)
      (h_late : ∀ t ∈ late, Deadline (.onSlot k task next) t) :
      Stands g format start J i (.parked k (.onSlot k task next) late) v
  | outside {t : Task} {v : View} (h : AtOutside g i t v) :
      Stands g format start J i (.outside t) v
  | appended {w : Work} (h : w.Done) :
      Stands g format start J i (.finished (.ok (.appended w.entry.span.head))) (.working w)
  | stopped {result : Result} (h : Stops result) : Stands g format start J i (.finished result) .failed
  | turnedAway :
      Stands g format start J i (.finished (.error (.refused (.poisoned .earlierFailure)))) .fresh
  /-- The record cannot be encoded. -/
  | unencoded {timestamp : UInt64} {payload : Bytes} {hint : Int32} {broken : Fault}
      (h_start : start = .commit timestamp payload hint)
      (h_encode : format.encode timestamp payload = .error broken) :
      Stands g format start J i (.finished (.error (.fault broken))) .fresh
  /-- A call to the Writer has faulted. -/
  | crashed {w : Write} {broken : Fault} (h_call : w.call = i)
      (h_mem : .returned w (.error (.fault broken)) ∈ J) :
      Stands g format start J i (.finished (.error (.fault broken))) .failed

section Stands

variable {g : Geometry} {format : Record.Format} {start : Task} {J : Journal} {i : Nat}
  {status : Status Task Result} {v : View}

/-- Where a call stands stays true whatever is noted later. -/
theorem Stands.mono (h : Stands g format start J i status v) (K : Journal) :
    Stands g format start (J ++ K) i status v := by
  cases h with
  | ready h => exact .ready h
  | parked h h_late => exact .parked h h_late
  | outside h => exact .outside h
  | appended h => exact .appended h
  | stopped h => exact .stopped h
  | turnedAway => exact .turnedAway
  | unencoded h_start h_encode => exact .unencoded h_start h_encode
  | crashed h_call h_mem => exact .crashed h_call (List.mem_append_left _ h_mem)

/-- Waking a call changes nothing about it. -/
theorem Stands.woken (h : Stands g format start J i status v) (condition : Nat) :
    Stands g format start J i (status.woken condition) v := by
  cases h with
  -- a call that is parked is about to do the same once it is ready
  | parked h h_late =>
    rw [Status.woken]
    split
    · exact .ready h
    · exact .parked h h_late
  | ready h => exact .ready h
  | outside h => exact .outside h
  | appended h => exact .appended h
  | stopped h => exact .stopped h
  | turnedAway => exact .turnedAway
  | unencoded h_start h_encode => exact .unencoded h_start h_encode
  | crashed h_call h_mem => exact .crashed h_call h_mem

end Stands

/-! ### The next task -/

namespace At

variable {g : Geometry} {format : Record.Format} {start : Task} {w : Work} {tk : Option Ticket}

/-- Where a call stands in front of the tail. -/
theorem tailTask (h : PastHead w tk) (h_middle : w.MiddleDone) :
    At g format start (tailTask g w.entry tk) (.working w) := by
  unfold Log.tailTask
  split
  · -- without a tail, the middle was the last part
    next h_none =>
    refine .complete ⟨h.free, ?_, h_middle⟩
    intro p hp
    cases p with
    | whole => simp [Has, h.spanning] at hp
    | head => exact h.head hp
    | tail => exact absurd h_none hp.2.ne'
  · next h_some =>
    have h_has : Has w.entry .tail := ⟨h.spanning, Nat.pos_of_ne_zero h_some⟩
    have h_due : ∀ {tk}, Due w .tail tk := .tail h_has h.head h_middle
    -- a tail that was filled ahead only has to be waited for
    cases tk with
    | none => exact .acquire h.free h_due (h.tail h_has)
    | some τ => exact .join h.free h_due (h.tail h_has)

/-- Where a call stands in the middle. -/
theorem skipOrWriteTask {n : Nat} (h : PastHead w tk) (h_middle : w.middle = .todo n)
    (hn : n ≤ w.entry.middle.generationCount w.entry.span.capacity) :
    At g format start (skipOrWriteTask g w.entry n tk) (.working w) := by
  unfold Log.skipOrWriteTask
  split
  · next h_lt => exact .skip h h_middle h_lt
  · -- all generations are skipped
    next h_ge =>
    obtain rfl := Nat.le_antisymm hn (Nat.not_lt.1 h_ge)
    exact .writeDirect h h_middle

/-- Where a call stands in front of the middle. -/
theorem middleTask (h : PastHead w tk) (h_middle : w.middle = .todo 0) :
    At g format start (middleTask g w.entry tk) (.working w) := by
  unfold Log.middleTask
  split
  · next h_empty => exact tailTask h fun h_some => by simp [h_empty] at h_some
  · exact skipOrWriteTask h h_middle (Nat.zero_le _)

/-- Where a call stands in front of the head. -/
theorem headTask (h_free : w.Free) (h_spanning : w.entry.span.isSingleSlot = false)
    (h_head : Has w.entry .head → w.part .head = .todo)
    (h_tail : Has w.entry .tail → w.part .tail = tailPart tk) (h_middle : w.middle = .todo 0) :
    At g format start (headTask g w.entry tk) (.working w) := by
  unfold Log.headTask
  split
  · next h_none =>
    refine middleTask ⟨h_free, h_spanning, fun h_has => ?_, h_tail⟩ h_middle
    exact absurd h_none h_has.2.ne'
  · next h_some =>
    have h_has : Has w.entry .head := ⟨h_spanning, Nat.pos_of_ne_zero h_some⟩
    exact .acquire h_free (.head h_has h_middle h_tail) (h_head h_has)

/-- Where a call stands once the tail has been offered. -/
theorem afterOfferTask {afterHead : Bool} (h : Offer w afterHead)
    (h_tail : w.part .tail = tailPart tk) :
    At g format start (afterOfferTask g w.entry afterHead tk) (.working w) := by
  unfold Log.afterOfferTask
  have h_head := h.head
  cases afterHead with
  | true => exact middleTask ⟨h.free, h.has.1, h_head, fun _ => h_tail⟩ h.middle
  | false => exact headTask h.free h.has.1 h_head (fun _ => h_tail) h.middle

/-- The whole way begins when all of the record is to do. -/
theorem entryTask (h_free : w.Free) (h_part : ∀ p, w.part p = .todo)
    (h_middle : w.middle = .todo 0) (h_single : w.entry.span.isSingleSlot = true → w.MiddleDone) :
    At g format start (entryTask g w.entry) (.working w) := by
  unfold Log.entryTask
  split
  · next h_has => exact .acquire h_free (.whole h_has (h_single h_has)) (h_part _)
  · next h_spanning =>
    rw [Bool.not_eq_true] at h_spanning
    split
    · exact headTask h_free h_spanning (fun _ => h_part _) (fun _ => h_part _) h_middle
    · next h_some =>
      refine .offer ⟨h_free, ⟨h_spanning, Nat.pos_of_ne_zero h_some⟩, fun _ => ?_, h_middle⟩
        (h_part _)
      exact h_part _

/-- Where a call stands behind a portion. -/
theorem portionTask {p : Portion} (h_free : w.Free) (h_due : Due w p tk)
    (h_part : w.part p = .done) : At g format start (portionTask g w.entry p tk) (.working w) := by
  cases h_due with
  | whole h_has h_middle =>
    have h_single : w.entry.span.isSingleSlot = true := h_has
    refine .complete ⟨h_free, fun q hq => ?_, h_middle⟩
    cases q with
    | whole => exact h_part
    | head => simp [Has, h_single] at hq
    | tail => simp [Has, h_single] at hq
  | head h_has h_middle h_tail =>
    have h_past : PastHead w tk := ⟨h_free, h_has.1, fun _ => h_part, h_tail⟩
    show At g format start (if w.entry.span.tailLength = 0 ∨ tk.isSome = true then
      Log.middleTask g w.entry tk else offerTailTask g w.entry true) (.working w)
    split
    · exact middleTask h_past h_middle
    · next h_open =>
      rw [not_or] at h_open
      have h_tail_has : Has w.entry .tail := ⟨h_has.1, Nat.pos_of_ne_zero h_open.1⟩
      -- the tail was busy before the head, so it is tried once more
      refine .offer ⟨h_free, h_tail_has, fun _ => h_part, h_middle⟩ ?_
      have := h_tail h_tail_has
      cases tk with
      | none => exact this
      | some τ => exact absurd rfl h_open.2
  | tail h_has h_head h_middle =>
    refine .complete ⟨h_free, fun q hq => ?_, h_middle⟩
    cases q with
    | whole => simp [Has, h_has.1] at hq
    | head => exact h_head hq
    | tail => exact h_part

end At

end GroupCommit.Log
