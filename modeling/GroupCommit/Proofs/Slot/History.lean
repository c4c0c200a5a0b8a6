import GroupCommit.Proofs.Machine.Bookkeeping
import GroupCommit.Proofs.Slot.Steps

/-!
# The history of a slot

What happens on a slot, as far as bytes and flushes are concerned: which bytes it takes in, which
flushes it gives out, which of them come back and how, and whose waiting ends because the bytes are
written. A history is a function of the calls on the slot and of the order of their steps, and it is
what statements about all operations of a slot speak of.

Callers own the flushes that they are given, and nobody can hand back a flush that he does not have.
`Orderly` says so of a list of events: a flush is handed back no more often than it was given out.

* `Slot.Note`, `Slot.history`: what happens on a slot.
* `History.latest`: the byte that the fills of a generation leave at an offset.
* `Slot.Orderly`: callers hand back what they were given.
-/

namespace GroupCommit.Slot

/-! ### Fills -/

/-- Bytes that a slot took in. -/
structure Fill where
  /-- The generation that took them in. -/
  tag : Nat
  offset : Nat
  data : Bytes
  /-- How many early flushes had been taken before. -/
  earlier : Nat
  deriving DecidableEq, Repr

namespace Fill

/-- The offset behind the last byte. -/
def stop (fill : Fill) : Nat := fill.offset + fill.data.length

/-- What the filler waits with. -/
def ticket (fill : Fill) : Ticket := ⟨fill.tag, fill.stop, fill.earlier⟩

/-- The fill puts a byte at this offset of this generation. -/
def Covers (fill : Fill) (tag i : Nat) : Prop := fill.tag = tag ∧ fill.offset ≤ i ∧ i < fill.stop

instance (fill : Fill) (tag i : Nat) : Decidable (fill.Covers tag i) :=
  inferInstanceAs (Decidable (_ ∧ _ ∧ _))

/-- The byte that the fill puts at an offset. -/
def byte (fill : Fill) (i : Nat) : UInt8 := Bytes.read fill.data (i - fill.offset)

end Fill

/-! ### Notes -/

/-- What a history notes. -/
inductive Note where
  /-- A call copies bytes in. -/
  | filled (call : Nat) (fill : Fill)
  /-- A call is given a flush. -/
  | claimed (call : Nat) (flush : Flush)
  /-- A written flush is handed back, and the slot takes it. -/
  | released (call : Nat) (flush : Flush)
  /-- A flush is handed back that could not be written, or that the slot does not take any more. -/
  | dropped (call : Nat) (flush : Flush)
  /-- A call waits no longer for the bytes of a ticket, since they are written. -/
  | spared (call : Nat) (ticket : Ticket)
  deriving DecidableEq, Repr

/-- What happened on a slot, in order. -/
abbrev History := List Note

namespace Note

/-- The fill that is noted. -/
def fill? : Note → Option Fill
  | filled _ fill => some fill
  | _ => none

/-- The flush that is given out. -/
def claimed? : Note → Option Flush
  | claimed _ flush => some flush
  | _ => none

/-- The flush that comes back, one way or the other. -/
def returned? : Note → Option Flush
  | released _ flush => some flush
  | dropped _ flush => some flush
  | _ => none

/-- The note says that somebody waits no longer. -/
def IsSpared (n : Note) : Prop := ∃ call ticket, n = .spared call ticket

end Note

namespace History

/-- The fills, in order. -/
def fills (H : History) : List Fill := H.filterMap Note.fill?

/-- The flushes that were given out. -/
def claimed (H : History) : List Flush := H.filterMap Note.claimed?

/-- The flushes that came back. -/
def returned (H : History) : List Flush := H.filterMap Note.returned?

/-- The byte at an offset of a generation: that of the last fill which covers the offset, and zero if
there is none. -/
def latest (H : History) (tag i : Nat) : UInt8 :=
  match (H.fills.filter fun fill => fill.Covers tag i).getLast? with
  | some fill => fill.byte i
  | none => 0

variable {H N : History} {tag i call : Nat} {fill : Fill}

@[simp] theorem fills_append (H N : History) : fills (H ++ N) = H.fills ++ N.fills :=
  List.filterMap_append

@[simp] theorem claimed_append (H N : History) : claimed (H ++ N) = H.claimed ++ N.claimed :=
  List.filterMap_append

@[simp] theorem returned_append (H N : History) : returned (H ++ N) = H.returned ++ N.returned :=
  List.filterMap_append

/-- A fill of the history is one that a note tells of. -/
theorem mem_fills : fill ∈ H.fills ↔ ∃ call, .filled call fill ∈ H := by
  rw [fills, List.mem_filterMap]
  constructor
  · rintro ⟨n, h_mem, h_fill⟩
    -- no other note is on a fill
    match n, h_fill with
    | .filled call fill, h_fill =>
      cases h_fill
      exact ⟨call, h_mem⟩
  · rintro ⟨call, h_mem⟩
    exact ⟨_, h_mem, rfl⟩

theorem mem_fills_of_eq {A B : History} (h : H = A ++ .filled call fill :: B) : fill ∈ H.fills := by
  rw [h]
  exact mem_fills.2 ⟨call, List.mem_append_right A List.mem_cons_self⟩

theorem mem_fills_concat {fill' : Fill} :
    fill ∈ fills (H ++ [.filled call fill']) ↔ fill ∈ H.fills ∨ fill = fill' := by
  rw [fills_append, List.mem_append]
  exact or_congr_right List.mem_singleton

theorem latest_congr {H' : History} (h : H.fills = H'.fills) : H.latest tag i = H'.latest tag i := by
  rw [latest, latest, h]

/-- What has been filled in last stays so until the next fill. -/
theorem latest_append (h : N.fills = []) : latest (H ++ N) tag i = H.latest tag i :=
  latest_congr (by rw [fills_append, h, List.append_nil])

/-- A fill decides the bytes it covers and leaves the others to those before it. -/
theorem latest_concat (H : History) (call : Nat) (fill : Fill) (tag i : Nat) :
    latest (H ++ [.filled call fill]) tag i =
      if fill.Covers tag i then fill.byte i else H.latest tag i := by
  have h_fills : fills (H ++ [.filled call fill]) = H.fills ++ [fill] := fills_append H _
  rw [latest, h_fills, List.filter_append]
  by_cases h_covers : fill.Covers tag i
  · rw [if_pos h_covers, List.filter_singleton]
    simp only [h_covers, decide_true, cond_true]
    rw [List.getLast?_concat]
  · rw [if_neg h_covers, List.filter_singleton]
    simp only [h_covers, decide_false, cond_false]
    rw [List.append_nil, latest]

/-- A byte that no fill covers is still zero. -/
theorem latest_eq_zero (h : ∀ fill ∈ H.fills, ¬ fill.Covers tag i) : H.latest tag i = 0 := by
  have h_none : H.fills.filter (fun fill => fill.Covers tag i) = [] := by
    rw [List.filter_eq_nil_iff]
    exact fun fill h_mem => by simpa using h fill h_mem
  rw [latest, h_none]
  rfl

/-- A byte stays until another fill covers it. -/
theorem latest_of_last (H : History) (call : Nat) {fill : Fill} (h_covers : fill.Covers tag i)
    (h_last : ∀ later ∈ N.fills, ¬ later.Covers tag i) :
    latest (H ++ .filled call fill :: N) tag i = fill.byte i := by
  have h_fills : fills (H ++ .filled call fill :: N) = H.fills ++ fill :: N.fills :=
    fills_append H _
  -- nothing of what comes later covers the byte
  have h_none : N.fills.filter (fun fill => fill.Covers tag i) = [] := by
    rw [List.filter_eq_nil_iff]
    exact fun fill h_mem => by simpa using h_last fill h_mem
  rw [latest, h_fills, List.filter_append, List.filter_cons_of_pos (by simpa using h_covers), h_none,
    List.getLast?_concat]

end History

/-! ### Taking notes -/

variable {s : Slot} {call : Nat}

/-- The note on an attempt to copy bytes in. -/
def fillNotes (s : Slot) (call tag offset : Nat) (data : Bytes) : History :=
  if s.accepts tag = .ok true ∧ (s.copyIn offset data).1.isOk then
    [.filled call ⟨s.tag, offset, data, s.claims⟩]
  else []

/-- The note on the end of a call that waits for the bytes of a ticket, or that completes a slot. -/
def endNotes (call : Nat) (ticket : Option Ticket) : Move Task Result → History
  | .finish (.ok (.joined (some flush))) => [.claimed call flush]
  | .finish (.ok (.joined none)) => (ticket.map (.spared call)).toList
  | _ => []

/-- The notes on a step of a call. -/
def stepNotes (s : Slot) (call : Nat) : Task → History
  | .fill tag offset data => s.fillNotes call tag offset data
  | .fillJoin tag offset data =>
    s.fillNotes call tag offset data ++ endNotes call none (run (.fillJoin tag offset data) s).1
  | .join ticket => endNotes call (some ticket) (run (.join ticket) s).1
  | .rejoin ticket => endNotes call (some ticket) (run (.rejoin ticket) s).1
  | .joinLate ticket => endNotes call (some ticket) (run (.joinLate ticket) s).1
  | .release flush =>
    if (s.handBack flush).1.isOk then [.released call flush] else [.dropped call flush]
  | .abandon flush _ => [.dropped call flush]
  | _ => []

/-- The notes on an event. -/
def notes (m : Machine Slot Task Result) : Event Task Empty → History
  | .run i =>
    match m.calls[i]? with
    | some (.ready task) => m.state.stepNotes i task
    | _ => []
  | .expire i =>
    match m.calls[i]? with
    | some (.parked _ _ (some late)) => m.state.stepNotes i late
    | _ => []
  | _ => []

/-- What happens on a slot in these events. -/
def history (slot : Slot) (es : List (Event Task Empty)) : History :=
  Machine.noted program notes (Machine.idle slot) es

/-! ### Callers -/

/-- Callers come to a slot with this task. -/
def Task.IsOperation : Task → Prop
  | .rejoin _ => False
  | .joinLate _ => False
  | .announce _ => False
  | _ => True

instance : DecidablePred Task.IsOperation := fun task => by
  cases task <;> first | exact instDecidableTrue | exact instDecidableFalse

/-- The flush that a task hands back. -/
def Task.flush? : Task → Option Flush
  | .release flush => some flush
  | .abandon flush _ => some flush
  | _ => none

/-- The flushes that the calls made in these events hand back. -/
def handed (es : List (Event Task Empty)) : List Flush := (Machine.starts es).filterMap Task.flush?

/-- Callers come with operations of the slot, and whoever hands a flush back was given it: each flush
has been given out more often than handed back. -/
structure Orderly (slot : Slot) (es : List (Event Task Empty)) : Prop where
  operations : ∀ start ∈ Machine.starts es, start.IsOperation
  owned : ∀ k < es.length, ∀ flush ∈ (es[k]?.bind Event.start?).bind Task.flush?,
    (handed (es.take k)).count flush < (history slot (es.take k)).claimed.count flush

instance (slot : Slot) (es : List (Event Task Empty)) : Decidable (Orderly slot es) :=
  decidable_of_iff
    ((∀ start ∈ Machine.starts es, start.IsOperation) ∧
      ∀ k < es.length, ∀ flush ∈ (es[k]?.bind Event.start?).bind Task.flush?,
        (handed (es.take k)).count flush < (history slot (es.take k)).claimed.count flush)
    ⟨fun h => ⟨h.1, h.2⟩, fun h => ⟨h.operations, h.owned⟩⟩

namespace Orderly

variable {slot : Slot} {es es' : List (Event Task Empty)} {e : Event Task Empty}

/-- The first part of an orderly script is orderly. -/
theorem of_append (h : Orderly slot (es ++ es')) : Orderly slot es := by
  constructor
  · intro start h_mem
    refine h.operations start ?_
    rw [Machine.starts, List.filterMap_append]
    exact List.mem_append_left _ h_mem
  · intro k h_lt flush h_flush
    -- what has been handed out by then is the same in both
    have h_take : (es ++ es').take k = es.take k := List.take_append_of_le_length h_lt.le
    rw [← h_take]
    refine h.owned k (by rw [List.length_append]; omega) flush ?_
    rw [List.getElem?_append_left h_lt]
    exact h_flush

/-- The last call hands back only a flush that it has. -/
theorem owned_last {start : Task} (h : Orderly slot (es ++ [.call start])) {flush : Flush}
    (h_flush : start.flush? = some flush) :
    (handed es).count flush < (history slot es).claimed.count flush := by
  have h_owned := h.owned es.length (by simp) flush
  rw [List.getElem?_concat_length, List.take_left] at h_owned
  exact h_owned h_flush

theorem operation_last {start : Task} (h : Orderly slot (es ++ [.call start])) : start.IsOperation := by
  refine h.operations start ?_
  rw [Machine.starts_concat]
  exact List.mem_append_right _ (List.mem_singleton_self start)

end Orderly

/-- Some call has ended in a fault. -/
def Faulted (m : Machine Slot Task Result) : Prop :=
  ∃ (i : Nat) (broken : Fault), m.calls[i]? = some (.finished (.error (.fault broken)))

end GroupCommit.Slot
