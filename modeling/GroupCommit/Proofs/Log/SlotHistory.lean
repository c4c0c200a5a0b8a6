import GroupCommit.Proofs.Log.Chunks
import GroupCommit.Proofs.Machine.Bookkeeping

/-!
# The history of a slot in a log

What happens on one slot of the ring, as a history of that slot. It is put together from the steps of all
calls on the log, so what a step of a slot adds to its history is known from the slot alone.

* `slotNotes`, `Run.slotHistory`: the history of a slot.
* `Tally`, `Tally.run`: what it amounts to where a log works in chunks.
-/

namespace GroupCommit.Log

variable {W : Type} {c i k : Nat}

/-! ### Taking notes -/

/-- What the history of the slot `k` notes of a step of the call `i`. -/
def runSlotNotes (log : Log W) (k i : Nat) : Task → Slot.History
  | .onSlot k' task _ => if k' = k then (log.ring.slots[k]?.map (·.stepNotes i task)).getD [] else []
  | _ => []

/-- What it notes of an event. -/
def slotNotes (k : Nat) (m : Machine (Log W) Task Result) : Event Task Verdict → Slot.History
  | .run i =>
    match m.calls[i]? with
    | some (.ready task) => runSlotNotes m.state k i task
    | _ => []
  | .expire i =>
    match m.calls[i]? with
    | some (.parked _ _ (some late)) => runSlotNotes m.state k i late
    | _ => []
  | _ => []

section Notes

variable {m : Machine (Log W) Task Result} {t : Task}

theorem slotNotes_call (k : Nat) (m : Machine (Log W) Task Result) (start : Task) :
    slotNotes k m (.call start) = [] := rfl

theorem slotNotes_run (h : m.calls[i]? = some (.ready t)) :
    slotNotes k m (.run i) = runSlotNotes m.state k i t := by
  simp only [slotNotes, h]

theorem slotNotes_expire {j : Nat} {wake : Task} (h : m.calls[i]? = some (.parked j wake (some t))) :
    slotNotes k m (.expire i) = runSlotNotes m.state k i t := by
  simp only [slotNotes, h]

theorem slotNotes_answer (k : Nat) (m : Machine (Log W) Task Result) (i : Nat) (verdict : Verdict) :
    slotNotes k m (.answer i verdict) = [] := rfl

end Notes

section Runs

variable [Writer W] {r₁ r₂ : Run W} {ev : Event Task Verdict}

/-- What happened on the slot `k` in a run. -/
def Run.slotHistory (r : Run W) (k : Nat) : Slot.History :=
  Machine.noted (program W) (slotNotes k) (Machine.idle r.log) r.events

/-- An event adds to the history of a slot what it notes there. -/
theorem Run.Next.slotHistory (h : r₁.Next ev r₂) (k : Nat) :
    r₂.slotHistory k = r₁.slotHistory k ++ slotNotes k r₁.machine ev := by
  rw [Run.slotHistory, h.events, ← h.log]
  exact Machine.noted_concat r₁.reached h.step

end Runs

/-! ### What is filled -/

/-- What the history of the slot `k` amounts to, which is empty if there is no such slot. -/
structure Tally (g : Geometry) (c k : Nat) (log : Log W) (H : Slot.History) : Prop where
  chunks : ∀ fill ∈ H.fills, Slot.InChunks c fill.offset fill.data
  none : log.ring.slots[k]? = none → H.fills = []
  gap : ∀ s, log.ring.slots[k]? = some s → s.gap = g.capacity * g.ringSize
  capacity : ∀ s, log.ring.slots[k]? = some s → s.capacity = g.capacity
  filled : ∀ s, log.ring.slots[k]? = some s → s.Filled H

namespace Tally

variable {g : Geometry} {log log' : Log W} {H : Slot.History} {t : Task}

/-- The account of a slot is about that slot alone. -/
theorem congr (h : Tally g c k log H) (h_slot : log'.ring.slots[k]? = log.ring.slots[k]?) :
    Tally g c k log' H := by
  constructor
  case chunks => exact h.chunks
  all_goals rw [h_slot]
  exacts [h.none, h.gap, h.capacity, h.filled]

/-- A step that is not on the slot notes nothing there. -/
theorem runSlotNotes_of_ne (h_task : ∀ task next, t ≠ .onSlot k task next) (log : Log W) (i : Nat) :
    runSlotNotes log k i t = [] := by
  cases t with
  | onSlot k' task next =>
    rw [runSlotNotes, if_neg]
    rintro rfl
    exact h_task task next rfl
  | _ => rfl

/-- A step that is not on the slot leaves it. -/
theorem getElem?_slots_run (h_task : ∀ task next, t ≠ .onSlot k task next) (log : Log W) :
    (run t log).2.ring.slots[k]? = log.ring.slots[k]? := by
  cases hs : log.ring.slots[k]? with
  | none =>
    rw [List.getElem?_eq_none_iff] at hs ⊢
    rw [length_slots_run]
    exact hs
  | some s =>
    obtain ⟨s', hs', rfl | ⟨task, next, h_eq, -⟩⟩ := slot_run hs t
    · exact hs'
    · exact absurd h_eq (h_task task next)

/-- **A step keeps the tally.** -/
theorem run (h : Tally g c k log H) (ht : t.Chunked c) (i : Nat) :
    Tally g c k (Log.run t log).2 (H ++ runSlotNotes log k i t) := by
  by_cases h_task : ∃ task next, t = .onSlot k task next
  · obtain ⟨task, next, rfl⟩ := h_task
    have h_notes : runSlotNotes log k i (.onSlot k task next) =
        (log.ring.slots[k]?.map (·.stepNotes i task)).getD [] := if_pos rfl
    rw [h_notes]
    cases hs : log.ring.slots[k]? with
    | none =>
      -- the step is a fault, and there is nothing to note
      obtain ⟨broken, h_run⟩ := run_onSlot_of_none hs task next
      rw [h_run, Option.map_none, Option.getD_none, List.append_nil]
      exact h
    | some s =>
      have h_gap : 0 < s.gap := by
        rw [h.gap s hs]
        exact Nat.mul_pos g.capacity_pos g.ringSize_pos
      -- the sizes of the slot are fixed for good
      have h_sizes := Slot.keeps_run (Slot.keeps_sizes s.gap s.capacity) task
        (fun _ _ _ => trivial) ⟨rfl, rfl⟩
      have hs' : (Log.run (.onSlot k task next) log).2.ring.slots[k]? = some (Slot.run task s).2 := by
        obtain ⟨h_lt, -⟩ := List.getElem?_eq_some_iff.1 hs
        rw [run_onSlot hs]
        exact List.getElem?_set_self h_lt
      rw [Option.map_some, Option.getD_some]
      constructor
      -- a fill that is new is one of the step's own chunks
      case chunks =>
        intro fill h_mem
        rw [Slot.History.fills_append, List.mem_append] at h_mem
        rcases h_mem with h_old | h_new
        · exact h.chunks fill h_old
        · cases Slot.fills_stepNotes s i task with
          | none h_fills =>
            rw [h_fills] at h_new
            cases h_new
          | one h_copies h_fills =>
            rw [h_fills, List.mem_singleton] at h_new
            rw [h_new]
            exact ht.1.1 _ _ h_copies
      all_goals rw [hs']
      case none => exact nofun
      case gap =>
        rintro _ ⟨⟩
        exact h_sizes.1.trans (h.gap s hs)
      case capacity =>
        rintro _ ⟨⟩
        exact h_sizes.2.trans (h.capacity s hs)
      case filled =>
        rintro _ ⟨⟩
        exact (h.filled s hs).step h_gap i task
  · -- the step is not one on this slot
    have h_else : ∀ task next, t ≠ .onSlot k task next := fun task next h_eq =>
      h_task ⟨task, next, h_eq⟩
    rw [runSlotNotes_of_ne h_else, List.append_nil]
    exact h.congr (getElem?_slots_run h_else log)

end Tally

end GroupCommit.Log
