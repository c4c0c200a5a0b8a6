import GroupCommit.Proofs.Log.Sweep
import GroupCommit.Proofs.Slot.Progress

/-!
# Commits come to an end

A commit whose record has its place makes a bounded number of steps. There are a bounded number of them
in each of its calls to a slot, and it comes to each portion once, tries its tail twice at most and
skips each generation of its middle once.

* `Task.toGo`, `Status.toGo`: how far a commit is from its end.
* `toGo_onSlot`, `toGo_answered`: every step brings a commit closer to its end.
-/

namespace GroupCommit.Log

/-! ### How far it is -/

section Parts

variable (e : Entry)

/-- How far it is from the middle on: each generation is skipped by a call to its slot, and then the
middle and the tail are written. -/
def middleToGo : Nat := 2 * e.middle.generationCount e.span.capacity + 9

/-- How far it is from the end of a portion on. After the head the tail may be tried once more. -/
def portionToGo : Portion → Nat
  | .whole => 1
  | .head => middleToGo e + 3
  | .tail => 1

/-- How far it is from the head on. -/
def headToGo : Nat := portionToGo e .head + 7

/-- How far it is once the tail was tried. -/
def offeredToGo (afterHead : Bool) : Nat := if afterHead then middleToGo e else headToGo e

end Parts

/-- How far a commit is from its end when a call to a slot returns. -/
def Next.toGo : Next → Nat
  | .acquired e p _ => portionToGo e p + 6
  | .joined e p _ => portionToGo e p + 3
  | .handedBack e p _ => portionToGo e p
  | .tailOffered e afterHead => offeredToGo e afterHead + 2
  | .tailFilled e afterHead => offeredToGo e afterHead
  | .skipped e number _ => 2 * (e.middle.generationCount e.span.capacity - (number + 1)) + 9
  | _ => 0

/-- How many steps there are to go at most, once the record has its place, if the commit is not blocked in
between. -/
def Task.toGo : Task → Nat
  | .onSlot _ task next => task.toGo + next.toGo
  | .writeSlot _ _ _ e p _ => portionToGo e p + 3
  | .writeDirect _ _ => 9
  | .complete _ => 1
  | _ => 0

/-- How many events there are to go at most: a step may block the commit or wait for an answer. -/
def Status.toGo : Status Task Result → Nat
  | .ready t => 2 * t.toGo + 1
  | .parked _ wake _ => 2 * wake.toGo
  | .outside t => 2 * t.toGo
  | .finished _ => 0

/-! ### The way of a record -/

section Way

variable {g : Geometry} {e : Entry} {tk : Option Ticket}

/-- The way of a portion begins with asking for its slot. -/
theorem toGo_acquireTask (p : Portion) : (acquireTask g e p tk).toGo = portionToGo e p + 7 :=
  Nat.add_comm 1 _

variable (g e tk) in
/-- The way of the tail. -/
theorem toGo_tailTask : (tailTask g e tk).toGo ≤ 8 := by
  unfold tailTask
  split
  · exact Nat.le_add_left 1 7
  · cases tk with
    | some τ => exact Nat.le_add_left 6 2
    | none => exact (toGo_acquireTask .tail).le

/-- The way of a middle of which some generations have been skipped. -/
theorem toGo_skipOrWriteTask (number : Nat) : (skipOrWriteTask g e number tk).toGo ≤
    2 * (e.middle.generationCount e.span.capacity - number) + 9 := by
  unfold skipOrWriteTask
  split
  · next h_lt =>
    show 2 + (2 * (e.middle.generationCount e.span.capacity - (number + 1)) + 9) ≤ _
    omega
  · exact Nat.le_add_left 9 _

/-- The way of the middle and the tail. -/
theorem toGo_middleTask : (middleTask g e tk).toGo ≤ middleToGo e := by
  unfold middleTask middleToGo
  split
  · have := toGo_tailTask g e tk
    omega
  · exact toGo_skipOrWriteTask 0

/-- The way of the whole span. -/
theorem toGo_headTask : (headTask g e tk).toGo ≤ headToGo e := by
  unfold headTask
  split
  · refine toGo_middleTask.trans ?_
    show middleToGo e ≤ middleToGo e + 3 + 7
    omega
  · exact (toGo_acquireTask .head).le

theorem toGo_afterOfferTask (afterHead : Bool) :
    (afterOfferTask g e afterHead tk).toGo ≤ offeredToGo e afterHead := by
  cases afterHead with
  | true => exact toGo_middleTask
  | false => exact toGo_headTask

theorem toGo_portionTask (p : Portion) : (portionTask g e p tk).toGo ≤ portionToGo e p := by
  cases p with
  | whole => exact le_rfl
  | tail => exact le_rfl
  | head =>
    show (if e.span.tailLength = 0 ∨ tk.isSome = true then middleTask g e tk
      else offerTailTask g e true).toGo ≤ middleToGo e + 3
    split
    · exact toGo_middleTask.trans (Nat.le_add_right _ _)
    · -- the tail is tried once more, and goes on with the middle
      show 1 + (middleToGo e + 2) ≤ middleToGo e + 3
      omega

end Way

/-! ### Steps -/

section Steps

variable {W : Type} {g : Geometry} {log : Log W} {status : Status Task Result}

/-- Behind its call on a slot, the way is shorter than it was in front of it. -/
theorem toGo_resume {next : Next} {answer : Slot.Result} (h : (resume g next answer).Leads status)
    (h_next : next.sweep? = none) : Status.toGo status ≤ 2 * next.toGo + 1 := by
  -- twice the steps to go, and one more while the call is ready to make the next
  have h_goto : ∀ {t : Task}, t.toGo ≤ next.toGo → Status.toGo (.ready t) ≤ 2 * next.toGo + 1 :=
    fun h_le => Nat.succ_le_succ (Nat.mul_le_mul_left 2 h_le)
  cases goesWith h with
  | finishes | ended | unreadable => exact Nat.zero_le _
  | stopped | poisoned => cases h_next
  | acquired =>
    refine h_goto ?_
    show 3 + (_ + 3) ≤ _ + 6
    omega
  | given => exact h_goto le_rfl
  | spared => exact h_goto ((toGo_portionTask _).trans (Nat.le_add_right _ _))
  | handedBack => exact h_goto (toGo_portionTask _)
  | accepted =>
    refine h_goto ?_
    show 2 + _ ≤ _ + 2
    exact (Nat.add_comm 2 _).le
  | declined => exact h_goto ((toGo_afterOfferTask _).trans (Nat.le_add_right _ _))
  | filled | unfilled => exact h_goto (toGo_afterOfferTask _)
  | skipped => exact h_goto (toGo_skipOrWriteTask _)

/-- **A step on a slot** brings its commit closer to its end. -/
theorem toGo_onSlot {k : Nat} {task : Slot.Task} {next : Next}
    (h : (run (.onSlot k task next) log).1.Leads status) (h_next : next.sweep? = none) :
    Status.toGo status < Status.toGo (.ready (.onSlot k task next)) := by
  show _ < 2 * (task.toGo + next.toGo) + 1
  have h_pos := task.toGo_pos
  cases hs : log.ring.slots[k]? with
  | none =>
    obtain ⟨broken, h_run⟩ := run_onSlot_of_none hs task next
    rw [h_run] at h
    cases h
    exact Nat.succ_pos _
  | some s =>
    rw [run_onSlot hs] at h
    -- the call on the slot comes closer to its end, and the log goes on from there
    have h_nears := Slot.nears_run task s
    generalize (Slot.run task s).1 = move at h h_nears
    cases h_nears with
    | goto h_lt =>
      cases h
      show 2 * (_ + next.toGo) + 1 < _
      omega
    | park h_le =>
      cases h
      show 2 * (_ + next.toGo) < _
      omega
    | finish result =>
      -- the call on the slot is over
      have := toGo_resume h h_next
      omega
    | notify result =>
      cases h with
      | notify h =>
        have := toGo_resume h h_next
        omega

/-- A step that a call to the Writer returns to brings its commit closer to its end. -/
theorem toGo_answered [Writer W] {t : Task} {verdict : Verdict} {w : Write} {i : Nat} {writer : W}
    (h : (answered t verdict log).1.Leads status) (h_write : t.write? i = some w)
    (h_pass : log.write verdict w.data w.address w.hint = (.ok (), writer)) :
    Status.toGo status < Status.toGo (.outside t) := by
  cases t with
  | writeSlot k f data e p tk =>
    cases h_write
    rw [answered, h_pass] at h
    cases h
    -- a flush that has been written is still to be handed back
    show 2 * (2 + portionToGo e p) + 1 < 2 * (portionToGo e p + 3)
    omega
  | writeDirect e tk =>
    cases h_write
    rw [answered, h_pass] at h
    cases h
    have := toGo_tailTask log.geometry e tk
    show 2 * _ + 1 < 2 * 9
    omega
  | _ => cases h_write

end Steps

end GroupCommit.Log
