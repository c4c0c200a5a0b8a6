import GroupCommit.Slot.Program

/-!
# Calls on a slot come to an end

Every step brings a call on a slot closer to its end, unless it blocks the call. It leads to a task from
which there is less to go; a call that is blocked goes on with a task from which there is no more to go
than before.

* `Task.toGo`: how far a call is from its end.
* `Nears`, `nears_run`: what a step does about it.
-/

namespace GroupCommit.Slot

/-- How many steps there are to go at most from this task on, if the call is not blocked in between. -/
def Task.toGo : Task → Nat
  | .acquire _ => 1
  | .tryAcquire _ => 1
  | .fill _ _ _ => 2
  | .fillJoin _ _ _ => 3
  | .join _ => 2
  | .rejoin _ => 1
  | .joinLate _ => 3
  | .release _ => 2
  | .abandon _ _ => 2
  | .skip _ => 2
  | .poison _ => 2
  | .announce _ => 1

/-- Every task has a step to go. -/
theorem Task.toGo_pos (task : Task) : 0 < task.toGo := by
  cases task <;> exact Nat.succ_pos _

/-- The end of a step after which there is less to go than `n`. A call that is blocked has made one step
for nothing. -/
inductive Nears (n : Nat) : Move Task Result → Prop
  | goto {task : Task} (h : task.toGo < n) : Nears n (.goto task)
  | park {wake : Task} {late : Option Task} (h : wake.toGo ≤ n) : Nears n (.park 0 wake late)
  | finish (result : Result) : Nears n (.finish result)
  | notify (result : Result) : Nears n (.notify 0 fun _ => .finish result)

variable {n tag : Nat} {task : Task} {ticket : Ticket}

theorem nears_faulting (broken : Fault) : Nears n (faulting broken) := .finish _

/-- Leaving is an end. -/
theorem nears_leaveWith (s : Slot) (result : Result) : Nears n (s.leaveWith result).1 := by
  rw [leaveWith]
  split
  · exact .finish _
  · exact nears_faulting _

/-- A poll leaves, or does what waiting does. -/
theorem nears_pollOr {wait : Slot → Move Task Result × Slot} (h : ∀ s, Nears n (wait s).1) (s : Slot) :
    Nears n (s.pollOr ticket wait).1 := by
  rw [pollOr]
  split
  · exact h _
  · exact nears_faulting _
  · exact nears_leaveWith _ _

theorem nears_await (h : 1 ≤ n) (s : Slot) : Nears n (s.await ticket).1 :=
  nears_pollOr (fun _ => .park h) s

/-- A call that gives up leaves, or joins again. -/
theorem nears_giveUp (h : 2 < n) (s : Slot) : Nears n (s.giveUp ticket).1 := by
  rw [giveUp]
  split
  · exact nears_faulting _
  · split
    · exact nears_faulting _
    · exact .finish _
    · exact .goto h

/-- A fill waits with its own task, is turned away, or goes on. -/
theorem nears_whenAccepted {s : Slot} {o : Move Task Result × Slot} (h_wait : task.toGo ≤ n)
    (h : Nears n o.1) : Nears n (s.whenAccepted tag task o).1 := by
  rw [whenAccepted]
  split
  · exact .finish _
  · exact .park h_wait
  · exact h

/-- A fill that is taken ends in a fault, or goes on with its ticket. -/
theorem nears_copyThen {offset : Nat} {data : Bytes}
    {completing other : Ticket → Slot → Move Task Result × Slot}
    (h_completing : ∀ ticket s, Nears n (completing ticket s).1)
    (h_other : ∀ ticket s, Nears n (other ticket s).1) (s : Slot) :
    Nears n (s.copyThen offset data completing other).1 := by
  rw [copyThen]
  split
  · exact nears_faulting _
  · split
    · exact h_completing _ _
    · exact h_other _ _

/-- **Every step of a call on a slot** brings the call closer to its end, or blocks it. -/
theorem nears_run (task : Task) (s : Slot) : Nears task.toGo (run task s).1 := by
  cases task with
  | acquire tag => exact nears_whenAccepted (Nat.le_refl _) (.finish _)
  | tryAcquire tag => exact .finish _
  | fill tag offset data =>
    refine nears_whenAccepted (Nat.le_refl _) (nears_copyThen ?_ (fun _ _ => .finish _) s)
    exact fun _ _ => .goto (Nat.lt_succ_self 1)
  | fillJoin tag offset data =>
    -- it goes on with a join, which is one step closer
    refine nears_whenAccepted (Nat.le_refl _) (nears_copyThen (fun _ _ => .finish _) ?_ s)
    exact fun _ _ => .goto (Nat.lt_succ_self 2)
  | join ticket => exact nears_await (Nat.le_succ 1) _
  | rejoin ticket => exact nears_await (Nat.le_refl 1) s
  | joinLate ticket => exact nears_pollOr (fun s => nears_giveUp (Nat.lt_succ_self 2) s) s
  | release flush =>
    rw [run]
    split
    · exact nears_faulting _
    · exact .goto (Nat.lt_succ_self 1)
  | abandon flush reason => exact .goto (Nat.lt_succ_self 1)
  | skip tag =>
    rw [run]
    split
    · exact nears_faulting _
    · exact .goto (Nat.lt_succ_self 1)
  | poison reason => exact .goto (Nat.lt_succ_self 1)
  | announce result => exact .notify result

end GroupCommit.Slot
