import GroupCommit.Machine.Schedule

/-!
# Notifiers

A notifier guards a state by a lock and lets callers wait on it. Every closure given to it runs with
the lock held, so what it reads and what it changes belong together. A waiting call runs `pre` once
and, until one of them gives a value, `wake` after each notification. When its deadline passes, it no
longer waits for notifications; once it has the lock again, it runs `wake` for the last time and then
`onTimeout` under the same lock. Changing the state wakes nobody: only a notification does.

`Notifier.program` is the program of these calls over a state of any type. Slots wait by the same rules;
since what their calls do is fixed, `GroupCommit.Slot.Program` writes it down as tasks and not as
closures.
-/

namespace GroupCommit

namespace Notifier

/-- A closure that may release its caller with a value of type `β`. -/
abbrev Attempt (σ β : Type) := σ → Option β × σ

/-- A deadline and what to do when it passes. -/
structure Deadline (σ β : Type) where
  /-- The time allowed, in milliseconds. -/
  timeout : Nat
  onTimeout : σ → β × σ

/-- What released a waiting call. -/
inductive Release where
  /-- It did not have to wait. -/
  | pre
  /-- A wake closure gave a value. -/
  | wake
  /-- Its deadline passed. -/
  | timeout
  deriving DecidableEq, Repr

/-- What a call is about to do. -/
inductive Task (σ β : Type) where
  /-- Run a closure under the lock. -/
  | access (action : σ → β × σ)
  /-- Wake every waiting call. -/
  | notifyAll
  /-- Wait until `pre` or `wake` gives a value. -/
  | wait (pre wake : Attempt σ β) (deadline : Option (Deadline σ β))
  /-- Try again after a notification; `wake` has run `runs` times so far. -/
  | retry (wake : Attempt σ β) (deadline : Option (Deadline σ β)) (runs : Nat)
  /-- Go for the lock: the deadline has passed. -/
  | lapse (wake : Attempt σ β) (deadline : Deadline σ β) (runs : Nat)
  /-- Try for the last time and give up. -/
  | giveUp (wake : Attempt σ β) (deadline : Deadline σ β) (runs : Nat)

/-- What a call returns. -/
inductive Reply (β : Type) where
  /-- What the closure of `access` gave. -/
  | value (value : β)
  /-- How many waiting calls were woken. -/
  | woken (count : Nat)
  /-- What released a waiting call, with which value, and how often `wake` had run. -/
  | released (by_ : Release) (value : β) (runs : Nat)

/-- Goes back to waiting on the notifier's condition. -/
def park {σ β : Type} (wake : Attempt σ β) (deadline : Option (Deadline σ β)) (runs : Nat) :
    Move (Task σ β) (Reply β) :=
  .park 0 (.retry wake deadline runs) (deadline.map fun d => .lapse wake d runs)

/-- One step of a call on a notifier. -/
def run {σ β : Type} : Task σ β → σ → Move (Task σ β) (Reply β) × σ
  | .access action, s =>
    let (value, s) := action s
    (.finish (.value value), s)
  | .notifyAll, s => (.notify 0 fun count => .finish (.woken count), s)
  | .wait pre wake deadline, s =>
    match pre s with
    | (some value, s) => (.finish (.released .pre value 0), s)
    | (none, s) => (park wake deadline 0, s)
  | .retry wake deadline runs, s =>
    match wake s with
    | (some value, s) => (.finish (.released .wake value (runs + 1)), s)
    | (none, s) => (park wake deadline (runs + 1), s)
  | .lapse wake deadline runs, s => (.goto (.giveUp wake deadline runs), s)
  | .giveUp wake deadline runs, s =>
    match wake s with
    | (some value, s) => (.finish (.released .wake value (runs + 1)), s)
    | (none, s) =>
      let (value, s) := deadline.onTimeout s
      (.finish (.released .timeout value (runs + 1)), s)

/-- The program of the calls on a notifier. They ask nothing of the outside world. -/
def program (σ β : Type) : Program σ (Task σ β) Empty (Reply β) where
  run := run
  reply := fun _ answer => nomatch answer

/-- The surroundings in which deadlines of less than `horizon` milliseconds pass. -/
def surroundings (σ β : Type) (horizon : Nat) : Policy σ (Task σ β) Empty where
  answer := fun _ _ => none
  expires := fun task _ =>
    match task with
    | .lapse _ deadline _ => decide (deadline.timeout < horizon)
    | _ => false

end Notifier

end GroupCommit
