/-!
# Machines of concurrent calls

A machine is a shared state and the calls that work on it. A call runs in atomic steps: a step reads
and changes the shared state and ends with a `Move`, which says how the call goes on. What a call is
about to do is a value of a type of tasks, and a `Program` gives the step of each task. Which call
runs next, when a deadline passes and how the outside world answers is not the machine's choice: it
is an `Event`, and `Machine.step` performs one event or refuses it when it is not possible. So a list
of events is one interleaving, and a statement about every interleaving is a statement about every
list of events.

Calls wait on conditions, which are numbered. Waking a condition makes every call that is parked on
it ready, and nothing else does, except that a call with a deadline may be made ready by the
deadline.

* `Move`, `Program`: the steps of calls.
* `Status`, `Machine`, `Event`, `Machine.step`: calls side by side.
* `Move.embed`: a step of one program as a step of a larger one.
-/

namespace GroupCommit

/-! ### Steps -/

/-- How a call goes on after a step. Tasks are of type `π`, results of type `ρ`. -/
inductive Move (π ρ : Type) where
  /-- The call is ready for this task. -/
  | goto (next : π)
  /-- The call waits on a condition. Once woken it is ready for `wake`; where it has a deadline, the
  deadline makes it ready for `late`. -/
  | park (condition : Nat) (wake : π) (late : Option π)
  /-- The call asks the outside world and waits for the answer. -/
  | outside (pending : π)
  /-- The call returns. -/
  | finish (result : ρ)
  /-- Every call parked on a condition is woken; the move that follows may depend on how many. -/
  | notify (condition : Nat) (next : Nat → Move π ρ)

/-- What each task does in its step on a state of type `σ`, and in the step that takes in an answer
of type `α` from the outside world. -/
structure Program (σ π α ρ : Type) where
  run : π → σ → Move π ρ × σ
  reply : π → α → σ → Move π ρ × σ

/-- A move of one program seen as a move of a larger one: its tasks become tasks of the larger one,
all its waiting is on `condition`, and its results lead on as `next` says. -/
def Move.embed {π ρ π' ρ' : Type} (condition : Nat) (task : π → π') (next : ρ → Move π' ρ') :
    Move π ρ → Move π' ρ'
  | .goto p => .goto (task p)
  | .park _ wake late => .park condition (task wake) (late.map task)
  | .outside p => .outside (task p)
  | .finish result => next result
  | .notify _ after => .notify condition fun woken => (after woken).embed condition task next

/-! ### Calls side by side -/

/-- Where a call stands. -/
inductive Status (π ρ : Type) where
  | ready (task : π)
  | parked (condition : Nat) (wake : π) (late : Option π)
  | outside (pending : π)
  | finished (result : ρ)

namespace Status

variable {π ρ : Type}

/-- Whether the call waits on this condition. -/
def parkedOn (condition : Nat) : Status π ρ → Bool
  | parked c _ _ => c == condition
  | _ => false

/-- The call after this condition was woken. -/
def woken (condition : Nat) : Status π ρ → Status π ρ
  | parked c wake late => if c = condition then ready wake else parked c wake late
  | status => status

/-- The result of a call that has returned. -/
def result? : Status π ρ → Option ρ
  | finished result => some result
  | _ => none

end Status

/-- A shared state and the calls on it, numbered in the order in which they were made. -/
structure Machine (σ π ρ : Type) where
  state : σ
  calls : List (Status π ρ)

/-- What can happen next. -/
inductive Event (π α : Type) where
  /-- A call is made, with this first task. -/
  | call (start : π)
  /-- A ready call makes its step. -/
  | run (call : Nat)
  /-- The deadline of a parked call passes, and the call makes the step for that. -/
  | expire (call : Nat)
  /-- The outside world answers a call. -/
  | answer (call : Nat) (answer : α)

namespace Machine

variable {σ π α ρ : Type}

/-- The machine with the call `i` in another status. -/
def setCall (m : Machine σ π ρ) (i : Nat) (status : Status π ρ) : Machine σ π ρ :=
  { m with calls := m.calls.set i status }

/-- How many calls wait on a condition. -/
def waiting (m : Machine σ π ρ) (condition : Nat) : Nat :=
  m.calls.countP (Status.parkedOn condition)

/-- The machine after waking a condition. -/
def wake (m : Machine σ π ρ) (condition : Nat) : Machine σ π ρ :=
  { m with calls := m.calls.map (Status.woken condition) }

/-- The machine after the call `i` has ended its step with a move. -/
def apply (m : Machine σ π ρ) (i : Nat) : Move π ρ → Machine σ π ρ
  | .goto task => m.setCall i (.ready task)
  | .park condition wake late => m.setCall i (.parked condition wake late)
  | .outside pending => m.setCall i (.outside pending)
  | .finish result => m.setCall i (.finished result)
  | .notify condition next => (m.wake condition).apply i (next (m.waiting condition))

/-- The machine after the call `i` has made a step with this outcome. -/
def perform (m : Machine σ π ρ) (i : Nat) (outcome : Move π ρ × σ) : Machine σ π ρ :=
  { m with state := outcome.2 }.apply i outcome.1

/-- The machine after an event, unless the event is not possible. -/
def step (program : Program σ π α ρ) (m : Machine σ π ρ) : Event π α → Option (Machine σ π ρ)
  | .call start => some { m with calls := m.calls ++ [.ready start] }
  | .run i =>
    match m.calls[i]? with
    | some (.ready task) => some (m.perform i (program.run task m.state))
    | _ => none
  | .expire i =>
    match m.calls[i]? with
    | some (.parked _ _ (some late)) =>
      some ((m.setCall i (.ready late)).perform i (program.run late m.state))
    | _ => none
  | .answer i answer =>
    match m.calls[i]? with
    | some (.outside pending) => some (m.perform i (program.reply pending answer m.state))
    | _ => none

/-- The machine after a list of events, unless one of them is not possible. -/
def steps (program : Program σ π α ρ) : Machine σ π ρ → List (Event π α) → Option (Machine σ π ρ)
  | m, [] => some m
  | m, event :: rest => (m.step program event).bind fun m => m.steps program rest

/-- A state on which no call has been made. -/
def idle (state : σ) : Machine σ π ρ := ⟨state, []⟩

end Machine

end GroupCommit
