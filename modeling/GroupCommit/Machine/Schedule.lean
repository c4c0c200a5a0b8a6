import GroupCommit.Machine.Basic

/-!
# Schedules

One way to choose the events of a machine: run the oldest ready call, then let the outside world
answer, then let a deadline pass, until nothing more can happen by itself. A `Policy` says which
calls to the outside are answered and which deadlines pass. The machine that is left is settled:
every call has returned or waits for something that only a later call can bring.
-/

namespace GroupCommit

/-- What the surroundings of a machine do by themselves. -/
structure Policy (σ π α : Type) where
  /-- The answer to a call that waits for one, if it comes now. -/
  answer : π → σ → Option α
  /-- Whether the deadline that leads to this task passes now. -/
  expires : π → σ → Bool

namespace Policy

variable {σ π α ρ : Type}

/-- The answer to a call of the outside world, if it comes now. -/
def answerTo (policy : Policy σ π α) (state : σ) (i : Nat) : Status π ρ → Option (Event π α)
  | .outside pending => (policy.answer pending state).map fun answer => .answer i answer
  | _ => none

/-- The passing of a call's deadline, if it passes now. -/
def expiryOf (policy : Policy σ π α) (state : σ) (i : Nat) : Status π ρ → Option (Event π α)
  | .parked _ _ (some late) => if policy.expires late state then some (.expire i) else none
  | _ => none

/-- The step of a call that is ready. -/
def turnOf (i : Nat) : Status π ρ → Option (Event π α)
  | .ready _ => some (.run i)
  | _ => none

/-- The event of the first call that `choose` gives one for. -/
def firstOf (choose : Nat → Status π ρ → Option (Event π α)) :
    Nat → List (Status π ρ) → Option (Event π α)
  | _, [] => none
  | i, status :: rest => (choose i status).or (firstOf choose (i + 1) rest)

/-- The next event under a policy, if something happens by itself. -/
def next? (policy : Policy σ π α) (m : Machine σ π ρ) : Option (Event π α) :=
  (firstOf turnOf 0 m.calls).or <|
    (firstOf (policy.answerTo m.state) 0 m.calls).or <|
      firstOf (policy.expiryOf m.state) 0 m.calls

end Policy

namespace Machine

variable {σ π α ρ : Type}

/-- The machine once nothing happens by itself any more, or after `fuel` events. -/
def settle (program : Program σ π α ρ) (policy : Policy σ π α) :
    Nat → Machine σ π ρ → Machine σ π ρ
  | 0, m => m
  | fuel + 1, m =>
    match (policy.next? m).bind (m.step program) with
    | some m => settle program policy fuel m
    | none => m

/-- Makes a call and lets the machine settle. -/
def callAndSettle (program : Program σ π α ρ) (policy : Policy σ π α) (fuel : Nat)
    (m : Machine σ π ρ) (start : π) : Machine σ π ρ :=
  settle program policy fuel { m with calls := m.calls ++ [.ready start] }

/-- Makes one call on a state on which no other call works: the state it leaves, and its result if it
returns. -/
def runAlone (program : Program σ π α ρ) (policy : Policy σ π α) (fuel : Nat) (state : σ)
    (start : π) : Option ρ × σ :=
  let m := callAndSettle program policy fuel (idle state) start
  (m.calls.head?.bind Status.result?, m.state)

end Machine

end GroupCommit
