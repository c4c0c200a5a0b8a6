import GroupCommit.Machine.Schedule
import GroupCommit.Slot.Basic

/-!
# Calls on a slot

The operations of a slot as calls of a machine. Everything between taking the slot's lock and giving
it up is one step; waking the waiting callers is a step of its own, since it happens after the lock
is given up. A call that cannot go on waits on the slot's condition and looks again when it is woken;
only a call that waits for its bytes to be written has a deadline.

Which operations wake the others matters: a fill only when it completes the slot, taking a flush
never, handing one back, skipping and poisoning always, and a call that faults never.
-/

namespace GroupCommit.Slot

/-- What a call on a slot returns. -/
inductive Reply where
  | done
  /-- Whether bytes are accepted now. -/
  | accepted (now : Bool)
  /-- The bytes were copied in. -/
  | filled (ticket : Ticket)
  /-- The bytes were written by somebody else, or the caller has to write this flush. -/
  | joined (flush : Option Flush)
  deriving DecidableEq, Repr

/-- How a call on a slot ends. -/
abbrev Result := Except (Stop LogError) Reply

/-- What a call on a slot is about to do. -/
inductive Task where
  /-- Wait until bytes of this generation are accepted. -/
  | acquire (tag : Nat)
  /-- Ask whether bytes of this generation are accepted now. -/
  | tryAcquire (tag : Nat)
  /-- Copy bytes in once they are accepted. -/
  | fill (tag offset : Nat) (data : Bytes)
  /-- Copy bytes in once they are accepted, and wait until they are written. -/
  | fillJoin (tag offset : Nat) (data : Bytes)
  /-- Wait until the bytes of a ticket are written. -/
  | join (ticket : Ticket)
  /-- Look again while waiting for the bytes of a ticket. -/
  | rejoin (ticket : Ticket)
  /-- Look again at the deadline of that wait. -/
  | joinLate (ticket : Ticket)
  /-- Hand back a flush that was written. -/
  | release (flush : Flush)
  /-- Hand back a flush that could not be written. -/
  | abandon (flush : Flush) (reason : PoisonReason)
  /-- End a generation without bytes. -/
  | skip (tag : Nat)
  /-- Stop the slot. -/
  | poison (reason : PoisonReason)
  /-- Wake every waiting call and return. -/
  | announce (result : Result)

/-- A step that ends its call in a fault. -/
def faulting (broken : Fault) : Move Task Result := .finish (.error (.fault broken))

/-! ### Waiting for bytes to be written -/

/-- Returns from a wait that was counted. -/
def leaveWith (s : Slot) (result : Result) : Move Task Result × Slot :=
  match s.leave with
  | (.ok (), s) => (.finish result, s)
  | (.error broken, s) => (faulting broken, s)

/-- Returns if the wait for a ticket is over, and otherwise does `wait`. A caller that faults stays
counted. -/
def pollOr (s : Slot) (ticket : Ticket) (wait : Slot → Move Task Result × Slot) :
    Move Task Result × Slot :=
  match s.poll ticket with
  | (none, s) => wait s
  | (some (.error (.fault broken)), s) => (faulting broken, s)
  | (some result, s) => s.leaveWith (result.map .joined)

/-- Returns if the wait for a ticket is over, and waits on otherwise. -/
def await (s : Slot) (ticket : Ticket) : Move Task Result × Slot :=
  s.pollOr ticket fun s => (.park 0 (.rejoin ticket) (some (.joinLate ticket)), s)

/-- What a waiting caller does at its deadline: it takes the early flush, or joins anew while
somebody else is writing. -/
def giveUp (s : Slot) (ticket : Ticket) : Move Task Result × Slot :=
  match s.leave with
  | (.error broken, s) => (faulting broken, s)
  | (.ok (), s) =>
    match s.claimAtDeadline ticket with
    | (.error broken, s) => (faulting broken, s)
    | (.ok (some flush), s) => (.finish (.ok (.joined (some flush))), s)
    | (.ok none, s) => (.goto (.join ticket), s)

/-! ### Steps -/

/-- Goes on with `next` once bytes of generation `tag` are accepted, and comes back to `task` when
woken before that. -/
def whenAccepted (s : Slot) (tag : Nat) (task : Task) (next : Move Task Result × Slot) :
    Move Task Result × Slot :=
  match s.accepts tag with
  | .error stop => (.finish (.error stop), s)
  | .ok false => (.park 0 task none, s)
  | .ok true => next

/-- Copies bytes in and goes on, as a fill that completes the slot or as one that does not. -/
def copyThen (s : Slot) (offset : Nat) (data : Bytes)
    (completing other : Ticket → Slot → Move Task Result × Slot) : Move Task Result × Slot :=
  match s.copyIn offset data with
  | (.error broken, s) => (faulting broken, s)
  | (.ok ticket, s) => if s.dirty = s.capacity then completing ticket s else other ticket s

/-- One step of a call on a slot. -/
def run : Task → Slot → Move Task Result × Slot
  | .acquire tag, s => s.whenAccepted tag (.acquire tag) (.finish (.ok .done), s)
  | .tryAcquire tag, s => (.finish ((s.accepts tag).map .accepted), s)
  | .fill tag offset data, s =>
    s.whenAccepted tag (.fill tag offset data) <| s.copyThen offset data
      (fun ticket s => (.goto (.announce (.ok (.filled ticket))), { s with phase := .full }))
      (fun ticket s => (.finish (.ok (.filled ticket)), s))
  | .fillJoin tag offset data, s =>
    s.whenAccepted tag (.fillJoin tag offset data) <| s.copyThen offset data
      (fun _ s => (.finish (.ok (.joined (some s.claimFull.1))), s.claimFull.2))
      (fun ticket s => (.goto (.join ticket), s))
  | .join ticket, s => { s with waiters := s.waiters + 1 }.await ticket
  | .rejoin ticket, s => s.await ticket
  | .joinLate ticket, s => s.pollOr ticket fun s => s.giveUp ticket
  | .release flush, s =>
    match s.handBack flush with
    | (.error (.fault broken), s) => (faulting broken, s)
    | (result, s) => (.goto (.announce (result.map fun _ => .done)), s)
  | .abandon flush reason, s => (.goto (.announce (.ok .done)), s.takeBack flush reason)
  | .skip tag, s =>
    match s.skipOver tag with
    | (.error broken, s) => (faulting broken, s)
    | (.ok (), s) => (.goto (.announce (.ok .done)), s)
  | .poison reason, s => (.goto (.announce (.ok .done)), s.poisonWith reason)
  | .announce result, s => (.notify 0 fun _ => .finish result, s)

/-- The program of the calls on a slot. They ask nothing of the outside world. -/
def program : Program Slot Task Empty Result where
  run := run
  reply := fun _ answer => nomatch answer

/-- Whether a waiting caller does anything at its deadline but join anew. -/
def actsAtDeadline (s : Slot) (ticket : Ticket) : Bool :=
  (s.poll ticket).1.isSome || s.phase = .filling

/-- Surroundings in which deadlines pass or, where `deadlines` is false, never do. A deadline at which
nothing would happen is not waited for. -/
def surroundings (deadlines : Bool) : Policy Slot Task Empty where
  answer := fun _ _ => none
  expires := fun task s =>
    match task with
    | .joinLate ticket => deadlines && s.actsAtDeadline ticket
    | _ => false

end GroupCommit.Slot
