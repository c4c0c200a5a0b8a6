import GroupCommit.Proofs.Log.Cut
import GroupCommit.Proofs.Protocol.Account
import GroupCommit.Proofs.Slot.Operations

/-!
# The picture of a log

A picture is what matters about a log and the calls on it: the account of what has happened, the slots,
and for each call how far its record has come. How a call gets there, and what it is about to do next,
is left out, so few kinds of steps remain, and the invariant `Inv` can be stated in terms of who has
which part of which record in hands.

The record of a call goes through the ring in portions, each of which is first `todo`, then has a
ticket, may be held by a flush of the call itself and is at last `done`, and it has a middle that goes
past the ring. The invariant says of every portion where its bytes are:

* A portion that is still to do has no byte in a slot and none in a skipped block.
* The bytes of a ticket are in the slot of its generation, and durable once that generation is over or
  an early flush that was taken after the fill has been handed back.
* The bytes of a flush are all that is in the slot, and the slot stays as it is until the flush comes
  back.
* What is done is durable.

Nothing here speaks of a single order of events. `GroupCommit.Proofs.Protocol.Turn` says what a step
of one call leaves to the others, and the modules after it go through the steps.
-/

namespace GroupCommit

/-- The phase of a slot whose flush is out. -/
def FlushKind.phase : FlushKind → Phase
  | .full => .flushing
  | .early => .reserving

namespace Log

/-! ### Views of calls -/

/-- How far a portion of a record has come. -/
inductive Part where
  | todo
  | ticketed (ticket : Ticket)
  /-- The call itself has the flush that covers the portion. -/
  | held
  | done

/-- How far the middle of a record has come. -/
inductive MiddlePart where
  /-- So many blocks of it have been skipped. -/
  | todo (number : Nat)
  /-- The Writer was asked to write it. -/
  | started
  | done

/-- How far a flush has come. -/
inductive Stage where
  | taken
  | inFlight (w : Write)
  | written

/-- A flush in the hands of a call. -/
structure Hold where
  slot : Nat
  /-- The portion for which the call came by the flush. -/
  portion : Portion
  flush : Flush
  stage : Stage

/-- A call with a record that has its place. -/
structure Work where
  entry : Entry
  part : Portion → Part
  middle : MiddlePart
  hold : Option Hold
  /-- The slot that counts the call among its waiters. -/
  waits : Option Nat

/-- The work with a portion that has come further. -/
def Work.setPart (w : Work) (p : Portion) (x : Part) : Work :=
  { w with part := Function.update w.part p x }

@[simp] theorem Work.setPart_self (w : Work) (p : Portion) (x : Part) :
    (w.setPart p x).part p = x := by
  simp [setPart]

theorem Work.setPart_of_ne (w : Work) {p q : Portion} (h : q ≠ p) (x : Part) :
    (w.setPart p x).part q = w.part q := by
  simp [setPart, h]

/-- What matters about a call. -/
inductive View where
  /-- No addresses are reserved yet. -/
  | fresh
  | working (w : Work)
  /-- The call has failed; nobody relies on it any more. -/
  | failed

namespace View

def hold? : View → Option Hold
  | working w => w.hold
  | _ => none

/-- The slot counts the call among its waiters. -/
def waitsOn (k : Nat) : View → Bool
  | working w => w.waits == some k
  | _ => false

/-- The call has a portion with this ticket. -/
def HasTicket (v : View) (τ : Ticket) : Prop :=
  ∃ w p, v = working w ∧ Has w.entry p ∧ w.part p = .ticketed τ

/-- A portion that has come further takes no other ticket away. -/
theorem HasTicket.setPart {w : Work} {τ : Ticket} (h : (working w).HasTicket τ) {p : Portion}
    (h_ne : w.part p ≠ .ticketed τ) (x : Part) : (working (w.setPart p x)).HasTicket τ := by
  obtain ⟨w, q, ⟨⟩, hq, h_part⟩ := h
  refine ⟨_, q, rfl, hq, ?_⟩
  rw [w.setPart_of_ne ?_ x, h_part]
  -- it is not the portion of this ticket that has come further
  rintro rfl
  exact h_ne h_part

/-- Tickets are a matter of the portions alone. -/
theorem HasTicket.congr {w w' : Work} {τ : Ticket} (h : (working w).HasTicket τ)
    (h_entry : w'.entry = w.entry) (h_part : w'.part = w.part) : (working w').HasTicket τ := by
  obtain ⟨w, p, ⟨⟩, hp, h_ticketed⟩ := h
  exact ⟨w', p, rfl, h_entry ▸ hp, (congrFun h_part p).trans h_ticketed⟩

end View

/-- An account, the slots and the calls. -/
structure Picture where
  account : Account
  slots : List Slot
  calls : List View

/-! ### Slots -/

namespace Account

variable (g : Geometry) (A : Account)

/-- The flushes of a generation have all succeeded, and none was longer than this. -/
def Calm (tag length : Nat) : Prop := ∃ n ≤ length, A.journal.flow g.capacity tag = .calm n

/-- A buffer with the filled bytes of a generation, and zeros elsewhere. -/
structure Mirrors (tag : Nat) (b : Buffer) : Prop where
  size : b.size = g.capacity
  filled : ∀ i < g.capacity, tag + i ∈ A.filled → b.read i = A.content.read (tag + i)
  blank : ∀ i < g.capacity, tag + i ∉ A.filled → b.read i = 0

/-- How many bytes of a generation are filled. -/
def filledIn (tag : Nat) : Nat := (A.filled.filter (g.InBlock tag)).card

end Account

variable (g : Geometry)

/-- What a phase says about its slot. -/
def PhaseInv (A : Account) (s : Slot) : Phase → Prop
  | .filling => s.dirty < g.capacity ∧ A.Mirrors g s.tag s.buffer ∧ A.Calm g s.tag s.highWater
  | .full => s.dirty = g.capacity ∧ A.Mirrors g s.tag s.buffer ∧ A.Calm g s.tag g.capacity
  | .flushing => s.dirty = g.capacity
  | .reserving => s.dirty < g.capacity ∧ 0 < s.highWater
  | .poisoned _ => A.Failed

/-- The invariant of one slot. -/
structure SlotInv (A : Account) (k : Nat) (s : Slot) : Prop where
  index_eq : s.index = k
  capacity_eq : s.capacity = g.capacity
  gap_eq : s.gap = g.capacity * g.ringSize
  tag_dvd : g.capacity ∣ s.tag
  tag_index : g.index s.tag = k
  /-- What the slot has left behind is durable, or was skipped. -/
  closed : ∀ a < s.tag, g.index a = k → A.Bypassed g a ∨ A.Durable g a
  /-- No byte is copied in ahead of its generation. -/
  ahead : ∀ a ∈ A.filled, g.index a = k → a < s.tag + g.capacity
  dirty_eq : s.dirty = A.filledIn g s.tag
  below : ∀ a ∈ A.filled, g.InBlock s.tag a → a < s.tag + s.highWater
  /-- The high water is the end of some fill. -/
  last : 0 < s.highWater → ∃ a ∈ A.filled, g.InBlock s.tag a ∧ a + 1 = s.tag + s.highWater
  claim_le : s.durable.claim ≤ s.claims
  skipped : ∀ t ∈ s.skipped, s.tag < t ∧ t ∈ A.bypassed ∧ g.index t = k
  skipped_nodup : s.skipped.Nodup
  /-- A block that was skipped is recorded until the slot has passed it. -/
  unpassed : ¬ s.Stopped → ∀ t ∈ A.bypassed, g.index t = k → s.tag ≤ t → t ∈ s.skipped
  phase : PhaseInv g A s s.phase

/-! ### Calls -/

/-- What the stage of a flush says about its generation. -/
def StageInv (A : Account) (i : Nat) (f : Flush) : Stage → Prop
  | .taken => A.Calm g f.tag f.length
  | .inFlight w => A.journal.flow g.capacity f.tag = .busy w ∧ w.call = i ∧
      w.source = .slot f.kind ∧ w.address = f.tag ∧ f.bytes = .ok w.data
  | .written => (∀ a ∈ A.filled, g.InBlock f.tag a → A.Durable g a) ∧
      (f.kind = .early → A.Calm g f.tag f.length)

/-- A flush that the call `i` holds, and the slot it is taken from. -/
structure HoldOn (A : Account) (i : Nat) (h : Hold) (s : Slot) : Prop where
  tag_eq : h.flush.tag = s.tag
  phase : s.phase = h.flush.kind.phase ∨ s.Stopped
  length_le : h.flush.length ≤ g.capacity
  early : h.flush.kind = .early → h.flush.length = s.highWater ∧ A.allowed.deadlines = true
  full : h.flush.kind = .full → h.flush.length = g.capacity
  filled : A.FilledUpTo g s.tag h.flush.length
  reach : ∀ a ∈ A.filled, g.InBlock s.tag a → a < s.tag + h.flush.length
  buffer : A.Mirrors g s.tag h.flush.buffer
  stage : StageInv g A i h.flush h.stage

/-- A ticket for a portion, and the slot it is for. -/
structure TicketOn (A : Account) (e : Entry) (p : Portion) (τ : Ticket) (s : Slot) : Prop where
  tag_eq : τ.tag = portionTag e p
  tag_le : τ.tag ≤ s.tag
  filled : ∀ a, InRegion e p a → a ∈ A.filled
  /-- Once an early flush that was taken after the fill is handed back, the bytes are durable. -/
  covered : τ.tag = s.tag → τ.earlier < s.durable.claim → ∀ a, InRegion e p a → A.Durable g a

/-- How far the call `i` has come with the portion `p`, when it has this flush in hands. -/
def PartInv (P : Picture) (e : Entry) (hold : Option Hold) (p : Portion) : Part → Prop
  | .todo => ∀ a, InRegion e p a → ¬ P.account.Placed g a
  | .ticketed τ => ∃ s, P.slots[portionSlot g e p]? = some s ∧ TicketOn g P.account e p τ s
  | .held => ∃ h, hold = some h ∧ h.portion = p ∧ h.slot = portionSlot g e p ∧
      h.flush.tag = portionTag e p ∧ (∀ a, InRegion e p a → a ∈ P.account.filled)
  | .done => ∀ a, InRegion e p a → P.account.Durable g a

/-- How far the call `i` has come with the middle of its record. -/
def MiddleInv (A : Account) (i : Nat) (m : Extent) : MiddlePart → Prop
  | .todo number =>
    (∀ a, m.start ≤ a → a < m.start + number * g.capacity → A.Bypassed g a) ∧
    (∀ a, m.start + number * g.capacity ≤ a → a < m.stop → ¬ A.Placed g a) ∧
    ∀ w, .started w ∈ A.journal → w.source = .direct → w.call ≠ i
  | .started => ∀ a, m.start ≤ a → a < m.stop → A.Bypassed g a
  | .done => ∀ a, m.start ≤ a → a < m.stop → A.Durable g a

/-- The invariant of a call with a record. -/
structure WorkInv (P : Picture) (i : Nat) (w : Work) : Prop where
  cut : ∃ record, .reserved ⟨i, w.entry.span.head, record⟩ ∈ P.account.journal ∧
    Cut g w.entry record
  part : ∀ p, Has w.entry p → PartInv g P w.entry w.hold p (w.part p)
  middle : MiddleInv g P.account i w.entry.middle w.middle
  hold : ∀ h, w.hold = some h →
    ∃ s, P.slots[h.slot]? = some s ∧ HoldOn g P.account i h s

/-- The invariant of a call. -/
def ViewInv (P : Picture) (i : Nat) : View → Prop
  | .fresh => ∀ r ∈ P.account.journal.reservations, r.call ≠ i
  | .working w => WorkInv g P i w
  | .failed => P.account.Failed

/-! ### The whole -/

/-- There is a call that will not leave the slot in this phase. -/
def Attended (calls : List View) (k : Nat) (s : Slot) : Prop :=
  match s.phase with
  | .full => ∃ j : Nat, ∃ v τ, calls[j]? = some v ∧ v.HasTicket τ ∧ τ.tag = s.tag ∧
      s.durable.claim ≤ τ.earlier
  | .flushing | .reserving => ∃ j : Nat, ∃ v h, calls[j]? = some v ∧ v.hold? = some h ∧ h.slot = k
  | _ => True

/-- **The invariant of a log.** -/
structure Inv (P : Picture) : Prop where
  account : P.account.Sound g P.calls.length
  ring : P.slots.length = g.ringSize
  slot : ∀ k s, P.slots[k]? = some s → SlotInv g P.account k s
  call : ∀ i v, P.calls[i]? = some v → ViewInv g P i v
  /-- A slot has given out one flush at most. -/
  alone : ∀ (i j : Nat) (v v' : View) (h h' : Hold), P.calls[i]? = some v →
    P.calls[j]? = some v' → v.hold? = some h → v'.hold? = some h' → h.slot = h'.slot → i = j
  waiters : ∀ k s, P.slots[k]? = some s → s.waiters = P.calls.countP (View.waitsOn k)
  /-- As long as no call to the Writer has failed, somebody looks after every slot. -/
  attended : P.account.Failed ∨ ∀ k s, P.slots[k]? = some s → Attended P.calls k s

end Log

end GroupCommit
