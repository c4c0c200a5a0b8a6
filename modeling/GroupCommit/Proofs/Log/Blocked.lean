import GroupCommit.Proofs.Protocol.Owing
import GroupCommit.Proofs.Slot.Steps

/-!
# Blocked calls

What is ahead of a call that is blocked. What it owes of its record lies behind the portion that it is
blocked with, except that a commit over several slots fills its tail, if it can, before it waits for its
head. In either case it waits for an earlier generation than those that it has still to come to.

* `Ahead`, `At.ahead`: the addresses that a blocked call has still to come to.
* `CopiedAhead`, `At.copiedAhead`: those that it has copied in ahead of their turn.
* `HasFlush`, `At.hasFlush`: no call is blocked while it has a flush.
* `waitRank`, `At.waitRank_lt`: the order of the generations that blocked calls wait for.
-/

namespace GroupCommit.Log

variable {g : Geometry} {format : Record.Format} {start : Task} {k a i : Nat} {task : Slot.Task}
  {next : Next} {v : View} {w : Work} {P : Picture} {s : Slot} {record : Bytes}

/-! ### Addresses that are ahead -/

/-- A call that is blocked with this task, and goes on like this, has still to come to the address `a` of
its record. -/
inductive Ahead : Slot.Task → Next → Nat → Prop
  | acquire {tag a : Nat} {e : Entry} {p : Portion} {tk : Option Ticket} (h : regionStart e p ≤ a) :
      Ahead (.acquire tag) (.acquired e p tk) a
  | fillJoin {tag offset a : Nat} {data : Bytes} {e : Entry} {p : Portion} {tk : Option Ticket}
      (h : regionStart e p ≤ a) : Ahead (.fillJoin tag offset data) (.joined e p tk) a
  /-- The portion itself is copied in. -/
  | rejoin {τ : Ticket} {a : Nat} {e : Entry} {p : Portion} {tk : Option Ticket}
      (h : regionStop e p ≤ a) : Ahead (.rejoin τ) (.joined e p tk) a
  /-- The tail is filled before the rest of the record, or before all of it but the head. -/
  | fill {tag offset a : Nat} {data : Bytes} {e : Entry} {afterHead : Bool} (h : e.span.head ≤ a)
      (h_head : afterHead = true → e.middle.start ≤ a) :
      Ahead (.fill tag offset data) (.tailFilled e afterHead) a

/-- The address lies in the tail of a call that is blocked on its head, and the tail is filled. -/
inductive CopiedAhead : Next → Nat → Prop
  | acquired {e : Entry} {τ : Ticket} {a : Nat} (h : e.middle.stop ≤ a) :
      CopiedAhead (.acquired e .head (some τ)) a
  | joined {e : Entry} {τ : Ticket} {a : Nat} (h : e.middle.stop ≤ a) :
      CopiedAhead (.joined e .head (some τ)) a

/-- A portion does not end before it begins. -/
theorem regionStart_le_stop (e : Entry) (p : Portion) : regionStart e p ≤ regionStop e p :=
  Nat.le_add_right _ _

/-- What a call owes lies ahead when it is the turn of a portion, and it is not in a tail that is
filled. -/
theorem Due.le_of_owes {p : Portion} {tk : Option Ticket} (h : Due w p tk)
    (h_cut : Cut g w.entry record) (h_owes : w.Owes g a) :
    regionStart w.entry p ≤ a ∧ (w.part p ≠ .todo → regionStop w.entry p ≤ a) ∧
      (p = .head → tk.isSome = true → a < w.entry.middle.stop) := by
  have h_middle_le := h_cut.middle_le
  have h_done : ∀ {n}, w.MiddleDone → w.middle = .todo n →
      w.entry.middle.start + n * g.capacity ≤ a → ¬ a < w.entry.middle.stop := by
    intro n h_done h_todo h_start h_stop
    have h_some : w.entry.middle.isEmpty = false := by
      rw [Extent.isEmpty, decide_eq_false_iff_not]
      omega
    cases (h_done h_some).symm.trans h_todo
  cases h with
  | whole h_has h_middle_done =>
    cases h_owes with
    | portion h_q h_part h_in =>
      cases Cut.not_has_of_single h_has h_q
      exact ⟨h_in.1, fun h_ne => absurd h_part h_ne, fun h_head => by cases h_head⟩
    | middle h_todo h_start h_stop => exact absurd h_stop (h_done h_middle_done h_todo h_start)
  | head h_has h_middle_todo h_tail =>
    -- the head is due, and the middle and the tail lie behind it
    have h_head_stop := h_cut.head_stop h_has.1
    have h_le := regionStart_le_stop w.entry .head
    cases h_owes with
    | @portion q h_q h_part h_in =>
      cases q with
      | whole => exact absurd h_q (by simp [Has, h_has.1])
      | head =>
        refine ⟨h_in.1, fun h_ne => absurd h_part h_ne, fun _ _ => ?_⟩
        have := h_in.2
        omega
      | tail =>
        have h_start := (h_cut.tail_start h_q).1 ▸ h_in.1
        refine ⟨by omega, fun _ => by omega, fun _ h_some => ?_⟩
        -- a tail that is to do has no ticket
        obtain ⟨τ, rfl⟩ := Option.isSome_iff_exists.1 h_some
        cases h_part.symm.trans (h_tail h_q)
    | middle h_todo h_start h_stop => exact ⟨by omega, fun _ => by omega, fun _ _ => h_stop⟩
  | tail h_has h_head h_middle_done =>
    cases h_owes with
    | @portion q h_q h_part h_in =>
      cases q with
      | whole => exact absurd h_q (by simp [Has, h_has.1])
      | head => cases (h_head h_q).symm.trans h_part
      | tail => exact ⟨h_in.1, fun h_ne => absurd h_part h_ne, fun h_head => by cases h_head⟩
    | middle h_todo h_start h_stop => exact absurd h_stop (h_done h_middle_done h_todo h_start)

/-- A portion with a ticket, other than the one whose turn it is, is the tail while the head is written,
and it lies behind the head and the middle. -/
theorem Due.behind {p q : Portion} {tk : Option Ticket} {τ : Ticket} (h : Due w q tk)
    (h_cut : Cut g w.entry record) (h_has : Has w.entry p) (h_part : w.part p = .ticketed τ)
    (h_ne : p ≠ q) :
    q = .head ∧ tk = some τ ∧ ∀ a, InRegion w.entry p a →
      regionStart w.entry q ≤ a ∧ regionStop w.entry q ≤ a ∧ w.entry.middle.stop ≤ a := by
  cases h with
  | whole h_single => exact absurd (Cut.not_has_of_single h_single h_has) h_ne
  | head h_head h_middle h_ticketed =>
    cases p with
    | whole => exact absurd h_has (by simp [Has, h_head.1])
    | head => exact absurd rfl h_ne
    | tail =>
      have h_part' := h_part.symm.trans (h_ticketed h_has)
      cases tk with
      | none => cases h_part'
      | some τ' =>
        cases h_part'
        -- only the head is due while another portion, the tail, has its ticket
        refine ⟨rfl, rfl, fun a h_in => ?_⟩
        have h_start := (h_cut.tail_start h_has).1 ▸ h_in.1
        have h_middle_le := h_cut.middle_le
        have h_head_stop := h_cut.head_stop h_head.1
        have h_le := regionStart_le_stop w.entry .head
        omega
  | tail h_tail h_head =>
    cases p with
    | whole => exact absurd h_has (by simp [Has, h_tail.1])
    | head => cases (h_head h_has).symm.trans h_part
    | tail => exact absurd rfl h_ne

/-- **What a blocked call owes lies ahead of it.** -/
theorem At.ahead (h_at : At g format start (.onSlot k task next) (.working w)) (h_blocks : Slot.Blocks task)
    (h_cut : Cut g w.entry record) (h_head : w.entry.span.head ≤ a) (h_owes : w.Owes g a) :
    Ahead task next a ∧ ¬ CopiedAhead next a := by
  cases h_blocks with
  | acquire tag =>
    cases h_at with
    | acquire h_free h_due h_part =>
      obtain ⟨h_start, -, h_tail⟩ := h_due.le_of_owes h_cut h_owes
      refine ⟨.acquire h_start, fun h_copied => ?_⟩
      cases h_copied with
      | acquired h_stop => exact absurd (h_tail rfl rfl) (Nat.not_lt.2 h_stop)
  | fillJoin tag offset data =>
    cases h_at with
    | fillJoin h_free h_due h_part =>
      obtain ⟨h_start, -, h_tail⟩ := h_due.le_of_owes h_cut h_owes
      refine ⟨.fillJoin h_start, fun h_copied => ?_⟩
      cases h_copied with
      | joined h_stop => exact absurd (h_tail rfl rfl) (Nat.not_lt.2 h_stop)
  -- the portion has its ticket, so what is owed lies behind it
  | rejoin τ =>
    cases h_at with
    | rejoin h_hold h_waits h_due h_part =>
      obtain ⟨-, h_stop, h_tail⟩ := h_due.le_of_owes h_cut h_owes
      refine ⟨.rejoin (h_stop (by rw [h_part]; nofun)), fun h_copied => ?_⟩
      cases h_copied with
      | joined h_stop => exact absurd (h_tail rfl rfl) (Nat.not_lt.2 h_stop)
  | fill tag offset data =>
    cases h_at with
    | @fillTail _ afterHead h_offer h_part =>
      refine ⟨.fill h_head fun h_after => ?_, fun h_copied => by cases h_copied⟩
      -- once the head is done, what is owed is in the middle or the tail
      have h_middle_le := h_cut.middle_le
      cases h_owes with
      | @portion q h_q h_part h_in =>
        cases q with
        | whole => exact absurd h_q (by simp [Has, h_offer.has.1])
        | head =>
          have h_done := h_offer.head h_q
          rw [h_part, headPart, if_pos h_after] at h_done
          cases h_done
        | tail => exact h_middle_le.trans ((h_cut.tail_start h_q).1 ▸ h_in.1)
      | middle h_todo h_start h_stop => exact (Nat.le_add_right _ _).trans h_start

/-- A blocked call with a ticket has it for a tail that it has filled ahead of its turn, unless it waits
for its bytes in that slot. -/
theorem At.copiedAhead (h_at : At g format start (.onSlot k task next) (.working w))
    (h_blocks : Slot.Blocks task) (h_cut : Cut g w.entry record) {p : Portion} {τ : Ticket}
    (h_has : Has w.entry p) (h_part : w.part p = .ticketed τ) :
    (k = portionSlot g w.entry p ∧ task = .rejoin τ) ∨
      ∀ a, InRegion w.entry p a → Ahead task next a ∧ CopiedAhead next a := by
  have h_ne : ∀ {q}, w.part q = .todo → p ≠ q := by
    rintro q h_todo rfl
    cases h_part.symm.trans h_todo
  cases h_blocks with
  | acquire tag =>
    cases h_at with
    | acquire h_free h_due h_todo =>
      obtain ⟨rfl, rfl, h_behind⟩ := h_due.behind h_cut h_has h_part (h_ne h_todo)
      exact .inr fun a h_in => ⟨.acquire (h_behind a h_in).1, .acquired (h_behind a h_in).2.2⟩
  | fillJoin tag offset data =>
    cases h_at with
    | fillJoin h_free h_due h_todo =>
      obtain ⟨rfl, rfl, h_behind⟩ := h_due.behind h_cut h_has h_part (h_ne h_todo)
      exact .inr fun a h_in => ⟨.fillJoin (h_behind a h_in).1, .joined (h_behind a h_in).2.2⟩
  -- it waits for this ticket, or for that of the head
  | rejoin τ' =>
    cases h_at with
    | @rejoin _ q _ _ h_hold h_waits h_due h_ticketed =>
      by_cases h_eq : p = q
      · subst h_eq
        cases h_part.symm.trans h_ticketed
        exact .inl ⟨rfl, rfl⟩
      · obtain ⟨rfl, rfl, h_behind⟩ := h_due.behind h_cut h_has h_part h_eq
        exact .inr fun a h_in => ⟨.rejoin (h_behind a h_in).2.1, .joined (h_behind a h_in).2.2⟩
  | fill tag offset data =>
    cases h_at with
    | fillTail h_offer h_todo =>
      -- before that only the head can have a ticket, but it is done or to do
      cases p with
      | whole => exact absurd h_has (by simp [Has, h_offer.has.1])
      | head =>
        have h_head := h_part.symm.trans (h_offer.head h_has)
        unfold headPart at h_head
        split at h_head <;> cases h_head
      | tail => exact absurd rfl (h_ne h_todo)

/-! ### Flushes -/

/-- The call has the flush of the slot `k` in its hands. -/
inductive HasFlush (k : Nat) : Status Task Result → Prop
  | toWrite {f : Flush} {data : Bytes} {e : Entry} {p : Portion} {tk : Option Ticket} :
      HasFlush k (.ready (.writeSlot k f data e p tk))
  | writing {f : Flush} {data : Bytes} {e : Entry} {p : Portion} {tk : Option Ticket} :
      HasFlush k (.outside (.writeSlot k f data e p tk))
  | written {f : Flush} {next : Next} : HasFlush k (.ready (.onSlot k (.release f) next))

/-- A ready call that has a flush is about to write it or to hand it back. -/
theorem At.hasFlush {t : Task} (h_at : At g format start t (.working w)) {hold : Hold}
    (h_hold : w.hold = some hold) : HasFlush hold.slot (.ready t) := by
  -- in most places a call has no flush
  have h_free : w.Free → HasFlush hold.slot (.ready t) := by
    intro h_free
    cases h_free.hold.symm.trans h_hold
  cases h_at with
  | acquire h => exact h_free h
  | fillJoin h => exact h_free h
  | join h => exact h_free h
  | rejoin h_none => cases h_none.symm.trans h_hold
  | offer h => exact h_free h.free
  | fillTail h => exact h_free h.free
  | filledTail h => exact h_free h.free
  | skip h => exact h_free h.free
  | skipped h => exact h_free h.free
  | writeSlot h_waits h_taken =>
    cases h_taken.symm.trans h_hold
    exact .toWrite
  | release h_waits h_written =>
    cases h_written.symm.trans h_hold
    exact .written
  | released h => exact h_free h
  | writeDirect h => exact h_free h.free
  | complete h => exact h_free h.free

/-! ### The order of the generations -/

/-- How far along in the address space a blocked call waits. A call that fills its tail ahead of its turn
comes first, since it only waits for calls that can make a step. -/
def waitRank : Slot.Task → Nat
  | .fill _ _ _ => 1
  | .acquire tag => tag + 2
  | .fillJoin tag _ _ => tag + 2
  | .rejoin ticket => ticket.tag + 2
  | _ => 0

/-- What blocks has a rank. -/
theorem waitRank_pos {task : Slot.Task} (h : Slot.Blocks task) : 0 < waitRank task := by
  cases h <;> exact Nat.succ_pos _

/-- A call that has to wait for a slot waits for its generation or a later one. -/
theorem tag_le_waitRank {s : Slot} {task : Slot.Task} (h : s.Waits task)
    (h_fill : ∀ tag offset data, task ≠ .fill tag offset data) : s.tag + 2 ≤ waitRank task := by
  cases task with
  | acquire tag => exact Nat.add_le_add_right (Slot.accepts_eq_false.1 h).2.1 2
  | fill tag offset data => exact absurd rfl (h_fill tag offset data)
  | fillJoin tag offset data => exact Nat.add_le_add_right (Slot.accepts_eq_false.1 h).2.1 2
  | rejoin ticket =>
    have h_open := (Slot.poll_eq_none.1 h).2.2.1
    exact Nat.add_le_add_right (Nat.le_of_not_lt fun h_lt => h_open (.inl h_lt)) 2
  | _ => exact h.elim

/-- Who is blocked is at work on its record. -/
theorem At.working_of_blocks (h_at : At g format start (.onSlot k task next) v)
    (h_blocks : Slot.Blocks task) : ∃ w, v = .working w := by
  cases h_at with
  | failing h_failing => cases h_failing <;> cases h_blocks
  | _ => exact ⟨_, rfl⟩

/-- **The order of the generations.** A call that is blocked and has still to come to an address waits for
an earlier generation than the one of the address, unless its slot is open for it. -/
theorem At.waitRank_lt (h_at : At g format start (.onSlot k task next) (.working w)) (h : Inv g P)
    (hv : P.calls[i]? = some (.working w)) (h_cut : Cut g w.entry record)
    (h_stop : a < entryStop w.entry) (h_dvd : g.capacity ∣ s.tag) (h_in : g.InBlock s.tag a)
    (h_ahead : Ahead task next a)
    (h_here : k = g.index s.tag → ¬ CopiedAhead next a → s.Waits task ∧ s.phase = .filling) :
    waitRank task < s.tag + 2 := by
  -- a portion that is to be copied in where the slot is open would not be blocked
  have h_todo : ∀ {p}, Has w.entry p → k = portionSlot g w.entry p → regionStart w.entry p ≤ a →
      (CopiedAhead next a → p = .head ∧ w.entry.middle.stop ≤ a) →
      (s.Waits task → s.accepts (portionTag w.entry p) = .ok false) →
        portionTag w.entry p + 2 < s.tag + 2 := by
    intro p h_has hk h_start h_copied h_waits
    refine Nat.add_lt_add_right (lt_of_le_of_ne ?_ fun h_eq => ?_) 2
    · exact (h_cut.portion p h_has).tag_le h_dvd h_in h_start
    · by_cases h_ahead : CopiedAhead next a
      · obtain ⟨rfl, h_tail⟩ := h_copied h_ahead
        have h_behind : regionStop w.entry .head ≤ a :=
          (h_cut.head_stop h_has.1).le.trans (h_cut.middle_le.trans h_tail)
        exact (h_cut.tag_lt h_has h_in h_behind h_stop).ne h_eq
      · obtain ⟨h_blocked, h_phase⟩ := h_here (by rw [hk, portionSlot, h_eq]) h_ahead
        exact (Slot.accepts_eq_false.1 (h_waits h_blocked)).2.2 ⟨h_eq.symm, h_phase⟩
  cases h_ahead with
  | acquire h_start =>
    cases h_at with
    | acquire h_free h_due h_part =>
      refine h_todo h_due.has rfl h_start (fun h_copied => ?_) id
      cases h_copied with
      | acquired h_tail => exact ⟨rfl, h_tail⟩
  | fillJoin h_start =>
    cases h_at with
    | fillJoin h_free h_due h_part =>
      refine h_todo h_due.has rfl h_start (fun h_copied => ?_) id
      cases h_copied with
      | joined h_tail => exact ⟨rfl, h_tail⟩
  -- the slot has not left the generation of the ticket, which lies in front of the address
  | rejoin h_behind =>
    cases h_at with
    | rejoin h_hold h_waits h_due h_part =>
      have h_work : WorkInv g P i w := h.call i _ hv
      obtain ⟨s', -, h_ticket⟩ : PartInv g P w.entry w.hold _ (.ticketed _) :=
        h_part ▸ h_work.part _ h_due.has
      have h_lt := h_cut.tag_lt h_due.has h_in h_behind h_stop
      rw [← h_ticket.tag_eq] at h_lt
      exact Nat.add_lt_add_right h_lt 2
  | fill => exact Nat.lt_of_lt_of_le Nat.one_lt_two (Nat.le_add_left 2 s.tag)

/-- A tail that is to be filled leaves the generation of its slot incomplete. -/
theorem At.not_full {tag offset : Nat} {data : Bytes}
    (h_at : At g format start (.onSlot k (.fill tag offset data) next) (.working w)) (h : Inv g P)
    (hv : P.calls[i]? = some (.working w)) (hs : P.slots[k]? = some s) (h_tag : s.tag = tag) :
    s.dirty ≠ g.capacity := by
  intro h_full
  cases h_at with
  | fillTail h_offer h_part =>
    have h_work : WorkInv g P i w := h.call i _ hv
    have h_todo : PartInv g P w.entry w.hold .tail .todo := h_part ▸ h_work.part _ h_offer.has
    obtain ⟨record, -, h_cut⟩ := h_work.cut
    have h_portion := h_cut.portion .tail h_offer.has
    -- its first byte would be filled
    refine h_todo _ h_portion.first_mem (.inl ((h.slot _ s hs).full_block h_full ?_))
    rw [h_tag]
    exact h_portion.inBlock h_portion.first_mem

end GroupCommit.Log
