import GroupCommit.Proofs.Protocol.Writing

/-!
# Beginnings

A log begins with clean slots and no calls. A call that is made is no part of anything yet; once it
has reserved addresses for its record, all of the record is still to do.

* `Inv.initial`: a log at its beginning.
* `Inv.newCall`: a call is made.
* `Inv.reserve`: a call reserves addresses.
-/

namespace GroupCommit.Log

variable {g : Geometry} {i k : Nat} {A : Account} {s : Slot} {w : Work} {P : Picture}

/-! ### The beginning -/

/-- The account of a run in which nothing has happened; whether deadlines pass is settled before. -/
def Account.empty (allowed : Allowed) : Account := ⟨[], ∅, ∅, allowed⟩

/-- An account without any note is sound. -/
theorem Account.Sound.empty (allowed : Allowed) (h_room : g.capacity * g.ringSize < Word.limit) :
    (Account.empty allowed).Sound g 0 where
  layout := ⟨trivial, nofun, List.nodup_nil, by simpa [Account.empty, Journal.reservations]⟩
  filled_lt := nofun
  filled_apart := nofun
  bypassed_dvd := nofun
  bypassed_le := nofun
  flow := fun _ => nofun
  flush := nofun
  direct := nofun
  direct_unique := List.Pairwise.nil
  early := nofun
  written_le := nofun

/-- A slot in its first generation. -/
def firstSlot (g : Geometry) (k : Nat) : Slot where
  index := k
  capacity := g.capacity
  gap := g.capacity * g.ringSize
  tag := k * g.capacity
  dirty := 0
  highWater := 0
  phase := .filling
  waiters := 0
  skipped := []
  claims := 0
  durable := ⟨0, 0⟩
  buffer := .blank g.capacity

/-- Every slot is as it should be before anything has happened. -/
theorem SlotInv.first (hk : k < g.ringSize) (allowed : Allowed) :
    SlotInv g (Account.empty allowed) k (firstSlot g k) where
  index_eq := rfl
  capacity_eq := rfl
  gap_eq := rfl
  tag_dvd := Nat.dvd_mul_left _ _
  tag_index := Geometry.index_first hk
  closed := by
    intro a ha h_index
    -- the slot has no addresses below its first block
    have h_lt : a / g.capacity < k := by
      rw [Nat.div_lt_iff_lt_mul g.capacity_pos]
      exact ha
    rw [g.index_eq, Nat.mod_eq_of_lt (h_lt.trans hk)] at h_index
    omega
  ahead := nofun
  dirty_eq := rfl
  below := nofun
  last := fun h => absurd h (Nat.lt_irrefl 0)
  claim_le := le_rfl
  skipped := nofun
  skipped_nodup := List.nodup_nil
  unpassed := fun _ => nofun
  phase := ⟨g.capacity_pos, ⟨rfl, nofun, fun _ _ _ => Buffer.read_blank _ _⟩, 0, le_rfl, rfl⟩

/-- **The invariant holds at the beginning.** -/
theorem Inv.initial (allowed : Allowed) (h_room : g.capacity * g.ringSize < Word.limit) :
    Inv g ⟨Account.empty allowed, (List.range g.ringSize).map (firstSlot g), []⟩ where
  account := Account.Sound.empty allowed h_room
  ring := by rw [List.length_map, List.length_range]
  slot := by
    intro k s hs
    rw [List.getElem?_map] at hs
    obtain ⟨j, hj, rfl⟩ := Option.map_eq_some_iff.1 hs
    obtain ⟨h_lt, rfl⟩ := List.getElem?_eq_some_iff.1 hj
    -- the slots are the first ones, each at its place
    rw [List.length_range] at h_lt
    rw [List.getElem_range]
    exact SlotInv.first h_lt allowed
  call := by simp
  alone := by simp
  waiters := by
    intro k s hs
    rw [List.getElem?_map] at hs
    obtain ⟨j, hj, rfl⟩ := Option.map_eq_some_iff.1 hs
    rfl
  attended := by
    refine .inr fun k s hs => ?_
    rw [List.getElem?_map] at hs
    obtain ⟨j, hj, rfl⟩ := Option.map_eq_some_iff.1 hs
    trivial

/-! ### Calls -/

/-- Whoever attends to a slot goes on doing so when a call is made. -/
theorem Attended.append {calls : List View} (h : Attended calls k s) (v : View) :
    Attended (calls ++ [v]) k s := by
  -- the calls keep their numbers
  have h_mem : ∀ {j : Nat} {u : View}, calls[j]? = some u → (calls ++ [v])[j]? = some u := by
    intro j u hu
    obtain ⟨h_lt, -⟩ := List.getElem?_eq_some_iff.1 hu
    rw [List.getElem?_append_left h_lt, hu]
  have h_held : (∃ j : Nat, ∃ v h, calls[j]? = some v ∧ v.hold? = some h ∧ h.slot = k) →
      ∃ j : Nat, ∃ u h, (calls ++ [v])[j]? = some u ∧ u.hold? = some h ∧ h.slot = k := by
    rintro ⟨j, u, hold, hu, h_some⟩
    exact ⟨j, u, hold, h_mem hu, h_some⟩
  revert h
  unfold Attended
  cases s.phase with
  | filling => exact id
  | poisoned reason => exact id
  | flushing => exact h_held
  | reserving => exact h_held
  | full =>
    rintro ⟨j, u, τ, hu, h_ticket⟩
    exact ⟨j, u, τ, h_mem hu, h_ticket⟩

/-- A call is made, which is a commit or has nothing to reserve. -/
theorem Inv.newCall (h : Inv g P) {v : View} (hv : v = .fresh ∨ (v = .failed ∧ P.account.Failed)) :
    Inv g { P with calls := P.calls ++ [v] } := by
  have h_cases : ∀ {j : Nat} {u : View}, (P.calls ++ [v])[j]? = some u →
      P.calls[j]? = some u ∨ (j = P.calls.length ∧ u = v) := by
    intro j u hu
    rcases Nat.lt_or_ge j P.calls.length with h_lt | h_ge
    · rw [List.getElem?_append_left h_lt] at hu
      exact .inl hu
    · rw [List.getElem?_append_right h_ge, List.getElem?_singleton] at hu
      split at hu
      · exact .inr ⟨by omega, (Option.some.inj hu).symm⟩
      · cases hu
  -- the new call holds nothing and is counted nowhere
  have h_idle : (∀ hold, v.hold? ≠ some hold) ∧ ∀ k, v.waitsOn k = false := by
    rcases hv with rfl | ⟨rfl, -⟩ <;> exact ⟨nofun, fun _ => rfl⟩
  exact {
    account := h.account.mono (by simp)
    ring := h.ring
    slot := h.slot
    call := by
      intro j u hu
      rcases h_cases hu with h_old | ⟨rfl, rfl⟩
      · cases u with
        | fresh => exact h.call j _ h_old
        | failed => exact (h.call j _ h_old : P.account.Failed)
        | working w =>
          have h_work : WorkInv g P j w := h.call j _ h_old
          exact ⟨h_work.cut, h_work.part, h_work.middle, h_work.hold⟩
      · rcases hv with rfl | ⟨rfl, h_failed⟩
        · exact fun r hr => (h.account.layout.call_lt r hr).ne
        · exact h_failed
    alone := by
      intro j j' u u' hold hold' hu hu' h_some h_some' h_slot
      rcases h_cases hu with hu | ⟨-, rfl⟩
      · rcases h_cases hu' with hu' | ⟨-, rfl⟩
        · exact h.alone j j' u u' hold hold' hu hu' h_some h_some' h_slot
        · -- of two calls that hold something on one slot neither is new
          exact absurd h_some' (h_idle.1 hold')
      · exact absurd h_some (h_idle.1 hold)
    waiters := by
      intro k s hs
      rw [List.countP_append, h.waiters k s hs, List.countP_singleton, h_idle.2 k]
      rfl
    attended := h.attended.imp_right fun h_all k s hs => (h_all k s hs).append _ }

/-- The work on a record that has just got its addresses. -/
def Work.begin (e : Entry) : Work := ⟨e, fun _ => .todo, .todo 0, none, none⟩

/-- A call that has just reserved its addresses has all of its record before it. -/
theorem Inv.work_begin (h : Inv g P) {e : Entry} {record : Bytes}
    (h_fresh : ∀ r ∈ P.account.journal.reservations, r.call ≠ i) (h_cut : Cut g e record)
    (h_head : e.span.head = P.account.content.length) {P' : Picture}
    (h_account : P'.account = P.account.note (.reserved ⟨i, e.span.head, record⟩)) :
    WorkInv g P' i (Work.begin e) := by
  -- the record lies behind everything that is placed
  have h_open : ∀ a, e.span.head ≤ a → ¬ P'.account.Placed g a := by
    intro a ha h_placed
    rw [h_account] at h_placed
    have := h.account.placed_lt h_placed
    omega
  refine ⟨⟨record, ?_, h_cut⟩, ?_, ⟨?_, ?_, ?_⟩, nofun⟩
  · rw [h_account]
    exact List.mem_append_right _ (List.mem_singleton_self _)
  · intro p hp a ha
    exact h_open a ((h_cut.portion p hp).head_le.trans ha.1)
  · -- none of the middle is passed over yet
    intro a h₁ h₂
    omega
  · intro a h₁ _
    exact h_open a (h_cut.middle_within.1.trans (Nat.le_of_add_right_le h₁))
  · -- a direct write is of a call that has reserved addresses, and the note is no write
    intro wr h_started h_source h_call
    have h_old : .started wr ∈ P.account.journal := by
      simpa [h_account, Account.note] using h_started
    obtain ⟨⟨r', hr', h_call', -⟩, -⟩ := h.account.direct wr h_old h_source
    exact h_fresh r' hr' (h_call'.trans h_call)

/-- **A call reserves the next addresses for its record.** -/
theorem Inv.reserve (h : Inv g P) (hv : P.calls[i]? = some .fresh) {e : Entry} {record : Bytes}
    (h_cut : Cut g e record) (h_head : e.span.head = P.account.content.length)
    (h_room : P.account.content.length + record.length + g.capacity * g.ringSize < Word.limit) :
    Inv g { P with
      account := P.account.note (.reserved ⟨i, e.span.head, record⟩)
      calls := P.calls.set i (.working (Work.begin e)) } := by
  have h_fresh : ∀ r ∈ P.account.journal.reservations, r.call ≠ i := h.call i _ hv
  obtain ⟨s, hs⟩ := h.exists_slot
  obtain ⟨h_lt, -⟩ := List.getElem?_eq_some_iff.1 hv
  set r : Reservation := ⟨i, e.span.head, record⟩ with hr
  have h_none : ∀ t, ¬ (Note.reserved r).Concerns t := fun _ h_concerns => h_concerns
  have hev : Evolves g i 0 P.account (P.account.note (.reserved r)) :=
    Evolves.note h.account rfl (fun t ht => absurd ht (h_none t)) fun _ _ h_eq => by cases h_eq
  -- a reservation touches no slot, so any will do for the turn
  have ht : Turn g i 0 s s .fresh (.working (Work.begin e)) P { P with
      account := P.account.note (.reserved r)
      calls := P.calls.set i (.working (Work.begin e)) } := {
    account := hev
    here := hs
    slots := (set_of_getElem? hs).symm
    advances := Advances.refl _ _ s
    before := hv
    calls := rfl
    sound := h.account.note_reserved (h.account.layout.concat h_head h_lt h_fresh h_room)
    slot := (h.slot 0 s hs).note hev
      (PhaseInv.mono hev (Untouched.of_note h_none _) (h.slot 0 s hs).phase)
    view := h.work_begin h_fresh h_cut h_head rfl
    others := fun j _ v _ hold _ _ h_on =>
      h_on.mono hev (Untouched.of_note h_none _) (Steady.refl s)
    alone := fun _ h_some => by cases h_some
    waits := fun _ _ => rfl
    waiters := rfl
    attended := by
      -- a call without a record attends to nothing
      have h_here : P.account.Failed ∨
          Attended (P.calls.set i (.working (Work.begin e))) 0 s := by
        refine h.attended_same hv hs rfl rfl rfl ?_ fun _ h_some => by cases h_some
        rintro τ ⟨w, p, ⟨⟩, -⟩
      refine h_here.imp hev.failed fun h_here =>
        ⟨h_here, ?_, fun _ h_some => by cases h_some⟩
      rintro τ ⟨w, p, ⟨⟩, -⟩ }
  exact h.turn ht

end GroupCommit.Log
