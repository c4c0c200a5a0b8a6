import GroupCommit.Proofs.Log.Flow
import GroupCommit.Proofs.Ring.Blocks
import Mathlib.Data.List.Nodup

/-!
# The account of a run

The journal of a run says what was reserved and what the Writer was asked for. An account adds what
no note tells: which addresses were copied into a slot and which blocks were skipped. From these it
follows which addresses are durable, that is, hold their byte on the medium.

* `Account.Durable`: the byte of the record is where it belongs.
* `Account.Sound`: what is true of the account in every state of a run.
* `Account.durable_note`, `Account.Sound.note_started` and the like: what an entry in the account
  leaves as it was.
-/

namespace GroupCommit.Log

/-- The call that a note is about. -/
def Note.call : Note → Nat
  | .reserved r => r.call
  | .started w => w.call
  | .returned w _ => w.call

/-- What may happen in a run besides commits and calls to the Writer. -/
structure Allowed where
  /-- Deadlines pass. -/
  deadlines : Bool
  /-- Somebody else asks for the log to be poisoned. -/
  poisoning : Bool

/-- What has happened in a run. -/
structure Account where
  journal : Journal
  /-- The addresses whose bytes were copied into a slot. -/
  filled : Finset Nat
  /-- The blocks that were skipped, by their tags. -/
  bypassed : Finset Nat
  allowed : Allowed

/-- Bytes appended at the end leave the earlier ones as they are. -/
theorem Bytes.read_append {xs ys : Bytes} {a : Nat} (h : a < xs.length) :
    Bytes.read (xs ++ ys) a = Bytes.read xs a := by
  simp only [Bytes.read, List.getD_eq_getElem?_getD]
  rw [List.getElem?_append_left h]

namespace Account

variable (g : Geometry) (A : Account)

/-- The reserved records, one after another. -/
def content : Bytes := A.journal.content

/-- The account with one more note. -/
def note (n : Note) : Account := { A with journal := A.journal ++ [n] }

/-- The account after bytes were copied in from `start` up to `stop`. -/
def fill (start stop : Nat) : Account := { A with filled := A.filled ∪ Finset.Ico start stop }

/-- The account after a block was skipped. -/
def bypass (tag : Nat) : Account := { A with bypassed := insert tag A.bypassed }

/-- The address lies in a block that was skipped. -/
def Bypassed (a : Nat) : Prop := ∃ t ∈ A.bypassed, g.InBlock t a

/-- The address has found its way past the slots or into one. -/
def Placed (a : Nat) : Prop := a ∈ A.filled ∨ A.Bypassed g a

/-- The medium holds the byte of the record that the address was reserved for. -/
def Durable (a : Nat) : Prop :=
  A.Placed g a ∧ A.journal.replay a = some (A.content.read a)

/-- The address was reserved by this call. -/
def Owns (call a : Nat) : Prop :=
  ∃ r ∈ A.journal.reservations, r.call = call ∧ r.head ≤ a ∧ a < r.stop

/-- The addresses from `start` up to `stop` were reserved by this call. -/
def OwnsRange (call start stop : Nat) : Prop :=
  ∃ r ∈ A.journal.reservations, r.call = call ∧ r.head ≤ start ∧ stop ≤ r.stop

/-- Some address of the block is filled, and the first `length` bytes go no further than that. -/
def FilledUpTo (tag length : Nat) : Prop :=
  ∃ a ∈ A.filled, g.InBlock tag a ∧ tag + length ≤ a + 1

/-- There is a reason for the log to be poisoned: a call to the Writer did not succeed, or somebody has
asked for it. -/
def Failed : Prop := A.journal.Failed ∨ A.allowed.poisoning = true

/-! ### What is true of the reservations -/

/-- The reservations tile the address space up to its room, one for each call. -/
structure Layout (rs : List Reservation) (calls : Nat) : Prop where
  tiles : Tiles 0 rs
  call_lt : ∀ r ∈ rs, r.call < calls
  nodup : (rs.map Reservation.call).Nodup
  room : (rs.flatMap Reservation.record).length + g.capacity * g.ringSize < Word.limit

namespace Layout

variable {g} {rs : List Reservation} {calls : Nat}

/-- A call has at most one reservation. -/
theorem eq_of_call (h : Layout g rs calls) {r r' : Reservation} (hr : r ∈ rs) (hr' : r' ∈ rs)
    (h_call : r.call = r'.call) : r = r' :=
  List.inj_on_of_nodup_map h.nodup hr hr' h_call

/-- Two reservations that share an address are the same. -/
theorem eq_of_mem (h : Layout g rs calls) {r r' : Reservation} {a : Nat} (hr : r ∈ rs)
    (hr' : r' ∈ rs) (h₁ : r.head ≤ a) (h₂ : a < r.stop) (h₁' : r'.head ≤ a) (h₂' : a < r'.stop) :
    r = r' := by
  by_contra h_ne
  rcases h.tiles.disjoint hr hr' h_ne with h_le | h_le <;> omega

/-- More calls do not disturb a layout. -/
theorem mono (h : Layout g rs calls) {calls' : Nat} (h_le : calls ≤ calls') :
    Layout g rs calls' where
  tiles := h.tiles
  call_lt := fun r hr => (h.call_lt r hr).trans_le h_le
  nodup := h.nodup
  room := h.room

/-- A reservation that starts where the records end, of a call that has none yet, extends the layout. -/
theorem concat (h : Layout g rs calls) {r : Reservation}
    (h_head : r.head = (rs.flatMap Reservation.record).length) (h_call : r.call < calls)
    (h_new : ∀ r' ∈ rs, r'.call ≠ r.call)
    (h_room : (rs.flatMap Reservation.record).length + r.record.length
      + g.capacity * g.ringSize < Word.limit) : Layout g (rs ++ [r]) calls where
  tiles := h.tiles.concat (by rw [Nat.zero_add]; exact h_head)
  call_lt := by
    intro r' hr'
    rcases List.mem_append.1 hr' with h_mem | h_mem
    · exact h.call_lt r' h_mem
    · rw [List.mem_singleton.1 h_mem]
      exact h_call
  nodup := by
    rw [List.map_append, List.nodup_append]
    refine ⟨h.nodup, by simp, ?_⟩
    intro c hc c' hc' h_eq
    -- the call has reserved nothing before
    obtain ⟨r', hr', rfl⟩ := List.mem_map.1 hc
    rw [List.map_singleton, List.mem_singleton] at hc'
    exact h_new r' hr' (h_eq.trans hc')
  room := by simpa [Nat.add_assoc] using h_room

end Layout

/-! ### What is true of the account -/

/-- The account adds up. -/
structure Sound (calls : Nat) : Prop where
  layout : Layout g A.journal.reservations calls
  /-- Only reserved addresses are filled, and no block is skipped in which some address is. -/
  filled_lt : ∀ a ∈ A.filled, a < A.content.length
  filled_apart : ∀ a ∈ A.filled, ¬ A.Bypassed g a
  bypassed_dvd : ∀ t ∈ A.bypassed, g.capacity ∣ t
  bypassed_le : ∀ t ∈ A.bypassed, t + g.capacity ≤ A.content.length
  /-- The flushes of each generation keep to the grammar. -/
  flow : ∀ t, A.journal.flow g.capacity t ≠ .misused
  /-- A flush writes a block, and no more of it than is filled. -/
  flush : ∀ w, .started w ∈ A.journal → w.IsFlush →
    g.capacity ∣ w.address ∧ w.data.length ≤ g.capacity ∧ A.FilledUpTo g w.address w.data.length
  /-- A direct write goes to addresses of its call in blocks that are skipped. -/
  direct : ∀ w, .started w ∈ A.journal → w.source = .direct →
    A.OwnsRange w.call w.address w.stop ∧ ∀ a, w.Covers a → A.Bypassed g a
  direct_unique : (A.journal.writes.filter (·.source = .direct)).Pairwise (·.call ≠ ·.call)
  /-- Early flushes come of deadlines. -/
  early : ∀ w, .started w ∈ A.journal → w.source = .slot .early → A.allowed.deadlines = true
  /-- Nothing is written behind what is reserved. -/
  written_le : ∀ w, .returned w (.ok ()) ∈ A.journal → w.stop ≤ A.content.length

variable {g A} {calls : Nat}

/-- Only bytes of the log are filled or written directly. -/
theorem Sound.placed_lt (h : A.Sound g calls) {a : Nat} (ha : A.Placed g a) :
    a < A.content.length := by
  rcases ha with h_filled | ⟨t, h_mem, h_in⟩
  · exact h.filled_lt a h_filled
  · exact h_in.2.trans_le (h.bypassed_le t h_mem)

/-- No call to the Writer reaches behind what is reserved. -/
theorem Sound.stop_le_of_started (h : A.Sound g calls) {w : Write} (hw : .started w ∈ A.journal) :
    w.stop ≤ A.content.length := by
  by_cases h_flush : w.IsFlush
  · obtain ⟨-, -, a, ha, -, h_le⟩ := h.flush w hw h_flush
    have h_lt := h.filled_lt a ha
    rw [Write.stop]
    omega
  · obtain ⟨⟨r, hr, -, -, h_stop⟩, -⟩ := h.direct w hw (not_not.1 h_flush)
    have h_le := h.layout.tiles.stop_le hr
    rw [content, Journal.content]
    omega

/-- An address belongs to one call. -/
theorem Sound.owner_unique (h : A.Sound g calls) {i j a : Nat} (hi : A.Owns i a)
    (hj : A.Owns j a) : i = j := by
  obtain ⟨r, hr, rfl, h₁, h₂⟩ := hi
  obtain ⟨r', hr', rfl, h₁', h₂'⟩ := hj
  rw [h.layout.eq_of_mem hr hr' h₁ h₂ h₁' h₂']

/-- A sound account stays sound when calls are added. -/
theorem Sound.mono (h : A.Sound g calls) {calls' : Nat} (h_le : calls ≤ calls') :
    A.Sound g calls' :=
  { h with layout := h.layout.mono h_le }

/-! ### Entries that are not notes -/

/-- A fill puts no byte at risk that was durable. -/
theorem Durable.fill {a : Nat} (h : A.Durable g a) (start stop : Nat) :
    (A.fill start stop).Durable g a :=
  ⟨h.1.imp_left (Finset.mem_union_left _), h.2⟩

/-- A bypassed address stays bypassed. -/
theorem Bypassed.bypass {a : Nat} (h : A.Bypassed g a) (tag : Nat) :
    (A.bypass tag).Bypassed g a := by
  obtain ⟨t, h_mem, h_in⟩ := h
  exact ⟨t, Finset.mem_insert_of_mem h_mem, h_in⟩

/-- A bypass adds the addresses of its generation and no others. -/
theorem bypassed_bypass {a tag : Nat} :
    (A.bypass tag).Bypassed g a ↔ g.InBlock tag a ∨ A.Bypassed g a := by
  constructor
  · rintro ⟨t, h_mem, h_in⟩
    rcases Finset.mem_insert.1 h_mem with rfl | h_mem
    · exact .inl h_in
    · exact .inr ⟨t, h_mem, h_in⟩
  · rintro (h_in | h)
    · exact ⟨tag, Finset.mem_insert_self _ _, h_in⟩
    · exact h.bypass tag

/-- A bypass puts no byte at risk that was durable. -/
theorem Durable.bypass {a : Nat} (h : A.Durable g a) (tag : Nat) :
    (A.bypass tag).Durable g a :=
  ⟨h.1.imp_right (·.bypass tag), h.2⟩

/-- An account stays sound when addresses of the log are filled that no direct write covers. -/
theorem Sound.fill (h : A.Sound g calls) {start stop : Nat}
    (h_new : ∀ a, start ≤ a → a < stop → a < A.content.length ∧ ¬ A.Bypassed g a) :
    (A.fill start stop).Sound g calls := by
  have h_cases : ∀ a ∈ (A.fill start stop).filled, a ∈ A.filled ∨ (start ≤ a ∧ a < stop) := by
    intro a ha
    rw [← Finset.mem_Ico]
    exact Finset.mem_union.1 ha
  exact { h with
    -- only the three facts about filled addresses see the new ones
    filled_lt := by
      intro a ha
      rcases h_cases a ha with h_old | ⟨h₁, h₂⟩
      · exact h.filled_lt a h_old
      · exact (h_new a h₁ h₂).1
    filled_apart := by
      intro a ha
      rcases h_cases a ha with h_old | ⟨h₁, h₂⟩
      · exact h.filled_apart a h_old
      · exact (h_new a h₁ h₂).2
    flush := by
      intro w hw h_flush
      obtain ⟨h_dvd, h_le, a, ha, h_in⟩ := h.flush w hw h_flush
      exact ⟨h_dvd, h_le, a, Finset.mem_union_left _ ha, h_in⟩ }

/-- An account stays sound when a whole generation of the log is bypassed of which nothing was
filled. -/
theorem Sound.bypass (h : A.Sound g calls) {tag : Nat} (h_dvd : g.capacity ∣ tag)
    (h_le : tag + g.capacity ≤ A.content.length)
    (h_new : ∀ a ∈ A.filled, ¬ g.InBlock tag a) : (A.bypass tag).Sound g calls :=
  { h with
    -- nothing that is filled may come to lie in a skipped block, and direct writes gain room
    filled_apart := by
      intro a ha h_bypassed
      rcases bypassed_bypass.1 h_bypassed with h_in | h_old
      · exact h_new a ha h_in
      · exact h.filled_apart a ha h_old
    bypassed_dvd := by
      intro t ht
      rcases Finset.mem_insert.1 ht with rfl | ht
      · exact h_dvd
      · exact h.bypassed_dvd t ht
    bypassed_le := by
      intro t ht
      rcases Finset.mem_insert.1 ht with rfl | ht
      · exact h_le
      · exact h.bypassed_le t ht
    direct := by
      intro w hw h_direct
      obtain ⟨h_owns, h_bypassed⟩ := h.direct w hw h_direct
      exact ⟨h_owns, fun a ha => (h_bypassed a ha).bypass tag⟩ }

/-! ### Notes -/

/-- A call keeps what it has reserved. -/
theorem OwnsRange.note {i start stop : Nat} (h : A.OwnsRange i start stop) (n : Note) :
    (A.note n).OwnsRange i start stop := by
  obtain ⟨r, hr, h_call, h_in⟩ := h
  refine ⟨r, ?_, h_call, h_in⟩
  rw [Journal.mem_reservations] at hr ⊢
  exact List.mem_append_left _ hr

/-- Whoever owns a range owns each of its addresses. -/
theorem OwnsRange.owns {i start stop a : Nat} (h : A.OwnsRange i start stop) (h₁ : start ≤ a)
    (h₂ : a < stop) : A.Owns i a := by
  obtain ⟨r, hr, h_call, h_head, h_stop⟩ := h
  exact ⟨r, hr, h_call, h_head.trans h₁, h₂.trans_le h_stop⟩

theorem journal_note (A : Account) (n : Note) : (A.note n).journal = A.journal ++ [n] := rfl

/-- A note on a generation moves its flow by one step. -/
theorem flow_note {n : Note} {tag : Nat} (h : n.Concerns tag) :
    (A.note n).journal.flow g.capacity tag = (A.journal.flow g.capacity tag).next g.capacity n := by
  rw [journal_note, Journal.flow_concat, if_pos h]

/-- The flushes of a generation are as they were unless the note is about one of them. -/
theorem flow_note_of_not {n : Note} {tag : Nat} (h : ¬ n.Concerns tag) :
    (A.note n).journal.flow g.capacity tag = A.journal.flow g.capacity tag := by
  rw [journal_note, Journal.flow_concat, if_neg h]

/-- A failure is never taken back. -/
theorem Failed.note (h : A.Failed) (n : Note) : (A.note n).Failed :=
  h.imp_left fun h_failed => h_failed.append [n]

/-- A reservation appends its record to the content. -/
theorem content_note_reserved (r : Reservation) :
    (A.note (.reserved r)).content = A.content ++ r.record := by
  rw [content, note, Journal.content_append, content]
  simp [Journal.content, Journal.reservations, Note.reservation?]

/-- Notes of other kinds leave the content alone. -/
theorem content_note {n : Note} (hn : n.reservation? = none) : (A.note n).content = A.content :=
  Journal.content_concat hn A.journal

/-- A note keeps the content and at most adds to its end. -/
theorem read_content_note {a : Nat} (ha : a < A.content.length) (n : Note) :
    (A.note n).content.read a = A.content.read a := by
  cases n with
  | reserved r =>
    rw [content_note_reserved]
    exact Bytes.read_append ha
  | _ => rw [content_note rfl]

/-- Only calls to the Writer change what the medium holds. -/
theorem Durable.note {a' : Nat} (h : A.Durable g a') (h_sound : A.Sound g calls) {n : Note}
    (hn : ∀ w outcome, n ≠ .returned w outcome) : (A.note n).Durable g a' := by
  refine ⟨h.1, ?_⟩
  rw [read_content_note (h_sound.placed_lt h.1), journal_note, Journal.replay_concat, ← h.2]
  -- neither a reservation nor the beginning of a call writes anything
  match n, hn with
  | .reserved r, _ => rfl
  | .started w, _ => rfl
  | .returned w outcome, hn => exact absurd rfl (hn w outcome)

section Returned

variable {w : Write}

/-- The bytes that a call writes to placed addresses are those of the records. -/
def Faithful (g : Geometry) (A : Account) (w : Write) : Prop :=
  ∀ a, A.Placed g a → w.Covers a → Bytes.read w.data (a - w.address) = A.content.read a

/-- A faithful call leaves what was durable, whether it succeeds or not. -/
theorem Durable.note_returned {a : Nat} (h : A.Durable g a) (h_data : Faithful g A w)
    (outcome : Except (Stop IoError) Unit) : (A.note (.returned w outcome)).Durable g a := by
  refine ⟨h.1, ?_⟩
  rw [content_note rfl, journal_note, Journal.replay_concat, h.2]
  -- what the call covers it would write as it is, and what it does not cover it leaves alone
  rcases outcome with stop | ⟨⟩
  · rw [Note.replay, if_neg]
    rintro ⟨h_covers, h_ne⟩
    exact h_ne (congrArg some (h_data a h.1 h_covers).symm)
  · rw [Note.replay]
    split
    · next h_covers => rw [h_data a h.1 h_covers]
    · rfl

/-- A faithful call that succeeds makes durable what it covers. -/
theorem durable_of_covers (h_data : Faithful g A w) {a : Nat} (h_placed : A.Placed g a)
    (h_covers : w.Covers a) : (A.note (.returned w (.ok ()))).Durable g a := by
  refine ⟨h_placed, ?_⟩
  rw [content_note rfl, journal_note, Journal.replay_concat, Note.replay, if_pos h_covers,
    h_data a h_placed h_covers]

end Returned

/-- Direct writes stay those of different calls if the one that begins is of a call without any. -/
theorem Sound.direct_unique_note (h : A.Sound g calls) {n : Note}
    (h_new : ∀ w, n = .started w → w.source = .direct →
      ∀ v, .started v ∈ A.journal → v.source = .direct → v.call ≠ w.call) :
    ((A.note n).journal.writes.filter (·.source = .direct)).Pairwise (·.call ≠ ·.call) := by
  rw [journal_note, Journal.writes_concat, List.filter_append, List.pairwise_append]
  refine ⟨h.direct_unique, ?_, ?_⟩
  · -- the note adds at most one direct write
    refine List.Pairwise.sublist List.filter_sublist ?_
    cases n.started? <;> simp
  · intro v hv w hw
    obtain ⟨hv, hv_source⟩ := List.mem_filter.1 hv
    obtain ⟨hw, hw_source⟩ := List.mem_filter.1 hw
    have h_eq : n = .started w := by
      cases n <;> simp_all [Note.started?]
    exact h_new w h_eq (of_decide_eq_true hw_source) v (Journal.mem_writes.1 hv)
      (of_decide_eq_true hv_source)

/-- **What a note needs.** A note keeps the account sound if the reservations and the flushes of
each generation stay in order and the call that it begins, if any, may be made. -/
theorem Sound.note (h : A.Sound g calls) {n : Note}
    (h_layout : Layout g (A.note n).journal.reservations calls)
    (h_flow : ∀ t, n.Concerns t → (A.journal.flow g.capacity t).next g.capacity n ≠ .misused)
    (h_flush : ∀ w, n = .started w → w.IsFlush →
      g.capacity ∣ w.address ∧ w.data.length ≤ g.capacity ∧
        A.FilledUpTo g w.address w.data.length)
    (h_direct : ∀ w, n = .started w → w.source = .direct →
      (A.OwnsRange w.call w.address w.stop ∧ ∀ a, w.Covers a → A.Bypassed g a) ∧
        ∀ v, .started v ∈ A.journal → v.source = .direct → v.call ≠ w.call)
    (h_early : ∀ w, n = .started w → w.source = .slot .early → A.allowed.deadlines = true)
    (h_written : ∀ w, n = .returned w (.ok ()) → w.stop ≤ A.content.length) :
    (A.note n).Sound g calls := by
  -- the content only grows, so whatever was below its end still is
  have h_length : A.content.length ≤ (A.note n).content.length := by
    unfold content
    rw [journal_note, Journal.content_append, List.length_append]
    exact Nat.le_add_right _ _
  have h_mem : ∀ {w : Write}, .started w ∈ A.journal ++ [n] →
      .started w ∈ A.journal ∨ n = .started w := by
    intro w hw
    rw [List.mem_append, List.mem_singleton] at hw
    exact hw.imp_right Eq.symm
  exact {
    layout := h_layout
    filled_lt := fun a ha => (h.filled_lt a ha).trans_le h_length
    filled_apart := h.filled_apart
    bypassed_dvd := h.bypassed_dvd
    bypassed_le := fun t ht => (h.bypassed_le t ht).trans h_length
    flow := by
      intro t
      -- each generation has its own flow, and the note moves those that it concerns
      by_cases h_concerns : n.Concerns t
      · rw [flow_note h_concerns]
        exact h_flow t h_concerns
      · rw [flow_note_of_not h_concerns]
        exact h.flow t
    flush := by
      intro w hw
      rcases h_mem hw with h_old | h_eq
      · exact h.flush w h_old
      · exact h_flush w h_eq
    direct := by
      intro w hw h_source
      rcases h_mem hw with h_old | h_eq
      · exact (h.direct w h_old h_source).imp_left fun h_owns => h_owns.note _
      · exact (h_direct w h_eq h_source).1.imp_left fun h_owns => h_owns.note _
    direct_unique := h.direct_unique_note fun w h_eq h_source => (h_direct w h_eq h_source).2
    early := by
      intro w hw
      rcases h_mem hw with h_old | h_eq
      · exact h.early w h_old
      · exact h_early w h_eq
    written_le := by
      intro w hw
      rcases List.mem_append.1 hw with h_old | h_new
      · exact (h.written_le w h_old).trans h_length
      · exact (h_written w (List.mem_singleton.1 h_new).symm).trans h_length }

/-- A note that reserves nothing keeps the layout. -/
theorem Sound.layout_note (h : A.Sound g calls) {n : Note} (hn : n.reservation? = none) :
    Layout g (A.note n).journal.reservations calls := by
  rw [journal_note, Journal.reservations_concat hn]
  exact h.layout

/-- `Sound.note` for a reservation. -/
theorem Sound.note_reserved (h : A.Sound g calls) {r : Reservation}
    (h_layout : Layout g (A.journal.reservations ++ [r]) calls) :
    (A.note (.reserved r)).Sound g calls := by
  -- a reservation is no flush and no call to the Writer
  refine h.note ?_ (fun _ h => h.elim) nofun nofun nofun nofun
  rw [journal_note, Journal.reservations, List.filterMap_append]
  exact h_layout

/-- `Sound.note` for the beginning of a flush. -/
theorem Sound.note_flush (h : A.Sound g calls) {w : Write} (h_source : w.IsFlush)
    (h_flow : (A.journal.flow g.capacity w.address).next g.capacity (.started w) ≠ .misused)
    (h_dvd : g.capacity ∣ w.address) (h_le : w.data.length ≤ g.capacity)
    (h_filled : A.FilledUpTo g w.address w.data.length)
    (h_early : w.source = .slot .early → A.allowed.deadlines = true) :
    (A.note (.started w)).Sound g calls := by
  refine h.note ?_ ?_ ?_ ?_ ?_ nofun
  · exact h.layout_note rfl
  · rintro t ⟨-, rfl⟩
    exact h_flow
  · rintro v ⟨⟩ -
    exact ⟨h_dvd, h_le, h_filled⟩
  · -- a flush is no direct write, so nothing is asked of one
    rintro v ⟨⟩ h_direct
    exact absurd h_direct h_source
  · rintro v ⟨⟩
    exact h_early

/-- `Sound.note` for the beginning of a direct write. -/
theorem Sound.note_direct (h : A.Sound g calls) {w : Write} (h_source : w.source = .direct)
    (h_owns : A.OwnsRange w.call w.address w.stop) (h_covers : ∀ a, w.Covers a → A.Bypassed g a)
    (h_new : ∀ v, .started v ∈ A.journal → v.source = .direct → v.call ≠ w.call) :
    (A.note (.started w)).Sound g calls := by
  refine h.note ?_ ?_ ?_ ?_ ?_ nofun
  · exact h.layout_note rfl
  · -- a direct write is in the flow of no generation
    rintro t ⟨h_flush, -⟩
    exact absurd h_source h_flush
  · rintro v ⟨⟩ h_flush
    exact absurd h_source h_flush
  · rintro v ⟨⟩ -
    exact ⟨⟨h_owns, h_covers⟩, h_new⟩
  · rintro v ⟨⟩ h_early
    rw [h_source] at h_early
    cases h_early

/-- `Sound.note` for the return of a call. -/
theorem Sound.note_returned (h : A.Sound g calls) {w : Write}
    {outcome : Except (Stop IoError) Unit}
    (h_flow : w.IsFlush →
      (A.journal.flow g.capacity w.address).next g.capacity (.returned w outcome) ≠ .misused)
    (h_written : outcome = .ok () → w.stop ≤ A.content.length) :
    (A.note (.returned w outcome)).Sound g calls := by
  refine h.note ?_ ?_ nofun nofun nofun ?_
  · exact h.layout_note rfl
  · rintro t ⟨h_flush, rfl⟩
    exact h_flow h_flush
  · rintro v ⟨⟩
    exact h_written rfl

end Account

end GroupCommit.Log
