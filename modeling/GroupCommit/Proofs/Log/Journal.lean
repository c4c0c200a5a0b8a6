import GroupCommit.Log.Program
import GroupCommit.Proofs.Machine.Steps

/-!
# The journal of a run

A journal notes, in the order in which they happen, the reservations of a run, the calls to the Writer
that are made and how each of them returns. It is a function of the run, and it is what statements
about a whole run speak of: which bytes were reserved, which were handed to the Writer, and what a
medium holds that did just what the calls say.

* `Journal.content`: the reserved records, one after another.
* `Journal.replay`: the byte that the calls leave at an address, as far as it is known.
* `Tiles.read`, `Tiles.disjoint`: reservations that follow one another share no address, and each of
  them has its record in the content.
-/

namespace GroupCommit.Log

/-- What a call to the Writer is made for. -/
inductive Source where
  /-- To write a slot. -/
  | slot (kind : FlushKind)
  /-- To write the middle of a record. -/
  | direct
  deriving DecidableEq, Repr

/-- A call to the Writer, and the commit that makes it. -/
structure Write where
  call : Nat
  source : Source
  address : Nat
  data : Bytes
  hint : Int32
  deriving DecidableEq, Repr

namespace Write

/-- The address behind the bytes. -/
def stop (w : Write) : Nat := w.address + w.data.length

/-- The bytes of the call cover this address. -/
def Covers (w : Write) (a : Nat) : Prop := w.address ≤ a ∧ a < w.stop

instance (w : Write) (a : Nat) : Decidable (w.Covers a) := inferInstanceAs (Decidable (_ ∧ _))

/-- Two calls share no address. -/
def Disjoint (v w : Write) : Prop := ∀ a, v.Covers a → ¬ w.Covers a

end Write

/-- The addresses that a commit was given for its record. -/
structure Reservation where
  call : Nat
  head : Nat
  record : Bytes
  deriving DecidableEq, Repr

/-- The address behind the record. -/
def Reservation.stop (r : Reservation) : Nat := r.head + r.record.length

/-- What a journal notes. -/
inductive Note where
  | reserved (r : Reservation)
  | started (w : Write)
  | returned (w : Write) (outcome : Except (Stop IoError) Unit)

/-- What happened in a run, in order. -/
abbrev Journal := List Note

/-! ### Taking notes -/

/-- The call to the Writer that a task stands for. -/
def Task.write? (call : Nat) : Task → Option Write
  | .writeSlot _ flush data entry _ _ => some ⟨call, .slot flush.kind, flush.tag, data, entry.hint⟩
  | .writeDirect entry _ => some ⟨call, .direct, entry.middle.start, entry.direct, entry.hint⟩
  | _ => none

/-- A call to the Writer is known by the call that makes it. -/
theorem call_of_write? {t : Task} {i : Nat} {w : Write} (h : t.write? i = some w) : w.call = i := by
  cases t with
  | writeSlot k f data e p tk => cases h; rfl
  | writeDirect e tk => cases h; rfl
  | _ => cases h

section Notes

variable {W : Type} [Writer W]

/-- The notes on a step of a call. -/
def runNotes (log : Log W) (call : Nat) : Task → Journal
  | .reserve record _ => [.reserved ⟨call, log.position, record⟩]
  | task => ((task.write? call).map .started).toList

/-- How a call to the Writer returns. -/
def outcome (log : Log W) (verdict : Verdict) (w : Write) : Except (Stop IoError) Unit :=
  (log.write verdict w.data w.address w.hint).1

/-- The notes on the answer to a call. -/
def answerNotes (log : Log W) (call : Nat) (verdict : Verdict) (task : Task) : Journal :=
  ((task.write? call).map fun w => .returned w (log.outcome verdict w)).toList

/-- The notes on an event. -/
def notes (m : Machine (Log W) Task Result) : Event Task Verdict → Journal
  | .run i =>
    match m.calls[i]? with
    | some (.ready task) => runNotes m.state i task
    | _ => []
  | .answer i verdict =>
    match m.calls[i]? with
    | some (.outside task) => answerNotes m.state i verdict task
    | _ => []
  | _ => []

section

variable {m : Machine (Log W) Task Result} {i : Nat} {t : Task}

theorem notes_run (h : m.calls[i]? = some (.ready t)) : notes m (.run i) = runNotes m.state i t := by
  simp only [notes, h]

theorem notes_answer {verdict : Verdict} (h : m.calls[i]? = some (.outside t)) :
    notes m (.answer i verdict) = answerNotes m.state i verdict t := by
  simp only [notes, h]

/-- The answer to a call to the Writer is noted with its outcome. -/
theorem answerNotes_of_write {log : Log W} {verdict : Verdict} {w : Write} (h : t.write? i = some w) :
    answerNotes log i verdict t = [.returned w (log.outcome verdict w)] := by
  rw [answerNotes, h]
  rfl

/-- Nothing is noted of a call that has asked for nothing. -/
theorem answerNotes_of_none {log : Log W} {verdict : Verdict} (h : t.write? i = none) :
    answerNotes log i verdict t = [] := by
  rw [answerNotes, h]
  rfl

end

/-- The journal of the events of a machine, up to the first that is not possible. -/
def journal (m : Machine (Log W) Task Result) : List (Event Task Verdict) → Journal
  | [] => []
  | e :: es =>
    match m.step (program W) e with
    | some m' => notes m e ++ journal m' es
    | none => []

theorem journal_append {m m' : Machine (Log W) Task Result} {es fs : List (Event Task Verdict)}
    (h : m.steps (program W) es = some m') : journal m (es ++ fs) = journal m es ++ journal m' fs := by
  induction es generalizing m with
  | nil =>
    cases h
    rfl
  | cons f es ih =>
    -- the first event is possible, so its notes come first on both sides
    obtain ⟨m₁, h₁, h₂⟩ := Option.bind_eq_some_iff.1 h
    rw [List.cons_append, journal, journal, h₁]
    simp only
    rw [ih h₂, List.append_assoc]

/-- The notes on one more event come last. -/
theorem journal_concat {m m' m'' : Machine (Log W) Task Result} {es : List (Event Task Verdict)}
    {e : Event Task Verdict} (h : m.steps (program W) es = some m')
    (h_step : m'.step (program W) e = some m'') :
    journal m (es ++ [e]) = journal m es ++ notes m' e := by
  have h_last : journal m' [e] = notes m' e := by
    rw [journal, h_step]
    exact List.append_nil _
  rw [journal_append h, h_last]

end Notes

/-! ### Reading a journal -/

namespace Note

/-- What is known of the byte at an address after a note, if it was `below` before: a successful call puts
its bytes in place. One that does not succeed may have done so as well, which nobody knows unless it makes
no difference. -/
def replay (below : Option UInt8) (a : Nat) : Note → Option UInt8
  | .returned w (.ok ()) => if w.Covers a then some (Bytes.read w.data (a - w.address)) else below
  | .returned w (.error _) =>
    if w.Covers a ∧ below ≠ some (Bytes.read w.data (a - w.address)) then none else below
  | _ => below

/-- The reservation that is noted. -/
def reservation? : Note → Option Reservation
  | .reserved r => some r
  | _ => none

/-- The note is on a call to the Writer that did not succeed. -/
def fails : Note → Bool
  | .returned _ (.error _) => true
  | _ => false

/-- The call to the Writer whose beginning is noted. -/
def started? : Note → Option Write
  | .started w => some w
  | _ => none

end Note

namespace Journal

/-- The byte at an address after the calls, if that is known. -/
def replay (J : Journal) (a : Nat) : Option UInt8 :=
  J.foldl (fun below note => note.replay below a) none

/-- The reservations, in order. -/
def reservations (J : Journal) : List Reservation := J.filterMap Note.reservation?

/-- The calls to the Writer, in the order in which they were made. -/
def writes (J : Journal) : List Write := J.filterMap Note.started?

/-- The reserved records, one after another. -/
def content (J : Journal) : Bytes := (reservations J).flatMap Reservation.record

/-- A call to the Writer has not succeeded. -/
def Failed (J : Journal) : Prop := ∃ w stop, Note.returned w (.error stop) ∈ J

/-- Whether something has failed can be computed. -/
theorem failed_iff {J : Journal} : Failed J ↔ J.any Note.fails = true := by
  rw [List.any_eq_true]
  constructor
  · rintro ⟨w, stop, h_mem⟩
    exact ⟨_, h_mem, rfl⟩
  · rintro ⟨n, h_mem, h_fails⟩
    -- no other note fails
    match n, h_fails with
    | .returned w (.error stop), _ => exact ⟨w, stop, h_mem⟩

instance (J : Journal) : Decidable (Failed J) := decidable_of_iff _ failed_iff.symm

@[simp] theorem replay_concat (J : Journal) (n : Note) (a : Nat) :
    replay (J ++ [n]) a = n.replay (replay J a) a := by
  rw [replay, List.foldl_append]
  rfl

@[simp] theorem content_append (J K : Journal) : content (J ++ K) = content J ++ content K := by
  rw [content, reservations, List.filterMap_append, List.flatMap_append]
  rfl

/-- What has failed is not forgotten. -/
theorem Failed.append {J : Journal} (h : Failed J) (K : Journal) : Failed (J ++ K) := by
  obtain ⟨w, stop, h_mem⟩ := h
  exact ⟨w, stop, List.mem_append_left K h_mem⟩

@[simp] theorem mem_reservations {J : Journal} {r : Reservation} :
    r ∈ reservations J ↔ Note.reserved r ∈ J := by
  rw [reservations, List.mem_filterMap]
  constructor
  · rintro ⟨n, hn, h⟩
    cases n <;> simp only [Note.reservation?, Option.some.injEq, reduceCtorEq] at h
    exact h ▸ hn
  · exact fun h => ⟨_, h, rfl⟩

@[simp] theorem mem_writes {J : Journal} {w : Write} : w ∈ writes J ↔ Note.started w ∈ J := by
  rw [writes, List.mem_filterMap]
  constructor
  · rintro ⟨n, hn, h⟩
    cases n <;> simp only [Note.started?, Option.some.injEq, reduceCtorEq] at h
    exact h ▸ hn
  · exact fun h => ⟨_, h, rfl⟩

/-- The notes on the beginning of a call and on its return change nothing that is reserved. -/
theorem reservations_concat {n : Note} (h : n.reservation? = none) (J : Journal) :
    reservations (J ++ [n]) = reservations J := by
  rw [reservations, List.filterMap_append, List.filterMap_cons_none h, List.filterMap_nil,
    List.append_nil]
  rfl

theorem writes_concat (J : Journal) (n : Note) :
    writes (J ++ [n]) = writes J ++ n.started?.toList := by
  rw [writes, List.filterMap_append, List.filterMap_cons]
  cases n.started? <;> rfl

/-- Only reservations add to the content. -/
theorem content_concat {n : Note} (h : n.reservation? = none) (J : Journal) :
    content (J ++ [n]) = content J := by
  rw [content, reservations_concat h]
  rfl

end Journal

/-! ### Reservations one after another -/

/-- The reservations follow one another from `start` on, each beginning where the one before ends. -/
def Tiles : Nat → List Reservation → Prop
  | _, [] => True
  | start, r :: rest => r.head = start ∧ Tiles (start + r.record.length) rest

namespace Tiles

variable {start : Nat} {rs : List Reservation} {r r' : Reservation}

/-- One more record behind the last. -/
theorem concat (h : Tiles start rs)
    (hr : r.head = start + (rs.flatMap Reservation.record).length) : Tiles start (rs ++ [r]) := by
  induction rs generalizing start with
  | nil => exact ⟨by simpa using hr, trivial⟩
  | cons r₀ rs ih =>
    refine ⟨h.1, ih h.2 ?_⟩
    rw [hr, List.flatMap_cons, List.length_append, Nat.add_assoc]

/-- The last record begins where those before it end. -/
theorem head_concat (h : Tiles start (rs ++ [r])) :
    r.head = start + (rs.flatMap Reservation.record).length := by
  induction rs generalizing start with
  | nil => exact h.1
  | cons r₀ rs ih => rw [ih h.2, List.flatMap_cons, List.length_append, Nat.add_assoc]

/-- No record begins in front of the first. -/
theorem le_head (h : Tiles start rs) (hr : r ∈ rs) : start ≤ r.head := by
  induction rs generalizing start with
  | nil => cases hr
  | cons r₀ rs ih =>
    rcases List.mem_cons.1 hr with rfl | hr
    · exact Nat.le_of_eq h.1.symm
    · have := ih h.2 hr
      omega

/-- No record ends behind the last. -/
theorem stop_le (h : Tiles start rs) (hr : r ∈ rs) :
    r.stop ≤ start + (rs.flatMap Reservation.record).length := by
  induction rs generalizing start with
  | nil => cases hr
  | cons r₀ rs ih =>
    rw [List.flatMap_cons, List.length_append]
    rcases List.mem_cons.1 hr with rfl | hr
    · rw [Reservation.stop, h.1]
      omega
    · have := ih h.2 hr
      omega

/-- Every address of the content belongs to a record. -/
theorem exists_mem (h : Tiles start rs) {a : Nat} (h₁ : start ≤ a)
    (h₂ : a < start + (rs.flatMap Reservation.record).length) :
    ∃ r ∈ rs, r.head ≤ a ∧ a < r.stop := by
  induction rs generalizing start with
  | nil => simp at h₂; omega
  | cons r₀ rs ih =>
    rw [List.flatMap_cons, List.length_append] at h₂
    -- the first of them, or one of the others
    rcases Nat.lt_or_ge a r₀.stop with h_lt | h_ge
    · exact ⟨r₀, List.mem_cons_self, h.1 ▸ h₁, h_lt⟩
    · rw [Reservation.stop, h.1] at h_ge
      obtain ⟨r, hr, h_in⟩ := ih h.2 h_ge (by omega)
      exact ⟨r, List.mem_cons_of_mem _ hr, h_in⟩

/-- Each record is found at its place in the whole. -/
theorem read (h : Tiles start rs) (hr : r ∈ rs) {i : Nat} (hi : i < r.record.length) :
    Bytes.read (rs.flatMap Reservation.record) (r.head - start + i) = r.record.read i := by
  induction rs generalizing start with
  | nil => cases hr
  | cons r₀ rs ih =>
    rw [List.flatMap_cons]
    simp only [Bytes.read, List.getD_eq_getElem?_getD] at ih ⊢
    rcases List.mem_cons.1 hr with rfl | hr
    · -- the first record is where the whole begins, the others come behind it
      rw [h.1, Nat.sub_self, Nat.zero_add, List.getElem?_append_left hi]
    · have h_le := h.2.le_head hr
      rw [List.getElem?_append_right (by omega), ← ih h.2 hr]
      congr 2
      omega

/-- Records that are not empty begin one behind the other. -/
theorem lt_head (h : Tiles start (r :: rs)) (h_pos : 0 < r.record.length) (hr : r' ∈ rs) :
    start < r'.head := by
  have := h.2.le_head hr
  omega

/-- What is known of all records is known of those behind the first. -/
theorem tail_subset {rs' : List Reservation} (h : Tiles start (r :: rs)) (h' : Tiles start (r' :: rs'))
    (h_pos : 0 < r.record.length)
    (h_all : ∀ head record, (∃ i, ⟨i, head, record⟩ ∈ r :: rs) → ∃ i, ⟨i, head, record⟩ ∈ r' :: rs') :
    ∀ head record, (∃ i, ⟨i, head, record⟩ ∈ rs) → ∃ i, ⟨i, head, record⟩ ∈ rs' := by
  rintro head record ⟨i, h_mem⟩
  obtain ⟨j, h_mem'⟩ := h_all head record ⟨i, List.mem_cons_of_mem _ h_mem⟩
  refine ⟨j, (List.mem_cons.1 h_mem').resolve_left ?_⟩
  -- it begins behind the start, and the first record of the others does not
  rintro rfl
  have h_later : start < head := h.lt_head h_pos h_mem
  exact absurd h'.1 (Nat.ne_of_gt h_later)

/-- Where the records lie says what the whole is, whoever has reserved them. -/
theorem flatMap_eq {rs' : List Reservation} (h : Tiles start rs) (h' : Tiles start rs')
    (h_pos : ∀ r ∈ rs, 0 < r.record.length) (h_pos' : ∀ r ∈ rs', 0 < r.record.length)
    (h_same : ∀ head record, (∃ i, ⟨i, head, record⟩ ∈ rs) ↔ ∃ i, ⟨i, head, record⟩ ∈ rs') :
    rs.flatMap Reservation.record = rs'.flatMap Reservation.record := by
  induction rs generalizing start rs' with
  | nil =>
    cases rs' with
    | nil => rfl
    | cons r rs' =>
      obtain ⟨i, h_mem⟩ := (h_same r.head r.record).2 ⟨r.call, List.mem_cons_self⟩
      -- a record that one of the lists has is missing in the other
      cases h_mem
  | cons r rs ih =>
    cases rs' with
    | nil =>
      obtain ⟨i, h_mem⟩ := (h_same r.head r.record).1 ⟨r.call, List.mem_cons_self⟩
      cases h_mem
    | cons r' rs' =>
      have hr := h_pos r List.mem_cons_self
      have hr' := h_pos' r' List.mem_cons_self
      -- of all that begin at the start, the first is the only one in each of the lists
      have h_record : r.record = r'.record := by
        obtain ⟨i, h_mem⟩ := (h_same r.head r.record).1 ⟨r.call, List.mem_cons_self⟩
        rcases List.mem_cons.1 h_mem with h_eq | h_mem
        · have h_record := congrArg Reservation.record h_eq
          exact h_record
        · have h_head := h'.lt_head hr' h_mem
          exact absurd h.1 (Nat.ne_of_gt h_head)
      have h_rest : rs.flatMap Reservation.record = rs'.flatMap Reservation.record := by
        refine ih (h_record ▸ h.2) h'.2 (fun r₁ h_mem => h_pos r₁ (List.mem_cons_of_mem _ h_mem))
          (fun r₁ h_mem => h_pos' r₁ (List.mem_cons_of_mem _ h_mem)) fun head record => ⟨?_, ?_⟩
        · exact tail_subset h h' hr (fun head record => (h_same head record).1) head record
        · exact tail_subset h' h hr' (fun head record => (h_same head record).2) head record
      rw [List.flatMap_cons, List.flatMap_cons, h_record, h_rest]

/-- Different records do not meet. -/
theorem disjoint (h : Tiles start rs) (hr : r ∈ rs) (hr' : r' ∈ rs) (h_ne : r ≠ r') :
    r.stop ≤ r'.head ∨ r'.stop ≤ r.head := by
  induction rs generalizing start with
  | nil => cases hr
  | cons r₀ rs ih =>
    -- whichever of them comes first ends before the other begins
    have h_before : ∀ {r₁}, r₁ ∈ rs → r₀.stop ≤ r₁.head := by
      intro r₁ h_mem
      rw [Reservation.stop, h.1]
      exact h.2.le_head h_mem
    rcases List.mem_cons.1 hr with h_eq | h_mem
    · rcases List.mem_cons.1 hr' with h_eq' | h_mem'
      · exact absurd (h_eq.trans h_eq'.symm) h_ne
      · exact .inl (h_eq ▸ h_before h_mem')
    · rcases List.mem_cons.1 hr' with h_eq' | h_mem'
      · exact .inr (h_eq' ▸ h_before h_mem)
      · exact ih h.2 h_mem h_mem'

end Tiles

end GroupCommit.Log
