import GroupCommit.Proofs.Log.Journal

/-!
# The flushes of one generation

What the Writer may see of one generation of a slot, as a grammar and as the automaton that reads it.
The automaton stands for the generation between two notes, which is what an invariant can speak of;
the grammar is what is said of a whole run.

* `Flushes`: early calls that never get shorter, each after the one before has succeeded, and then at
  most one full call, which is as long as the slot; nothing follows on a full call or a failed one.
* `Journal.flow`: where the flushes of a generation stand after a run.
* `Journal.flushes`: a generation on which the automaton has not got stuck keeps to the grammar.
-/

namespace GroupCommit.Log

/-- The call writes a slot. -/
def Write.IsFlush (w : Write) : Prop := w.source ≠ .direct

instance (w : Write) : Decidable w.IsFlush := inferInstanceAs (Decidable (_ ≠ _))

/-- A write out of a slot is a flush. -/
theorem Write.isFlush_of_source {w : Write} {kind : FlushKind} (h : w.source = .slot kind) :
    w.IsFlush := by
  intro h_direct
  rw [h] at h_direct
  cases h_direct

/-- The call writes no fewer than `length` bytes and fits into a slot; a full one fills it. -/
structure Write.Fits (capacity length : Nat) (w : Write) : Prop where
  length_le : length ≤ w.data.length
  le_capacity : w.data.length ≤ capacity
  full : w.source = .slot .full → w.data.length = capacity

instance (capacity length : Nat) (w : Write) : Decidable (w.Fits capacity length) :=
  decidable_of_iff (length ≤ w.data.length ∧ w.data.length ≤ capacity ∧
      (w.source = .slot .full → w.data.length = capacity))
    ⟨fun ⟨h₁, h₂, h₃⟩ => ⟨h₁, h₂, h₃⟩, fun ⟨h₁, h₂, h₃⟩ => ⟨h₁, h₂, h₃⟩⟩

/-- The note is about a flush of generation `tag`. -/
def Note.Concerns (tag : Nat) : Note → Prop
  | .started w => w.IsFlush ∧ w.address = tag
  | .returned w _ => w.IsFlush ∧ w.address = tag
  | .reserved _ => False

instance (tag : Nat) (note : Note) : Decidable (note.Concerns tag) := by
  cases note <;> unfold Note.Concerns <;> infer_instance

/-! ### The grammar -/

/-- The notes on the flushes of one generation, in order, when `length` bytes of it were written
before. -/
inductive Flushes (capacity : Nat) : Nat → Journal → Prop
  | none (length : Nat) : Flushes capacity length []
  | inFlight {length : Nat} {w : Write} (fits : w.Fits capacity length) :
      Flushes capacity length [.started w]
  /-- A full call or a failed one is the last. -/
  | last {length : Nat} {w : Write} {outcome : Except (Stop IoError) Unit}
      (fits : w.Fits capacity length) (h_last : w.source = .slot .full ∨ outcome ≠ .ok ()) :
      Flushes capacity length [.started w, .returned w outcome]
  | early {length : Nat} {w : Write} {rest : Journal} (fits : w.Fits capacity length)
      (h_early : w.source = .slot .early) (h_rest : Flushes capacity w.data.length rest) :
      Flushes capacity length (.started w :: .returned w (.ok ()) :: rest)

/-! ### The automaton -/

/-- Where the flushes of a generation stand. -/
inductive Flow where
  /-- Every call so far was early and has succeeded, and the last of them wrote `length` bytes. -/
  | calm (length : Nat)
  /-- A call is in flight. -/
  | busy (w : Write)
  /-- A full call or a failed one has returned. -/
  | ended
  /-- The notes do not keep to the grammar. -/
  | misused
  deriving DecidableEq

namespace Flow

/-- Where the flushes stand once a call has returned. -/
def afterReturn (w : Write) (outcome : Except (Stop IoError) Unit) : Flow :=
  match outcome, w.source with
  | .ok (), .slot .early => .calm w.data.length
  | _, _ => .ended

/-- Reads one note. -/
def next (capacity : Nat) : Flow → Note → Flow
  | calm length, .started w => if w.Fits capacity length then busy w else misused
  | busy w, .returned v outcome => if v = w then afterReturn w outcome else misused
  | _, _ => misused

/-- A flow that has been misused stays so. -/
theorem foldl_misused (capacity : Nat) (L : Journal) :
    L.foldl (next capacity) misused = misused := by
  induction L with
  | nil => rfl
  | cons note L ih => exact ih

/-- Nothing follows the full flush of a generation. -/
theorem foldl_ended (capacity : Nat) {L : Journal} (h : L.foldl (next capacity) ended ≠ misused) :
    L = [] := by
  cases L with
  | nil => rfl
  | cons note L => exact absurd (foldl_misused capacity L) h

/-- A flow that returns to calm had an early call that succeeded, and one that does not has ended. -/
theorem afterReturn_cases (w : Write) (outcome : Except (Stop IoError) Unit) :
    (w.source = .slot .early ∧ outcome = .ok () ∧ afterReturn w outcome = .calm w.data.length) ∨
      ((w.source ≠ .slot .early ∨ outcome ≠ .ok ()) ∧ afterReturn w outcome = .ended) := by
  unfold afterReturn
  split
  · next h => exact .inl ⟨h, rfl, rfl⟩
  · next h =>
    refine .inr ⟨?_, rfl⟩
    by_cases h_early : w.source = .slot .early
    · exact .inr fun h_ok => h h_ok h_early
    · exact .inl h_early

/-- No answer of the Writer misuses the flow. -/
theorem afterReturn_ne_misused (w : Write) (outcome : Except (Stop IoError) Unit) :
    afterReturn w outcome ≠ .misused := by
  rcases afterReturn_cases w outcome with ⟨-, -, h_eq⟩ | ⟨-, h_eq⟩
  · rw [h_eq]
    exact fun h => by cases h
  · rw [h_eq]
    exact fun h => by cases h

theorem afterReturn_early {w : Write} (h : w.source = .slot .early) :
    afterReturn w (.ok ()) = .calm w.data.length := by
  unfold afterReturn
  rw [h]

/-- The automaton reads just the grammar: two notes at a time, the beginning of a call and its
return. -/
theorem flushes (capacity tag : Nat) : ∀ (L : Journal) (length : Nat),
    (∀ note ∈ L, note.Concerns tag) → L.foldl (next capacity) (calm length) ≠ misused →
    Flushes capacity length L
  | [], length, _, _ => .none length
  | .reserved r :: L, length, h_all, _ => (h_all _ List.mem_cons_self).elim
  | .returned w outcome :: L, length, _, h => absurd (foldl_misused capacity L) h
  -- a call begins, so the next note is its return, or there is none
  | .started w :: L, length, h_all, h => by
    rw [List.foldl_cons, next] at h
    split at h
    case isFalse => exact absurd (foldl_misused capacity L) h
    case isTrue h_fits =>
      match L, h with
      | [], _ => exact .inFlight h_fits
      | .reserved r :: L, h => exact absurd (foldl_misused capacity L) h
      | .started v :: L, h => exact absurd (foldl_misused capacity L) h
      | .returned v outcome :: L, h =>
        rw [List.foldl_cons, next] at h
        split at h
        case isFalse => exact absurd (foldl_misused capacity L) h
        case isTrue h_eq =>
          -- the call has returned: another one may follow only if it was early and has succeeded
          subst h_eq
          have h_rest : ∀ note ∈ L, note.Concerns tag := fun note h_mem =>
            h_all note (List.mem_cons_of_mem _ (List.mem_cons_of_mem _ h_mem))
          rcases afterReturn_cases v outcome with ⟨h_early, rfl, h_calm⟩ | ⟨h_last, h_ended⟩
          · rw [h_calm] at h
            exact .early h_fits h_early (flushes capacity tag L _ h_rest h)
          · rw [h_ended] at h
            obtain rfl := foldl_ended capacity h
            refine .last h_fits (h_last.imp_left fun h_late => ?_)
            have h_flush : v.IsFlush := (h_all _ List.mem_cons_self).1
            cases h_source : v.source with
            | direct => exact absurd h_source h_flush
            | slot kind =>
              cases kind with
              | full => rfl
              | early => exact absurd h_source h_late

end Flow

namespace Journal

/-- The notes on the flushes of one generation. -/
def flushNotes (tag : Nat) (J : Journal) : Journal := J.filter fun note => note.Concerns tag

/-- Where the flushes of a generation stand. -/
def flow (capacity tag : Nat) (J : Journal) : Flow :=
  (J.flushNotes tag).foldl (Flow.next capacity) (.calm 0)

/-- A note moves on the flow of the generation it concerns. -/
theorem flow_concat (capacity tag : Nat) (J : Journal) (note : Note) :
    (J ++ [note] : Journal).flow capacity tag =
      if note.Concerns tag then (J.flow capacity tag).next capacity note
      else J.flow capacity tag := by
  unfold flow flushNotes
  rw [List.filter_append]
  -- notes on anything else do not reach the automaton
  by_cases h : note.Concerns tag
  · rw [List.filter_cons_of_pos (by simpa using h), if_pos h, List.filter_nil, List.foldl_append]
    rfl
  · rw [List.filter_cons_of_neg (by simpa using h), if_neg h, List.filter_nil, List.append_nil]

/-- **The flushes of a generation keep to the grammar** when the automaton has not got stuck. -/
theorem flushes {capacity tag : Nat} {J : Journal} (h : J.flow capacity tag ≠ .misused) :
    Flushes capacity 0 (J.flushNotes tag) := by
  refine Flow.flushes capacity tag _ _ ?_ h
  intro note h_mem
  exact of_decide_eq_true (List.mem_filter.1 h_mem).2

end Journal

end GroupCommit.Log
