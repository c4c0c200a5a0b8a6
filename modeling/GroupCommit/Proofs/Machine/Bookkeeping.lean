import GroupCommit.Proofs.Machine.WakeUps
import Mathlib.Algebra.Order.BigOperators.Ring.List
import Mathlib.Data.List.Induction

/-!
# Bookkeeping

Two ways to keep account of a run from outside. One may write down something about each event, and
have a list of notes for the run. And one may weigh the calls by how they stand, or count those that stand
in a certain way; with every event the weight of one call changes at most, since waking a call is no such
change.

* `Machine.starts`: the first tasks of the calls.
* `Machine.noted`: the notes on a run. They come in the order of the events (`noted_concat`), and each
  of them belongs to an event (`exists_event_of_noted`).
* `Machine.Weighed`, `Machine.weighed`: what all calls weigh together, after an event.
* `Machine.Counted`, `Machine.counted`: the number of calls with a certain status, after an event.
-/

namespace GroupCommit

/-- The first task of the call that an event makes. -/
def Event.start? {π α : Type} : Event π α → Option π
  | .call start => some start
  | _ => none

/-- The call that makes a step in an event. -/
def Event.caller? {π α : Type} : Event π α → Option Nat
  | .call _ => none
  | .run i => some i
  | .expire i => some i
  | .answer i _ => some i

namespace Machine

variable {σ π α ρ ν : Type} {program : Program σ π α ρ} {m m' : Machine σ π ρ}
  {e : Event π α} {es fs : List (Event π α)}

/-! ### First tasks -/

/-- The first tasks of the calls that are made, in order. -/
def starts (es : List (Event π α)) : List π := es.filterMap Event.start?

theorem starts_concat (es : List (Event π α)) (e : Event π α) :
    starts (es ++ [e]) = starts es ++ e.start?.toList := by
  rw [starts, List.filterMap_append]
  cases h_start : e.start? with
  | none => rw [List.filterMap_cons_none h_start]; rfl
  | some start => rw [List.filterMap_cons_some h_start]; rfl

/-- A call that was started stays among the starts. -/
theorem mem_starts_concat {start : π} (h : start ∈ starts es) (e : Event π α) :
    start ∈ starts (es ++ [e]) := by
  rw [starts_concat]
  exact List.mem_append_left _ h

/-- The calls are those that were made. -/
theorem length_starts {state : σ} (h : (idle state).steps program es = some m) :
    (starts es).length = m.calls.length := by
  induction es using List.reverseRecOn generalizing m with
  | nil =>
    cases h
    rfl
  | append_singleton es e ih =>
    obtain ⟨m₁, h₁, h_step⟩ := steps_concat _ h
    have h_before := ih h₁
    rw [starts_concat, List.length_append]
    -- one more call for a start, and no more for any other event
    rcases step_cases h_step with ⟨start, rfl, rfl⟩ | ⟨i, status, o, h_acts, h_stepped⟩
    · rw [List.length_append, h_before]
      rfl
    · rw [h_stepped.length, h_before]
      cases h_acts <;> rfl

/-- The event that lets a call act names it. -/
theorem Acts.caller {i : Nat} {status : Status π ρ} {o : Move π ρ × σ}
    (h : Acts program m e i status o) : e.caller? = some i := by
  cases h <;> rfl

/-! ### Notes -/

/-- What is noted on the events of a machine, up to the first that is not possible. -/
def noted (program : Program σ π α ρ) (notes : Machine σ π ρ → Event π α → List ν) :
    Machine σ π ρ → List (Event π α) → List ν
  | _, [] => []
  | m, e :: es =>
    match m.step program e with
    | some m' => notes m e ++ noted program notes m' es
    | none => []

variable {notes : Machine σ π ρ → Event π α → List ν}

/-- The notes of a run continue those of its first part. -/
theorem noted_append (h : m.steps program es = some m') :
    noted program notes m (es ++ fs) = noted program notes m es ++ noted program notes m' fs := by
  induction es generalizing m with
  | nil =>
    cases h
    rfl
  | cons f es ih =>
    -- the first event is possible, so its notes come first on both sides
    obtain ⟨m₁, h₁, h₂⟩ := Option.bind_eq_some_iff.1 h
    rw [List.cons_append, noted, noted, h₁]
    dsimp only
    rw [ih h₂, List.append_assoc]

/-- The notes on one more event come last. -/
theorem noted_concat (h : m.steps program es = some m') {m'' : Machine σ π ρ}
    (h_step : m'.step program e = some m'') :
    noted program notes m (es ++ [e]) = noted program notes m es ++ notes m' e := by
  have h_last : noted program notes m' [e] = notes m' e := by
    rw [noted, h_step]
    exact List.append_nil _
  rw [noted_append h, h_last]

/-- **Every note belongs to an event.** -/
theorem exists_event_of_noted (h : m.steps program es = some m') {n : ν}
    (h_mem : n ∈ noted program notes m es) :
    ∃ es₁ e es₂ m₁ m₂, es = es₁ ++ e :: es₂ ∧ m.steps program es₁ = some m₁ ∧
      m₁.step program e = some m₂ ∧ n ∈ notes m₁ e := by
  -- on the events, the first of which has its notes in front
  induction es generalizing m with
  | nil => cases h_mem
  | cons f es ih =>
    obtain ⟨m₁, h₁, h₂⟩ := Option.bind_eq_some_iff.1 h
    rw [noted, h₁] at h_mem
    -- noted by the first event or by a later one
    rcases List.mem_append.1 h_mem with h_here | h_later
    · exact ⟨[], f, es, m, m₁, rfl, rfl, h₁, h_here⟩
    · obtain ⟨es₁, e, es₂, m₂, m₃, rfl, h_before, h_step, h_note⟩ := ih h₂ h_later
      refine ⟨f :: es₁, e, es₂, m₂, m₃, rfl, ?_, h_step, h_note⟩
      rw [steps, h₁]
      exact h_before

/-! ### Weights and counts -/

/-- What all calls weigh together. -/
def total (weight : Status π ρ → Nat) (m : Machine σ π ρ) : Nat := (m.calls.map weight).sum

section Weights

variable {weight : Status π ρ → Nat}

/-- The call `i` changes from the one status to the other, and this is what all calls weigh together
before and after. -/
structure Weighed (weight : Status π ρ → Nat) (m m' : Machine σ π ρ) (i : Nat)
    (status status' : Status π ρ) : Prop where
  after : m'.calls[i]? = some status'
  total : m'.total weight + weight status = m.total weight + weight status'

/-- Exchanging one call exchanges its weight in the sum. -/
theorem sum_map_set {calls : List (Status π ρ)} {i : Nat} {status : Status π ρ}
    (hi : calls[i]? = some status) (status' : Status π ρ) :
    ((calls.set i status').map weight).sum + weight status =
      (calls.map weight).sum + weight status' := by
  induction calls generalizing i with
  | nil => cases hi
  | cons first calls ih =>
    rw [List.map_cons, List.sum_cons]
    -- the call stands first or among the others
    cases i with
    | zero =>
      obtain rfl : first = status := Option.some.inj hi
      rw [List.set_cons_zero, List.map_cons, List.sum_cons]
      omega
    | succ i =>
      have h_rest := ih (i := i) hi
      rw [List.set_cons_succ, List.map_cons, List.sum_cons]
      omega

theorem weighed_setCall {i : Nat} {m : Machine σ π ρ} {status : Status π ρ}
    (hi : m.calls[i]? = some status) (status' : Status π ρ) :
    Weighed weight m (m.setCall i status') i status status' := by
  obtain ⟨h_lt, -⟩ := List.getElem?_eq_some_iff.1 hi
  exact ⟨List.getElem?_set_self h_lt, sum_map_set hi status'⟩

/-- Waking leaves the total alone if it changes no weight. -/
theorem total_wake (h_woken : ∀ c status, weight (status.woken c) = weight status)
    (m : Machine σ π ρ) (c : Nat) : (m.wake c).total weight = m.total weight := by
  rw [total, total, wake, List.map_map]
  exact congrArg List.sum (List.map_congr_left fun status _ => h_woken c status)

/-- A move changes the total by the weight of its own call. -/
theorem weighed_apply (h_woken : ∀ c status, weight (status.woken c) = weight status) {i : Nat}
    (move : Move π ρ) {m : Machine σ π ρ} {status : Status π ρ}
    (hi : m.calls[i]? = some status) :
    ∃ status', Weighed weight m (m.apply i move) i status status' := by
  induction move generalizing m status with
  | goto task => exact ⟨_, weighed_setCall hi _⟩
  | park c wake late => exact ⟨_, weighed_setCall hi _⟩
  | outside pending => exact ⟨_, weighed_setCall hi _⟩
  | finish result => exact ⟨_, weighed_setCall hi _⟩
  -- waking changes no weight, neither that of all calls nor the part of the call itself
  | notify c next ih =>
    have hi' : (m.wake c).calls[i]? = some (status.woken c) := by
      rw [wake, List.getElem?_map, hi]
      rfl
    obtain ⟨status', h_after, h_total⟩ := ih (m.waiting c) hi'
    refine ⟨status', h_after, ?_⟩
    rw [h_woken, total_wake h_woken] at h_total
    exact h_total

/-- A step changes the total by the weight of the call that acts. -/
theorem weighed_perform (h_woken : ∀ c status, weight (status.woken c) = weight status) {i : Nat}
    {status : Status π ρ} (hi : m.calls[i]? = some status) (o : Move π ρ × σ) :
    ∃ status', o.1.Leads status' ∧ Weighed weight m (m.perform i o) i status status' := by
  obtain ⟨h_lt, -⟩ := List.getElem?_eq_some_iff.1 hi
  obtain ⟨status', h_after, h_leads⟩ := (stepped_perform m h_lt o).self
  have h_before : ({ m with state := o.2 } : Machine σ π ρ).calls[i]? = some status := hi
  obtain ⟨status₁, h_weighed⟩ := weighed_apply h_woken o.1 h_before
  cases h_weighed.after.symm.trans h_after
  exact ⟨status', h_leads, h_weighed.after, h_weighed.total⟩

/-- **How the weight of all calls changes** with an event that is the step of a call. -/
theorem weighed (h_woken : ∀ c status, weight (status.woken c) = weight status)
    (h : m.step program e = some m') :
    (∃ start, e = .call start ∧ m' = { m with calls := m.calls ++ [.ready start] }) ∨
      ∃ i status o status', Acts program m e i status o ∧ o.1.Leads status' ∧
        m'.state = o.2 ∧ Weighed weight m m' i status status' := by
  cases e with
  | call start => exact .inl ⟨start, rfl, (Option.some.inj h).symm⟩
  | run i =>
    obtain ⟨task, hi, rfl⟩ := step_run h
    obtain ⟨status', h_leads, h_weighed⟩ := weighed_perform h_woken hi (program.run task m.state)
    exact .inr ⟨i, _, _, status', .run hi, h_leads, state_apply _ i _, h_weighed⟩
  | answer i answer =>
    obtain ⟨task, hi, rfl⟩ := step_answer h
    obtain ⟨status', h_leads, h_weighed⟩ :=
      weighed_perform h_woken hi (program.reply task answer m.state)
    exact .inr ⟨i, _, _, status', .answer hi, h_leads, state_apply _ i _, h_weighed⟩
  | expire i =>
    obtain ⟨c, wake, late, hi, rfl⟩ := step_expire h
    -- the deadline makes the call ready before it makes its step
    have h_first : Weighed weight m (m.setCall i (.ready late)) i (.parked c wake (some late))
      (.ready late) := weighed_setCall hi _
    obtain ⟨status', h_leads, h_weighed⟩ :=
      weighed_perform h_woken h_first.after (program.run late m.state)
    refine .inr ⟨i, _, _, status', .expire hi, h_leads, state_apply _ i _, h_weighed.after, ?_⟩
    have h_before := h_first.total
    have h_total := h_weighed.total
    omega

end Weights

section Counts

variable {p : Status π ρ → Bool}

/-- The call `i` changes from the one status to the other, and this is how many calls have the property
`p` before and after. -/
structure Counted (p : Status π ρ → Bool) (m m' : Machine σ π ρ) (i : Nat)
    (status status' : Status π ρ) : Prop where
  after : m'.calls[i]? = some status'
  count : m'.calls.countP p + (p status).toNat = m.calls.countP p + (p status').toNat

/-- To count calls is to weigh them by a property. -/
theorem countP_eq_total (p : Status π ρ → Bool) (m : Machine σ π ρ) :
    m.calls.countP p = m.total fun status => (p status).toNat := by
  rw [total]
  induction m.calls with
  | nil => rfl
  | cons status calls ih =>
    rw [List.countP_cons, List.map_cons, List.sum_cons, ih, Nat.add_comm]
    cases p status <;> rfl

/-- **How a count changes** with an event that is the step of a call. -/
theorem counted (h_woken : ∀ c status, p (status.woken c) = p status)
    (h : m.step program e = some m') :
    (∃ start, e = .call start ∧ m' = { m with calls := m.calls ++ [.ready start] }) ∨
      ∃ i status o status', Acts program m e i status o ∧ o.1.Leads status' ∧
        m'.state = o.2 ∧ Counted p m m' i status status' := by
  let weight : Status π ρ → Nat := fun status => (p status).toNat
  have h_weight : ∀ c status, weight (status.woken c) = weight status :=
    fun c status => congrArg Bool.toNat (h_woken c status)
  refine (weighed h_weight h).imp_right ?_
  rintro ⟨i, status, o, status', h_acts, h_leads, h_state, h_weighed⟩
  refine ⟨i, status, o, status', h_acts, h_leads, h_state, h_weighed.after, ?_⟩
  rw [countP_eq_total, countP_eq_total]
  exact h_weighed.total

end Counts

end Machine

end GroupCommit
