import GroupCommit.Proofs.Machine.Steps

/-!
# Waking up

An event lets one call make a step, or makes a new call. The call that makes the step goes where the
move of the step leads it. Every other call stays as it is, unless it waits on a condition that the
step wakes.

A call that waits looks at the state again only when it is woken, so whoever changes the state has to
see to it that nobody waits on for what has come already. `Heard` says that this has been done: all
calls that wait on a condition still have to wait, or some call is about to wake it. To show that it
is kept it is enough to look at single steps of a program, whatever the other calls do.

* `Move.Leads`, `Status.Remains`: what becomes of the call that makes a step, and of the others.
* `Machine.step_cases`, `Machine.came`: what is known of any event, and of any call after it.
* `Machine.Heard`, `Machine.Heard.step`: no wake-up is lost.
-/

namespace GroupCommit

variable {σ π α ρ : Type}

/-! ### What becomes of the calls -/

/-- Where a move can leave its call, whatever it wakes on the way. -/
inductive Move.Leads : Move π ρ → Status π ρ → Prop
  | goto (task : π) : Leads (.goto task) (.ready task)
  | park (condition : Nat) (wake : π) (late : Option π) :
      Leads (.park condition wake late) (.parked condition wake late)
  | outside (pending : π) : Leads (.outside pending) (.outside pending)
  | finish (result : ρ) : Leads (.finish result) (.finished result)
  | notify {condition woken : Nat} {next : Nat → Move π ρ} {status : Status π ρ}
      (h : Leads (next woken) status) : Leads (.notify condition next) status

/-- A move of one program that is seen as a move of a larger one parks its call when it did so before:
what follows on its results does not park. -/
theorem Move.Leads.embed_parked {π' ρ' : Type} {c₀ c : Nat} {task : π → π'} {next : ρ → Move π' ρ'}
    {move : Move π ρ} {wake : π'} {late : Option π'}
    (h_next : ∀ result c wake late, ¬ (next result).Leads (.parked c wake late))
    (h : (move.embed c₀ task next).Leads (.parked c wake late)) :
    c = c₀ ∧ ∃ c' wake' late', move.Leads (.parked c' wake' late') ∧ wake = task wake' ∧
      late = late'.map task := by
  -- on the move: only a park or what follows a notification can end in a wait
  induction move with
  | goto p => cases h
  | park c' wake' late' =>
    cases h
    exact ⟨rfl, c', wake', late', .park c' wake' late', rfl, rfl⟩
  | outside p => cases h
  | finish result => exact absurd h (h_next _ _ _ _)
  | notify c' after ih =>
    cases h with
    | notify h =>
      obtain ⟨h_eq, c', wake', late', h_leads, h_same⟩ := ih _ h
      exact ⟨h_eq, c', wake', late', .notify h_leads, h_same⟩

/-- What becomes of a call while another one makes a step: it stays as it is, or it is woken. -/
inductive Status.Remains : Status π ρ → Status π ρ → Prop
  | same (status : Status π ρ) : Remains status status
  | woken (condition : Nat) (wake : π) (late : Option π) :
      Remains (.parked condition wake late) (.ready wake)

/-- What remains over two steps remains over both. -/
theorem Status.Remains.trans {s t u : Status π ρ} (h : s.Remains t) (h' : t.Remains u) :
    s.Remains u := by
  cases h with
  | same => exact h'
  | woken c wake late =>
    cases h'
    exact .woken c wake late

/-- A call that is woken keeps its place. -/
theorem Status.remains_woken (condition : Nat) (status : Status π ρ) :
    status.Remains (status.woken condition) := by
  cases status with
  | parked c wake late =>
    rw [Status.woken]
    split
    · exact .woken c wake late
    · exact .same _
  | _ => exact .same _

namespace Machine

/-- The machine `m'` is `m` after a step of the call `i` with this outcome. -/
structure Stepped (m m' : Machine σ π ρ) (i : Nat) (o : Move π ρ × σ) : Prop where
  state : m'.state = o.2
  length : m'.calls.length = m.calls.length
  self : ∃ status, m'.calls[i]? = some status ∧ o.1.Leads status
  other : ∀ j status, j ≠ i → m.calls[j]? = some status →
    ∃ status', m'.calls[j]? = some status' ∧ status.Remains status'
  /-- A step that wakes a condition leaves no other call waiting on it. -/
  notified : ∀ condition next, o.1 = .notify condition next → ∀ j wake late, j ≠ i →
    m.calls[j]? = some (.parked condition wake late) → m'.calls[j]? = some (.ready wake)

section Stepped

variable {m m' m₁ : Machine σ π ρ} {i j : Nat} {o : Move π ρ × σ}

/-- The status of a call after a step of another one comes from its status before. -/
theorem Stepped.exists_before (h : Stepped m m' i o) (h_ne : j ≠ i) {status' : Status π ρ}
    (hj : m'.calls[j]? = some status') :
    ∃ status, m.calls[j]? = some status ∧ status.Remains status' := by
  obtain ⟨h_lt, -⟩ := List.getElem?_eq_some_iff.1 hj
  have hj₀ := List.getElem?_eq_getElem (h.length ▸ h_lt)
  obtain ⟨status₁, hj₁, h_remains⟩ := h.other j _ h_ne hj₀
  cases hj₁.symm.trans hj
  exact ⟨_, hj₀, h_remains⟩

/-- A ready call is not touched by the steps of others. -/
theorem Stepped.ready (h : Stepped m m' i o) (h_ne : j ≠ i) {task : π}
    (hj : m.calls[j]? = some (.ready task)) : m'.calls[j]? = some (.ready task) := by
  obtain ⟨status, hj', h_remains⟩ := h.other j _ h_ne hj
  cases h_remains
  exact hj'

/-- A call that is parked after a step of another one was parked before. -/
theorem Stepped.parked (h : Stepped m m' i o) (h_ne : j ≠ i) {c : Nat} {wake : π} {late : Option π}
    (hj : m'.calls[j]? = some (.parked c wake late)) :
    m.calls[j]? = some (.parked c wake late) := by
  obtain ⟨status, hj₀, h_remains⟩ := h.exists_before h_ne hj
  cases h_remains
  exact hj₀

/-- Nobody else waits for a condition that was notified. -/
theorem Stepped.not_parked (h : Stepped m m' i o) (h_ne : j ≠ i) {c : Nat} {next : Nat → Move π ρ}
    (h_notify : o.1 = .notify c next) (wake : π) (late : Option π) :
    m'.calls[j]? ≠ some (.parked c wake late) := by
  intro hj
  -- it would have been parked before, and then it is woken
  have h_ready := h.notified c next h_notify j wake late h_ne (h.parked h_ne hj)
  cases h_ready.symm.trans hj

/-- What is known of the other calls depends on nothing but the other calls. -/
theorem Stepped.congr (h : Stepped m₁ m' i o) (h_length : m₁.calls.length = m.calls.length)
    (h_same : ∀ j, j ≠ i → m₁.calls[j]? = m.calls[j]?) : Stepped m m' i o where
  state := h.state
  length := h.length.trans h_length
  self := h.self
  other := fun j status h_ne hj => h.other j status h_ne ((h_same j h_ne).trans hj)
  notified := fun c next h_notify j wake late h_ne hj =>
    h.notified c next h_notify j wake late h_ne ((h_same j h_ne).trans hj)

/-- A step without notification changes one call. -/
theorem stepped_setCall (m : Machine σ π ρ) (hi : i < m.calls.length) {move : Move π ρ}
    {status : Status π ρ} (h_leads : move.Leads status) (h_quiet : ∀ c next, move ≠ .notify c next) :
    Stepped m (m.setCall i status) i (move, m.state) where
  state := rfl
  length := List.length_set
  self := ⟨status, List.getElem?_set_self hi, h_leads⟩
  other := fun _ status' h_ne hj =>
    ⟨status', (List.getElem?_set_ne (Ne.symm h_ne)).trans hj, .same _⟩
  notified := fun c next h_notify _ _ _ _ => absurd h_notify (h_quiet c next)

/-- Waking a condition before the step does to the other calls what their waking does. -/
theorem Stepped.wake {c : Nat} {next : Nat → Move π ρ} {n : Nat}
    (h : Stepped (m.wake c) m' i (next n, m.state)) :
    Stepped m m' i (.notify c next, m.state) where
  state := h.state
  length := h.length.trans (List.length_map _)
  self := by
    obtain ⟨status, hi, h_leads⟩ := h.self
    exact ⟨status, hi, .notify h_leads⟩
  other := by
    intro j status h_ne hj
    -- another call is woken first and then left by the rest of the move
    have hj₁ : (m.wake c).calls[j]? = some (status.woken c) := by
      rw [Machine.wake, List.getElem?_map, hj]
      rfl
    obtain ⟨status', hj', h_remains⟩ := h.other j _ h_ne hj₁
    exact ⟨status', hj', (status.remains_woken c).trans h_remains⟩
  notified := by
    rintro c' next' ⟨⟩ j wake late h_ne hj
    -- who waited for the condition is ready, and stays so
    have hj₁ : (m.wake c).calls[j]? = some (.ready wake) := by
      rw [Machine.wake, List.getElem?_map, hj, Option.map_some, Status.woken, if_pos rfl]
    exact h.ready h_ne hj₁

/-- A move leaves the others as `Stepped` says. -/
theorem stepped_apply (m : Machine σ π ρ) (hi : i < m.calls.length) (move : Move π ρ) :
    Stepped m (m.apply i move) i (move, m.state) := by
  induction move generalizing m with
  | goto task => exact stepped_setCall m hi (.goto task) nofun
  | park c wake late => exact stepped_setCall m hi (.park c wake late) nofun
  | outside pending => exact stepped_setCall m hi (.outside pending) nofun
  | finish result => exact stepped_setCall m hi (.finish result) nofun
  -- the condition is woken first, and the rest of the move is smaller
  | notify c next ih =>
    have hi' : i < (m.wake c).calls.length := by
      rw [Machine.wake, List.length_map]
      exact hi
    exact (ih _ (m.wake c) hi').wake

/-- A step leaves the others as `Stepped` says. -/
theorem stepped_perform (m : Machine σ π ρ) (hi : i < m.calls.length) (o : Move π ρ × σ) :
    Stepped m (m.perform i o) i o :=
  (stepped_apply { m with state := o.2 } hi o.1).congr rfl fun _ _ => rfl

end Stepped

/-! ### Events -/

/-- In this event the call `i`, which has this status before, makes a step with this outcome. -/
inductive Acts (program : Program σ π α ρ) (m : Machine σ π ρ) :
    Event π α → Nat → Status π ρ → Move π ρ × σ → Prop
  | run {i : Nat} {task : π} (h : m.calls[i]? = some (.ready task)) :
      Acts program m (.run i) i (.ready task) (program.run task m.state)
  | expire {i c : Nat} {wake late : π} (h : m.calls[i]? = some (.parked c wake (some late))) :
      Acts program m (.expire i) i (.parked c wake (some late)) (program.run late m.state)
  | answer {i : Nat} {task : π} {answer : α} (h : m.calls[i]? = some (.outside task)) :
      Acts program m (.answer i answer) i (.outside task) (program.reply task answer m.state)

section Events

variable {program : Program σ π α ρ} {m m' : Machine σ π ρ} {e : Event π α}

/-- The call that acts stands in the state before. -/
theorem Acts.before {i : Nat} {status : Status π ρ} {o : Move π ρ × σ}
    (h : Acts program m e i status o) : m.calls[i]? = some status := by
  cases h <;> assumption

/-- **What an event does.** It makes a new call, or a step of one call. -/
theorem step_cases (h : m.step program e = some m') :
    (∃ start, e = .call start ∧ m' = { m with calls := m.calls ++ [.ready start] }) ∨
      ∃ i status o, Acts program m e i status o ∧ Stepped m m' i o := by
  cases e with
  | call start => exact .inl ⟨start, rfl, (Option.some.inj h).symm⟩
  | run i =>
    obtain ⟨task, hi, rfl⟩ := step_run h
    obtain ⟨h_lt, -⟩ := List.getElem?_eq_some_iff.1 hi
    exact .inr ⟨i, _, _, .run hi, stepped_perform m h_lt _⟩
  | expire i =>
    obtain ⟨c, wake, late, hi, rfl⟩ := step_expire h
    obtain ⟨h_lt, -⟩ := List.getElem?_eq_some_iff.1 hi
    have h_stepped := stepped_perform (m.setCall i (.ready late))
      (List.length_set.symm ▸ h_lt) (program.run late m.state)
    -- the deadline makes the call ready, which the others do not see
    exact .inr ⟨i, _, _, .expire hi, h_stepped.congr List.length_set
      fun j h_ne => List.getElem?_set_ne (Ne.symm h_ne)⟩
  | answer i answer =>
    obtain ⟨task, hi, rfl⟩ := step_answer h
    obtain ⟨h_lt, -⟩ := List.getElem?_eq_some_iff.1 hi
    exact .inr ⟨i, _, _, .answer hi, stepped_perform m h_lt _⟩

/-- A call that is made later is ready for its first task. -/
theorem getElem?_call {calls : List (Status π ρ)} {start : π} {j : Nat} {status : Status π ρ}
    (hj : (calls ++ [.ready start])[j]? = some status) :
    calls[j]? = some status ∨ (j = calls.length ∧ status = .ready start) := by
  rcases Nat.lt_or_ge j calls.length with h_lt | h_ge
  · exact .inl ((List.getElem?_append_left h_lt).symm.trans hj)
  · obtain ⟨h_lt, -⟩ := List.getElem?_eq_some_iff.1 hj
    rw [List.length_append, List.length_singleton] at h_lt
    obtain rfl : j = calls.length := by omega
    rw [List.getElem?_concat_length] at hj
    exact .inr ⟨rfl, (Option.some.inj hj).symm⟩

/-- How a call comes to have its status after an event: the event makes the call, or the step is its
own, or it remains while another call makes a step. -/
inductive Came (program : Program σ π α ρ) (m m' : Machine σ π ρ) :
    Event π α → Nat → Status π ρ → Prop
  | made (start : π) : Came program m m' (.call start) m.calls.length (.ready start)
  | stepped {e : Event π α} {j : Nat} {status status' : Status π ρ} {o : Move π ρ × σ}
      (h_acts : Acts program m e j status o) (h_stepped : Stepped m m' j o)
      (h_leads : o.1.Leads status') : Came program m m' e j status'
  | remained {e : Event π α} {j : Nat} {status status' : Status π ρ}
      (hj : m.calls[j]? = some status) (h_remains : status.Remains status') :
      Came program m m' e j status'

/-- **Where the calls come from** after an event. -/
theorem came (h : m.step program e = some m') {j : Nat} {status' : Status π ρ}
    (hj : m'.calls[j]? = some status') : Came program m m' e j status' := by
  rcases step_cases h with ⟨start, rfl, rfl⟩ | ⟨i, status, o, h_acts, h_stepped⟩
  · rcases getElem?_call hj with hj | ⟨rfl, rfl⟩
    · exact .remained hj (.same _)
    · exact .made start
  · by_cases h_eq : j = i
    · subst h_eq
      obtain ⟨status₁, hj₁, h_leads⟩ := h_stepped.self
      cases hj₁.symm.trans hj
      exact .stepped h_acts h_stepped h_leads
    · obtain ⟨status₁, hj₁, h_remains⟩ := h_stepped.exists_before h_eq hj
      exact .remained hj₁ h_remains

/-! ### No wake-up is lost -/

/-- Every call that waits on the condition still has to wait, or some call is about to wake it. -/
def Heard (waits : σ → π → Prop) (announces : π → Prop) (c : Nat) (m : Machine σ π ρ) : Prop :=
  (∃ (i : Nat) (task : π), m.calls[i]? = some (.ready task) ∧ announces task) ∨
    ∀ (j : Nat) wake late, m.calls[j]? = some (.parked c wake late) → waits m.state wake

variable {waits : σ → π → Prop} {announces : π → Prop} {c : Nat}

theorem getElem?_idle (state : σ) (j : Nat) :
    (idle state : Machine σ π ρ).calls[j]? = none := rfl

/-- Nobody waits in an idle machine. -/
theorem heard_idle (state : σ) : Heard waits announces c (idle state : Machine σ π ρ) := by
  refine .inr fun j wake late hj => ?_
  rw [getElem?_idle] at hj
  cases hj

/-- A new call waits for nothing yet. -/
theorem Heard.call (h : Heard waits announces c m) (start : π) :
    Heard waits announces c { m with calls := m.calls ++ [.ready start] } := by
  rcases h with ⟨i, task, hi, h_task⟩ | h_waits
  · obtain ⟨h_lt, -⟩ := List.getElem?_eq_some_iff.1 hi
    exact .inl ⟨i, task, (List.getElem?_append_left h_lt).trans hi, h_task⟩
  · refine .inr fun j wake late hj => ?_
    rcases getElem?_call hj with hj | ⟨-, h_eq⟩
    · exact h_waits j wake late hj
    · cases h_eq

/-- **No wake-up is lost** by a step if whoever parks has to wait, if the step ends somebody's waiting
only when the call then goes to wake the condition, and if a call that is about to wake it does so. -/
theorem Heard.stepped (h : Heard waits announces c m) {i : Nat} {status : Status π ρ}
    {o : Move π ρ × σ} (h_before : m.calls[i]? = some status) (h_stepped : Stepped m m' i o)
    (h_park : ∀ wake late, o.1.Leads (.parked c wake late) → waits o.2 wake)
    (h_keep : (∃ task, o.1 = .goto task ∧ announces task) ∨
      ∀ wake, waits m.state wake → waits o.2 wake)
    (h_announce : ∀ task, status = .ready task → announces task → ∃ next, o.1 = .notify c next) :
    Heard waits announces c m' := by
  obtain ⟨status', hi', h_leads⟩ := h_stepped.self
  -- whoever is parked after the step is the call itself, which has to wait, or was parked before
  have h_parked : (∀ j wake late, j ≠ i → m'.calls[j]? = some (.parked c wake late) →
      waits o.2 wake) → Heard waits announces c m' := by
    intro h_others
    refine .inr fun j wake late hj => ?_
    rw [h_stepped.state]
    by_cases h_eq : j = i
    · subst h_eq
      cases hi'.symm.trans hj
      exact h_park wake late h_leads
    · exact h_others j wake late h_eq hj
  -- the call now announces, or everyone's reason to wait is as good as before
  rcases h_keep with ⟨task, h_goto, h_task⟩ | h_keep
  · rw [h_goto] at h_leads
    cases h_leads
    exact .inl ⟨i, task, hi', h_task⟩
  · rcases h with ⟨k, task, hk, h_task⟩ | h_waits
    · by_cases h_eq : k = i
      · -- the call that was about to wake the condition has done so
        subst h_eq
        obtain ⟨next, h_notify⟩ :=
          h_announce task (Option.some.inj (h_before.symm.trans hk)) h_task
        exact h_parked fun j wake late h_ne hj =>
          absurd hj (h_stepped.not_parked h_ne h_notify wake late)
      · exact .inl ⟨k, task, h_stepped.ready h_eq hk, h_task⟩
    · exact h_parked fun j wake late h_ne hj =>
        h_keep wake (h_waits j wake late (h_stepped.parked h_ne hj))

end Events

end Machine

end GroupCommit
