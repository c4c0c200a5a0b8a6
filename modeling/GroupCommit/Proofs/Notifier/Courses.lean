import GroupCommit.Notifier
import GroupCommit.Proofs.Machine.Bookkeeping

/-!
# The courses of calls on a notifier

A journal of the calls on a notifier has a note for each closure that ran, with what it gave its caller,
for each notification, with the calls that were parked then, and for each deadline that passed. What is
noted of one call are its marks: what it ran itself, and which notifications it heard while it was parked.
A call can take only a few courses. A waiting call runs `pre` and then goes through rounds of hearing a
notification and running `wake` in vain, until something ends the last of them.

* `Leads`: what the closures of a journal make of a state, one after another.
* `Course`: the marks that a call can have, and where it stands then.
* `Own`, `Course.own`: the steps that a call makes by itself, and that they continue its course.
* `Course.hear`: a notification continues the courses of the parked calls, and of no others.
* `Released`, `Course.finished_released`: how often a call that has been released ran its closures.
-/

namespace GroupCommit.Notifier

variable {σ β : Type}

/-- A guarded state and the calls on it. -/
abbrev Guarded (σ β : Type) := Machine σ (Task σ β) (Reply β)

/-! ### Journals -/

/-- A closure that runs with the lock held. -/
inductive Closure (σ β : Type) where
  | access (action : σ → β × σ)
  | pre (attempt : Attempt σ β)
  | wake (attempt : Attempt σ β)
  | onTimeout (action : σ → β × σ)

/-- What a closure gives its caller, and the state that it leaves. -/
def Closure.apply : Closure σ β → σ → Option β × σ
  | access action, s => (some (action s).1, (action s).2)
  | pre attempt, s => attempt s
  | wake attempt, s => attempt s
  | onTimeout action, s => (some (action s).1, (action s).2)

/-- What is noted of a notifier. -/
inductive Note (σ β : Type) where
  /-- A call ran a closure, which gave it this. -/
  | ran (call : ℕ) (closure : Closure σ β) (result : Option β)
  /-- A call notified those that were parked. -/
  | notified (call : ℕ) (parked : List ℕ)
  /-- The deadline of a call passed. -/
  | lapsed (call : ℕ)

/-- The calls that are parked on the condition of the notifier. -/
def parkedCalls (m : Guarded σ β) : List ℕ :=
  (m.calls.zipIdx.filter fun c => c.1.parkedOn 0).map Prod.snd

/-- What is noted of a task that a call carries out. -/
def taskNotes (m : Guarded σ β) (i : ℕ) : Task σ β → List (Note σ β)
  | .access action => [.ran i (.access action) (some (action m.state).1)]
  | .notifyAll => [.notified i (parkedCalls m)]
  | .wait pre _ _ => [.ran i (.pre pre) (pre m.state).1]
  | .retry wake _ _ => [.ran i (.wake wake) (wake m.state).1]
  | .lapse _ _ _ => [.lapsed i]
  | .giveUp wake deadline _ =>
    match wake m.state with
    | (some value, _) => [.ran i (.wake wake) (some value)]
    | (none, s) => [.ran i (.wake wake) none,
        .ran i (.onTimeout deadline.onTimeout) (some (deadline.onTimeout s).1)]

/-- What is noted of an event. -/
def notes (m : Guarded σ β) : Event (Task σ β) Empty → List (Note σ β)
  | .run i =>
    match m.calls[i]? with
    | some (.ready task) => taskNotes m i task
    | _ => []
  | .expire i =>
    match m.calls[i]? with
    | some (.parked _ _ (some late)) => taskNotes m i late
    | _ => []
  | _ => []

/-- The closures of a journal lead from one state to another: each of them ran on the state that the ones
before it left, and gave what is noted. -/
inductive Leads : σ → List (Note σ β) → σ → Prop
  | nil (s : σ) : Leads s [] s
  | ran {s s' : σ} {J : List (Note σ β)} (i : ℕ) (closure : Closure σ β)
      (h : Leads (closure.apply s).2 J s') :
      Leads s (.ran i closure (closure.apply s).1 :: J) s'
  | notified {s s' : σ} {J : List (Note σ β)} (i : ℕ) (parked : List ℕ) (h : Leads s J s') :
      Leads s (.notified i parked :: J) s'
  | lapsed {s s' : σ} {J : List (Note σ β)} (i : ℕ) (h : Leads s J s') :
      Leads s (.lapsed i :: J) s'

/-- Notes in two parts lead over the state between them. -/
theorem Leads.append {s s' s'' : σ} {J K : List (Note σ β)} (h : Leads s J s') (h' : Leads s' K s'') :
    Leads s (J ++ K) s'' := by
  induction h with
  | nil => exact h'
  | ran i closure _ ih => exact .ran i closure (ih h')
  | notified i parked _ ih => exact .notified i parked (ih h')
  | lapsed i _ ih => exact .lapsed i (ih h')

/-- One closure that ran. -/
theorem Leads.single {s s' : σ} {result : Option β} (i : ℕ) (closure : Closure σ β)
    (h : closure.apply s = (result, s')) : Leads s [.ran i closure result] s' := by
  obtain ⟨rfl, rfl⟩ := Prod.mk.inj h
  exact .ran i closure (.nil _)

/-! ### Parked calls -/

/-- The parked calls are those that wait for the notifier. -/
theorem mem_parkedCalls {m : Guarded σ β} {i : ℕ} :
    i ∈ parkedCalls m ↔ ∃ status, m.calls[i]? = some status ∧ status.parkedOn 0 = true := by
  constructor
  · intro h
    obtain ⟨⟨status, j⟩, h_mem, rfl⟩ := List.mem_map.1 h
    obtain ⟨h_mem, h_parked⟩ := List.mem_filter.1 h_mem
    exact ⟨status, List.mem_zipIdx_iff_getElem?.1 h_mem, h_parked⟩
  · rintro ⟨status, hi, h_parked⟩
    exact List.mem_map.2
      ⟨(status, i), List.mem_filter.2 ⟨List.mem_zipIdx_iff_getElem?.2 hi, h_parked⟩, rfl⟩

/-- Whether a call is parked can be read off its status. -/
theorem mem_parkedCalls_iff {m : Guarded σ β} {i : ℕ} {status : Status (Task σ β) (Reply β)}
    (hi : m.calls[i]? = some status) : i ∈ parkedCalls m ↔ status.parkedOn 0 = true := by
  rw [mem_parkedCalls, hi]
  simp

/-- A notification counts the parked calls. -/
theorem length_parkedCalls (m : Guarded σ β) : (parkedCalls m).length = m.waiting 0 := by
  rw [parkedCalls, List.length_map, ← List.countP_eq_length_filter, Machine.waiting]
  conv_rhs => rw [← List.zipIdx_map_fst 0 m.calls, List.countP_map]
  rfl

/-! ### Marks -/

/-- What is noted of one call. -/
inductive Mark (σ β : Type) where
  /-- It ran a closure, which gave it this. -/
  | ran (closure : Closure σ β) (result : Option β)
  /-- It was parked when somebody notified. -/
  | heard
  /-- Its deadline passed. -/
  | lapsed
  /-- It notified so many parked calls. -/
  | notified (count : ℕ)

/-- The mark that a note leaves on a call, if it does. -/
def Note.markFor (i : ℕ) : Note σ β → Option (Mark σ β)
  | ran j closure result => if j = i then some (.ran closure result) else none
  | notified j parked =>
    if j = i then some (.notified parked.length) else if i ∈ parked then some .heard else none
  | lapsed j => if j = i then some .lapsed else none

/-- The marks of a call. -/
def marks (i : ℕ) (J : List (Note σ β)) : List (Mark σ β) := J.filterMap (Note.markFor i)

theorem marks_append (i : ℕ) (J K : List (Note σ β)) : marks i (J ++ K) = marks i J ++ marks i K :=
  List.filterMap_append

/-! ### Courses -/

/-- A waiting call has run `pre` in vain and then, so many times, `wake` after a notification. -/
def rounds (pre wake : Attempt σ β) : ℕ → List (Mark σ β)
  | 0 => [.ran (.pre pre) none]
  | k + 1 => rounds pre wake k ++ [.heard, .ran (.wake wake) none]

/-- A call that is parked after so many rounds. -/
def waitingStatus (wake : Attempt σ β) (deadline : Option (Deadline σ β)) (k : ℕ) :
    Status (Task σ β) (Reply β) :=
  .parked 0 (.retry wake deadline k) (deadline.map fun d => .lapse wake d k)

/-- The courses that a call with a given first task can take: its marks, and where it stands then. -/
inductive Course : Task σ β → List (Mark σ β) → Status (Task σ β) (Reply β) → Prop
  | accessing (action : σ → β × σ) : Course (.access action) [] (.ready (.access action))
  | accessed (action : σ → β × σ) (v : β) :
      Course (.access action) [.ran (.access action) (some v)] (.finished (.value v))
  | notifying : Course .notifyAll [] (.ready .notifyAll)
  | notified (count : ℕ) : Course .notifyAll [.notified count] (.finished (.woken count))
  | entering (pre wake : Attempt σ β) (deadline : Option (Deadline σ β)) :
      Course (.wait pre wake deadline) [] (.ready (.wait pre wake deadline))
  | admitted (pre wake : Attempt σ β) (deadline : Option (Deadline σ β)) (v : β) :
      Course (.wait pre wake deadline) [.ran (.pre pre) (some v)] (.finished (.released .pre v 0))
  | waiting (pre wake : Attempt σ β) (deadline : Option (Deadline σ β)) (k : ℕ) :
      Course (.wait pre wake deadline) (rounds pre wake k) (waitingStatus wake deadline k)
  | woken (pre wake : Attempt σ β) (deadline : Option (Deadline σ β)) (k : ℕ) :
      Course (.wait pre wake deadline) (rounds pre wake k ++ [.heard])
        (.ready (.retry wake deadline k))
  | released (pre wake : Attempt σ β) (deadline : Option (Deadline σ β)) (k : ℕ) (v : β) :
      Course (.wait pre wake deadline)
        (rounds pre wake k ++ [.heard, .ran (.wake wake) (some v)])
        (.finished (.released .wake v (k + 1)))
  | late (pre wake : Attempt σ β) (d : Deadline σ β) (k : ℕ) :
      Course (.wait pre wake (some d)) (rounds pre wake k ++ [.lapsed]) (.ready (.giveUp wake d k))
  | releasedLate (pre wake : Attempt σ β) (d : Deadline σ β) (k : ℕ) (v : β) :
      Course (.wait pre wake (some d))
        (rounds pre wake k ++ [.lapsed, .ran (.wake wake) (some v)])
        (.finished (.released .wake v (k + 1)))
  | timedOut (pre wake : Attempt σ β) (d : Deadline σ β) (k : ℕ) (v : β) :
      Course (.wait pre wake (some d))
        (rounds pre wake k ++
          [.lapsed, .ran (.wake wake) none, .ran (.onTimeout d.onTimeout) (some v)])
        (.finished (.released .timeout v (k + 1)))

/-- A parked call waits as it should. -/
theorem Course.of_parked {start wake : Task σ β} {L : List (Mark σ β)} {c : ℕ}
    {late : Option (Task σ β)} (h : Course start L (.parked c wake late)) :
    ∃ attempt deadline k, .parked c wake late = waitingStatus attempt deadline k := by
  -- the courses are told apart by where the call stands, so that has to be a variable
  generalize h_status : Status.parked c wake late = status at h
  cases h with
  | waiting pre attempt deadline k => exact ⟨attempt, deadline, k, rfl⟩
  | _ => cases h_status

/-! ### The steps of one call -/

/-- The steps that the call `i` makes by itself, on a state: where it stands before and after, what is
noted, and the state that is left. -/
inductive Own (i : ℕ) : σ → Status (Task σ β) (Reply β) → List (Note σ β) →
    Status (Task σ β) (Reply β) → σ → Prop
  | accesses (action : σ → β × σ) (s : σ) :
      Own i s (.ready (.access action)) [.ran i (.access action) (some (action s).1)]
        (.finished (.value (action s).1)) (action s).2
  | enters {pre wake : Attempt σ β} {deadline : Option (Deadline σ β)} {s s' : σ} {v : β}
      (h : pre s = (some v, s')) :
      Own i s (.ready (.wait pre wake deadline)) [.ran i (.pre pre) (some v)]
        (.finished (.released .pre v 0)) s'
  | parks {pre wake : Attempt σ β} {deadline : Option (Deadline σ β)} {s s' : σ}
      (h : pre s = (none, s')) :
      Own i s (.ready (.wait pre wake deadline)) [.ran i (.pre pre) none]
        (waitingStatus wake deadline 0) s'
  | leaves {wake : Attempt σ β} {deadline : Option (Deadline σ β)} {k : ℕ} {s s' : σ} {v : β}
      (h : wake s = (some v, s')) :
      Own i s (.ready (.retry wake deadline k)) [.ran i (.wake wake) (some v)]
        (.finished (.released .wake v (k + 1))) s'
  | parksAgain {wake : Attempt σ β} {deadline : Option (Deadline σ β)} {k : ℕ} {s s' : σ}
      (h : wake s = (none, s')) :
      Own i s (.ready (.retry wake deadline k)) [.ran i (.wake wake) none]
        (waitingStatus wake deadline (k + 1)) s'
  | lapses (wake : Attempt σ β) (d : Deadline σ β) (k : ℕ) (s : σ) :
      Own i s (waitingStatus wake (some d) k) [.lapsed i] (.ready (.giveUp wake d k)) s
  | leavesLate {wake : Attempt σ β} {d : Deadline σ β} {k : ℕ} {s s' : σ} {v : β}
      (h : wake s = (some v, s')) :
      Own i s (.ready (.giveUp wake d k)) [.ran i (.wake wake) (some v)]
        (.finished (.released .wake v (k + 1))) s'
  | timesOut {wake : Attempt σ β} {d : Deadline σ β} {k : ℕ} {s s' : σ}
      (h : wake s = (none, s')) :
      Own i s (.ready (.giveUp wake d k))
        [.ran i (.wake wake) none, .ran i (.onTimeout d.onTimeout) (some (d.onTimeout s').1)]
        (.finished (.released .timeout (d.onTimeout s').1 (k + 1))) (d.onTimeout s').2

namespace Own

variable {i j : ℕ} {s s' : σ} {status status' : Status (Task σ β) (Reply β)} {ns : List (Note σ β)}

/-- What is noted of a step leads to the state that it leaves. -/
theorem leads (h : Own i s status ns status' s') : Leads s ns s' := by
  cases h with
  | accesses action => exact .single i (.access action) rfl
  | enters h => exact .single i (.pre _) h
  | parks h => exact .single i (.pre _) h
  | leaves h => exact .single i (.wake _) h
  | parksAgain h => exact .single i (.wake _) h
  | lapses => exact .lapsed i (.nil s)
  | leavesLate h => exact .single i (.wake _) h
  -- the second closure runs on what the first one left
  | @timesOut wake d k _ s₁ h =>
    exact (Leads.single i (.wake wake) h).append (.single i (.onTimeout d.onTimeout) rfl)

/-- A step of one call leaves no mark on the others. -/
theorem marks_of_ne (h : Own i s status ns status' s') (h_ne : j ≠ i) : marks j ns = [] := by
  have h_none : ∀ closure result, (Note.ran i closure result : Note σ β).markFor j = none :=
    fun _ _ => if_neg (Ne.symm h_ne)
  have h_lapsed : (Note.lapsed i : Note σ β).markFor j = none := if_neg (Ne.symm h_ne)
  cases h <;> simp only [marks, List.filterMap_cons, List.filterMap_nil, h_none, h_lapsed]

/-- A deadline's own closure runs directly behind a last `wake` in vain, in the same step. -/
theorem of_onTimeout (h : Own i s status ns status' s') {action : σ → β × σ} {result : Option β}
    (h_mem : .ran j (.onTimeout action) result ∈ ns) :
    ∃ wake, ns = [.ran j (.wake wake) none, .ran j (.onTimeout action) result] := by
  cases h with
  | timesOut h =>
    simp only [List.mem_cons, Note.ran.injEq, Closure.onTimeout.injEq, reduceCtorEq, false_and, and_false,
      List.not_mem_nil, or_false, false_or] at h_mem
    obtain ⟨rfl, rfl, rfl⟩ := h_mem
    exact ⟨_, rfl⟩
  | _ => simp at h_mem

end Own

theorem marks_ran (i : ℕ) (closure : Closure σ β) (result : Option β) (ns : List (Note σ β)) :
    marks i (.ran i closure result :: ns) = .ran closure result :: marks i ns :=
  List.filterMap_cons_some (if_pos rfl)

theorem marks_lapsed (i : ℕ) (ns : List (Note σ β)) :
    marks i (.lapsed i :: ns) = .lapsed :: marks i ns :=
  List.filterMap_cons_some (if_pos rfl)

theorem marks_notified (i : ℕ) (parked : List ℕ) :
    marks i [(.notified i parked : Note σ β)] = [.notified parked.length] :=
  List.filterMap_cons_some (if_pos rfl)

/-- The other calls hear a notification if they are parked. -/
theorem marks_notified_of_ne {i j : ℕ} (h_ne : j ≠ i) (parked : List ℕ) :
    marks j [(.notified i parked : Note σ β)] = if j ∈ parked then [.heard] else [] := by
  by_cases h_mem : j ∈ parked
  · rw [if_pos h_mem]
    exact List.filterMap_cons_some ((if_neg (Ne.symm h_ne)).trans (if_pos h_mem))
  · rw [if_neg h_mem]
    exact List.filterMap_cons_none ((if_neg (Ne.symm h_ne)).trans (if_neg h_mem))

/-- **A step continues the course of its call.** -/
theorem Course.own {i : ℕ} {s s' : σ} {status status' : Status (Task σ β) (Reply β)}
    {ns : List (Note σ β)} {start : Task σ β} {L : List (Mark σ β)} (h : Course start L status)
    (h_own : Own i s status ns status' s') : Course start (L ++ marks i ns) status' := by
  -- where the call stands tells its course up to the number of rounds, and the step ends the course or
  -- takes it to the next place
  cases h_own with
  | accesses action =>
    cases h
    rw [marks_ran]
    exact .accessed action _
  | enters =>
    cases h
    rw [marks_ran]
    exact .admitted _ _ _ _
  | parks =>
    cases h
    rw [marks_ran]
    exact .waiting _ _ _ 0
  | leaves =>
    cases h
    rw [marks_ran, List.append_assoc]
    exact .released _ _ _ _ _
  | parksAgain =>
    cases h
    rw [marks_ran, List.append_assoc]
    exact .waiting _ _ _ (_ + 1)
  | lapses wake d k =>
    cases h
    rw [marks_lapsed]
    exact .late _ _ _ _
  | leavesLate =>
    cases h
    rw [marks_ran, List.append_assoc]
    exact .releasedLate _ _ _ _ _
  | timesOut =>
    cases h
    rw [marks_ran, marks_ran, List.append_assoc]
    exact .timedOut _ _ _ _ _

/-- A notification ends the course of the call that makes it. -/
theorem Course.notify {start : Task σ β} {L : List (Mark σ β)}
    (h : Course start L (.ready .notifyAll)) (count : ℕ) :
    Course start (L ++ [.notified count]) (.finished (.woken count)) := by
  cases h
  exact .notified count

/-- Who is not parked is not woken. -/
theorem woken_of_not_parked {status : Status (Task σ β) (Reply β)} (h : status.parkedOn 0 = false) :
    status.woken 0 = status := by
  cases status with
  | parked c wake late => exact if_neg (ne_of_beq_false h)
  | _ => rfl

/-- **A notification continues the courses of the calls that are parked,** and no others. -/
theorem Course.hear {status : Status (Task σ β) (Reply β)} {start : Task σ β} {L : List (Mark σ β)}
    (h : Course start L status) :
    Course start (L ++ if status.parkedOn 0 then [.heard] else []) (status.woken 0) := by
  -- of all places on a course, a notification reaches only the one where the call is parked
  cases h_parked : status.parkedOn 0 with
  | false =>
    rw [woken_of_not_parked h_parked, if_neg Bool.false_ne_true, List.append_nil]
    exact h
  | true =>
    cases h with
    | waiting pre wake deadline k => exact .woken pre wake deadline k
    | _ => cases h_parked

/-! ### Calls that have been released -/

/-- Whether `pre` ran. -/
def Mark.isPre : Mark σ β → Bool
  | ran (.pre _) _ => true
  | _ => false

/-- Whether `wake` ran. -/
def Mark.isWake : Mark σ β → Bool
  | ran (.wake _) _ => true
  | _ => false

/-- Whether `onTimeout` ran. -/
def Mark.isOnTimeout : Mark σ β → Bool
  | ran (.onTimeout _) _ => true
  | _ => false

/-- Whether the call ceased to be parked, by a notification or by its deadline. -/
def Mark.isPrompt : Mark σ β → Bool
  | heard => true
  | lapsed => true
  | _ => false

/-- What the marks of a waiting call say when it has been released with a value. -/
structure Released (L : List (Mark σ β)) (cause : Release) (v : β) (runs : ℕ) : Prop where
  /-- `pre` ran once. -/
  pre : L.countP Mark.isPre = 1
  /-- `wake` ran as often as the call was notified while it was parked, and once for its deadline. -/
  wake : L.countP Mark.isWake = runs
  prompts : L.countP Mark.isPrompt = runs
  onTimeout : L.countP Mark.isOnTimeout = if cause = .timeout then 1 else 0
  /-- The value is the first that a closure gave. -/
  decided : ∃ K closure, L = K ++ [.ran closure (some v)] ∧ ∀ c v', .ran c (some v') ∉ K

/-- How often a property holds of the marks of so many rounds. -/
theorem countP_rounds (p : Mark σ β → Bool) (pre wake : Attempt σ β) (k : ℕ) :
    (rounds pre wake k).countP p = (p (.ran (.pre pre) none)).toNat +
      k * ((p .heard).toNat + (p (.ran (.wake wake) none)).toNat) := by
  -- on the rounds, each of which is a notification heard and a wake closure in vain
  induction k with
  | zero => cases h : p (.ran (.pre pre) none) <;> simp [rounds, h]
  | succ k ih =>
    have h_round : [.heard, .ran (.wake wake) none].countP p =
        (p .heard).toNat + (p (.ran (.wake wake) none)).toNat := by
      rw [List.countP_cons, List.countP_singleton]
      cases p .heard <;> cases p (.ran (.wake wake) none) <;> rfl
    calc
      (rounds pre wake (k + 1)).countP p
        = (rounds pre wake k).countP p + [.heard, .ran (.wake wake) none].countP p :=
          List.countP_append
      _ = (p (.ran (.pre pre) none)).toNat +
            k * ((p .heard).toNat + (p (.ran (.wake wake) none)).toNat) +
            ((p .heard).toNat + (p (.ran (.wake wake) none)).toNat) := by rw [ih, h_round]
      _ = (p (.ran (.pre pre) none)).toNat +
            (k + 1) * ((p .heard).toNat + (p (.ran (.wake wake) none)).toNat) := by
          rw [Nat.succ_mul, Nat.add_assoc]

/-- No closure gives a value in a round. -/
theorem not_mem_rounds (pre wake : Attempt σ β) (k : ℕ) (closure : Closure σ β) (v : β) :
    .ran closure (some v) ∉ rounds pre wake k := by
  induction k with
  | zero => simp [rounds]
  | succ k ih => simp [rounds, ih]

/-- After its last round, a call is prompted once more and runs `wake` once more. -/
theorem released_of_rounds {pre wake : Attempt σ β} {k : ℕ} {K last : List (Mark σ β)}
    {closure : Closure σ β} {cause : Release} {v : β}
    (h_last : last = K ++ [Mark.ran closure (some v)]) (h_vain : ∀ c v', .ran c (some v') ∉ K)
    (h_pre : last.countP Mark.isPre = 0) (h_wake : last.countP Mark.isWake = 1)
    (h_prompt : last.countP Mark.isPrompt = 1)
    (h_late : last.countP Mark.isOnTimeout = if cause = .timeout then 1 else 0) :
    Released (rounds pre wake k ++ last) cause v (k + 1) where
  pre := by rw [List.countP_append, countP_rounds, h_pre]; rfl
  wake := by rw [List.countP_append, countP_rounds, h_wake]; simp [Mark.isWake]
  prompts := by rw [List.countP_append, countP_rounds, h_prompt]; simp [Mark.isPrompt]
  onTimeout := by rw [List.countP_append, countP_rounds, h_late]; simp [Mark.isOnTimeout]
  decided := by
    -- the last mark decides, and nothing before it gave a value
    subst h_last
    refine ⟨rounds pre wake k ++ K, closure, (List.append_assoc _ _ _).symm, fun c v' h_mem => ?_⟩
    exact (List.mem_append.1 h_mem).elim (not_mem_rounds pre wake k c v') (h_vain c v')

/-- **A call that has been released ran its closures as often as it should.** -/
theorem Course.finished_released {start : Task σ β} {L : List (Mark σ β)} {cause : Release} {v : β}
    {runs : ℕ} (h : Course start L (.finished (.released cause v runs))) :
    Released L cause v runs := by
  cases h with
  | admitted pre wake deadline =>
    exact ⟨rfl, rfl, rfl, rfl, [], .pre pre, rfl, fun _ _ => List.not_mem_nil⟩
  | released pre wake deadline k =>
    exact released_of_rounds (K := [.heard]) rfl (by simp) rfl rfl rfl rfl
  | releasedLate pre wake d k =>
    exact released_of_rounds (K := [.lapsed]) rfl (by simp) rfl rfl rfl rfl
  | timedOut pre wake d k =>
    exact released_of_rounds (K := [.lapsed, .ran (.wake wake) none]) rfl (by simp) rfl rfl rfl rfl

end GroupCommit.Notifier
