import GroupCommit.Proofs.Log.Simulation
import GroupCommit.Proofs.Word
import GroupCommit.Writer.Memory

/-!
# Runs of a log

A run begins with a log that has just been created and goes through any list of events that are
possible one after another: commits are made, somebody asks for the log to be poisoned, ready calls
make their steps, deadlines pass, and the outside world lets calls to the Writer through or makes them
fail. A run that leaves room for one more generation of every slot in the address space has a picture
(`Run.exists_matches`), which is where all statements about runs come from.

* `Run`, `Run.Before`, `Run.Fits`: runs, their beginnings, and that the address space is not used up.
* `shows_create`: the picture of a log that has just been created.
* `Run.exists_matches`: every run has a picture.
-/

namespace GroupCommit.Log

variable {W : Type} [Writer W]

/-- A run of a log over the Writer `W`. -/
structure Run (W : Type) [Writer W] where
  config : Config
  writer : W
  log : Log W
  created : Log.create config writer = .ok log
  /-- One interleaving of the calls, with everything that the outside world does. -/
  events : List (Event Task Verdict)
  calls : ∀ start, .call start ∈ events → start.IsCommit ∨ start.IsPoison
  /-- The log and the calls after the events. -/
  machine : Machine (Log W) Task Result
  reached : (Machine.idle log).steps (program W) events = some machine

namespace Run

/-- What was reserved and what the Writer was asked for, in order. -/
def journal (r : Run W) : Journal := Log.journal (Machine.idle r.log) r.events

/-- The first tasks of the calls, by their numbers. -/
def starts (r : Run W) : List Task := r.events.flatMap starts?

/-- The reserved bytes and one more generation of every slot fit into the address space. -/
def Fits (r : Run W) : Prop :=
  (Journal.content r.journal).length + r.config.slotCapacity * r.config.ringSize < Word.limit

/-- A deadline passes in the run. -/
def Expires (r : Run W) : Prop := ∃ i, .expire i ∈ r.events

/-- Somebody asks for the log to be poisoned. -/
def Poisons (r : Run W) : Prop := ∃ start, .call start ∈ r.events ∧ start.IsPoison

/-- Nothing happens in the run but what is allowed. -/
structure Within (r : Run W) (allowed : Allowed) : Prop where
  deadlines : r.Expires → allowed.deadlines = true
  poisoning : r.Poisons → allowed.poisoning = true

/-- Every run is within what nothing is forbidden in. -/
theorem within_all (r : Run W) : r.Within ⟨true, true⟩ := ⟨fun _ => rfl, fun _ => rfl⟩

/-- The run `r` is how the run `r'` begins. -/
structure Before (r r' : Run W) : Prop where
  log : r.log = r'.log
  events : r.events <+: r'.events

end Run

/-! ### The beginning -/

section Create

/-- A slot that is created is in its first generation. -/
theorem slot_create_ok {g : Geometry} {index : Nat} {s : Slot}
    (h : Slot.create index g.capacity g.ringSize = .ok s) :
    s = firstSlot g index ∧ g.capacity * g.ringSize < Word.limit := by
  obtain ⟨h_lt, h_eq⟩ := Slot.eq_of_create h
  exact ⟨h_eq, h_lt⟩

/-- The slots of a ring are its first slots, one for each place. -/
theorem createSlots_ok {g : Geometry} : ∀ (count index : Nat) {slots : List Slot},
    Ring.createSlots g.capacity g.ringSize index count = .ok slots →
    slots = (List.range' index count).map (firstSlot g) ∧
      (0 < count → g.capacity * g.ringSize < Word.limit)
  | 0, _, _, h => by
    cases h
    exact ⟨rfl, nofun⟩
  | count + 1, index, slots, h => by
    obtain ⟨slot, h_slot, h⟩ := bind_eq_ok.1 h
    obtain ⟨rest, h_rest, h⟩ := bind_eq_ok.1 h
    obtain ⟨rfl, h_room⟩ := slot_create_ok h_slot
    obtain ⟨rfl, -⟩ := createSlots_ok count (index + 1) h_rest
    exact ⟨(Except.ok.inj h).symm, fun _ => h_room⟩

/-- What a ring is that has been created. -/
theorem ring_create_ok {capacity ringSize : Nat} {ring : Ring}
    (h : Ring.create capacity ringSize = .ok ring) :
    (ring.geometry.capacity = capacity ∧ ring.geometry.ringSize = ringSize) ∧
      ring.slots = (List.range ring.geometry.ringSize).map (firstSlot ring.geometry) ∧
      ring.poisoned = false ∧ ring.geometry.capacity * ring.geometry.ringSize < Word.limit := by
  obtain ⟨g, h_sizes, h⟩ := bind_eq_ok.1 h
  obtain ⟨-, -, h⟩ := bind_eq_ok.1 h
  obtain ⟨slots, h_slots, h⟩ := bind_eq_ok.1 h
  obtain rfl := Except.ok.inj h
  -- the geometry has the sizes that were asked for
  obtain ⟨rfl, rfl⟩ : capacity = g.capacity ∧ ringSize = g.ringSize := by
    rw [Geometry.ofSizes] at h_sizes
    split at h_sizes
    · split at h_sizes
      · cases h_sizes
        exact ⟨rfl, rfl⟩
      · cases h_sizes
    · cases h_sizes
  obtain ⟨h_eq, h_room⟩ := createSlots_ok _ _ h_slots
  rw [← List.range_eq_range'] at h_eq
  exact ⟨⟨rfl, rfl⟩, h_eq, rfl, h_room g.ringSize_pos⟩

variable {config : Config} {writer : W} {log : Log W}

/-- What is known of a log that has just been created. -/
structure Created (config : Config) (writer : W) (log : Log W) : Prop where
  writer_eq : log.writer = writer
  config_eq : log.config = config
  valid : config.validate = .ok ()
  capacity : log.geometry.capacity = config.slotCapacity
  ringSize : log.geometry.ringSize = config.ringSize
  room : log.geometry.capacity * log.geometry.ringSize < Word.limit
  picture : ∀ allowed, Shows log.geometry log.format log ⟨Account.empty allowed,
    (List.range log.geometry.ringSize).map (firstSlot log.geometry), []⟩

omit [Writer W] in
/-- What a log is that has been created. -/
theorem create_ok (h : Log.create config writer = .ok log) : Created config writer log := by
  rw [Log.create] at h
  -- the configuration is checked first, and then the ring is made
  cases h_valid : config.validate with
  | error cause => rw [h_valid] at h; cases h
  | ok _ =>
    rw [h_valid] at h
    obtain ⟨ring, h_ring, h⟩ := bind_eq_ok.1 h
    obtain rfl := Except.ok.inj h
    cases h_create : Ring.ofConfig config with
    | error broken => rw [h_create] at h_ring; cases h_ring
    | ok ring' =>
      rw [h_create] at h_ring
      obtain rfl := Except.ok.inj h_ring
      obtain ⟨h_sizes, h_slots, h_clean, h_room⟩ := ring_create_ok h_create
      refine ⟨rfl, rfl, h_valid, h_sizes.1, h_sizes.2, h_room, fun allowed => ?_⟩
      exact ⟨rfl, rfl, rfl, h_slots, fun h_poisoned => by simp [h_clean] at h_poisoned⟩

end Create

/-! ### Every run has a picture -/

theorem starts_concat (es : List (Event Task Verdict)) (e : Event Task Verdict) :
    (es ++ [e]).flatMap starts? = es.flatMap starts? ++ starts? e := by
  rw [List.flatMap_append, List.flatMap_singleton]

/-- The events of a machine that matches a picture lead to one that matches a picture again. -/
theorem exists_matches {log : Log W} {allowed : Allowed} {g : Geometry} {format : Record.Format}
    {P₀ : Picture} (h_first : Matches g format [] (Machine.idle log) [] P₀)
    (h_allowed : P₀.account.allowed = allowed) (es : List (Event Task Verdict))
    {m : Machine (Log W) Task Result} (h_steps : (Machine.idle log).steps (program W) es = some m)
    (h_calls : ∀ start, .call start ∈ es →
      start.IsCommit ∨ (start.IsPoison ∧ allowed.poisoning = true))
    (h_expire : ∀ i, .expire i ∈ es → allowed.deadlines = true)
    (h_room : (Journal.content (Log.journal (Machine.idle log) es)).length
      + g.capacity * g.ringSize < Word.limit) :
    ∃ P, Matches g format (es.flatMap starts?) m (Log.journal (Machine.idle log) es) P ∧
      P.account.allowed = allowed := by
  induction es using List.reverseRecOn generalizing m with
  | nil =>
    cases h_steps
    exact ⟨P₀, h_first, h_allowed⟩
  | append_singleton es e ih =>
    -- by induction on the events, from their end
    obtain ⟨m₁, h₁, h_step⟩ := Machine.steps_concat _ h_steps
    have h_journal := journal_concat h₁ h_step
    -- less is reserved after fewer events
    have h_room₁ : (Journal.content (Log.journal (Machine.idle log) es)).length
        + g.capacity * g.ringSize < Word.limit := by
      rw [h_journal, Journal.content_append, List.length_append] at h_room
      omega
    obtain ⟨P, h_matches, h_same⟩ := ih h₁
      (fun start h_mem => h_calls start (List.mem_append_left _ h_mem))
      (fun i h_mem => h_expire i (List.mem_append_left _ h_mem)) h_room₁
    have h_last : e ∈ es ++ [e] := List.mem_append_right _ (List.mem_singleton_self e)
    rw [h_journal] at h_room ⊢
    rw [starts_concat]
    obtain ⟨P', h_matches', h_same'⟩ := h_matches.step h_step
      (by
        intro start h_start
        cases e with
        | call start' =>
          cases List.mem_singleton.1 h_start
          exact h_same ▸ h_calls start h_last
        | _ => cases h_start)
      (by
        rintro i rfl
        exact h_same ▸ h_expire i h_last)
      h_room
    exact ⟨P', h_matches', h_same'.trans h_same⟩

namespace Run

variable (r : Run W)

theorem capacity_eq : r.log.geometry.capacity = r.config.slotCapacity := (create_ok r.created).capacity

theorem ringSize_eq : r.log.geometry.ringSize = r.config.ringSize := (create_ok r.created).ringSize

theorem format_eq : r.log.format = r.config.recordFormat := by
  rw [Log.format, (create_ok r.created).config_eq]

/-- **Every run has a picture.** What may happen in it can be settled in advance. -/
theorem exists_matches (h_fits : r.Fits) {allowed : Allowed} (h_within : r.Within allowed) :
    ∃ P, Matches r.log.geometry r.log.format r.starts r.machine r.journal P ∧
      P.account.allowed = allowed := by
  have h_created := create_ok r.created
  -- before the first event nothing has been reserved and every slot is new
  have h_first : Matches r.log.geometry r.log.format [] (Machine.idle r.log) []
      ⟨Account.empty allowed, (List.range r.log.geometry.ringSize).map (firstSlot r.log.geometry),
        []⟩ :=
    ⟨Inv.initial allowed h_created.room, h_created.picture allowed, rfl, rfl, rfl,
      fun _ _ _ _ h => by simp [Machine.idle] at h, fun _ h => by cases h⟩
  refine Log.exists_matches h_first rfl r.events r.reached ?_ ?_ ?_
  · exact fun start h_mem => (r.calls start h_mem).imp_right fun h_poison =>
      ⟨h_poison, h_within.poisoning ⟨start, h_mem, h_poison⟩⟩
  · exact fun i h_mem => h_within.deadlines ⟨i, h_mem⟩
  · rw [r.capacity_eq, r.ringSize_eq]
    exact h_fits

end Run

/-! ### Small runs -/

section Small

/-- One slot of 64 bytes, and records that fill it. -/
def smallConfig : Config where
  slotCapacity := 64
  ringSize := 1
  minWriteSize := 64
  waitTimeout := 1

def smallGeometry : Geometry := ⟨64, 1, by decide, by decide⟩

/-- A log over memory with one slot, before any commit. -/
def smallLog : Log MemoryWriter where
  config := smallConfig
  allocator := {}
  ring := ⟨smallGeometry, [firstSlot smallGeometry 0], false⟩
  writer := {}
  stats := {}

/-- Whether nothing but commits is called. -/
def commitsOnly (events : List (Event Task Verdict)) : Bool := events.all fun
  | .call (.commit _ _ _) => true
  | .call _ => false
  | _ => true

/-- In such a run every call is a commit. -/
theorem isCommit_of_commitsOnly {events : List (Event Task Verdict)} (h : commitsOnly events = true)
    (start : Task) (h_mem : .call start ∈ events) : start.IsCommit := by
  have h_start := List.all_eq_true.1 h _ h_mem
  cases start with
  | commit timestamp payload hint => exact ⟨timestamp, payload, hint, rfl⟩
  | _ => cases h_start

/-- A run of the small log. -/
def Run.small (events : List (Event Task Verdict))
    (commits : ∀ start, .call start ∈ events → start.IsCommit)
    (possible : ((Machine.idle smallLog).steps (program MemoryWriter) events).isSome) :
    Run MemoryWriter where
  config := smallConfig
  writer := {}
  log := smallLog
  created := rfl
  events
  calls := fun start h => .inl (commits start h)
  machine := Option.get _ possible
  reached := (Option.some_get possible).symm

/-- A commit that fills the slot, writes it and returns. -/
def firstCommit : List (Event Task Verdict) :=
  [.call (.commit 7 [1, 2, 3] 0), .run 0, .run 0, .run 0, .run 0, .run 0, .answer 0 .pass, .run 0,
    .run 0, .run 0]

/-- A second commit fills the slot again, and writing it fails. -/
def secondCommit : List (Event Task Verdict) :=
  [.call (.commit 8 [4] 0), .run 1, .run 1, .run 1, .run 1, .run 1,
    .answer 1 (.fail .offsetTooLarge), .run 1, .run 1, .run 1]

set_option maxRecDepth 100000 in
/-- A run with the first of these commits. -/
def Run.first : Run MemoryWriter := Run.small firstCommit (isCommit_of_commitsOnly rfl) rfl

set_option maxRecDepth 100000 in
/-- The same run, later. -/
def Run.second : Run MemoryWriter :=
  Run.small (firstCommit ++ secondCommit) (isCommit_of_commitsOnly rfl) rfl

theorem Run.first_before : Run.first.Before Run.second := ⟨rfl, List.prefix_append _ _⟩

set_option maxRecDepth 100000 in
theorem Run.second_fits : Run.second.Fits := by
  show _ < _
  decide +kernel

/-! Three commits on two slots, of which the second one takes up the rest of a slot, the whole next one
and the beginning of the one after that. -/

/-- Two slots of 64 bytes, and records without padding. -/
def pairConfig : Config where
  slotCapacity := 64
  ringSize := 2
  minWriteSize := 1
  waitTimeout := 1

def pairGeometry : Geometry := ⟨64, 2, by decide, by decide⟩

/-- A log over memory with two slots, before any commit. -/
def pairLog : Log MemoryWriter where
  config := pairConfig
  allocator := {}
  ring := ⟨pairGeometry, [firstSlot pairGeometry 0, firstSlot pairGeometry 1], false⟩
  writer := {}
  stats := {}

/-- A run of this log. -/
def Run.pair (events : List (Event Task Verdict)) (commits : commitsOnly events = true)
    (possible : ((Machine.idle pairLog).steps (program MemoryWriter) events).isSome) :
    Run MemoryWriter where
  config := pairConfig
  writer := {}
  log := pairLog
  created := rfl
  events
  calls := fun start h => .inl (isCommit_of_commitsOnly commits start h)
  machine := Option.get _ possible
  reached := (Option.some_get possible).symm

/-- This call makes so many steps in a row. -/
def turns (i count : Nat) : List (Event Task Verdict) := List.replicate count (.run i)

/-- The call with the number `i` begins like this, with so many bytes of payload. -/
def callTask (i length : Nat) : Task := .commit i.toUInt64 (List.replicate length i.toUInt8) 0

/-- The first commit writes its slot when its deadline passes, and the second one waits for that. Then the
third one fills up the last slot. When the events are over, two calls to the Writer are in flight: the
second commit writes its middle, and the third one the last slot. -/
def hurriedBegin : List (Event Task Verdict) :=
  .call (callTask 0 8) :: turns 0 5 ++ .expire 0 :: turns 0 1 ++
    .call (callTask 1 138) :: turns 1 4 ++ .answer 0 .pass :: turns 0 3 ++ turns 1 3 ++
    .answer 1 .pass :: turns 1 7 ++ .call (callTask 2 10) :: turns 2 5

/-- Both calls to the Writer return, and all commits do. -/
def hurriedEnd : List (Event Task Verdict) :=
  .answer 2 .pass :: turns 2 3 ++ .answer 1 .pass :: turns 1 2

/-- The same commits, where no deadline passes: the second one fills up the slot that the first one has
begun. -/
def patientCommits : List (Event Task Verdict) :=
  .call (callTask 0 8) :: turns 0 5 ++ .call (callTask 1 138) :: turns 1 6 ++
    .call (callTask 2 10) :: turns 2 3 ++ .answer 1 .pass :: turns 1 7 ++ turns 0 2 ++ turns 2 3 ++
    .answer 2 .pass :: turns 2 3 ++ .answer 1 .pass :: turns 1 2

set_option maxRecDepth 100000 in
/-- The run in which two calls to the Writer are in flight. -/
def Run.hurriedFlight : Run MemoryWriter := Run.pair hurriedBegin rfl (by decide +kernel)

set_option maxRecDepth 100000 in
/-- The same run, when all commits have returned. -/
def Run.hurried : Run MemoryWriter := Run.pair (hurriedBegin ++ hurriedEnd) rfl (by decide +kernel)

set_option maxRecDepth 100000 in
/-- The run in which no deadline passes. -/
def Run.patient : Run MemoryWriter := Run.pair patientCommits rfl (by decide +kernel)

set_option maxRecDepth 100000 in
theorem Run.hurriedFlight_fits : Run.hurriedFlight.Fits := by
  show _ < _
  decide +kernel

set_option maxRecDepth 100000 in
theorem Run.hurried_fits : Run.hurried.Fits := by
  show _ < _
  decide +kernel

set_option maxRecDepth 100000 in
theorem Run.patient_fits : Run.patient.Fits := by
  show _ < _
  decide +kernel

end Small

end GroupCommit.Log
