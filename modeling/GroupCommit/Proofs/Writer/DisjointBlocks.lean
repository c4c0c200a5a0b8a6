import GroupCommit.Proofs.Writer.Offsets

/-!
# Calls that share no address

The blocks of a call reach beyond its bytes, so calls that share no address might still have a block in
common, and the zeros of one destroy the bytes of another. They do not: a call begins at the start of
a block, so of two calls with a common block both would take up the first address of that block
(`BlockWriter.Spans.disjoint`). What such calls leave on a device is therefore known for each byte
without regard to their order (`BlockWriter.Made`), and refused calls leave nothing.

* `BlockWriter.Takes`: the calls that a device takes.
* `BlockWriter.made`: what calls leave on a device, one after another.
* `BlockWriter.Made.content_eq`: it does not depend on their order.
* `BlockWriter.padding_destroys_nothing`: both, together with the answers.
-/

namespace GroupCommit.BlockWriter

open Writer

variable {w w₁ w₂ : BlockWriter} {r s : Request} {rs rs₁ rs₂ : List Request} {a : Nat}

/-- A disk takes the call: it begins at the start of a block, and the disk has the offset behind its
blocks. -/
structure Takes (w : BlockWriter) (r : Request) : Prop where
  aligned : 2 ^ w.bits ∣ r.address
  room : w.origin + r.address + reach w.bits r.data.length < seekLimit

/-- The blocks of a call take up an offset of the device. -/
def Spans (w : BlockWriter) (r : Request) (a : Nat) : Prop :=
  w.origin + r.address ≤ a ∧ a < w.origin + r.address + reach w.bits r.data.length

instance (w : BlockWriter) (r : Request) (a : Nat) : Decidable (w.Spans r a) :=
  inferInstanceAs (Decidable (_ ∧ _))

/-- **Calls that share no address share no block.** -/
theorem Spans.disjoint (h_r : 2 ^ w.bits ∣ r.address) (h_s : 2 ^ w.bits ∣ s.address)
    (h_disjoint : r.Disjoint s) (h : w.Spans r a) : ¬ w.Spans s a := by
  intro h'
  obtain ⟨b, rfl⟩ : ∃ b, a = w.origin + b := Nat.exists_eq_add_of_le (by have := h.1; omega)
  have h_first : ∀ {t : Request}, 2 ^ w.bits ∣ t.address → w.Spans t (w.origin + b) →
      t.Covers (2 ^ w.bits * (b / 2 ^ w.bits)) := by
    rintro t h_aligned ⟨h_from, h_to⟩
    exact first_of_reach h_aligned (by omega) (by omega)
  exact h_disjoint _ (h_first h_r h) (h_first h_s h')

/-! ### One call -/

/-- A call that the disk takes ends as the fsync does that belongs to it. -/
theorem write_of_takes (h_disk : w.device.backing = .disk) (h : w.Takes r) :
    Writer.write w r.data r.address r.hint =
      (w.device.syncAnswer.mapError .refused, w.placed (w.origin + r.address) r.data) := by
  have h_word : w.origin + r.address < Word.limit :=
    ((Nat.le_add_right _ _).trans_lt h.room).trans (by decide)
  exact (write_of_aligned h_disk h.aligned h_word).trans (if_pos h.room)

/-- A call that the disk does not take is refused as invalid input. -/
theorem write_of_not_takes (h_disk : w.device.backing = .disk) (h : ¬ w.Takes r)
    (h_word : 2 ^ w.bits ∣ r.address → w.origin + r.address < Word.limit) :
    ∃ e : IoError, Writer.write w r.data r.address r.hint = (.error (.refused e), w) ∧
      e.kind = .invalidInput := by
  by_cases h_aligned : 2 ^ w.bits ∣ r.address
  · have h_far : ¬ w.origin + r.address + reach w.bits r.data.length < seekLimit :=
      fun h_room => h ⟨h_aligned, h_room⟩
    exact ⟨_, (write_of_aligned h_disk h_aligned (h_word h_aligned)).trans (if_neg h_far), rfl⟩
  · exact ⟨_, write_misaligned w h_aligned, rfl⟩

/-! ### Calls one after another -/

/-- What calls that share no address have made of a device. -/
structure Made (w : BlockWriter) (rs : List Request) (w' : BlockWriter) : Prop where
  bits_eq : w'.bits = w.bits
  baseBlock_eq : w'.baseBlock = w.baseBlock
  backing_eq : w'.device.backing = w.device.backing
  syncs : w.device.SyncsSucceed → w'.device.SyncsSucceed
  /-- Where a call that the device has taken has its blocks, there are its bytes and zeros. -/
  read_eq : ∀ r ∈ rs, w.Takes r → ∀ a, w.Spans r a →
    w'.image.read a = r.data.read (a - (w.origin + r.address))
  /-- Everything else is as before. -/
  kept : ∀ a, (∀ r ∈ rs, w.Takes r → ¬ w.Spans r a) → w'.image.read a = w.image.read a
  /-- The device has grown as far as these blocks reach. -/
  size_le_iff : ∀ n, w'.image.size ≤ n ↔ w.image.size ≤ n ∧
    ∀ r ∈ rs, w.Takes r → r.data ≠ [] → w.origin + r.address + reach w.bits r.data.length ≤ n

namespace Made

variable {w' : BlockWriter}

/-- The calls do not move the origin of the log. -/
theorem origin_eq (h : Made w rs w') : w'.origin = w.origin := by
  rw [origin, origin, h.bits_eq, h.baseBlock_eq]

/-- The calls do not change which requests are taken. -/
theorem takes_iff (h : Made w rs w') : w'.Takes r ↔ w.Takes r := by
  constructor
  · rintro ⟨h_aligned, h_room⟩
    rw [h.bits_eq] at h_aligned
    rw [h.bits_eq, h.origin_eq] at h_room
    exact ⟨h_aligned, h_room⟩
  · rintro ⟨h_aligned, h_room⟩
    refine ⟨?_, ?_⟩
    · rwa [h.bits_eq]
    · rwa [h.bits_eq, h.origin_eq]

/-- No calls, nothing made. -/
theorem refl (w : BlockWriter) : Made w [] w :=
  ⟨rfl, rfl, rfl, id, nofun, fun _ _ => rfl, fun _ => ⟨fun h => ⟨h, nofun⟩, And.left⟩⟩

/-- A further call shows its bytes over the blocks that it spans. -/
theorem read_placed_spans (h : Made w rs w') (r : Request) (a : Nat) :
    (w'.placed (w.origin + r.address) r.data).image.read a =
      if w.Spans r a then r.data.read (a - (w.origin + r.address)) else w'.image.read a := by
  rw [read_placed, h.bits_eq]
  rfl

/-- A further call that the device takes. -/
theorem takes (h : Made w rs w') (h_takes : w.Takes r) (h_disjoint : ∀ s ∈ rs, s.Disjoint r) :
    Made w (rs ++ [r]) (w'.placed (w.origin + r.address) r.data) where
  bits_eq := h.bits_eq
  baseBlock_eq := h.baseBlock_eq
  backing_eq := h.backing_eq
  syncs h_syncs := (h.syncs h_syncs).tail _
  read_eq s hs h_s a h_spans := by
    rw [h.read_placed_spans]
    rcases List.mem_append.1 hs with hs | hs
    · -- the new blocks do not touch those of an earlier call
      rw [if_neg (h_spans.disjoint h_s.aligned h_takes.aligned (h_disjoint s hs))]
      exact h.read_eq s hs h_s a h_spans
    · cases List.mem_singleton.1 hs
      -- over its own blocks the new call is what is read
      rw [if_pos h_spans]
  kept a h_none := by
    rw [h.read_placed_spans, if_neg (h_none r (List.mem_append_right rs List.mem_cons_self) h_takes)]
    exact h.kept a fun s hs => h_none s (List.mem_append_left [r] hs)
  size_le_iff n := by
    -- the device ends with the furthest block that any taken call spans
    rw [size_placed_le_iff, h.size_le_iff, h.bits_eq, and_assoc]
    simp only [List.forall_mem_append, List.forall_mem_singleton, h_takes, true_implies]

/-- A further call that the device does not take. -/
theorem refuses (h : Made w rs w') (h_refused : ¬ w.Takes r) : Made w (rs ++ [r]) w' where
  bits_eq := h.bits_eq
  baseBlock_eq := h.baseBlock_eq
  backing_eq := h.backing_eq
  syncs := h.syncs
  read_eq s hs h_s := by
    rcases List.mem_append.1 hs with hs | hs
    · exact h.read_eq s hs h_s
    · cases List.mem_singleton.1 hs
      exact absurd h_s h_refused
  kept a h_none := h.kept a fun s hs => h_none s (List.mem_append_left [r] hs)
  size_le_iff n := by
    rw [h.size_le_iff]
    simp only [List.forall_mem_append, List.forall_mem_singleton, h_refused, false_implies, and_true]

/-- **The bytes of a call stay where they are.** -/
theorem contains (h : Made w rs w') (hr : r ∈ rs) (h_takes : w.Takes r) :
    w'.image.Contains (w.origin + r.address) r.data := by
  have h_le := le_reach w.bits r.data.length
  refine Image.contains_of_read (fun h_data => ?_) fun k hk => ?_
  · have h_stop := ((h.size_le_iff _).1 (Nat.le_refl _)).2 r hr h_takes h_data
    omega
  · rw [h.read_eq r hr h_takes _ ⟨by omega, by omega⟩, Nat.add_sub_cancel_left]

/-- **The order of the calls does not matter.** -/
theorem content_eq (h₁ : Made w rs₁ w₁) (h₂ : Made w rs₂ w₂) (h_mem : ∀ r, r ∈ rs₁ ↔ r ∈ rs₂) :
    w₁.image.content = w₂.image.content := by
  -- both devices end where the furthest taken request ends
  have h_size : w₁.image.size = w₂.image.size := by
    refine Nat.le_antisymm ((h₁.size_le_iff _).2 ?_) ((h₂.size_le_iff _).2 ?_)
    · simp only [h_mem]
      exact (h₂.size_le_iff _).1 (Nat.le_refl _)
    · simp only [← h_mem]
      exact (h₁.size_le_iff _).1 (Nat.le_refl _)
  have h_read : ∀ a, w₁.image.read a = w₂.image.read a := by
    intro a
    by_cases h_spanned : ∃ r ∈ rs₁, w.Takes r ∧ w.Spans r a
    · -- either one taken request spans the address or none does, and it is one of both lists
      obtain ⟨r, hr, h_takes, h_spans⟩ := h_spanned
      rw [h₁.read_eq r hr h_takes a h_spans, h₂.read_eq r ((h_mem r).1 hr) h_takes a h_spans]
    · have h_none : ∀ r ∈ rs₁, w.Takes r → ¬ w.Spans r a :=
        fun r hr h_takes h_spans => h_spanned ⟨r, hr, h_takes, h_spans⟩
      rw [h₁.kept a h_none, h₂.kept a fun r hr => h_none r ((h_mem r).2 hr)]
  refine Bytes.eq_of_read ?_ fun a _ => ?_
  · rw [Image.length_content, Image.length_content, h_size]
  · rw [Image.read_content, Image.read_content, h_read]

end Made

/-- **What calls leave on a disk** if they share no address, whether the fsyncs succeed or not. -/
theorem made (h_disk : w.device.backing = .disk) (h_disjoint : rs.Pairwise Request.Disjoint)
    (h_word : ∀ r ∈ rs, 2 ^ w.bits ∣ r.address → w.origin + r.address < Word.limit) :
    Made w rs (after w rs) := by
  -- on the calls made so far, which is what `Made` describes
  induction rs using List.reverseRecOn with
  | nil => exact Made.refl w
  | append_singleton rs r ih =>
    obtain ⟨h_before, -, h_last⟩ := List.pairwise_append.1 h_disjoint
    have h_made := ih h_before fun s hs => h_word s (List.mem_append_left [r] hs)
    rw [after_append]
    change Made w (rs ++ [r]) (asked (after w rs) r)
    have h_disk' := h_made.backing_eq.trans h_disk
    by_cases h_takes : w.Takes r
    · have h_write := write_of_takes h_disk' (h_made.takes_iff.2 h_takes)
      rw [h_made.origin_eq] at h_write
      rw [(asked_of_write h_write).1]
      exact h_made.takes h_takes fun s hs => h_last s hs r (List.mem_singleton_self r)
    · have h_word' : 2 ^ (after w rs).bits ∣ r.address → (after w rs).origin + r.address < Word.limit := by
        rw [h_made.bits_eq, h_made.origin_eq]
        exact h_word r (List.mem_append_right rs (List.mem_singleton_self r))
      -- a refused call leaves the device as it is
      obtain ⟨e, h_write, -⟩ := write_of_not_takes h_disk' (mt h_made.takes_iff.1 h_takes) h_word'
      rw [(asked_of_write h_write).1]
      exact h_made.refuses h_takes

/-- **Padding destroys nothing, in any order.** Of calls that share no address, a disk takes those that
begin at the start of a block and end at an offset that it has, and refuses the others as invalid input
and stays as it is; those that it takes succeed unless an fsync fails. At the end, however the fsyncs have
ended, it has the bytes of every call that it has taken; outside their blocks it is as before, with zeros
where it has grown, which is as far as these blocks reach; and every other order of the calls would have
left the same. -/
theorem padding_destroys_nothing {w : BlockWriter} (h_disk : w.device.backing = .disk) (h_disjoint : rs.Pairwise Request.Disjoint)
    (h_word : ∀ r ∈ rs, 2 ^ w.bits ∣ r.address → w.origin + r.address < Word.limit) :
    (∀ earlier r later, rs = earlier ++ r :: later →
      (w.Takes r → w.device.SyncsSucceed → answer (after w earlier) r = .ok ()) ∧
      (¬ w.Takes r → asked (after w earlier) r = after w earlier ∧
        ∃ e : IoError, answer (after w earlier) r = .error (.refused e) ∧ e.kind = .invalidInput)) ∧
    (∀ r ∈ rs, w.Takes r → (after w rs).image.Contains (w.origin + r.address) r.data) ∧
    (∀ a, (∀ r ∈ rs, w.Takes r → ¬ w.Spans r a) →
      (after w rs).image.content.read a = w.image.content.read a) ∧
    (∀ n, (after w rs).image.content.length ≤ n ↔ w.image.content.length ≤ n ∧
      ∀ r ∈ rs, w.Takes r → r.data ≠ [] → w.origin + r.address + reach w.bits r.data.length ≤ n) ∧
    ∀ rs' : List Request, rs'.Perm rs → (after w rs').image.content = (after w rs).image.content := by
  -- `Made` says of every byte what the calls have made of it, whatever their order
  have h_made := made h_disk h_disjoint h_word
  refine ⟨?_, fun r hr h_takes => h_made.contains hr h_takes, ?_, ?_, ?_⟩
  · rintro earlier r later rfl
    -- what a device takes does not depend on the calls before
    have h_earlier : Made w earlier (after w earlier) :=
      made h_disk (List.pairwise_append.1 h_disjoint).1 fun s hs => h_word s (List.mem_append_left _ hs)
    have h_disk' := h_earlier.backing_eq.trans h_disk
    refine ⟨fun h_takes h_syncs => ?_, fun h_refused => ?_⟩
    · rw [(asked_of_write (write_of_takes h_disk' (h_earlier.takes_iff.2 h_takes))).2,
        (h_earlier.syncs h_syncs).syncAnswer]
      rfl
    · have h_r := h_word r (List.mem_append_right _ List.mem_cons_self)
      rw [← h_earlier.bits_eq, ← h_earlier.origin_eq] at h_r
      obtain ⟨e, h_write, h_kind⟩ := write_of_not_takes h_disk' (mt h_earlier.takes_iff.1 h_refused) h_r
      exact ⟨(asked_of_write h_write).1, e, (asked_of_write h_write).2, h_kind⟩
  · intro a h_none
    rw [Image.read_content, Image.read_content, h_made.kept a h_none]
  · intro n
    rw [Image.length_content, Image.length_content, h_made.size_le_iff]
  · intro rs' h_perm
    have h_made' : Made w rs' (after w rs') :=
      made h_disk (h_perm.symm.pairwise h_disjoint Request.Disjoint.symm)
        fun r hr => h_word r (h_perm.mem_iff.1 hr)
    exact h_made'.content_eq h_made fun r => h_perm.mem_iff

/-- Calls to the second and to the first block of a log, with one in between that does not begin at the
start of a block. -/
def scatteredRequests : List Request := [⟨512, [4, 5], 0⟩, ⟨1, [6], 0⟩, ⟨0, [7], 0⟩]

/-- How the last of them ends, what they leave on a device, and that the other way round they would have
left the same. -/
theorem padding_destroys_nothing_scattered :
    nearLog.device.backing = .disk ∧ scatteredRequests.Pairwise Request.Disjoint ∧
      (∀ r ∈ scatteredRequests, 2 ^ nearLog.bits ∣ r.address →
        nearLog.origin + r.address < Word.limit) ∧
      answer (after nearLog [⟨512, [4, 5], 0⟩, ⟨1, [6], 0⟩]) ⟨0, [7], 0⟩ = .ok () ∧
      (after nearLog scatteredRequests).image.Contains 1536 [4, 5] ∧
      (after nearLog scatteredRequests).image.Contains 1024 [7] ∧
      (after nearLog scatteredRequests.reverse).image.content =
        (after nearLog scatteredRequests).image.content := by
  -- requests whose ranges do not meet share no address
  have h_apart : ∀ {r s : Request}, r.stop ≤ s.address ∨ s.stop ≤ r.address → r.Disjoint s := by
    rintro r s h a ⟨h_from, h_to⟩ ⟨h_from', h_to'⟩
    omega
  have h_disjoint : scatteredRequests.Pairwise Request.Disjoint := by
    simp only [scatteredRequests, List.pairwise_cons, List.forall_mem_cons, List.not_mem_nil,
      false_implies, implies_true, and_true, List.Pairwise.nil]
    exact ⟨⟨h_apart (by decide), h_apart (by decide)⟩, h_apart (by decide)⟩
  have h_word : ∀ r ∈ scatteredRequests, 2 ^ nearLog.bits ∣ r.address →
      nearLog.origin + r.address < Word.limit := by
    decide
  obtain ⟨h_answers, h_found, -, -, h_order⟩ :=
    padding_destroys_nothing (w := nearLog) rfl h_disjoint h_word
  have h_second := h_found ⟨512, [4, 5], 0⟩ (by decide) ⟨⟨1, rfl⟩, by decide⟩
  have h_first := h_found ⟨0, [7], 0⟩ (by decide) ⟨Nat.dvd_zero _, by decide⟩
  have h_last := (h_answers [⟨512, [4, 5], 0⟩, ⟨1, [6], 0⟩] ⟨0, [7], 0⟩ [] rfl).1
    ⟨Nat.dvd_zero _, by decide⟩ ⟨nofun, rfl⟩
  exact ⟨rfl, h_disjoint, h_word, h_last, h_second, h_first, h_order _ (List.reverse_perm _)⟩

end GroupCommit.BlockWriter
