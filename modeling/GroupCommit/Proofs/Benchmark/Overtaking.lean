import GroupCommit.Proofs.Benchmark.Counting

/-!
# Calls that overtake others

The calls of a benchmark add their bytes in one order and count their commits in another. A call that adds
before another one has seen fewer bytes. If it counts after that one all the same, then it has been
overtaken between its own two steps, by every call whose number lies between the two. Where the calls
count in the order in which they add, none is.

* `Journal.Ahead`, `Journal.Overtaken`: calls that add before another one and count after others.
* `Journal.ahead_iff`: which of two calls has seen fewer bytes.
* `Journal.overtaken_of_ahead`: by how many calls it is overtaken if it counts later.
* `Journal.not_ahead`: calls that count in order.
-/

namespace GroupCommit.Benchmark.Progress

namespace Journal

variable {J : Journal} {i j k n m : ℕ}

/-- The call `j` added its bytes before the call `i`, and the additions after it, up to that of `i`, are
not all empty. -/
def Ahead (J : Journal) (j i : ℕ) : Prop :=
  ∃ A b B c C, J.added = A ++ (j, b) :: (B ++ (i, c) :: C) ∧ 0 < bytesOf B + c

/-- Between its addition and its count the call `j` was overtaken by the counts of `k` other calls. -/
def Overtaken (J : Journal) (j k : ℕ) : Prop :=
  ∃ (K : Journal) (b : ℕ) (L N : Journal),
    J = K ++ .added j b :: (L ++ .counted j :: N) ∧ k ≤ L.counted.length

/-! ### Two additions -/

/-- Of two additions one comes first, unless they are the same. -/
theorem added_cases {A B A' B' : List (ℕ × ℕ)} {x y : ℕ × ℕ} (h : A ++ x :: B = A' ++ y :: B') :
    (A = A' ∧ x = y) ∨ (∃ D, B = D ++ y :: B' ∧ A' = A ++ x :: D) ∨
      ∃ D, B' = D ++ x :: B ∧ A = A' ++ y :: D := by
  rcases List.append_eq_append_iff.1 h with ⟨D, rfl, h_rest⟩ | ⟨D, rfl, h_rest⟩
  · cases D with
    | nil => exact .inl ⟨(List.append_nil A).symm, (List.cons.inj h_rest).1⟩
    | cons d D =>
      obtain ⟨rfl, rfl⟩ := List.cons.inj h_rest
      exact .inr (.inl ⟨D, rfl, rfl⟩)
  · cases D with
    | nil => exact .inl ⟨List.append_nil A', (List.cons.inj h_rest).1.symm⟩
    | cons d D =>
      obtain ⟨rfl, rfl⟩ := List.cons.inj h_rest
      exact .inr (.inr ⟨D, rfl, rfl⟩)

/-- A call that has seen fewer bytes than another one added before it. -/
theorem ahead_of_lt (h : J.UpTo j m) (h' : J.UpTo i n) (h_lt : m < n) : J.Ahead j i := by
  obtain ⟨A, b, B, hJ, rfl⟩ := h
  obtain ⟨A', c, B', hJ', rfl⟩ := h'
  rcases added_cases (hJ.symm.trans hJ') with ⟨rfl, h_same⟩ | ⟨D, rfl, rfl⟩ | ⟨D, rfl, rfl⟩
  · cases h_same
    exact absurd h_lt (Nat.lt_irrefl _)
  · rw [bytesOf_append, bytesOf_cons] at h_lt
    exact ⟨A, b, D, c, B', hJ, by omega⟩
  · rw [bytesOf_append, bytesOf_cons] at h_lt
    omega

/-- A call adds its bytes once, so that it sees the sum up to them once. -/
theorem UpTo.unique (h_nodup : J.adders.Nodup) (h : J.UpTo i m) (h' : J.UpTo i n) : m = n := by
  obtain ⟨A, b, B, hJ, rfl⟩ := h
  obtain ⟨A', c, B', hJ', rfl⟩ := h'
  -- a second addition would stand behind the first
  have h_once : ∀ {A B b}, J.added = A ++ (i, b) :: B → ∀ c, (i, c) ∉ B := by
    intro A B b h_added c h_mem
    rw [adders, h_added, List.map_append, List.map_cons] at h_nodup
    have h_not := (List.nodup_cons.1 (List.Nodup.of_append_right h_nodup)).1
    exact h_not (List.mem_map.2 ⟨(i, c), h_mem, rfl⟩)
  rcases added_cases (hJ.symm.trans hJ') with ⟨rfl, h_same⟩ | ⟨D, rfl, rfl⟩ | ⟨D, rfl, rfl⟩
  · cases h_same
    rfl
  · exact absurd (List.mem_append_right D List.mem_cons_self) (h_once hJ c)
  · exact absurd (List.mem_append_right D List.mem_cons_self) (h_once hJ' b)

/-- **Which of two calls has seen fewer bytes.** -/
theorem ahead_iff (h_sound : J.Sound) (h : J.UpTo j m) (h' : J.UpTo i n) : J.Ahead j i ↔ m < n := by
  refine ⟨fun ⟨A, b, B, c, C, hJ, h_pos⟩ => ?_, ahead_of_lt h h'⟩
  have hm := h.unique h_sound.adders_nodup ⟨A, b, _, hJ, rfl⟩
  have hn := h'.unique h_sound.adders_nodup
    ⟨A ++ (j, b) :: B, c, C, by rw [hJ, List.append_assoc, List.cons_append], rfl⟩
  rw [bytesOf_append, bytesOf_cons] at hn
  omega

/-! ### Two counts -/

/-- A place of the journal for an addition. -/
theorem exists_split_added {A B : List (ℕ × ℕ)} {b : ℕ} (h : J.added = A ++ (j, b) :: B) :
    ∃ K R : Journal, J = K ++ .added j b :: R ∧ K.added = A ∧ R.added = B := by
  obtain ⟨K, R, rfl, rfl, h_rest⟩ := List.filterMap_eq_append_iff.1 h
  obtain ⟨L, note, N, rfl, h_none, h_note, rfl⟩ := List.filterMap_eq_cons_iff.1 h_rest
  cases note with
  | counted call => cases h_note
  | added call bytes =>
    cases h_note
    refine ⟨K ++ L, N, (List.append_assoc K L _).symm, ?_, rfl⟩
    rw [added_append, show added L = [] from List.filterMap_eq_nil_iff.2 h_none, List.append_nil]
    rfl

/-- A place of the journal for a count. -/
theorem exists_split_counted (h : j ∈ J.counted) : ∃ K N : Journal, J = K ++ .counted j :: N := by
  obtain ⟨note, h_mem, h_note⟩ := List.mem_filterMap.1 h
  cases note with
  | added call bytes => cases h_note
  | counted call =>
    cases h_note
    exact List.append_of_mem h_mem

/-- The number of a call is one more than the counts before its own. -/
theorem Numbered.eq (h_sound : J.Sound) (h : J.Numbered n j) {K N : Journal}
    (hJ : J = K ++ .counted j :: N) : n = K.counted.length + 1 := by
  have h_counted : J.counted = K.counted ++ j :: N.counted := by
    rw [hJ, counted_append]
    rfl
  have h_at : J.counted[K.counted.length]? = some j := by
    rw [h_counted, List.getElem?_append_right (Nat.le_refl _), Nat.sub_self]
    rfl
  obtain ⟨h_lt, -⟩ := List.getElem?_eq_some_iff.1 h.2
  have h_same := (List.getElem?_inj h_lt h_sound.counted_nodup).1 (h.2.trans h_at.symm)
  have h_pos := h.1
  omega

/-- A call that has not counted yet gets a later number than those that have. -/
theorem Numbered.later {K R : Journal} (h : Numbered (K ++ R) n i) (h_new : i ∉ K.counted) :
    K.counted.length < n := by
  obtain ⟨h_pos, h_at⟩ := h
  by_contra h_not
  have h_lt : n - 1 < K.counted.length := by omega
  rw [counted_append, List.getElem?_append_left h_lt] at h_at
  exact h_new (List.mem_of_getElem? h_at)

/-- A call has one number. -/
theorem Numbered.number_unique (h : J.Numbered n i) (h_sound : J.Sound) (h' : J.Numbered m i) : n = m := by
  obtain ⟨K, N, hJ⟩ := exists_split_counted h.mem
  exact (h.eq h_sound hJ).trans (h'.eq h_sound hJ).symm

/-- The bytes seen by a call are among all that were added. -/
theorem UpTo.le (h : J.UpTo i n) : n ≤ bytesOf J.added := by
  obtain ⟨A, b, B, hJ, rfl⟩ := h
  rw [hJ, bytesOf_append, bytesOf_cons]
  omega

/-- Of two calls one ahead of the other, the first stands before the second among those that added. -/
theorem Ahead.adders (h : J.Ahead j i) :
    ∃ A B C : List ℕ, J.adders = A ++ j :: (B ++ i :: C) := by
  obtain ⟨A, b, B, c, C, hJ, -⟩ := h
  refine ⟨A.map Prod.fst, B.map Prod.fst, C.map Prod.fst, ?_⟩
  rw [Journal.adders, hJ, List.map_append, List.map_cons, List.map_append, List.map_cons]

/-- **A call that is ahead of one that has counted before it is overtaken** by the calls that count in
between. -/
theorem overtaken_of_ahead (h_sound : J.Sound) (h_ahead : J.Ahead j i) (hi : J.Numbered n i)
    (hj : J.Numbered m j) : J.Overtaken j (m - n) := by
  obtain ⟨A, b, B, c, C, hJ, -⟩ := h_ahead
  obtain ⟨K, R, rfl, rfl, h_R⟩ := exists_split_added hJ
  -- when `j` adds its bytes, neither of the two has added before, so that neither has counted
  have h_nodup : (K.adders ++ j :: (B.map Prod.fst ++ i :: C.map Prod.fst)).Nodup := by
    have h_nodup := h_sound.adders_nodup
    rw [adders, hJ, List.map_append, List.map_cons, List.map_append, List.map_cons] at h_nodup
    exact h_nodup
  have h_disjoint := List.disjoint_of_nodup_append h_nodup
  have h_counted := h_sound.ordered K (List.prefix_append K _)
  have hj_new : j ∉ K.counted := fun h => h_disjoint (h_counted j h) List.mem_cons_self
  have hi_new : i ∉ K.counted := fun h =>
    h_disjoint (h_counted i h) (List.mem_cons_of_mem _ (List.mem_append_right _ List.mem_cons_self))
  have h_later := hi.later hi_new
  have hj_mem : j ∈ R.counted := by
    have h_mem := hj.mem
    rw [counted_append, List.mem_append] at h_mem
    exact h_mem.resolve_left hj_new
  obtain ⟨L, N, rfl⟩ := exists_split_counted hj_mem
  refine ⟨K, b, L, N, rfl, ?_⟩
  have h_number := hj.eq h_sound (K := K ++ .added j b :: L) (N := N) (by simp)
  rw [counted_append, List.length_append] at h_number
  have h_between : counted (.added j b :: L) = L.counted := rfl
  rw [h_between] at h_number
  omega

/-- **Calls that count in the order in which they add** are not ahead of calls that count before them. -/
theorem not_ahead (h_sound : J.Sound) (h_order : J.counted <+: J.adders) (hi : J.Numbered n i)
    (hj : J.Numbered m j) (h_le : n ≤ m) : ¬ J.Ahead j i := by
  intro h_ahead
  obtain ⟨A, B, C, h_adders⟩ := h_ahead.adders
  obtain ⟨T, h_order⟩ := h_order
  -- the number of a call is then its place among those that add
  have h_place : ∀ {n i}, J.Numbered n i → ∀ {A C : List ℕ}, J.adders = A ++ i :: C →
      n = A.length + 1 := by
    rintro n i ⟨h_pos, h_at⟩ A C h_split
    obtain ⟨h_lt, -⟩ := List.getElem?_eq_some_iff.1 h_at
    have h_first : J.adders[n - 1]? = some i := by
      rw [← h_order, List.getElem?_append_left h_lt]
      exact h_at
    have h_second : J.adders[A.length]? = some i := by
      rw [h_split, List.getElem?_append_right (Nat.le_refl _), Nat.sub_self]
      rfl
    obtain ⟨h_lt, -⟩ := List.getElem?_eq_some_iff.1 h_first
    have h_same := (List.getElem?_inj h_lt h_sound.adders_nodup).1 (h_first.trans h_second.symm)
    omega
  have hm := h_place hj h_adders
  have hn := h_place hi (A := A ++ j :: B) (C := C) (by simpa using h_adders)
  rw [List.length_append, List.length_cons] at hn
  omega

end Journal

end GroupCommit.Benchmark.Progress
