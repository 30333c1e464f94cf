import Mathlib.Data.Finset.Card
import Mathlib.Data.Nat.Nth
import Mathlib.Order.Interval.Finset.Nat

/-!
# The indices outside a finite set

Taking a finite set of indices out closes the gaps (`unshift`), and putting them back in opens
them again (`shift`): the two are inverse to each other between the indices outside the set and
all indices, and keep the order.
-/

namespace IosLearning

/-- The `n`-th index outside. -/
noncomputable def shift (s : Finset ℕ) (n : ℕ) : ℕ := Nat.nth (· ∉ s) n

/-- How many indices before `i` are outside. -/
def unshift (s : Finset ℕ) (i : ℕ) : ℕ := Nat.count (· ∉ s) i

variable {s t : Finset ℕ} {i j n m : ℕ}

theorem infinite_notMem (s : Finset ℕ) : (Set.ofPred (· ∉ s)).Infinite :=
  s.finite_toSet.infinite_compl

theorem shift_notMem (s : Finset ℕ) (n : ℕ) : shift s n ∉ s :=
  Nat.nth_mem_of_infinite (infinite_notMem s) n

theorem shift_strictMono (s : Finset ℕ) : StrictMono (shift s) :=
  Nat.nth_strictMono (infinite_notMem s)

@[simp] theorem unshift_shift (s : Finset ℕ) (n : ℕ) : unshift s (shift s n) = n :=
  Nat.count_nth_of_infinite (infinite_notMem s) n

theorem shift_unshift (h : i ∉ s) : shift s (unshift s i) = i := Nat.nth_count h

theorem unshift_mono (s : Finset ℕ) : Monotone (unshift s) := Nat.count_monotone _

theorem unshift_lt_unshift (hi : i ∉ s) (h : i < j) : unshift s i < unshift s j :=
  Nat.count_strict_mono hi h

theorem le_shift (s : Finset ℕ) (n : ℕ) : n ≤ shift s n := (shift_strictMono s).le_apply

theorem unshift_le_iff : unshift s i ≤ n ↔ i ≤ shift s n :=
  Nat.count_le_iff_le_nth (infinite_notMem s)

theorem lt_unshift_iff : n < unshift s i ↔ shift s n < i := by
  rw [← not_le, ← not_le, unshift_le_iff]

/-- An index is the `n`-th outside where `n` of those before it are outside, and it is too. -/
theorem shift_eq_iff : shift s n = i ↔ i ∉ s ∧ unshift s i = n := by
  refine ⟨?_, ?_⟩
  · rintro rfl
    exact ⟨shift_notMem s n, unshift_shift s n⟩
  · rintro ⟨hi, rfl⟩
    exact shift_unshift hi

theorem range_shift (s : Finset ℕ) : Set.range (shift s) = {i | i ∉ s} :=
  Nat.range_nth_of_infinite (infinite_notMem s)

/-- What enumerates the indices outside in order is `shift`. -/
theorem eq_shift_of_range {f : ℕ → ℕ} (hf : StrictMono f) (hr : Set.range f = {i | i ∉ s}) :
    f = shift s :=
  (hf.range_inj (shift_strictMono s)).1 (hr.trans (range_shift s).symm)

/-- What is taken out before an index is what closing the gaps takes off it. -/
theorem unshift_add_card (s : Finset ℕ) (i : ℕ) :
    unshift s i + (s.filter (· < i)).card = i := by
  have h := Finset.card_filter_add_card_filter_not (s := Finset.range i) (· ∉ s)
  have hs : (Finset.range i).filter (fun j => ¬ j ∉ s) = s.filter (· < i) := by
    ext j
    simp [and_comm]
  rw [hs, Finset.card_range] at h
  rw [unshift, Nat.count_eq_card_filter_range]
  exact h

theorem unshift_empty (i : ℕ) : unshift ∅ i = i := by
  simpa using unshift_add_card ∅ i

theorem shift_empty (n : ℕ) : shift ∅ n = n :=
  shift_eq_iff.2 ⟨by simp, unshift_empty n⟩

theorem unshift_of_forall_le (h : ∀ j ∈ s, i ≤ j) : unshift s i = i := by
  have hc := unshift_add_card s i
  have h0 : s.filter (· < i) = ∅ :=
    Finset.filter_eq_empty_iff.2 fun j hj => not_lt.2 (h j hj)
  rwa [h0, Finset.card_empty, Nat.add_zero] at hc

theorem shift_of_lt (h : ∀ j ∈ s, n < j) : shift s n = n :=
  shift_eq_iff.2 ⟨fun hn => (h n hn).false, unshift_of_forall_le fun j hj => (h j hj).le⟩

/-- Past everything taken out only its number counts. -/
theorem unshift_of_le (h : ∀ j ∈ s, j < i) : unshift s i + s.card = i := by
  have hc := unshift_add_card s i
  rwa [Finset.filter_true_of_mem h] at hc

/-! ## One index less -/

theorem unshift_erase_self (i : ℕ) : unshift (s.erase i) i = unshift s i := by
  have h := unshift_add_card s i
  have he := unshift_add_card (s.erase i) i
  have hm : i ∉ s.filter (· < i) := fun hm => (Finset.mem_filter.1 hm).2.false
  rw [Finset.filter_erase, Finset.erase_eq_of_notMem hm] at he
  omega

/-- What is no longer taken out is where it was. -/
theorem shift_erase_self (s : Finset ℕ) (i : ℕ) : shift (s.erase i) (unshift s i) = i :=
  shift_eq_iff.2 ⟨by simp, unshift_erase_self i⟩

/-! ## An interval -/

theorem card_filter_Ico_lt {a b : ℕ} (i : ℕ) :
    ((Finset.Ico a b).filter (· < i)).card = min b i - a := by
  have h : (Finset.Ico a b).filter (· < i) = Finset.Ico a (min b i) := by
    ext j
    simp only [Finset.mem_filter, Finset.mem_Ico]
    omega
  rw [h, Nat.card_Ico]

theorem unshift_Ico {a b : ℕ} (i : ℕ) : unshift (Finset.Ico a b) i = i - (min b i - a) := by
  have h := unshift_add_card (Finset.Ico a b) i
  rw [card_filter_Ico_lt] at h
  omega

theorem shift_Ico {a b : ℕ} (n : ℕ) :
    shift (Finset.Ico a b) n = if n < a then n else n + (b - a) := by
  rw [shift_eq_iff, Finset.mem_Ico, unshift_Ico]
  split_ifs <;> omega

theorem shift_singleton (a n : ℕ) : shift {a} n = if n < a then n else n + 1 := by
  have h := shift_Ico (a := a) (b := a + 1) n
  rwa [Nat.Ico_succ_singleton, Nat.add_sub_cancel_left] at h

theorem unshift_singleton (a i : ℕ) : unshift {a} i = if i ≤ a then i else i - 1 := by
  have h := unshift_Ico (a := a) (b := a + 1) i
  rw [Nat.Ico_succ_singleton] at h
  rw [h]
  split_ifs <;> omega

/-- What was outside before stays where it was. -/
theorem shift_erase_shift (hi : i ∈ s) (n : ℕ) :
    shift (s.erase i) (shift {unshift s i} n) = shift s n := by
  rw [shift_eq_iff, shift_singleton]
  refine ⟨fun hm => shift_notMem s n (Finset.mem_of_mem_erase hm), ?_⟩
  have h := unshift_add_card s (shift s n)
  have he := unshift_add_card (s.erase i) (shift s n)
  have hn := lt_unshift_iff (s := s) (n := n) (i := i)
  rw [unshift_shift] at h
  rw [Finset.filter_erase] at he
  have hne : shift s n ≠ i := fun h => shift_notMem s n (h ▸ hi)
  by_cases hlt : i < shift s n
  · have hm : i ∈ s.filter (· < shift s n) := Finset.mem_filter.2 ⟨hi, hlt⟩
    have hpos := Finset.card_pos.2 ⟨i, hm⟩
    rw [Finset.card_erase_of_mem hm] at he
    rw [if_neg (by omega)]
    omega
  · have hm : i ∉ s.filter (· < shift s n) := fun hm => hlt (Finset.mem_filter.1 hm).2
    rw [Finset.erase_eq_of_notMem hm] at he
    rw [if_pos (by omega)]
    omega

theorem card_filter_Ico_union_lt {a b : ℕ} (h : ∀ j ∈ s, b ≤ j) (i : ℕ) :
    ((Finset.Ico a b ∪ s).filter (· < i)).card
      = (min b i - a) + (s.filter (· < i)).card := by
  have hd : Disjoint ((Finset.Ico a b).filter (· < i)) (s.filter (· < i)) := by
    refine Finset.disjoint_left.2 fun j hj hj' => ?_
    have h1 := Finset.mem_Ico.1 (Finset.mem_filter.1 hj).1
    have h2 := h j (Finset.mem_filter.1 hj').1
    omega
  rw [Finset.filter_union, Finset.card_union_of_disjoint hd, card_filter_Ico_lt]

/-- Past an interval taken out before all the others it is taken off. -/
theorem unshift_Ico_union {a b : ℕ} (h : ∀ j ∈ s, b ≤ j) (hi : b ≤ i) :
    unshift (Finset.Ico a b ∪ s) i = unshift s i - (b - a) := by
  have h1 := unshift_add_card (Finset.Ico a b ∪ s) i
  have h2 := unshift_add_card s i
  rw [card_filter_Ico_union_lt h, Nat.min_eq_left hi] at h1
  omega

/-- An interval put in before all that are there shifts on what is not before it. -/
theorem shift_Ico_union {a b : ℕ} (hab : a ≤ b) (h : ∀ j ∈ s, b ≤ j) :
    shift (Finset.Ico a b ∪ s) n = if n < a then n else shift s (n + (b - a)) := by
  split_ifs with hn
  · refine shift_of_lt fun j hj => ?_
    rcases Finset.mem_union.1 hj with hj | hj
    · exact hn.trans_le (Finset.mem_Ico.1 hj).1
    · exact hn.trans_le (hab.trans (h j hj))
  · have hle := le_shift s (n + (b - a))
    refine shift_eq_iff.2 ⟨fun hm => ?_, ?_⟩
    · rcases Finset.mem_union.1 hm with hm | hm
      · have := (Finset.mem_Ico.1 hm).2
        omega
      · exact shift_notMem s _ hm
    · have hs := unshift_add_card s (shift s (n + (b - a)))
      have hi := unshift_add_card (Finset.Ico a b ∪ s) (shift s (n + (b - a)))
      rw [card_filter_Ico_union_lt h] at hi
      rw [unshift_shift] at hs
      omega

/-- An index put in before all that are there shifts one further what is not before it. -/
theorem shift_insert_of_lt {a : ℕ} (h : ∀ j ∈ s, a < j) :
    shift (insert a s) n = if n < a then n else shift s (n + 1) := by
  have hu := shift_Ico_union (s := s) (n := n) (Nat.le_succ a) fun j hj => h j hj
  rwa [Nat.succ_eq_add_one, Nat.Ico_succ_singleton, Nat.add_sub_cancel_left,
    ← Finset.insert_eq] at hu

/-! ## Sets moved -/

/-- A set moved back by what is put in. -/
noncomputable def spread (s t : Finset ℕ) : Finset ℕ := t.image (shift s)

/-- What is left of a set, moved forward by what is taken out. -/
def close (s t : Finset ℕ) : Finset ℕ := (t \ s).image (unshift s)

theorem mem_spread : i ∈ spread s t ↔ i ∉ s ∧ unshift s i ∈ t := by
  rw [spread, Finset.mem_image]
  refine ⟨?_, fun h => ⟨_, h.2, shift_unshift h.1⟩⟩
  rintro ⟨n, hn, rfl⟩
  exact ⟨shift_notMem s n, by rwa [unshift_shift]⟩

theorem mem_close : n ∈ close s t ↔ shift s n ∈ t := by
  simp only [close, Finset.mem_image, Finset.mem_sdiff]
  refine ⟨?_, fun h => ⟨_, ⟨h, shift_notMem s n⟩, unshift_shift s n⟩⟩
  rintro ⟨i, ⟨hi, hn⟩, rfl⟩
  rwa [shift_unshift hn]

@[simp] theorem spread_empty (s : Finset ℕ) : spread s ∅ = ∅ := Finset.image_empty _

@[simp] theorem close_empty (s : Finset ℕ) : close s ∅ = ∅ := by
  rw [close, Finset.empty_sdiff, Finset.image_empty]

@[simp] theorem empty_spread (t : Finset ℕ) : spread ∅ t = t := by
  ext i
  simp [mem_spread, unshift_empty]

@[simp] theorem empty_close (t : Finset ℕ) : close ∅ t = t := by
  ext n
  rw [mem_close, shift_empty]

theorem spread_singleton (s : Finset ℕ) (n : ℕ) : spread s {n} = {shift s n} :=
  Finset.image_singleton _ _

/-- One index is left unless it is taken out itself. -/
theorem close_singleton (s : Finset ℕ) (i : ℕ) :
    close s {i} = if i ∈ s then ∅ else {unshift s i} := by
  unfold close
  split_ifs with h
  · rw [Finset.sdiff_eq_empty_iff_subset.2 (Finset.singleton_subset_iff.2 h), Finset.image_empty]
  · rw [Finset.sdiff_eq_self_of_disjoint (Finset.disjoint_singleton_left.2 h),
      Finset.image_singleton]

end IosLearning
