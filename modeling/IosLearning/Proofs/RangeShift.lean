import IosLearning.Base.Shift
import IosLearning.Proofs.RangeVector

/-!
# Ranges as sets of indices

Counting over ranges is counting in the set of their indices, shifting is `shift` of it, and the
loops over two sets put in, move and take out what the set operations say.
-/

namespace IosLearning

namespace RangeVector

variable {rs ss before after : List Range} {r : Range} {i index n : ℕ} {xs ys : List ℕ}

/-! ## The indices -/

@[simp] theorem asIndexes_cons :
    asIndexes (r :: rs) = List.range' r.1 (r.2 - r.1) ++ asIndexes rs := rfl

theorem mem_asIndexes : i ∈ asIndexes rs ↔ Covers rs i := by
  unfold asIndexes Covers
  rw [List.mem_flatMap]
  refine exists_congr fun r => and_congr_right fun _ => ?_
  rw [List.mem_range'_1]
  omega

theorem asIndexes_pairwise (h : Valid rs) : (asIndexes rs).Pairwise (· < ·) := by
  induction rs with
  | nil => exact List.Pairwise.nil
  | cons r rs ih =>
    obtain ⟨-, hlt, hv⟩ := valid_cons.1 h
    rw [asIndexes_cons, List.pairwise_append]
    refine ⟨List.pairwise_lt_range', ih hv, fun i hi j hj => ?_⟩
    have := lt_covers hlt (mem_asIndexes.1 hj)
    have := List.mem_range'_1.1 hi
    omega

theorem addRanges_spec (h : Valid rs) (hs : Valid ss) : Valid (addRanges ss rs)
    ∧ ∀ i, Covers (addRanges ss rs) i ↔ Covers ss i ∨ Covers rs i := by
  have hr : Valid (begin rs).ranges := h
  obtain ⟨h1, h2⟩ := addIndexes_spec hr (asIndexes_pairwise hs) (by simp [begin])
  refine ⟨h1, fun i => (h2 i).trans ?_⟩
  rw [mem_asIndexes]
  rfl

def toFinset (rs : List Range) : Finset ℕ := (asIndexes rs).toFinset

@[simp] theorem mem_toFinset : i ∈ toFinset rs ↔ Covers rs i := by
  rw [toFinset, List.mem_toFinset, mem_asIndexes]

@[simp] theorem toFinset_nil : toFinset [] = ∅ := rfl

theorem toFinset_cons : toFinset (r :: rs) = Finset.Ico r.1 r.2 ∪ toFinset rs := by
  ext i
  rw [mem_toFinset, covers_cons, Finset.mem_union, Finset.mem_Ico, mem_toFinset]

theorem le_of_mem_toFinset (h : Valid (r :: rs)) : ∀ j ∈ toFinset rs, r.2 ≤ j := fun _ hj =>
  (lt_covers (valid_cons.1 h).2.1 (mem_toFinset.1 hj)).le

/-- The ranges are determined by the indices they cover. -/
theorem eq_of_covers : ∀ {rs ss : List Range}, Valid rs → Valid ss →
    (∀ i, Covers rs i ↔ Covers ss i) → rs = ss
  | [], [], _, _, _ => rfl
  | [], s :: ss, _, hs, h => by
    have h1 := (valid_cons.1 hs).1
    exact absurd ((h s.1).2 (covers_cons.2 (.inl ⟨le_rfl, h1⟩))) covers_nil
  | r :: rs, [], hr, _, h => by
    have h1 := (valid_cons.1 hr).1
    exact absurd ((h r.1).1 (covers_cons.2 (.inl ⟨le_rfl, h1⟩))) covers_nil
  | r :: rs, s :: ss, hr, hs, h => by
    rw [valid_cons] at hr hs
    have hcr : ∀ j, Covers rs j → r.2 < j := fun j => lt_covers hr.2.1
    have hcs : ∀ j, Covers ss j → s.2 < j := fun j => lt_covers hs.2.1
    simp only [covers_cons] at h
    have h1 : r.1 = s.1 := by
      have := h r.1
      have := h s.1
      grind
    have h2 : r.2 = s.2 := by
      have := h r.2
      have := h s.2
      grind
    obtain rfl : r = s := Prod.ext h1 h2
    rw [eq_of_covers hr.2.2 hs.2.2 fun i => ?_]
    have := h i
    grind

/-! ## Counting and shifting -/

theorem count_eq (start stop : ℕ) (h : Valid rs) :
    count start stop rs = ((toFinset rs).filter fun j => start ≤ j ∧ j < stop).card := by
  induction rs with
  | nil => rfl
  | cons r rs ih =>
    obtain ⟨-, hlt, hv⟩ := valid_cons.1 h
    have hi : (Finset.Ico r.1 r.2).filter (fun j => start ≤ j ∧ j < stop)
        = Finset.Ico (max r.1 start) (min r.2 stop) := by
      ext j
      simp only [Finset.mem_filter, Finset.mem_Ico]
      omega
    have hd : Disjoint ((Finset.Ico r.1 r.2).filter fun j => start ≤ j ∧ j < stop)
        ((toFinset rs).filter fun j => start ≤ j ∧ j < stop) := by
      refine Finset.disjoint_filter_filter (Finset.disjoint_left.2 fun j hj hj' => ?_)
      have := le_of_mem_toFinset h j hj'
      have := Finset.mem_Ico.1 hj
      omega
    rw [toFinset_cons, Finset.filter_union, Finset.card_union_of_disjoint hd, hi, Nat.card_Ico,
      ← ih hv]
    rfl

theorem size_eq (h : Valid rs) : size rs = (toFinset rs).card := by
  have h1 : (asIndexes rs).length = size rs := by simp [asIndexes, size, List.length_flatMap]
  have h2 : (asIndexes rs).Nodup := (asIndexes_pairwise h).imp fun hlt => hlt.ne
  rw [toFinset, List.toFinset_card_of_nodup h2, h1]

theorem shift_eq : ∀ {rs : List Range} {index : ℕ}, Valid rs →
    shift rs index = IosLearning.shift (toFinset rs) index
  | [], index, _ => (shift_empty index).symm
  | r :: rs, index, h => by
    obtain ⟨hr, -, hv⟩ := valid_cons.1 h
    rw [toFinset_cons, shift_Ico_union hr.le (le_of_mem_toFinset h), shift, shift_eq hv]

theorem skipShifted_eq : ∀ {before after : List Range} {index : ℕ},
    (skipShifted before after index).2 = shift after index
  | _, [], _ => rfl
  | before, r :: after, index => by
    unfold skipShifted shift
    split_ifs with h1 h2 h2
    · omega
    · exact skipShifted_eq
    · rfl
    · omega

/-- What the index comes to lies between the ranges passed and those left. -/
theorem skipShifted_at : ∀ {before after : List Range} {index : ℕ},
    Valid (before.reverse ++ after) → (∀ r ∈ before, r.2 ≤ index) →
    At (skipShifted before after index).1 (skipShifted before after index).2
      ∧ (skipShifted before after index).1.ranges = before.reverse ++ after
  | before, [], index, hv, hb => ⟨⟨hv, hb, by simp [skipShifted]⟩, rfl⟩
  | before, r :: after, index, hv, hb => by
    obtain ⟨-, ha, -⟩ := valid_ranges.1 hv
    rw [valid_cons] at ha
    unfold skipShifted
    split_ifs with h
    · have hv' : Valid ((r :: before).reverse ++ after) := by simpa using hv
      have hb' : ∀ s ∈ r :: before, s.2 ≤ index + (r.2 - r.1) := by grind
      have hi := skipShifted_at hv' hb'
      exact ⟨hi.1, by simpa using hi.2⟩
    · refine ⟨⟨hv, hb, fun s hs => ?_⟩, rfl⟩
      have := ha.1
      rcases List.mem_cons.1 hs with rfl | hs
      · omega
      · have := ha.2.1 s hs
        have := ha.2.2.nonempty s hs
        omega

/-- The index added is the one that many after those outside the set. -/
theorem addShifted_spec (index : ℕ) (h : Valid rs) :
    (addShifted index rs).1 = IosLearning.shift (toFinset rs) index
      ∧ Valid (addShifted index rs).2
      ∧ ∀ i, Covers (addShifted index rs).2 i ↔
        i = IosLearning.shift (toFinset rs) index ∨ Covers rs i := by
  have he : (skipShifted [] rs index).2 = shift rs index := skipShifted_eq
  have hv : Valid ([].reverse ++ rs) := h
  have hb : ∀ r ∈ ([] : List Range), r.2 ≤ index := by simp
  obtain ⟨ha, hr⟩ := skipShifted_at hv hb
  obtain ⟨h1, h2⟩ := doAdd_spec ha
  refine ⟨he.trans (shift_eq h), h1.valid, fun i => (h2 i).trans ?_⟩
  rw [hr, he, shift_eq h]
  rfl

end RangeVector

end IosLearning
