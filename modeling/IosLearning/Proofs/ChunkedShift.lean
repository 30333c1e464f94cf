import IosLearning.Proofs.ChunkedRangeVector

/-!
# Counting and shifting by chunks

Where each chunk has as many indices as it is said to have, whole chunks may be passed at once:
an index is shifted by what is before it, and unshifted, as it is by the ranges one by one. What is
between two indices is not always counted so: from within a chunk the first range of the next is
passed over unless it ends before (`count_spec`).
-/

namespace IosLearning

open RangeVector (Range Position Valid)

namespace ChunkedRangeVector

variable {cb ca cs : List Chunk} {c : Chunk} {b a data rs ss : List Range} {r : Range} {n : ℤ}
  {index start last : ℕ}

@[simp] theorem toSize_natCast (n : ℕ) : toSize n = n := by
  rw [toSize, if_pos (Int.natCast_nonneg n), Int.toNat_natCast]

theorem toSize_sub {m n : ℕ} (h : n ≤ m) : toSize (m - n : ℤ) = m - n := by
  rw [← Nat.cast_sub h, toSize_natCast]

theorem Intact.head (h : Intact (c :: cs)) : Sound c := h.sound c List.mem_cons_self

theorem Intact.tail (h : Intact (c :: cs)) : Intact cs where
  sound d hd := h.sound d (List.mem_cons_of_mem c hd)
  valid := (RangeVector.valid_append.1 h.valid).2.1

theorem Intact.apart (h : Intact (c :: cs)) : ∀ r ∈ c.data, ∀ s ∈ ranges cs, r.2 < s.1 :=
  (RangeVector.valid_append.1 h.valid).2.2

theorem Intact.valid_head (h : Intact (c :: cs)) : Valid c.data :=
  (RangeVector.valid_append.1 h.valid).1

theorem Intact.of_append (h : Intact (ca ++ cs)) : Intact cs where
  sound c hc := h.sound c (List.mem_append_right ca hc)
  valid := (RangeVector.valid_append.1 (ranges_append ▸ h.valid)).2.1

/-- The ranges of the chunks after one that ends after an index begin after it too. -/
theorem Intact.lt_tail (h : Intact (c :: cs)) (hs : last < stop c.data) :
    ∀ s ∈ ranges cs, last ≤ s.1 := fun s hs' => by
  obtain ⟨r, hr, hlt⟩ := exists_of_lt_stop hs
  exact (hlt.trans (h.apart r hr s hs')).le

/-! ## Whole chunks -/

theorem count_cons : RangeVector.count 0 last (r :: rs)
    = (min r.2 last - r.1) + RangeVector.count 0 last rs := by
  simp [RangeVector.count]

theorem count_append : RangeVector.count 0 last (rs ++ ss)
    = RangeVector.count 0 last rs + RangeVector.count 0 last ss := by
  simp [RangeVector.count]

theorem count_of_stop_le (h : ∀ r ∈ rs, r.2 ≤ last) :
    (RangeVector.count 0 last rs : ℤ) = size rs := by
  induction rs with
  | nil => rfl
  | cons r rs ih =>
    rw [List.forall_mem_cons] at h
    rw [count_cons, size_cons, Nat.min_eq_left h.1, Nat.cast_add, ih h.2]

theorem count_of_le (h : ∀ r ∈ rs, last ≤ r.1) : RangeVector.count 0 last rs = 0 := by
  induction rs with
  | nil => rfl
  | cons r rs ih =>
    rw [List.forall_mem_cons] at h
    rw [count_cons, ih h.2]
    omega

theorem countRanges_eq (hv : Valid data) :
    countRanges last data = RangeVector.count 0 last data := by
  induction data with
  | nil => rfl
  | cons r data ih =>
    obtain ⟨hr, hdata, hv⟩ := RangeVector.valid_cons.1 hv
    unfold countRanges
    rw [count_cons]
    split_ifs with h1 h2
    · rw [ih hv, Nat.min_eq_left h1, Nat.cast_add]
    · rw [count_of_le fun s hs => (not_le.1 h1).le.trans (hdata s hs).le]
      omega
    · rw [count_of_le fun s hs => (not_le.1 h1).le.trans (hdata s hs).le]
      omega

theorem countChunks_eq (h : Intact cs) : countChunks last cs = RangeVector.count 0 last (ranges cs) := by
  induction cs with
  | nil => rfl
  | cons c cs ih =>
    unfold countChunks
    rw [ranges_cons, count_append]
    split_ifs with hs
    · rw [ih h.tail, h.head.counted, Nat.cast_add,
        count_of_stop_le fun r hr => (le_stop h.valid_head r hr).trans hs]
    · rw [count_of_le (h.lt_tail (not_le.1 hs)), countRanges_eq h.valid_head, Nat.add_zero]

/-! ## From within a chunk -/

theorem count_of_start_le (h : ∀ r ∈ rs, start ≤ r.1) :
    RangeVector.count start last rs = RangeVector.count 0 last rs := by
  refine congrArg List.sum (List.map_congr_left fun r hr => ?_)
  rw [Nat.max_eq_left (h r hr), Nat.max_eq_left (Nat.zero_le r.1)]

theorem count_of_le_start (h : ∀ r ∈ rs, r.2 ≤ start) : RangeVector.count start last rs = 0 := by
  refine List.sum_eq_zero (List.forall_mem_map.2 fun r hr => ?_)
  have := h r hr
  omega

theorem count_cons_of_lt (hs : start < r.2) (hrest : ∀ s ∈ rs, r.2 < s.1) :
    RangeVector.count start last (r :: rs)
      = (min r.2 last - max r.1 start) + RangeVector.count 0 last rs :=
  congrArg (min r.2 last - max r.1 start + ·)
    (count_of_start_le fun s hm => hs.le.trans (hrest s hm).le)

/-- The part of a range before an index. -/
def part (last : ℕ) (s : Range) : ℕ := if s.1 < last then last - s.1 else 0

theorem count_eq_part (h : r.2 ≥ last) (hrs : ∀ s ∈ rs, r.2 < s.1) :
    RangeVector.count 0 last (r :: rs) = part last r := by
  rw [count_cons, count_of_le fun s hs => h.trans (hrs s hs).le, part]
  split_ifs <;> omega

/-- The ranges of a chunk that end before, and the part of the next if there is one. -/
theorem count_takeWhile (hv : Valid data) : (RangeVector.count 0 last data : ℤ)
    = size (data.takeWhile fun s => s.2 < last)
      + ((data.drop (data.takeWhile fun s => s.2 < last).length).head?.elim 0 (part last) : ℕ) := by
  induction data with
  | nil => rfl
  | cons r data ih =>
    obtain ⟨hr, hdata, hv⟩ := RangeVector.valid_cons.1 hv
    by_cases h : r.2 < last
    · simp only [List.takeWhile_cons, h, decide_true, if_true, List.length_cons, List.drop_succ_cons,
        size_cons, count_cons, Nat.cast_add, ih hv, Nat.min_eq_left h.le, add_assoc]
    · rw [count_eq_part (not_lt.1 h) hdata]
      simp [h]

theorem drop_takeWhile_eq_nil : data.drop (data.takeWhile fun s => s.2 < last).length = []
    ↔ ∀ s ∈ data, s.2 < last := by
  induction data with
  | nil => simp
  | cons r data ih =>
    rw [List.takeWhile_cons, List.forall_mem_cons, ← ih]
    by_cases h : r.2 < last <;> simp [h]

/-- What counting from within a chunk passes over: the part of the first range of the next, where
it does not end before. -/
def passedOver (start last : ℕ) : Iterator → ℕ
  | .past _ => 0
  | .inside _ before r after _ chunksAfter =>
    if (start > r.1 ∨ before ≠ []) ∧ ∀ s ∈ r :: after, s.2 < last then
      (ranges chunksAfter).head?.elim 0 fun s => if s.2 ≥ last then part last s else 0
    else 0

/-- The chunks after one that is counted range by range, of which the first range may be passed
over. -/
theorem countChunks_next (h : Intact ca) : ((match (enter [] ca).range? with
      | none => 0
      | some s => if s.2 ≥ last then 0 else countChunks last ca : ℤ)
    + ((ranges ca).head?.elim 0 fun s => if s.2 ≥ last then part last s else 0 : ℕ))
      = RangeVector.count 0 last (ranges ca) := by
  rw [range?_eq, position_enter]
  rcases hr : ranges ca with _ | ⟨s, rest⟩
  · rfl
  · have hv := RangeVector.valid_cons.1 (hr ▸ h.valid)
    simp only [List.head?_cons, Option.elim_some]
    split_ifs with hs
    · rw [count_eq_part hs hv.2.1, zero_add]
    · rw [countChunks_eq h, hr, Nat.cast_zero, add_zero]

theorem countFrom_within (hv : Valid (r :: a ++ ranges ca)) (hca : Intact ca) (hr : r.2 < last)
    (h : start > r.1 ∨ b ≠ []) :
    countFrom start last (.inside cb b r a n ca) + passedOver start last (.inside cb b r a n ca)
      = (r.2 - max r.1 start : ℕ) + RangeVector.count 0 last (a ++ ranges ca) := by
  obtain ⟨hlt, -, hv⟩ := RangeVector.valid_cons.1 hv
  obtain ⟨hva, -, happ⟩ := RangeVector.valid_append.1 hv
  have hnot : ¬ r.1 ≥ last ∧ ¬ r.2 ≥ last := ⟨not_le.2 (hlt.trans hr), not_le.2 hr⟩
  simp only [countFrom, passedOver, h, hnot.1, hnot.2, hr, true_and, if_true, if_false,
    List.forall_mem_cons, ← drop_takeWhile_eq_nil]
  rw [count_append, Nat.cast_add, count_takeWhile hva]
  rcases hd : a.drop (a.takeWhile fun s => decide (s.2 < last)).length with _ | ⟨s, rest⟩ <;> rw [hd]
  · rw [if_pos rfl, ← countChunks_next hca]
    simp only [List.head?_nil, Option.elim_none]
    rcases (enter [] ca).range? with _ | s
    · simp only []
      omega
    · simp only []
      split_ifs <;> omega
  · have hzero : RangeVector.count 0 last (ranges ca) = 0 := by
      obtain ⟨t, ht, hlt⟩ : ∃ t ∈ a, last ≤ t.2 := by
        by_contra hno
        have hnil := drop_takeWhile_eq_nil.2 fun t ht => not_le.1 fun hge => hno ⟨t, ht, hge⟩
        rw [hnil] at hd
        cases hd
      exact count_of_le fun u hu => hlt.trans (happ t ht u hu).le
    rw [hzero, if_neg (List.cons_ne_nil s rest)]
    simp only [List.head?_cons, Option.elim_some, part]
    omega

theorem passedOver_le : passedOver start last (.inside cb b r a n ca)
    ≤ RangeVector.count 0 last (a ++ ranges ca) := by
  have hnext : ((ranges ca).head?.elim 0 fun s => if s.2 ≥ last then part last s else 0)
      ≤ RangeVector.count 0 last (ranges ca) := by
    rcases ranges ca with _ | ⟨s, rest⟩
    · exact le_rfl
    · simp only [List.head?_cons, Option.elim_some, count_cons, part]
      split_ifs <;> omega
  rw [passedOver, count_append]
  split_ifs <;> omega

theorem countFrom_inside (h : Intact (⟨b.reverse ++ r :: a, n⟩ :: ca)) (hs : start < r.2) :
    countFrom start last (.inside cb b r a n ca) + passedOver start last (.inside cb b r a n ca)
      = RangeVector.count start last (r :: a ++ ranges ca) := by
  have hv : Valid (r :: a ++ ranges ca) := by
    have := h.valid
    rw [ranges_cons, List.append_assoc] at this
    exact (RangeVector.valid_append.1 this).2.1
  have hwithin := @countFrom_within cb ca b a r n start last hv h.tail
  rw [List.cons_append] at hv ⊢
  obtain ⟨hr, hrest, -⟩ := RangeVector.valid_cons.1 hv
  have hcons := @count_cons_of_lt _ r start last hs hrest
  by_cases hend : r.2 < last
  · by_cases hmid : start > r.1 ∨ b ≠ []
    · rw [hwithin hend hmid, hcons, Nat.min_eq_left hend.le, Nat.cast_add]
    · -- whole chunks are counted from the start of this one
      obtain ⟨hstart, hb⟩ := not_or.1 hmid
      obtain rfl := not_not.1 hb
      have hnot : ¬ r.1 ≥ last ∧ ¬ r.2 ≥ last := ⟨not_le.2 (hr.trans hend), not_le.2 hend⟩
      simp only [countFrom, passedOver, hmid, hnot.1, hnot.2, false_and, if_false]
      rw [hcons, Nat.max_eq_left (not_lt.1 hstart)]
      exact (add_zero _).trans ((countChunks_eq h).trans (congrArg _ count_cons))
  · have hzero : RangeVector.count 0 last (a ++ ranges ca) = 0 :=
      count_of_le fun s hm => (not_lt.1 hend).trans (hrest s hm).le
    have hpassed := @passedOver_le cb ca b a r n start last
    rw [hzero] at hpassed
    rw [hcons, hzero, Nat.eq_zero_of_le_zero hpassed]
    simp only [countFrom, ge_iff_le, not_lt.1 hend, if_true]
    split_ifs <;> omega

/-- With those passed over, as many indices are counted as there are. -/
theorem count_spec (start last : ℕ) (h : Intact cs) :
    count start last cs + passedOver start last (find start cs)
      = RangeVector.count start last (ranges cs) := by
  obtain ⟨-, hp, hat⟩ := h.find_spec start
  have hcount : RangeVector.count start last (ranges cs)
      = RangeVector.count start last (find start cs).position.after := by
    have hbefore := @count_of_le_start (find start cs).position.before.reverse start last
      fun r hr => hat.before r (List.mem_reverse.1 hr)
    have hranges : ranges cs = (find start cs).position.ranges := by
      rw [position_ranges, chunks_find]
    rw [hranges, Position.ranges, RangeVector.count, List.map_append, List.sum_append]
    exact (congrArg (· + _) hbefore).trans (Nat.zero_add _)
  have hchunks := @chunks_find cs start
  rw [hcount, count]
  rcases hit : find start cs with ⟨cb, b, r, a, n, ca⟩ | cb <;> rw [hit] at hchunks hat
  · have hin : Intact (⟨b.reverse ++ r :: a, n⟩ :: ca) := .of_append (hchunks ▸ h)
    have hcounted := @countFrom_inside cb ca b a r n start last hin
      (hat.after r List.mem_cons_self)
    have hle : passedOver start last (.inside cb b r a n ca)
        ≤ RangeVector.count start last (r :: a ++ ranges ca) := by
      have hpassed := @passedOver_le cb ca b a r n start last
      have hrest := (RangeVector.valid_cons.1 (RangeVector.valid_ranges.1 hat.valid).2.1).2.1
      exact (hpassed.trans (Nat.le_add_left _ _)).trans
        (count_cons_of_lt (hat.after r List.mem_cons_self) hrest).ge
    have hsub := eq_sub_of_add_eq hcounted
    rw [hsub, toSize_sub hle]
    exact Nat.sub_add_cancel hle
  · rfl

example : count 2 769 [⟨(List.range 256).map fun k => (3 * k, 3 * k + 2), 512⟩, ⟨[(768, 770)], 2⟩]
    = 510 := by decide +kernel

/-! ## What is before an index -/

theorem find_zero (h : Intact (⟨r :: data, n⟩ :: cs)) :
    find 0 (⟨r :: data, n⟩ :: cs) = .inside [] [] r data n cs := by
  have hr : 0 < r.2 := Nat.zero_lt_of_lt (h.valid_head.nonempty r List.mem_cons_self)
  have hs : ¬ stop (r :: data) ≤ 0 :=
    not_le.2 (hr.trans_le (le_stop h.valid_head r List.mem_cons_self))
  rw [find, findChunk, if_neg hs, findRange, if_neg (not_le.2 hr)]

theorem count_zero (h : Intact cs) : count 0 last cs = RangeVector.count 0 last (ranges cs) := by
  have hpassed : passedOver 0 last (find 0 cs) = 0 := by
    rcases cs with _ | ⟨⟨_ | ⟨r, data⟩, n⟩, cs⟩
    · rfl
    · exact absurd rfl h.head.nonempty
    · rw [find_zero h]
      simp [passedOver]
  rw [← count_spec 0 last h, hpassed, Nat.add_zero]

theorem unshift_eq (h : Intact cs) :
    unshift cs index = IosLearning.unshift (RangeVector.toFinset (ranges cs)) index := by
  have hu := unshift_add_card (RangeVector.toFinset (ranges cs)) index
  have hc := RangeVector.count_eq 0 index h.valid
  simp only [Nat.zero_le, true_and] at hc
  rw [unshift, count_zero h, toSize_sub (by omega), hc]
  omega

/-! ## Indices shifted while they are put in or erased -/

theorem skipShifted_append (h : ∀ r ∈ a, r.1 ≤ index) : RangeVector.skipShifted b (a ++ rs) index
    = RangeVector.skipShifted (a.reverse ++ b) rs (index + RangeVector.size a) := by
  induction a generalizing b index with
  | nil => rfl
  | cons r a ih =>
    rw [List.forall_mem_cons] at h
    rw [List.cons_append, RangeVector.skipShifted, if_pos h.1,
      ih fun s hs => (h.2 s hs).trans (Nat.le_add_right _ _)]
    simp [RangeVector.size, Nat.add_assoc]

theorem skipShiftedRanges_spec {b' a' : List Range} {index' : ℕ} :
    ∀ {a b : List Range} {index : ℕ}, skipShiftedRanges b a index = (b', a', index') →
      b'.reverse ++ a' = b.reverse ++ a ∧
        RangeVector.skipShifted (b ++ rs) (a ++ ss) index = if a' = []
          then RangeVector.skipShifted (b' ++ rs) ss index' else (⟨b' ++ rs, a' ++ ss⟩, index')
  | [], b, index, h => by
    obtain ⟨rfl, rfl, rfl⟩ : b = b' ∧ [] = a' ∧ index = index' := by
      simpa [skipShiftedRanges] using h
    exact ⟨rfl, (if_pos rfl).symm⟩
  | r :: a, b, index, h => by
    rw [List.cons_append, RangeVector.skipShifted]
    rw [skipShiftedRanges] at h
    by_cases hr : r.1 ≤ index
    · rw [if_pos hr] at h ⊢
      obtain ⟨h1, h2⟩ := skipShiftedRanges_spec h
      exact ⟨by simpa using h1, h2⟩
    · rw [if_neg hr] at h ⊢
      obtain ⟨rfl, rfl, rfl⟩ : b = b' ∧ r :: a = a' ∧ index = index' := by simpa using h
      exact ⟨rfl, (if_neg (List.cons_ne_nil r a)).symm⟩

theorem skipShiftedChunk_spec : ∀ {cs cb : List Chunk} {index : ℕ},
    (skipShiftedChunk cb cs index).1.chunks = cb.reverse ++ cs ∧
      ((skipShiftedChunk cb cs index).1.position, (skipShiftedChunk cb cs index).2)
        = RangeVector.skipShifted (rangesBefore cb) (ranges cs) index
  | [], cb, index => ⟨by simp [skipShiftedChunk, Iterator.chunks], rfl⟩
  | c :: cs, cb, index => by
    unfold skipShiftedChunk
    rcases hskip : skipShiftedRanges [] c.data index with ⟨b, _ | ⟨r, a⟩, index'⟩ <;>
      obtain ⟨h1, h2⟩ := @skipShiftedRanges_spec (rangesBefore cb) (ranges cs) _ _ _ _ _ _ hskip <;>
      simp only [List.append_nil, List.reverse_nil, List.nil_append] at h1 h2
    · obtain ⟨i1, i2⟩ := @skipShiftedChunk_spec cs (c :: cb) index'
      refine ⟨by simpa using i1, i2.trans ?_⟩
      rw [ranges_cons, h2, if_pos trivial, rangesBefore_cons, ← h1, List.reverse_reverse]
    · refine ⟨?_, ?_⟩
      · rw [Iterator.chunks, h1]
      · rw [ranges_cons, h2, if_neg (List.cons_ne_nil r a)]
        rfl

theorem skipShifted_spec : ∀ {cs cb : List Chunk} {index : ℕ}, Intact cs →
    (skipShifted cb cs index).1.chunks = cb.reverse ++ cs ∧
      ((skipShifted cb cs index).1.position, (skipShifted cb cs index).2)
        = RangeVector.skipShifted (rangesBefore cb) (ranges cs) index
  | [], cb, index, _ => ⟨by simp [skipShifted, Iterator.chunks], rfl⟩
  | c :: cs, cb, index, h => by
    unfold skipShifted
    split_ifs with hs
    · -- the whole chunk is before the index
      have hle : ∀ r ∈ c.data, r.1 ≤ index := fun r hr =>
        (h.valid_head.nonempty r hr).le.trans ((le_stop h.valid_head r hr).trans hs)
      have hcount : toSize (index + c.count) = index + RangeVector.size c.data := by
        rw [h.head.counted, size, ← Nat.cast_add, toSize_natCast]
      obtain ⟨i1, i2⟩ := @skipShifted_spec cs (c :: cb) (toSize (index + c.count)) h.tail
      refine ⟨by simpa using i1, i2.trans ?_⟩
      rw [ranges_cons, skipShifted_append hle, rangesBefore_cons, hcount]
    · exact skipShiftedChunk_spec

theorem addShifted_spec (index : ℕ) (h : Intact cs) :
    (∀ c ∈ (addShifted index cs).2, Sound c) ∧
      ((addShifted index cs).1, ranges (addShifted index cs).2)
        = RangeVector.addShifted index (ranges cs) := by
  obtain ⟨h1, h2⟩ := @skipShifted_spec cs [] index h
  obtain ⟨hp, hi⟩ := Prod.mk.inj h2
  have hv : ([].reverse ++ ranges cs) = ranges cs := rfl
  obtain ⟨ha, hr⟩ := @RangeVector.skipShifted_at [] (ranges cs) index (hv ▸ h.valid)
    (by simp)
  have hs : (skipShifted [] cs index).1.Sound := by
    unfold Iterator.Sound
    rw [h1]
    exact h.sound
  obtain ⟨s1, s2⟩ := Iterator.doAdd_spec (skipShifted [] cs index).2 hs
    (by rw [hp]; exact ha.valid.nonempty)
  refine ⟨s1, Prod.ext hi ?_⟩
  change ranges ((skipShifted [] cs index).1.doAdd (skipShifted [] cs index).2).chunks
    = ((RangeVector.skipShifted [] (ranges cs) index).1.doAdd
      (RangeVector.skipShifted [] (ranges cs) index).2).ranges
  rw [← position_ranges, s2, hp, hi]
  rfl

theorem takeWhile_stop_le (hv : Valid data) (hn : ¬ RangeVector.Covers data index) :
    size (data.takeWhile fun r => r.2 ≤ index) = RangeVector.count 0 index data := by
  induction data with
  | nil => rfl
  | cons r data ih =>
    obtain ⟨hr, hdata, hv⟩ := RangeVector.valid_cons.1 hv
    rw [RangeVector.covers_cons, not_or] at hn
    rw [List.takeWhile_cons, count_cons]
    by_cases h : r.2 ≤ index
    · simp only [h, decide_true, if_true]
      rw [size_cons, ih hv hn.2, Nat.min_eq_left h, Nat.cast_add]
    · simp only [h, decide_false, Bool.false_eq_true, if_false]
      rw [count_of_le fun s hs => (not_le.1 h).le.trans (hdata s hs).le, size_nil]
      omega

theorem skipUnshifted_eq : ∀ {cs : List Chunk} {shifted : ℤ}, Intact cs →
    ¬ RangeVector.Covers (ranges cs) index →
    skipUnshifted index cs shifted = shifted - RangeVector.count 0 index (ranges cs)
  | [], shifted, _, _ => (sub_zero shifted).symm
  | c :: cs, shifted, h, hn => by
    rw [ranges_cons, RangeVector.covers_append, not_or] at hn
    unfold skipUnshifted
    rw [ranges_cons, count_append]
    split_ifs with hs
    · rw [skipUnshifted_eq h.tail hn.2, h.head.counted, Nat.cast_add,
        count_of_stop_le fun r hr => (le_stop h.valid_head r hr).trans hs]
      omega
    · rw [takeWhile_stop_le h.valid_head hn.1, count_of_le (h.lt_tail (not_le.1 hs)), Nat.add_zero]

/-- An index in the set is erased, and one outside comes where closing the gaps brings it. -/
theorem eraseOrUnshift_spec (index : ℕ) (h : Intact cs) : eraseOrUnshift index cs
    = (if contains index cs then none
        else some (IosLearning.unshift (RangeVector.toFinset (ranges cs)) index),
      eraseAt index cs) := by
  have hu : contains index cs = false → toSize (skipUnshifted index cs index)
      = IosLearning.unshift (RangeVector.toFinset (ranges cs)) index := fun hn => by
    rw [contains_eq h.valid, ← Bool.not_eq_true, RangeVector.contains_iff h.valid] at hn
    rw [skipUnshifted_eq h hn, ← unshift_eq h, unshift, count_zero h]
  have hchunks := @chunks_find cs index
  unfold contains at hu ⊢
  unfold eraseOrUnshift eraseAt
  rcases hit : find index cs with ⟨cb, b, r, a, n, ca⟩ | cb <;> rw [hit] at hu hchunks
  · simp only [Iterator.range?, Option.any_some, decide_eq_true_eq, decide_eq_false_iff_not] at hu ⊢
    split_ifs with hle
    · rfl
    · rw [hu hle]
  · have herase : (Iterator.past cb).doErase index = cs := hchunks
    simp only [Iterator.range?, Option.any_none, herase, hu rfl, Bool.false_eq_true, if_false]

end ChunkedRangeVector

end IosLearning
