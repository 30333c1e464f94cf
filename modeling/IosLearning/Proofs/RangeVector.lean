import IosLearning.RangeVector
import Mathlib.Tactic.Linarith

/-!
# What the range operations do

Each keeps the ranges in order and apart, and its result covers what the operation says. An
iterator is placed at an index (`At`) where the ranges before it end by the index and those from
it on after it; that is what `find` finds, and all the operations at one place need.
-/

namespace IosLearning

namespace RangeVector

variable {rs ss before after : List Range} {r : Range} {i index count : ℕ} {it : Position}

@[simp] theorem covers_nil : ¬ Covers [] i := by simp [Covers]

@[simp] theorem covers_cons : Covers (r :: rs) i ↔ (r.1 ≤ i ∧ i < r.2) ∨ Covers rs i := by
  simp [Covers]

@[simp] theorem covers_append : Covers (rs ++ ss) i ↔ Covers rs i ∨ Covers ss i := by
  simp only [Covers, List.mem_append, or_and_right, exists_or]

@[simp] theorem covers_reverse : Covers rs.reverse i ↔ Covers rs i := by
  simp [Covers]

theorem covers_lt (h : ∀ r ∈ rs, r.2 ≤ index) : Covers rs i → i < index := by
  rintro ⟨r, hr, -, hi⟩
  exact hi.trans_le (h r hr)

theorem lt_covers (h : ∀ r ∈ rs, index < r.1) : Covers rs i → index < i := by
  rintro ⟨r, hr, hi, -⟩
  exact (h r hr).trans_le hi

theorem valid_nil : Valid [] := ⟨by simp, List.Pairwise.nil⟩

theorem valid_cons : Valid (r :: rs) ↔ r.1 < r.2 ∧ (∀ s ∈ rs, r.2 < s.1) ∧ Valid rs := by
  refine ⟨fun h => ?_, fun h => ?_⟩
  · obtain ⟨h1, h2⟩ := h
    rw [List.pairwise_cons] at h2
    exact ⟨h1 r List.mem_cons_self, h2.1, fun s hs => h1 s (List.mem_cons_of_mem _ hs), h2.2⟩
  · obtain ⟨h1, h2, h3⟩ := h
    refine ⟨fun s hs => ?_, List.pairwise_cons.2 ⟨h2, h3.apart⟩⟩
    rcases List.mem_cons.1 hs with rfl | hs
    · exact h1
    · exact h3.nonempty s hs

theorem valid_append : Valid (rs ++ ss) ↔ Valid rs ∧ Valid ss ∧ ∀ r ∈ rs, ∀ s ∈ ss, r.2 < s.1 := by
  refine ⟨fun h => ?_, fun h => ?_⟩
  · obtain ⟨h1, h2⟩ := h
    rw [List.pairwise_append] at h2
    exact ⟨⟨fun r hr => h1 r (List.mem_append_left _ hr), h2.1⟩,
      ⟨fun r hr => h1 r (List.mem_append_right _ hr), h2.2.1⟩, h2.2.2⟩
  · obtain ⟨h1, h2, h3⟩ := h
    refine ⟨fun r hr => ?_, List.pairwise_append.2 ⟨h1.apart, h2.apart, h3⟩⟩
    rcases List.mem_append.1 hr with hr | hr
    · exact h1.nonempty r hr
    · exact h2.nonempty r hr

/-- The ranges before an iterator, the nearest first. -/
def ValidBefore (before : List Range) : Prop := Valid before.reverse

theorem validBefore_nil : ValidBefore [] := valid_nil

theorem validBefore_cons :
    ValidBefore (r :: before) ↔ r.1 < r.2 ∧ (∀ s ∈ before, s.2 < r.1) ∧ ValidBefore before := by
  unfold ValidBefore
  rw [List.reverse_cons, valid_append, valid_cons]
  simp only [valid_nil, List.mem_reverse, List.mem_singleton, forall_eq, List.not_mem_nil,
    false_imp_iff, implies_true, and_true]
  tauto

theorem valid_ranges : Valid (before.reverse ++ after) ↔
    ValidBefore before ∧ Valid after ∧ ∀ r ∈ before, ∀ s ∈ after, r.2 < s.1 := by
  rw [valid_append]
  simp only [List.mem_reverse, ValidBefore]

/-! ## Iterators -/

/-- The ranges before the iterator end by the index, and those from it on after it. -/
structure At (it : Position) (index : ℕ) : Prop where
  valid : Valid it.ranges
  before : ∀ r ∈ it.before, r.2 ≤ index
  after : ∀ r ∈ it.after, index < r.2

theorem findFrom_ranges : ∀ {before after : List Range},
    (findFrom index before after).ranges = before.reverse ++ after
  | before, [] => rfl
  | before, r :: after => by
    unfold findFrom
    split_ifs
    · rw [findFrom_ranges, List.reverse_cons, List.append_assoc, List.singleton_append]
    · rfl

theorem findFrom_at : ∀ {before after : List Range}, Valid (before.reverse ++ after) →
    (∀ r ∈ before, r.2 ≤ index) → At (findFrom index before after) index
  | before, [], hv, hb => ⟨hv, hb, by simp [findFrom]⟩
  | before, r :: after, hv, hb => by
    unfold findFrom
    split_ifs with h
    · refine findFrom_at ?_ ?_
      · rwa [List.reverse_cons, List.append_assoc, List.singleton_append]
      · simpa only [List.forall_mem_cons] using ⟨h, hb⟩
    · refine ⟨hv, hb, ?_⟩
      obtain ⟨-, ha, -⟩ := valid_ranges.1 hv
      obtain ⟨-, ha, hr⟩ := valid_cons.1 ha
      rw [List.forall_mem_cons]
      refine ⟨not_le.1 h, fun s hs => ?_⟩
      have h1 := ha s hs
      have h2 := hr.nonempty s hs
      omega

@[simp] theorem find_ranges : (find index rs).ranges = rs := findFrom_ranges

theorem find_at (index : ℕ) (h : Valid rs) : At (find index rs) index := findFrom_at h (by simp [begin])

theorem contains_iff (h : Valid rs) : contains index rs = true ↔ Covers rs index := by
  obtain ⟨hv, hb, ha⟩ := find_at index h
  have hr : (find index rs).ranges = rs := find_ranges
  unfold contains
  rcases hf : find index rs with ⟨before, _ | ⟨r, after⟩⟩ <;> rw [hf] at hv hb ha hr
  · rw [← hr]
    simp only [Position.ranges, Bool.false_eq_true, false_iff, covers_append, covers_reverse,
      covers_nil, or_false]
    rintro ⟨r, hr, -, hlt⟩
    have := hb r hr
    omega
  · rw [← hr, decide_eq_true_eq]
    simp only [Position.ranges, covers_append, covers_reverse, covers_cons]
    obtain ⟨-, hva, -⟩ := valid_ranges.1 hv
    have hrest := (valid_cons.1 hva).2.1
    have hr2 := ha r List.mem_cons_self
    refine ⟨fun h1 => .inr (.inl ⟨h1, hr2⟩), ?_⟩
    rintro (⟨s, hs, -, hlt⟩ | h1 | ⟨s, hs, hle, -⟩)
    · have := hb s hs
      omega
    · exact h1.1
    · have := hrest s hs
      omega

/-! ## Adding and erasing an index -/

theorem doAdd_spec (h : At it index) : At (it.doAdd index) index
    ∧ ∀ i, Covers (it.doAdd index).ranges i ↔ i = index ∨ Covers it.ranges i := by
  obtain ⟨hv, hb, ha⟩ := h
  obtain ⟨before, after⟩ := it
  obtain ⟨hvb, hva, hc⟩ := valid_ranges.1 hv
  -- by what is on either side, and how the index lies to it
  rcases after with _ | ⟨r, after⟩ <;> rcases before with _ | ⟨q, before⟩ <;>
    simp only [List.forall_mem_cons, validBefore_cons, valid_cons] at hvb hva hc hb ha <;>
    unfold Position.doAdd <;> simp only [] <;> (try split_ifs) <;>
    refine ⟨⟨valid_ranges.2 ?_, ?_, ?_⟩, ?_⟩ <;>
    simp only [List.forall_mem_cons, validBefore_cons, valid_cons, Position.ranges, covers_append,
      covers_reverse, covers_cons] <;>
    grind

theorem add_spec (h : Valid rs) :
    Valid (add index rs) ∧ ∀ i, Covers (add index rs) i ↔ i = index ∨ Covers rs i := by
  obtain ⟨ha, hc⟩ := doAdd_spec (find_at index h)
  rw [find_ranges] at hc
  exact ⟨ha.valid, hc⟩

/-- Indices in order are put in one after the other. -/
theorem addIndexes_spec : ∀ {indexes : List ℕ} {it : Position}, Valid it.ranges →
    indexes.Pairwise (· < ·) → (∀ j ∈ indexes, ∀ r ∈ it.before, r.2 ≤ j) →
    Valid (addIndexes it indexes).ranges
      ∧ ∀ i, Covers (addIndexes it indexes).ranges i ↔ i ∈ indexes ∨ Covers it.ranges i
  | [], it, hv, _, _ => ⟨hv, by simp [addIndexes]⟩
  | j :: indexes, it, hv, hs, hb => by
    rw [List.pairwise_cons] at hs
    have hf : At (it.find j) j := findFrom_at hv (hb j List.mem_cons_self)
    obtain ⟨ha, hc⟩ := doAdd_spec hf
    have hr : (it.find j).ranges = it.ranges := findFrom_ranges
    obtain ⟨h1, h2⟩ := addIndexes_spec ha.valid hs.2 fun k hk r hr => by
      have := ha.before r hr
      have := hs.1 k hk
      omega
    refine ⟨h1, fun i => (h2 i).trans ?_⟩
    rw [hc, hr, List.mem_cons]
    tauto

theorem forall_mem_unshifted {p : Range → Prop} :
    (∀ r ∈ unshifted rs, p r) ↔ ∀ r ∈ rs, p (r.1 - 1, r.2 - 1) :=
  List.forall_mem_map

@[simp] theorem unshifted_cons : unshifted (r :: rs) = (r.1 - 1, r.2 - 1) :: unshifted rs := rfl

theorem valid_unshifted (h : Valid rs) (h0 : ∀ r ∈ rs, 0 < r.1) : Valid (unshifted rs) := by
  refine ⟨forall_mem_unshifted.2 fun r hr => ?_, ?_⟩
  · have h1 := h.nonempty r hr
    have h2 := h0 r hr
    show r.1 - 1 < r.2 - 1
    omega
  · refine List.pairwise_map.2 (h.apart.imp_of_mem fun {r s} hr hs hrs => ?_)
    have h1 := h.nonempty r hr
    have h2 := h0 s hs
    show r.2 - 1 < s.1 - 1
    omega

theorem covers_unshifted (h0 : ∀ r ∈ rs, 0 < r.1) : Covers (unshifted rs) i ↔ Covers rs (i + 1) := by
  simp only [Covers, unshifted, List.mem_map]
  refine ⟨?_, ?_⟩
  · rintro ⟨_, ⟨r, hr, rfl⟩, h1, h2⟩
    have := h0 r hr
    simp only [] at h1 h2
    exact ⟨r, hr, by omega, by omega⟩
  · rintro ⟨r, hr, h1, h2⟩
    exact ⟨_, ⟨r, hr, rfl⟩, by simp only []; omega, by simp only []; omega⟩

theorem doErase_spec (h : At it index) : Valid (it.doErase index)
    ∧ ∀ i, Covers (it.doErase index) i ↔ Covers it.ranges (if i < index then i else i + 1) := by
  obtain ⟨hv, hb, ha⟩ := h
  obtain ⟨before, after⟩ := it
  obtain ⟨hvb, hva, hc⟩ := valid_ranges.1 hv
  rcases after with _ | ⟨r, after⟩
  · refine ⟨hv, fun i => ?_⟩
    have hn : ∀ j, index ≤ j → ¬ Covers before j := fun j hj hc => (covers_lt hb hc).not_ge hj
    simp only [Position.doErase, Position.ranges, List.append_nil, covers_reverse]
    split_ifs with hi
    · rfl
    · simp [hn i (by omega), hn (i + 1) (by omega)]
  · rw [valid_cons] at hva
    simp only [List.forall_mem_cons] at hc ha
    have h0 : ∀ s ∈ after, 0 < s.1 := fun s hs => Nat.zero_lt_of_lt (hva.2.1 s hs)
    have hva' := valid_unshifted hva.2.2 h0
    have hcb : ∀ j, Covers before j → j < index := fun j => covers_lt hb
    have hca : ∀ j, Covers after j → r.2 < j := fun j => lt_covers hva.2.1
    rcases before with _ | ⟨q, before⟩ <;>
      simp only [List.forall_mem_cons, validBefore_cons, covers_cons, covers_nil] at hvb hc hb hcb <;>
      unfold Position.doErase <;> simp only [] <;> split_ifs <;>
      refine ⟨valid_ranges.2 ?_, fun i => ?_⟩ <;>
      simp only [List.forall_mem_cons, validBefore_cons, valid_cons, Position.ranges,
        covers_append, covers_reverse, covers_cons, covers_nil, covers_unshifted h0,
        forall_mem_unshifted, unshifted_cons] <;>
      grind

theorem eraseAt_spec (h : Valid rs) : Valid (eraseAt index rs)
    ∧ ∀ i, Covers (eraseAt index rs) i ↔ Covers rs (if i < index then i else i + 1) := by
  have he := doErase_spec (find_at index h)
  rwa [find_ranges] at he

/-! ## Ranges moved back -/

@[simp] theorem shifted_cons :
    shifted count (r :: rs) = (r.1 + count, r.2 + count) :: shifted count rs := rfl

theorem forall_mem_shifted {p : Range → Prop} :
    (∀ r ∈ shifted count rs, p r) ↔ ∀ r ∈ rs, p (r.1 + count, r.2 + count) :=
  List.forall_mem_map

theorem valid_shifted (h : Valid rs) : Valid (shifted count rs) := by
  refine ⟨forall_mem_shifted.2 fun r hr => ?_, ?_⟩
  · exact Nat.add_lt_add_right (h.nonempty r hr) count
  · exact List.pairwise_map.2 (h.apart.imp fun hrs => Nat.add_lt_add_right hrs count)

theorem covers_shifted : Covers (shifted count rs) i ↔ count ≤ i ∧ Covers rs (i - count) := by
  simp only [Covers, shifted, List.mem_map]
  refine ⟨?_, ?_⟩
  · rintro ⟨_, ⟨r, hr, rfl⟩, h1, h2⟩
    simp only [] at h1 h2
    exact ⟨by omega, r, hr, by omega, by omega⟩
  · rintro ⟨hc, r, hr, h1, h2⟩
    exact ⟨_, ⟨r, hr, rfl⟩, by simp only []; omega, by simp only []; omega⟩

theorem next_ranges : it.next.ranges = it.ranges := by
  rcases it with ⟨before, _ | ⟨r, after⟩⟩
  · rfl
  · simp [Position.next, Position.ranges]

/-- The iterator after an index just added that is joined to nothing after it. -/
theorem next_doAdd (h : At it index) (hlt : ∀ r ∈ it.after, index + 1 < r.1) :
    (it.doAdd index).next.after = it.after ∧ At (it.doAdd index).next (index + 1) := by
  have hv : Valid (it.doAdd index).next.ranges := by
    rw [next_ranges]
    exact (doAdd_spec h).1.valid
  obtain ⟨-, hb, ha⟩ := h
  have he : (it.doAdd index).next.after = it.after
      ∧ ∀ r ∈ (it.doAdd index).next.before, r.2 ≤ index + 1 := by
    obtain ⟨before, after⟩ := it
    rcases after with _ | ⟨r, after⟩ <;> rcases before with _ | ⟨q, before⟩ <;>
      simp only [List.forall_mem_cons] at hb ha hlt <;>
      unfold Position.doAdd <;> simp only [] <;> (try split_ifs) <;>
      simp only [Position.next, List.forall_mem_cons] <;>
      grind
  refine ⟨he.1, hv, he.2, fun r hr => ?_⟩
  rw [he.1] at hr
  rw [Position.ranges, he.1, valid_append] at hv
  have := hlt r hr
  have := hv.2.1.nonempty r hr
  omega

/-- Nothing that begins by the end of the run is joined to it. -/
theorem addRun_spec : ∀ (count : ℕ) {index : ℕ} {it : Position}, At it index →
    (∀ r ∈ it.after, index + count < r.1) →
    Valid (addRun index count it).ranges ∧ ∀ i, Covers (addRun index count it).ranges i ↔
      (index ≤ i ∧ i < index + count) ∨ Covers it.ranges i
  | 0, index, it, h, _ => ⟨h.valid, fun i => by
    rw [addRun, or_iff_right]
    omega⟩
  | count + 1, index, it, h, hlt => by
    obtain ⟨-, hc⟩ := doAdd_spec h
    obtain ⟨hn, ha⟩ := next_doAdd h fun r hr => by
      have := hlt r hr
      omega
    obtain ⟨h1, h2⟩ := addRun_spec count ha fun r hr => by
      rw [hn] at hr
      have := hlt r hr
      omega
    refine ⟨h1, fun i => ?_⟩
    rw [addRun, h2, next_ranges, hc, ← or_assoc]
    refine or_congr_left ?_
    omega

/-- Past the index, ranges moved back leave room for the indices put in. -/
theorem shifted_at (count : ℕ) (h : At ⟨before, r :: after⟩ index) (hr : index < r.1) :
    At ⟨before, shifted count (r :: after)⟩ index
      ∧ ∀ s ∈ shifted count (r :: after), index + count < s.1 := by
  obtain ⟨hv, hb, ha⟩ := h
  obtain ⟨hvb, hva, hc⟩ := valid_ranges.1 hv
  have hs : Valid (shifted count (r :: after)) := valid_shifted hva
  simp only [List.forall_mem_cons, valid_cons, shifted_cons, forall_mem_shifted] at hva hc ha hs
  refine ⟨⟨valid_ranges.2 ⟨hvb, ?_, ?_⟩, hb, ?_⟩, ?_⟩ <;>
    simp only [List.forall_mem_cons, valid_cons, shifted_cons, forall_mem_shifted] <;>
    grind

theorem insertAt_spec (h : Valid rs) : Valid (insertAt index count rs)
    ∧ ∀ i, Covers (insertAt index count rs) i ↔ (index ≤ i ∧ i < index + count)
      ∨ Covers rs (if i < index then i else i - count) := by
  have hr : (find index rs).ranges = rs := find_ranges
  have hf := find_at index h
  unfold insertAt
  generalize find index rs = it at hf hr
  have hat := hf
  obtain ⟨hv, hb, ha⟩ := hf
  obtain rfl := hr
  have hcb : ∀ j, Covers it.before j → j < index := fun j => covers_lt hb
  obtain ⟨before, _ | ⟨r, after⟩⟩ := it
  · obtain ⟨h1, h2⟩ := addRun_spec count ⟨hv, hb, ha⟩ (by simp)
    refine ⟨h1, fun i => (h2 i).trans ?_⟩
    simp only [Position.ranges, List.append_nil, covers_reverse] at hcb ⊢
    grind
  · obtain ⟨hvb, hva, hc⟩ := valid_ranges.1 hv
    have hs : Valid (shifted count (r :: after)) := valid_shifted hva
    simp only [List.forall_mem_cons, valid_cons, shifted_cons, forall_mem_shifted] at hva hc ha hs
    have hca : ∀ j, Covers after j → r.2 < j := fun j => lt_covers hva.2.1
    simp only [Position.ranges, covers_append, covers_reverse, covers_cons] at hcb ⊢
    split_ifs with hle
    · refine ⟨valid_ranges.2 ⟨hvb, ?_, ?_⟩, fun i => ?_⟩ <;>
        simp only [List.forall_mem_cons, valid_cons, forall_mem_shifted, covers_append,
          covers_reverse, covers_cons, covers_shifted] <;>
        grind
    · obtain ⟨hs, hlt⟩ := shifted_at count hat (not_le.1 hle)
      obtain ⟨h1, h2⟩ := addRun_spec count hs hlt
      refine ⟨h1, fun i => (h2 i).trans ?_⟩
      simp only [Position.ranges, covers_append, covers_reverse, shifted_cons, covers_cons,
        covers_shifted]
      grind

/-- A range around the index is split where the others are moved back. -/
theorem shiftForInsertAt_spec (h : Valid rs) (hc : 0 < count) :
    Valid (shiftForInsertAt index count rs) ∧ ∀ i, Covers (shiftForInsertAt index count rs) i ↔
      ¬ (index ≤ i ∧ i < index + count) ∧ Covers rs (if i < index then i else i - count) := by
  have hr : (find index rs).ranges = rs := find_ranges
  have hf := find_at index h
  unfold shiftForInsertAt
  generalize find index rs = it at hf hr
  obtain ⟨hv, hb, ha⟩ := hf
  obtain rfl := hr
  have hcb : ∀ j, Covers it.before j → j < index := fun j => covers_lt hb
  obtain ⟨before, _ | ⟨r, after⟩⟩ := it
  · refine ⟨hv, fun i => ?_⟩
    simp only [Position.ranges, List.append_nil, covers_reverse] at hcb ⊢
    grind
  · obtain ⟨hvb, hva, hc⟩ := valid_ranges.1 hv
    have hs : Valid (shifted count (r :: after)) := valid_shifted hva
    simp only [List.forall_mem_cons, valid_cons, shifted_cons, forall_mem_shifted] at hva hc ha hs
    have hca : ∀ j, Covers after j → r.2 < j := fun j => lt_covers hva.2.1
    simp only [Position.ranges, covers_append, covers_reverse, covers_cons] at hcb ⊢
    split_ifs with hle <;> refine ⟨valid_ranges.2 ⟨hvb, ?_, ?_⟩, fun i => ?_⟩ <;>
      simp only [List.forall_mem_cons, valid_cons, shifted_cons, forall_mem_shifted, covers_append,
        covers_reverse, covers_cons, covers_shifted] <;>
      grind

/-! ## Indices taken out -/

/-- The ranges up to `stop` are gone through, each cut where it reaches into what is taken out. -/
theorem doRemoveFrom_spec : ∀ {before after : List Range} {start stop : ℕ},
    Valid (before.reverse ++ after) → (∀ r ∈ before, r.2 ≤ start) → start < stop →
    Valid (doRemoveFrom before after start stop).ranges
      ∧ (∀ r ∈ (doRemoveFrom before after start stop).before, r.2 ≤ stop)
      ∧ ∀ i, Covers (doRemoveFrom before after start stop).ranges i ↔
        Covers (before.reverse ++ after) i ∧ ¬ (start ≤ i ∧ i < stop)
  | before, [], start, stop, hv, hb, hlt => by
    refine ⟨hv, fun r hr => (hb r hr).trans hlt.le, fun i => ?_⟩
    have hcb : ∀ j, Covers before j → j < start := fun j => covers_lt hb
    simp only [doRemoveFrom, Position.ranges, List.append_nil, covers_reverse]
    grind
  | before, r :: after, start, stop, hv, hb, hlt => by
    obtain ⟨hvb, hva, hc⟩ := valid_ranges.1 hv
    simp only [List.forall_mem_cons, valid_cons] at hva hc
    have hcb : ∀ j, Covers before j → j < start := fun j => covers_lt hb
    have hca : ∀ j, Covers after j → r.2 < j := fun j => lt_covers hva.2.1
    unfold doRemoveFrom
    simp only []
    split_ifs with h1 h2 h3 h4 h5
    · have hv' : Valid ((r :: before).reverse ++ after) := by simpa using hv
      obtain ⟨i1, i2, i3⟩ := doRemoveFrom_spec hv' (List.forall_mem_cons.2 ⟨h1, hb⟩) hlt
      exact ⟨i1, i2, by simpa using i3⟩
    · refine ⟨valid_ranges.2 ?_, ?_, fun i => ?_⟩ <;>
        simp only [List.forall_mem_cons, validBefore_cons, valid_cons, Position.ranges,
          covers_append, covers_reverse, covers_cons] <;>
        grind
    · -- the whole range is taken out
      have hv' : Valid (before.reverse ++ after) := valid_ranges.2 (by grind)
      have hb' : ∀ s ∈ before, s.2 ≤ max r.1 start := by grind
      obtain ⟨i1, i2, i3⟩ := doRemoveFrom_spec hv' hb' (by grind : max r.1 start < stop)
      refine ⟨i1, i2, fun i => (i3 i).trans ?_⟩
      simp only [covers_append, covers_reverse, covers_cons]
      grind
    · refine ⟨valid_ranges.2 ?_, ?_, fun i => ?_⟩ <;>
        simp only [List.forall_mem_cons, valid_cons, Position.ranges, covers_append,
          covers_reverse, covers_cons] <;>
        grind
    · -- only its part before `start` is left
      have hv' : Valid (((r.1, max r.1 start) :: before).reverse ++ after) :=
        valid_ranges.2 (by simp only [List.forall_mem_cons, validBefore_cons]; grind)
      have hb' : ∀ s ∈ (r.1, max r.1 start) :: before, s.2 ≤ max r.1 start := by grind
      obtain ⟨i1, i2, i3⟩ := doRemoveFrom_spec hv' hb' (by grind : max r.1 start < stop)
      refine ⟨i1, i2, fun i => (i3 i).trans ?_⟩
      simp only [covers_append, covers_reverse, covers_cons]
      grind
    · refine ⟨hv, fun s hs => (hb s hs).trans hlt.le, fun i => ?_⟩
      simp only [Position.ranges, covers_append, covers_reverse, covers_cons]
      grind

theorem doRemove_spec {start stop : ℕ} (hv : Valid it.ranges) (hb : ∀ r ∈ it.before, r.2 ≤ start)
    (hlt : start < stop) : Valid (it.doRemove start stop).ranges
      ∧ (∀ r ∈ (it.doRemove start stop).before, r.2 ≤ stop)
      ∧ ∀ i, Covers (it.doRemove start stop).ranges i ↔
        Covers it.ranges i ∧ ¬ (start ≤ i ∧ i < stop) :=
  doRemoveFrom_spec hv hb hlt

theorem remove_spec (h : Valid rs) (hc : 0 < count) : Valid (remove index count rs)
    ∧ ∀ i, Covers (remove index count rs) i ↔
      Covers rs i ∧ ¬ (index ≤ i ∧ i < index + count) := by
  have hf := find_at index h
  obtain ⟨h1, -, h2⟩ := doRemove_spec hf.valid hf.before (Nat.lt_add_of_pos_right hc)
  rw [find_ranges] at h2
  exact ⟨h1, h2⟩

theorem removeFrom_spec : ∀ {values : List Range} {it : Position}, Valid it.ranges →
    Valid values → (∀ r ∈ it.before, ∀ s ∈ values, r.2 ≤ s.1) →
    Valid (removeFrom it values).ranges ∧ ∀ i, Covers (removeFrom it values).ranges i ↔
      Covers it.ranges i ∧ ¬ Covers values i
  | [], it, hv, _, _ => ⟨hv, by simp [removeFrom]⟩
  | s :: values, it, hv, hs, hb => by
    rw [valid_cons] at hs
    simp only [List.forall_mem_cons] at hb
    obtain ⟨h1, h2, h3⟩ := doRemove_spec hv (fun r hr => (hb r hr).1) hs.1
    have hcv : ∀ j, Covers values j → s.2 < j := fun j => lt_covers hs.2.1
    unfold removeFrom
    simp only [covers_cons]
    split_ifs with he
    · -- nothing is left past this one
      refine ⟨h1, fun i => ?_⟩
      have hcb : Covers (it.doRemove s.1 s.2).ranges i → i < s.2 := by
        rw [Position.ranges, he, List.append_nil, covers_reverse]
        exact covers_lt h2
      have h3i := h3 i
      grind
    · obtain ⟨i1, i2⟩ := removeFrom_spec h1 hs.2.2 fun r hr t ht =>
        (h2 r hr).trans (hs.2.1 t ht).le
      refine ⟨i1, fun i => ?_⟩
      rw [i2, h3]
      tauto

theorem removeRanges_spec (h : Valid rs) (hs : Valid ss) : Valid (removeRanges ss rs)
    ∧ ∀ i, Covers (removeRanges ss rs) i ↔ Covers rs i ∧ ¬ Covers ss i :=
  removeFrom_spec (h : Valid (begin rs).ranges) hs (by simp [begin])

end RangeVector

end IosLearning
