import IosLearning.Proofs.ChunkedShift
import IosLearning.Proofs.RangeBuild

/-!
# Chunks built anew

A builder makes of the ranges pushed what `RangeVector`'s does, in chunks that are filled before
the next is begun. It counts all of them right where only single indices are pushed, and where
there are as many chunks as it takes: a chunk more than were made at the start counts as one index
whatever its first range is.
-/

namespace IosLearning

open RangeVector (Range Valid)

namespace ChunkedRangeVector

variable {cs ds : List Chunk} {pushed : List Range} {r : Range} {bld : Builder} {n : ℕ}

namespace Builder

/-- The ranges pushed so far, the last first. -/
def built (b : Builder) : List Range := b.data ++ rangesBefore b.filled

/-- The chunks filled are full, and there is one at hand unless nothing is pushed yet. -/
structure Filling (b : Builder) : Prop where
  full : ∀ c ∈ b.filled, c.data.length = maxSize
  fits : b.data.length ≤ maxSize
  first : b.data = [] → b.filled = []

/-- Each chunk has as many indices as it is said to have. -/
structure Counted (b : Builder) : Prop where
  filled : ∀ c ∈ b.filled, c.count = size c.data
  data : b.data ≠ [] → b.count = size b.data
  nonempty : ∀ s ∈ b.data, s.1 < s.2

theorem built_pushBack (h : bld.Filling) :
    (bld.pushBack r).built = RangeVector.pushBack bld.built r := by
  rcases bld with ⟨filled, _ | ⟨last, data⟩, count, made⟩
  · obtain rfl : filled = [] := h.first rfl
    rfl
  · simp only [pushBack, built, List.cons_append, RangeVector.pushBack]
    split_ifs
    · rfl
    · rfl
    · cases made <;> simp

theorem filling_pushBack (h : bld.Filling) : (bld.pushBack r).Filling := by
  rcases bld with ⟨filled, _ | ⟨last, data⟩, count, made⟩
  · exact ⟨h.full, by simp [pushBack, Iterator.maxSize_eq], by simp [pushBack]⟩
  · have hfits := h.fits
    simp only [pushBack]
    split_ifs with h1 h2
    · exact ⟨h.full, hfits, by simp⟩
    · exact ⟨h.full, h2, by simp⟩
    · have hfull : ∀ c ∈ (⟨(last :: data).reverse, count⟩ : Chunk) :: filled,
          c.data.length = maxSize := by
        refine List.forall_mem_cons.2 ⟨?_, h.full⟩
        rw [List.length_reverse]
        exact le_antisymm hfits (not_lt.1 h2)
      cases made <;> exact ⟨hfull, by simp [Iterator.maxSize_eq], by simp⟩

/-- Those made at the start are filled first. -/
theorem made_pushBack (hm : bld.made = n - bld.filled.length) :
    (bld.pushBack r).made = n - (bld.pushBack r).filled.length := by
  rcases bld with ⟨filled, _ | ⟨last, data⟩, count, made⟩
  · exact hm
  · simp only [pushBack] at hm ⊢
    split_ifs
    · exact hm
    · exact hm
    · cases made <;> simp only [List.length_cons] at hm ⊢ <;> omega

theorem length_filled_pushBack : bld.filled.length ≤ (bld.pushBack r).filled.length := by
  rcases bld with ⟨filled, _ | ⟨last, data⟩, count, made⟩
  · exact le_rfl
  · simp only [pushBack]
    split_ifs
    · exact le_rfl
    · exact le_rfl
    · cases made <;> simp

/-- A push leaves the counts right unless it begins a chunk more than were made with a range of
several indices. -/
theorem counted_pushBack (h : bld.Counted) (hr : r.1 < r.2) (hm : bld.made = n - bld.filled.length)
    (ho : r.2 = r.1 + 1 ∨ (bld.pushBack r).filled.length ≤ n) : (bld.pushBack r).Counted := by
  rcases bld with ⟨filled, _ | ⟨last, data⟩, count, made⟩
  · exact ⟨h.filled, fun _ => by simp [pushBack], by simpa [pushBack] using hr⟩
  · have hcount : count = size (last :: data) := h.data (List.cons_ne_nil last data)
    have hlast := h.nonempty
    rw [List.forall_mem_cons] at hlast
    simp only [pushBack] at hm ho ⊢
    split_ifs at ho ⊢ with h1 h2
    · refine ⟨h.filled, fun _ => ?_, List.forall_mem_cons.2 ⟨?_, hlast.2⟩⟩
      · simp only [size_cons] at hcount ⊢
        omega
      · simp only []
        omega
    · refine ⟨h.filled, fun _ => ?_, List.forall_mem_cons.2 ⟨hr, h.nonempty⟩⟩
      simp only [size_cons] at hcount ⊢
      omega
    · have hfilled : ∀ c ∈ (⟨(last :: data).reverse, count⟩ : Chunk) :: filled,
          c.count = size c.data :=
        List.forall_mem_cons.2 ⟨by rw [size_reverse, hcount], h.filled⟩
      cases made with
      | zero =>
        refine ⟨hfilled, fun _ => ?_, by simpa using hr⟩
        simp only [List.length_cons, size_cons, size_nil] at hm ho ⊢
        omega
      | succ made => exact ⟨hfilled, fun _ => by simp, by simpa using hr⟩

/-! ## All that is pushed -/

theorem length_filled_foldl : bld.filled.length ≤ (pushed.foldl pushBack bld).filled.length := by
  induction pushed generalizing bld with
  | nil => exact le_rfl
  | cons r pushed ih => exact length_filled_pushBack.trans ih

theorem foldl_spec (pushed : List Range) (h : bld.Filling) : (pushed.foldl pushBack bld).Filling ∧
    (pushed.foldl pushBack bld).built = pushed.foldl RangeVector.pushBack bld.built := by
  induction pushed generalizing bld with
  | nil => exact ⟨h, rfl⟩
  | cons r pushed ih =>
    obtain ⟨h1, h2⟩ := ih (filling_pushBack h)
    exact ⟨h1, h2.trans (by rw [built_pushBack h]; rfl)⟩

theorem counted_foldl (h : bld.Counted) (hr : ∀ r ∈ pushed, r.1 < r.2)
    (hm : bld.made = n - bld.filled.length)
    (ho : (∀ r ∈ pushed, r.2 = r.1 + 1) ∨ (pushed.foldl pushBack bld).filled.length ≤ n) :
    (pushed.foldl pushBack bld).Counted := by
  induction pushed generalizing bld with
  | nil => exact h
  | cons r pushed ih =>
    rw [List.forall_mem_cons] at hr ho
    refine ih (counted_pushBack h hr.1 hm ?_) hr.2 (made_pushBack hm) (ho.imp_left And.right)
    exact ho.imp And.left length_filled_foldl.trans

theorem length_built (h : bld.Filling) :
    bld.built.length = bld.filled.length * maxSize + bld.data.length := by
  have hfull := h.full
  rw [built, List.length_append, rangesBefore, List.length_reverse, ranges, List.length_flatMap,
    List.map_reverse, List.sum_reverse, add_comm]
  congr 1
  generalize bld.filled = filled at hfull
  induction filled with
  | nil => simp
  | cons c filled ih =>
    rw [List.forall_mem_cons] at hfull
    rw [List.map_cons, List.sum_cons, ih hfull.2, hfull.1, List.length_cons, Nat.succ_mul, add_comm]

theorem ranges_finalize (h : bld.Filling) : ranges bld.finalize = bld.built.reverse := by
  unfold finalize
  split_ifs with hd
  · rw [h.first hd, built, hd, h.first hd]
    rfl
  · rw [built, List.reverse_append, reverse_rangesBefore, List.reverse_cons, ranges_append]
    simp

/-- A chunk made is neither empty nor too long. -/
theorem fits_finalize (h : bld.Filling) :
    ∀ c ∈ bld.finalize, c.data ≠ [] ∧ c.data.length ≤ maxSize := by
  have hfilled : ∀ c ∈ bld.filled, c.data ≠ [] ∧ c.data.length ≤ maxSize := fun c hc => by
    rw [← List.length_pos_iff, h.full c hc]
    exact ⟨by decide, le_rfl⟩
  unfold finalize
  split_ifs with hd <;> simp only [List.mem_reverse]
  · exact hfilled
  · refine List.forall_mem_cons.2 ⟨⟨?_, ?_⟩, hfilled⟩
    · simpa using hd
    · rw [List.length_reverse]
      exact h.fits

theorem counted_finalize (h : bld.Counted) : ∀ c ∈ bld.finalize, c.count = size c.data := by
  unfold finalize
  split_ifs with hd <;> simp only [List.mem_reverse]
  · exact h.filled
  · exact List.forall_mem_cons.2 ⟨by rw [size_reverse, h.data hd], h.filled⟩

theorem filling_start (expected : List Chunk) : (start expected).Filling := by
  refine ⟨?_, ?_, fun _ => rfl⟩ <;> simp [start]

theorem counted_start (expected : List Chunk) : (start expected).Counted := by
  refine ⟨?_, ?_, ?_⟩ <;> simp [start]

end Builder

theorem ranges_build : ranges (build ds pushed) = RangeVector.build pushed := by
  obtain ⟨h1, h2⟩ := Builder.foldl_spec pushed (Builder.filling_start ds)
  rw [build, Builder.ranges_finalize h1, h2]
  rfl

theorem fits_build : ∀ c ∈ build ds pushed, c.data ≠ [] ∧ c.data.length ≤ maxSize :=
  Builder.fits_finalize (Builder.foldl_spec pushed (Builder.filling_start ds)).1

/-- Single indices are counted right, and so are ranges in chunks no more than were made. -/
theorem counted_build (hr : ∀ r ∈ pushed, r.1 < r.2)
    (ho : (∀ r ∈ pushed, r.2 = r.1 + 1) ∨ (RangeVector.build pushed).length ≤ maxSize) :
    ∀ c ∈ build ds pushed, c.count = size c.data := by
  refine Builder.counted_finalize (Builder.counted_foldl (Builder.counted_start ds) hr
    (Nat.sub_zero _).symm (ho.imp_right fun hlen => ?_))
  obtain ⟨h1, h2⟩ := Builder.foldl_spec pushed (Builder.filling_start ds)
  have hbuilt := Builder.length_built h1
  have hlen' : (pushed.foldl Builder.pushBack (.start ds)).built.length ≤ maxSize := by
    rw [RangeVector.build, List.length_reverse] at hlen
    rw [h2]
    exact hlen
  have hfirst := h1.first
  rw [← List.length_eq_zero_iff, ← List.length_eq_zero_iff] at hfirst
  rw [Iterator.maxSize_eq] at hbuilt hlen'
  omega

theorem sound_buildIndexes {indexes : List ℕ} : ∀ c ∈ buildIndexes ds indexes, Sound c := by
  have hone : ∀ r ∈ indexes.map fun i => (i, i + 1), r.2 = r.1 + 1 :=
    List.forall_mem_map.2 fun _ _ => rfl
  intro c hc
  obtain ⟨h1, h2⟩ := fits_build c hc
  exact ⟨h1, h2, counted_build (fun r hr => by rw [hone r hr]; exact Nat.lt_succ_self _)
    (.inl hone) c hc⟩

theorem ranges_buildIndexes {indexes : List ℕ} :
    ranges (buildIndexes ds indexes) = RangeVector.buildIndexes indexes := ranges_build

/-! ## Another set's indices -/

theorem ranges_eq_nil (h : ∀ c ∈ cs, Sound c) : ranges cs = [] ↔ cs = [] := by
  rcases cs with _ | ⟨c, cs⟩
  · exact iff_of_true rfl rfl
  · refine iff_of_false (fun he => (h c List.mem_cons_self).nonempty ?_) (List.cons_ne_nil c cs)
    exact (List.append_eq_nil_iff.1 he).1

theorem insertAtRanges_spec (h : ∀ c ∈ cs, Sound c) (hd : ∀ c ∈ ds, Sound c) :
    (∀ c ∈ insertAtRanges ds cs, Sound c)
      ∧ ranges (insertAtRanges ds cs) = RangeVector.insertAtRanges (ranges ds) (ranges cs) := by
  unfold insertAtRanges RangeVector.insertAtRanges
  simp only [ranges_eq_nil h, ranges_eq_nil hd]
  split_ifs
  · exact ⟨h, rfl⟩
  · exact ⟨hd, rfl⟩
  · exact ⟨sound_buildIndexes, ranges_buildIndexes⟩

theorem shiftForInsertAtRanges_spec (h : ∀ c ∈ cs, Sound c) :
    (∀ c ∈ shiftForInsertAtRanges ds cs, Sound c) ∧ ranges (shiftForInsertAtRanges ds cs)
      = RangeVector.shiftForInsertAtRanges (ranges ds) (ranges cs) := by
  unfold shiftForInsertAtRanges RangeVector.shiftForInsertAtRanges
  rcases (ranges ds).head? with _ | first
  · exact ⟨h, rfl⟩
  · rcases (ranges cs).getLast? with _ | last
    · exact ⟨h, rfl⟩
    · simp only []
      split_ifs
      · exact ⟨h, rfl⟩
      · exact ⟨sound_buildIndexes, ranges_buildIndexes⟩

theorem eraseAtRanges_spec (h : ∀ c ∈ cs, Sound c) (hd : ∀ c ∈ ds, Sound c) :
    (∀ c ∈ eraseAtRanges ds cs, Sound c)
      ∧ ranges (eraseAtRanges ds cs) = RangeVector.eraseAtRanges (ranges ds) (ranges cs) := by
  unfold eraseAtRanges RangeVector.eraseAtRanges
  simp only [ranges_eq_nil h, ranges_eq_nil hd]
  split_ifs
  · exact ⟨h, rfl⟩
  · exact ⟨sound_buildIndexes, ranges_buildIndexes⟩

variable {es : List Chunk}

theorem ranges_addShiftedBy (h : ∀ c ∈ es, Sound c) : ranges (addShiftedBy ds es cs)
    = RangeVector.addShiftedBy (ranges ds) (ranges es) (ranges cs) := by
  unfold addShiftedBy RangeVector.addShiftedBy
  simp only [ranges_eq_nil h]
  split_ifs
  · rfl
  · exact ranges_build

theorem fits_addShiftedBy (h : ∀ c ∈ cs, Sound c) :
    ∀ c ∈ addShiftedBy ds es cs, c.data ≠ [] ∧ c.data.length ≤ maxSize := by
  unfold addShiftedBy
  split_ifs
  · exact fun c hc => ⟨(h c hc).nonempty, (h c hc).fits⟩
  · exact fits_build

/-- What is left of the set is pushed in ranges, which are counted right if they all fit a chunk. -/
theorem counted_addShiftedBy (h : Intact cs) (hd : Valid (ranges ds)) (he : Valid (ranges es))
    (hlen : (ranges (addShiftedBy ds es cs)).length ≤ maxSize) :
    ∀ c ∈ addShiftedBy ds es cs, c.count = size c.data := by
  unfold addShiftedBy at hlen ⊢
  split_ifs at hlen ⊢ with hnil
  · exact fun c hc => (h.sound c hc).counted
  · rw [ranges_build] at hlen
    refine counted_build (RangeVector.addShiftedByLoop_spec 0 (RangeVector.asIndexes_pairwise he)
      h.valid hd (fun r _ => Nat.zero_le _) (le_refl 0)).nonempty (.inr hlen)

/-- Each range has an index and the one after it left out. -/
theorem length_le_of_valid {n : ℕ} : ∀ {data : List Range} {m : ℕ}, Valid data → m ≤ n + 1 →
    (∀ r ∈ data, m ≤ r.1 ∧ r.2 ≤ n) → m + 2 * data.length ≤ n + 1
  | [], m, _, hm, _ => hm
  | r :: data, m, hv, _, h => by
    obtain ⟨hr, hdata, hv⟩ := RangeVector.valid_cons.1 hv
    rw [List.forall_mem_cons] at h
    have hi := length_le_of_valid hv (Nat.succ_le_succ h.1.2) fun s hs => ⟨hdata s hs, (h.2 s hs).2⟩
    rw [List.length_cons]
    omega

end ChunkedRangeVector

end IosLearning
