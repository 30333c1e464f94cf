import IosLearning.Proofs.ChunkedBuild

/-!
# Index sets

A set of indices kept as ranges in chunks, which are as `verify` asserts. What the source asserts
of a count is an argument here; each operation is followed by what it does to the set (`toFinset`),
in terms of `shift` and `unshift`.
-/

namespace IosLearning

open RangeVector (Range Valid Covers)
open ChunkedRangeVector (Sound Intact)

/-- Ranges in order, none empty and none touching the next, in chunks that say how many indices
they have. -/
structure IndexSet where
  chunks : List Chunk
  intact : Intact chunks

namespace IndexSet

variable {s t p : IndexSet} {index len i : ℕ} {rs : List Range}

def ranges (s : IndexSet) : List Range := ChunkedRangeVector.ranges s.chunks

theorem valid (s : IndexSet) : Valid s.ranges := s.intact.valid

/-- The indices in the set. -/
def toFinset (s : IndexSet) : Finset ℕ := RangeVector.toFinset s.ranges

/-- The indices in order. -/
def asIndexes (s : IndexSet) : List ℕ := RangeVector.asIndexes s.ranges

theorem mem_toFinset : i ∈ s.toFinset ↔ Covers s.ranges i := RangeVector.mem_toFinset

theorem mem_asIndexes : i ∈ s.asIndexes ↔ i ∈ s.toFinset := by
  rw [asIndexes, RangeVector.mem_asIndexes, mem_toFinset]

theorem asIndexes_pairwise (s : IndexSet) : s.asIndexes.Pairwise (· < ·) :=
  RangeVector.asIndexes_pairwise s.valid

/-- What a set built by the ranges' operations holds. -/
theorem toFinset_eq {f : Finset ℕ} (hr : s.ranges = rs) (h : ∀ i, Covers rs i ↔ i ∈ f) :
    s.toFinset = f :=
  Finset.ext fun i => by rw [mem_toFinset, hr, h]

/-! ## The empty set -/

def clear : IndexSet := ⟨[], ⟨by simp, RangeVector.valid_nil⟩⟩

instance : EmptyCollection IndexSet := ⟨clear⟩

def isEmpty (s : IndexSet) : Bool := s.chunks.isEmpty

@[simp] theorem toFinset_empty : (∅ : IndexSet).toFinset = ∅ := rfl

theorem isEmpty_iff : s.isEmpty = true ↔ s = ∅ := by
  obtain ⟨_ | ⟨c, cs⟩, h⟩ := s
  · exact iff_of_true rfl rfl
  · refine iff_of_false (by simp [isEmpty]) fun he => ?_
    simp only [EmptyCollection.emptyCollection, clear, mk.injEq, reduceCtorEq] at he

theorem toFinset_eq_empty : s.toFinset = ∅ ↔ s = ∅ := by
  refine ⟨fun h => ?_, fun h => h ▸ rfl⟩
  rw [← isEmpty_iff, isEmpty, List.isEmpty_iff, ← ChunkedRangeVector.ranges_eq_nil s.intact.sound,
    List.eq_nil_iff_forall_not_mem]
  intro r hr
  have hmem : r.1 ∈ s.toFinset := mem_toFinset.2 ⟨r, hr, le_rfl, s.valid.nonempty r hr⟩
  exact Finset.notMem_empty _ (h ▸ hmem)

theorem isEmpty_iff_toFinset : s.isEmpty = true ↔ s.toFinset = ∅ :=
  isEmpty_iff.trans toFinset_eq_empty.symm

/-! ## One index -/

def contains (s : IndexSet) (index : ℕ) : Bool := ChunkedRangeVector.contains index s.chunks

theorem contains_iff : s.contains index = true ↔ index ∈ s.toFinset := by
  rw [contains, ChunkedRangeVector.contains_eq s.valid, mem_toFinset]
  exact RangeVector.contains_iff s.valid

def add (s : IndexSet) (index : ℕ) : IndexSet :=
  ⟨ChunkedRangeVector.add index s.chunks,
    .of (ChunkedRangeVector.add_spec s.intact) (RangeVector.add_spec s.valid).1⟩

@[simp] theorem toFinset_add : (s.add index).toFinset = insert index s.toFinset :=
  toFinset_eq (ChunkedRangeVector.add_spec s.intact).2 fun i => by
    rw [Finset.mem_insert, mem_toFinset]
    exact (RangeVector.add_spec s.valid).2 i

def addShifted (s : IndexSet) (index : ℕ) : ℕ × IndexSet :=
  let added := ChunkedRangeVector.addShifted index s.chunks
  have h := ChunkedRangeVector.addShifted_spec index s.intact
  (added.1, ⟨added.2, .of ⟨h.1, (Prod.mk.inj h.2).2⟩ (RangeVector.addShifted_spec index s.valid).2.1⟩)

theorem addShifted_fst : (s.addShifted index).1 = IosLearning.shift s.toFinset index :=
  (Prod.mk.inj (ChunkedRangeVector.addShifted_spec index s.intact).2).1.trans
    (RangeVector.addShifted_spec index s.valid).1

@[simp] theorem toFinset_addShifted : (s.addShifted index).2.toFinset
    = insert (IosLearning.shift s.toFinset index) s.toFinset :=
  toFinset_eq (Prod.mk.inj (ChunkedRangeVector.addShifted_spec index s.intact).2).2 fun i => by
    rw [Finset.mem_insert, mem_toFinset]
    exact (RangeVector.addShifted_spec index s.valid).2.2 i

def eraseAt (s : IndexSet) (index : ℕ) : IndexSet :=
  ⟨ChunkedRangeVector.eraseAt index s.chunks,
    .of (ChunkedRangeVector.eraseAt_spec s.intact) (RangeVector.eraseAt_spec s.valid).1⟩

@[simp] theorem toFinset_eraseAt : (s.eraseAt index).toFinset = close {index} s.toFinset :=
  toFinset_eq (ChunkedRangeVector.eraseAt_spec s.intact).2 fun i => by
    rw [mem_close, shift_singleton, mem_toFinset]
    exact (RangeVector.eraseAt_spec s.valid).2 i

/-- `npos` is `none`. -/
def eraseOrUnshift (s : IndexSet) (index : ℕ) : Option ℕ × IndexSet :=
  let erased := ChunkedRangeVector.eraseOrUnshift index s.chunks
  have h : erased = (_, (s.eraseAt index).chunks) :=
    ChunkedRangeVector.eraseOrUnshift_spec index s.intact
  (erased.1, ⟨erased.2, h ▸ (s.eraseAt index).intact⟩)

theorem eraseOrUnshift_eq : s.eraseOrUnshift index
    = (if s.contains index then none else some (IosLearning.unshift s.toFinset index),
      s.eraseAt index) := by
  have h := ChunkedRangeVector.eraseOrUnshift_spec index s.intact
  simp only [eraseOrUnshift, h]
  rfl

/-! ## Indices in a row -/

/-- The indices before the length. -/
def set (len : ℕ) : IndexSet :=
  if h : 0 < len then
    ⟨[⟨[(0, len)], len⟩], by simpa using ⟨by simp, by simp [ChunkedRangeVector.Iterator.maxSize_eq],
      by simp⟩, RangeVector.valid_cons.2 ⟨h, by simp, RangeVector.valid_nil⟩⟩
  else ∅

@[simp] theorem toFinset_set (len : ℕ) : (set len).toFinset = Finset.range len := by
  unfold set
  split_ifs with h
  · exact @toFinset_eq _ [(0, len)] _ rfl fun i => by simp
  · rw [Nat.eq_zero_of_not_pos h, toFinset_empty, Finset.range_zero]

def insertAt (s : IndexSet) (index len : ℕ) : IndexSet :=
  ⟨ChunkedRangeVector.insertAt index len s.chunks,
    .of (ChunkedRangeVector.insertAt_spec s.intact) (RangeVector.insertAt_spec s.valid).1⟩

theorem unshift_Ico_of_notMem (h : i ∉ Finset.Ico index (index + len)) :
    IosLearning.unshift (Finset.Ico index (index + len)) i
      = if i < index then i else i - len := by
  rw [Finset.mem_Ico] at h
  rw [unshift_Ico]
  split_ifs <;> omega

@[simp] theorem toFinset_insertAt : (s.insertAt index len).toFinset
    = Finset.Ico index (index + len) ∪ spread (Finset.Ico index (index + len)) s.toFinset :=
  toFinset_eq (ChunkedRangeVector.insertAt_spec s.intact).2 fun i => by
    have hs := (@RangeVector.insertAt_spec _ index len s.valid).2 i
    rw [Finset.mem_union, mem_spread]
    refine hs.trans ?_
    rw [← Finset.mem_Ico]
    by_cases h : i ∈ Finset.Ico index (index + len)
    · exact iff_of_true (.inl h) (.inl h)
    · rw [unshift_Ico_of_notMem h, and_iff_right h, mem_toFinset]

def shiftForInsertAt (s : IndexSet) (index len : ℕ) (h : 0 < len) : IndexSet :=
  ⟨ChunkedRangeVector.shiftForInsertAt index len s.chunks,
    .of (ChunkedRangeVector.shiftForInsertAt_spec s.intact)
      (RangeVector.shiftForInsertAt_spec s.valid h).1⟩

@[simp] theorem toFinset_shiftForInsertAt (h : 0 < len) :
    (s.shiftForInsertAt index len h).toFinset
      = spread (Finset.Ico index (index + len)) s.toFinset :=
  toFinset_eq (ChunkedRangeVector.shiftForInsertAt_spec s.intact).2 fun i => by
    rw [mem_spread]
    refine ((RangeVector.shiftForInsertAt_spec s.valid h).2 i).trans ?_
    rw [← Finset.mem_Ico]
    exact and_congr_right fun hi => by rw [unshift_Ico_of_notMem hi, mem_toFinset]

def remove (s : IndexSet) (index len : ℕ) (h : 0 < len) : IndexSet :=
  ⟨ChunkedRangeVector.remove index len s.chunks,
    .of (ChunkedRangeVector.remove_spec s.intact h) (RangeVector.remove_spec s.valid h).1⟩

@[simp] theorem toFinset_remove (h : 0 < len) :
    (s.remove index len h).toFinset = s.toFinset \ Finset.Ico index (index + len) :=
  toFinset_eq (ChunkedRangeVector.remove_spec s.intact h).2 fun i => by
    rw [Finset.mem_sdiff, Finset.mem_Ico, mem_toFinset]
    exact (RangeVector.remove_spec s.valid h).2 i

/-! ## Another set -/

def addAll (s p : IndexSet) : IndexSet :=
  ⟨ChunkedRangeVector.addRanges p.chunks s.chunks,
    .of (ChunkedRangeVector.addRanges_spec s.intact p.valid)
      (RangeVector.addRanges_spec s.valid p.valid).1⟩

@[simp] theorem toFinset_addAll : (s.addAll p).toFinset = p.toFinset ∪ s.toFinset :=
  toFinset_eq (ChunkedRangeVector.addRanges_spec s.intact p.valid).2 fun i => by
    rw [Finset.mem_union, mem_toFinset, mem_toFinset]
    exact (RangeVector.addRanges_spec s.valid p.valid).2 i

/-- None where a chunk would say that it has other than its indices: `verify` refuses that, and a
release build goes on with it. -/
def addShiftedBy (s shiftedBy values : IndexSet) : Option IndexSet :=
  let built := ChunkedRangeVector.addShiftedBy shiftedBy.chunks values.chunks s.chunks
  if h : ∀ c ∈ built, c.count = ChunkedRangeVector.size c.data then
    some ⟨built, fun c hc =>
      have hf := ChunkedRangeVector.fits_addShiftedBy s.intact.sound c hc
      ⟨hf.1, hf.2, h c hc⟩, by
        rw [ChunkedRangeVector.ranges_addShiftedBy values.intact.sound]
        exact (RangeVector.addShiftedBy_spec s.valid shiftedBy.valid values.valid).1⟩
  else none

theorem covers_addShiftedBy : Covers (RangeVector.addShiftedBy t.ranges p.ranges s.ranges) i
    ↔ i ∈ s.toFinset ∪ spread s.toFinset (close t.toFinset p.toFinset) := by
  rw [(RangeVector.addShiftedBy_spec s.valid t.valid p.valid).2]
  simp only [Finset.mem_union, spread, close, Finset.image_image, Finset.mem_image,
    Finset.mem_sdiff, mem_toFinset, and_assoc]
  rfl

theorem toFinset_addShiftedBy {r : IndexSet} (h : s.addShiftedBy t p = some r) :
    r.toFinset = s.toFinset ∪ spread s.toFinset (close t.toFinset p.toFinset) := by
  unfold addShiftedBy at h
  simp only [] at h
  split_ifs at h with hc
  obtain rfl := Option.some_inj.1 h
  exact toFinset_eq (ChunkedRangeVector.ranges_addShiftedBy p.intact.sound)
    fun i => covers_addShiftedBy

/-- Of so few indices all ranges fit a chunk. -/
theorem exists_addShiftedBy {n : ℕ} (hn : n < 2 * ChunkedRangeVector.maxSize)
    (h : s.toFinset ∪ spread s.toFinset (close t.toFinset p.toFinset) ⊆ Finset.range n) :
    ∃ r, s.addShiftedBy t p = some r := by
  have hranges : ChunkedRangeVector.ranges
      (ChunkedRangeVector.addShiftedBy t.chunks p.chunks s.chunks)
      = RangeVector.addShiftedBy t.ranges p.ranges s.ranges :=
    ChunkedRangeVector.ranges_addShiftedBy p.intact.sound
  have hv := (RangeVector.addShiftedBy_spec s.valid t.valid p.valid).1
  have hlast : ∀ r ∈ RangeVector.addShiftedBy t.ranges p.ranges s.ranges, 0 ≤ r.1 ∧ r.2 ≤ n :=
    fun r hr => by
      have hlt := hv.nonempty r hr
      have hmem := h (covers_addShiftedBy.1 ⟨r, hr, Nat.le_sub_one_of_lt hlt, by omega⟩)
      rw [Finset.mem_range] at hmem
      omega
  have hlen := ChunkedRangeVector.length_le_of_valid hv (Nat.zero_le (n + 1)) hlast
  refine ⟨_, dif_pos (ChunkedRangeVector.counted_addShiftedBy s.intact t.valid p.valid ?_)⟩
  rw [hranges]
  omega

def insertAtAll (s p : IndexSet) : IndexSet :=
  ⟨ChunkedRangeVector.insertAtRanges p.chunks s.chunks,
    .of (ChunkedRangeVector.insertAtRanges_spec s.intact.sound p.intact.sound)
      (RangeVector.insertAtRanges_spec s.valid p.valid).1⟩

@[simp] theorem toFinset_insertAtAll :
    (s.insertAtAll p).toFinset = p.toFinset ∪ spread p.toFinset s.toFinset :=
  toFinset_eq (ChunkedRangeVector.insertAtRanges_spec s.intact.sound p.intact.sound).2 fun i => by
    refine ((RangeVector.insertAtRanges_spec s.valid p.valid).2 i).trans ?_
    simp only [Finset.mem_union, spread, Finset.mem_image, mem_toFinset]
    rfl

def shiftForInsertAtAll (s p : IndexSet) : IndexSet :=
  ⟨ChunkedRangeVector.shiftForInsertAtRanges p.chunks s.chunks,
    .of (ChunkedRangeVector.shiftForInsertAtRanges_spec s.intact.sound)
      (RangeVector.shiftForInsertAtRanges_spec s.valid p.valid).1⟩

@[simp] theorem toFinset_shiftForInsertAtAll :
    (s.shiftForInsertAtAll p).toFinset = spread p.toFinset s.toFinset :=
  toFinset_eq (ChunkedRangeVector.shiftForInsertAtRanges_spec s.intact.sound).2 fun i => by
    refine ((RangeVector.shiftForInsertAtRanges_spec s.valid p.valid).2 i).trans ?_
    simp only [spread, Finset.mem_image, mem_toFinset]
    rfl

def eraseAtAll (s p : IndexSet) : IndexSet :=
  ⟨ChunkedRangeVector.eraseAtRanges p.chunks s.chunks,
    .of (ChunkedRangeVector.eraseAtRanges_spec s.intact.sound p.intact.sound)
      (RangeVector.eraseAtRanges_spec s.valid p.valid).1⟩

@[simp] theorem toFinset_eraseAtAll :
    (s.eraseAtAll p).toFinset = close p.toFinset s.toFinset :=
  toFinset_eq (ChunkedRangeVector.eraseAtRanges_spec s.intact.sound p.intact.sound).2 fun i => by
    rw [mem_close, mem_toFinset]
    exact (RangeVector.eraseAtRanges_spec s.valid p.valid).2 i

def removeAll (s p : IndexSet) : IndexSet :=
  ⟨ChunkedRangeVector.removeRanges p.chunks s.chunks,
    .of (ChunkedRangeVector.removeRanges_spec s.intact p.valid)
      (RangeVector.removeRanges_spec s.valid p.valid).1⟩

@[simp] theorem toFinset_removeAll : (s.removeAll p).toFinset = s.toFinset \ p.toFinset :=
  toFinset_eq (ChunkedRangeVector.removeRanges_spec s.intact p.valid).2 fun i => by
    rw [Finset.mem_sdiff, mem_toFinset, mem_toFinset]
    exact (RangeVector.removeRanges_spec s.valid p.valid).2 i

/-! ## Counting and shifting -/

def count (s : IndexSet) (start stop : ℕ) : ℕ := ChunkedRangeVector.count start stop s.chunks

theorem count_zero (stop : ℕ) : s.count 0 stop = (s.toFinset.filter (· < stop)).card := by
  have h := RangeVector.count_eq 0 stop s.valid
  simp only [Nat.zero_le, true_and] at h
  exact (ChunkedRangeVector.count_zero s.intact).trans h

theorem sub_count_zero (index : ℕ) :
    index - s.count 0 index = IosLearning.unshift s.toFinset index := by
  have h := unshift_add_card s.toFinset index
  rw [count_zero]
  omega

def size (s : IndexSet) : ℕ := RangeVector.size s.ranges

theorem size_eq : s.size = s.toFinset.card := RangeVector.size_eq s.valid

def shift (s : IndexSet) (index : ℕ) : ℕ := RangeVector.shift s.ranges index

@[simp] theorem shift_eq : s.shift index = IosLearning.shift s.toFinset index :=
  RangeVector.shift_eq s.valid

def unshift (s : IndexSet) (index : ℕ) : ℕ := ChunkedRangeVector.unshift s.chunks index

@[simp] theorem unshift_eq : s.unshift index = IosLearning.unshift s.toFinset index :=
  ChunkedRangeVector.unshift_eq s.intact

end IndexSet

end IosLearning
