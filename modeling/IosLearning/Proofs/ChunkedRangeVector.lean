import IosLearning.Proofs.ChunkedIterator
import IosLearning.Proofs.RangeShift

/-!
# What the chunks leave of an operation

Each operation does to the ranges what `RangeVector`'s does, whatever the chunks they are kept in,
and leaves the chunks sound.
-/

namespace IosLearning

open RangeVector (Range Position Valid)

namespace ChunkedRangeVector

variable {cb ca cs ds : List Chunk} {b a data : List Range} {q r s : Range} {n : ℤ}
  {it : Iterator} {index : ℕ}

/-! ## Finding an index -/

theorem le_stop : ∀ {data : List Range}, Valid data → ∀ r ∈ data, r.2 ≤ stop data
  | [], _, r, hr => absurd hr List.not_mem_nil
  | [q], _, r, hr => by
    obtain rfl := List.mem_singleton.1 hr
    exact le_rfl
  | q :: s :: data, hv, r, hr => by
    obtain ⟨-, hq, hdata⟩ := RangeVector.valid_cons.1 hv
    have hs := le_stop hdata
    rcases List.mem_cons.1 hr with rfl | hr
    · have h1 := hq s List.mem_cons_self
      have h2 := hdata.nonempty s List.mem_cons_self
      exact (h1.trans h2).le.trans (hs s List.mem_cons_self)
    · exact hs r hr

theorem exists_of_lt_stop (h : index < stop data) : ∃ r ∈ data, index < r.2 := by
  unfold stop at h
  rcases hl : data.getLast? with _ | r <;> rw [hl] at h
  · exact absurd h (Nat.not_lt_zero index)
  · exact ⟨r, List.mem_of_getLast? hl, h⟩

theorem findFrom_append (h : ∀ r ∈ a, r.2 ≤ index) :
    RangeVector.findFrom index b (a ++ data) = RangeVector.findFrom index (a.reverse ++ b) data := by
  induction a generalizing b with
  | nil => rfl
  | cons r a ih =>
    rw [List.forall_mem_cons] at h
    rw [List.cons_append, RangeVector.findFrom, if_pos h.1, ih h.2]
    simp

theorem chunks_findRange : ∀ {b a : List Range},
    (findRange index cb n ca b a).chunks = cb.reverse ++ ⟨b.reverse ++ a, n⟩ :: ca
  | b, [] => by simp [findRange]
  | b, r :: a => by
    unfold findRange
    split_ifs
    · rw [chunks_findRange, List.reverse_cons, List.append_assoc, List.singleton_append]
    · rfl

theorem position_findRange : ∀ {b a : List Range}, (∃ r ∈ a, index < r.2) →
    (findRange index cb n ca b a).position
      = RangeVector.findFrom index (b ++ rangesBefore cb) (a ++ ranges ca)
  | b, [], h => by simp at h
  | b, r :: a, h => by
    rw [findRange, List.cons_append, RangeVector.findFrom]
    split_ifs with hr
    · refine position_findRange ?_
      obtain ⟨s, hs, hlt⟩ := h
      rcases List.mem_cons.1 hs with rfl | hs
      · exact absurd hr (not_le.2 hlt)
      · exact ⟨s, hs, hlt⟩
    · rfl

theorem chunks_findChunk : ∀ {cb cs : List Chunk},
    (findChunk index cb cs).chunks = cb.reverse ++ cs
  | cb, [] => by simp [findChunk, Iterator.chunks]
  | cb, c :: cs => by
    unfold findChunk
    split_ifs
    · rw [chunks_findChunk, List.reverse_cons, List.append_assoc, List.singleton_append]
    · rw [chunks_findRange]
      rfl

theorem position_findChunk : ∀ {cb cs : List Chunk}, Valid (ranges cs) →
    (findChunk index cb cs).position = RangeVector.findFrom index (rangesBefore cb) (ranges cs)
  | cb, [], _ => rfl
  | cb, c :: cs, hv => by
    obtain ⟨hc, hv, -⟩ := RangeVector.valid_append.1 hv
    unfold findChunk
    split_ifs with h
    · rw [position_findChunk hv, rangesBefore_cons, ranges_cons,
        findFrom_append fun r hr => (le_stop hc r hr).trans h]
    · exact position_findRange (exists_of_lt_stop (not_le.1 h))

@[simp] theorem Iterator.chunks_find (it : Iterator) : (it.find index).chunks = it.chunks := by
  cases it with
  | inside =>
    simp only [find]
    split_ifs
    · rw [chunks_findChunk]
      simp [chunks]
    · exact chunks_findRange
    · exact chunks_findRange
  | past => rfl

theorem Iterator.position_find (index : ℕ) (hv : Valid it.position.after)
    (hb : ∀ q ∈ it.position.before, q.1 ≤ index) :
    (it.find index).position = it.position.find index := by
  cases it with
  | inside cb b r a n ca =>
    obtain ⟨hc, hca, -⟩ := RangeVector.valid_append.1 hv
    have hfirst : ¬ (b.getLast?.any fun first => index < first.1) = true := fun h => by
      obtain ⟨first, hlast, hlt⟩ := (Option.any_eq_true _ _).1 h
      have hmem : first ∈ b ++ rangesBefore cb :=
        List.mem_append_left _ (List.mem_of_getLast? hlast)
      exact (hb first hmem).not_gt (of_decide_eq_true hlt)
    simp only [find, Position.find, if_neg hfirst]
    split_ifs with h
    · rw [position_findChunk hca, rangesBefore_cons]
      simp only [position]
      rw [findFrom_append fun s hs => (le_stop hc s hs).trans h]
      simp
    · exact position_findRange (exists_of_lt_stop (not_le.1 h))
  | past => rfl

@[simp] theorem chunks_find : (find index cs).chunks = cs := chunks_findChunk

theorem position_find (index : ℕ) (hv : Valid (ranges cs)) :
    (find index cs).position = RangeVector.find index (ranges cs) := position_findChunk hv

theorem contains_eq (hv : Valid (ranges cs)) :
    contains index cs = RangeVector.contains index (ranges cs) := by
  rw [contains, range?_eq, position_find index hv, RangeVector.contains]
  rcases (RangeVector.find index (ranges cs)).after with _ | ⟨r, a⟩ <;> rfl

@[simp] theorem chunks_begin : (begin cs).chunks = cs := by
  simp [begin]

@[simp] theorem position_begin : (begin cs).position = RangeVector.begin (ranges cs) :=
  position_enter

/-! ## One index -/

namespace Iterator

theorem Sound.congr {it' : Iterator} (h : it.Sound) (hc : it'.chunks = it.chunks) :
    it'.Sound := by
  unfold Sound
  rw [hc]
  exact h

/-- The range before joined to the iterator's. -/
theorem joined_spec {prev : Iterator} (h : prev.Sound) (hq : q.1 ≤ q.2)
    (hp : prev.position = ⟨b, q :: r :: a⟩) :
    (prev.adjust 0 (r.2 - r.1 : ℕ)).next.erase.position
        = ⟨(q.1, q.2 + (r.2 - r.1)) :: b, a⟩ ∧
      (prev.adjust 0 (r.2 - r.1 : ℕ)).next.erase.Sound := by
  have ha : (prev.adjust 0 (r.2 - r.1 : ℕ)).position = ⟨b, (q.1, q.2 + (r.2 - r.1)) :: r :: a⟩ := by
    rw [position_adjust (congrArg Position.after hp), hp]
    simp only [Position.mk.injEq, List.cons.injEq, Prod.mk.injEq, true_and, and_true]
    omega
  have hs : (prev.adjust 0 (r.2 - r.1 : ℕ)).Sound := by
    refine sound_adjust h fun s hs => ?_
    rw [range?_eq, hp] at hs
    obtain rfl := Option.some.inj hs
    omega
  refine ⟨?_, sound_erase (hs.congr (chunks_next _))⟩
  rw [position_erase (by rw [position_next, ha]; rfl), position_next, ha]
  rfl

/-- An index put in at its place, joined to the range after it if it comes right before that. -/
theorem doAdd_insert (index : ℕ) (h : it.Sound) (hv : ∀ r ∈ it.position.ranges, r.1 < r.2) :
    let insert := if it.range?.any fun r => r.1 = index + 1 then it.adjust (-1) 0
      else it.insert (index, index + 1)
    insert.Sound ∧ insert.position = ⟨it.position.before,
      match it.position.after with
      | r :: after => if r.1 = index + 1 then (r.1 - 1, r.2) :: after
        else (index, index + 1) :: r :: after
      | [] => [(index, index + 1)]⟩ := by
  simp only [range?_eq]
  rcases ha : it.position.after with _ | ⟨r, a⟩
  · exact ⟨sound_insert h, by simp [position_insert, ha]⟩
  · simp only [List.head?_cons, Option.any_some, decide_eq_true_eq]
    split_ifs with hr
    · have hlt : r.1 < r.2 := hv r (by simp [Position.ranges, ha])
      refine ⟨sound_adjust h fun s hs => ?_, ?_⟩
      · rw [range?_eq, ha] at hs
        obtain rfl := Option.some.inj hs
        omega
      · rw [position_adjust ha]
        simp only [Position.mk.injEq, List.cons.injEq, Prod.mk.injEq, true_and, and_true]
        omega
    · exact ⟨sound_insert h, by rw [position_insert, ha]⟩

theorem grown_spec {prev : Iterator} (h : prev.Sound) (hq : q.1 < q.2)
    (hp : prev.position = ⟨b, q :: a⟩) : (prev.adjust 0 1).Sound
      ∧ (prev.adjust 0 1).position = ⟨b, (q.1, q.2 + 1) :: a⟩ := by
  refine ⟨sound_adjust h fun s hs => ?_, ?_⟩
  · rw [range?_eq, hp] at hs
    obtain rfl := Option.some.inj hs
    omega
  · rw [position_adjust (congrArg Position.after hp), hp]
    simp only [Position.mk.injEq, List.cons.injEq, Prod.mk.injEq, true_and, and_true]
    omega

theorem doAdd_spec (index : ℕ) (h : it.Sound) (hv : ∀ r ∈ it.position.ranges, r.1 < r.2) :
    (it.doAdd index).Sound ∧ (it.doAdd index).position = it.position.doAdd index := by
  have hins := doAdd_insert index h hv
  unfold doAdd
  simp only [] at hins ⊢
  generalize (if it.range?.any fun r => r.1 = index + 1 then it.adjust (-1) 0
    else it.insert (index, index + 1)) = insert at hins ⊢
  obtain ⟨hs, hp⟩ := hins
  rw [range?_eq]
  rcases hpos : it.position with ⟨before, after⟩
  rw [hpos] at hp hv
  rcases after with _ | ⟨r, a⟩ <;> rcases before with _ | ⟨q, b⟩
  · rw [prev?_eq_none (congrArg Position.before hpos)]
    exact ⟨hs, hp⟩
  · obtain ⟨prev, h1, h2, h3⟩ := prev?_eq_some (congrArg Position.before hpos)
    rw [hpos] at h3
    have hg := grown_spec (h.congr h2) (hv q (by simp [Position.ranges])) h3
    simp only [h1, range?_eq prev, h3, List.head?_nil, List.head?_cons, Option.any_none,
      Option.any_some, decide_eq_true_eq, Bool.false_eq_true, if_false, Position.doAdd]
    split_ifs with hq
    · exact hg
    · exact ⟨hs, hp⟩
  · simp only [prev?_eq_none (congrArg Position.before hpos), List.head?_cons, Option.any_some,
      decide_eq_true_eq, Position.doAdd]
    split_ifs with hin hr
    · exact ⟨h, hpos⟩
    · simpa only [hr, if_true] using And.intro hs hp
    · simpa only [hr, if_false] using And.intro hs hp
  · obtain ⟨prev, h1, h2, h3⟩ := prev?_eq_some (congrArg Position.before hpos)
    rw [hpos] at h3
    have hq1 := hv q (by simp [Position.ranges])
    have hg := grown_spec (h.congr h2) hq1 h3
    simp only [h1, range?_eq prev, h3, List.head?_cons, Option.any_some, decide_eq_true_eq,
      Position.doAdd]
    split_ifs with hin hq hr hr' hr' hr'
    · exact ⟨h, hpos⟩
    · -- the ranges on both sides are joined
      obtain ⟨j1, j2⟩ := joined_spec hg.1 (by simp only []; omega) hg.2
      obtain ⟨last, l1, l2, l3⟩ := prev?_eq_some (congrArg Position.before j1)
      rw [l1, Option.getD_some, l3, j1]
      exact ⟨j2.congr l2, rfl⟩
    · omega
    · omega
    · exact hg
    · simpa only [hr', if_true] using And.intro hs hp
    · simpa only [hr', if_false] using And.intro hs hp

/-- What is left once the ranges from an iterator on have moved forward by one. -/
theorem unshifted_spec (h : it.Sound) (hp : it.position = ⟨b, a⟩) (h0 : ∀ r ∈ a, 0 < r.1) :
    (∀ c ∈ (it.moveFrom fun r => (r.1 - 1, r.2 - 1)).chunks, ChunkedRangeVector.Sound c) ∧
      ranges (it.moveFrom fun r => (r.1 - 1, r.2 - 1)).chunks
        = b.reverse ++ RangeVector.unshifted a := by
  refine ⟨sound_moveFrom h fun r hr => ?_, ?_⟩
  · have := h0 r (by rwa [hp] at hr)
    simp only []
    omega
  · rw [← position_ranges, position_moveFrom, hp]
    rfl

theorem doErase_spec (h : it.Sound) (ha : RangeVector.At it.position index) :
    (∀ c ∈ it.doErase index, ChunkedRangeVector.Sound c) ∧
      ranges (it.doErase index) = it.position.doErase index := by
  obtain ⟨hv, -, ha⟩ := ha
  unfold doErase
  simp only [range?_eq]
  rcases hpos : it.position with ⟨before, after⟩
  rw [hpos] at hv ha
  rcases after with _ | ⟨r, a⟩
  · exact unshifted_spec h hpos (by simp)
  · obtain ⟨hvb, hva, hc⟩ := RangeVector.valid_ranges.1 hv
    obtain ⟨hr, hra, -⟩ := RangeVector.valid_cons.1 hva
    have h0 : ∀ s ∈ a, 0 < s.1 := fun s hs => Nat.zero_lt_of_lt (hra s hs)
    simp only [List.head?_cons, Position.doErase]
    split_ifs with hle hone
    · exact unshifted_spec (sound_erase h)
        (by rw [position_erase (congrArg Position.after hpos), hpos]) h0
    · have hadj : (it.adjust 0 (-1)).position = ⟨before, (r.1, r.2 - 1) :: a⟩ := by
        rw [position_adjust (congrArg Position.after hpos), hpos]
        simp only [Position.mk.injEq, List.cons.injEq, Prod.mk.injEq, true_and, and_true]
        omega
      have hs : (it.adjust 0 (-1)).Sound := sound_adjust h fun s hs => by
        rw [range?_eq, hpos] at hs
        obtain rfl := Option.some.inj hs
        omega
      have hu := unshifted_spec (b := (r.1, r.2 - 1) :: before) (hs.congr (chunks_next _))
        (by rw [position_next, hadj]; rfl) h0
      simpa using hu
    · have h0' : ∀ s ∈ r :: a, 0 < s.1 :=
        List.forall_mem_cons.2 ⟨Nat.zero_lt_of_lt (not_le.1 hle), h0⟩
      rcases before with _ | ⟨q, b⟩
      · rw [prev?_eq_none (congrArg Position.before hpos)]
        exact unshifted_spec h hpos h0'
      · obtain ⟨prev, h1, h2, h3⟩ := prev?_eq_some (congrArg Position.before hpos)
        rw [hpos] at h3
        simp only [h1, h3, List.head?_cons, Option.any_some, decide_eq_true_eq]
        split_ifs with hq
        · have hq1 := (RangeVector.validBefore_cons.1 hvb).1.le
          obtain ⟨j1, j2⟩ := joined_spec (h.congr h2) hq1 h3
          simpa using unshifted_spec j2 j1 h0
        · exact unshifted_spec h hpos h0'

end Iterator

/-- A set of ranges with sound chunks: what every operation is given, and leaves. -/
structure Intact (cs : List Chunk) : Prop where
  sound : ∀ c ∈ cs, Sound c
  valid : Valid (ranges cs)

theorem Intact.of {rs : List Range} (h : (∀ c ∈ cs, Sound c) ∧ ranges cs = rs) (hv : Valid rs) :
    Intact cs := ⟨h.1, h.2.symm ▸ hv⟩

variable {count : ℕ}

theorem Intact.find_spec (h : Intact cs) (index : ℕ) : (find index cs).Sound
    ∧ (find index cs).position = RangeVector.find index (ranges cs)
    ∧ RangeVector.At (find index cs).position index := by
  have hp := position_find index h.valid
  refine ⟨?_, hp, hp ▸ RangeVector.find_at index h.valid⟩
  unfold Iterator.Sound
  rw [chunks_find]
  exact h.sound

theorem add_spec (h : Intact cs) : (∀ c ∈ add index cs, Sound c)
    ∧ ranges (add index cs) = RangeVector.add index (ranges cs) := by
  obtain ⟨h1, h2, h3⟩ := h.find_spec index
  obtain ⟨s1, s2⟩ := Iterator.doAdd_spec index h1 h3.valid.nonempty
  refine ⟨s1, ?_⟩
  rw [add, ← position_ranges, s2, h2, RangeVector.add]

theorem eraseAt_spec (h : Intact cs) : (∀ c ∈ eraseAt index cs, Sound c)
    ∧ ranges (eraseAt index cs) = RangeVector.eraseAt index (ranges cs) := by
  obtain ⟨h1, h2, h3⟩ := h.find_spec index
  obtain ⟨s1, s2⟩ := Iterator.doErase_spec h1 h3
  exact ⟨s1, by rw [eraseAt, s2, h2, RangeVector.eraseAt]⟩

/-! ## Indices put in -/

theorem addIndexes_spec : ∀ {indexes : List ℕ} {it : Iterator}, it.Sound →
    Valid it.position.ranges → indexes.Pairwise (· < ·) →
    (∀ j ∈ indexes, ∀ r ∈ it.position.before, r.2 ≤ j) → (addIndexes it indexes).Sound
      ∧ (addIndexes it indexes).position = RangeVector.addIndexes it.position indexes
  | [], it, h, _, _, _ => ⟨h, rfl⟩
  | j :: indexes, it, h, hv, hs, hb => by
    rw [List.pairwise_cons] at hs
    have hf : (it.find j).position = it.position.find j :=
      Iterator.position_find _ (RangeVector.valid_ranges.1 hv).2.1 fun q hq =>
        (hv.nonempty q (by simp [Position.ranges, hq])).le.trans (hb j List.mem_cons_self q hq)
    have hat : RangeVector.At (it.position.find j) j :=
      RangeVector.findFrom_at hv (hb j List.mem_cons_self)
    obtain ⟨s1, s2⟩ := Iterator.doAdd_spec j (h.congr (Iterator.chunks_find it))
      (hf ▸ hat.valid.nonempty)
    rw [hf] at s2
    obtain ⟨hadd, -⟩ := RangeVector.doAdd_spec hat
    obtain ⟨i1, i2⟩ := addIndexes_spec s1 (s2 ▸ hadd.valid) hs.2 fun k hk r hr => by
      have h1 := hadd.before r (s2 ▸ hr)
      have h2 := hs.1 k hk
      omega
    refine ⟨i1, i2.trans ?_⟩
    rw [s2]
    rfl

theorem addRanges_spec (h : Intact cs) (hd : Valid (ranges ds)) :
    (∀ c ∈ addRanges ds cs, Sound c)
      ∧ ranges (addRanges ds cs) = RangeVector.addRanges (ranges ds) (ranges cs) := by
  have hb : (begin cs).Sound := by
    unfold Iterator.Sound
    rw [chunks_begin]
    exact h.sound
  obtain ⟨h1, h2⟩ := addIndexes_spec hb (by rw [position_begin]; exact h.valid)
    (RangeVector.asIndexes_pairwise hd) (by simp [position_begin, RangeVector.begin])
  refine ⟨h1, ?_⟩
  rw [addRanges, ← position_ranges, h2, position_begin, RangeVector.addRanges]

theorem addRun_spec : ∀ (count : ℕ) {index : ℕ} {it : Iterator}, it.Sound →
    RangeVector.At it.position index → (∀ r ∈ it.position.after, index + count < r.1) →
    (addRun index count it).Sound
      ∧ (addRun index count it).position = RangeVector.addRun index count it.position
  | 0, index, it, h, _, _ => ⟨h, rfl⟩
  | count + 1, index, it, h, ha, hlt => by
    obtain ⟨s1, s2⟩ := Iterator.doAdd_spec index h ha.valid.nonempty
    have hn : (it.doAdd index).next.position = (it.position.doAdd index).next := by
      rw [position_next, s2]
    obtain ⟨n1, n2⟩ := RangeVector.next_doAdd ha fun r hr => by
      have := hlt r hr
      omega
    obtain ⟨i1, i2⟩ := addRun_spec count (s1.congr (chunks_next _)) (hn ▸ n2) fun r hr => by
      have := hlt r (n1 ▸ hn ▸ hr)
      omega
    exact ⟨i1, i2.trans (by rw [hn]; rfl)⟩

theorem sound_shifted (count : ℕ) (h : it.Sound) :
    (it.moveFrom fun r => (r.1 + count, r.2 + count)).Sound :=
  Iterator.sound_moveFrom h fun _ _ => Nat.add_sub_add_right _ _ _

theorem insertAt_spec (h : Intact cs) : (∀ c ∈ insertAt index count cs, Sound c)
    ∧ ranges (insertAt index count cs) = RangeVector.insertAt index count (ranges cs) := by
  obtain ⟨h1, h2, h3⟩ := h.find_spec index
  unfold insertAt
  simp only [range?_eq, RangeVector.insertAt]
  rw [← h2]
  rcases hpos : (find index cs).position with ⟨before, _ | ⟨r, a⟩⟩
  · rw [hpos] at h3
    obtain ⟨i1, i2⟩ := addRun_spec count h1 (hpos ▸ h3) (by simp [hpos])
    refine ⟨i1, ?_⟩
    simp only [List.head?_nil]
    rw [← position_ranges, i2, hpos]
  · simp only [List.head?_cons]
    split_ifs with hle
    · have hr : r.1 < r.2 := h3.valid.nonempty r (by simp [hpos, Position.ranges])
      have hadj : ((find index cs).adjust 0 count).position = ⟨before, (r.1, r.2 + count) :: a⟩ := by
        rw [Iterator.position_adjust (congrArg Position.after hpos), hpos]
        simp only [Position.mk.injEq, List.cons.injEq, Prod.mk.injEq, true_and, and_true]
        omega
      have hs : ((find index cs).adjust 0 count).Sound := Iterator.sound_adjust h1 fun s hs => by
        rw [range?_eq, hpos] at hs
        obtain rfl := Option.some.inj hs
        omega
      refine ⟨Iterator.sound_moveAfter hs fun _ _ => Nat.add_sub_add_right _ _ _, ?_⟩
      rw [← position_ranges, Iterator.position_moveAfter (congrArg Position.after hadj), hadj]
      rfl
    · have hm : ((find index cs).moveFrom fun r => (r.1 + count, r.2 + count)).position
          = ⟨before, RangeVector.shifted count (r :: a)⟩ := by
        rw [Iterator.position_moveFrom, hpos]
        rfl
      rw [hpos] at h3
      obtain ⟨hat, hlt⟩ := RangeVector.shifted_at count h3 (not_le.1 hle)
      obtain ⟨i1, i2⟩ := addRun_spec count (sound_shifted count h1) (hm ▸ hat) (by rw [hm]; exact hlt)
      exact ⟨i1, by rw [← position_ranges, i2, hm]⟩

/-- A range around the index is split where the others are moved back. -/
theorem shiftForInsertAt_spec (h : Intact cs) :
    (∀ c ∈ shiftForInsertAt index count cs, Sound c)
      ∧ ranges (shiftForInsertAt index count cs)
        = RangeVector.shiftForInsertAt index count (ranges cs) := by
  obtain ⟨h1, h2, h3⟩ := h.find_spec index
  have hm := (find index cs).position_moveFrom fun r => (r.1 + count, r.2 + count)
  have hs := sound_shifted count h1
  unfold shiftForInsertAt
  simp only [range?_eq, RangeVector.shiftForInsertAt]
  rw [← h2]
  rcases hpos : (find index cs).position with ⟨before, _ | ⟨r, a⟩⟩ <;> rw [hpos] at hm
  · rw [hm]
    exact ⟨h.sound, rfl⟩
  · simp only [hm, List.map_cons, List.head?_cons]
    split_ifs with hlt
    · refine ⟨Iterator.sound_insert ((Iterator.sound_set hs).congr (chunks_next _)), ?_⟩
      rw [← position_ranges, Iterator.position_insert, position_next,
        Iterator.position_set _ _ (congrArg Position.after hm), hm]
      simp [Position.next, Position.ranges, RangeVector.shifted]
    · refine ⟨hs, ?_⟩
      rw [← position_ranges, hm]
      rfl

/-! ## A range of indices taken out -/

section Remove

variable {start stop rounds n₂ : ℕ}

theorem doRemoveFrom_find : ∀ {b a : List Range},
    RangeVector.doRemoveFrom b a start stop
      = RangeVector.doRemoveFrom (RangeVector.findFrom start b a).before
        (RangeVector.findFrom start b a).after start stop
  | b, [] => rfl
  | b, r :: a => by
    unfold RangeVector.findFrom
    split_ifs with h
    · rw [RangeVector.doRemoveFrom, if_pos h, doRemoveFrom_find]
    · rfl

/-- A round that finds nothing to take out is the last. -/
theorem doRemoveLoop_done (hr : ∀ r ∈ (it.find start).range?, stop ≤ r.1) :
    doRemoveLoop stop (rounds + 1) start it = it.find start := by
  simp only [doRemoveLoop]
  rcases h : (it.find start).range? with _ | r
  · rfl
  · exact if_neg (not_lt.2 (hr r h))

theorem length_after_findFrom_le : ∀ {b a : List Range},
    (RangeVector.findFrom start b a).after.length ≤ a.length
  | b, [] => le_rfl
  | b, r :: a => by
    unfold RangeVector.findFrom
    split_ifs
    · exact length_after_findFrom_le.trans (Nat.le_succ _)
    · exact le_rfl

/-- A range that goes on past what is taken out keeps what is left of it there, and is the last. -/
theorem doRemoveLoop_last (h : it.Sound) (hv : Valid it.position.after)
    (hb : ∀ q ∈ it.position.before, q.1 ≤ start)
    (hp : it.position.find start = ⟨b, (stop, n₂) :: a⟩) :
    (doRemoveLoop stop (rounds + 1) start it).Sound ∧
      (doRemoveLoop stop (rounds + 1) start it).position = ⟨b, (stop, n₂) :: a⟩ := by
  have hf := (Iterator.position_find start hv hb).trans hp
  rw [doRemoveLoop_done fun r hr => by
    rw [range?_eq, hf] at hr
    obtain rfl := Option.some.inj hr
    exact le_rfl]
  exact ⟨h.congr (Iterator.chunks_find it), hf⟩

theorem split_spec (start stop : ℕ) (h : it.Sound) (hp : it.position = ⟨b, r :: a⟩) : ∃ prev,
    ((it.set r.1 start).next.insert (stop, r.2)).prev? = some prev ∧ prev.Sound ∧
      prev.position = ⟨b, (r.1, start) :: (stop, r.2) :: a⟩ := by
  have hset := Iterator.position_set r.1 start (congrArg Position.after hp)
  have hins : ((it.set r.1 start).next.insert (stop, r.2)).position
      = ⟨(r.1, start) :: b, (stop, r.2) :: a⟩ := by
    rw [Iterator.position_insert, position_next, hset, hp]
    rfl
  obtain ⟨prev, h1, h2, h3⟩ := prev?_eq_some (congrArg Position.before hins)
  refine ⟨prev, h1, ?_, by rw [h3, hins]⟩
  exact (Iterator.sound_insert ((Iterator.sound_set h).congr (chunks_next _))).congr h2

/-- What a round that takes something out leaves for the next. -/
theorem doRemoveLoop_round (h : it.Sound) (hp : it.position = ⟨b, r :: a⟩)
    (hv : Valid it.position.ranges) (hb : ∀ q ∈ b, q.2 ≤ start) (hr : r.1 ≤ start)
    (hlt : start < r.2) (hstop : start < stop)
    (ih : ∀ it' : Iterator, it'.Sound → Valid it'.position.ranges →
      (∀ q ∈ it'.position.before, q.2 ≤ start) →
      (it'.position.find start).after.length ≤ a.length →
      (doRemoveLoop stop (rounds + 1) start it').Sound ∧
        (doRemoveLoop stop (rounds + 1) start it').position
          = RangeVector.doRemoveFrom it'.position.before it'.position.after start stop) :
    let it' := if r.1 < start ∧ r.2 > stop then
        (((it.set r.1 start).next.insert (stop, r.2)).prev?).getD it
      else if start = r.1 ∧ stop ≥ r.2 then it.erase
      else if start = r.1 then it.set stop r.2
      else it.set r.1 start
    (doRemoveLoop stop (rounds + 1) start it').Sound ∧
      (doRemoveLoop stop (rounds + 1) start it').position
        = if r.1 < start ∧ r.2 > stop then ⟨(r.1, start) :: b, (stop, r.2) :: a⟩
          else if start = r.1 ∧ stop ≥ r.2 then RangeVector.doRemoveFrom b a start stop
          else if start = r.1 then ⟨b, (stop, r.2) :: a⟩
          else RangeVector.doRemoveFrom ((r.1, start) :: b) a start stop := by
  rw [hp] at hv
  obtain ⟨hvb, hva, hc⟩ := RangeVector.valid_ranges.1 hv
  obtain ⟨hr1, hra, hva⟩ := RangeVector.valid_cons.1 hva
  have hca : ∀ q ∈ b, ∀ t ∈ a, q.2 < t.1 := fun q hq t ht => hc q hq t (List.mem_cons_of_mem _ ht)
  have hset : ∀ front back, (it.set front back).position = ⟨b, (front, back) :: a⟩ :=
    fun front back => by rw [Iterator.position_set _ _ (congrArg Position.after hp), hp]
  have hle : ∀ q ∈ b, q.1 ≤ start := fun q hq =>
    (hvb.nonempty q (List.mem_reverse.2 hq)).le.trans (hb q hq)
  simp only []
  split_ifs with h1 h2 h3
  · -- what is left on both sides
    obtain ⟨prev, e1, e2, e3⟩ := split_spec start stop h hp
    rw [e1, Option.getD_some]
    refine doRemoveLoop_last e2 (e3 ▸ ?_) (e3 ▸ hle) ?_
    · simp only [RangeVector.valid_cons, List.forall_mem_cons]
      exact ⟨h1.1, ⟨hstop, fun t ht => hlt.trans (hra t ht)⟩, h1.2, hra, hva⟩
    · rw [e3]
      simp only [Position.find, RangeVector.findFrom, le_refl, if_true, if_neg (not_le.2 hlt)]
  · have he : it.erase.position = ⟨b, a⟩ := by
      rw [Iterator.position_erase (congrArg Position.after hp), hp]
    have hi := ih _ (Iterator.sound_erase h)
      (by rw [he]; exact RangeVector.valid_ranges.2 ⟨hvb, hva, hca⟩) (he ▸ hb)
      (by rw [he]; exact length_after_findFrom_le)
    rwa [he] at hi
  · have hend : stop < r.2 := not_le.1 fun hle => h2 ⟨h3, hle⟩
    refine doRemoveLoop_last (Iterator.sound_set h) ?_ (by rw [hset]; exact hle) ?_
    · rw [hset]
      exact RangeVector.valid_cons.2 ⟨hend, hra, hva⟩
    · rw [hset, Position.find, RangeVector.findFrom, if_neg (not_le.2 hlt)]
  · -- what is left before it
    have hlt1 : r.1 < start := lt_of_le_of_ne hr (Ne.symm h3)
    have hi := ih (it.set r.1 start) (Iterator.sound_set h) ?_ (by rw [hset]; exact hb) ?_
    · rwa [hset, RangeVector.doRemoveFrom, if_pos le_rfl] at hi
    · rw [hset]
      refine RangeVector.valid_ranges.2 ⟨hvb, RangeVector.valid_cons.2
        ⟨hlt1, fun t ht => hlt.trans (hra t ht), hva⟩, fun q hq => ?_⟩
      exact List.forall_mem_cons.2 ⟨hc q hq r List.mem_cons_self, hca q hq⟩
    · rw [hset, Position.find, RangeVector.findFrom, if_pos le_rfl]
      exact length_after_findFrom_le

theorem doRemoveLoop_spec : ∀ {rounds start : ℕ} {it : Iterator}, it.Sound →
    Valid it.position.ranges → (∀ r ∈ it.position.before, r.2 ≤ start) → start < stop →
    (it.position.find start).after.length + 1 ≤ rounds →
    (doRemoveLoop stop rounds start it).Sound ∧ (doRemoveLoop stop rounds start it).position
      = RangeVector.doRemoveFrom it.position.before it.position.after start stop
  | 0, start, it, _, _, _, _, hrounds => absurd hrounds (Nat.not_succ_le_zero _)
  | rounds + 1, start, it, h, hv, hb, hlt, hrounds => by
    have hf : (it.find start).position = it.position.find start :=
      Iterator.position_find _ (RangeVector.valid_ranges.1 hv).2.1 fun q hq =>
        (hv.nonempty q (by simp [Position.ranges, hq])).le.trans (hb q hq)
    obtain ⟨fv, fb, fa⟩ : RangeVector.At (it.find start).position start :=
      hf ▸ RangeVector.findFrom_at hv hb
    rw [doRemoveFrom_find]
    change _ ∧ _ = RangeVector.doRemoveFrom (it.position.find start).before
      (it.position.find start).after start stop
    rw [← hf] at hrounds ⊢
    have hs : (it.find start).Sound := h.congr (Iterator.chunks_find it)
    simp only [doRemoveLoop, range?_eq]
    rcases hpos : (it.find start).position with ⟨before, _ | ⟨r, a⟩⟩ <;>
      rw [hpos] at fb fa hrounds
    · exact ⟨hs, hpos⟩
    · have hr := fa r List.mem_cons_self
      have hr1 : r.1 < r.2 := fv.nonempty r (by simp [hpos, Position.ranges])
      rw [RangeVector.doRemoveFrom, if_neg (not_le.2 hr)]
      by_cases hstop : r.1 < stop <;> simp only [List.head?_cons, hstop, if_true, if_false]
      · obtain ⟨rounds, rfl⟩ : ∃ k, rounds = k + 1 := ⟨rounds - 1, by simp at hrounds; omega⟩
        have hms : max r.1 start < stop := max_lt hstop hlt
        refine doRemoveLoop_round hs hpos fv (fun q hq => (fb q hq).trans (le_max_right _ _))
          (le_max_left _ _) (max_lt hr1 hr) hms fun it' h1 h2 h3 h4 => ?_
        refine doRemoveLoop_spec h1 h2 h3 hms ?_
        rw [List.length_cons] at hrounds
        omega
      · exact ⟨hs, hpos⟩

theorem doRemove_spec (h : it.Sound) (hv : Valid it.position.ranges)
    (hb : ∀ r ∈ it.position.before, r.2 ≤ start) (hlt : start < stop) :
    (it.doRemove start stop).Sound
      ∧ (it.doRemove start stop).position = it.position.doRemove start stop := by
  refine doRemoveLoop_spec h hv hb hlt (Nat.succ_le_succ ?_)
  rw [← position_ranges]
  refine length_after_findFrom_le.trans ?_
  simp [Position.ranges]

theorem remove_spec (h : Intact cs) (hc : 0 < count) : (∀ c ∈ remove index count cs, Sound c)
    ∧ ranges (remove index count cs) = RangeVector.remove index count (ranges cs) := by
  obtain ⟨h1, h2, h3⟩ := h.find_spec index
  obtain ⟨s1, s2⟩ := doRemove_spec h1 h3.valid h3.before (Nat.lt_add_of_pos_right hc)
  refine ⟨s1, ?_⟩
  rw [remove, ← position_ranges, s2, h2, RangeVector.remove]

theorem removeFrom_spec : ∀ {values : List Range} {it : Iterator}, it.Sound →
    Valid it.position.ranges → Valid values →
    (∀ r ∈ it.position.before, ∀ s ∈ values, r.2 ≤ s.1) → (removeFrom it values).Sound
      ∧ (removeFrom it values).position = RangeVector.removeFrom it.position values
  | [], it, h, _, _, _ => ⟨h, rfl⟩
  | s :: values, it, h, hv, hs, hb => by
    obtain ⟨hs1, hs2, hs3⟩ := RangeVector.valid_cons.1 hs
    have hb1 : ∀ r ∈ it.position.before, r.2 ≤ s.1 := fun r hr => hb r hr s List.mem_cons_self
    obtain ⟨d1, d2⟩ := doRemove_spec h hv hb1 hs1
    obtain ⟨r1, r2, -⟩ := RangeVector.doRemove_spec hv hb1 hs1
    have hnone : (it.doRemove s.1 s.2).range? = none
        ↔ (it.position.doRemove s.1 s.2).after = [] := by
      rw [range?_eq, d2, List.head?_eq_none_iff]
    simp only [removeFrom, RangeVector.removeFrom, hnone]
    split_ifs
    · exact ⟨d1, d2⟩
    · rw [← d2]
      refine removeFrom_spec d1 (d2 ▸ r1) hs3 fun r hr t ht => ?_
      have := r2 r (d2 ▸ hr)
      have := hs2 t ht
      omega

theorem removeRanges_spec (h : Intact cs) (hd : Valid (ranges ds)) :
    (∀ c ∈ removeRanges ds cs, Sound c)
      ∧ ranges (removeRanges ds cs) = RangeVector.removeRanges (ranges ds) (ranges cs) := by
  have hb : (begin cs).Sound := by
    unfold Iterator.Sound
    rw [chunks_begin]
    exact h.sound
  obtain ⟨h1, h2⟩ := removeFrom_spec hb (by rw [position_begin]; exact h.valid) hd
    (by simp [position_begin, RangeVector.begin])
  refine ⟨h1, ?_⟩
  rw [removeRanges, ← position_ranges, h2, position_begin, RangeVector.removeRanges]

end Remove

end ChunkedRangeVector

end IosLearning
