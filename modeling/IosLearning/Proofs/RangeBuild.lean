import IosLearning.Proofs.RangeShift

/-!
# Ranges built anew

Ranges pushed in order are joined where they touch. The operations that take another set push
what a loop over the indices of both gives: put in, the indices of a set go where `shift` brings
them, and taken out, where `unshift` does.
-/

namespace IosLearning

namespace RangeVector

variable {rs ss built pushed : List Range} {r : Range} {i n sh : ℕ} {xs ys : List ℕ}

theorem pushBack_spec (hv : ValidBefore built) (hb : ∀ s ∈ built, s.2 ≤ r.1) (hr : r.1 < r.2) :
    ValidBefore (pushBack built r) ∧ (∀ s ∈ pushBack built r, s.2 ≤ r.2)
      ∧ ∀ i, Covers (pushBack built r) i ↔ Covers built i ∨ Covers [r] i := by
  rcases built with _ | ⟨last, built⟩
  · refine ⟨?_, ?_, fun i => ?_⟩ <;>
      simp only [pushBack, validBefore_cons, List.forall_mem_cons, covers_cons, covers_nil] <;>
      grind [validBefore_nil]
  · simp only [validBefore_cons, List.forall_mem_cons] at hv hb
    unfold pushBack
    simp only []
    split_ifs with h <;> refine ⟨?_, ?_, fun i => ?_⟩ <;>
      simp only [validBefore_cons, List.forall_mem_cons, covers_cons, covers_nil] <;>
      grind

theorem foldl_pushBack_spec : ∀ {pushed built : List Range}, ValidBefore built →
    (∀ s ∈ built, ∀ r ∈ pushed, s.2 ≤ r.1) → (∀ r ∈ pushed, r.1 < r.2) →
    pushed.Pairwise (fun r s => r.2 ≤ s.1) → ValidBefore (pushed.foldl pushBack built)
      ∧ ∀ i, Covers (pushed.foldl pushBack built) i ↔ Covers built i ∨ Covers pushed i
  | [], built, hv, _, _, _ => ⟨hv, by simp⟩
  | r :: pushed, built, hv, hb, hr, hp => by
    simp only [List.forall_mem_cons, List.pairwise_cons] at hb hr hp
    obtain ⟨h1, h2, h3⟩ := pushBack_spec hv (fun s hs => (hb s hs).1) hr.1
    obtain ⟨i1, i2⟩ := foldl_pushBack_spec h1 (fun s hs t ht => (h2 s hs).trans (hp.1 t ht)) hr.2 hp.2
    refine ⟨i1, fun i => (i2 i).trans ?_⟩
    rw [h3, covers_cons, covers_cons]
    have := covers_nil (i := i)
    tauto

theorem build_spec (hr : ∀ r ∈ pushed, r.1 < r.2) (hp : pushed.Pairwise fun r s => r.2 ≤ s.1) :
    Valid (build pushed) ∧ ∀ i, Covers (build pushed) i ↔ Covers pushed i := by
  obtain ⟨h1, h2⟩ := foldl_pushBack_spec validBefore_nil (by simp) hr hp
  refine ⟨h1, fun i => ?_⟩
  rw [build, covers_reverse, h2, or_iff_right covers_nil]

theorem covers_map_succ : Covers (xs.map fun i => (i, i + 1)) i ↔ i ∈ xs := by
  simp only [Covers, List.mem_map]
  refine ⟨?_, fun h => ⟨_, ⟨i, h, rfl⟩, le_rfl, Nat.lt_succ_self i⟩⟩
  rintro ⟨_, ⟨j, hj, rfl⟩, h1, h2⟩
  simp only [] at h1 h2
  obtain rfl : i = j := by omega
  exact hj

theorem covers_cons_succ {j : ℕ} : Covers ((j, j + 1) :: rs) i ↔ j = i ∨ Covers rs i := by
  rw [covers_cons, Nat.lt_succ_iff, ← le_antisymm_iff]

theorem buildIndexes_spec (h : xs.Pairwise (· < ·)) :
    Valid (buildIndexes xs) ∧ ∀ i, Covers (buildIndexes xs) i ↔ i ∈ xs := by
  have hp : (xs.map fun i => (i, i + 1)).Pairwise fun r s => r.2 ≤ s.1 :=
    List.pairwise_map.2 (h.imp fun hij => hij)
  obtain ⟨h1, h2⟩ := build_spec (List.forall_mem_map.2 fun i _ => Nat.lt_succ_self i) hp
  exact ⟨h1, fun i => (h2 i).trans covers_map_succ⟩

/-! ## Indices put in -/

theorem head_le {x : ℕ} (hx : (x :: xs).Pairwise (· < ·)) : ∀ z ∈ x :: xs, x ≤ z :=
  List.forall_mem_cons.2 ⟨le_rfl, fun z hz => ((List.pairwise_cons.1 hx).1 z hz).le⟩

/-- Before all of them an index stays where it is. -/
theorem shift_toFinset_of_lt {y : ℕ} (hy : (y :: ys).Pairwise (· < ·)) (h : n < y) :
    IosLearning.shift (y :: ys).toFinset n = n :=
  shift_of_lt fun j hj => h.trans_le (head_le hy j (List.mem_toFinset.1 hj))

/-- From the first of them on, an index goes where one more goes past the others. -/
theorem shift_toFinset_of_le {y : ℕ} (hy : (y :: ys).Pairwise (· < ·)) (h : y ≤ n) :
    IosLearning.shift (y :: ys).toFinset n = IosLearning.shift ys.toFinset (n + 1) := by
  rw [List.toFinset_cons, shift_insert_of_lt, if_neg (not_lt.2 h)]
  exact fun j hj => (List.pairwise_cons.1 hy).1 j (List.mem_toFinset.1 hj)

theorem shiftLoop_eq (sh : ℕ) (hx : xs.Pairwise (· < ·)) (hy : ys.Pairwise (· < ·)) :
    shiftLoop sh xs ys = xs.map fun x => IosLearning.shift ys.toFinset (x + sh) := by
  fun_induction shiftLoop sh xs ys with
  | case1 sh x xs y ys hlt ih =>
    rw [ih (List.pairwise_cons.1 hx).2 hy, List.map_cons, shift_toFinset_of_lt hy hlt]
  | case2 sh x xs y ys hle ih =>
    rw [ih hx (List.pairwise_cons.1 hy).2]
    refine List.map_congr_left fun z hz => ?_
    have := head_le hx z hz
    rw [shift_toFinset_of_le hy (by omega), Nat.add_assoc]
  | case3 sh xs ys hno =>
    rcases xs with _ | ⟨x, xs⟩
    · rfl
    · rcases ys with _ | ⟨y, ys⟩
      · exact List.map_congr_left fun z _ => (shift_empty _).symm
      · exact (hno _ _ _ _ rfl rfl).elim

theorem insertLoop_mem : i ∈ insertLoop sh xs ys ↔ i ∈ ys ∨ i ∈ shiftLoop sh xs ys := by
  fun_induction insertLoop sh xs ys with
  | case1 sh x xs y ys hlt ih =>
    rw [shiftLoop, if_pos hlt, List.mem_cons, ih, List.mem_cons (l := shiftLoop _ _ _)]
    tauto
  | case2 sh x xs y ys hle ih =>
    rw [shiftLoop, if_neg hle, List.mem_cons, ih, List.mem_cons, or_assoc]
  | case3 sh xs => cases xs <;> simp [shiftLoop]
  | case4 sh ys => simp [shiftLoop]

theorem insertLoop_pairwise (sh : ℕ) (hx : xs.Pairwise (· < ·)) (hy : ys.Pairwise (· < ·)) :
    (insertLoop sh xs ys).Pairwise (· < ·) := by
  fun_induction insertLoop sh xs ys with
  | case1 sh x xs y ys hlt ih =>
    refine List.pairwise_cons.2 ⟨fun j hj => ?_, ih (List.pairwise_cons.1 hx).2 hy⟩
    rcases insertLoop_mem.1 hj with hj | hj
    · rcases List.mem_cons.1 hj with rfl | hj
      · exact hlt
      · exact hlt.trans ((List.pairwise_cons.1 hy).1 j hj)
    · rw [shiftLoop_eq _ (List.pairwise_cons.1 hx).2 hy] at hj
      obtain ⟨z, hz, rfl⟩ := List.mem_map.1 hj
      have := (List.pairwise_cons.1 hx).1 z hz
      have := le_shift (y :: ys).toFinset (z + sh)
      omega
  | case2 sh x xs y ys hle ih =>
    refine List.pairwise_cons.2 ⟨fun j hj => ?_, ih hx (List.pairwise_cons.1 hy).2⟩
    rcases insertLoop_mem.1 hj with hj | hj
    · exact (List.pairwise_cons.1 hy).1 j hj
    · rw [shiftLoop_eq _ hx (List.pairwise_cons.1 hy).2] at hj
      obtain ⟨z, hz, rfl⟩ := List.mem_map.1 hj
      have := le_shift ys.toFinset (z + (sh + 1))
      have := head_le hx z hz
      omega
  | case3 sh xs => exact List.pairwise_map.2 (hx.imp fun h => Nat.add_lt_add_right h sh)
  | case4 sh ys => exact hy

/-- What is put in, and what was there where `shift` brings it. -/
theorem insertAtRanges_spec (h : Valid rs) (hp : Valid ss) : Valid (insertAtRanges ss rs)
    ∧ ∀ i, Covers (insertAtRanges ss rs) i ↔
      Covers ss i ∨ ∃ x, Covers rs x ∧ IosLearning.shift (toFinset ss) x = i := by
  unfold insertAtRanges
  split_ifs with h1 h2
  · subst h1
    refine ⟨h, fun i => ?_⟩
    simp [shift_empty]
  · subst h2
    refine ⟨hp, fun i => ?_⟩
    simp
  · have hx := asIndexes_pairwise h
    have hy := asIndexes_pairwise hp
    obtain ⟨h3, h4⟩ := buildIndexes_spec (insertLoop_pairwise 0 hx hy)
    refine ⟨h3, fun i => (h4 i).trans ?_⟩
    rw [insertLoop_mem, shiftLoop_eq 0 hx hy, List.mem_map]
    simp only [mem_asIndexes, Nat.add_zero, toFinset]

theorem head_le_of_covers (h : Valid rs) (hr : rs.head? = some r) (hi : Covers rs i) :
    r.1 ≤ i := by
  obtain ⟨rs, rfl⟩ := List.head?_eq_some_iff.1 hr
  obtain ⟨hlt, hrs, -⟩ := valid_cons.1 h
  rcases covers_cons.1 hi with hi | hi
  · exact hi.1
  · exact (hlt.trans (lt_covers hrs hi)).le

theorem lt_getLast_of_covers (h : Valid rs) (hr : rs.getLast? = some r) (hi : Covers rs i) :
    i < r.2 := by
  obtain ⟨rs, rfl⟩ := List.getLast?_eq_some_iff.1 hr
  obtain ⟨-, hlt, hrs⟩ := valid_append.1 h
  refine covers_lt (fun s hs => ?_) hi
  rcases List.mem_append.1 hs with hs | hs
  · have := hrs s hs r List.mem_cons_self
    have := hlt.nonempty r List.mem_cons_self
    omega
  · rw [List.mem_singleton.1 hs]

theorem shiftForInsertAtRanges_spec (h : Valid rs) (hp : Valid ss) :
    Valid (shiftForInsertAtRanges ss rs) ∧ ∀ i, Covers (shiftForInsertAtRanges ss rs) i ↔
      ∃ x, Covers rs x ∧ IosLearning.shift (toFinset ss) x = i := by
  have hstay : (∀ x, Covers rs x → IosLearning.shift (toFinset ss) x = x) → Valid rs ∧ ∀ i,
      Covers rs i ↔ ∃ x, Covers rs x ∧ IosLearning.shift (toFinset ss) x = i := by
    refine fun hx => ⟨h, fun i => ⟨fun hi => ⟨i, hi, hx i hi⟩, ?_⟩⟩
    rintro ⟨x, hc, rfl⟩
    rwa [hx x hc]
  unfold shiftForInsertAtRanges
  split
  · rename_i first last hf hl
    split_ifs with hge
    · -- all that is put in is past the set
      refine hstay fun x hc => shift_of_lt fun j hj => ?_
      have := head_le_of_covers hp hf (mem_toFinset.1 hj)
      have := lt_getLast_of_covers h hl hc
      omega
    · have hx := asIndexes_pairwise h
      have hy := asIndexes_pairwise hp
      have he := shiftLoop_eq 0 hx hy
      have hp : (shiftLoop 0 (asIndexes rs) (asIndexes ss)).Pairwise (· < ·) := by
        rw [he]
        exact List.pairwise_map.2 (hx.imp fun hlt => shift_strictMono _ hlt)
      obtain ⟨h3, h4⟩ := buildIndexes_spec hp
      refine ⟨h3, fun i => (h4 i).trans ?_⟩
      rw [he, List.mem_map]
      simp only [mem_asIndexes, Nat.add_zero, toFinset]
  · rename_i hno
    rcases ss with _ | ⟨s, ss⟩
    · exact hstay fun x _ => by rw [toFinset_nil, shift_empty]
    · rcases rs.eq_nil_or_concat with rfl | ⟨init, r, rfl⟩
      · exact hstay fun x hc => (covers_nil hc).elim
      · exact (hno s r rfl (by simp)).elim

/-! ## Indices taken out -/

/-- Past the first of them, it makes no difference which of the two is counted. -/
theorem shift_toFinset_mem_iff {y : ℕ} (hy : (y :: ys).Pairwise (· < ·)) (hx : ∀ x ∈ xs, y < x) :
    IosLearning.shift ys.toFinset (n + 1) ∈ xs ↔ IosLearning.shift (y :: ys).toFinset n ∈ xs := by
  by_cases h : y ≤ n
  · rw [shift_toFinset_of_le hy h]
  · have hn : IosLearning.shift ys.toFinset (n + 1) = n + 1 := shift_of_lt fun j hj => by
      have := (List.pairwise_cons.1 hy).1 j (List.mem_toFinset.1 hj)
      omega
    rw [hn, shift_toFinset_of_lt hy (not_le.1 h)]
    refine iff_of_false (fun hm => ?_) (fun hm => ?_) <;> have := hx _ hm <;> omega

theorem eraseLoop_mem (hx : xs.Pairwise (· < ·)) (hy : ys.Pairwise (· < ·))
    (hs : ∀ x ∈ xs, sh ≤ x) (ht : ∀ y ∈ ys, sh ≤ y) :
    i ∈ eraseLoop sh xs ys ↔ IosLearning.shift ys.toFinset (i + sh) ∈ xs := by
  fun_induction eraseLoop sh xs ys with
  | case1 sh x xs y ys hlt ih =>
    rw [List.forall_mem_cons] at hs
    rw [List.mem_cons, ih (List.pairwise_cons.1 hx).2 hy hs.2 ht, List.mem_cons]
    refine or_congr_left ⟨fun hi => ?_, fun hi => ?_⟩
    · rw [shift_toFinset_of_lt hy] <;> omega
    · have := le_shift (y :: ys).toFinset (i + sh)
      rw [shift_toFinset_of_lt hy] at hi <;> omega
  | case2 sh xs y ys hle ih =>
    rw [List.forall_mem_cons] at ht
    rw [List.pairwise_cons] at hx
    have hy' := List.pairwise_cons.1 hy
    rw [ih hx.2 hy'.2 (fun z hz => ht.1.trans_lt (hx.1 z hz))
      (fun z hz => ht.1.trans_lt (hy'.1 z hz)), ← Nat.add_assoc,
      shift_toFinset_mem_iff hy hx.1, List.mem_cons, or_iff_right fun he => ?_]
    have hm := shift_notMem (y :: ys).toFinset (i + sh)
    rw [he, List.mem_toFinset] at hm
    exact hm List.mem_cons_self
  | case3 sh x xs y ys hlt hne ih =>
    rw [List.forall_mem_cons] at ht
    have hy' := List.pairwise_cons.1 hy
    have hyx : ∀ z ∈ x :: xs, y < z := fun z hz => by
      have := head_le hx z hz
      omega
    rw [ih hx hy'.2 (fun z hz => ht.1.trans_lt (hyx z hz))
      (fun z hz => ht.1.trans_lt (hy'.1 z hz)), ← Nat.add_assoc, shift_toFinset_mem_iff hy hyx]
  | case4 sh xs ys hno =>
    rcases xs with _ | ⟨x, xs⟩
    · simp
    · rcases ys with _ | ⟨y, ys⟩
      · rw [List.toFinset_nil, shift_empty, List.mem_map]
        refine ⟨?_, fun hi => ⟨_, hi, Nat.add_sub_cancel i sh⟩⟩
        rintro ⟨z, hz, rfl⟩
        rwa [Nat.sub_add_cancel (hs z hz)]
      · exact (hno _ _ _ _ rfl rfl).elim

theorem eraseLoop_pairwise (hx : xs.Pairwise (· < ·)) (hy : ys.Pairwise (· < ·))
    (hs : ∀ x ∈ xs, sh ≤ x) (ht : ∀ y ∈ ys, sh ≤ y) : (eraseLoop sh xs ys).Pairwise (· < ·) := by
  fun_induction eraseLoop sh xs ys with
  | case1 sh x xs y ys hlt ih =>
    rw [List.pairwise_cons] at hx
    rw [List.forall_mem_cons] at hs
    refine List.pairwise_cons.2 ⟨fun j hj => ?_, ih hx.2 hy hs.2 ht⟩
    have hm := (eraseLoop_mem hx.2 hy hs.2 ht).1 hj
    have := hx.1 _ hm
    by_contra hle
    rw [shift_toFinset_of_lt hy] at this <;> omega
  | case2 sh xs y ys hle ih =>
    rw [List.forall_mem_cons] at ht
    rw [List.pairwise_cons] at hx hy
    exact ih hx.2 hy.2 (fun z hz => ht.1.trans_lt (hx.1 z hz))
      (fun z hz => ht.1.trans_lt (hy.1 z hz))
  | case3 sh x xs y ys hlt hne ih =>
    rw [List.forall_mem_cons] at ht
    rw [List.pairwise_cons] at hy
    refine ih hx hy.2 (fun z hz => ?_) fun z hz => ht.1.trans_lt (hy.1 z hz)
    have := head_le hx z hz
    omega
  | case4 sh xs ys hno =>
    refine List.pairwise_map.2 (hx.imp_of_mem fun {x z} hm _ hlt => ?_)
    have := hs x hm
    omega

/-- What is left is where `shift` past those taken out finds it. -/
theorem eraseAtRanges_spec (h : Valid rs) (hp : Valid ss) : Valid (eraseAtRanges ss rs)
    ∧ ∀ i, Covers (eraseAtRanges ss rs) i ↔
      Covers rs (IosLearning.shift (toFinset ss) i) := by
  unfold eraseAtRanges
  split_ifs with h1
  · refine ⟨h, fun i => ?_⟩
    rcases h1 with rfl | rfl
    · exact iff_of_false covers_nil covers_nil
    · rw [toFinset_nil, shift_empty]
  · have hx := asIndexes_pairwise h
    have hy := asIndexes_pairwise hp
    have h0 : ∀ {zs : List ℕ}, ∀ z ∈ zs, 0 ≤ z := fun z _ => Nat.zero_le z
    obtain ⟨h3, h4⟩ := buildIndexes_spec (eraseLoop_pairwise hx hy h0 h0)
    exact ⟨h3, fun i => (h4 i).trans ((eraseLoop_mem hx hy h0 h0).trans mem_asIndexes)⟩

/-! ## Indices of one set put in with those of another taken out before -/

section AddShiftedBy

variable {index : ℕ}

/-- The ranges passed no longer count, with their length taken off. -/
theorem passShifts_spec : ∀ {shifts left : List Range} {newShift skipUntil taken upTo : ℕ},
    passShifts index shifts newShift skipUntil = (left, taken, upTo) → Valid shifts →
    (∀ r ∈ shifts, skipUntil ≤ r.1) → newShift ≤ skipUntil →
    Valid left ∧ (∀ r ∈ left, index < r.1 ∧ upTo ≤ r.1) ∧ taken ≤ upTo ∧ skipUntil ≤ upTo ∧
      ∀ v, index ≤ v →
        (skipUntil ≤ v ∧ v ∉ toFinset shifts ↔ upTo ≤ v ∧ v ∉ toFinset left)
          ∧ (upTo ≤ v → IosLearning.unshift (toFinset shifts) v - newShift
            = IosLearning.unshift (toFinset left) v - taken)
  | [], left, newShift, skipUntil, taken, upTo, he, hv, _, hn => by
    obtain ⟨rfl, rfl, rfl⟩ := he
    exact ⟨hv, by simp, hn, le_rfl, fun v _ => ⟨.rfl, fun _ => rfl⟩⟩
  | r :: shifts, left, newShift, skipUntil, taken, upTo, he, hv, hs, hn => by
    have hle := le_of_mem_toFinset hv
    have hr := valid_cons.1 hv
    rw [List.forall_mem_cons] at hs
    unfold passShifts at he
    split_ifs at he with h
    · obtain ⟨h1, h2, h3, hru, h4⟩ := passShifts_spec he hr.2.2
        (fun s hs => (hr.2.1 s hs).le) (by omega)
      refine ⟨h1, h2, h3, by omega, fun v hv => ⟨?_, fun hu => ?_⟩⟩
      · rw [← (h4 v hv).1, toFinset_cons, Finset.mem_union, Finset.mem_Ico]
        have := hs.1
        rw [not_or, ← and_assoc]
        refine and_congr_left fun _ => ?_
        omega
      · rw [← (h4 v hv).2 hu, toFinset_cons, unshift_Ico_union hle (hru.trans hu), Nat.sub_sub,
          Nat.add_comm]
    · obtain ⟨rfl, rfl, rfl⟩ := he
      refine ⟨hv, ?_, hn, le_rfl, fun v _ => ⟨.rfl, fun _ => rfl⟩⟩
      refine List.forall_mem_cons.2 ⟨⟨not_le.1 h, hs.1⟩, fun s hm => ⟨?_, hs.2 s hm⟩⟩
      have := hr.2.1 s hm
      omega

theorem passOld_spec : ∀ {old passed left : List Range} {oldShift taken : ℕ},
    passOld index old oldShift = (passed, left, taken) → Valid old →
    passed ++ left = old ∧ (∀ r ∈ passed, r.2 ≤ index + taken)
      ∧ (∀ r ∈ left, index + taken < r.1) ∧ oldShift ≤ taken
      ∧ ∀ m, index ≤ m → IosLearning.shift (toFinset old) (m + oldShift)
        = IosLearning.shift (toFinset left) (m + taken)
  | [], passed, left, oldShift, taken, he, _ => by
    obtain ⟨rfl, rfl, rfl⟩ := he
    exact ⟨rfl, by simp, by simp, le_rfl, fun _ _ => rfl⟩
  | r :: old, passed, left, oldShift, taken, he, hv => by
    have hle := le_of_mem_toFinset hv
    have hr := valid_cons.1 hv
    unfold passOld at he
    split_ifs at he with h
    · rcases hp : passOld index old (oldShift + (r.2 - r.1)) with ⟨p, l, t⟩
      rw [hp] at he
      obtain ⟨rfl, rfl, rfl⟩ := he
      obtain ⟨h1, h2, h3, h4, h5⟩ := passOld_spec hp hr.2.2
      refine ⟨by rw [← h1, List.cons_append], List.forall_mem_cons.2 ⟨by omega, h2⟩, h3, by omega,
        fun m hm => ?_⟩
      rw [← h5 m hm, toFinset_cons, shift_Ico_union hr.1.le hle, if_neg (by omega), Nat.add_assoc]
    · obtain ⟨rfl, rfl, rfl⟩ := he
      refine ⟨rfl, by simp, ?_, le_rfl, fun _ _ => rfl⟩
      refine List.forall_mem_cons.2 ⟨not_le.1 h, fun s hm => ?_⟩
      have := hr.2.1 s hm
      omega

/-- What is pushed is in order, and makes up a set. -/
structure Pushed (pushed : List Range) (P : ℕ → Prop) : Prop where
  nonempty : ∀ r ∈ pushed, r.1 < r.2
  inOrder : pushed.Pairwise fun r s => r.2 ≤ s.1
  covers : ∀ i, Covers pushed i ↔ P i

/-- The index is one of the set, or where a value that was not put in by `shifts` comes. -/
def ShiftedIn (values : List ℕ) (old shifts : List Range) (skipUntil oldShift newShift i : ℕ) :
    Prop :=
  Covers old i ∨ ∃ v ∈ values, (skipUntil ≤ v ∧ v ∉ toFinset shifts) ∧
    IosLearning.shift (toFinset old)
      (IosLearning.unshift (toFinset shifts) v - newShift + oldShift) = i

variable {values : List ℕ} {old old' passed shifts left pushed : List Range}
  {skipUntil upTo oldShift oldShift' newShift taken n : ℕ}

theorem Pushed.append_value {P : ℕ → Prop} (hv : Valid passed) (hp : ∀ r ∈ passed, r.2 ≤ n)
    (h : Pushed pushed P) (hn : ∀ i, P i → n < i) :
    Pushed ((asIndexes passed).map (fun i => (i, i + 1)) ++ (n, n + 1) :: pushed)
      fun i => Covers passed i ∨ i = n ∨ P i where
  nonempty := by
    rw [List.forall_mem_append, List.forall_mem_map, List.forall_mem_cons]
    exact ⟨fun j _ => Nat.lt_succ_self j, Nat.lt_succ_self _, h.nonempty⟩
  inOrder := by
    rw [List.pairwise_append, List.pairwise_map, List.pairwise_cons, List.forall_mem_map]
    have hs : ∀ s ∈ pushed, n < s.1 := fun s hs =>
      hn _ ((h.covers s.1).1 ⟨s, hs, le_rfl, h.nonempty s hs⟩)
    refine ⟨(asIndexes_pairwise hv).imp fun h => h, ⟨hs, h.inOrder⟩, fun j hj => ?_⟩
    have hlt := covers_lt hp (mem_asIndexes.1 hj)
    exact List.forall_mem_cons.2 ⟨hlt, fun s hm => hlt.trans (hs s hm)⟩
  covers i := by
    rw [covers_append, covers_map_succ, mem_asIndexes, covers_cons_succ, h.covers, eq_comm]

/-- The ranges of `shifts` passed for the first of the values make no difference to any. -/
theorem shiftedIn_passShifts (hp : passShifts index shifts newShift skipUntil = (left, taken, upTo))
    (hv : Valid shifts) (hs : ∀ r ∈ shifts, skipUntil ≤ r.1) (hn : newShift ≤ skipUntil)
    (hx : ∀ v ∈ values, index ≤ v) :
    ShiftedIn values old shifts skipUntil oldShift newShift i
      ↔ ShiftedIn values old left upTo oldShift taken i := by
  obtain ⟨-, -, -, -, h⟩ := passShifts_spec hp hv hs hn
  refine or_congr_right (exists_congr fun v => and_congr_right fun hm => ?_)
  obtain ⟨e1, e2⟩ := h v (hx v hm)
  rw [e1]
  exact and_congr_right fun hu => by rw [e2 hu.1]

/-- A value that was not put in comes past the ranges of the set passed for it, before those
left; so do the values after it. -/
theorem shiftedIn_passOld (hq : passOld (index - taken) old oldShift = (passed, old', oldShift'))
    (ho : Valid old) (hin : upTo ≤ index) (ht : taken ≤ index) (hl : ∀ r ∈ left, index < r.1)
    (hx : ∀ v ∈ values, index < v) :
    (ShiftedIn (index :: values) old left upTo oldShift taken i
        ↔ Covers passed i ∨ i = index - taken + oldShift'
          ∨ ShiftedIn values old' left upTo oldShift' taken i)
      ∧ (ShiftedIn values old' left upTo oldShift' taken i → index - taken + oldShift' < i) := by
  obtain ⟨j1, -, j3, -, j5⟩ := passOld_spec hq ho
  have hlow : ∀ j ∈ toFinset left, index < j := fun j hj => lt_covers hl (mem_toFinset.1 hj)
  have hmem : index ∉ toFinset left := fun h => (hlow index h).false
  have hidx : IosLearning.unshift (toFinset left) index = index :=
    unshift_of_forall_le fun j hj => (hlow j hj).le
  have hgt : ∀ v ∈ values, index - taken < IosLearning.unshift (toFinset left) v - taken := by
    intro v hm
    have := unshift_lt_unshift hmem (hx v hm)
    omega
  have hself : IosLearning.shift (toFinset old) (index - taken + oldShift)
      = index - taken + oldShift' := by
    rw [j5 _ le_rfl]
    exact shift_of_lt fun j hj => lt_covers j3 (mem_toFinset.1 hj)
  have hrest : (∃ v ∈ values, (upTo ≤ v ∧ v ∉ toFinset left) ∧ IosLearning.shift (toFinset old')
        (IosLearning.unshift (toFinset left) v - taken + oldShift') = i)
      ↔ ∃ v ∈ values, (upTo ≤ v ∧ v ∉ toFinset left) ∧ IosLearning.shift (toFinset old)
        (IosLearning.unshift (toFinset left) v - taken + oldShift) = i :=
    exists_congr fun v => and_congr_right fun hm => by rw [j5 _ (hgt v hm).le]
  refine ⟨?_, ?_⟩
  · unfold ShiftedIn
    rw [hrest, List.exists_mem_cons_iff, hidx, hself, and_iff_right ⟨hin, hmem⟩, ← j1,
      covers_append, or_assoc, eq_comm (a := i)]
    exact or_congr_right or_left_comm
  · rintro (hj | ⟨v, hm, -, rfl⟩)
    · exact lt_covers j3 hj
    · have := hgt v hm
      have := le_shift (toFinset old')
        (IosLearning.unshift (toFinset left) v - taken + oldShift')
      omega

/-- The ranges pushed are in order, and are those of the set and an index for each value that was
not put in by `shifts`. -/
theorem addShiftedByLoop_spec : ∀ {values : List ℕ} {old shifts : List Range}
    {skipUntil newShift : ℕ} (oldShift : ℕ), values.Pairwise (· < ·) → Valid old → Valid shifts →
    (∀ r ∈ shifts, skipUntil ≤ r.1) → newShift ≤ skipUntil →
    Pushed (addShiftedByLoop values old shifts skipUntil oldShift newShift)
      (ShiftedIn values old shifts skipUntil oldShift newShift)
  | [], old, shifts, skipUntil, newShift, oldShift, _, ho, _, _, _ =>
    ⟨ho.nonempty, ho.apart.imp fun h => h.le, by simp [addShiftedByLoop, ShiftedIn]⟩
  | index :: values, old, shifts, skipUntil, newShift, oldShift, hx, ho, hv, hs, hn => by
    rcases hp : passShifts index shifts newShift skipUntil with ⟨left, taken, upTo⟩
    obtain ⟨h1, h2, h3, -, -⟩ := passShifts_spec hp hv hs hn
    have hcongr : ∀ i, ShiftedIn (index :: values) old shifts skipUntil oldShift newShift i
        ↔ ShiftedIn (index :: values) old left upTo oldShift taken i :=
      fun i => shiftedIn_passShifts hp hv hs hn (head_le hx)
    rw [List.pairwise_cons] at hx
    unfold addShiftedByLoop
    simp only [hp]
    split_ifs with hlt
    · -- the value was put in
      obtain ⟨i1, i2, i3⟩ := addShiftedByLoop_spec oldShift hx.2 ho h1 (fun r hr => (h2 r hr).2) h3
      refine ⟨i1, i2, fun i => ?_⟩
      rw [hcongr, i3, ShiftedIn, ShiftedIn, List.exists_mem_cons_iff, or_iff_right (a := _ ∧ _)]
      exact fun h => (not_le.2 hlt) h.1.1
    · rcases hq : passOld (index - taken) old oldShift with ⟨passed, old', oldShift'⟩
      obtain ⟨j1, j2, -⟩ := passOld_spec hq ho
      obtain ⟨hvp, hvo, -⟩ := valid_append.1 (j1.symm ▸ ho)
      have hpush := addShiftedByLoop_spec oldShift' hx.2 hvo h1 (fun r hr => (h2 r hr).2) h3
      have hin := not_lt.1 hlt
      have hsplit := fun i => shiftedIn_passOld (i := i) hq ho hin (h3.trans hin)
        (fun r hr => (h2 r hr).1) hx.1
      obtain ⟨i1, i2, i3⟩ := hpush.append_value hvp j2 fun i => (hsplit i).2
      exact ⟨i1, i2, fun i => by rw [hcongr, (hsplit i).1, i3]⟩

/-- What was there is put together with the values that `shiftedBy` did not put in: each comes
where taking out the one and putting in the other brings it. -/
theorem addShiftedBy_spec {shiftedBy values : List Range} (h : Valid rs) (hs : Valid shiftedBy)
    (hv : Valid values) : Valid (addShiftedBy shiftedBy values rs)
    ∧ ∀ i, Covers (addShiftedBy shiftedBy values rs) i ↔
      Covers rs i ∨ ∃ v, Covers values v ∧ ¬ Covers shiftedBy v ∧
        IosLearning.shift (toFinset rs) (IosLearning.unshift (toFinset shiftedBy) v) = i := by
  unfold addShiftedBy
  split_ifs with he
  · subst he
    exact ⟨h, fun i => by simp⟩
  · obtain ⟨h1, h2, h3⟩ := addShiftedByLoop_spec 0 (asIndexes_pairwise hv) h hs
      (fun r _ => Nat.zero_le _) (le_refl 0)
    obtain ⟨h4, h5⟩ := build_spec h1 h2
    refine ⟨h4, fun i => (h5 i).trans ((h3 i).trans ?_)⟩
    simp only [ShiftedIn, mem_asIndexes, mem_toFinset, Nat.zero_le, true_and, Nat.sub_zero,
      Nat.add_zero]

end AddShiftedBy

end RangeVector

end IosLearning
