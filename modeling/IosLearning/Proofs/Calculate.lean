import IosLearning.Base.Align
import IosLearning.Proofs.CollectionChange
import IosLearning.Proofs.LongestMatch

/-!
# The changes calculated take the old rows to the new ones

The rows that are not deleted and those that are not inserted are aligned: paired by key, and those
of them that are out of order left out. So the change set is an edit from the old rows to the new
ones, for any sort, and with the rows whose objects changed modified it is one of their contents
too (`calculate_takes`).
-/

namespace IosLearning.CollectionChangeBuilder

open LongestCommonSubsequenceCalculator

variable {l : List ℕ} {s : IndexSet} {i j k : ℕ}

theorem toFinset_foldl_add (l : List ℕ) (s : IndexSet) :
    (l.foldl IndexSet.add s).toFinset = s.toFinset ∪ l.toFinset := by
  induction l generalizing s with
  | nil => simp
  | cons i l ih =>
    rw [List.foldl_cons, ih, IndexSet.toFinset_add, List.toFinset_cons, Finset.union_insert,
      Finset.insert_union]

/-! ## Rows of one list only -/

/-- Where a key is. -/
def place (row : RowInfo) : ℤ × ℕ := (row.key, row.tvIndex)

def placeNow (row : KeptRow) : ℤ × ℕ := (row.key, row.tvIndex)

def placeBefore (row : KeptRow) : ℤ × ℕ := (row.key, row.prevTvIndex)

/-- Some rows of each list are paired; the other ones of the old list are deleted, those of the new
one inserted, and no key is among both. -/
structure Paired (old new : List RowInfo) (ret ret' : CollectionChangeBuilder)
    (rows : List KeptRow) (dels ins : List RowInfo) : Prop where
  eq : ret' = { ret with
    deletions := (dels.map RowInfo.tvIndex).foldl IndexSet.add ret.deletions
    insertions := (ins.map RowInfo.tvIndex).foldl IndexSet.add ret.insertions }
  old_perm : (rows.map placeBefore ++ dels.map place).Perm (old.map place)
  new_perm : (rows.map placeNow ++ ins.map place).Perm (new.map place)
  ne : ∀ d ∈ dels, ∀ i ∈ ins, d.key ≠ i.key

def ByKey (rows : List RowInfo) : Prop := rows.Pairwise fun x y => x.key ≤ y.key

theorem filterMap_kept (rows : List RowInfo) (h : ∀ row ∈ rows, row.prevTvIndex = none) :
    rows.filterMap kept = [] := by
  rw [List.filterMap_eq_nil_iff]
  intro row hrow
  rw [kept, h row hrow, Option.map_none]

theorem matchRows_spec (old new : List RowInfo) (ret : CollectionChangeBuilder)
    (ho : ByKey old) (hn : ByKey new) (hnew : ∀ row ∈ new, row.prevTvIndex = none) :
    ∃ dels ins, Paired old new ret (matchRows old new ret).2
      ((matchRows old new ret).1.filterMap kept) dels ins := by
  induction old, new, ret using matchRows.induct with
  | case1 old oldRows new newRows ret heq ih =>
    obtain ⟨dels, ins, h⟩ := ih (List.pairwise_cons.1 ho).2 (List.pairwise_cons.1 hn).2
      fun row hrow => hnew row (List.mem_cons_of_mem _ hrow)
    refine ⟨dels, ins, ?_⟩
    rw [matchRows, if_pos heq]
    refine ⟨h.eq, ?_, ?_, h.ne⟩
    · simpa [kept, placeBefore, place, heq] using h.old_perm
    · simpa [kept, placeNow, place] using h.new_perm
  | case2 old oldRows new newRows ret hne hlt ih =>
    obtain ⟨dels, ins, h⟩ := ih (List.pairwise_cons.1 ho).2 hn hnew
    refine ⟨old :: dels, ins, ?_⟩
    rw [matchRows, if_neg hne, if_pos hlt]
    refine ⟨h.eq, ?_, h.new_perm, ?_⟩
    · rw [List.map_cons, List.map_cons]
      exact List.perm_middle.trans (h.old_perm.cons _)
    · -- all keys of the new list from here on are greater
      intro d hd i hi
      obtain rfl | hd := List.mem_cons.1 hd
      · have hmem : place i ∈ (new :: newRows).map place :=
          h.new_perm.mem_iff.1 (List.mem_append_right _ (List.mem_map_of_mem hi))
        obtain ⟨row, hrow, hplace⟩ := List.mem_map.1 hmem
        have hkey : row.key = i.key := congrArg Prod.fst hplace
        obtain rfl | hrow := List.mem_cons.1 hrow
        · omega
        · have := (List.pairwise_cons.1 hn).1 row hrow
          omega
      · exact h.ne d hd i hi
  | case3 old oldRows new newRows ret hne hnlt ih =>
    obtain ⟨dels, ins, h⟩ := ih ho (List.pairwise_cons.1 hn).2
      fun row hrow => hnew row (List.mem_cons_of_mem _ hrow)
    refine ⟨dels, new :: ins, ?_⟩
    rw [matchRows, if_neg hne, if_neg hnlt]
    have hkept : (new :: (matchRows (old :: oldRows) newRows
        { ret with insertions := ret.insertions.add new.tvIndex }).1).filterMap kept
        = (matchRows (old :: oldRows) newRows
          { ret with insertions := ret.insertions.add new.tvIndex }).1.filterMap kept := by
      rw [List.filterMap_cons_none]
      rw [kept, hnew new (List.mem_cons_self ..), Option.map_none]
    rw [hkept]
    refine ⟨h.eq, h.old_perm, ?_, ?_⟩
    · rw [List.map_cons, List.map_cons]
      exact List.perm_middle.trans (h.new_perm.cons _)
    · intro d hd i hi
      obtain rfl | hi := List.mem_cons.1 hi
      · have hmem : place d ∈ (old :: oldRows).map place :=
          h.old_perm.mem_iff.1 (List.mem_append_right _ (List.mem_map_of_mem hd))
        obtain ⟨row, hrow, hplace⟩ := List.mem_map.1 hmem
        have hkey : row.key = d.key := congrArg Prod.fst hplace
        obtain rfl | hrow := List.mem_cons.1 hrow
        · omega
        · have := (List.pairwise_cons.1 ho).1 row hrow
          omega
      · exact h.ne d hd i hi
  | case4 new ret =>
    refine ⟨[], new, ?_⟩
    rw [matchRows]
    dsimp only
    rw [filterMap_kept new hnew]
    exact ⟨rfl, .refl _, .refl _, by simp⟩
  | case5 old ret hold =>
    refine ⟨old, [], ?_⟩
    rw [matchRows]
    · exact ⟨rfl, .refl _, .refl _, by simp⟩
    · exact hold

/-! ## Rows out of order -/

/-- The places in both lists that a match pairs. -/
def positions (m : Match) : List (ℕ × ℕ) := (List.range m.size).map fun k => (m.i + k, m.j + k)

theorem mem_positions {m : Match} {q : ℕ × ℕ} :
    q ∈ positions m ↔ ∃ k < m.size, (m.i + k, m.j + k) = q := by
  rw [positions, List.mem_map]
  simp only [List.mem_range]

variable {ka kb : List ℤ} {ms : List Match} {e f n : ℕ}

/-- Places with the same keys, in order in both lists. -/
structure Pairs (ka kb : List ℤ) (qs : List (ℕ × ℕ)) : Prop where
  aligned : Aligned qs ka kb
  same : ∀ q ∈ qs, ka[q.1]? = kb[q.2]?

theorem pairs_positions {m : Match} (h : Block ka kb i e j f m) (he : e ≤ ka.length)
    (hf : f ≤ kb.length) : Pairs ka kb (positions m) where
  aligned.pairwise := by
    rw [positions, List.pairwise_map]
    exact (List.pairwise_lt_range).imp fun {x y} hxy => ⟨by omega, by omega⟩
  aligned.lt q hq := by
    obtain ⟨k, hk, rfl⟩ := mem_positions.1 hq
    have h1 := h.le_end1
    have h2 := h.le_end2
    exact ⟨by dsimp only; omega, by dsimp only; omega⟩
  same q hq := by
    obtain ⟨k, hk, rfl⟩ := mem_positions.1 hq
    obtain ⟨key, h1, h2⟩ := h.common k hk
    rw [h1, h2]

theorem Pairs.append {ps qs : List (ℕ × ℕ)} (h : Pairs ka kb ps) (h' : Pairs ka kb qs)
    (hlt : ∀ p ∈ ps, ∀ q ∈ qs, p.1 < q.1 ∧ p.2 < q.2) : Pairs ka kb (ps ++ qs) :=
  ⟨⟨List.pairwise_append.2 ⟨h.aligned.pairwise, h'.aligned.pairwise, hlt⟩, fun q hq =>
    (List.mem_append.1 hq).elim (h.aligned.lt q) (h'.aligned.lt q)⟩,
    fun q hq => (List.mem_append.1 hq).elim (h.same q) (h'.same q)⟩

theorem pairs_nil : Pairs ka kb [] := ⟨⟨.nil, by simp⟩, by simp⟩

theorem Chain.le (h : Chain ka kb ms i j e f) {q : ℕ × ℕ} (hq : q ∈ ms.flatMap positions) :
    i ≤ q.1 ∧ j ≤ q.2 := by
  induction ms generalizing i j with
  | nil => exact absurd hq List.not_mem_nil
  | cons m ms ih =>
    have h1 := h.1.begin1_le
    have h2 := h.1.begin2_le
    rw [List.flatMap_cons, List.mem_append] at hq
    obtain hq | hq := hq
    · obtain ⟨k, -, rfl⟩ := mem_positions.1 hq
      exact ⟨by dsimp only; omega, by dsimp only; omega⟩
    · have := ih h.2 hq
      omega

theorem Chain.pairs (h : Chain ka kb ms i j ka.length kb.length) :
    Pairs ka kb (ms.flatMap positions) := by
  induction ms generalizing i j with
  | nil => exact pairs_nil
  | cons m ms ih =>
    rw [List.flatMap_cons]
    refine (pairs_positions h.1 le_rfl le_rfl).append (ih h.2) fun p hp q hq => ?_
    obtain ⟨k, hk, rfl⟩ := mem_positions.1 hp
    have := Chain.le h.2 hq
    exact ⟨by dsimp only; omega, by dsimp only; omega⟩

theorem mem_slice {l : List ℕ} {x : ℕ} (he : e ≤ l.length) :
    x ∈ (l.take e).drop i ↔ ∃ k, i ≤ k ∧ k < e ∧ l.getD k 0 = x := by
  rw [List.mem_iff_getElem?]
  constructor
  · rintro ⟨k, hk⟩
    rw [List.getElem?_drop, List.getElem?_take] at hk
    split_ifs at hk with hlt
    · refine ⟨i + k, by omega, hlt, ?_⟩
      rw [List.getD_eq_getElem?_getD, hk, Option.getD_some]
  · rintro ⟨k, hik, hk, rfl⟩
    refine ⟨k - i, ?_⟩
    rw [List.getElem?_drop, List.getElem?_take, if_pos (by omega), Nat.add_sub_cancel' hik,
      List.getElem?_eq_getElem (by omega), List.getD_eq_getElem l 0 (by omega)]

/-- What comes before a match and what of the rest is in no match. -/
theorem unmatched_cons {g : ℕ → ℕ} {l rest : List ℕ} {start size x : ℕ} (hi : i ≤ start)
    (hn : start + size ≤ n) (hl : ∀ k, k ∈ l ↔ (start ≤ k ∧ k < start + size) ∨ k ∈ rest)
    (hrest : ∀ k ∈ rest, start + size ≤ k) :
    ((∃ k, i ≤ k ∧ k < start ∧ g k = x) ∨ ∃ k, start + size ≤ k ∧ k < n ∧ k ∉ rest ∧ g k = x) ↔
      ∃ k, i ≤ k ∧ k < n ∧ k ∉ l ∧ g k = x := by
  constructor
  · rintro (⟨k, h1, h2, h3⟩ | ⟨k, h1, h2, h3, h4⟩)
    · refine ⟨k, h1, by omega, fun hk => ?_, h3⟩
      obtain hk | hk := (hl k).1 hk
      · omega
      · have := hrest k hk
        omega
    · refine ⟨k, by omega, h2, fun hk => ?_, h4⟩
      obtain hk | hk := (hl k).1 hk
      · omega
      · exact h3 hk
  · rintro ⟨k, h1, h2, h3, h4⟩
    rw [hl, not_or] at h3
    by_cases hk : k < start
    · exact .inl ⟨k, h1, hk, h4⟩
    · exact .inr ⟨k, by omega, h2, h3.2, h4⟩

/-- The rows before, between and after the matches are deleted and inserted. -/
theorem alignLoop_spec (a : List Row) (rows : List KeptRow) (modified : Option ℕ) :
    ∀ (ms : List Match) (i j : ℕ) (c : CollectionChangeBuilder),
      Chain ka kb ms i j a.length rows.length →
      ∃ dels ins : List ℕ,
        alignLoop a rows (ms ++ [⟨a.length, rows.length, 0, modified⟩]) i j c = { c with
          deletions := dels.foldl IndexSet.add c.deletions
          insertions := ins.foldl IndexSet.add c.insertions } ∧
        (∀ x, x ∈ dels ↔ ∃ k, i ≤ k ∧ k < a.length ∧ k ∉ (ms.flatMap positions).map Prod.fst ∧
          (a.map Row.tvIndex).getD k 0 = x) ∧
        ∀ x, x ∈ ins ↔ ∃ k, j ≤ k ∧ k < rows.length ∧ k ∉ (ms.flatMap positions).map Prod.snd ∧
          (rows.map KeptRow.tvIndex).getD k 0 = x
  | [], i, j, c, h => by
    refine ⟨_, _, rfl, fun x => ?_, fun x => ?_⟩
    · rw [List.map_drop, List.map_take, mem_slice (by rw [List.length_map])]
      simp only [List.flatMap_nil, List.map_nil, List.not_mem_nil, not_false_eq_true, true_and]
    · rw [List.map_drop, List.map_take, mem_slice (by rw [List.length_map])]
      simp only [List.flatMap_nil, List.map_nil, List.not_mem_nil, not_false_eq_true, true_and]
  | m :: ms, i, j, c, h => by
    have h1 := h.1.begin1_le
    have h2 := h.1.begin2_le
    have h3 := h.1.le_end1
    have h4 := h.1.le_end2
    obtain ⟨dels, ins, heq, hd, hi⟩ := alignLoop_spec a rows modified ms (m.i + m.size)
      (m.j + m.size) { c with
        deletions := (((a.take m.i).drop i).map Row.tvIndex).foldl IndexSet.add c.deletions
        insertions := (((rows.take m.j).drop j).map KeptRow.tvIndex).foldl IndexSet.add
          c.insertions } h.2
    refine ⟨((a.take m.i).drop i).map Row.tvIndex ++ dels,
      ((rows.take m.j).drop j).map KeptRow.tvIndex ++ ins, ?_, fun x => ?_, fun x => ?_⟩
    · rw [List.cons_append, alignLoop, Nat.max_eq_right h1, Nat.max_eq_right h2, heq,
        List.foldl_append, List.foldl_append]
    · rw [List.mem_append, hd, List.map_drop, List.map_take,
        mem_slice (by rw [List.length_map]; omega)]
      refine unmatched_cons h1 h3 (fun k => ?_) fun k hk => ?_
      · rw [List.flatMap_cons, List.map_append, List.mem_append, positions, List.map_map]
        simp only [List.mem_map, List.mem_range, Function.comp_apply]
        exact or_congr_left ⟨fun ⟨k', hk', he⟩ => by omega, fun hk => ⟨k - m.i, by omega, by omega⟩⟩
      · obtain ⟨q, hq, rfl⟩ := List.mem_map.1 hk
        exact (Chain.le h.2 hq).1
    · rw [List.mem_append, hi, List.map_drop, List.map_take,
        mem_slice (by rw [List.length_map]; omega)]
      refine unmatched_cons h2 h4 (fun k => ?_) fun k hk => ?_
      · rw [List.flatMap_cons, List.map_append, List.mem_append, positions, List.map_map]
        simp only [List.mem_map, List.mem_range, Function.comp_apply]
        exact or_congr_left ⟨fun ⟨k', hk', he⟩ => by omega, fun hk => ⟨k - m.j, by omega, by omega⟩⟩
      · obtain ⟨q, hq, rfl⟩ := List.mem_map.1 hk
        exact (Chain.le h.2 hq).2

variable {prev next : List ℤ} {rows : List KeptRow} {c : CollectionChangeBuilder} {a b : List Row}
  {std : StdSort}

/-- The rows of both lists, in the order of the new one. -/
structure Kept (prev next : List ℤ) (rows : List KeptRow) : Prop where
  before : ∀ row ∈ rows, prev[row.prevTvIndex]? = some row.key
  now : ∀ row ∈ rows, next[row.tvIndex]? = some row.key
  nodup : (rows.map KeptRow.prevTvIndex).Nodup
  sorted : (rows.map KeptRow.tvIndex).Pairwise (· < ·)

/-- The rows in the order of the old list. -/
structure InOldOrder (rows : List KeptRow) (a : List Row) : Prop where
  perm : a.Perm (rows.map fun row => ⟨row.key, row.prevTvIndex⟩)
  sorted : (a.map Row.tvIndex).Pairwise (· < ·)

/-- Sorted by index and then by key, where each index is that of one row. -/
theorem inOldOrder_sort (std : StdSort) (h : (rows.map KeptRow.prevTvIndex).Nodup) : InOldOrder rows
    (std.sort (fun lft rgt => decide (lft.tvIndex < rgt.tvIndex ∨
      lft.tvIndex = rgt.tvIndex ∧ lft.key < rgt.key))
      (rows.map fun row => (⟨row.key, row.prevTvIndex⟩ : Row))) := by
  have hperm := std.perm (fun lft rgt : Row => decide (lft.tvIndex < rgt.tvIndex ∨
    lft.tvIndex = rgt.tvIndex ∧ lft.key < rgt.key)) (rows.map fun row => ⟨row.key, row.prevTvIndex⟩)
  have hsorted := std.sorted (fun lft rgt : Row => decide (lft.tvIndex < rgt.tvIndex ∨
    lft.tvIndex = rgt.tvIndex ∧ lft.key < rgt.key)) (rows.map fun row => ⟨row.key, row.prevTvIndex⟩)
    (fun x y hxy => by simp only [decide_eq_true_eq, decide_eq_false_iff_not] at hxy ⊢; omega)
    (fun x y z hxy hyz => by simp only [decide_eq_false_iff_not] at hxy hyz ⊢; omega)
  refine ⟨hperm, ?_⟩
  have hnodup := (hperm.map Row.tvIndex).nodup_iff.2 (by rwa [List.map_map])
  rw [List.pairwise_map]
  rw [List.Nodup, List.pairwise_map] at hnodup
  refine (hsorted.and hnodup).imp fun {x y} hxy => ?_
  have h1 := of_decide_eq_false hxy.1
  have h2 := hxy.2
  omega

theorem sorted_sort (std : StdSort) (rows : List KeptRow) :
    Sorted (std.sort (fun lft rgt => decide (lft.key < rgt.key ∨
      lft.key = rgt.key ∧ lft.tvIndex < rgt.tvIndex))
      (rows.mapIdx fun i row => (⟨row.key, i⟩ : Row))) := by
  refine (std.sorted _ _ (fun x y hxy => ?_) fun x y z hxy hyz => ?_).imp fun {x y} hxy => ?_
  · simp only [decide_eq_true_eq, decide_eq_false_iff_not] at hxy ⊢
    omega
  · simp only [decide_eq_false_iff_not] at hxy hyz ⊢
    omega
  · have := of_decide_eq_false hxy
    omega

theorem places_sort (std : StdSort) (rows : List KeptRow) :
    Places (std.sort (fun lft rgt => decide (lft.key < rgt.key ∨
      lft.key = rgt.key ∧ lft.tvIndex < rgt.tvIndex))
      (rows.mapIdx fun i row => (⟨row.key, i⟩ : Row))) (rows.map KeptRow.key) := by
  intro key j
  rw [(std.perm _ _).mem_iff, List.mem_iff_getElem?]
  simp only [List.getElem?_mapIdx, Option.map_eq_some_iff, Row.mk.injEq, List.getElem?_map]
  constructor
  · rintro ⟨k, row, hrow, hkey, rfl⟩
    exact ⟨row, hrow, hkey⟩
  · rintro ⟨row, hrow, hkey⟩
    exact ⟨j, row, hrow, hkey, rfl⟩

theorem InOldOrder.length (h : InOldOrder rows a) : a.length = rows.length := by
  rw [h.perm.length_eq, List.length_map]

/-- Pairs of places with the same keys align the rows there, all others deleted and inserted. -/
theorem takes_of_pairs (hk : Kept prev next rows) (ha : InOldOrder rows a) {qs : List (ℕ × ℕ)}
    (hq : Pairs (a.map Row.key) (rows.map KeptRow.key) qs) {d ins : Finset ℕ}
    (hd : d = gaps prev.length (rows.map KeptRow.prevTvIndex)
      ∪ (gaps a.length (qs.map Prod.fst)).image fun k => (a.map Row.tvIndex).getD k 0)
    (hi : ins = gaps next.length (rows.map KeptRow.tvIndex)
      ∪ (gaps rows.length (qs.map Prod.snd)).image fun k => (rows.map KeptRow.tvIndex).getD k 0) :
    Edit.Takes ⟨d, ins, ∅⟩ prev next := by
  have hmema : ∀ x, x ∈ a.map Row.tvIndex ↔ x ∈ rows.map KeptRow.prevTvIndex := fun x => by
    rw [(ha.perm.map Row.tvIndex).mem_iff, List.map_map]
    rfl
  have holda : ∀ row ∈ a, prev[row.tvIndex]? = some row.key := fun row hrow => by
    obtain ⟨kept, hkept, rfl⟩ := List.mem_map.1 (ha.perm.mem_iff.1 hrow)
    exact hk.before kept hkept
  have hlta : ∀ i ∈ a.map Row.tvIndex, i < prev.length := fun i hi => by
    obtain ⟨row, hrow, rfl⟩ := List.mem_map.1 hi
    exact (List.getElem?_eq_some_iff.1 (holda row hrow)).1
  have hltb : ∀ i ∈ rows.map KeptRow.tvIndex, i < next.length := fun i hi => by
    obtain ⟨row, hrow, rfl⟩ := List.mem_map.1 hi
    exact (List.getElem?_eq_some_iff.1 (hk.now row hrow)).1
  have hal : Aligned qs (a.map Row.tvIndex) (rows.map KeptRow.tvIndex) :=
    ⟨hq.aligned.pairwise, fun q hqm => by
      have := hq.aligned.lt q hqm
      rwa [List.length_map, List.length_map] at this ⊢⟩
  have hthrough := hal.through ha.sorted hk.sorted hlta hltb
  have htakes := takes_of_aligned (m := ∅) hthrough fun p hp _ => by
    obtain ⟨q, hqm, rfl⟩ := List.mem_map.1 hp
    obtain ⟨h1, h2⟩ := hal.lt q hqm
    have hsame := hq.same q hqm
    dsimp only
    rw [List.length_map] at h1 h2
    rw [List.getD_eq_getElem _ 0 (by rwa [List.length_map]),
      List.getD_eq_getElem _ 0 (by rwa [List.length_map]), List.getElem_map, List.getElem_map,
      holda _ (List.getElem_mem h1), hk.now _ (List.getElem_mem h2)]
    rwa [List.getElem?_map, List.getElem?_map, List.getElem?_eq_getElem h1,
      List.getElem?_eq_getElem h2] at hsame
  have hfst := gaps_through (l := qs.map Prod.fst) ha.sorted hlta fun k hkm => by
    obtain ⟨q, hqm, rfl⟩ := List.mem_map.1 hkm
    exact (hal.lt q hqm).1
  have hsnd := gaps_through (l := qs.map Prod.snd) hk.sorted hltb fun k hkm => by
    obtain ⟨q, hqm, rfl⟩ := List.mem_map.1 hkm
    exact (hal.lt q hqm).2
  have hgaps : gaps prev.length (a.map Row.tvIndex)
      = gaps prev.length (rows.map KeptRow.prevTvIndex) :=
    Finset.ext fun x => by rw [mem_gaps, mem_gaps, hmema]
  rw [List.length_map, List.map_map, hgaps] at hfst
  rw [List.length_map, List.map_map] at hsnd
  have halign : alignment (qs.map fun q => ((a.map Row.tvIndex).getD q.1 0,
      (rows.map KeptRow.tvIndex).getD q.2 0)) prev next ∅ = ⟨d, ins, ∅⟩ := by
    rw [alignment, List.map_map, List.map_map, hd, hi, ← hfst, ← hsnd]
    rfl
  rwa [halign] at htakes

/-- The first places of both lists. -/
def diagonal (n : ℕ) : List (ℕ × ℕ) := (List.range n).map fun k => (k, k)

theorem mem_diagonal {q : ℕ × ℕ} : q ∈ diagonal n ↔ ∃ k < n, (k, k) = q := by
  rw [diagonal, List.mem_map]
  simp only [List.mem_range]

theorem pairs_diagonal (ha : n ≤ ka.length) (hb : n ≤ kb.length)
    (h : ∀ k < n, ka[k]? = kb[k]?) : Pairs ka kb (diagonal n) where
  aligned.pairwise := by
    rw [diagonal, List.pairwise_map]
    exact (List.pairwise_lt_range).imp fun {x y} hxy => ⟨hxy, hxy⟩
  aligned.lt q hq := by
    obtain ⟨k, hk, rfl⟩ := mem_diagonal.1 hq
    exact ⟨by dsimp only; omega, by dsimp only; omega⟩
  same q hq := by
    obtain ⟨k, hk, rfl⟩ := mem_diagonal.1 hq
    exact h k hk

/-- Before the first difference the keys are the same. -/
theorem same_of_firstDifference (hlen : a.length = rows.length)
    (h : ∀ k < n, ∀ (hk : k < (a.zip rows).length),
      ¬ decide ((a.zip rows)[k].1.key ≠ (a.zip rows)[k].2.key) = true) (hn : n ≤ a.length) :
    ∀ k < n, (a.map Row.key)[k]? = (rows.map KeptRow.key)[k]? := by
  intro k hk
  have hkz : k < (a.zip rows).length := by
    rw [List.length_zip]
    omega
  have := h k hk hkz
  rw [List.getElem_zip, decide_eq_true_eq, not_not] at this
  rw [List.getElem?_map, List.getElem?_map, List.getElem?_eq_getElem (by omega),
    List.getElem?_eq_getElem (by omega), Option.map_some, Option.map_some, this]

theorem firstDifference_self (rows : List KeptRow) :
    firstDifference (rows.map fun row => ⟨row.key, row.prevTvIndex⟩) rows = none := by
  rw [firstDifference, List.findIdx?_eq_none_iff]
  intro p hp
  obtain ⟨k, hk, rfl⟩ := List.getElem_of_mem hp
  simp

/-- Rows in order on both sides are kept, and nothing else is done. -/
theorem calculateMovesSorted_none (hk : Kept prev next rows) (ha : InOldOrder rows a)
    (hfirst : firstDifference a rows = none) {d ins : Finset ℕ}
    (hd : d = gaps prev.length (rows.map KeptRow.prevTvIndex))
    (hi : ins = gaps next.length (rows.map KeptRow.tvIndex)) :
    Edit.Takes ⟨d, ins, ∅⟩ prev next := by
  have hlen := ha.length
  rw [firstDifference, List.findIdx?_eq_none_iff] at hfirst
  have hsame := same_of_firstDifference (n := a.length) hlen (fun k _ hkz hne => by
    rw [hfirst _ (List.getElem_mem hkz)] at hne
    exact absurd hne Bool.false_ne_true) le_rfl
  refine takes_of_pairs hk ha (pairs_diagonal (n := a.length) (by rw [List.length_map])
    (by rw [List.length_map, hlen]) hsame) ?_ ?_
  · rw [hd, diagonal, List.map_map]
    refine (Finset.union_eq_left.2 fun x hx => ?_).symm
    obtain ⟨k, hkg, -⟩ := Finset.mem_image.1 hx
    obtain ⟨h1, h2⟩ := mem_gaps.1 hkg
    exact absurd (List.mem_map.2 ⟨k, List.mem_range.2 h1, rfl⟩) h2
  · rw [hi, diagonal, List.map_map]
    refine (Finset.union_eq_left.2 fun x hx => ?_).symm
    obtain ⟨k, hkg, -⟩ := Finset.mem_image.1 hx
    obtain ⟨h1, h2⟩ := mem_gaps.1 hkg
    exact absurd (List.mem_map.2 ⟨k, List.mem_range.2 (hlen ▸ h1), rfl⟩) h2

theorem gaps_diagonal_append {qs : List (ℕ × ℕ)} {g : ℕ × ℕ → ℕ} (hg : ∀ k, g (k, k) = k) {x : ℕ} :
    x ∈ gaps n ((diagonal i ++ qs).map g) ↔ i ≤ x ∧ x < n ∧ x ∉ qs.map g := by
  rw [mem_gaps, List.map_append, List.mem_append, not_or, diagonal, List.map_map]
  simp only [List.mem_map, List.mem_range, Function.comp_apply, hg, exists_eq_right, not_lt]
  tauto

theorem calculateMovesSorted_spec (std : StdSort) (hk : Kept prev next rows)
    (hd : c.deletions.toFinset = gaps prev.length (rows.map KeptRow.prevTvIndex))
    (hi : c.insertions.toFinset = gaps next.length (rows.map KeptRow.tvIndex)) :
    ∃ d ins : List ℕ, calculateMovesSorted std rows c = some { c with
        deletions := d.foldl IndexSet.add c.deletions
        insertions := ins.foldl IndexSet.add c.insertions } ∧
      Edit.Takes ⟨(d.foldl IndexSet.add c.deletions).toFinset,
        (ins.foldl IndexSet.add c.insertions).toFinset, ∅⟩ prev next := by
  have ha := inOldOrder_sort std hk.nodup
  unfold calculateMovesSorted
  dsimp only
  generalize std.sort (fun lft rgt => decide (lft.tvIndex < rgt.tvIndex ∨
    lft.tvIndex = rgt.tvIndex ∧ lft.key < rgt.key))
    (rows.map fun row => (⟨row.key, row.prevTvIndex⟩ : Row)) = a at ha ⊢
  have hlen := ha.length
  split
  · rename_i hfirst
    exact ⟨[], [], rfl, calculateMovesSorted_none hk ha hfirst hd hi⟩
  · rename_i first hfirst
    obtain ⟨hlt, -, hsame⟩ := List.findIdx?_eq_some_iff_getElem.1 hfirst
    rw [List.length_zip, hlen, Nat.min_self] at hlt
    have hsame := same_of_firstDifference (n := first) hlen
      (fun k hk _ => hsame k hk) (by omega)
    have hb := sorted_sort std rows
    have hp := places_sort std rows
    have hblen := (std.perm (fun lft rgt : Row => decide (lft.key < rgt.key ∨
      lft.key = rgt.key ∧ lft.tvIndex < rgt.tvIndex))
      (rows.mapIdx fun i row => (⟨row.key, i⟩ : Row))).length_eq
    rw [List.length_mapIdx, ← hlen] at hblen
    have hmem : ∀ key ∈ a.map Row.key, key ∈ rows.map KeptRow.key := fun key hkey => by
      rw [(ha.perm.map Row.key).mem_iff, List.map_map] at hkey
      exact hkey
    obtain ⟨ms, hms, hchain⟩ := longestMatches_spec c.modifications hb hp hblen hmem
      (show first ≤ a.length by omega)
    rw [hms, Option.map_some]
    have hchain' := hchain
    rw [hlen] at hchain'
    nth_rewrite 1 [← hlen] at hchain'
    obtain ⟨d, ins, halign, hdels, hins⟩ := alignLoop_spec a rows (some 0) ms first first c hchain'
    refine ⟨d, ins, ?_, ?_⟩
    · rw [← halign, hlen]
    · have hpairs : Pairs (a.map Row.key) (rows.map KeptRow.key)
          (diagonal first ++ ms.flatMap positions) := by
        refine (pairs_diagonal ?_ ?_ hsame).append (Chain.pairs (i := first) (j := first) ?_)
          fun p hp q hq => ?_
        · rw [List.length_map]
          omega
        · rw [List.length_map]
          omega
        · rwa [List.length_map, List.length_map]
        · obtain ⟨k, hk, rfl⟩ := mem_diagonal.1 hp
          have := Chain.le hchain hq
          exact ⟨by dsimp only; omega, by dsimp only; omega⟩
      refine takes_of_pairs hk ha hpairs ?_ ?_
      · rw [toFinset_foldl_add, hd]
        congr 1
        refine Finset.ext fun x => ?_
        rw [List.mem_toFinset, hdels, Finset.mem_image]
        simp only [gaps_diagonal_append (g := Prod.fst) fun _ => rfl, and_assoc]
      · rw [toFinset_foldl_add, hi]
        congr 1
        refine Finset.ext fun x => ?_
        rw [List.mem_toFinset, hins, Finset.mem_image]
        simp only [gaps_diagonal_append (g := Prod.snd) fun _ => rfl, and_assoc]

/-! ## All rows -/

/-- The rows of both lists, the deleted ones and the inserted ones are all rows of the lists. -/
structure Split (prev next : List ℤ) (rows : List KeptRow) (dels ins : List RowInfo) : Prop where
  old_perm : (rows.map placeBefore ++ dels.map place).Perm prev.zipIdx
  new_perm : (rows.map placeNow ++ ins.map place).Perm next.zipIdx
  sorted : (rows.map KeptRow.tvIndex).Pairwise (· < ·)
  ne : ∀ d ∈ dels, ∀ i ∈ ins, d.key ≠ i.key

theorem getElem?_of_perm_zipIdx {xs : List ℤ} {p : List (ℤ × ℕ)} (h : p.Perm xs.zipIdx)
    {q : ℤ × ℕ} (hq : q ∈ p) : xs[q.2]? = some q.1 :=
  List.mem_zipIdx_iff_getElem?.1 (h.mem_iff.1 hq)

theorem perm_gaps {xs : List ℤ} {p q : List (ℤ × ℕ)} (h : (p ++ q).Perm xs.zipIdx) :
    (q.map Prod.snd).toFinset = gaps xs.length (p.map Prod.snd) := by
  have hperm := h.map Prod.snd
  rw [List.map_append, List.zipIdx_map_snd, ← List.range_eq_range'] at hperm
  have hdisjoint := List.nodup_append'.1 (hperm.nodup_iff.2 List.nodup_range)
  refine Finset.ext fun x => ?_
  rw [List.mem_toFinset, mem_gaps, ← List.mem_range, ← hperm.mem_iff, List.mem_append]
  exact ⟨fun hx => ⟨.inr hx, fun hp => hdisjoint.2.2 hp hx⟩, fun ⟨hx, hp⟩ => hx.resolve_left hp⟩

theorem nodup_of_perm_zipIdx {xs : List ℤ} {p q : List (ℤ × ℕ)} (h : (p ++ q).Perm xs.zipIdx) :
    ((p ++ q).map Prod.snd).Nodup := by
  rw [(h.map Prod.snd).nodup_iff, List.zipIdx_map_snd, ← List.range_eq_range']
  exact List.nodup_range

variable {dels ins : List RowInfo} {keyDidChange : ℤ → Bool} {inTableOrder : Bool}

namespace Split

variable (h : Split prev next rows dels ins)

include h

theorem kept : Kept prev next rows where
  before row hrow := getElem?_of_perm_zipIdx h.old_perm
    (List.mem_append_left _ (List.mem_map_of_mem hrow))
  now row hrow := getElem?_of_perm_zipIdx h.new_perm
    (List.mem_append_left _ (List.mem_map_of_mem hrow))
  nodup := by
    have := nodup_of_perm_zipIdx h.old_perm
    rw [List.map_append, List.map_map] at this
    exact (List.nodup_append'.1 this).1
  sorted := h.sorted

theorem deletions : (dels.map RowInfo.tvIndex).toFinset
    = gaps prev.length (rows.map KeptRow.prevTvIndex) := by
  have := perm_gaps h.old_perm
  rwa [List.map_map, List.map_map] at this

theorem insertions : (ins.map RowInfo.tvIndex).toFinset
    = gaps next.length (rows.map KeptRow.tvIndex) := by
  have := perm_gaps h.new_perm
  rwa [List.map_map, List.map_map] at this

end Split

theorem buildRowInfo_perm (std : StdSort) (rows : List ℤ) :
    (buildRowInfo std rows).Perm (rows.mapIdx fun i key => ⟨key, none, i⟩) := std.perm _ _

theorem byKey_buildRowInfo (std : StdSort) (rows : List ℤ) : ByKey (buildRowInfo std rows) := by
  refine (std.sorted _ _ (fun x y hxy => ?_) fun x y z hxy hyz => ?_).imp fun {x y} hxy => ?_
  · simp only [decide_eq_true_eq, decide_eq_false_iff_not] at hxy ⊢
    omega
  · simp only [decide_eq_false_iff_not] at hxy hyz ⊢
    omega
  · have := of_decide_eq_false hxy
    omega

theorem place_buildRowInfo (std : StdSort) (rows : List ℤ) :
    ((buildRowInfo std rows).map place).Perm rows.zipIdx := by
  refine ((buildRowInfo_perm std rows).map place).trans (.of_eq ?_)
  refine List.ext_getElem? fun i => ?_
  rw [List.getElem?_map, List.getElem?_mapIdx, Option.map_map, List.getElem?_zipIdx]
  simp only [Function.comp_def, place, Nat.zero_add]

theorem prevTvIndex_buildRowInfo (std : StdSort) (rows : List ℤ) :
    ∀ row ∈ buildRowInfo std rows, row.prevTvIndex = none := by
  intro row hrow
  obtain ⟨i, hi, rfl⟩ := List.mem_mapIdx.1 ((buildRowInfo_perm std rows).mem_iff.1 hrow)
  rfl

/-- The rows of both lists sorted by where they are in the new one. -/
theorem split_sort (std : StdSort) {rows : List KeptRow} (old_perm : (rows.map placeBefore ++ dels.map place).Perm
    prev.zipIdx) (new_perm : (rows.map placeNow ++ ins.map place).Perm next.zipIdx)
    (ne : ∀ d ∈ dels, ∀ i ∈ ins, d.key ≠ i.key) :
    Split prev next (std.sort (fun lft rgt => decide (lft.tvIndex < rgt.tvIndex)) rows) dels ins :=
  have hperm := std.perm (fun lft rgt : KeptRow => decide (lft.tvIndex < rgt.tvIndex)) rows
  { old_perm := ((hperm.map placeBefore).append_right _).trans old_perm
    new_perm := ((hperm.map placeNow).append_right _).trans new_perm
    ne := ne
    sorted := by
      have hnodup : (rows.map KeptRow.tvIndex).Nodup := by
        have := nodup_of_perm_zipIdx new_perm
        rw [List.map_append, List.map_map] at this
        exact (List.nodup_append'.1 this).1
      have hsorted := std.sorted (fun lft rgt : KeptRow => decide (lft.tvIndex < rgt.tvIndex)) rows
        (fun x y hxy => by simp only [decide_eq_true_eq, decide_eq_false_iff_not] at hxy ⊢; omega)
        (fun x y z hxy hyz => by simp only [decide_eq_false_iff_not] at hxy hyz ⊢; omega)
      rw [← (hperm.map KeptRow.tvIndex).nodup_iff, List.Nodup, List.pairwise_map] at hnodup
      rw [List.pairwise_map]
      refine (hsorted.and hnodup).imp fun {x y} hxy => ?_
      have h1 := of_decide_eq_false hxy.1
      have h2 := hxy.2
      omega }

/-- In both lists by key, the rows are in order on both sides. -/
theorem inOldOrder_of_sorted (h : Kept prev next rows) (hp : prev.Pairwise (· < ·))
    (hn : next.Pairwise (· < ·)) :
    InOldOrder rows (rows.map fun row => ⟨row.key, row.prevTvIndex⟩) := by
  refine ⟨.refl _, ?_⟩
  have hsorted := h.sorted
  rw [List.map_map, List.pairwise_map]
  rw [List.pairwise_map] at hsorted
  refine hsorted.imp_of_mem fun {x y} hx hy hxy => ?_
  obtain ⟨h1, h2⟩ := List.getElem?_eq_some_iff.1 (h.now x hx)
  obtain ⟨h3, h4⟩ := List.getElem?_eq_some_iff.1 (h.now y hy)
  obtain ⟨h5, h6⟩ := List.getElem?_eq_some_iff.1 (h.before x hx)
  obtain ⟨h7, h8⟩ := List.getElem?_eq_some_iff.1 (h.before y hy)
  have hkey : x.key < y.key := by
    rw [← h2, ← h4]
    exact List.pairwise_iff_getElem.1 hn _ _ h1 h3 hxy
  -- indices of the old list the other way round would have the keys the other way round
  by_contra hle
  obtain hlt | heq := lt_or_eq_of_le (not_lt.1 hle)
  · have := List.pairwise_iff_getElem.1 hp _ _ h7 h5 hlt
    rw [h6, h8] at this
    omega
  · dsimp only [Function.comp_apply] at heq
    simp only [heq, h6] at h8
    omega

/-- The rows of both lists whose objects changed. -/
def changedRows (keyDidChange : ℤ → Bool) (rows : List KeptRow) : List ℕ :=
  (rows.filter fun row => keyDidChange row.key).map KeptRow.tvIndex

/-- The change set calculated: without moves, with the rows of one list only deleted and inserted
and those of both that changed modified. -/
structure Calculated (prev next : List ℤ) (keyDidChange : ℤ → Bool) (rows : List KeptRow)
    (dels ins : List RowInfo) (ret : CollectionChangeBuilder) : Prop where
  split : Split prev next rows dels ins
  moves : ret.moves = []
  columns : ret.columns = fun _ => ∅
  deletions : (dels.map RowInfo.tvIndex).toFinset ⊆ ret.deletions.toFinset
  insertions : (ins.map RowInfo.tvIndex).toFinset ⊆ ret.insertions.toFinset
  modifications : ret.modifications.toFinset = (changedRows keyDidChange rows).toFinset
  takes : Edit.Takes ⟨ret.deletions.toFinset, ret.insertions.toFinset, ∅⟩ prev next

/-- What is known before rows out of order are looked for. -/
def matched (keyDidChange : ℤ → Bool) (rows : List KeptRow) (dels ins : List RowInfo) :
    CollectionChangeBuilder where
  deletions := (dels.map RowInfo.tvIndex).foldl IndexSet.add ∅
  insertions := (ins.map RowInfo.tvIndex).foldl IndexSet.add ∅
  modifications := (changedRows keyDidChange rows).foldl IndexSet.add ∅

theorem toFinset_foldl_add_empty (l : List ℕ) :
    (l.foldl IndexSet.add ∅).toFinset = l.toFinset := by
  rw [toFinset_foldl_add, IndexSet.toFinset_empty, Finset.empty_union]

theorem calculateRows_eq (std : StdSort) (prev next : List ℤ) : ∃ rows dels ins,
    Split prev next rows dels ins ∧ ∀ keyDidChange inTableOrder,
      calculateRows std {} (buildRowInfo std prev) (buildRowInfo std next) keyDidChange inTableOrder
        = if inTableOrder then some (matched keyDidChange rows dels ins)
          else calculateMovesSorted std rows (matched keyDidChange rows dels ins) := by
  obtain ⟨dels, ins, heq, h1, h2, h3⟩ := matchRows_spec (buildRowInfo std prev)
    (buildRowInfo std next) {} (byKey_buildRowInfo std prev) (byKey_buildRowInfo std next)
    (prevTvIndex_buildRowInfo std next)
  refine ⟨_, dels, ins, split_sort std (h1.trans (place_buildRowInfo std prev))
    (h2.trans (place_buildRowInfo std next)) h3, fun keyDidChange inTableOrder => ?_⟩
  unfold calculateRows
  dsimp only
  rw [heq]
  rfl

theorem calculated_matched (h : Split prev next rows dels ins)
    (ha : InOldOrder rows (rows.map fun row => ⟨row.key, row.prevTvIndex⟩)) :
    Calculated prev next keyDidChange rows dels ins (matched keyDidChange rows dels ins) where
  split := h
  moves := rfl
  columns := rfl
  deletions := by rw [matched, toFinset_foldl_add_empty]
  insertions := by rw [matched, toFinset_foldl_add_empty]
  modifications := by rw [matched, toFinset_foldl_add_empty]
  takes := by
    refine calculateMovesSorted_none h.kept ha (firstDifference_self rows) ?_ ?_
    · rw [matched, toFinset_foldl_add_empty, h.deletions]
    · rw [matched, toFinset_foldl_add_empty, h.insertions]

theorem calculateRows_spec
    (horder : inTableOrder = true → prev.Pairwise (· < ·) ∧ next.Pairwise (· < ·)) :
    ∃ rows dels ins ret, calculateRows std {} (buildRowInfo std prev) (buildRowInfo std next)
      keyDidChange inTableOrder = some ret ∧ Calculated prev next keyDidChange rows dels ins ret := by
  obtain ⟨rows, dels, ins, hsplit, heq⟩ := calculateRows_eq std prev next
  rw [heq]
  split_ifs with hin
  · obtain ⟨hp, hn⟩ := horder hin
    exact ⟨rows, dels, ins, _, rfl,
      calculated_matched hsplit (inOldOrder_of_sorted hsplit.kept hp hn)⟩
  · obtain ⟨d, i, hret, htakes⟩ := calculateMovesSorted_spec std
      (c := matched keyDidChange rows dels ins) hsplit.kept
      (by rw [matched, toFinset_foldl_add_empty, hsplit.deletions])
      (by rw [matched, toFinset_foldl_add_empty, hsplit.insertions])
    refine ⟨rows, dels, ins, _, hret, hsplit, rfl, rfl, ?_, ?_, ?_, htakes⟩
    · rw [toFinset_foldl_add, matched, toFinset_foldl_add_empty]
      exact Finset.subset_union_left
    · rw [toFinset_foldl_add, matched, toFinset_foldl_add_empty]
      exact Finset.subset_union_left
    · rw [matched, toFinset_foldl_add_empty]

/-! ## The change applied -/

section Apply

variable {α : Type*} {xs : List α}

/-- Ranges taken out from the last on, the rows are those at the indices left. -/
theorem getElem?_takeOut {rs : List RangeVector.Range} (hv : RangeVector.Valid rs)
    (hlt : ∀ i ∈ RangeVector.toFinset rs, i < xs.length) (n : ℕ) :
    (rs.foldr (fun r xs => xs.take r.1 ++ xs.drop r.2) xs)[n]?
      = xs[shift (RangeVector.toFinset rs) n]? := by
  induction rs generalizing n with
  | nil => rw [RangeVector.toFinset_nil, shift_empty, List.foldr_nil]
  | cons r rs ih =>
    obtain ⟨hr, hrs, hv'⟩ := RangeVector.valid_cons.1 hv
    have hle := RangeVector.le_of_mem_toFinset hv
    rw [RangeVector.toFinset_cons] at hlt
    have hrest := ih hv' fun i hi => hlt i (Finset.mem_union_right _ hi)
    have hend : r.2 - 1 < xs.length := hlt _ (by
      rw [Finset.mem_union, Finset.mem_Ico]
      omega)
    rw [List.foldr_cons, RangeVector.toFinset_cons, shift_Ico_union hr.le hle]
    generalize rs.foldr (fun r xs => xs.take r.1 ++ xs.drop r.2) xs = ys at hrest ⊢
    -- what is taken out before is all past this range
    have hlen : r.2 ≤ ys.length := by
      have hfix : shift (RangeVector.toFinset rs) (r.2 - 1) = r.2 - 1 :=
        shift_of_lt fun j hj => by have := hle j hj; omega
      have := hrest (r.2 - 1)
      rw [hfix, List.getElem?_eq_getElem hend] at this
      have := (List.getElem?_eq_some_iff.1 this).1
      omega
    split_ifs with hn
    · have hfix : shift (RangeVector.toFinset rs) n = n :=
        shift_of_lt fun j hj => by have := hle j hj; omega
      rw [List.getElem?_append_left (by rw [List.length_take]; omega),
        List.getElem?_take_of_lt hn, hrest, hfix]
    · rw [List.getElem?_append_right (by rw [List.length_take]; omega), List.length_take,
        Nat.min_eq_left (by omega), List.getElem?_drop, hrest]
      congr 2
      omega

theorem applyChangeset_of_takes {ret : CollectionChangeBuilder}
    (h : Edit.Takes ⟨ret.deletions.toFinset, ret.insertions.toFinset, ∅⟩ prev next) :
    applyChangeset next ret prev = some next := by
  unfold applyChangeset
  dsimp only
  refine insertions_give h rfl (getElem?_takeOut ret.deletions.valid h.deletions)
    ret.insertions.asIndexes_pairwise ?_
  refine Finset.ext fun i => ?_
  rw [List.mem_toFinset, IndexSet.mem_asIndexes]

end Apply

/-! ## What the change set says -/

/-- No assertion fails. -/
theorem Calculated.calculate {ret : CollectionChangeBuilder}
    (h : Calculated prev next keyDidChange rows dels ins ret)
    (hret : calculateRows std {} (buildRowInfo std prev) (buildRowInfo std next) keyDidChange
      inTableOrder = some ret) : calculate std prev next keyDidChange inTableOrder = some ret := by
  rw [CollectionChangeBuilder.calculate, hret, Option.bind_some, if_pos]
  rw [Bool.and_eq_true, decide_eq_true_eq]
  refine ⟨?_, applyChangeset_of_takes h.takes⟩
  rw [verify, h.moves, List.all_nil]

theorem calculate_spec (std : StdSort) (prev next : List ℤ) (keyDidChange : ℤ → Bool)
    (inTableOrder : Bool)
    (horder : inTableOrder = true → prev.Pairwise (· < ·) ∧ next.Pairwise (· < ·)) :
    ∃ rows dels ins ret, calculate std prev next keyDidChange inTableOrder = some ret ∧
      Calculated prev next keyDidChange rows dels ins ret := by
  obtain ⟨rows, dels, ins, ret, hret, h⟩ := calculateRows_spec horder
  exact ⟨rows, dels, ins, ret, h.calculate hret, h⟩

/-- Where a key's rows hold the same on both sides unless it is said to have changed, the change set
is one of what the rows hold too. -/
theorem Calculated.tracks {α : Type*} {old new : List α} {ret : CollectionChangeBuilder}
    (h : Calculated prev next keyDidChange rows dels ins ret) (hold : old.length = prev.length)
    (hnew : new.length = next.length)
    (hsame : ∀ (i j : ℕ) key, prev[i]? = some key → next[j]? = some key → keyDidChange key = false →
      old[i]? = new[j]?) :
    Tracks (ret.edit ret.modifications) ret.moves old new := by
  refine ⟨⟨fun i hi => ?_, fun j hj => ?_, fun i hi => ?_, fun i hi hm => ?_⟩, ?_, ?_⟩
  · rw [hold]
    exact h.takes.deletions i hi
  · rw [hnew]
    exact h.takes.insertions j hj
  · rw [hold, hnew]
    exact h.takes.length i hi
  · have hkept := h.takes.kept i hi (Finset.notMem_empty _)
    have hfwd : (ret.edit ret.modifications).forward i
      = Edit.forward ⟨ret.deletions.toFinset, ret.insertions.toFinset, ∅⟩ i := rfl
    have hins := Edit.forward_notMem ⟨ret.deletions.toFinset, ret.insertions.toFinset, ∅⟩ i
    rw [hfwd] at hm ⊢
    generalize Edit.forward ⟨ret.deletions.toFinset, ret.insertions.toFinset, ∅⟩ i = j
      at hkept hins hm ⊢
    obtain hnone | ⟨key, hkey⟩ := Option.eq_none_or_eq_some next[j]?
    · rw [List.getElem?_eq_none_iff.2 (hold ▸ List.getElem?_eq_none_iff.1 (hkept.trans hnone)),
        List.getElem?_eq_none_iff.2 (hnew ▸ List.getElem?_eq_none_iff.1 hnone)]
    · refine hsame i j key (hkept.trans hkey) hkey (Bool.eq_false_iff.2 fun hchanged => hm ?_)
      -- a row that is not inserted is one of both lists
      have hrow : j ∈ rows.map KeptRow.tvIndex := by
        by_contra hnot
        refine hins (h.insertions ?_)
        rw [h.split.insertions]
        exact mem_gaps.2 ⟨(List.getElem?_eq_some_iff.1 hkey).1, hnot⟩
      obtain ⟨row, hmem, rfl⟩ := List.mem_map.1 hrow
      have hnow := h.split.kept.now row hmem
      rw [hkey, Option.some_inj] at hnow
      rw [edit, h.modifications, List.mem_toFinset]
      exact List.mem_map.2 ⟨row, List.mem_filter.2 ⟨hmem, hnow ▸ hchanged⟩, rfl⟩
  · rw [h.moves]
    simp
  · rw [h.moves]
    exact .nil

/-- A key of both lists is in a row, with one of its places at least. -/
theorem Split.exists_row {key : ℤ} (h : Split prev next rows dels ins) (hi : prev[i]? = some key)
    (hj : next[j]? = some key) :
    ∃ row ∈ rows, row.key = key ∧ (row.prevTvIndex = i ∨ row.tvIndex = j) := by
  have hold := h.old_perm.mem_iff.2 (List.mem_zipIdx_iff_getElem?.2 hi : (key, i) ∈ _)
  have hnew := h.new_perm.mem_iff.2 (List.mem_zipIdx_iff_getElem?.2 hj : (key, j) ∈ _)
  rw [List.mem_append] at hold hnew
  obtain hold | hold := hold
  · obtain ⟨row, hmem, hplace⟩ := List.mem_map.1 hold
    exact ⟨row, hmem, congrArg Prod.fst hplace, .inl (congrArg Prod.snd hplace)⟩
  · obtain hnew | hnew := hnew
    · obtain ⟨row, hmem, hplace⟩ := List.mem_map.1 hnew
      exact ⟨row, hmem, congrArg Prod.fst hplace, .inr (congrArg Prod.snd hplace)⟩
    · obtain ⟨d, hd, hdkey⟩ := List.mem_map.1 hold
      obtain ⟨i, hi, hikey⟩ := List.mem_map.1 hnew
      refine absurd ?_ (h.ne d hd i hi)
      exact (congrArg Prod.fst hdkey).trans (congrArg Prod.fst hikey).symm

/-- Where an entry is in a list without one twice. -/
theorem eq_of_getElem? {xs : List ℤ} {key : ℤ} (h : xs.Nodup) (hi : xs[i]? = some key)
    (hj : xs[j]? = some key) : i = j :=
  (List.getElem?_inj (List.getElem?_eq_some_iff.1 hi).1 h).1 (hi.trans hj.symm)

theorem Split.exists_now {key : ℤ} (h : Split prev next rows dels ins) (hkey : key ∈ prev)
    (hj : next[j]? = some key) (hn : next.Nodup) :
    ∃ row ∈ rows, row.key = key ∧ row.tvIndex = j := by
  obtain ⟨i, hi⟩ := List.getElem?_of_mem hkey
  obtain ⟨row, hmem, rfl, -⟩ := h.exists_row hi hj
  exact ⟨row, hmem, rfl, eq_of_getElem? hn (h.kept.now row hmem) hj⟩

theorem Split.exists_before {key : ℤ} (h : Split prev next rows dels ins) (hkey : key ∈ next)
    (hi : prev[i]? = some key) (hp : prev.Nodup) :
    ∃ row ∈ rows, row.key = key ∧ row.prevTvIndex = i := by
  obtain ⟨j, hj⟩ := List.getElem?_of_mem hkey
  obtain ⟨row, hmem, rfl, -⟩ := h.exists_row hi hj
  exact ⟨row, hmem, rfl, eq_of_getElem? hp (h.kept.before row hmem) hi⟩

theorem Calculated.of_mem_modifications {ret : CollectionChangeBuilder}
    (h : Calculated prev next keyDidChange rows dels ins ret)
    (hj : j ∈ ret.modifications.toFinset) :
    ∃ key ∈ prev, next[j]? = some key ∧ keyDidChange key = true := by
  rw [h.modifications, List.mem_toFinset] at hj
  obtain ⟨row, hrow, rfl⟩ := List.mem_map.1 hj
  obtain ⟨hmem, hchanged⟩ := List.mem_filter.1 hrow
  exact ⟨row.key, List.mem_of_getElem? (h.split.kept.before row hmem),
    h.split.kept.now row hmem, hchanged⟩

/-- In a list without a key twice, exactly the rows of both whose objects changed are modified. -/
theorem Calculated.modifications_iff {ret : CollectionChangeBuilder}
    (h : Calculated prev next keyDidChange rows dels ins ret) (hn : next.Nodup) :
    j ∈ ret.modifications.toFinset ↔
      ∃ key ∈ prev, next[j]? = some key ∧ keyDidChange key = true := by
  refine ⟨h.of_mem_modifications, ?_⟩
  rintro ⟨key, hkey, hj, hchanged⟩
  obtain ⟨row, hmem, rfl, rfl⟩ := h.split.exists_now hkey hj hn
  rw [h.modifications, List.mem_toFinset]
  exact List.mem_map.2 ⟨row, List.mem_filter.2 ⟨hmem, hchanged⟩, rfl⟩

/-- For any sort the change set calculated passes its assertions and takes what the old rows hold to
what the new ones do; and what it calls modified are the rows of both lists whose objects changed. -/
theorem calculate_tracks {α : Type*} (std : StdSort) (prev next : List ℤ)
    (keyDidChange : ℤ → Bool) (inTableOrder : Bool) (old new : List α)
    (hold : old.length = prev.length) (hnew : new.length = next.length)
    (horder : inTableOrder = true → prev.Pairwise (· < ·) ∧ next.Pairwise (· < ·))
    (hsame : ∀ (i j : ℕ) key, prev[i]? = some key → next[j]? = some key → keyDidChange key = false →
      old[i]? = new[j]?) :
    ∃ ret, calculate std prev next keyDidChange inTableOrder = some ret ∧
      Tracks (ret.edit ret.modifications) ret.moves old new ∧
      (∀ j ∈ ret.modifications.toFinset, ∃ key ∈ prev, next[j]? = some key ∧
        keyDidChange key = true) ∧
      (next.Nodup → ∀ j, j ∈ ret.modifications.toFinset ↔
        ∃ key ∈ prev, next[j]? = some key ∧ keyDidChange key = true) := by
  obtain ⟨rows, dels, ins, ret, hret, h⟩ :=
    calculate_spec std prev next keyDidChange inTableOrder horder
  exact ⟨ret, hret, h.tracks hold hnew hsame, fun j => h.of_mem_modifications,
    fun hn _ => h.modifications_iff hn⟩

/-- The last row comes first, one is deleted and one inserted, and the last of those left has
changed. -/
theorem calculate_tracks_moved : ∃ ret,
    calculate insertionSort [5, 7, 8, 9] [9, 5, 4, 8] (fun key => key = 8) false = some ret ∧
      Tracks (ret.edit ret.modifications) ret.moves ['a', 'b', 'c', 'd'] ['d', 'a', 'e', 'f'] ∧
      ∀ j, j ∈ ret.modifications.toFinset ↔
        ∃ key ∈ ([5, 7, 8, 9] : List ℤ), [9, 5, 4, 8][j]? = some key ∧ decide (key = 8) = true := by
  have hsame : ∀ (i j : ℕ) (key : ℤ), [5, 7, 8, 9][i]? = some key → [9, 5, 4, 8][j]? = some key →
      decide (key = 8) = false → ['a', 'b', 'c', 'd'][i]? = ['d', 'a', 'e', 'f'][j]? := by
    have hall : ∀ i < 4, ∀ j < 4, ([5, 7, 8, 9] : List ℤ)[i]? = [9, 5, 4, 8][j]? →
        ([5, 7, 8, 9] : List ℤ)[i]? ≠ some 8 →
        ['a', 'b', 'c', 'd'][i]? = ['d', 'a', 'e', 'f'][j]? := by decide
    intro i j key hi hj hkey
    refine hall i (List.getElem?_eq_some_iff.1 hi).1 j (List.getElem?_eq_some_iff.1 hj).1
      (hi.trans hj.symm) fun h => of_decide_eq_false hkey ?_
    exact Option.some_inj.1 (hi.symm.trans h)
  obtain ⟨ret, hret, htracks, -, hexact⟩ := calculate_tracks insertionSort [5, 7, 8, 9]
    [9, 5, 4, 8] (fun key => key = 8) false ['a', 'b', 'c', 'd'] ['d', 'a', 'e', 'f'] rfl rfl
    (fun h => absurd h Bool.false_ne_true) hsame
  exact ⟨ret, hret, htracks, hexact (by decide)⟩

/-! ## Rows that stay in order -/

/-- Sorted by the index there is one way the rows can stand. -/
theorem InOldOrder.unique (h : InOldOrder rows a) (h' : InOldOrder rows b) : a = b := by
  have ha := h.sorted
  have hb := h'.sorted
  rw [List.pairwise_map] at ha hb
  exact (h.perm.trans h'.perm.symm).eq_of_pairwise
    (fun x y _ _ hxy hyx => absurd (hxy.trans hyx) (lt_irrefl _)) ha hb

/-- Rows in order on both sides are not moved. -/
theorem calculateMovesSorted_of_inOrder (h : Kept prev next rows)
    (ha : InOldOrder rows (rows.map fun row => ⟨row.key, row.prevTvIndex⟩))
    (c : CollectionChangeBuilder) : calculateMovesSorted std rows c = some c := by
  unfold calculateMovesSorted
  dsimp only
  rw [(inOldOrder_sort std h.nodup).unique ha]
  rw [firstDifference_self]

theorem inOldOrder_of_sublist (h : Kept prev next rows) (hp : prev.Nodup)
    (hsub : (next.filter (· ∈ prev)).Sublist prev) :
    InOldOrder rows (rows.map fun row => ⟨row.key, row.prevTvIndex⟩) := by
  refine ⟨.refl _, ?_⟩
  have hpairwise : prev.Pairwise fun x y => prev.idxOf x < prev.idxOf y := by
    rw [List.pairwise_iff_getElem]
    intro i j hi hj hij
    rwa [hp.idxOf_getElem, hp.idxOf_getElem]
  have hnext := List.pairwise_filter.1 (hpairwise.sublist hsub)
  have hsorted := h.sorted
  rw [List.map_map, List.pairwise_map]
  rw [List.pairwise_map] at hsorted
  refine hsorted.imp_of_mem fun {x y} hx hy hxy => ?_
  obtain ⟨h1, h2⟩ := List.getElem?_eq_some_iff.1 (h.now x hx)
  obtain ⟨h3, h4⟩ := List.getElem?_eq_some_iff.1 (h.now y hy)
  obtain ⟨h5, h6⟩ := List.getElem?_eq_some_iff.1 (h.before x hx)
  obtain ⟨h7, h8⟩ := List.getElem?_eq_some_iff.1 (h.before y hy)
  have hlt := List.pairwise_iff_getElem.1 hnext _ _ h1 h3 hxy
  rw [h2, h4, ← h6, ← h8, hp.idxOf_getElem, hp.idxOf_getElem] at hlt
  exact hlt (decide_eq_true (List.getElem_mem h5)) (decide_eq_true (List.getElem_mem h7))

theorem Split.mem_deletions (h : Split prev next rows dels ins) (hp : prev.Nodup) (i : ℕ) :
    i ∈ (dels.map RowInfo.tvIndex).toFinset ↔ ∃ key, prev[i]? = some key ∧ key ∉ next := by
  rw [h.deletions, mem_gaps]
  constructor
  · rintro ⟨hi, hnot⟩
    refine ⟨prev[i], List.getElem?_eq_getElem hi, fun hkey => hnot ?_⟩
    obtain ⟨row, hmem, -, hrow⟩ := h.exists_before hkey (List.getElem?_eq_getElem hi) hp
    exact List.mem_map.2 ⟨row, hmem, hrow⟩
  · rintro ⟨key, hkey, hnot⟩
    refine ⟨(List.getElem?_eq_some_iff.1 hkey).1, fun hrow => hnot ?_⟩
    obtain ⟨row, hmem, rfl⟩ := List.mem_map.1 hrow
    have hbefore := h.kept.before row hmem
    rw [hkey, Option.some_inj] at hbefore
    exact hbefore ▸ List.mem_of_getElem? (h.kept.now row hmem)

theorem Split.mem_insertions (h : Split prev next rows dels ins) (hn : next.Nodup) (j : ℕ) :
    j ∈ (ins.map RowInfo.tvIndex).toFinset ↔ ∃ key, next[j]? = some key ∧ key ∉ prev := by
  rw [h.insertions, mem_gaps]
  constructor
  · rintro ⟨hj, hnot⟩
    refine ⟨next[j], List.getElem?_eq_getElem hj, fun hkey => hnot ?_⟩
    obtain ⟨row, hmem, -, hrow⟩ := h.exists_now hkey (List.getElem?_eq_getElem hj) hn
    exact List.mem_map.2 ⟨row, hmem, hrow⟩
  · rintro ⟨key, hkey, hnot⟩
    refine ⟨(List.getElem?_eq_some_iff.1 hkey).1, fun hrow => hnot ?_⟩
    obtain ⟨row, hmem, rfl⟩ := List.mem_map.1 hrow
    have hnow := h.kept.now row hmem
    rw [hkey, Option.some_inj] at hnow
    exact hnow ▸ List.mem_of_getElem? (h.kept.before row hmem)

/-- Rows of both lists that stay in order are neither deleted nor inserted, whether or not they are
known to be in the table's order. -/
theorem calculate_in_order (std : StdSort) (prev next : List ℤ) (keyDidChange : ℤ → Bool)
    (hp : prev.Nodup) (hn : next.Nodup) (hsub : (next.filter (· ∈ prev)).Sublist prev) :
    ∃ ret, (∀ inTableOrder, calculate std prev next keyDidChange inTableOrder = some ret) ∧
      (∀ i, i ∈ ret.deletions.toFinset ↔ ∃ key, prev[i]? = some key ∧ key ∉ next) ∧
      ∀ j, j ∈ ret.insertions.toFinset ↔ ∃ key, next[j]? = some key ∧ key ∉ prev := by
  obtain ⟨rows, dels, ins, hsplit, heq⟩ := calculateRows_eq std prev next
  have ha := inOldOrder_of_sublist hsplit.kept hp hsub
  refine ⟨matched keyDidChange rows dels ins, fun inTableOrder => ?_, fun i => ?_, fun j => ?_⟩
  · refine (calculated_matched hsplit ha).calculate ?_
    rw [heq, calculateMovesSorted_of_inOrder hsplit.kept ha, ite_self]
  · rw [matched, toFinset_foldl_add_empty, hsplit.mem_deletions hp]
  · rw [matched, toFinset_foldl_add_empty, hsplit.mem_insertions hn]

theorem calculate_in_order_inserted : ∃ ret,
    (∀ inTableOrder, calculate insertionSort [7, 5, 9] [7, 4, 9] (fun _ => false) inTableOrder
      = some ret) ∧
    (∀ i, i ∈ ret.deletions.toFinset ↔
      ∃ key : ℤ, [7, 5, 9][i]? = some key ∧ key ∉ ([7, 4, 9] : List ℤ)) ∧
    ∀ j, j ∈ ret.insertions.toFinset ↔
      ∃ key : ℤ, [7, 4, 9][j]? = some key ∧ key ∉ ([7, 5, 9] : List ℤ) :=
  calculate_in_order insertionSort [7, 5, 9] [7, 4, 9] (fun _ => false) (by decide) (by decide)
    (by decide)

end IosLearning.CollectionChangeBuilder
