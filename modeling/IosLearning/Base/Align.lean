import IosLearning.Base.Edit
import Mathlib.Data.List.Sort

/-!
# Lists aligned by pairs of indices

Pairs of indices that grow on both sides say which entries of two lists correspond. All other
entries deleted and inserted, they are an edit (`takes_of_aligned`); and an edit's new list is got
from the old one by taking out what is deleted and putting in, from the first on, what is inserted
(`insertions_give`).
-/

namespace IosLearning

variable {α : Type*} {l : List ℕ} {a b : List α} {n k : ℕ}

/-- The indices below the bound that are not in the list. -/
def gaps (n : ℕ) (l : List ℕ) : Finset ℕ := (Finset.range n).filter (· ∉ l)

theorem mem_gaps : k ∈ gaps n l ↔ k < n ∧ k ∉ l := by
  rw [gaps, Finset.mem_filter, Finset.mem_range]

/-- What is not a gap, in order: the list, and then all from the bound on. -/
theorem shift_gaps (hl : l.Pairwise (· < ·)) (hn : ∀ i ∈ l, i < n) (k : ℕ) :
    shift (gaps n l) k = if h : k < l.length then l[k] else n + (k - l.length) := by
  refine (congrFun (eq_shift_of_range (s := gaps n l) (f := fun k =>
    if h : k < l.length then l[k] else n + (k - l.length)) ?_ ?_) k).symm
  · refine strictMono_nat_of_lt_succ fun k => ?_
    split_ifs with h1 h2 h2
    · exact List.pairwise_iff_getElem.1 hl _ _ _ _ (Nat.lt_succ_self k)
    · have := hn _ (List.getElem_mem h1)
      omega
    · omega
    · omega
  · refine Set.ext fun i => ?_
    rw [Set.mem_range]
    constructor
    · rintro ⟨k, rfl⟩ hg
      rw [mem_gaps] at hg
      split_ifs at hg with h
      · exact hg.2 (List.getElem_mem h)
      · omega
    · intro hi
      change i ∉ gaps n l at hi
      rw [mem_gaps, not_and, not_not] at hi
      by_cases hin : i < n
      · obtain ⟨k, hk, rfl⟩ := List.getElem_of_mem (hi hin)
        exact ⟨k, dif_pos hk⟩
      · refine ⟨l.length + (i - n), ?_⟩
        rw [dif_neg (by omega)]
        omega

variable {ps : List (ℕ × ℕ)} {m : Finset ℕ}

/-- Entries of one list correspond to entries of the other, in order on both sides. -/
structure Aligned (ps : List (ℕ × ℕ)) (a b : List α) : Prop where
  pairwise : ps.Pairwise fun p q => p.1 < q.1 ∧ p.2 < q.2
  lt : ∀ p ∈ ps, p.1 < a.length ∧ p.2 < b.length

theorem Aligned.shift_fst (h : Aligned ps a b) (k : ℕ) :
    shift (gaps a.length (ps.map Prod.fst)) k =
      if h : k < ps.length then ps[k].1 else a.length + (k - ps.length) := by
  rw [shift_gaps (List.pairwise_map.2 (h.pairwise.imp And.left))
    fun i hi => by obtain ⟨p, hp, rfl⟩ := List.mem_map.1 hi; exact (h.lt p hp).1]
  simp only [List.length_map, List.getElem_map]

theorem Aligned.shift_snd (h : Aligned ps a b) (k : ℕ) :
    shift (gaps b.length (ps.map Prod.snd)) k =
      if h : k < ps.length then ps[k].2 else b.length + (k - ps.length) := by
  rw [shift_gaps (List.pairwise_map.2 (h.pairwise.imp And.right))
    fun i hi => by obtain ⟨p, hp, rfl⟩ := List.mem_map.1 hi; exact (h.lt p hp).2]
  simp only [List.length_map, List.getElem_map]

/-- The edit that deletes and inserts what does not correspond. -/
def alignment (ps : List (ℕ × ℕ)) (a b : List α) (m : Finset ℕ) : Edit :=
  ⟨gaps a.length (ps.map Prod.fst), gaps b.length (ps.map Prod.snd), m⟩

theorem takes_of_aligned (h : Aligned ps a b) (hm : ∀ p ∈ ps, p.2 ∉ m → a[p.1]? = b[p.2]?) :
    (alignment ps a b m).Takes a b where
  deletions i hi := (mem_gaps.1 hi).1
  insertions j hj := (mem_gaps.1 hj).1
  length i hi := by
    obtain ⟨k, rfl⟩ : ∃ k, shift (gaps a.length (ps.map Prod.fst)) k = i := ⟨_, shift_unshift hi⟩
    rw [alignment, Edit.forward_shift, h.shift_fst, h.shift_snd]
    split_ifs with hk
    · exact iff_of_true (h.lt _ (List.getElem_mem hk)).1 (h.lt _ (List.getElem_mem hk)).2
    · omega
  kept i hi hkept := by
    obtain ⟨k, rfl⟩ : ∃ k, shift (gaps a.length (ps.map Prod.fst)) k = i := ⟨_, shift_unshift hi⟩
    rw [alignment, Edit.forward_shift, h.shift_snd] at hkept
    rw [alignment, Edit.forward_shift, h.shift_fst, h.shift_snd]
    split_ifs with hk
    · rw [dif_pos hk] at hkept
      exact hm _ (List.getElem_mem hk) hkept
    · rw [List.getElem?_eq_none (by omega), List.getElem?_eq_none (by omega)]

/-! ## Entries of some indices only -/

section Through

variable {la lb : List ℕ} {qs : List (ℕ × ℕ)}

theorem getD_lt_getD (hla : la.Pairwise (· < ·)) {i j : ℕ} (hij : i < j) (hj : j < la.length) :
    la.getD i 0 < la.getD j 0 := by
  rw [List.getD_eq_getElem la 0 (hij.trans hj), List.getD_eq_getElem la 0 hj]
  exact List.pairwise_iff_getElem.1 hla _ _ _ _ hij

theorem getD_mem {i : ℕ} (hi : i < la.length) : la.getD i 0 ∈ la := by
  rw [List.getD_eq_getElem la 0 hi]
  exact List.getElem_mem hi

/-- Indices of which some are aligned align the entries at them. -/
theorem Aligned.through (h : Aligned qs la lb) (hla : la.Pairwise (· < ·))
    (hlb : lb.Pairwise (· < ·)) (hlta : ∀ i ∈ la, i < a.length) (hltb : ∀ i ∈ lb, i < b.length) :
    Aligned (qs.map fun q => (la.getD q.1 0, lb.getD q.2 0)) a b where
  pairwise := by
    rw [List.pairwise_map]
    refine h.pairwise.imp_of_mem fun {p q} hp hq hpq => ?_
    exact ⟨getD_lt_getD hla hpq.1 (h.lt q hq).1, getD_lt_getD hlb hpq.2 (h.lt q hq).2⟩
  lt p hp := by
    obtain ⟨q, hq, rfl⟩ := List.mem_map.1 hp
    exact ⟨hlta _ (getD_mem (h.lt q hq).1), hltb _ (getD_mem (h.lt q hq).2)⟩

/-- What is left out is what is at no index, and what is at one that is left out. -/
theorem gaps_through (hla : la.Pairwise (· < ·)) (hlta : ∀ i ∈ la, i < n)
    (hl : ∀ k ∈ l, k < la.length) : gaps n (l.map fun k => la.getD k 0)
      = gaps n la ∪ (gaps la.length l).image fun k => la.getD k 0 := by
  refine Finset.ext fun i => ?_
  rw [Finset.mem_union, Finset.mem_image, mem_gaps, mem_gaps]
  constructor
  · rintro ⟨hi, hil⟩
    by_cases hia : i ∈ la
    · obtain ⟨k, hk, rfl⟩ := List.getElem_of_mem hia
      refine .inr ⟨k, mem_gaps.2 ⟨hk, fun hkl => hil (List.mem_map.2 ⟨k, hkl, ?_⟩)⟩, ?_⟩ <;>
        exact List.getD_eq_getElem la 0 hk
    · exact .inl ⟨hi, hia⟩
  · rintro (⟨hi, hia⟩ | ⟨k, hk, rfl⟩)
    · refine ⟨hi, fun hil => hia ?_⟩
      obtain ⟨k, hk, rfl⟩ := List.mem_map.1 hil
      exact getD_mem (hl k hk)
    · obtain ⟨hk, hkl⟩ := mem_gaps.1 hk
      refine ⟨hlta _ (getD_mem hk), fun hil => hkl ?_⟩
      obtain ⟨k', hk', heq⟩ := List.mem_map.1 hil
      obtain h | rfl | h := lt_trichotomy k' k
      · exact absurd heq (getD_lt_getD hla h hk).ne
      · exact hk'
      · exact absurd heq (getD_lt_getD hla h (hl k' hk')).ne'

end Through

/-! ## Putting in what is inserted -/

/-- An entry that is not there, or an index past the end, is `none`. -/
def putIn (new : List α) (rows : List α) (i : ℕ) : Option (List α) :=
  if i ≤ rows.length then new[i]?.map fun row => rows.insertIdx i row else none

/-- The rows but for those at the indices are the old ones, and those are the new ones. -/
structure FilledIn (s : Finset ℕ) (mid new rows : List α) : Prop where
  length : rows.length = mid.length + s.card
  inserted : ∀ i ∈ s, rows[i]? = new[i]?
  kept : ∀ i ∉ s, rows[i]? = mid[unshift s i]?

theorem unshift_insert_of_le {s : Finset ℕ} {i : ℕ} (hs : ∀ j ∈ s, j < i) (k : ℕ) :
    unshift (insert i s) k = if k ≤ i then unshift s k else k - s.card - 1 := by
  have h1 := unshift_add_card (insert i s) k
  have h2 := unshift_add_card s k
  have hi : i ∉ s := fun h => lt_irrefl _ (hs i h)
  rw [Finset.filter_insert] at h1
  split_ifs at h1 with hik
  · rw [Finset.card_insert_of_notMem fun h => hi (Finset.mem_of_mem_filter _ h),
      Finset.filter_true_of_mem fun j hj => (hs j hj).trans hik] at h1
    rw [if_neg (by omega)]
    omega
  · rw [if_pos (by omega)]
    omega

theorem FilledIn.putIn {s : Finset ℕ} {mid new rows : List α} {i : ℕ}
    (h : FilledIn s mid new rows) (hs : ∀ j ∈ s, j < i) (hi : i ≤ rows.length)
    (hn : i < new.length) :
    ∃ rows', IosLearning.putIn new rows i = some rows' ∧ FilledIn (insert i s) mid new rows' := by
  have his : i ∉ s := fun h => lt_irrefl _ (hs i h)
  refine ⟨rows.insertIdx i new[i], ?_, ?_, ?_, ?_⟩
  · rw [IosLearning.putIn, if_pos hi, List.getElem?_eq_getElem hn, Option.map_some]
  · rw [List.length_insertIdx, if_pos hi, h.length, Finset.card_insert_of_notMem his]
    omega
  · intro j hj
    obtain rfl | hj := Finset.mem_insert.1 hj
    · rw [List.getElem?_insertIdx_self, if_pos hi, List.getElem?_eq_getElem hn]
    · rw [List.getElem?_insertIdx_of_lt (hs j hj), h.inserted j hj]
  · intro j hj
    rw [Finset.mem_insert, not_or] at hj
    rw [unshift_insert_of_le hs]
    split_ifs with hji
    · rw [List.getElem?_insertIdx_of_lt (by omega), h.kept j hj.2]
    · have hu := unshift_of_le (s := s) (i := j - 1) fun k hk => by have := hs k hk; omega
      rw [List.getElem?_insertIdx_of_gt (by omega), h.kept _ fun hm => by have := hs _ hm; omega]
      congr 1
      omega

theorem FilledIn.foldlM {mid new : List α} (e : Edit)
    (hins : ∀ i ∈ e.insertions, i < new.length)
    (hlen : mid.length = unshift e.insertions new.length) :
    ∀ (is : List ℕ) (s : Finset ℕ) (rows : List α), FilledIn s mid new rows →
      is.Pairwise (· < ·) → (∀ i ∈ is, ∀ j ∈ s, j < i) → s ∪ is.toFinset = e.insertions →
      ∃ rows', is.foldlM (IosLearning.putIn new) rows = some rows' ∧
        FilledIn e.insertions mid new rows'
  | [], s, rows, h, _, _, hs => by
    refine ⟨rows, rfl, ?_⟩
    rw [List.toFinset_nil, Finset.union_empty] at hs
    exact hs ▸ h
  | i :: is, s, rows, h, hp, hlt, hs => by
    rw [List.pairwise_cons] at hp
    have hi : i ∈ e.insertions := by
      rw [← hs]
      exact Finset.mem_union_right _ (List.mem_toFinset.2 (List.mem_cons_self ..))
    -- the indices put in before are those of the edit below this one
    have hbelow : e.insertions.filter (· < i) = s := by
      refine Finset.ext fun j => ?_
      rw [← hs, Finset.mem_filter, Finset.mem_union, List.mem_toFinset, List.mem_cons]
      constructor
      · rintro ⟨hj | rfl | hj, hji⟩
        · exact hj
        · exact absurd hji (lt_irrefl _)
        · exact absurd hji (hp.1 j hj).not_gt
      · exact fun hj => ⟨.inl hj, hlt i (List.mem_cons_self ..) j hj⟩
    have hu := unshift_add_card e.insertions i
    rw [hbelow] at hu
    have hle := unshift_mono e.insertions (hins i hi).le
    obtain ⟨rows', h1, h2⟩ := h.putIn (fun j hj => hlt i (List.mem_cons_self ..) j hj)
      (by rw [h.length]; omega) (hins i hi)
    obtain ⟨rows'', h3, h4⟩ := FilledIn.foldlM e hins hlen is (insert i s) rows' h2 hp.2
      (fun k hk j hj => by
        obtain rfl | hj := Finset.mem_insert.1 hj
        · exact hp.1 k hk
        · exact hlt k (List.mem_cons_of_mem _ hk) j hj)
      (by rw [← hs, List.toFinset_cons, Finset.insert_union, Finset.union_insert])
    exact ⟨rows'', by rw [List.foldlM_cons, h1]; exact h3, h4⟩

/-- The old list without what is deleted, and then with what is inserted, is the new one. -/
theorem insertions_give {e : Edit} {old mid new : List α} (h : e.Takes old new)
    (hm : e.modifications = ∅) (hmid : ∀ n, mid[n]? = old[shift e.deletions n]?) {is : List ℕ}
    (hp : is.Pairwise (· < ·)) (his : is.toFinset = e.insertions) :
    is.foldlM (putIn new) mid = some new := by
  have hlen : mid.length = unshift e.insertions new.length := by
    rw [← h.unshift_length]
    refine eq_of_forall_lt_iff fun n => ?_
    rw [lt_unshift_iff, ← not_le, ← not_le, ← List.getElem?_eq_none_iff,
      ← List.getElem?_eq_none_iff, hmid]
  obtain ⟨rows, h1, h2⟩ := FilledIn.foldlM e h.insertions hlen is ∅ mid
    ⟨by simp, by simp, fun i _ => by rw [unshift_empty]⟩ hp (by simp) (by simpa using his)
  rw [h1, Option.some_inj]
  refine List.ext_getElem? fun j => ?_
  by_cases hj : j ∈ e.insertions
  · exact h2.inserted j hj
  · rw [h2.kept j hj, hmid]
    have := h.kept _ (e.backward_notMem j) (by rw [hm]; exact Finset.notMem_empty _)
    rwa [Edit.forward_backward hj] at this

end IosLearning
