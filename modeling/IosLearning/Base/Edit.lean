import IosLearning.Base.Shift
import Mathlib.Data.List.Basic

/-!
# Edits of lists

An edit says what is deleted from an old list, what of the new one is inserted and what of it is
changed; the rest of the two lists corresponds, in order (`forward`). Edits in a row are one edit
(`Takes.comp`), and what an edit leaves open of the new list is only what it inserts or changes
(`Takes.unique`).
-/

namespace IosLearning

/-- Indices deleted from the old list, and indices of the new one inserted and changed. -/
@[ext]
structure Edit where
  deletions : Finset ℕ := ∅
  insertions : Finset ℕ := ∅
  modifications : Finset ℕ := ∅

namespace Edit

variable {α : Type*}

/-- Where an index that is not deleted goes. -/
noncomputable def forward (e : Edit) (i : ℕ) : ℕ := shift e.insertions (unshift e.deletions i)

/-- Where an index that is not inserted comes from. -/
noncomputable def backward (e : Edit) (j : ℕ) : ℕ := shift e.deletions (unshift e.insertions j)

/-- The edit takes the old list to the new one. -/
structure Takes (e : Edit) (old new : List α) : Prop where
  deletions : ∀ i ∈ e.deletions, i < old.length
  insertions : ∀ j ∈ e.insertions, j < new.length
  length : ∀ i ∉ e.deletions, i < old.length ↔ e.forward i < new.length
  kept : ∀ i ∉ e.deletions, e.forward i ∉ e.modifications → old[i]? = new[e.forward i]?

/-- An entry is deleted in one place and inserted in another, the same but for a change. -/
structure Moves (e : Edit) (old new : List α) (s t : ℕ) : Prop where
  source : s ∈ e.deletions
  target : t ∈ e.insertions
  same : t ∉ e.modifications → old[s]? = new[t]?

variable {e e' : Edit} {i j n : ℕ} {a b c : List α}

theorem forward_notMem (e : Edit) (i : ℕ) : e.forward i ∉ e.insertions := shift_notMem _ _

theorem backward_notMem (e : Edit) (j : ℕ) : e.backward j ∉ e.deletions := shift_notMem _ _

theorem backward_forward (hi : i ∉ e.deletions) : e.backward (e.forward i) = i := by
  rw [backward, forward, unshift_shift, shift_unshift hi]

theorem forward_backward (hj : j ∉ e.insertions) : e.forward (e.backward j) = j := by
  rw [backward, forward, unshift_shift, shift_unshift hj]

theorem forward_shift (e : Edit) (n : ℕ) :
    e.forward (shift e.deletions n) = shift e.insertions n := by
  rw [forward, unshift_shift]

theorem forward_lt_forward (hi : i ∉ e.deletions) (h : i < j) : e.forward i < e.forward j :=
  shift_strictMono _ (unshift_lt_unshift hi h)

theorem forward_eq_iff (hi : i ∉ e.deletions) (hj : j ∉ e.insertions) :
    e.forward i = j ↔ i = e.backward j :=
  ⟨fun h => by rw [← h, backward_forward hi], fun h => by rw [h, forward_backward hj]⟩

namespace Takes

/-- As many entries are left of the old list as of the new one. -/
theorem unshift_length (h : e.Takes a b) :
    unshift e.deletions a.length = unshift e.insertions b.length := by
  refine eq_of_forall_lt_iff fun n => ?_
  rw [lt_unshift_iff, lt_unshift_iff, ← e.forward_shift n]
  exact h.length _ (shift_notMem _ _)

theorem card (h : e.Takes a b) :
    a.length + e.insertions.card = b.length + e.deletions.card := by
  have h1 := unshift_of_le h.deletions
  have h2 := unshift_of_le h.insertions
  have := h.unshift_length
  omega

/-- More may be called changed. -/
theorem mono (h : e.Takes a b) (hd : e'.deletions = e.deletions)
    (hi : e'.insertions = e.insertions) (hm : e.modifications ⊆ e'.modifications) :
    e'.Takes a b := by
  obtain ⟨d, s, m⟩ := e'
  obtain rfl : d = _ := hd
  obtain rfl : s = _ := hi
  exact ⟨h.deletions, h.insertions, h.length, fun i hi hk => h.kept i hi fun hf => hk (hm hf)⟩

theorem refl (a : List α) : Takes ⟨∅, ∅, ∅⟩ a a where
  deletions := by simp
  insertions := by simp
  length i _ := by rw [forward, unshift_empty, shift_empty]
  kept i _ _ := by rw [forward, unshift_empty, shift_empty]

/-- What is not changed nor inserted is determined by the old list. -/
theorem unique {b' : List α} (h : e.Takes a b) (h' : e.Takes a b')
    (hs : ∀ j ∈ e.insertions ∪ e.modifications, b[j]? = b'[j]?) : b = b' := by
  refine List.ext_getElem? fun j => ?_
  by_cases hj : j ∈ e.insertions ∪ e.modifications
  · exact hs j hj
  · rw [Finset.mem_union, not_or] at hj
    have hb := h.kept _ (e.backward_notMem j)
    have hc := h'.kept _ (e.backward_notMem j)
    rw [forward_backward hj.1] at hb hc
    rw [← hb hj.2, hc hj.2]

/-- Nothing deleted, inserted or changed. -/
theorem eq_of_empty (h : Takes ⟨∅, ∅, ∅⟩ a b) : a = b :=
  (refl a).unique h (by simp)

end Takes

/-! ## Single edits -/

section Single

variable {x : α} {xs : List α} {s t : ℕ}

theorem takes_insert (xs : List α) (hi : i ≤ a.length) :
    Takes ⟨∅, Finset.Ico i (i + xs.length), ∅⟩ a (a.take i ++ xs ++ a.drop i) where
  deletions := by simp
  insertions j hj := by
    have := Finset.mem_Ico.1 hj
    simp only [List.length_append, List.length_take, List.length_drop]
    omega
  length k _ := by
    simp only [forward, unshift_empty, shift_Ico, List.length_append, List.length_take,
      List.length_drop]
    split_ifs <;> omega
  kept k _ _ := by
    simp only [forward, unshift_empty, shift_Ico]
    have hl : (a.take i ++ xs).length = i + xs.length := by
      rw [List.length_append, List.length_take, Nat.min_eq_left hi]
    split_ifs with h
    · rw [List.append_assoc, List.getElem?_append_left (by simp; omega), List.getElem?_take_of_lt h]
    · rw [List.getElem?_append_right (by omega), hl, List.getElem?_drop]
      congr 1
      omega

theorem takes_erase (hi : i < a.length) : Takes ⟨{i}, ∅, ∅⟩ a (a.eraseIdx i) where
  deletions := by simpa using hi
  insertions := by simp
  length k hk := by
    rw [Finset.mem_singleton] at hk
    simp only [forward, unshift_singleton, shift_empty, List.length_eraseIdx, if_pos hi]
    split_ifs <;> omega
  kept k hk _ := by
    rw [Finset.mem_singleton] at hk
    simp only [forward, unshift_singleton, shift_empty, List.getElem?_eraseIdx]
    split_ifs with h1 h2 h2
    · rfl
    · omega
    · omega
    · rw [Nat.sub_add_cancel (by omega)]

theorem takes_set (a : List α) (i : ℕ) (x : α) : Takes ⟨∅, ∅, {i}⟩ a (a.set i x) where
  deletions := by simp
  insertions := by simp
  length k _ := by simp only [forward, unshift_empty, shift_empty, List.length_set]
  kept k _ hk := by
    simp only [forward, unshift_empty, shift_empty, Finset.mem_singleton] at hk ⊢
    rw [List.getElem?_set_ne (Ne.symm hk)]

theorem takes_clear (a : List α) : Takes ⟨Finset.range a.length, ∅, ∅⟩ a [] where
  deletions i hi := Finset.mem_range.1 hi
  insertions := by simp
  length k hk := by simpa using hk
  kept k hk _ := by
    rw [Finset.mem_range, not_lt] at hk
    rw [List.getElem?_eq_none hk, List.getElem?_nil]

theorem takes_move (hs : s < a.length) (ht : t < a.length) :
    Takes ⟨{s}, {t}, ∅⟩ a ((a.eraseIdx s).insertIdx t x) where
  deletions := by simpa using hs
  insertions j hj := by
    rw [Finset.mem_singleton.1 hj, List.length_insertIdx, List.length_eraseIdx]
    split_ifs <;> omega
  length k hk := by
    rw [Finset.mem_singleton] at hk
    simp only [forward, unshift_singleton, shift_singleton, List.length_insertIdx,
      List.length_eraseIdx]
    split_ifs <;> omega
  kept k hk _ := by
    rw [Finset.mem_singleton] at hk
    simp only [forward, unshift_singleton, shift_singleton, List.getElem?_insertIdx,
      List.getElem?_eraseIdx]
    grind

/-- The entry moved is the one taken out. -/
theorem moves_move (hx : a[s]? = some x) (ht : t < a.length) :
    Moves ⟨{s}, {t}, ∅⟩ a ((a.eraseIdx s).insertIdx t x) s t where
  source := Finset.mem_singleton_self s
  target := Finset.mem_singleton_self t
  same _ := by
    have hs := (List.getElem?_eq_some_iff.1 hx).1
    have hl : t ≤ (a.eraseIdx s).length := by
      rw [List.length_eraseIdx, if_pos hs]
      omega
    rw [hx, List.getElem?_insertIdx_self, if_pos hl]

end Single

/-! ## Two edits in a row -/

/-- First `e` and then `e'`. -/
noncomputable def comp (e e' : Edit) : Edit where
  deletions := e.deletions ∪ spread e.deletions (close e.insertions e'.deletions)
  insertions := e'.insertions ∪ spread e'.insertions (close e'.deletions e.insertions)
  modifications := e'.modifications ∪ spread e'.insertions (close e'.deletions e.modifications)

theorem mem_comp_deletions :
    i ∈ (e.comp e').deletions ↔ i ∈ e.deletions ∨ e.forward i ∈ e'.deletions := by
  simp only [comp, Finset.mem_union, mem_spread, mem_close, forward]
  tauto

theorem mem_comp_insertions :
    j ∈ (e.comp e').insertions ↔ j ∈ e'.insertions ∨ e'.backward j ∈ e.insertions := by
  simp only [comp, Finset.mem_union, mem_spread, mem_close, backward]
  tauto

theorem mem_comp_modifications : j ∈ (e.comp e').modifications ↔
    j ∈ e'.modifications ∨ (j ∉ e'.insertions ∧ e'.backward j ∈ e.modifications) := by
  simp only [comp, Finset.mem_union, mem_spread, mem_close, backward]

/-- The edit of two in a row goes where they go one after the other. -/
theorem comp_forward (hi : i ∉ (e.comp e').deletions) :
    (e.comp e').forward i = e'.forward (e.forward i) := by
  have hd : ∀ {k}, k ∉ (e.comp e').deletions → k ∉ e.deletions ∧ e.forward k ∉ e'.deletions :=
    fun hk => not_or.1 (mt mem_comp_deletions.2 hk)
  have hmono : StrictMono fun n => e'.forward (e.forward (shift (e.comp e').deletions n)) := by
    intro n m hnm
    obtain ⟨h1, h2⟩ := hd (shift_notMem (e.comp e').deletions n)
    exact forward_lt_forward h2 (forward_lt_forward h1 (shift_strictMono _ hnm))
  have hrange : Set.range (fun n => e'.forward (e.forward (shift (e.comp e').deletions n)))
      = {j | j ∉ (e.comp e').insertions} := by
    ext j
    rw [Set.mem_range, Set.mem_ofPred_eq, mem_comp_insertions, not_or]
    refine ⟨?_, fun h => ?_⟩
    · rintro ⟨n, rfl⟩
      obtain ⟨-, h2⟩ := hd (shift_notMem (e.comp e').deletions n)
      refine ⟨e'.forward_notMem _, ?_⟩
      rw [backward_forward h2]
      exact e.forward_notMem _
    · have hk : e.backward (e'.backward j) ∉ (e.comp e').deletions := by
        rw [mem_comp_deletions, not_or, forward_backward h.2]
        exact ⟨e.backward_notMem _, e'.backward_notMem _⟩
      refine ⟨unshift (e.comp e').deletions (e.backward (e'.backward j)), ?_⟩
      show e'.forward (e.forward (shift _ (unshift _ _))) = j
      rw [shift_unshift hk, forward_backward h.2, forward_backward h.1]
  have h := congrFun (eq_shift_of_range hmono hrange) (unshift (e.comp e').deletions i)
  rw [forward, ← h]
  show e'.forward (e.forward (shift _ (unshift _ _))) = _
  rw [shift_unshift hi]

theorem Takes.comp (h : e.Takes a b) (h' : e'.Takes b c) : (e.comp e').Takes a c where
  deletions i hi := by
    rcases mem_comp_deletions.1 hi with hi | hi
    · exact h.deletions i hi
    · by_cases hd : i ∈ e.deletions
      · exact h.deletions i hd
      · exact (h.length i hd).2 (h'.deletions _ hi)
  insertions j hj := by
    rcases mem_comp_insertions.1 hj with hj | hj
    · exact h'.insertions j hj
    · by_cases hd : j ∈ e'.insertions
      · exact h'.insertions j hd
      · have := (h'.length _ (e'.backward_notMem j)).1 (h.insertions _ hj)
        rwa [forward_backward hd] at this
  length i hi := by
    obtain ⟨h1, h2⟩ := not_or.1 (mt mem_comp_deletions.2 hi)
    rw [comp_forward hi, h.length i h1, h'.length _ h2]
  kept i hi hm := by
    obtain ⟨h1, h2⟩ := not_or.1 (mt mem_comp_deletions.2 hi)
    rw [comp_forward hi, mem_comp_modifications, not_or, backward_forward h2] at hm
    rw [comp_forward hi, h.kept i h1 fun hk => hm.2 ⟨e'.forward_notMem _, hk⟩, h'.kept _ h2 hm.1]

/-! ## Moved entries -/

namespace Moves

variable {s t u : ℕ} {f : Edit}

theorem mono (h : e.Moves a b s t) (hd : e'.deletions = e.deletions)
    (hi : e'.insertions = e.insertions) (hm : e.modifications ⊆ e'.modifications) :
    e'.Moves a b s t :=
  ⟨hd ▸ h.source, hi ▸ h.target, fun hn => h.same fun ht => hn (hm ht)⟩

/-- What was moved is kept where it is, or goes along. -/
theorem comp_takes (h : e.Moves a b s t) (h' : e'.Takes b c) (ht : t ∉ e'.deletions) :
    (e.comp e').Moves a c s (e'.forward t) where
  source := mem_comp_deletions.2 (.inl h.source)
  target := mem_comp_insertions.2 (.inr (by rw [backward_forward ht]; exact h.target))
  same hn := by
    rw [mem_comp_modifications, not_or, backward_forward ht] at hn
    rw [h.same fun hk => hn.2 ⟨e'.forward_notMem _, hk⟩, h'.kept t ht hn.1]

/-- What is moved was kept where it was. -/
theorem takes_comp (h : e.Takes a b) (h' : e'.Moves b c t u) (ht : t ∉ e.insertions)
    (hd : f.deletions = (e.comp e').deletions) (hi : f.insertions = (e.comp e').insertions)
    (hm : (e.comp e').modifications ⊆ f.modifications)
    (hu : t ∈ e.modifications → u ∈ f.modifications) : f.Moves a c (e.backward t) u where
  source := by
    rw [hd, mem_comp_deletions, forward_backward ht]
    exact .inr h'.source
  target := by
    rw [hi, mem_comp_insertions]
    exact .inl h'.target
  same hn := by
    have hb := h.kept _ (e.backward_notMem t)
    rw [forward_backward ht] at hb
    rw [hb fun hk => hn (hu hk), h'.same fun hk => hn (hm (mem_comp_modifications.2 (.inl hk)))]

/-- What was moved is moved again. -/
theorem comp (h : e.Moves a b s t) (h' : e'.Moves b c t u)
    (hd : f.deletions = (e.comp e').deletions) (hi : f.insertions = (e.comp e').insertions)
    (hm : (e.comp e').modifications ⊆ f.modifications)
    (hu : t ∈ e.modifications → u ∈ f.modifications) : f.Moves a c s u where
  source := by
    rw [hd, mem_comp_deletions]
    exact .inl h.source
  target := by
    rw [hi, mem_comp_insertions]
    exact .inl h'.target
  same hn := by
    rw [h.same fun hk => hn (hu hk),
      h'.same fun hk => hn (hm (mem_comp_modifications.2 (.inl hk)))]

end Moves

/-- An entry moved to where it would be anyway need not be called deleted and inserted. -/
def keep (e : Edit) (s t : ℕ) : Edit :=
  ⟨e.deletions.erase s, e.insertions.erase t, e.modifications⟩

section Keep

variable {s t : ℕ}

theorem keep_forward (hs : s ∈ e.deletions) (ht : t ∈ e.insertions)
    (hr : unshift e.deletions s = unshift e.insertions t) (hi : i ∉ e.deletions) :
    (e.keep s t).forward i = e.forward i := by
  have hsh := shift_erase_shift hs (unshift e.deletions i)
  rw [shift_unshift hi, shift_eq_iff] at hsh
  show shift (e.insertions.erase t) (unshift (e.deletions.erase s) i) = _
  rw [hsh.2, hr, shift_erase_shift ht, forward]

theorem keep_forward_self (hr : unshift e.deletions s = unshift e.insertions t) :
    (e.keep s t).forward s = t := by
  show shift (e.insertions.erase t) (unshift (e.deletions.erase s) s) = t
  rw [unshift_erase_self, hr, shift_erase_self]

theorem Takes.keep (h : e.Takes a b) (hm : e.Moves a b s t)
    (hr : unshift e.deletions s = unshift e.insertions t) : (e.keep s t).Takes a b := by
  have hcase : ∀ i ∉ (e.keep s t).deletions,
      (i = s ∧ (e.keep s t).forward i = t)
        ∨ (i ∉ e.deletions ∧ (e.keep s t).forward i = e.forward i) := by
    intro i hi
    by_cases his : i = s
    · subst his
      exact .inl ⟨rfl, keep_forward_self hr⟩
    · have hd : i ∉ e.deletions := fun hd => hi (Finset.mem_erase.2 ⟨his, hd⟩)
      exact .inr ⟨hd, keep_forward hm.source hm.target hr hd⟩
  refine ⟨fun i hi => h.deletions i (Finset.mem_of_mem_erase hi),
    fun j hj => h.insertions j (Finset.mem_of_mem_erase hj), fun i hi => ?_, fun i hi hn => ?_⟩
  · rcases hcase i hi with ⟨rfl, hf⟩ | ⟨hd, hf⟩
    · rw [hf]
      exact ⟨fun _ => h.insertions _ hm.target, fun _ => h.deletions _ hm.source⟩
    · rw [hf]
      exact h.length i hd
  · rcases hcase i hi with ⟨rfl, hf⟩ | ⟨hd, hf⟩
    · rw [hf] at hn ⊢
      exact hm.same hn
    · rw [hf] at hn ⊢
      exact h.kept i hd hn

/-- Other entries stay moved. -/
theorem Moves.keep {s' t' : ℕ} (h : e.Moves a b s' t') (hs : s' ≠ s) (ht : t' ≠ t) :
    (e.keep s t).Moves a b s' t' :=
  ⟨Finset.mem_erase.2 ⟨hs, h.source⟩, Finset.mem_erase.2 ⟨ht, h.target⟩, h.same⟩

end Keep

end Edit

end IosLearning
