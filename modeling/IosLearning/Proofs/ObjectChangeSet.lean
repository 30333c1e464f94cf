import IosLearning.ObjectChangeSet

/-!
# What a table's change set records

It tells which of the objects now there were there before, and the columns of those that may have
other values. Each operation keeps that. Two change sets merged tell what both do only where no
object of the first is deleted in the second, and where a clearing in the second has no objects
inserted in the first left.
-/

namespace IosLearning

variable {β : Type*} {old new a b c : ℤ → Option (ℤ → β)} {s s' : ObjectChangeSet}
  {key k : ℤ} {values : ℤ → β} {value : β}

namespace ObjectChangeSet

/-- The objects `new` that come of `old`. -/
structure Records (s : ObjectChangeSet) (old new : ℤ → Option (ℤ → β)) : Prop where
  present : ∀ k, (new k).isSome = true ↔
    k ∈ s.insertions ∨ (old k).isSome = true ∧ s.deletionsContains k = false
  same : ∀ k ∉ s.insertions, ∀ values values', old k = some values → new k = some values' →
    ∀ col, (k, col) ∉ s.modifications → values' col = values col
  deleted : s.clearDidOccur = false → ∀ k ∈ s.deletions, (old k).isSome = true
  inserted : s.clearDidOccur = false → ∀ k ∈ s.insertions, (old k).isSome = true → k ∈ s.deletions

theorem deletionsContains_eq_false : s.deletionsContains k = false ↔
    (s.clearDidOccur = true ∧ k ∈ s.insertions) ∨ (s.clearDidOccur = false ∧ k ∉ s.deletions) := by
  unfold deletionsContains
  split_ifs with h <;> simp [h]

theorem records_refl (a : ℤ → Option (ℤ → β)) : Records {} a a where
  present k := by simp [deletionsContains]
  same k _ values values' h h' col _ := by rw [Option.some.inj (h.symm.trans h')]
  deleted _ := by simp
  inserted _ := by simp

theorem Records.eq_of_isEmpty (h : Records s old new) (he : s.isEmpty = true) : new = old := by
  simp only [isEmpty, modificationsEmpty, Bool.and_eq_true, decide_eq_true_eq,
    Bool.not_eq_true'] at he
  obtain ⟨⟨⟨hd, hi⟩, hm⟩, hc⟩ := he
  funext k
  have hp := h.present k
  rw [hi, deletionsContains_eq_false, hc, hd] at hp
  simp only [Finset.notMem_empty, false_or, Bool.false_eq_true, false_and,
    not_false_eq_true, and_true] at hp
  rcases ho : old k with _ | values <;> rcases hn : new k with _ | values'
  · rfl
  · simp [ho, hn] at hp
  · simp [ho, hn] at hp
  · have hs := h.same k (by simp [hi]) values values' ho hn
    simp only [hm, Finset.notMem_empty, not_false_eq_true, forall_const] at hs
    rw [funext hs]

/-- Values may be others where they are reported. -/
theorem Records.congr {new' : ℤ → Option (ℤ → β)} (h : Records s old new)
    (hp : ∀ k, (new' k).isSome = (new k).isSome)
    (hv : ∀ k ∉ s.insertions, ∀ values values', new k = some values → new' k = some values' →
      ∀ col, (k, col) ∉ s.modifications → values' col = values col) : Records s old new' := by
  refine ⟨fun k => by rw [hp, h.present k], fun k hk v v' ho hn col hcol => ?_, h.deleted,
    h.inserted⟩
  have hs := hp k
  rw [hn] at hs
  obtain ⟨w, hw⟩ := Option.isSome_iff_exists.1 hs.symm
  rw [hv k hk w v' hw hn col hcol, h.same k hk v w ho hw col hcol]

/-! ## Operations -/

theorem records_insertionsAdd (h : Records s old new) (hn : new key = none) (values : ℤ → β) :
    Records (s.insertionsAdd key) old (Function.update new key (some values)) := by
  have hp := h.present
  have hk : key ∉ s.insertions ∧ ((old key).isSome = true → s.deletionsContains key = true) := by
    have := hp key
    simp only [hn, Option.isSome_none, Bool.false_eq_true, false_iff, not_or, not_and,
      Bool.not_eq_false] at this
    exact this
  simp only [deletionsContains_eq_false] at hp
  constructor
  · intro k
    have := hp k
    by_cases hkk : k = key <;>
      simp only [insertionsAdd, deletionsContains_eq_false, Function.update, Finset.mem_insert] <;>
      grind
  · intro k hk' v v' ho hv'
    have hne : k ≠ key := fun he => hk' (by simp [insertionsAdd, he])
    rw [Function.update_of_ne hne] at hv'
    exact h.same k (fun hi => hk' (Finset.mem_insert_of_mem hi)) v v' ho hv'
  · exact h.deleted
  · intro hc k hi ho
    rcases Finset.mem_insert.1 hi with rfl | hi
    · have := hk.2 ho
      have hc' : s.clearDidOccur = false := hc
      rw [deletionsContains, if_neg (by simp [hc'])] at this
      exact of_decide_eq_true this
    · exact h.inserted hc k hi ho

theorem records_modificationsAdd (col : ℤ) (h : Records s old new) (hn : new key = some values)
    (value : β) : Records (s.modificationsAdd key col) old
      (Function.update new key (some (Function.update values col value))) := by
  have hsome : ∀ k, (Function.update new key (some (Function.update values col value)) k).isSome
      = (new k).isSome := fun k => by
    by_cases hk : k = key <;> simp [Function.update, hk, hn]
  unfold modificationsAdd
  split_ifs with hi
  · refine ⟨fun k => by rw [hsome, h.present k], fun k hk v v' ho hv' => ?_, h.deleted, h.inserted⟩
    have hne : k ≠ key := fun he => hk (he ▸ hi)
    rw [Function.update_of_ne hne] at hv'
    exact h.same k hk v v' ho hv'
  · refine ⟨fun k => ?_, fun k hk v v' ho hv' c hc => ?_, h.deleted, h.inserted⟩
    · rw [hsome, h.present k]
      rfl
    · simp only [Finset.mem_insert, not_or] at hc
      by_cases hkk : k = key
      · subst hkk
        rw [Function.update_self] at hv'
        obtain rfl := Option.some.inj hv'
        have hcol : c ≠ col := fun he => hc.1 (by rw [he])
        rw [Function.update_of_ne hcol]
        exact h.same k hk v values ho hn c hc.2
      · rw [Function.update_of_ne hkk] at hv'
        exact h.same k hk v v' ho hv' c hc.2

theorem Records.same_remove (h : Records s old new)
    (hi : ∀ k ≠ key, k ∉ s'.insertions → k ∉ s.insertions)
    (hm : ∀ k ≠ key, ∀ col, (k, col) ∉ s'.modifications → (k, col) ∉ s.modifications) :
    ∀ k ∉ s'.insertions, ∀ values values', old k = some values →
      Function.update new key none k = some values' →
      ∀ col, (k, col) ∉ s'.modifications → values' col = values col := by
  intro k hk v v' ho hv' c hc
  have hne : k ≠ key := fun he => by
    rw [he, Function.update_self] at hv'
    cases hv'
  rw [Function.update_of_ne hne] at hv'
  exact h.same k (hi k hne hk) v v' ho hv' c (hm k hne c hc)

/-- What the log's reader does for an object removed. -/
def remove (key : ℤ) (s : ObjectChangeSet) : ObjectChangeSet :=
  (if (s.insertionsRemove key).1 then (s.insertionsRemove key).2
    else (s.insertionsRemove key).2.deletionsAdd key).modificationsRemove key

theorem remove_of_mem (hi : key ∈ s.insertions) : s.remove key =
    { s with
      insertions := s.insertions.erase key
      modifications := s.modifications.filter fun p => p.1 ≠ key } := by
  simp [remove, insertionsRemove, hi, modificationsRemove]

theorem remove_of_notMem (hi : key ∉ s.insertions) : s.remove key =
    { s with
      deletions := insert key s.deletions
      modifications := s.modifications.filter fun p => p.1 ≠ key } := by
  simp [remove, insertionsRemove, hi, modificationsRemove, deletionsAdd, Finset.filter_filter,
    Finset.erase_eq_of_notMem]

theorem records_remove (h : Records s old new) (hn : new key = some values) :
    Records (s.remove key) old (Function.update new key none) := by
  have hp := h.present
  have hk := hp key
  simp only [hn, Option.isSome_some, true_iff] at hk
  simp only [deletionsContains_eq_false] at hp hk
  by_cases hi : key ∈ s.insertions
  · rw [remove_of_mem hi]
    refine ⟨fun k => ?_, h.same_remove ?_ ?_, h.deleted, fun hc k hm => ?_⟩
    · have := hp k
      have := fun hc => h.inserted hc key hi
      by_cases hkk : k = key <;>
        simp only [deletionsContains_eq_false, Function.update, Finset.mem_erase] <;>
        grind
    · exact fun k hne hm hm' => hm (Finset.mem_erase.2 ⟨hne, hm'⟩)
    · exact fun k hne c hm hm' => hm (Finset.mem_filter.2 ⟨hm', hne⟩)
    · exact h.inserted hc k (Finset.mem_of_mem_erase hm)
  · -- it was there before, so the table was not cleared
    have hc : s.clearDidOccur = false ∧ (old key).isSome = true := by
      rcases hk with hk | ⟨ho, ⟨-, hk⟩ | hk⟩
      · exact (hi hk).elim
      · exact (hi hk).elim
      · exact ⟨hk.1, ho⟩
    rw [remove_of_notMem hi]
    refine ⟨fun k => ?_, h.same_remove ?_ ?_, fun _ k hm => ?_, fun _ k hm ho => ?_⟩
    · have := hp k
      by_cases hkk : k = key <;>
        simp only [deletionsContains_eq_false, Function.update, Finset.mem_insert] <;>
        grind
    · exact fun k _ hm => hm
    · exact fun k hne c hm hm' => hm (Finset.mem_filter.2 ⟨hm', hne⟩)
    · rcases Finset.mem_insert.1 hm with rfl | hm
      · exact hc.2
      · exact h.deleted hc.1 k hm
    · exact Finset.mem_insert_of_mem (h.inserted hc.1 k hm ho)

theorem records_clear (old : ℤ → Option (ℤ → β)) : Records clear old fun _ => none where
  present k := by simp [clear, deletionsContains]
  same k _ values values' _ h' := by cases h'
  deleted h := by simp [clear] at h
  inserted h := by simp [clear] at h

/-! ## Two change sets merged -/

/-- The objects of the first that are deleted in the second were there before. -/
theorem Records.merged (h : Records s a b) (h' : Records s' b c)
    (hd : s'.deletions ∩ s.insertions = ∅) (hc : s'.clearDidOccur = true → s.insertions ⊆ s'.insertions) :
    Records {
      deletions := s.deletions ∪ s'.deletions
      insertions := s.insertions ∪ s'.insertions
      modifications := (s.modifications.filter fun p => p.1 ∉ s'.deletions) ∪ s'.modifications
      clearDidOccur := s.clearDidOccur || s'.clearDidOccur } a c := by
  have hd' : ∀ k ∈ s'.deletions, k ∉ s.insertions := fun k hk hi =>
    Finset.notMem_empty k (hd ▸ Finset.mem_inter.2 ⟨hk, hi⟩)
  have hp := h.present
  have hp' := h'.present
  simp only [deletionsContains_eq_false] at hp hp'
  constructor
  · intro k
    have h1 := hp k
    have h2 := hp' k
    have h3 := hd' k
    have h4 := fun hc' => @hc hc' k
    simp only [deletionsContains_eq_false, Finset.mem_union, Bool.or_eq_true, Bool.or_eq_false_iff]
    rcases hs : s.clearDidOccur with _ | _ <;> rcases hs' : s'.clearDidOccur with _ | _ <;>
      simp only [hs, hs', true_and, false_and, or_false, false_or, Bool.false_eq_true, reduceCtorEq,
        or_true, and_true, forall_const, and_false] at h1 h2 h4 ⊢ <;>
      grind
  · intro k hk v v' ho hv' col hcol
    simp only [Finset.mem_union, Finset.mem_filter, not_or, not_and, not_not] at hk hcol
    have hck : (c k).isSome = true := by rw [hv']; rfl
    rcases (h'.present k).1 hck with hi | ⟨hbk, hdel⟩
    · exact (hk.2 hi).elim
    · obtain ⟨w, hw⟩ := Option.isSome_iff_exists.1 hbk
      have hnd : k ∉ s'.deletions := by
        rcases deletionsContains_eq_false.1 hdel with ⟨-, hi⟩ | ⟨-, hnd⟩
        · exact (hk.2 hi).elim
        · exact hnd
      rw [h'.same k hk.2 w v' hw hv' col hcol.2]
      exact h.same k hk.1 v w ho hw col fun hm => hnd (hcol.1 hm)
  · intro hcl k hk
    obtain ⟨hc1, hc2⟩ := Bool.or_eq_false_iff.1 hcl
    rcases Finset.mem_union.1 hk with hk | hk
    · exact h.deleted hc1 k hk
    · rcases (h.present k).1 (h'.deleted hc2 k hk) with hi | hi
      · exact (hd' k hk hi).elim
      · exact hi.1
  · intro hcl k hk ho
    obtain ⟨hc1, hc2⟩ := Bool.or_eq_false_iff.1 hcl
    simp only [Finset.mem_union] at hk ⊢
    rcases hk with hk | hk
    · exact .inl (h.inserted hc1 k hk ho)
    · by_cases hbk : (b k).isSome = true
      · exact .inr (h'.inserted hc2 k hk hbk)
      · -- gone in the first, it came again in the second
        refine .inl (by_contra fun hnd => hbk ((h.present k).2 (.inr ⟨ho, ?_⟩)))
        exact deletionsContains_eq_false.2 (.inr ⟨hc1, hnd⟩)

theorem Records.insertions_subset (h' : Records s' b c) {r : ObjectChangeSet}
    (hr : Records r a c) (hi : s.insertions ⊆ r.insertions) (hc : s'.clearDidOccur = true) :
    s.insertions ⊆ s'.insertions := by
  intro k hk
  have hck := (hr.present k).2 (.inl (hi hk))
  rcases (h'.present k).1 hck with hm | ⟨-, hdel⟩
  · exact hm
  · rcases deletionsContains_eq_false.1 hdel with ⟨-, hm⟩ | ⟨hf, -⟩
    · exact hm
    · rw [hc] at hf
      cases hf

theorem isEmpty_iff : s.isEmpty = true ↔ s = {} := by
  refine ⟨fun h => ?_, fun h => h ▸ rfl⟩
  simp only [isEmpty, modificationsEmpty, Bool.and_eq_true, decide_eq_true_eq,
    Bool.not_eq_true'] at h
  exact ObjectChangeSet.ext h.1.1.1 h.1.1.2 h.1.2 h.2

end ObjectChangeSet

end IosLearning
