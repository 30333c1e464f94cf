import IosLearning.Proofs.CollectionChange

/-!
# Change sets merged

A change set merged with the next one tracks the collection over both: the old moves go on with
the new ones or are shifted, new moves of rows inserted before are dropped, and the rest are put
with them, their sources indices of the old collection.
-/

namespace IosLearning

namespace CollectionChangeBuilder

variable {α : Type*} {a b c : List α} {moves rest : List Move} {m : Move} {index : ℕ}
  {bld c₀ chg r : CollectionChangeBuilder} {M : IndexSet}

/-- The last put in the place of one is all but that one. -/
theorem set_dropLast_perm {β : Type*} {last x : β} : ∀ {init : List β} {k : ℕ},
    (init ++ [last])[k]? = some x →
    (init ++ [last]).Perm (x :: ((init ++ [last]).set k last).dropLast)
  | [], k, h => by
    obtain rfl : k = 0 := by simpa using (List.getElem?_eq_some_iff.1 h).1
    obtain rfl : last = x := by simpa using h
    simp
  | y :: init, 0, h => by
    obtain rfl : y = x := by simpa using h
    rw [List.cons_append, List.set_cons_zero, List.dropLast_cons_of_ne_nil (by simp),
      List.dropLast_concat]
    exact (List.perm_append_singleton last init).cons y
  | y :: init, k + 1, h => by
    rw [List.cons_append, List.getElem?_cons_succ] at h
    have hp := set_dropLast_perm h
    rw [List.cons_append, List.set_cons_succ, List.dropLast_cons_of_ne_nil (by simp)]
    exact (hp.cons y).trans (.swap x y _)

theorem takeMove_some (h : takeMove index moves = some (m, rest)) :
    m.fromIndex = index ∧ moves.Perm (m :: rest) := by
  unfold takeMove at h
  split at h
  · rename_i k last hk hlast
    obtain ⟨init, rfl⟩ := List.getLast?_eq_some_iff.1 hlast
    obtain ⟨m', hm', he⟩ := Option.map_eq_some_iff.1 h
    obtain ⟨rfl, rfl⟩ := Prod.mk.inj he
    refine ⟨?_, set_dropLast_perm hm'⟩
    obtain ⟨hlt, hp, -⟩ := List.findIdx?_eq_some_iff_getElem.1 hk
    obtain ⟨hlt', hget⟩ := List.getElem?_eq_some_iff.1 hm'
    rw [← hget]
    exact of_decide_eq_true hp
  · cases h

theorem takeMove_none (h : takeMove index moves = none) : ∀ m ∈ moves, m.fromIndex ≠ index := by
  unfold takeMove at h
  split at h
  · rename_i k last hk hlast
    obtain ⟨hlt, -⟩ := List.findIdx?_eq_some_iff_getElem.1 hk
    rw [List.getElem?_eq_getElem hlt] at h
    cases h
  · rename_i hno
    rcases moves.eq_nil_or_concat' with rfl | ⟨init, last, rfl⟩
    · simp
    · rcases hk : (init ++ [last]).findIdx? fun m => m.fromIndex = index with _ | k
      · simpa using List.findIdx?_eq_none_iff.1 hk
      · exact (hno k last hk (by simp)).elim

theorem column_markMoved (col : Option ℤ) : column col (markMoved bld chg m) =
    if (column col bld).contains m.fromIndex then (column col chg).add m.toIndex
    else column col chg := by
  cases col <;> rfl

/-- If a row was modified before its move, it is so where it goes. -/
def Marked (col : Option ℤ) (b c : CollectionChangeBuilder) (m : Move) : Prop :=
  m.fromIndex ∈ (column col b).toFinset → m.toIndex ∈ (column col c).toFinset

theorem marked_markMoved (col : Option ℤ) : Marked col bld (markMoved bld chg m) m := fun hm => by
  rw [column_markMoved, if_pos (IndexSet.contains_iff.2 hm), IndexSet.toFinset_add]
  exact Finset.mem_insert_self _ _

theorem column_subset_markMoved (col : Option ℤ) :
    (column col chg).toFinset ⊆ (column col (markMoved bld chg m)).toFinset := by
  rw [column_markMoved]
  split_ifs
  · rw [IndexSet.toFinset_add]
    exact Finset.subset_insert _ _
  · exact subset_rfl

/-- What going through the old moves leaves of the new change set: each old move is dropped or
goes on, and takes the new move it goes on with out of the rest. -/
structure Updated (col : Option ℤ) (b c₀ : CollectionChangeBuilder) (M : IndexSet)
    (moves : List Move) (c : CollectionChangeBuilder)
    (r : List Move × CollectionChangeBuilder) : Prop where
  deletions : r.2.deletions = c₀.deletions
  insertions : r.2.insertions = c₀.insertions
  subset : r.2.moves ⊆ c.moves
  apart : r.2.moves.Pairwise Move.Apart
  goesOn : ∀ m ∈ r.1, ∃ o ∈ moves, GoesOn (c₀.edit M) c₀.moves o m
  goesOnApart : r.1.Pairwise Move.Apart
  column : (column col c).toFinset ⊆ (CollectionChangeBuilder.column col r.2).toFinset
  marked : ∀ m ∈ c.moves, Marked col b r.2 m
    ∨ (m ∈ r.2.moves ∧ ∀ o ∈ moves, o.toIndex ≠ m.fromIndex)

theorem Updated.cons {col : Option ℤ} {old new : Move} {chg' : CollectionChangeBuilder}
    {r : List Move × CollectionChangeBuilder} (h' : Tracks (c₀.edit M) c₀.moves b c)
    (ha : ∀ o ∈ moves, old.Apart o) (h : Updated col bld c₀ M moves chg' r)
    (hg : GoesOn (c₀.edit M) c₀.moves old new) (hs : chg'.moves ⊆ chg.moves)
    (hc : (CollectionChangeBuilder.column col chg).toFinset
      ⊆ (CollectionChangeBuilder.column col chg').toFinset)
    (hm : ∀ m ∈ chg.moves, Marked col bld r.2 m
      ∨ (m ∈ chg'.moves ∧ old.toIndex ≠ m.fromIndex)) :
    Updated col bld c₀ M (old :: moves) chg (new :: r.1, r.2) where
  deletions := h.deletions
  insertions := h.insertions
  subset := List.Subset.trans h.subset hs
  apart := h.apart
  goesOn := by
    rw [List.forall_mem_cons]
    refine ⟨⟨old, List.mem_cons_self, hg⟩, fun m hm => ?_⟩
    obtain ⟨o, ho, hgo⟩ := h.goesOn m hm
    exact ⟨o, List.mem_cons_of_mem _ ho, hgo⟩
  goesOnApart := by
    refine List.pairwise_cons.2 ⟨fun m hm => ?_, h.goesOnApart⟩
    obtain ⟨o, ho, hgo⟩ := h.goesOn m hm
    exact h'.goesOn_apart hg hgo (ha o ho)
  column := hc.trans h.column
  marked m hmem := by
    rcases hm m hmem with hk | ⟨hk, hne⟩
    · exact .inl hk
    · exact (h.marked m hk).imp_right fun hr => ⟨hr.1, List.forall_mem_cons.2 ⟨hne, hr.2⟩⟩

theorem updateMoves_spec (bld : CollectionChangeBuilder) (col : Option ℤ)
    (h' : Tracks (c₀.edit M) c₀.moves b c) :
    ∀ {moves : List Move} (chg : CollectionChangeBuilder), moves.Pairwise Move.Apart →
      chg.deletions = c₀.deletions → chg.insertions = c₀.insertions → chg.moves ⊆ c₀.moves →
      chg.moves.Pairwise Move.Apart →
      Updated col bld c₀ M moves chg (updateMoves bld moves chg)
  | [], chg, _, hd, hi, _, hp =>
    ⟨hd, hi, List.Subset.refl _, hp, by simp [updateMoves], .nil, subset_rfl,
      fun m hm => .inr ⟨hm, by simp⟩⟩
  | old :: moves, chg, ha, hd, hi, hs, hp => by
    rw [List.pairwise_cons] at ha
    unfold updateMoves
    rcases ht : takeMove old.toIndex chg.moves with _ | ⟨m, rest⟩
    · have hne : ∀ m ∈ chg.moves, old.toIndex ≠ m.fromIndex := fun m hm =>
        (takeMove_none ht m hm).symm
      have hu := updateMoves_spec bld col h' chg ha.2 hd hi hs hp
      simp only []
      split_ifs with hdel
      · -- the row is deleted, and the move dropped
        refine ⟨hu.deletions, hu.insertions, hu.subset, hu.apart, fun m hm => ?_, hu.goesOnApart,
          hu.column, fun m hm => (hu.marked m hm).imp_right fun hr =>
            ⟨hr.1, List.forall_mem_cons.2 ⟨hne m hm, hr.2⟩⟩⟩
        obtain ⟨o, ho, hgo⟩ := hu.goesOn m hm
        exact ⟨o, List.mem_cons_of_mem _ ho, hgo⟩
      · rw [hd, IndexSet.contains_iff] at hdel
        refine hu.cons h' ha.1 ⟨rfl, .inr ⟨hdel, ?_⟩⟩ (List.Subset.refl _) subset_rfl
          fun m hm => .inr ⟨hm, hne m hm⟩
        rw [hd, hi, IndexSet.shift_eq, IndexSet.unshift_eq]
        rfl
    · -- the row is moved again
      obtain ⟨hm, hperm⟩ := takeMove_some ht
      have hp' := (hperm.pairwise_iff (symm_of Move.Apart)).1 hp
      rw [List.pairwise_cons] at hp'
      have hsub : rest ⊆ chg.moves := fun x hx => hperm.mem_iff.2 (List.mem_cons_of_mem _ hx)
      have hmem : m ∈ chg.moves := hperm.mem_iff.2 List.mem_cons_self
      have hcol : column col { markMoved bld chg m with moves := rest }
          = column col (markMoved bld chg m) := by cases col <;> rfl
      have hu := updateMoves_spec bld col h' { markMoved bld chg m with moves := rest } ha.2
        hd hi (List.Subset.trans hsub hs) hp'.2
      refine hu.cons h' ha.1 ⟨rfl, .inl ⟨m, hs hmem, hm, rfl⟩⟩ hsub ?_ fun x hx => ?_
      · rw [hcol]
        exact column_subset_markMoved col
      · rcases List.mem_cons.1 (hperm.mem_iff.1 hx) with rfl | hx
        · refine .inl fun hk => hu.column ?_
          rw [hcol]
          exact marked_markMoved col hk
        · exact .inr ⟨hx, fun he => (hp'.1 x hx).1 (hm.trans he)⟩

/-! ## New moves -/

theorem foldl_markMoved (col : Option ℤ) : ∀ (l : List Move) (chg : CollectionChangeBuilder),
    (l.foldl (markMoved bld) chg).deletions = chg.deletions
      ∧ (l.foldl (markMoved bld) chg).insertions = chg.insertions
      ∧ (l.foldl (markMoved bld) chg).moves = chg.moves
      ∧ (column col chg).toFinset ⊆ (column col (l.foldl (markMoved bld) chg)).toFinset
      ∧ ∀ m ∈ l, Marked col bld (l.foldl (markMoved bld) chg) m
  | [], chg => ⟨rfl, rfl, rfl, subset_rfl, by simp⟩
  | m :: l, chg => by
    obtain ⟨h1, h2, h3, h4, h5⟩ := foldl_markMoved col l (markMoved bld chg m)
    refine ⟨h1, h2, h3, (column_subset_markMoved col).trans h4, ?_⟩
    rw [List.forall_mem_cons]
    exact ⟨fun hk => h4 (marked_markMoved col hk), h5⟩

theorem dropInserted_eq : dropInserted bld chg =
    { chg with moves := chg.moves.filter fun m => !bld.insertions.contains m.fromIndex } := by
  unfold dropInserted
  split_ifs with h
  · rfl
  · rw [Bool.and_eq_true, not_and_or, Bool.not_eq_true', Bool.not_eq_true', Bool.not_eq_false,
      Bool.not_eq_false, IndexSet.isEmpty_iff_toFinset, List.isEmpty_iff] at h
    rcases h with h | h
    · have hf : chg.moves.filter (fun m => !bld.insertions.contains m.fromIndex) = chg.moves := by
        refine List.filter_eq_self.2 fun m _ => ?_
        rw [Bool.not_eq_true', ← Bool.not_eq_true, IndexSet.contains_iff, h]
        exact Finset.notMem_empty _
      rw [hf]
    · rw [h, List.filter_nil, ← h]

theorem shiftSources_eq : shiftSources bld chg = { chg with moves := chg.moves.map fun m =>
    { m with fromIndex := (bld.edit M).backward m.fromIndex } } := by
  have hb : ∀ m : Move, (bld.edit M).backward m.fromIndex
      = bld.deletions.shift (bld.insertions.unshift m.fromIndex) := fun m => by
    rw [IndexSet.shift_eq, IndexSet.unshift_eq]
    rfl
  unfold shiftSources
  split_ifs with h
  · simp only [hb]
  · rw [Bool.or_eq_true, not_or, Bool.not_eq_true', Bool.not_eq_true', Bool.not_eq_false,
      Bool.not_eq_false, IndexSet.isEmpty_iff_toFinset, IndexSet.isEmpty_iff_toFinset] at h
    simp only [Edit.backward, edit, h.1, h.2, unshift_empty, shift_empty, List.map_id']

/-- Unless nothing was modified, each new move is marked. -/
theorem markModified_spec (chg : CollectionChangeBuilder) (col : Option ℤ)
    (hsub : (column col bld).toFinset ⊆ bld.modifications.toFinset) :
    (markModified bld chg).deletions = chg.deletions
      ∧ (markModified bld chg).insertions = chg.insertions
      ∧ (markModified bld chg).moves = chg.moves
      ∧ (column col chg).toFinset ⊆ (column col (markModified bld chg)).toFinset
      ∧ ∀ m ∈ chg.moves, Marked col bld (markModified bld chg) m := by
  unfold markModified
  split_ifs with h
  · exact foldl_markMoved col chg.moves chg
  · refine ⟨rfl, rfl, rfl, subset_rfl, fun m hm hk => ?_⟩
    rw [Bool.and_eq_true, not_and_or, Bool.not_eq_true', Bool.not_eq_true', Bool.not_eq_false,
      Bool.not_eq_false, IndexSet.isEmpty_iff_toFinset, List.isEmpty_iff] at h
    rcases h with h | h
    · exact (Finset.notMem_empty _ (h ▸ hsub hk)).elim
    · exact (List.not_mem_nil (h ▸ hm)).elim

/-- What is left of the new moves is of rows the old change set kept. -/
structure Adjusted (col : Option ℤ) (b c r : CollectionChangeBuilder) : Prop where
  deletions : r.deletions = c.deletions
  insertions : r.insertions = c.insertions
  comesFrom : ∀ m ∈ r.moves, ∃ o ∈ c.moves, ComesFrom (b.edit (column col b)) o m
  apart : r.moves.Pairwise Move.Apart
  column : (column col c).toFinset ⊆ (CollectionChangeBuilder.column col r).toFinset
  marked : ∀ m ∈ c.moves, m.fromIndex ∉ b.insertions.toFinset → Marked col b r m

theorem column_moves (col : Option ℤ) (l : List Move) :
    column col { chg with moves := l } = column col chg := by
  cases col <;> rfl

theorem adjusted (col : Option ℤ) (hp : chg.moves.Pairwise Move.Apart)
    (hsub : (column col bld).toFinset ⊆ bld.modifications.toFinset) :
    Adjusted col bld chg (shiftSources bld (markModified bld (dropInserted bld chg))) := by
  obtain ⟨h1, h2, h3, h4, h5⟩ := markModified_spec (dropInserted bld chg) col hsub
  have hmem : ∀ m, m ∈ (dropInserted bld chg).moves ↔
      m ∈ chg.moves ∧ m.fromIndex ∉ bld.insertions.toFinset := by
    intro m
    rw [dropInserted_eq, List.mem_filter, Bool.not_eq_true', ← Bool.not_eq_true,
      IndexSet.contains_iff]
  have hpair : (dropInserted bld chg).moves.Pairwise Move.Apart := by
    rw [dropInserted_eq]
    exact hp.filter _
  have hcol : column col (dropInserted bld chg) = column col chg := by
    rw [dropInserted_eq, column_moves]
  have hfrom : ∀ m ∈ (dropInserted bld chg).moves, ComesFrom (bld.edit (column col bld)) m
      { m with fromIndex := (bld.edit (column col bld)).backward m.fromIndex } := fun m hm =>
    ⟨((hmem m).1 hm).2, rfl, rfl⟩
  rw [shiftSources_eq (M := column col bld)]
  refine ⟨?_, ?_, ?_, ?_, ?_, ?_⟩
  · rw [h1, dropInserted_eq]
  · rw [h2, dropInserted_eq]
  · rw [h3, List.forall_mem_map]
    exact fun m hm => ⟨m, ((hmem m).1 hm).1, hfrom m hm⟩
  · rw [h3, List.pairwise_map]
    exact hpair.imp_of_mem fun hm hm' ha => comesFrom_apart (hfrom _ hm) (hfrom _ hm') ha
  · rw [column_moves, ← hcol]
    exact h4
  · intro m hm hn hk
    rw [column_moves]
    exact h5 m ((hmem m).2 ⟨hm, hn⟩) hk

/-! ## The change sets put together -/

theorem toFinset_mergeCol {col other : IndexSet} : (mergeCol chg col other).toFinset
    = other.toFinset ∪ spread chg.insertions.toFinset (close chg.deletions.toFinset col.toFinset) := by
  simp [mergeCol]

theorem verify_of_tracks (h : Tracks (bld.edit M) bld.moves a b) : bld.verify = true := by
  refine List.all_eq_true.2 fun m hm => ?_
  rw [Bool.and_eq_true, IndexSet.contains_iff, IndexSet.contains_iff]
  exact ⟨(h.moved m hm).source, (h.moved m hm).target⟩

theorem column_combine (col : Option ℤ) (hr : combine bld moves chg = some r) :
    column col r = mergeCol chg (column col bld) (column col chg) := by
  obtain ⟨d, -, rfl⟩ := Option.map_eq_some_iff.1 hr
  cases col <;> rfl

theorem tracks_combine (col : Option ℤ) (hr : combine bld moves chg = some r)
    (h : Tracks ⟨bld.deletions.toFinset
        ∪ spread bld.deletions.toFinset (close bld.insertions.toFinset chg.deletions.toFinset),
      ((bld.insertions.eraseAtAll chg.deletions).insertAtAll chg.insertions).toFinset,
      (mergeCol chg (column col bld) (column col chg)).toFinset⟩ (moves ++ chg.moves) a c) :
    Tracks (r.edit (column col r)) r.moves a c := by
  rw [column_combine col hr]
  obtain ⟨d, hd, rfl⟩ := Option.map_eq_some_iff.1 hr
  rw [← IndexSet.toFinset_addShiftedBy hd] at h
  exact tracks_cleanUpLoop (l := []) h

theorem updateMoves_of_empty (hm : chg.moves = []) (hd : chg.deletions.toFinset = ∅)
    (hi : chg.insertions.toFinset = ∅) : ∀ {moves : List Move}, updateMoves bld moves chg = (moves, chg)
  | [] => rfl
  | old :: moves => by
    have ht : takeMove old.toIndex chg.moves = none := by rw [hm]; rfl
    have hc : chg.deletions.contains old.toIndex = false := by
      rw [← Bool.not_eq_true, IndexSet.contains_iff, hd]
      exact Finset.notMem_empty _
    unfold updateMoves
    simp only [ht, hc, updateMoves_of_empty hm hd hi, IndexSet.shift_eq, IndexSet.unshift_eq, hd,
      hi, unshift_empty, shift_empty, Bool.false_eq_true, if_false]

/-! A column has no modification that is not one of the collection. -/

def Within (col : Option ℤ) (b : CollectionChangeBuilder) : Prop :=
  (column col b).toFinset ⊆ b.modifications.toFinset

theorem within_markMoved {col : Option ℤ} (h : Within col bld) (h' : Within col chg) :
    Within col (markMoved bld chg m) := by
  have hm : (markMoved bld chg m).modifications = column none (markMoved bld chg m) := rfl
  unfold Within
  rw [hm, column_markMoved, column_markMoved]
  split_ifs with h1 h2 h2
  · rw [IndexSet.toFinset_add, IndexSet.toFinset_add]
    exact Finset.insert_subset_insert _ h'
  · exact absurd (IndexSet.contains_iff.2 (h (IndexSet.contains_iff.1 h1))) h2
  · rw [IndexSet.toFinset_add]
    exact h'.trans (Finset.subset_insert _ _)
  · exact h'

theorem within_moves {col : Option ℤ} {l : List Move} (h : Within col chg) :
    Within col { chg with moves := l } := by
  unfold Within
  rw [column_moves]
  exact h

theorem within_updateMoves {col : Option ℤ} (h : Within col bld) :
    ∀ {moves : List Move} {chg : CollectionChangeBuilder}, Within col chg →
      Within col (updateMoves bld moves chg).2
  | [], chg, h' => h'
  | old :: moves, chg, h' => by
    unfold updateMoves
    split
    · exact within_updateMoves h (within_moves (within_markMoved h h'))
    · split_ifs
      · exact within_updateMoves h h'
      · exact within_updateMoves h h'

theorem within_adjusted {col : Option ℤ} (h : Within col bld) (h' : Within col chg) :
    Within col (shiftSources bld (markModified bld (dropInserted bld chg))) := by
  rw [shiftSources_eq (M := ∅), dropInserted_eq]
  refine within_moves ?_
  unfold markModified
  split_ifs
  · exact List.foldlRecOn _ _ (within_moves h') fun c hc m _ => within_markMoved h hc
  · exact within_moves h'

theorem within_combine {col : Option ℤ} (h : Within col bld) (h' : Within col chg)
    (hr : combine bld moves chg = some r) : Within col r := by
  have hm : r.modifications = mergeCol chg bld.modifications chg.modifications :=
    column_combine none hr
  unfold Within
  rw [column_combine col hr, hm, toFinset_mergeCol, toFinset_mergeCol]
  refine Finset.union_subset_union h' (Finset.image_subset_image ?_)
  exact Finset.image_subset_image (Finset.sdiff_subset_sdiff h subset_rfl)

/-- A change set that is empty says that nothing changed. -/
theorem eq_of_isEmpty {col : Option ℤ} (hw : Within col bld)
    (h : Tracks (bld.edit (column col bld)) bld.moves a b) (he : bld.isEmpty = true) : a = b := by
  simp only [CollectionChangeSet.isEmpty, Bool.and_eq_true, IndexSet.isEmpty_iff_toFinset] at he
  obtain ⟨⟨⟨⟨hd, hi⟩, hm⟩, -⟩, -⟩ := he
  have hc : (column col bld).toFinset = ∅ := Finset.subset_empty.1 (hm ▸ hw)
  have ht := h.takes
  rw [edit, hd, hi, hc] at ht
  exact ht.eq_of_empty

theorem updateMoves_guard (moves : List Move) :
    (if !chg.moves.isEmpty || !chg.deletions.isEmpty || !chg.insertions.isEmpty then
      updateMoves bld moves chg else (moves, chg)) = updateMoves bld moves chg := by
  split_ifs with h
  · rfl
  · simp only [Bool.or_eq_true, Bool.not_eq_true', not_or, Bool.not_eq_false,
      IndexSet.isEmpty_iff_toFinset, List.isEmpty_iff] at h
    exact (updateMoves_of_empty h.1.1 h.1.2 h.2).symm

/-- What is put together when neither change set is empty. -/
def merged (b c : CollectionChangeBuilder) : Option CollectionChangeBuilder :=
  combine b (updateMoves b b.moves c).1
    (shiftSources b (markModified b (dropInserted b (updateMoves b b.moves c).2)))

theorem tracks_merged {col : Option ℤ} (hw : Within col bld)
    (h : Tracks (bld.edit (column col bld)) bld.moves a b)
    (h' : Tracks (chg.edit (column col chg)) chg.moves b c) (hr : merged bld chg = some r) :
    Tracks (r.edit (column col r)) r.moves a c := by
  have hu := updateMoves_spec bld col h' chg h.apart rfl rfl (List.Subset.refl _) h'.apart
  have ha := adjusted col hu.apart hw
  refine tracks_combine col hr (h.comp h' ?_ ?_ ?_ ?_ ?_ ?_)
  · simp [Edit.comp, edit, ha.deletions, hu.deletions]
  · simp [Edit.comp, edit, ha.insertions, ha.deletions, hu.insertions, hu.deletions]
  · rw [toFinset_mergeCol, ha.insertions, ha.deletions, hu.insertions, hu.deletions]
    exact Finset.union_subset_union (hu.column.trans ha.column) subset_rfl
  · intro m hm hkept hk
    rw [toFinset_mergeCol]
    refine Finset.mem_union_left _ ?_
    rcases hu.marked m hm with hmark | ⟨hmem, hno⟩
    · exact ha.column (hmark hk)
    · have hn : m.fromIndex ∉ bld.insertions.toFinset :=
        hkept.resolve_right (not_exists.2 fun o ho => hno o ho.1 ho.2)
      exact ha.marked m hmem hn hk
  · rw [List.forall_mem_append]
    refine ⟨fun m hm => .inl (hu.goesOn m hm), fun m hm => .inr ?_⟩
    obtain ⟨o, ho, hc⟩ := ha.comesFrom m hm
    exact ⟨o, hu.subset ho, hc⟩
  · refine List.pairwise_append.2 ⟨hu.goesOnApart, ha.apart, fun m hm m' hm' => ?_⟩
    obtain ⟨o, ho, hg⟩ := hu.goesOn m hm
    obtain ⟨o', ho', hc⟩ := ha.comesFrom m' hm'
    exact h.goesOn_comesFrom_apart h' ho (hu.subset ho') hg hc

theorem merged_eq_none_iff (h : Tracks (bld.edit bld.modifications) bld.moves a b)
    (h' : Tracks (chg.edit chg.modifications) chg.moves b c) : merged bld chg = none ↔
      bld.deletions.addShiftedBy bld.insertions chg.deletions = none := by
  have hu := updateMoves_spec bld none h' chg h.apart rfl rfl (List.Subset.refl _) h'.apart
  have hw : (column none bld).toFinset ⊆ bld.modifications.toFinset := subset_rfl
  have ha := adjusted none hu.apart hw
  rw [merged, combine, Option.map_eq_none_iff, ha.deletions, hu.deletions]

/-- The rows deleted are rows of the old collection; few rows have so few ranges that a chunk
holds them. -/
theorem exists_addShiftedBy (hlen : a.length < 2 * ChunkedRangeVector.maxSize)
    (h : Tracks (bld.edit bld.modifications) bld.moves a b)
    (h' : Tracks (chg.edit chg.modifications) chg.moves b c) :
    ∃ d, bld.deletions.addShiftedBy bld.insertions chg.deletions = some d :=
  IndexSet.exists_addShiftedBy hlen fun i hi =>
    Finset.mem_range.2 ((h.takes.comp h'.takes).deletions i hi)

/-- A change set followed by the next one: what they make tracks the collection over both. -/
theorem tracks_merge (col : Option ℤ) (hw : Within col bld) (hw' : Within col chg)
    (h : Tracks (bld.edit (column col bld)) bld.moves a b)
    (h' : Tracks (chg.edit (column col chg)) chg.moves b c) (hr : merge bld chg = some r) :
    Within col r ∧ Tracks (r.edit (column col r)) r.moves a c := by
  unfold merge at hr
  rw [updateMoves_guard] at hr
  split_ifs at hr with hc hb hv
  · obtain rfl := eq_of_isEmpty hw' h' hc
    obtain rfl := Option.some_inj.1 hr
    exact ⟨hw, h⟩
  · obtain rfl := eq_of_isEmpty hw h hb
    obtain rfl := Option.some_inj.1 hr
    exact ⟨hw', h'⟩
  · have hm : merged bld chg = some r := (Option.filter_eq_some_iff.1 hr).1
    exact ⟨within_combine hw (within_adjusted hw (within_updateMoves hw hw')) hm,
      tracks_merged hw h h' hm⟩

/-- No assertion fails but where a chunk's count would be wrong. -/
theorem merge_eq_none_iff (h : Tracks (bld.edit bld.modifications) bld.moves a b)
    (h' : Tracks (chg.edit chg.modifications) chg.moves b c) : merge bld chg = none ↔
      bld.isEmpty = false ∧ chg.isEmpty = false ∧
        bld.deletions.addShiftedBy bld.insertions chg.deletions = none := by
  have hv : (!bld.verify || !chg.verify) = false := by
    rw [verify_of_tracks h, verify_of_tracks h']
    rfl
  have hm : ∀ r, merged bld chg = some r → r.verify = true := fun r hr =>
    verify_of_tracks (@tracks_merged _ _ _ _ _ _ _ none subset_rfl h h' hr)
  unfold merge
  rw [updateMoves_guard, hv, ← merged_eq_none_iff h h']
  by_cases hc : chg.isEmpty = true
  · simp [hc]
  · by_cases hb : bld.isEmpty = true
    · simp [hb, hc]
    · rw [if_neg hc, if_neg hb, Bool.eq_false_iff, Bool.eq_false_iff]
      simp only [hb, hc, Bool.false_eq_true, if_false, ne_eq, not_false_eq_true, true_and]
      change (merged bld chg).filter verify = none ↔ _
      rw [Option.filter_eq_none_iff]
      refine ⟨fun hno => Option.eq_none_iff_forall_ne_some.2 fun r hr => hno r hr (hm r hr),
        fun hno r hr => ?_⟩
      rw [hno] at hr
      cases hr

theorem exists_merge (hlen : a.length < 2 * ChunkedRangeVector.maxSize)
    (h : Tracks (bld.edit bld.modifications) bld.moves a b)
    (h' : Tracks (chg.edit chg.modifications) chg.moves b c) : ∃ r, merge bld chg = some r := by
  obtain ⟨d, hd⟩ := exists_addShiftedBy hlen h h'
  rw [← Option.isSome_iff_exists, ← Option.ne_none_iff_isSome]
  intro hnone
  have := ((merge_eq_none_iff h h').1 hnone).2.2
  rw [hd] at this
  cases this

end CollectionChangeBuilder

end IosLearning
