import IosLearning.Base.Edit
import IosLearning.CollectionChange

/-!
# Change sets follow a collection

A change set tracks a collection from an old version to a new one: as an edit it takes the one to
the other, and each of its moves is of one row, deleted where it was and inserted where it is.
Each change that is gathered puts one more edit on top, and what the change set says of a column
is such an edit too.
-/

namespace IosLearning

variable {α : Type*} {a b c : List α} {e e' f : Edit} {moves moves' l : List Move}
  {m m' : Move} {s t u i n index : ℕ}

/-- Neither from one row nor to one. -/
def Move.Apart (m m' : Move) : Prop := m.fromIndex ≠ m'.fromIndex ∧ m.toIndex ≠ m'.toIndex

instance : Std.Symm Move.Apart := ⟨fun _ _ h => ⟨h.1.symm, h.2.symm⟩⟩

/-- The edit takes the old collection to the new one, and each move is of one row. -/
structure Tracks (e : Edit) (moves : List Move) (old new : List α) : Prop where
  takes : e.Takes old new
  moved : ∀ m ∈ moves, e.Moves old new m.fromIndex m.toIndex
  apart : moves.Pairwise Move.Apart

namespace Tracks

theorem refl (a : List α) : Tracks ⟨∅, ∅, ∅⟩ [] a a := ⟨.refl a, by simp, .nil⟩

theorem perm (h : Tracks e moves a b) (hp : l.Perm moves) : Tracks e l a b :=
  ⟨h.takes, fun m hm => h.moved m (hp.mem_iff.1 hm),
    (hp.pairwise_iff (symm_of Move.Apart)).2 h.apart⟩

end Tracks

/-! ## Two edits in a row -/

/-- Where an edit with moves brings a row: it goes on with a move or is kept. -/
def Goes (e : Edit) (moves : List Move) (t u : ℕ) : Prop :=
  (∃ m ∈ moves, m.fromIndex = t ∧ m.toIndex = u) ∨ (t ∉ e.deletions ∧ e.forward t = u)

/-- Two rows are not brought to one place. -/
theorem Tracks.goes_ne (h : Tracks e moves a b) (hs : Goes e moves s i) (ht : Goes e moves t n)
    (hst : s ≠ t) : i ≠ n := by
  rcases hs with ⟨m, hm, rfl, rfl⟩ | ⟨hs, rfl⟩ <;> rcases ht with ⟨m', hm', rfl, rfl⟩ | ⟨ht, rfl⟩
  · exact (h.apart.forall hm hm' fun he => hst (he ▸ rfl)).2
  · exact fun he => e.forward_notMem t (he ▸ (h.moved m hm).target)
  · exact fun he => e.forward_notMem s (he ▸ (h.moved m' hm').target)
  · exact fun he => hst (by rw [← e.backward_forward hs, he, e.backward_forward ht])

/-- A move of the first edit goes on with the second. -/
def GoesOn (e' : Edit) (moves' : List Move) (o m : Move) : Prop :=
  m.fromIndex = o.fromIndex ∧ Goes e' moves' o.toIndex m.toIndex

/-- A move of the second edit, of a row the first one kept. -/
def ComesFrom (e : Edit) (o m : Move) : Prop :=
  o.fromIndex ∉ e.insertions ∧ m.fromIndex = e.backward o.fromIndex ∧ m.toIndex = o.toIndex

section Apart

variable {o o' : Move}

theorem Tracks.goesOn_apart (h' : Tracks e' moves' b c) (ho : GoesOn e' moves' o m)
    (ho' : GoesOn e' moves' o' m') (h : o.Apart o') : m.Apart m' :=
  ⟨by rw [ho.1, ho'.1]; exact h.1, h'.goes_ne ho.2 ho'.2 h.2⟩

theorem Tracks.goesOn_comesFrom_apart (h : Tracks e moves a b) (h' : Tracks e' moves' b c)
    (hm : o ∈ moves) (hm' : o' ∈ moves') (ho : GoesOn e' moves' o m) (ho' : ComesFrom e o' m') :
    m.Apart m' := by
  obtain ⟨hn, hs, ht⟩ := ho'
  refine ⟨fun he => ?_, ?_⟩
  · refine e.backward_notMem o'.fromIndex ?_
    rw [← hs, ← he, ho.1]
    exact (h.moved o hm).source
  · rw [ht]
    exact h'.goes_ne ho.2 (.inl ⟨o', hm', rfl, rfl⟩) fun he => hn (he ▸ (h.moved o hm).target)

theorem comesFrom_apart (ho : ComesFrom e o m) (ho' : ComesFrom e o' m') (h : o.Apart o') :
    m.Apart m' := by
  obtain ⟨hn, hs, ht⟩ := ho
  obtain ⟨hn', hs', ht'⟩ := ho'
  refine ⟨fun he => h.1 ?_, by rw [ht, ht']; exact h.2⟩
  rw [← e.forward_backward hn, ← hs, he, hs', e.forward_backward hn']

end Apart

/-- Rows that were modified before they moved on are still called so, but for inserted ones whose
moves are dropped. -/
def Marks (e f : Edit) (moves moves' : List Move) : Prop :=
  ∀ m ∈ moves', (m.fromIndex ∉ e.insertions ∨ ∃ o ∈ moves, o.toIndex = m.fromIndex) →
    m.fromIndex ∈ e.modifications → m.toIndex ∈ f.modifications

/-- Two change sets in a row, with what is left of their moves. -/
theorem Tracks.comp (h : Tracks e moves a b) (h' : Tracks e' moves' b c)
    (hd : f.deletions = (e.comp e').deletions) (hi : f.insertions = (e.comp e').insertions)
    (hm : (e.comp e').modifications ⊆ f.modifications) (hmark : Marks e f moves moves')
    (hl : ∀ m ∈ l, (∃ o ∈ moves, GoesOn e' moves' o m) ∨ ∃ o ∈ moves', ComesFrom e o m)
    (hp : l.Pairwise Move.Apart) : Tracks f l a c := by
  refine ⟨(h.takes.comp h'.takes).mono hd hi hm, fun m hml => ?_, hp⟩
  rcases hl m hml with ⟨o, ho, hs, ⟨m', hm', hfrom, hto⟩ | ⟨hn, hto⟩⟩ | ⟨o, ho, hn, hs, ht⟩
  · rw [hs, ← hto]
    exact (h.moved o ho).comp (hfrom ▸ h'.moved m' hm') hd hi hm
      (hfrom ▸ hmark m' hm' (.inr ⟨o, ho, hfrom.symm⟩))
  · rw [hs, ← hto]
    exact ((h.moved o ho).comp_takes h'.takes hn).mono hd hi hm
  · rw [hs, ht]
    exact Edit.Moves.takes_comp h.takes (h'.moved o ho) hn hd hi hm (hmark o ho (.inl hn))

/-- Without moves of its own an edit drops those of the rows it deletes and shifts the others. -/
theorem Tracks.comp_takes (h : Tracks e moves a b) (h' : e'.Takes b c) :
    Tracks (e.comp e') (moves.filterMap fun m =>
      if m.toIndex ∈ e'.deletions then none
      else some { m with toIndex := e'.forward m.toIndex }) a c := by
  refine ⟨h.takes.comp h', fun m hm => ?_, ?_⟩
  · obtain ⟨o, ho, hm⟩ := List.mem_filterMap.1 hm
    split_ifs at hm with hd
    obtain rfl := Option.some.inj hm
    exact (h.moved o ho).comp_takes h' hd
  · refine List.pairwise_filterMap.2 (h.apart.imp fun {m m'} ha => ?_)
    intro o ho o' ho'
    split_ifs at ho ho' with hd hd'
    obtain rfl := Option.some.inj ho
    obtain rfl := Option.some.inj ho'
    refine ⟨ha.1, fun he => ha.2 ?_⟩
    exact (e'.backward_forward hd).symm.trans ((congrArg _ he).trans (e'.backward_forward hd'))

namespace CollectionChangeBuilder

variable {bld : CollectionChangeBuilder} {mods : IndexSet} {len : ℕ} {x : α} {xs : List α}

/-- What a change set says with one of its sets of modifications. -/
def edit (b : CollectionChangeBuilder) (mods : IndexSet) : Edit :=
  ⟨b.deletions.toFinset, b.insertions.toFinset, mods.toFinset⟩

/-- The modifications of a column, or of all. -/
def column (col : Option ℤ) (b : CollectionChangeBuilder) : IndexSet :=
  match col with
  | none => b.modifications
  | some col => b.columns col

theorem column_forEachCol (f : IndexSet → IndexSet) (col : Option ℤ) :
    column col (forEachCol f bld) = f (column col bld) := by
  cases col <;> rfl

/-! ## Single changes -/

theorem edit_modify (col : Option ℤ) : (modify index col bld).edit (mods.add index)
    = (bld.edit mods).comp ⟨∅, ∅, {index}⟩ := by
  rcases col with _ | col <;> ext <;> simp [edit, Edit.comp, modify]

theorem moves_modify (col : Option ℤ) : (modify index col bld).moves = bld.moves := by
  rcases col with _ | col <;> rfl

theorem tracks_modify (h : Tracks (bld.edit mods) bld.moves a b) (col : Option ℤ) :
    Tracks ((modify index col bld).edit (mods.add index)) (modify index col bld).moves
      a (b.set index x) := by
  have ht := h.comp_takes (Edit.takes_set b index x)
  rw [edit_modify, moves_modify]
  refine ht.perm (.of_eq ?_)
  simp [Edit.forward, unshift_empty, shift_empty]

theorem tracks_insert (xs : List α) (h : Tracks (bld.edit mods) bld.moves a b) (hi : index ≤ b.length)
    (hx : 0 < xs.length) : ∃ bld', insert index xs.length true bld = some bld' ∧
      (∀ col, column col bld' = (column col bld).shiftForInsertAt index xs.length hx) ∧
      Tracks (bld'.edit (mods.shiftForInsertAt index xs.length hx)) bld'.moves
        a (b.take index ++ xs ++ b.drop index) := by
  have ht := h.comp_takes (Edit.takes_insert xs hi)
  rw [insert, dif_pos hx, if_pos rfl]
  refine ⟨_, rfl, fun col => by cases col <;> rfl, ?_⟩
  have he : (bld.edit mods).comp ⟨∅, Finset.Ico index (index + xs.length), ∅⟩
      = ⟨bld.deletions.toFinset, (bld.insertions.insertAt index xs.length).toFinset,
        (mods.shiftForInsertAt index xs.length hx).toFinset⟩ := by
    ext1 <;> simp [edit, Edit.comp]
  rw [he] at ht
  refine ht.perm (.of_eq ?_)
  rw [← List.filterMap_eq_map]
  refine List.filterMap_congr fun m _ => ?_
  rw [if_neg (Finset.notMem_empty _)]
  simp only [Edit.forward, unshift_empty, shift_Ico, Function.comp, Nat.add_sub_cancel_left]
  split_ifs
  · omega
  · rfl
  · rfl
  · omega

/-- What is deleted when a row is, which an inserted one is not. -/
theorem deletions_erase (d ins : IndexSet) (index : ℕ) :
    (match (ins.eraseOrUnshift index).1 with
      | some unshifted => (d.addShifted unshifted).2
      | none => d).toFinset
      = d.toFinset ∪ spread d.toFinset (close ins.toFinset {index}) := by
  rw [IndexSet.eraseOrUnshift_eq, close_singleton]
  by_cases h : index ∈ ins.toFinset
  · rw [if_pos h, if_pos (IndexSet.contains_iff.2 h), spread_empty, Finset.union_empty]
  · rw [if_neg h, if_neg fun hc => h (IndexSet.contains_iff.1 hc), spread_singleton]
    rw [IndexSet.toFinset_addShifted, Finset.insert_eq, Finset.union_comm]

theorem edit_erase : (erase index bld).edit (mods.eraseAt index)
    = (bld.edit mods).comp ⟨{index}, ∅, ∅⟩ := by
  ext1
  · exact deletions_erase bld.deletions bld.insertions index
  · have h : (erase index bld).insertions = bld.insertions.eraseAt index :=
      congrArg Prod.snd IndexSet.eraseOrUnshift_eq
    simp [edit, Edit.comp, h]
  · simp [edit, Edit.comp]

theorem tracks_erase (h : Tracks (bld.edit mods) bld.moves a b) (hi : index < b.length) :
    Tracks ((erase index bld).edit (mods.eraseAt index)) (erase index bld).moves
      a (b.eraseIdx index) := by
  have ht := h.comp_takes (Edit.takes_erase hi)
  rw [edit_erase]
  refine ht.perm (.of_eq (List.filterMap_congr fun m _ => ?_))
  simp only [Finset.mem_singleton, Edit.forward, unshift_singleton, shift_empty]
  split_ifs
  · rfl
  · omega
  · rfl
  · rfl
  · omega

theorem tracks_clear (h : Tracks (bld.edit mods) bld.moves a b) :
    Tracks ((clear b.length bld).edit ∅) (clear b.length bld).moves a [] := by
  have hc := h.takes.card
  have he : (clear b.length bld).edit ∅ = ⟨Finset.range a.length, ∅, ∅⟩ := by
    ext1
    · have hlen : b.length + bld.deletions.size - bld.insertions.size = a.length := by
        rw [IndexSet.size_eq, IndexSet.size_eq]
        exact Nat.sub_eq_of_eq_add hc.symm
      simp only [edit, clear, IndexSet.toFinset_set, hlen]
    · rfl
    · rfl
  rw [he]
  exact ⟨Edit.takes_clear a, by simp [clear], .nil⟩

/-! ## A row moved -/

section MoveRow

variable {source dest : ℕ}

/-- Where one of the moves so far is brought by one more. -/
def passMove (source dest : ℕ) (m : Move) : Move :=
  if m.toIndex = source then { m with toIndex := dest }
  else if m.toIndex ≥ dest ∧ m.toIndex < source then { m with toIndex := m.toIndex + 1 }
  else if m.toIndex ≤ dest ∧ m.toIndex > source then { m with toIndex := m.toIndex - 1 }
  else m

theorem passMove_goesOn (m : Move) :
    GoesOn ⟨{source}, {dest}, ∅⟩ [⟨source, dest⟩] m (passMove source dest m) := by
  unfold passMove
  by_cases h : m.toIndex = source
  · rw [if_pos h]
    exact ⟨rfl, .inl ⟨_, List.mem_cons_self, h.symm, rfl⟩⟩
  · have hf : ∀ t, t = Edit.forward ⟨{source}, {dest}, ∅⟩ m.toIndex →
        Goes ⟨{source}, {dest}, ∅⟩ [⟨source, dest⟩] m.toIndex t := fun t ht =>
      .inr ⟨by simpa using h, ht.symm⟩
    simp only [Edit.forward, unshift_singleton, shift_singleton] at hf
    rw [if_neg h]
    split_ifs <;> refine ⟨rfl, hf _ ?_⟩ <;> grind

/-- At most one of the moves so far goes on, and so no assertion fails. -/
theorem moveLoop_eq : ∀ {moves : List Move} {ins : IndexSet} {updated : Bool},
    moves.Pairwise Move.Apart → (updated = true → ∀ m ∈ moves, m.toIndex ≠ source) →
    moveLoop source dest moves ins updated = some (moves.map (passMove source dest),
      if moves.any fun m => m.toIndex = source then (ins.eraseAt source).insertAt dest 1 else ins,
      updated || moves.any fun m => m.toIndex = source)
  | [], ins, updated, _, _ => by simp [moveLoop]
  | m :: moves, ins, updated, hp, hu => by
    rw [List.pairwise_cons] at hp
    unfold moveLoop
    by_cases h : m.toIndex = source
    · have hn : ∀ m' ∈ moves, m'.toIndex ≠ source := fun m' hm' he =>
        (hp.1 m' hm').2 (h.trans he.symm)
      have hu' : updated = false := by
        by_contra hc
        exact hu (by simpa using hc) m List.mem_cons_self h
      have hany : moves.any (fun m => m.toIndex = source) = false := by simpa using hn
      simp only []
      rw [if_neg (not_not.2 h), hu', if_neg Bool.false_ne_true, moveLoop_eq hp.2 fun _ => hn]
      simp [passMove, h, hany]
    · rw [if_pos h, moveLoop_eq hp.2 fun hup m' hm' => hu hup m' (List.mem_cons_of_mem _ hm')]
      simp [passMove, h]

theorem toFinset_moveCol : (moveCol source dest mods).toFinset =
    (if source ∈ mods.toFinset then {dest} else ∅)
      ∪ spread {dest} (close {source} mods.toFinset) := by
  unfold moveCol
  by_cases h : source ∈ mods.toFinset
  · simp [h, IndexSet.contains_iff]
  · simp [h, IndexSet.contains_iff]

/-- The row moved is deleted and inserted, and unless it was inserted before that is a move. -/
theorem pushMove_spec (source dest : ℕ) (bld : CollectionChangeBuilder) :
    (pushMove source dest bld).insertions = (bld.insertions.eraseAt source).insertAt dest 1 ∧
    (pushMove source dest bld).deletions.toFinset = bld.deletions.toFinset
      ∪ spread bld.deletions.toFinset (close bld.insertions.toFinset {source}) ∧
    (pushMove source dest bld).moves = bld.moves ++
      if source ∈ bld.insertions.toFinset then []
      else [⟨shift bld.deletions.toFinset (unshift bld.insertions.toFinset source), dest⟩] := by
  have hdel := deletions_erase bld.deletions bld.insertions source
  unfold pushMove
  rw [IndexSet.eraseOrUnshift_eq] at hdel ⊢
  by_cases h : source ∈ bld.insertions.toFinset
  · simp only [if_pos (IndexSet.contains_iff.2 h), if_pos h, List.append_nil] at hdel ⊢
    simpa only [true_and, and_true] using hdel
  · simp only [if_neg fun hc => h (IndexSet.contains_iff.1 hc), if_neg h,
      IndexSet.addShifted_fst] at hdel ⊢
    simpa only [true_and, and_true] using hdel

theorem column_pushMove (col : Option ℤ) :
    column col (pushMove source dest bld) = column col bld := by
  unfold pushMove
  rcases h : (bld.insertions.eraseOrUnshift source).1 with _ | k <;> cases col <;> simp only [h] <;> rfl

theorem moves_single (hs : b[source]? = some x) (hd : dest < b.length) :
    Tracks ⟨{source}, {dest}, ∅⟩ [⟨source, dest⟩] b ((b.eraseIdx source).insertIdx dest x) := by
  refine ⟨Edit.takes_move (List.getElem?_eq_some_iff.1 hs).1 hd, ?_, List.pairwise_singleton _ _⟩
  rw [List.forall_mem_singleton]
  exact Edit.moves_move hs hd

/-- The moves so far go on, and with them a new one of a row that was kept. -/
theorem tracks_comp_move (new : List Move) (h : Tracks e moves a b)
    (hs : b[source]? = some x) (hd : dest < b.length)
    (hdel : f.deletions = (e.comp ⟨{source}, {dest}, ∅⟩).deletions)
    (hins : f.insertions = (e.comp ⟨{source}, {dest}, ∅⟩).insertions)
    (hmod : (e.comp ⟨{source}, {dest}, ∅⟩).modifications ⊆ f.modifications)
    (hmark : source ∈ e.modifications → dest ∈ f.modifications)
    (hnew : new.Pairwise Move.Apart) (hfrom : ∀ m ∈ new, ComesFrom e ⟨source, dest⟩ m) :
    Tracks f (moves.map (passMove source dest) ++ new) a
      ((b.eraseIdx source).insertIdx dest x) := by
  have h' := moves_single hs hd
  refine h.comp h' hdel hins hmod (by simpa [Marks] using fun _ => hmark) ?_ ?_
  · rw [List.forall_mem_append, List.forall_mem_map]
    exact ⟨fun m hm => .inl ⟨m, hm, passMove_goesOn m⟩,
      fun m hm => .inr ⟨_, List.mem_cons_self, hfrom m hm⟩⟩
  · rw [List.pairwise_append, List.pairwise_map, List.forall_mem_map]
    refine ⟨h.apart.imp fun {m m'} ha => ?_, hnew, fun m hm m' hm' => ?_⟩
    · exact h'.goesOn_apart (passMove_goesOn m) (passMove_goesOn m') ha
    · exact h.goesOn_comesFrom_apart h' hm List.mem_cons_self (passMove_goesOn m) (hfrom m' hm')

theorem tracks_move (h : Tracks (bld.edit mods) bld.moves a b) (hs : b[source]? = some x)
    (hd : dest < b.length) (hne : source ≠ dest) : ∃ bld', move source dest bld = some bld' ∧
      (∀ col, column col bld' = moveCol source dest (column col bld)) ∧
      Tracks (bld'.edit (moveCol source dest mods)) bld'.moves
        a ((b.eraseIdx source).insertIdx dest x) := by
  have hmod : ((bld.edit mods).comp ⟨{source}, {dest}, ∅⟩).modifications
      ⊆ (moveCol source dest mods).toFinset := by
    rw [toFinset_moveCol]
    simp only [Edit.comp, edit, Finset.empty_union]
    exact Finset.subset_union_right
  have hmark : source ∈ mods.toFinset → dest ∈ (moveCol source dest mods).toFinset := by
    intro hm
    rw [toFinset_moveCol, if_pos hm]
    exact Finset.mem_union_left _ (Finset.mem_singleton_self dest)
  rw [move, if_pos hne, moveLoop_eq h.apart (by simp)]
  refine ⟨_, rfl, fun col => ?_, ?_⟩
  · rw [column_forEachCol, apply_ite (column col), column_pushMove]
    cases col <;> exact congrArg _ (ite_self _)
  by_cases hany : bld.moves.any fun m => m.toIndex = source
  · -- a move goes on: the row was inserted before
    obtain ⟨m, hm, ht⟩ := List.any_eq_true.1 hany
    have hin : source ∈ bld.insertions.toFinset :=
      of_decide_eq_true ht ▸ (h.moved m hm).target
    have hc := tracks_comp_move [] (f := ⟨bld.deletions.toFinset,
      ((bld.insertions.eraseAt source).insertAt dest 1).toFinset,
      (moveCol source dest mods).toFinset⟩) h hs hd
      (by simp [Edit.comp, edit, close_singleton, hin]) (by simp [Edit.comp, edit])
      hmod hmark .nil (by simp)
    simpa [hany, edit, forEachCol] using hc
  · have hp := pushMove_spec source dest
      { bld with moves := bld.moves.map (passMove source dest) }
    obtain ⟨h1, h2, h3⟩ := hp
    have hc := tracks_comp_move (if source ∈ bld.insertions.toFinset then []
      else [⟨shift bld.deletions.toFinset (unshift bld.insertions.toFinset source), dest⟩])
      (f := ⟨(pushMove source dest
        { bld with moves := bld.moves.map (passMove source dest) }).deletions.toFinset,
        ((bld.insertions.eraseAt source).insertAt dest 1).toFinset,
        (moveCol source dest mods).toFinset⟩)
      h hs hd (by simp [Edit.comp, edit, h2]) (by simp [Edit.comp, edit])
      hmod hmark (by split_ifs <;> simp) ?_
    · simpa [hany, edit, forEachCol, h1, h3] using hc
    · intro m hm
      split_ifs at hm with hin
      · exact (List.not_mem_nil hm).elim
      · obtain rfl := List.mem_singleton.1 hm
        exact ⟨hin, rfl, rfl⟩

end MoveRow

/-! ## Moves that are none any more -/

/-- A move to where the row would be anyway is no deletion and insertion. -/
theorem tracks_keep (h : Tracks e (l ++ m :: moves) a b)
    (hr : unshift e.deletions m.fromIndex = unshift e.insertions m.toIndex) :
    Tracks (e.keep m.fromIndex m.toIndex) (l ++ moves) a b := by
  have hm := h.moved m (List.mem_append_right _ List.mem_cons_self)
  have hp := (List.pairwise_middle (symm_of Move.Apart)).1 h.apart
  rw [List.pairwise_cons] at hp
  refine ⟨h.takes.keep hm hr, fun m' hm' => ?_, hp.2⟩
  have ha := hp.1 m' hm'
  refine (h.moved m' ?_).keep (Ne.symm ha.1) (Ne.symm ha.2)
  rcases List.mem_append.1 hm' with hm' | hm'
  · exact List.mem_append_left _ hm'
  · exact List.mem_append_right _ (List.mem_cons_of_mem _ hm')

theorem tracks_cleanUpLoop {M : Finset ℕ} : ∀ {moves l : List Move} {d ins : IndexSet},
    Tracks ⟨d.toFinset, ins.toFinset, M⟩ (l ++ moves) a b →
    Tracks ⟨(cleanUpLoop moves d ins).2.1.toFinset, (cleanUpLoop moves d ins).2.2.toFinset, M⟩
      (l ++ (cleanUpLoop moves d ins).1) a b
  | [], l, d, ins, h => h
  | m :: moves, l, d, ins, h => by
    unfold cleanUpLoop
    split_ifs with hne
    · rw [List.append_cons] at h
      have hi := tracks_cleanUpLoop h
      rwa [List.append_assoc] at hi
    · have hr := not_not.1 hne
      rw [IndexSet.sub_count_zero, IndexSet.sub_count_zero] at hr
      refine tracks_cleanUpLoop ?_
      have hk := tracks_keep h hr
      simpa [Edit.keep, Nat.Ico_succ_singleton, Finset.sdiff_singleton_eq_erase] using hk

theorem tracks_cleanUp (h : Tracks (bld.edit mods) bld.moves a b) :
    Tracks ((cleanUpStaleMoves bld).edit mods) (cleanUpStaleMoves bld).moves a b :=
  tracks_cleanUpLoop (l := []) h

end CollectionChangeBuilder

end IosLearning
