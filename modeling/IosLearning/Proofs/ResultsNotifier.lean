import IosLearning.Proofs.Calculate
import IosLearning.Proofs.DeliveryLoop
import IosLearning.Proofs.ListLog

/-!
# Notifiers of results and of lists

A notifier of results compares the rows it finds with those it found before, so its runs are sound
steps of a delivery and no change is lost (`results_nothing_lost`). What a notifier of a list gets
from the log it completes with the rows whose objects changed; but once the list is deleted, what
was inserted before is still told (`deleted_list_iff`).
-/

namespace IosLearning

open CollectionNotifier

variable {α : Type*}

/-! ## Results -/

/-- The rows found last, with what their objects held. -/
structure ResultsDelivery (α : Type*) where
  delivery : Delivery α := { rows := [] }
  previousRows : List ℤ := []
  contents : ℤ → α

/-- A run finds rows, or that their table was deleted; all else is done to any notifier. -/
inductive ResultsEvent (α : Type*)
  | run (rows : Option (List ℤ)) (contents : ℤ → α) (keyDidChange : ℤ → Bool) (inTableOrder : Bool)
  | other (e : DeliveryEvent α)

def DeliveryEvent.isRun : DeliveryEvent α → Bool
  | .run _ _ => true
  | .runBlind _ => true
  | _ => false

namespace ResultsDelivery

/-- The rows are found and kept as the previous ones; without callbacks, or at first, the changes
to them are not found. -/
def runResults (std : StdSort) (r : ResultsDelivery α) (rows : Option (List ℤ)) (contents : ℤ → α)
    (keyDidChange : ℤ → Bool) (inTableOrder : Bool) : Option (ResultsDelivery α) :=
  (ResultsNotifier.run std r.delivery.notifier r.previousRows rows keyDidChange inTableOrder).map
    fun (previousRows, n) =>
      { delivery := { r.delivery with
          notifier := n
          pending := some (previousRows.map contents)
          blind := rows.isSome &&
            !(r.delivery.notifier.hasRun && r.delivery.notifier.haveCallbacks) }
        previousRows := previousRows
        contents := contents }

def handle (std : StdSort) (r : ResultsDelivery α) : ResultsEvent α → Option (ResultsDelivery α)
  | .run rows contents keyDidChange inTableOrder =>
    runResults std r rows contents keyDidChange inTableOrder
  | .other e => (r.delivery.handle e).map fun d => { r with delivery := d }

def enabled (r : ResultsDelivery α) : ResultsEvent α → Bool
  | .run _ _ _ _ => r.delivery.pending.isNone
  | .other e => !e.isRun && r.delivery.enabled e

def machine (std : StdSort) (contents : ℤ → α) :
    Machine (ResultsDelivery α) (ResultsEvent α) where
  start := some { contents := contents }
  enabled := enabled
  handle := handle std

/-- A key is said to have changed where its object has, and rows are said to be in the table's order
only where they are. -/
def Checked (r : ResultsDelivery α) : ResultsEvent α → Prop
  | .run rows contents keyDidChange inTableOrder =>
    (∀ key, keyDidChange key = false → r.contents key = contents key) ∧
      (inTableOrder = true → r.previousRows.Pairwise (· < ·) ∧
        ∀ next, rows = some next → next.Pairwise (· < ·))
  | .other _ => True

def Orderly (r : ResultsDelivery α) : ResultsEvent α → Prop
  | .run _ _ _ _ => True
  | .other e => Delivery.Orderly r.delivery e

/-- The rows found last are those handed over, or to be. -/
structure Inv (r : ResultsDelivery α) : Prop where
  inv : Delivery.Inv r.delivery
  listed : Delivery.Listed r.delivery.notifier
  rows_eq : r.delivery.pending.getD r.delivery.rows = r.previousRows.map r.contents

variable {std : StdSort} {r r' : ResultsDelivery α} {d d' : Delivery α}

theorem pending_handle {e : DeliveryEvent α} (he : e.isRun = false) (h : d.handle e = some d') :
    d'.pending.getD d'.rows = d.pending.getD d.rows := by
  cases e with
  | addCallback =>
    obtain rfl := Option.some_inj.1 h
    rfl
  | run change next => exact absurd he (by simp [DeliveryEvent.isRun])
  | runBlind next => exact absurd he (by simp [DeliveryEvent.isRun])
  | packageForDelivery =>
    obtain rfl := Option.some_inj.1 h
    rfl
  | removeCallback | suppressNextNotification | prepareHandover | beforeAdvance | afterAdvance =>
    obtain ⟨n, -, rfl⟩ := Option.map_eq_some_iff.1 h
    rfl

theorem sound_of_not_isRun {e : DeliveryEvent α} (he : e.isRun = false) : Delivery.Sound d e := by
  cases e with
  | run change next => exact absurd he (by simp [DeliveryEvent.isRun])
  | _ => trivial

/-- The table was deleted: all rows are. -/
theorem tracks_cleared (rows : List α) {n : ℕ} (hn : n = rows.length) :
    Tracks (CollectionChangeBuilder.edit { deletions := IndexSet.set n } ∅) [] rows [] := by
  refine ⟨?_, by simp, .nil⟩
  rw [CollectionChangeBuilder.edit, IndexSet.toFinset_set, hn]
  exact Edit.takes_clear rows

theorem inv_runResults {rows : Option (List ℤ)} {contents : ℤ → α} {keyDidChange : ℤ → Bool}
    {inTableOrder : Bool} (h : Inv r) (hp : r.delivery.pending = none)
    (hc : Checked r (.run rows contents keyDidChange inTableOrder))
    (hr : runResults std r rows contents keyDidChange inTableOrder = some r') : Inv r' := by
  obtain ⟨hchange, horder⟩ := hc
  have hrows := h.rows_eq
  rw [hp, Option.getD_none] at hrows
  obtain ⟨⟨previousRows, n⟩, hn, rfl⟩ := Option.map_eq_some_iff.1 hr
  cases rows with
  | none =>
    obtain ⟨rfl, rfl⟩ := Prod.mk.inj (Option.some_inj.1 hn)
    refine ⟨Delivery.inv_run h.inv ?_, h.listed.congr rfl h.listed.index_le rfl rfl, rfl⟩
    exact tracks_cleared _ (by rw [hrows, List.length_map])
  | some next =>
    obtain ⟨n', hfound, heq⟩ := Option.map_eq_some_iff.1 hn
    obtain ⟨rfl, rfl⟩ := Prod.mk.inj heq
    unfold ResultsNotifier.calculateChanges at hfound
    split_ifs at hfound with hfind
    · obtain ⟨change, hchanges, rfl⟩ := Option.map_eq_some_iff.1 hfound
      obtain ⟨lines, dels, ins, ret, hret, hcalc⟩ := CollectionChangeBuilder.calculate_spec std
        r.previousRows next keyDidChange inTableOrder
        fun hin => ⟨(horder hin).1, (horder hin).2 next rfl⟩
      have htracks : Tracks (ret.edit ret.modifications) ret.moves
          (r.previousRows.map r.contents) (next.map contents) :=
        hcalc.tracks (List.length_map _) (List.length_map _) fun i j key hi hj hk => by
          rw [List.getElem?_map, List.getElem?_map, hi, hj, Option.map_some, Option.map_some,
            hchange key hk]
      obtain rfl := Option.some_inj.1 (hret.symm.trans hchanges)
      rw [← hrows] at htracks
      have hblind : ((some next).isSome &&
          !(r.delivery.notifier.hasRun && r.delivery.notifier.haveCallbacks)) = false := by
        rw [hfind]
        rfl
      refine ⟨?_, h.listed.congr rfl h.listed.index_le rfl rfl, rfl⟩
      have := Delivery.inv_run h.inv htracks
      dsimp only
      rwa [hblind]
    · obtain rfl := Option.some_inj.1 hfound
      have hblind : ((some next).isSome &&
          !(r.delivery.notifier.hasRun && r.delivery.notifier.haveCallbacks)) = true := by
        rw [Bool.eq_false_iff.2 hfind]
        rfl
      refine ⟨?_, h.listed.congr rfl h.listed.index_le rfl rfl, rfl⟩
      -- without callbacks, or at first, nobody misses the changes
      dsimp only
      rw [hblind]
      refine Delivery.inv_runBlind h.inv hp ?_
      rw [Bool.and_eq_true, not_and_or, Bool.not_eq_true, Bool.not_eq_true, h.listed.have_iff,
        Bool.not_eq_false', List.isEmpty_iff] at hfind
      exact hfind.symm

theorem inv_step {contents : ℤ → α} {e : ResultsEvent α} (h : Inv r) (hc : Checked r e)
    (ho : Orderly r e) (hstep : (machine std contents).step r e = some r') : Inv r' := by
  obtain ⟨hen, hstep⟩ := Machine.step_eq_some.1 hstep
  cases e with
  | run rows contents keyDidChange inTableOrder =>
    exact inv_runResults h (Option.isNone_iff_eq_none.1 hen) hc hstep
  | other e =>
    obtain ⟨d', hd, rfl⟩ := Option.map_eq_some_iff.1 hstep
    obtain ⟨hrun, hen⟩ := Bool.and_eq_true_iff.1 hen
    have hrun : e.isRun = false := by simpa using hrun
    have hstep : (Delivery.machine r.delivery.rows).step r.delivery e = some d' :=
      Machine.step_eq_some.2 ⟨hen, hd⟩
    exact ⟨Delivery.inv_step h.inv (sound_of_not_isRun hrun) ho hstep,
      Delivery.listed_step h.listed hstep, (pending_handle hrun hd).trans h.rows_eq⟩

/-- Two rows are found and told to a callback, then their table is deleted. -/
def deletedTable : List (ResultsEvent Char) :=
  [.other .addCallback, .run (some [5, 7]) (fun _ => 'a') (fun _ => false) true,
    .other .prepareHandover, .other .packageForDelivery, .other .afterAdvance,
    .other .afterAdvance, .run none (fun _ => 'a') (fun _ => false) true, .other .prepareHandover,
    .other .packageForDelivery]

theorem along_deletedTable : (machine insertionSort fun _ => 'a').Along
    (fun _ r e => Checked r e ∧ Orderly r e) deletedTable := by
  change Machine.Along _ _ ([] ++ [_] ++ [_] ++ [_] ++ [_] ++ [_] ++ [_] ++ [_] ++ [_] ++ [_])
  simp only [Machine.along_snoc]
  refine ⟨⟨⟨⟨⟨⟨⟨⟨⟨Machine.along_nil, ?_⟩, ?_⟩, ?_⟩, ?_⟩, ?_⟩, ?_⟩, ?_⟩, ?_⟩, ?_⟩ <;>
    intro d hd <;> obtain rfl := Option.some_inj.1 hd
  · exact ⟨trivial, trivial⟩
  · refine ⟨⟨fun _ _ => rfl, fun _ => ⟨.nil, fun next hnext => ?_⟩⟩, trivial⟩
    obtain rfl := Option.some_inj.1 hnext
    decide
  · exact ⟨trivial, by unfold Orderly Delivery.Orderly; decide⟩
  · exact ⟨trivial, by decide, nofun⟩
  · exact ⟨trivial, trivial⟩
  · exact ⟨trivial, trivial⟩
  · exact ⟨⟨fun _ _ => rfl, fun _ => ⟨by decide, nofun⟩⟩, trivial⟩
  · exact ⟨trivial, by unfold Orderly Delivery.Orderly; decide⟩
  · exact ⟨trivial, by decide, nofun⟩

end ResultsDelivery

/-! ## Lists -/

namespace ListNotifier

variable {list old : List ℤ} {objectDidChange : ℤ → Bool} {change change' : CollectionChangeBuilder}
  {is : List ℕ} {isObject : Bool} {before after : ℤ → α}

/-- What is marked besides what was are the rows gone through whose objects changed. -/
theorem markModified_spec (list : List ℤ) (objectDidChange : ℤ → Bool) (is : List ℕ)
    (change : CollectionChangeBuilder) (his : ∀ i ∈ is, i < list.length) :
    ∃ change', markModified list objectDidChange change is = some change' ∧
      change'.deletions = change.deletions ∧ change'.insertions = change.insertions ∧
      change'.moves = change.moves ∧ ∀ i, i ∈ change'.modifications.toFinset ↔
        i ∈ change.modifications.toFinset ∨
          i ∈ is ∧ ∃ key, list[i]? = some key ∧ objectDidChange key = true := by
  induction is generalizing change with
  | nil => exact ⟨change, rfl, rfl, rfl, rfl, fun i => by simp⟩
  | cons i is ih =>
    have hi := his i (List.mem_cons_self ..)
    have his' := fun j hj => his j (List.mem_cons_of_mem i hj)
    have hget : list[i]? = some list[i] := List.getElem?_eq_getElem hi
    simp only [markModified]
    split_ifs with hcontains
    · rw [IndexSet.contains_iff] at hcontains
      obtain ⟨change', h1, h2, h3, h4, h5⟩ := ih change his'
      refine ⟨change', h1, h2, h3, h4, fun j => ?_⟩
      rw [h5, List.mem_cons]
      by_cases hj : j = i
      · subst hj
        exact iff_of_true (.inl hcontains) (.inl hcontains)
      · simp only [hj, false_or]
    · rw [hget, Option.bind_some]
      split_ifs with hdid
      · obtain ⟨change', h1, h2, h3, h4, h5⟩ := ih
          { change with modifications := change.modifications.add i } his'
        refine ⟨change', h1, h2, h3, h4, fun j => ?_⟩
        rw [h5, IndexSet.toFinset_add, Finset.mem_insert, List.mem_cons]
        by_cases hj : j = i
        · subst hj
          exact iff_of_true (.inl (.inl rfl)) (.inr ⟨.inl rfl, list[j], hget, hdid⟩)
        · simp only [hj, false_or]
      · obtain ⟨change', h1, h2, h3, h4, h5⟩ := ih change his'
        refine ⟨change', h1, h2, h3, h4, fun j => ?_⟩
        rw [h5, List.mem_cons]
        by_cases hj : j = i
        · subst hj
          refine or_congr_right ⟨fun hj => ⟨.inr hj.1, hj.2⟩, ?_⟩
          rintro ⟨-, key, hkey, hkdid⟩
          rw [hget, Option.some_inj] at hkey
          exact absurd (hkey ▸ hkdid) hdid
        · simp only [hj, false_or]

/-- What the log says of the list's keys, with the objects that changed, is true of what the objects
hold. -/
theorem list_run_tracks (prevSize : ℕ)
    (h : Tracks (change.edit change.modifications) change.moves old list)
    (hchange : ∀ key, objectDidChange key = false → before key = after key) :
    ∃ change', run true (some list) objectDidChange prevSize change
        = some (list.length, change') ∧
      Tracks (change'.edit change'.modifications) change'.moves (old.map before)
        (list.map after) ∧
      ∀ i, i ∈ change'.modifications.toFinset ↔ i ∈ change.modifications.toFinset ∨
        ∃ key, list[i]? = some key ∧ objectDidChange key = true := by
  obtain ⟨change₁, h1, hd1, hi1, hmoves1, hm1⟩ := markModified_spec list objectDidChange
    (List.range list.length) change fun i hi => List.mem_range.1 hi
  obtain ⟨change₂, h2, hd2, hi2, hmoves2, hm2⟩ := markModified_spec list objectDidChange
    (change₁.moves.map Move.toIndex) change₁ fun i hi => by
      obtain ⟨m, hm, rfl⟩ := List.mem_map.1 hi
      exact h.takes.insertions _ (h.moved m (hmoves1 ▸ hm)).target
  have hmods : ∀ i, i ∈ change₂.modifications.toFinset ↔ i ∈ change.modifications.toFinset ∨
      ∃ key, list[i]? = some key ∧ objectDidChange key = true := fun i => by
    rw [hm2, hm1]
    constructor
    · rintro ((hi | hi) | hi)
      · exact .inl hi
      · exact .inr hi.2
      · exact .inr hi.2
    · rintro (hi | ⟨key, hkey, hdid⟩)
      · exact .inl (.inl hi)
      · exact .inl (.inr ⟨List.mem_range.2 (List.getElem?_eq_some_iff.1 hkey).1, key, hkey, hdid⟩)
  refine ⟨change₂, ?_, ?_, hmods⟩
  · simp only [run, if_true, h1, Option.bind_some, h2, Option.map_some]
  · -- a row that is not called modified has the same key and an object that did not change
    have hsame : ∀ {s t}, t ∉ change₂.modifications.toFinset →
        (t ∉ change.modifications.toFinset → old[s]? = list[t]?) →
        (old.map before)[s]? = (list.map after)[t]? := fun {s t} ht hkeys => by
      rw [hmods, not_or] at ht
      rw [List.getElem?_map, List.getElem?_map, hkeys ht.1]
      rcases hl : list[t]? with _ | key
      · rw [Option.map_none, Option.map_none]
      · rw [Option.map_some, Option.map_some, hchange key]
        exact Bool.eq_false_iff.2 fun hdid => ht.2 ⟨key, hl, hdid⟩
    have hedit : change₂.edit change₂.modifications = ⟨change.deletions.toFinset,
        change.insertions.toFinset, change₂.modifications.toFinset⟩ := by
      rw [CollectionChangeBuilder.edit, hd2, hd1, hi2, hi1]
    have hmoves : change₂.moves = change.moves := hmoves2.trans hmoves1
    rw [hedit, hmoves]
    refine ⟨⟨fun i hi => ?_, fun j hj => ?_, fun i hi => ?_, fun i hi hm => ?_⟩,
      fun m hm => ⟨(h.moved m hm).source, (h.moved m hm).target, fun ht => ?_⟩, h.apart⟩
    · rw [List.length_map]
      exact h.takes.deletions i hi
    · rw [List.length_map]
      exact h.takes.insertions j hj
    · rw [List.length_map, List.length_map]
      exact h.takes.length i hi
    · exact hsame hm (h.takes.kept i hi)
    · exact hsame ht (h.moved m hm).same

theorem tracks_erased : Tracks (CollectionChangeBuilder.edit (CollectionChangeBuilder.erase 0 {})
    (CollectionChangeBuilder.erase 0 {}).modifications) (CollectionChangeBuilder.erase 0 {}).moves
    ([5, 7] : List ℤ) [7] := by
  have hstart : Tracks (CollectionChangeBuilder.edit {} ∅) (CollectionChangeSet.moves {})
      ([5, 7] : List ℤ) [5, 7] := .refl _
  have hzero : 0 < ([5, 7] : List ℤ).length := by decide
  exact CollectionChangeBuilder.tracks_erase hstart hzero

/-- The first object is taken out of the list, and the other changed. -/
theorem list_run_tracks_erased : ∃ change', run true (some [7]) (fun key => key = 7) 2
      (CollectionChangeBuilder.erase 0 {}) = some (1, change') ∧
    Tracks (change'.edit change'.modifications) change'.moves ['a', 'b'] ['c'] := by
  have hchange : ∀ key : ℤ, decide (key = 7) = false →
      (if key = 7 then 'b' else 'a') = if key = 7 then 'c' else 'a' := fun key hkey => by
    rw [if_neg (of_decide_eq_false hkey), if_neg (of_decide_eq_false hkey)]
  obtain ⟨change', hrun, htracks, -⟩ := list_run_tracks 2 tracks_erased hchange
  exact ⟨change', hrun, htracks⟩

/-- Once the list is deleted all its rows are said to be deleted, which is true just if none was
inserted before. -/
theorem deleted_list_iff (h : Tracks (change.edit change.modifications) change.moves old list) :
    ∃ change', run isObject none objectDidChange old.length change = some (0, change') ∧
      (Tracks (change'.edit change'.modifications) change'.moves old [] ↔
        old = [] ∨ change.insertions = ∅) := by
  refine ⟨_, rfl, ?_⟩
  split_ifs with hlen
  · have hold : old ≠ [] := fun he => hlen (by rw [he, List.length_nil])
    constructor
    · intro ht
      refine .inr (IndexSet.toFinset_eq_empty.1 ?_)
      refine Finset.eq_empty_of_forall_notMem fun i hi => ?_
      exact absurd (ht.takes.insertions i hi) (Nat.not_lt_zero i)
    · intro hi
      have hi := hi.resolve_left hold
      have hmoves : change.moves = [] := by
        refine List.eq_nil_iff_forall_not_mem.2 fun m hm => ?_
        have htarget := (h.moved m hm).target
        rw [CollectionChangeBuilder.edit, hi] at htarget
        exact absurd htarget (Finset.notMem_empty _)
      rw [hmoves, CollectionChangeBuilder.edit, hi, IndexSet.toFinset_set]
      exact ⟨(Edit.takes_clear old).mono rfl rfl (Finset.empty_subset _), by simp, .nil⟩
  · have hold : old = [] := List.length_eq_zero_iff.1 (not_not.1 hlen)
    refine iff_of_true ?_ (.inl hold)
    rw [hold]
    exact .refl []

theorem deleted_list_iff_erased : ∃ change',
    run true none (fun _ => false) 2 (CollectionChangeBuilder.erase 0 {}) = some (0, change') ∧
      (Tracks (change'.edit change'.modifications) change'.moves ([5, 7] : List ℤ) [] ↔
        ([5, 7] : List ℤ) = [] ∨ (CollectionChangeBuilder.erase 0 {}).insertions = ∅) :=
  deleted_list_iff tracks_erased

end ListNotifier

/-! ## Results of lists -/

namespace ListResultsNotifier

variable {n : CollectionNotifier} {old new : List α} {previousIndices runIndices : List ℕ}

/-- A row that is deleted is nowhere, any other where the edit brings it. -/
theorem getElem?_updateIndices {i : ℕ} {key : ℤ}
    (h : (updateIndices n.change previousIndices)[i]? = some key) :
    ∃ row, previousIndices[i]? = some row ∧
      ((row ∈ n.change.deletions.toFinset ∧ key = -1) ∨
        (row ∉ n.change.deletions.toFinset ∧
          key = (n.change.edit n.change.modifications).forward row)) := by
  unfold updateIndices at h
  split_ifs at h with hchanged
  · rw [List.getElem?_map] at h
    obtain ⟨row, hrow, hkey⟩ := Option.map_eq_some_iff.1 h
    refine ⟨row, hrow, ?_⟩
    split_ifs at hkey with hdel
    · exact .inl ⟨IndexSet.contains_iff.1 hdel, hkey.symm⟩
    · refine .inr ⟨fun hmem => hdel (IndexSet.contains_iff.2 hmem), ?_⟩
      rw [← hkey, IndexSet.shift_eq, IndexSet.unshift_eq]
      rfl
  · simp only [Bool.or_eq_true, Bool.not_eq_true', not_or, Bool.not_eq_false,
      IndexSet.isEmpty_iff_toFinset] at hchanged
    rw [List.getElem?_map] at h
    obtain ⟨row, hrow, hkey⟩ := Option.map_eq_some_iff.1 h
    refine ⟨row, hrow, .inr ⟨?_, ?_⟩⟩
    · rw [hchanged.2]
      exact Finset.notMem_empty _
    · rw [← hkey, CollectionChangeBuilder.edit, Edit.forward, hchanged.1, hchanged.2,
        unshift_empty, shift_empty]

theorem length_updateIndices (change : CollectionChangeBuilder) (rows : List ℕ) :
    (updateIndices change rows).length = rows.length := by
  unfold updateIndices
  split_ifs <;> exact List.length_map _

theorem calculateChanges_spec (std : StdSort) (n : CollectionNotifier) (filtered : Bool)
    (old new : List α) (previousIndices runIndices : List ℕ)
    (hfind : (n.hasRun && n.haveCallbacks && filtered) = true)
    (hlog : n.change.modificationsNew = ∅) :
    ∃ n', calculateChanges std n filtered previousIndices runIndices = some n' ∧
      n'.change.modifications = ∅ ∧
      (Tracks (n.change.edit n.change.modifications) n.change.moves old new →
        n.change.modifications = ∅ →
        Tracks (n'.change.edit n'.change.modifications) n'.change.moves
          (previousIndices.map fun row => old[row]?) (runIndices.map fun row => new[row]?)) := by
  have hnever : (fun key : ℤ => n.change.modificationsNew.contains (key % 2 ^ 64).toNat)
      = fun _ => false := by
    rw [hlog]
    rfl
  obtain ⟨rows, dels, ins, ret, hret, hcalc⟩ := CollectionChangeBuilder.calculate_spec std
    (updateIndices n.change previousIndices) (runIndices.map fun row : ℕ => (row : ℤ))
    (fun _ => false) false fun h => absurd h Bool.false_ne_true
  refine ⟨{ n with change := ret }, ?_, ?_, fun htracks hmods => ?_⟩
  · rw [calculateChanges, if_pos hfind, hnever, hret, Option.map_some]
  · refine IndexSet.toFinset_eq_empty.1 (Finset.eq_empty_of_forall_notMem fun j hj => ?_)
    obtain ⟨key, -, -, hkey⟩ := hcalc.of_mem_modifications hj
    exact absurd hkey Bool.false_ne_true
  · refine hcalc.tracks ?_ ?_ fun i j key hi hj _ => ?_
    · rw [List.length_map, length_updateIndices]
    · rw [List.length_map, List.length_map]
    · obtain ⟨row, hrow, hplace⟩ := getElem?_updateIndices hi
      rw [List.getElem?_map] at hj
      obtain ⟨row', hrow', rfl⟩ := Option.map_eq_some_iff.1 hj
      rw [List.getElem?_map, List.getElem?_map, hrow, hrow', Option.map_some, Option.map_some]
      obtain ⟨-, hkey⟩ | ⟨hdel, hkey⟩ := hplace
      · omega
      · have hfwd : row' = (n.change.edit n.change.modifications).forward row := by
          exact_mod_cast hkey
        rw [hfwd, htracks.takes.kept row hdel]
        rw [hmods]
        exact Finset.notMem_empty _

variable {bld bld' : CollectionChangeBuilder}

/-- A row of the list is replaced in its place. -/
def isSet : Instruction α → Bool
  | .listSet _ _ => true
  | _ => false

theorem move_modifications {fromIndex toIndex : ℕ} (h : bld.move fromIndex toIndex = some bld') :
    bld'.modificationsNew = bld.modificationsNew ∧
      bld'.modifications = CollectionChangeBuilder.moveCol fromIndex toIndex bld.modifications := by
  unfold CollectionChangeBuilder.move at h
  split_ifs at h
  obtain ⟨⟨moves, insertions, updated⟩, -, rfl⟩ := Option.map_eq_some_iff.1 h
  dsimp only [CollectionChangeBuilder.forEachCol]
  split_ifs
  · exact ⟨rfl, rfl⟩
  · unfold CollectionChangeBuilder.pushMove
    dsimp only
    split <;> exact ⟨rfl, rfl⟩

theorem moveCol_empty (fromIndex toIndex : ℕ) :
    CollectionChangeBuilder.moveCol fromIndex toIndex ∅ = ∅ := by
  refine IndexSet.toFinset_eq_empty.1 ?_
  rw [CollectionChangeBuilder.toFinset_moveCol, IndexSet.toFinset_empty,
    if_neg (Finset.notMem_empty _), close_empty, spread_empty, Finset.union_empty]

/-- No instruction says what of the new rows is modified, and only one that sets a row says that a
row is. -/
theorem observe_modifications {inst : Instruction α} (h : inst.observe bld = some bld') :
    bld'.modificationsNew = bld.modificationsNew ∧
      (isSet inst = false → bld.modifications = ∅ → bld'.modifications = ∅) := by
  cases inst with
  | selectTable | createObject | modifyObject | removeObject | clearTable | insertColumn
  | insertGroupLevelTable | selectList =>
    obtain rfl := Option.some_inj.1 h
    exact ⟨rfl, fun _ hb => hb⟩
  | listSet index row =>
    obtain rfl := Option.some_inj.1 h
    exact ⟨rfl, fun hs => absurd hs (by simp [isSet])⟩
  | listInsert index row =>
    simp only [Instruction.observe, CollectionChangeBuilder.insert, dif_pos Nat.one_pos,
      if_true] at h
    obtain rfl := Option.some_inj.1 h
    refine ⟨rfl, fun _ hb => IndexSet.toFinset_eq_empty.1 ?_⟩
    dsimp only [CollectionChangeBuilder.forEachCol]
    rw [hb, IndexSet.toFinset_shiftForInsertAt, IndexSet.toFinset_empty, spread_empty]
  | listErase index =>
    obtain rfl := Option.some_inj.1 h
    refine ⟨rfl, fun _ hb => IndexSet.toFinset_eq_empty.1 ?_⟩
    dsimp only [CollectionChangeBuilder.erase, CollectionChangeBuilder.forEachCol]
    rw [hb, IndexSet.toFinset_eraseAt, IndexSet.toFinset_empty, close_empty]
  | listSwap index1 index2 =>
    simp only [Instruction.observe] at h
    generalize (if index1 > index2 then (index2, index1) else (index1, index2)) = p at h
    obtain ⟨bld₁, h1, h2⟩ := Option.bind_eq_some_iff.1 h
    obtain ⟨hn1, hm1⟩ := move_modifications h1
    split_ifs at h2
    · obtain ⟨hn2, hm2⟩ := move_modifications h2
      refine ⟨hn2.trans hn1, fun _ hb => ?_⟩
      rw [hm2, hm1, hb, moveCol_empty, moveCol_empty]
    · obtain rfl := Option.some_inj.1 h2
      refine ⟨hn1, fun _ hb => ?_⟩
      rw [hm1, hb, moveCol_empty]
  | listClear oldSize =>
    obtain rfl := Option.some_inj.1 h
    exact ⟨rfl, fun _ _ => rfl⟩
  | listMove fromIndex toIndex =>
    obtain ⟨hn, hm⟩ := move_modifications h
    refine ⟨hn, fun _ hb => ?_⟩
    rw [hm, hb, moveCol_empty]

/-- A list's instructions told one after the other. -/
theorem observe_foldlM : ∀ {log : List (Instruction α)} {rows : List α}
    {bld : CollectionChangeBuilder},
    bld.Follows old rows → log.foldlM (fun rows inst => inst.apply rows) rows = some new →
    ∃ bld', log.foldlM (fun bld inst => inst.observe bld) bld = some bld' ∧
      bld'.Follows old new ∧ bld'.modificationsNew = bld.modificationsNew ∧
      ((∀ inst ∈ log, isSet inst = false) → bld.modifications = ∅ → bld'.modifications = ∅)
  | [], rows, bld, h, hrows => by
    obtain rfl := Option.some_inj.1 hrows
    exact ⟨bld, rfl, h, rfl, fun _ hb => hb⟩
  | inst :: log, rows, bld, h, hrows => by
    obtain ⟨rows₁, h1, h2⟩ := Option.bind_eq_some_iff.1 hrows
    obtain ⟨bld₁, h3, h4⟩ := observe_follows h h1
    obtain ⟨hn, hm⟩ := observe_modifications h3
    obtain ⟨bld', h5, h6, h7, h8⟩ := observe_foldlM h4 h2
    refine ⟨bld', ?_, h6, h7.trans hn, fun hs hb => ?_⟩
    · rw [List.foldlM_cons, h3]
      exact h5
    · exact h8 (fun inst hi => hs inst (List.mem_cons_of_mem _ hi))
        (hm (hs _ (List.mem_cons_self ..)) hb)

end ListResultsNotifier

end IosLearning
