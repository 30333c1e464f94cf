import IosLearning.Proofs.CollectionMerge
import IosLearning.TransactLog

/-!
# A list followed through the log

Told of an instruction that may be given for the list, a change set fails no assertion and tracks
the list as the instruction leaves it. A swap is told as two moves.
-/

namespace IosLearning

open CollectionChangeBuilder

variable {α : Type*} {a b c : List α} {bld : CollectionChangeBuilder} {x y : α} {i j n : ℕ}

/-- What a change set tells of a collection's rows. -/
abbrev CollectionChangeBuilder.Follows (bld : CollectionChangeBuilder) (old new : List α) : Prop :=
  Tracks (bld.edit bld.modifications) bld.moves old new

theorem move_follows (h : bld.Follows a b) (hi : b[i]? = some x) (hj : j < b.length)
    (hij : i ≠ j) :
    ∃ bld', bld.move i j = some bld' ∧ bld'.Follows a ((b.eraseIdx i).insertIdx j x) := by
  obtain ⟨bld', he, hc, ht⟩ := tracks_move h hi hj hij
  refine ⟨bld', he, ?_⟩
  have hm : bld'.modifications = _ := hc none
  rwa [CollectionChangeBuilder.Follows, hm]

/-- A row moved to a later one's place, and that one, now before it, moved back to the first's. -/
theorem swap_eq_moves (hj : b[j]? = some y) (hij : i < j) :
    (b.set i y).set j x =
      (((b.eraseIdx i).insertIdx j x).eraseIdx (j - 1)).insertIdx i y := by
  have hlen := (List.getElem?_eq_some_iff.1 hj).1
  refine List.ext_getElem? fun k => ?_
  simp only [List.getElem?_set, List.getElem?_insertIdx, List.getElem?_eraseIdx,
    List.length_insertIdx, List.length_eraseIdx, List.length_set]
  grind

theorem swap_eq_move (hj : b[i + 1]? = some y) :
    (b.set i y).set (i + 1) x = (b.eraseIdx i).insertIdx (i + 1) x := by
  have hlen := (List.getElem?_eq_some_iff.1 hj).1
  refine List.ext_getElem? fun k => ?_
  simp only [List.getElem?_set, List.getElem?_insertIdx, List.getElem?_eraseIdx,
    List.length_eraseIdx, List.length_set]
  grind

theorem swap_follows (h : bld.Follows a b) (hi : b[i]? = some x) (hj : b[j]? = some y)
    (hij : i < j) : ∃ bld', ((bld.move i j).bind fun bld =>
        if i + 1 ≠ j then bld.move (j - 1) i else some bld) = some bld' ∧
      bld'.Follows a ((b.set i y).set j x) := by
  have hlen := (List.getElem?_eq_some_iff.1 hj).1
  obtain ⟨bld₁, he, hf⟩ := move_follows h hi hlen hij.ne
  rw [he, Option.bind_some]
  by_cases hn : i + 1 = j
  · subst hn
    rw [if_neg (not_not.2 rfl), swap_eq_move hj]
    exact ⟨bld₁, rfl, hf⟩
  · have hy : ((b.eraseIdx i).insertIdx j x)[j - 1]? = some y := by
      rw [List.getElem?_insertIdx_of_lt (by omega), List.getElem?_eraseIdx, if_neg (by omega),
        Nat.sub_add_cancel (by omega), hj]
    have hl : i < ((b.eraseIdx i).insertIdx j x).length := by
      rw [List.length_insertIdx, List.length_eraseIdx]
      split_ifs <;> omega
    obtain ⟨bld₂, he₂, hf₂⟩ := move_follows hf hy hl (by omega)
    rw [if_pos hn, swap_eq_moves hj hij]
    exact ⟨bld₂, he₂, hf₂⟩

/-- Told of an instruction that may be given, the change set fails no assertion. -/
theorem observe_follows (h : bld.Follows a b) {inst : Instruction α} (hb : inst.apply b = some c) :
    ∃ bld', inst.observe bld = some bld' ∧ bld'.Follows a c := by
  cases inst with
  | selectTable | createObject | modifyObject | removeObject | clearTable | insertColumn
  | insertGroupLevelTable | selectList =>
    obtain rfl := Option.some.inj hb
    exact ⟨bld, rfl, h⟩
  | listSet index row =>
    simp only [Instruction.apply] at hb
    split_ifs at hb
    obtain rfl := Option.some.inj hb
    exact ⟨_, rfl, tracks_modify h none⟩
  | listInsert index row =>
    simp only [Instruction.apply] at hb
    split_ifs at hb with hi
    obtain rfl := Option.some.inj hb
    obtain ⟨bld', he, hc, ht⟩ := tracks_insert [row] h hi Nat.one_pos
    have hm : bld'.modifications = _ := hc none
    exact ⟨bld', he, by rwa [CollectionChangeBuilder.Follows, hm]⟩
  | listErase index =>
    simp only [Instruction.apply] at hb
    split_ifs at hb with hi
    obtain rfl := Option.some.inj hb
    exact ⟨_, rfl, tracks_erase h hi⟩
  | listSwap index1 index2 =>
    simp only [Instruction.apply] at hb
    split_ifs at hb with hne
    split at hb
    · rename_i row1 row2 h1 h2
      obtain rfl := Option.some.inj hb
      by_cases hlt : index1 > index2
      · simp only [Instruction.observe, if_pos hlt]
        rw [List.set_comm _ _ hne]
        exact swap_follows h h2 h1 hlt
      · simp only [Instruction.observe, if_neg hlt]
        exact swap_follows h h1 h2 (by omega)
    · cases hb
  | listClear oldSize =>
    simp only [Instruction.apply] at hb
    split_ifs at hb with hi
    obtain rfl := Option.some.inj hb
    subst hi
    exact ⟨_, rfl, tracks_clear h⟩
  | listMove fromIndex toIndex =>
    simp only [Instruction.apply] at hb
    split_ifs at hb with hne
    rw [not_or, not_le] at hne
    obtain ⟨row, hrow, rfl⟩ := Option.map_eq_some_iff.1 hb
    exact move_follows h hrow hne.2 hne.1

end IosLearning
