import Mathlib.Data.List.Sort

/-!
# Sorting what is left

A stable sort by a total preorder keeps apart what a filter keeps: it does not matter whether a
list is first filtered and then sorted, or the other way round.
-/

namespace IosLearning

variable {α : Type*} {r : α → α → Prop} [DecidableRel r]

theorem filter_orderedInsert_of_neg {p : α → Bool} {a : α} (hp : p a = false) :
    ∀ l : List α, (l.orderedInsert r a).filter p = l.filter p
  | [] => by simp [hp]
  | b :: l => by
    rw [List.orderedInsert_cons]
    split_ifs with h
    · rw [List.filter_cons_of_neg (by simp [hp])]
    · rw [List.filter_cons, List.filter_cons, filter_orderedInsert_of_neg hp l]

theorem filter_orderedInsert_of_pos [IsTrans α r] {p : α → Bool} {a : α} (hp : p a = true) :
    ∀ {l : List α}, l.Pairwise r →
      (l.orderedInsert r a).filter p = (l.filter p).orderedInsert r a
  | [], _ => by simp [hp]
  | b :: l, hl => by
    obtain ⟨hb, hl⟩ := List.pairwise_cons.1 hl
    rw [List.orderedInsert_cons]
    split_ifs with h
    · -- `a` goes before all of the list, and so before what the filter keeps of it
      have hle : ∀ c ∈ (b :: l).filter p, r a c := by
        intro c hc
        rcases List.mem_cons.1 (List.mem_of_mem_filter hc) with rfl | hc
        · exact h
        · exact IsTrans.trans a b c h (hb c hc)
      rw [List.filter_cons_of_pos hp]
      rcases hf : (b :: l).filter p with _ | ⟨c, cs⟩
      · rfl
      · rw [hf] at hle
        rw [List.orderedInsert_cons_of_le r cs (hle c List.mem_cons_self)]
    · rw [List.filter_cons, List.filter_cons, filter_orderedInsert_of_pos hp hl]
      split_ifs
      · rw [List.orderedInsert_of_not_le r _ h]
      · rfl

theorem insertionSort_filter [Std.Total r] [IsTrans α r] (p : α → Bool) :
    ∀ l : List α, (l.filter p).insertionSort r = (l.insertionSort r).filter p
  | [] => rfl
  | a :: l => by
    have ih := insertionSort_filter p l
    rw [List.insertionSort_cons]
    by_cases hp : p a = true
    · rw [List.filter_cons_of_pos hp, List.insertionSort_cons, ih,
        filter_orderedInsert_of_pos hp (List.pairwise_insertionSort r l)]
    · rw [Bool.not_eq_true] at hp
      rw [List.filter_cons_of_neg (by simp [hp]), ih, filter_orderedInsert_of_neg hp]

end IosLearning
