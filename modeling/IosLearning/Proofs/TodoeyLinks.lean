import IosLearning.Proofs.TodoeyRows

/-!
# Items without a category

No operation lists an item twice, and all but one leave every item listed: deleting a category
removes it alone, and the items it lists are then in no list. So every stored item has exactly
one category throughout a run exactly when every category deleted in it was empty
(`linked_iff_deletesEmpty`).
-/

namespace IosLearning

namespace Todoey

variable {C : Collation}

namespace Realm

variable {r : Realm}

/-- Every stored item is in the list of exactly one stored category. -/
def Linked (r : Realm) : Prop :=
  ∀ k i, r.todoItems.get? k = some i →
    ∃! c, ∃ cat, r.todoCategories.get? c = some cat ∧ k ∈ cat.items

/-- Every stored item is in a list. -/
def Housed (r : Realm) : Prop :=
  ∀ k i, r.todoItems.get? k = some i → ∃ c cat, r.todoCategories.get? c = some cat ∧ k ∈ cat.items

theorem Separate.linked_iff (h : r.Separate) : r.Linked ↔ r.Housed := by
  refine forall₃_congr fun k i _ => ?_
  refine ⟨fun hl => ?_, fun hh => ?_⟩
  · obtain ⟨c, ⟨cat, hc, hk⟩, -⟩ := hl
    exact ⟨c, cat, hc, hk⟩
  · obtain ⟨c, cat, hc, hk⟩ := hh
    refine ⟨c, ⟨cat, hc, hk⟩, fun d hd => ?_⟩
    obtain ⟨dat, hd, hk'⟩ := hd
    exact h.disjoint d dat c cat k hd hc hk' hk

theorem housed_empty : Realm.empty.Housed := by
  intro k i hi
  simp [Realm.empty, Table.get?_eq_some] at hi

namespace Housed

variable (h : r.Housed)

include h

theorem add (name : String) : (r.add name).Housed := by
  intro k i hi
  obtain ⟨c, cat, hc, hk⟩ := h k i hi
  have hlt := r.todoCategories.lt_next hc
  refine ⟨c, cat, ?_, hk⟩
  rw [get?_add, if_neg (by omega), hc]

theorem append {c : ℕ} {cat : TodoCategory} (hc : r.todoCategories.get? c = some cat)
    (item : TodoItem) : (r.append c item).Housed := by
  intro k i hi
  have hi' : (r.todoItems.insert item).get? k = some i := hi
  rw [Table.get?_insert] at hi'
  split_ifs at hi' with hk
  · refine ⟨c, _, by rw [get?_append, if_pos rfl, hc, Option.map_some], ?_⟩
    exact List.mem_append_right _ (List.mem_singleton.2 hk)
  · obtain ⟨d, dat, hd, hk⟩ := h k i hi'
    by_cases hdc : d = c
    · subst hdc
      refine ⟨d, _, by rw [get?_append, if_pos rfl, hd, Option.map_some], ?_⟩
      exact List.mem_append_left _ hk
    · exact ⟨d, dat, by rw [get?_append, if_neg hdc, hd], hk⟩

theorem deleteItem (k : ℕ) : (r.deleteItem k).Housed := by
  intro j i hi
  have hi' : (r.todoItems.erase k).get? j = some i := hi
  rw [Table.get?_erase] at hi'
  split_ifs at hi' with hjk
  obtain ⟨c, cat, hc, hj⟩ := h j i hi'
  refine ⟨c, _, by rw [get?_deleteItem, hc, Option.map_some], ?_⟩
  exact List.mem_filter.2 ⟨hj, by simpa using hjk⟩

theorem setDone (k : ℕ) (done : Bool) : (r.setDone k done).Housed := by
  intro j i hi
  have hi' : (r.todoItems.modify k fun i => { i with done }).get? j = some i := hi
  rw [Table.get?_modify] at hi'
  split_ifs at hi'
  · obtain ⟨i₀, hi₀, -⟩ := Option.map_eq_some_iff.1 hi'
    exact h j i₀ hi₀
  · exact h j i hi'

theorem deleteCategory {c : ℕ} {cat : TodoCategory} (hc : r.todoCategories.get? c = some cat)
    (he : cat.items = []) : (r.deleteCategory c).Housed := by
  intro k i hi
  obtain ⟨d, dat, hd, hk⟩ := h k i hi
  have hdc : d ≠ c := by
    rintro rfl
    obtain rfl := Option.some.inj (hc.symm.trans hd)
    rw [he] at hk
    cases hk
  exact ⟨d, dat, by rw [get?_deleteCategory, if_neg hdc, hd], hk⟩

end Housed

/-- What a deleted category lists is in no list any more. -/
theorem Separate.not_housed_deleteCategory (h : r.Separate) {c : ℕ} {cat : TodoCategory}
    (hc : r.todoCategories.get? c = some cat) (he : cat.items ≠ []) :
    ¬ (r.deleteCategory c).Housed := by
  intro hh
  obtain ⟨k, hk⟩ := List.exists_mem_of_ne_nil _ he
  obtain ⟨i, hi⟩ := isSome_of_mem_items hc hk
  obtain ⟨d, dat, hd, hk'⟩ := hh k i hi
  rw [get?_deleteCategory] at hd
  split_ifs at hd with hdc
  exact hdc (h.disjoint d dat c cat k hd hc hk' hk)

end Realm

/-- A category that is swiped away, with the category list on top, has no items. -/
def DeletesEmpty (s : App) : Event → Prop
  | .swipeCategory row => s.todoList = none →
      ∀ r ∈ s.realm.todoCategories.rows[row]?, r.2.items = []
  | _ => True

theorem housed_closed {r : Realm} (h : r.Housed) {e : Event}
    (he : App.enabled (Live.app C ⟨r, none⟩) e = true)
    (hd : DeletesEmpty (Live.app C ⟨r, none⟩) e) : (Live.next C ⟨r, none⟩ e).realm.Housed := by
  cases e with
  | addCategory name => exact h.add name
  | swipeCategory i =>
    obtain ⟨row, hi⟩ := exists_row (of_decide_eq_true he)
    have hc := r.todoCategories.get?_eq_some.2 (List.mem_of_getElem? hi)
    rw [next_swipeCategory none hi]
    exact h.deleteCategory hc (hd rfl row hi)
  | selectCategory _ | relaunch => exact h
  | addItem _ _ | selectItem _ | swipeItem _ | textDidChange _ | searchButtonClicked | back =>
    cases he

theorem housed_opened {r : Realm} {o : ItemResults × String} (h : r.Housed)
    (ha : Live.Sound ⟨r, some o⟩) {e : Event}
    (he : App.enabled (Live.app C ⟨r, some o⟩) e = true) :
    (Live.next C ⟨r, some o⟩ e).realm.Housed := by
  obtain ⟨cat, hc⟩ := ha.stored o rfl
  cases e with
  | addItem name now => exact h.append hc _
  | selectItem i =>
    obtain ⟨row, hi⟩ := exists_row (of_decide_eq_true he)
    rw [next_selectItem hi]
    exact h.setDone _ _
  | swipeItem i =>
    obtain ⟨row, hi⟩ := exists_row (of_decide_eq_true he)
    rw [next_swipeItem hi]
    exact h.deleteItem _
  | textDidChange _ | searchButtonClicked | back | relaunch => exact h
  | addCategory _ | selectCategory _ | swipeCategory _ => cases he

theorem not_deletesEmpty {s : App} {e : Event} (h : ¬ DeletesEmpty s e) :
    ∃ i row, e = .swipeCategory i ∧ s.todoList = none
      ∧ s.realm.todoCategories.rows[i]? = some row ∧ row.2.items ≠ [] := by
  cases e with
  | swipeCategory i =>
    simp only [DeletesEmpty, Classical.not_imp, not_forall, Option.mem_def] at h
    obtain ⟨hn, row, hi, hne⟩ := h
    exact ⟨i, row, rfl, hn, hi, hne⟩
  | _ => exact absurd trivial h

/-- Throughout a run every stored item is in the list of exactly one category, exactly when every
category deleted in it has no items when it goes. -/
theorem linked_iff_deletesEmpty (C : Collation) (is : List Event) :
    (machine C).Always (fun _ s => s.realm.Linked) is
      ↔ (machine C).Along (fun _ s e => DeletesEmpty s e) is := by
  refine Machine.always_iff_along (fun s hs => ?_) (fun is s e s' hr hl hd hst => ?_)
    (fun is s e hr _ hd => ?_) is
  · rw [(drawn C).start] at hs
    obtain rfl := Option.some.inj hs
    exact Realm.separate_empty.linked_iff.2 Realm.housed_empty
  · obtain ⟨a, ha, rfl⟩ := (drawn C).reachable ⟨is, hr⟩
    obtain ⟨he, hh⟩ := Machine.step_eq_some.1 hst
    obtain ⟨hn, hs⟩ := (drawn C).handle a e ha he
    obtain rfl := Option.some.inj (hh.symm.trans hn)
    refine hs.separate.linked_iff.2 ?_
    obtain ⟨r, _ | o⟩ := a
    · exact housed_closed (ha.separate.linked_iff.1 hl) he hd
    · exact housed_opened (ha.separate.linked_iff.1 hl) ha he
  · obtain ⟨a, ha, rfl⟩ := (drawn C).reachable ⟨is, hr⟩
    obtain ⟨i, row, rfl, hn, hi, hne⟩ := not_deletesEmpty hd
    obtain ⟨r, o⟩ := a
    obtain rfl : o = none := Option.map_eq_none_iff.1 hn
    have hi : r.todoCategories.rows[i]? = some row := hi
    have hc := r.todoCategories.get?_eq_some.2 (List.mem_of_getElem? hi)
    have hlt : i < ((Live.app C ⟨r, none⟩).categoryList.tableView).length := by
      show i < (r.todoCategories.rows.map CategoryViewController.drawn).length
      rw [List.length_map]
      exact (List.getElem?_eq_some_iff.1 hi).1
    refine ⟨_, (drawn C).step ha (decide_eq_true hlt), fun hl => ?_⟩
    rw [next_swipeCategory none hi] at hl
    exact ha.separate.not_housed_deleteCategory hc hne
      ((ha.separate.deleteCategory _).linked_iff.1 hl)

/-- A category is deleted with the item in it. -/
theorem orphan_after_deletion :
    ¬ (machine .ascii).Always (fun _ s => s.realm.Linked) [.addCategory "home",
      .selectCategory 0, .addItem "Tea" ⟨0⟩, .back, .swipeCategory 0] := by
  intro h
  obtain ⟨s, hs⟩ : ∃ s, (machine .ascii).run [.addCategory "home", .selectCategory 0,
      .addItem "Tea" ⟨0⟩, .back, .swipeCategory 0] = some s := ⟨_, rfl⟩
  have hl := h _ s List.prefix_rfl hs
  cases hs
  obtain ⟨c, ⟨cat, hc, -⟩, -⟩ := hl 0 { name := "Tea", time := ⟨0⟩ } rfl
  cases hc

end Todoey

end IosLearning
