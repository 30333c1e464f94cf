import IosLearning.Base.StableSort
import IosLearning.Todoey

/-!
# The store under the lists

What each operation does to the list of a category and to the rows of a query. No item is ever
listed twice, by one category or by two (`Realm.Separate`); so the rows of a query are distinct,
and deleting the object of a row takes that row out and leaves the others in their order
(`rows_deleteItem`): erasing commutes with the filters and with the stable sort.
-/

namespace IosLearning

namespace Todoey

namespace Realm

variable {r : Realm} {c k : ℕ} {cat : TodoCategory}

/-- No item is in two lists, or twice in one. -/
structure Separate (r : Realm) : Prop where
  nodup : ∀ c cat, r.todoCategories.get? c = some cat → cat.items.Nodup
  disjoint : ∀ c cat c' cat' k, r.todoCategories.get? c = some cat →
    r.todoCategories.get? c' = some cat' → k ∈ cat.items → k ∈ cat'.items → c = c'

theorem isSome_of_mem_items (hc : r.todoCategories.get? c = some cat) (hk : k ∈ cat.items) :
    ∃ i, r.todoItems.get? k = some i :=
  Option.isSome_iff_exists.1 (r.links (c, cat) (r.todoCategories.get?_eq_some.1 hc) k hk)

theorem next_notMem_items (hc : r.todoCategories.get? c = some cat) :
    r.todoItems.next ∉ cat.items := by
  intro hk
  obtain ⟨i, hi⟩ := isSome_of_mem_items hc hk
  exact Nat.lt_irrefl _ (r.todoItems.lt_next hi)

theorem separate_empty : Realm.empty.Separate where
  nodup c cat h := by simp [Realm.empty, Table.get?_eq_some] at h
  disjoint c cat c' cat' k h := by simp [Realm.empty, Table.get?_eq_some] at h

theorem get?_add {name : String} : (r.add name).todoCategories.get? c
    = if c = r.todoCategories.next then some { name } else r.todoCategories.get? c :=
  Table.get?_insert _

theorem get?_append {item : TodoItem} {d : ℕ} : (r.append c item).todoCategories.get? d
    = if d = c then (r.todoCategories.get? d).map
        fun cat => { cat with items := cat.items ++ [r.todoItems.next] }
      else r.todoCategories.get? d :=
  Table.get?_modify _ _

theorem get?_deleteItem : (r.deleteItem k).todoCategories.get? c
    = (r.todoCategories.get? c).map fun cat => { cat with items := cat.items.filter (· ≠ k) } :=
  Table.get?_mapRows _ _

/-- A category loses a deleted item, and only that. -/
theorem get?_deleteItem_of_nodup (hc : r.todoCategories.get? c = some cat)
    (hn : cat.items.Nodup) :
    (r.deleteItem k).todoCategories.get? c = some { cat with items := cat.items.erase k } := by
  have hf : cat.items.filter (· ≠ k) = cat.items.erase k := by
    rw [hn.erase_eq_filter]
    exact List.filter_congr fun j _ => by rw [Bool.eq_iff_iff]; simp
  rw [get?_deleteItem, hc, Option.map_some, hf]

theorem get?_deleteCategory {d : ℕ} : (r.deleteCategory c).todoCategories.get? d
    = if d = c then none else r.todoCategories.get? d :=
  Table.get?_erase _

namespace Separate

variable (h : r.Separate)

include h

theorem add (name : String) : (r.add name).Separate where
  nodup c cat hc := by
    rw [get?_add] at hc
    split_ifs at hc
    · cases hc
      exact List.nodup_nil
    · exact h.nodup c cat hc
  disjoint c cat c' cat' k hc hc' hk hk' := by
    rw [get?_add] at hc hc'
    split_ifs at hc hc'
    · cases hc
      simp at hk
    · cases hc
      simp at hk
    · cases hc'
      simp at hk'
    · exact h.disjoint c cat c' cat' k hc hc' hk hk'

/-- What a category lists once an item is appended to `c`: what it listed, or the new item if it
is `c`. -/
theorem mem_append {item : TodoItem} {d : ℕ} {dat : TodoCategory}
    (hd : (r.append c item).todoCategories.get? d = some dat) :
    ∃ dat₀, r.todoCategories.get? d = some dat₀ ∧ dat.items.Nodup
      ∧ ∀ k ∈ dat.items, k ∈ dat₀.items ∨ (k = r.todoItems.next ∧ d = c) := by
  rw [get?_append] at hd
  split_ifs at hd with hdc
  · obtain ⟨dat₀, hd₀, rfl⟩ := Option.map_eq_some_iff.1 hd
    refine ⟨dat₀, hd₀, ?_, ?_⟩
    · show (dat₀.items ++ [r.todoItems.next]).Nodup
      rw [List.nodup_append]
      refine ⟨h.nodup d dat₀ hd₀, List.nodup_singleton _, ?_⟩
      intro k hk j hj
      rw [List.mem_singleton] at hj
      rintro rfl
      exact next_notMem_items hd₀ (hj ▸ hk)
    · intro k hk
      rcases List.mem_append.1 hk with hk | hk
      · exact Or.inl hk
      · exact Or.inr ⟨List.mem_singleton.1 hk, hdc⟩
  · exact ⟨dat, hd, h.nodup d dat hd, fun k hk => Or.inl hk⟩

theorem append (c : ℕ) (item : TodoItem) : (r.append c item).Separate where
  nodup d dat hd := by
    obtain ⟨-, -, hn, -⟩ := h.mem_append hd
    exact hn
  disjoint d dat d' dat' k hd hd' hk hk' := by
    obtain ⟨dat₀, hd₀, -, hm⟩ := h.mem_append hd
    obtain ⟨dat₀', hd₀', -, hm'⟩ := h.mem_append hd'
    rcases hm k hk with hk | ⟨rfl, rfl⟩ <;> rcases hm' _ hk' with hk' | ⟨hn, rfl⟩
    · exact h.disjoint d dat₀ d' dat₀' k hd₀ hd₀' hk hk'
    · exact absurd (hn ▸ hk) (next_notMem_items hd₀)
    · exact absurd hk' (next_notMem_items hd₀')
    · rfl

theorem deleteItem (k : ℕ) : (r.deleteItem k).Separate where
  nodup c cat hc := by
    rw [get?_deleteItem] at hc
    obtain ⟨cat₀, hc₀, rfl⟩ := Option.map_eq_some_iff.1 hc
    exact (h.nodup c cat₀ hc₀).filter _
  disjoint c cat c' cat' j hc hc' hj hj' := by
    rw [get?_deleteItem] at hc hc'
    obtain ⟨cat₀, hc₀, rfl⟩ := Option.map_eq_some_iff.1 hc
    obtain ⟨cat₀', hc₀', rfl⟩ := Option.map_eq_some_iff.1 hc'
    exact h.disjoint c cat₀ c' cat₀' j hc₀ hc₀' (List.mem_of_mem_filter hj)
      (List.mem_of_mem_filter hj')

theorem deleteCategory (k : ℕ) : (r.deleteCategory k).Separate where
  nodup c cat hc := by
    rw [get?_deleteCategory] at hc
    split_ifs at hc
    exact h.nodup c cat hc
  disjoint c cat c' cat' j hc hc' := by
    rw [get?_deleteCategory] at hc hc'
    split_ifs at hc hc'
    exact h.disjoint c cat c' cat' j hc hc'

theorem setDone (k : ℕ) (done : Bool) : (r.setDone k done).Separate where
  nodup := h.nodup
  disjoint := h.disjoint

end Separate

/-! ## Rows -/

theorem itemsOf_eq (hc : r.todoCategories.get? c = some cat) :
    r.itemsOf c = cat.items.filterMap fun k => (r.todoItems.get? k).map (k, ·) := by
  rw [itemsOf, hc]
  rfl

theorem mem_itemsOf {row : ℕ × TodoItem} : row ∈ r.itemsOf c ↔
    ∃ cat, r.todoCategories.get? c = some cat ∧ row.1 ∈ cat.items
      ∧ r.todoItems.get? row.1 = some row.2 := by
  obtain ⟨k, i⟩ := row
  rcases hc : r.todoCategories.get? c with _ | cat
  · simp [itemsOf, hc]
  · simp only [itemsOf_eq hc, List.mem_filterMap, Option.map_eq_some_iff, Prod.mk.injEq]
    refine ⟨fun hm => ?_, fun hm => ?_⟩
    · obtain ⟨k', hk, i', hi, rfl, rfl⟩ := hm
      exact ⟨cat, rfl, hk, hi⟩
    · obtain ⟨cat', he, hk, hi⟩ := hm
      obtain rfl := Option.some.inj he
      exact ⟨k, hk, i, hi, rfl, rfl⟩

/-- Every listed object is there. -/
theorem itemsOf_keys (hc : r.todoCategories.get? c = some cat) :
    (r.itemsOf c).map (·.1) = cat.items := by
  have hk : ∀ k ∈ cat.items, ((r.todoItems.get? k).map (k, ·)).map (·.1) = some k := by
    intro k hk
    obtain ⟨i, hi⟩ := isSome_of_mem_items hc hk
    rw [hi]
    rfl
  rw [itemsOf_eq hc, List.map_filterMap, List.filterMap_congr hk, List.filterMap_some]

theorem itemsOf_keys_nodup (h : r.Separate) (c : ℕ) : ((r.itemsOf c).map (·.1)).Nodup := by
  rcases hc : r.todoCategories.get? c with _ | cat
  · simp [itemsOf, hc]
  · rw [itemsOf_keys hc]
    exact h.nodup c cat hc

theorem itemsOf_deleteItem : (r.deleteItem k).itemsOf c = (r.itemsOf c).filter (·.1 ≠ k) := by
  rcases hc : r.todoCategories.get? c with _ | cat
  · rw [itemsOf, itemsOf, get?_deleteItem, hc]
    rfl
  · have hd : (r.deleteItem k).todoCategories.get? c
        = some { cat with items := cat.items.filter (· ≠ k) } := by
      rw [get?_deleteItem, hc]
      rfl
    rw [itemsOf_eq hd, itemsOf_eq hc, List.filter_filterMap, List.filterMap_filter]
    refine List.filterMap_congr fun j _ => ?_
    show (if _ then ((r.todoItems.erase k).get? j).map _ else none) = _
    rw [Table.get?_erase]
    rcases hj : r.todoItems.get? j with _ | i <;> by_cases hjk : j = k <;> simp [hjk, Option.filter]

end Realm

section Rows

variable {C : Collation} {r : Realm} {q : ItemResults}

instance : Std.Total fun x y : ℕ × TodoItem => C.le x.2.name y.2.name = true where
  total x y := by simpa using C.total x.2.name y.2.name

instance : IsTrans (ℕ × TodoItem) fun x y => C.le x.2.name y.2.name = true where
  trans x y z := C.trans x.2.name y.2.name z.2.name

theorem rows_perm : (q.rows C r).Perm
    ((r.itemsOf q.category).filter fun row => q.texts.all (C.contains row.2.name)) :=
  List.perm_insertionSort _ _

theorem mem_rows {row : ℕ × TodoItem} : row ∈ q.rows C r ↔
    row ∈ r.itemsOf q.category ∧ ∀ text ∈ q.texts, C.contains row.2.name text := by
  rw [rows_perm.mem_iff, List.mem_filter, List.all_eq_true]

theorem rows_ordered : (q.rows C r).Pairwise fun x y => C.le x.2.name y.2.name :=
  List.pairwise_insertionSort _ _

theorem rows_keys_nodup (h : r.Separate) : ((q.rows C r).map (·.1)).Nodup :=
  (rows_perm.map _).nodup_iff.2
    ((List.filter_sublist.map _).nodup (r.itemsOf_keys_nodup h q.category))

theorem rows_deleteCategory {i : ℕ} {row : ℕ × TodoCategory}
    (hi : r.todoCategories.rows[i]? = some row) :
    (r.deleteCategory row.1).todoCategories.rows = r.todoCategories.rows.eraseIdx i :=
  r.todoCategories.erase_rows hi

theorem rows_deleteItem (h : r.Separate) {i : ℕ} {row : ℕ × TodoItem}
    (hi : (q.rows C r)[i]? = some row) :
    q.rows C (r.deleteItem row.1) = (q.rows C r).eraseIdx i := by
  rw [← filter_ne_eq_eraseIdx (fun row : ℕ × TodoItem => row.1) (rows_keys_nodup h) hi]
  unfold ItemResults.rows
  rw [Realm.itemsOf_deleteItem, List.filter_comm, insertionSort_filter]

end Rows

end Todoey

end IosLearning
