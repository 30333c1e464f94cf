import IosLearning.Proofs.TodoeyStore

/-!
# The rows on screen

`Live` is the app without its tables: the store and, of the open item list, its query and the
text of the search bar. What the tables show follows from it at every moment, and each handler
does what `Live.next` says and never traps (`drawn`). So a row on screen is the row of the live
query at its index, and what is done to it is done to the object it shows and to no other
(`rows_match`).
-/

namespace IosLearning

namespace Todoey

variable {C : Collation}

/-- The store, and the query and the text of the item list, when it is open. -/
structure Live where
  realm : Realm
  opened : Option (ItemResults × String) := none

namespace Live

def categoryRow (a : Live) (row : ℕ) : Option (ℕ × TodoCategory) :=
  a.realm.todoCategories.rows[row]?

def itemRow (C : Collation) (a : Live) (row : ℕ) : Option (ℕ × TodoItem) :=
  a.opened.bind fun o => (o.1.rows C a.realm)[row]?

def next (C : Collation) (a : Live) : Event → Live
  | .addCategory name => { a with realm := a.realm.add name }
  | .selectCategory row =>
    { a with opened := (a.categoryRow row).map fun r => ({ category := r.1 }, "") }
  | .swipeCategory row =>
    { a with realm := (a.categoryRow row).elim a.realm fun r => a.realm.deleteCategory r.1 }
  | .addItem name now =>
    { a with realm := a.opened.elim a.realm fun o =>
        a.realm.append o.1.category { name, done := false, time := now } }
  | .selectItem row =>
    { a with realm := (a.itemRow C row).elim a.realm fun r => a.realm.setDone r.1 !r.2.done }
  | .swipeItem row =>
    { a with realm := (a.itemRow C row).elim a.realm fun r => a.realm.deleteItem r.1 }
  | .textDidChange text =>
    { a with opened := a.opened.map fun o =>
        (if text.isEmpty then { category := o.1.category } else o.1, text) }
  | .searchButtonClicked => { a with opened := a.opened.map fun o => (o.1.filter o.2, o.2) }
  | .back => { a with opened := none }
  | .relaunch => { a with opened := none }

/-- No item is listed twice, and the category of the open list is stored. -/
structure Sound (a : Live) : Prop where
  separate : a.realm.Separate
  stored : ∀ o ∈ a.opened, ∃ cat, a.realm.todoCategories.get? o.1.category = some cat

def categoryList (r : Realm) : CategoryViewController where
  categories := some {}
  tableView := r.todoCategories.rows.map CategoryViewController.drawn

def todoList (C : Collation) (r : Realm) (o : ItemResults × String) : TodoListViewController where
  uiSearchBar := o.2
  itemArray := some o.1
  selectedCategory := some o.1.category
  tableView := (o.1.rows C r).map TodoListViewController.drawn

/-- The app as it is on screen. -/
def app (C : Collation) (a : Live) : App where
  realm := a.realm
  categoryList := categoryList a.realm
  todoList := a.opened.map (todoList C a.realm)

end Live

/-! ## What the tables are told -/

section Tables

variable {r : Realm}

theorem lists_categories : (CategoryViewController.dataSource (some {})).Lists
    (fun r => r.todoCategories.rows) CategoryViewController.drawn where
  numberOfRows _ := rfl
  cellForRow _ _ := rfl

theorem lists_items (q : ItemResults) : (TodoListViewController.dataSource C (some q)).Lists
    (q.rows C) TodoListViewController.drawn where
  numberOfRows _ := rfl
  cellForRow _ _ := rfl

theorem reload_categories (cells : List Cell) :
    CategoryViewController.reloadData r { categories := some {}, tableView := cells }
      = some (Live.categoryList r) := by
  unfold CategoryViewController.reloadData
  rw [lists_categories.reloadData]
  rfl

theorem reload_items (q : ItemResults) (t : String) (cells : List Cell) :
    TodoListViewController.reloadData C r ⟨t, some q, some q.category, cells⟩
      = some (Live.todoList C r (q, t)) := by
  unfold TodoListViewController.reloadData
  rw [(lists_items q).reloadData]
  rfl

theorem loadItems_spec {c : ℕ} {cat : TodoCategory} (hc : r.todoCategories.get? c = some cat)
    (t : String) (q : Option ItemResults) (cells : List Cell) :
    TodoListViewController.loadItems C r ⟨t, q, some c, cells⟩
      = some (Live.todoList C r ({ category := c }, t)) := by
  simp only [TodoListViewController.loadItems, hc, Option.bind_eq_bind, Option.bind_some]
  exact reload_items { category := c } t cells

theorem addNewCategory_spec (name : String) :
    (Live.categoryList r).addNewCategory name r
      = some (r.add name, Live.categoryList (r.add name)) := by
  have hr := reload_categories (r := r.add name) (Live.categoryList r).tableView
  unfold CategoryViewController.addNewCategory
  show Option.bind _ _ = _
  rw [Live.categoryList] at hr ⊢
  rw [hr]
  rfl

theorem didSelectCategory_spec {i : ℕ} {row : ℕ × TodoCategory}
    (hi : r.todoCategories.rows[i]? = some row) :
    CategoryViewController.didSelectRowAt C i r (Live.categoryList r)
      = some (Live.todoList C r ({ category := row.1 }, "")) := by
  have hc : r.todoCategories.get? row.1 = some row.2 :=
    r.todoCategories.get?_eq_some.2 (List.mem_of_getElem? hi)
  simp only [CategoryViewController.didSelectRowAt, Live.categoryList, CategoryResults.rows,
    Option.elim_some, hi, Option.map_some, Option.bind_eq_bind, Option.bind_some]
  exact loadItems_spec hc "" none []

/-- The row that goes is the deleted category's. -/
theorem swipe_category {i : ℕ} {row : ℕ × TodoCategory}
    (hi : r.todoCategories.rows[i]? = some row) :
    swipeDelete (CategoryViewController.dataSource (some {}))
        (CategoryViewController.deleteAction (some {})) r
        (r.todoCategories.rows.map CategoryViewController.drawn) i
      = some (r.deleteCategory row.1,
        (r.deleteCategory row.1).todoCategories.rows.map CategoryViewController.drawn) := by
  have hd := lists_categories.deleteRow (List.getElem?_eq_some_iff.1 hi).1 (rows_deleteCategory hi)
  simp only [swipeDelete, CategoryViewController.deleteAction, CategoryResults.rows, hi,
    Option.bind_eq_bind, Option.bind_some, Option.pure_def, hd]

variable {o : ItemResults × String}

theorem addItem_spec {cat : TodoCategory} (hc : r.todoCategories.get? o.1.category = some cat)
    (name : String) (now : Date) :
    (Live.todoList C r o).addItem C name now r
      = some (r.append o.1.category { name, done := false, time := now },
        Live.todoList C (r.append o.1.category { name, done := false, time := now }) o) := by
  have hr := reload_items (C := C) (r := r.append o.1.category { name, done := false, time := now })
    o.1 o.2 (Live.todoList C r o).tableView
  simp only [TodoListViewController.addItem, TodoListViewController.saveData, Live.todoList, hc,
    Option.bind_eq_bind, Option.bind_some, Option.pure_def] at hr ⊢
  rw [hr, Option.bind_some]

theorem didSelectItem_spec {i : ℕ} {row : ℕ × TodoItem} (hi : (o.1.rows C r)[i]? = some row) :
    (Live.todoList C r o).didSelectRowAt C i r
      = some (r.setDone row.1 !row.2.done, Live.todoList C (r.setDone row.1 !row.2.done) o) := by
  have hr := reload_items (C := C) (r := r.setDone row.1 !row.2.done) o.1 o.2
    (Live.todoList C r o).tableView
  simp only [TodoListViewController.didSelectRowAt, Live.todoList, hi, Option.bind_eq_bind,
    Option.bind_some, Option.pure_def] at hr ⊢
  rw [hr, Option.bind_some]

/-- The row that goes is the deleted item's. -/
theorem swipe_item (h : r.Separate) {q : ItemResults} {i : ℕ} {row : ℕ × TodoItem}
    (hi : (q.rows C r)[i]? = some row) :
    swipeDelete (TodoListViewController.dataSource C (some q))
        (TodoListViewController.deleteAction C (some q)) r
        ((q.rows C r).map TodoListViewController.drawn) i
      = some (r.deleteItem row.1,
        (q.rows C (r.deleteItem row.1)).map TodoListViewController.drawn) := by
  have hd := (lists_items q).deleteRow (List.getElem?_eq_some_iff.1 hi).1 (rows_deleteItem h hi)
  simp only [swipeDelete, TodoListViewController.deleteAction, hi, Option.bind_eq_bind,
    Option.bind_some, Option.pure_def, hd]

theorem textDidChange_spec {cat : TodoCategory}
    (hc : r.todoCategories.get? o.1.category = some cat) (text : String) :
    (Live.todoList C r o).textDidChange C text r
      = some (Live.todoList C r
        (if text.isEmpty then { category := o.1.category } else o.1, text)) := by
  unfold TodoListViewController.textDidChange
  by_cases ht : text.isEmpty = true
  · rw [if_pos ht, if_pos ht]
    exact loadItems_spec hc text (some o.1) _
  · rw [if_neg ht, if_neg ht]
    rfl

theorem searchButton_spec :
    (Live.todoList C r o).searchBarSearchButtonClicked C r
      = some (Live.todoList C r (o.1.filter o.2, o.2)) :=
  reload_items (o.1.filter o.2) o.2 _

end Tables

/-! ## Each handler -/

section Handlers

variable {r : Realm} {o : ItemResults × String}

theorem exists_row {α β : Type*} {l : List α} {f : α → β} {i : ℕ} (h : i < (l.map f).length) :
    ∃ row, l[i]? = some row := by
  rw [List.length_map] at h
  exact ⟨l[i], List.getElem?_eq_getElem h⟩

theorem next_selectCategory {i : ℕ} {row : ℕ × TodoCategory} (p : Option (ItemResults × String))
    (hi : r.todoCategories.rows[i]? = some row) :
    Live.next C ⟨r, p⟩ (.selectCategory i) = ⟨r, some ({ category := row.1 }, "")⟩ := by
  simp only [Live.next, Live.categoryRow, hi, Option.map_some]

theorem next_swipeCategory {i : ℕ} {row : ℕ × TodoCategory} (p : Option (ItemResults × String))
    (hi : r.todoCategories.rows[i]? = some row) :
    Live.next C ⟨r, p⟩ (.swipeCategory i) = ⟨r.deleteCategory row.1, p⟩ := by
  simp only [Live.next, Live.categoryRow, hi, Option.elim_some]

theorem next_selectItem {i : ℕ} {row : ℕ × TodoItem} (hi : (o.1.rows C r)[i]? = some row) :
    Live.next C ⟨r, some o⟩ (.selectItem i) = ⟨r.setDone row.1 !row.2.done, some o⟩ := by
  simp only [Live.next, Live.itemRow, Option.bind_some, hi, Option.elim_some]

theorem next_swipeItem {i : ℕ} {row : ℕ × TodoItem} (hi : (o.1.rows C r)[i]? = some row) :
    Live.next C ⟨r, some o⟩ (.swipeItem i) = ⟨r.deleteItem row.1, some o⟩ := by
  simp only [Live.next, Live.itemRow, Option.bind_some, hi, Option.elim_some]

theorem Live.Sound.closed (h : r.Separate) : (⟨r, none⟩ : Live).Sound where
  separate := h
  stored _ ho := by cases ho

theorem Live.Sound.opened {cat : TodoCategory} (h : r.Separate)
    (hc : r.todoCategories.get? o.1.category = some cat) : (⟨r, some o⟩ : Live).Sound where
  separate := h
  stored o' ho := by
    cases ho
    exact ⟨cat, hc⟩

/-- What is done on the category list. -/
theorem handle_closed (h : r.Separate) {e : Event}
    (he : App.enabled (Live.app C ⟨r, none⟩) e = true) :
    App.handle C (Live.app C ⟨r, none⟩) e = some ((Live.next C ⟨r, none⟩ e).app C)
      ∧ (Live.next C ⟨r, none⟩ e).Sound := by
  cases e with
  | addCategory name =>
    refine ⟨?_, .closed (h.add name)⟩
    simp only [App.handle, Live.app, addNewCategory_spec]
    rfl
  | selectCategory i =>
    obtain ⟨row, hi⟩ := exists_row (of_decide_eq_true he)
    rw [next_selectCategory none hi]
    refine ⟨?_, .opened h (r.todoCategories.get?_eq_some.2 (List.mem_of_getElem? hi))⟩
    simp only [App.handle, Live.app, didSelectCategory_spec hi]
    rfl
  | swipeCategory i =>
    obtain ⟨row, hi⟩ := exists_row (of_decide_eq_true he)
    rw [next_swipeCategory none hi]
    refine ⟨?_, .closed (h.deleteCategory row.1)⟩
    simp only [App.handle, Live.app, Live.categoryList, swipe_category hi]
    rfl
  | relaunch =>
    refine ⟨?_, .closed h⟩
    simp only [App.handle, App.launch, CategoryViewController.viewDidLoad,
      CategoryViewController.readData, Live.app, reload_categories]
    rfl
  | addItem _ _ | selectItem _ | swipeItem _ | textDidChange _ | searchButtonClicked | back =>
    cases he

theorem categoryList_append (c : ℕ) (item : TodoItem) :
    Live.categoryList (r.append c item) = Live.categoryList r := by
  refine congrArg (CategoryViewController.mk (some {})) (Table.map_mapRows _ fun k cat => ?_)
  split_ifs <;> rfl

theorem categoryList_deleteItem (k : ℕ) :
    Live.categoryList (r.deleteItem k) = Live.categoryList r :=
  congrArg (CategoryViewController.mk (some {})) (Table.map_mapRows _ fun _ _ => rfl)

/-- What is done on the item list. -/
theorem handle_opened (ha : Live.Sound ⟨r, some o⟩) {e : Event}
    (he : App.enabled (Live.app C ⟨r, some o⟩) e = true) :
    App.handle C (Live.app C ⟨r, some o⟩) e = some ((Live.next C ⟨r, some o⟩ e).app C)
      ∧ (Live.next C ⟨r, some o⟩ e).Sound := by
  obtain ⟨cat, hc⟩ := ha.stored o rfl
  cases e with
  | addItem name now =>
    have hc' : (r.append o.1.category
        { name, done := false, time := now }).todoCategories.get? o.1.category = _ :=
      Realm.get?_append
    rw [if_pos rfl, hc] at hc'
    refine ⟨?_, .opened (ha.separate.append _ _) hc'⟩
    simp only [App.handle, Live.app, Option.map_some, Option.bind_eq_bind, Option.bind_some,
      addItem_spec hc, Live.next, Option.elim_some, categoryList_append]
    rfl
  | selectItem i =>
    obtain ⟨row, hi⟩ := exists_row (of_decide_eq_true he)
    rw [next_selectItem hi]
    refine ⟨?_, ha.separate.setDone _ _, ha.stored⟩
    simp only [App.handle, Live.app, Option.map_some, Option.bind_eq_bind, Option.bind_some,
      didSelectItem_spec hi]
    rfl
  | swipeItem i =>
    obtain ⟨row, hi⟩ := exists_row (of_decide_eq_true he)
    rw [next_swipeItem hi]
    have hc' : (r.deleteItem row.1).todoCategories.get? o.1.category = _ :=
      Realm.get?_deleteItem
    rw [hc] at hc'
    refine ⟨?_, .opened (ha.separate.deleteItem _) hc'⟩
    simp only [App.handle, Live.app, Live.todoList, Option.map_some, Option.bind_eq_bind,
      Option.bind_some, swipe_item ha.separate hi, categoryList_deleteItem]
    rfl
  | textDidChange text =>
    have hq : (if text.isEmpty then { category := o.1.category } else o.1).category
        = o.1.category := by
      split_ifs <;> rfl
    refine ⟨?_, .opened ha.separate (hq ▸ hc)⟩
    simp only [App.handle, Live.app, Option.map_some, Option.bind_eq_bind, Option.bind_some,
      textDidChange_spec hc]
    rfl
  | searchButtonClicked =>
    refine ⟨?_, .opened ha.separate hc⟩
    simp only [App.handle, Live.app, Option.map_some, Option.bind_eq_bind, Option.bind_some,
      searchButton_spec]
    rfl
  | back => exact ⟨rfl, .closed ha.separate⟩
  | relaunch =>
    refine ⟨?_, .closed ha.separate⟩
    simp only [App.handle, App.launch, CategoryViewController.viewDidLoad,
      CategoryViewController.readData, Live.app, reload_categories]
    rfl
  | addCategory _ | selectCategory _ | swipeCategory _ => cases he

theorem drawn (C : Collation) :
    (machine C).DrawnFrom { realm := Realm.empty } (Live.next C) (Live.app C) Live.Sound where
  start := by
    simp only [machine, App.launch, CategoryViewController.viewDidLoad,
      CategoryViewController.readData, reload_categories]
    rfl
  sound := .closed Realm.separate_empty
  handle := by
    intro a e ha he
    obtain ⟨r, _ | o⟩ := a
    · exact handle_closed ha.separate he
    · exact handle_opened ha he

end Handlers

/-! ## Rows and what is done to them -/

/-- The cell shows the category's name. -/
structure ShowsCategory (row : ℕ × TodoCategory) (cell : Cell) : Prop where
  textLabel : cell.textLabel = row.2.name
  object : cell.object = some row.1

/-- The cell shows the item's name and time, and a checkmark just if it is done. -/
structure ShowsItem (row : ℕ × TodoItem) (cell : Cell) : Prop where
  textLabel : cell.textLabel = row.2.name ++ " | " ++ row.2.time.description ++ " "
  checkmark : cell.accessoryType = .checkmark ↔ row.2.done = true
  object : cell.object = some row.1

/-- Both tables show the rows of their live query, each in a cell, in order. -/
structure RowsMatch (C : Collation) (s : App) : Prop where
  categories : ∃ q, s.categoryList.categories = some q
    ∧ List.Forall₂ ShowsCategory (q.rows s.realm) s.categoryList.tableView
  items : ∀ v, s.todoList = some v → ∃ q, v.itemArray = some q
    ∧ v.selectedCategory = some q.category
    ∧ List.Forall₂ ShowsItem (q.rows C s.realm) v.tableView

/-- The item is toggled, and nothing else changes. -/
structure Toggled (k : ℕ) (r r' : Realm) : Prop where
  toggled : ∃ i, r.todoItems.get? k = some i ∧ r'.todoItems.get? k = some { i with done := !i.done }
  items : ∀ j ≠ k, r'.todoItems.get? j = r.todoItems.get? j
  categories : ∀ c, r'.todoCategories.get? c = r.todoCategories.get? c

/-- The item is removed, from the store and from the list of its category; nothing else
changes. -/
structure ItemDeleted (k : ℕ) (r r' : Realm) : Prop where
  deleted : (∃ i, r.todoItems.get? k = some i) ∧ r'.todoItems.get? k = none
  items : ∀ j ≠ k, r'.todoItems.get? j = r.todoItems.get? j
  category : ∃ c cat, k ∈ cat.items ∧ r.todoCategories.get? c = some cat
    ∧ r'.todoCategories.get? c = some { cat with items := cat.items.erase k }
    ∧ ∀ d ≠ c, r'.todoCategories.get? d = r.todoCategories.get? d

/-- The category is removed, and nothing else changes. -/
structure CategoryDeleted (k : ℕ) (r r' : Realm) : Prop where
  deleted : (∃ cat, r.todoCategories.get? k = some cat) ∧ r'.todoCategories.get? k = none
  categories : ∀ d ≠ k, r'.todoCategories.get? d = r.todoCategories.get? d
  items : ∀ j, r'.todoItems.get? j = r.todoItems.get? j

/-- A row on the screen on top can be tapped and swiped away, and that is done to the object at its
index in the live query, which its cell shows. -/
structure TapsMatch (C : Collation) (s : App) : Prop where
  selectCategory : s.todoList = none → ∀ q, s.categoryList.categories = some q →
    ∀ i cell, s.categoryList.tableView[i]? = some cell → ∃ row s' v,
      (q.rows s.realm)[i]? = some row ∧ ShowsCategory row cell
      ∧ (machine C).step s (.selectCategory i) = some s' ∧ s'.realm = s.realm
      ∧ s'.todoList = some v ∧ v.selectedCategory = some row.1
  swipeCategory : s.todoList = none → ∀ q, s.categoryList.categories = some q →
    ∀ i cell, s.categoryList.tableView[i]? = some cell → ∃ row s',
      (q.rows s.realm)[i]? = some row ∧ ShowsCategory row cell
      ∧ (machine C).step s (.swipeCategory i) = some s' ∧ CategoryDeleted row.1 s.realm s'.realm
  selectItem : ∀ v q, s.todoList = some v → v.itemArray = some q →
    ∀ i cell, v.tableView[i]? = some cell → ∃ row s',
      (q.rows C s.realm)[i]? = some row ∧ ShowsItem row cell
      ∧ (machine C).step s (.selectItem i) = some s' ∧ Toggled row.1 s.realm s'.realm
  swipeItem : ∀ v q, s.todoList = some v → v.itemArray = some q →
    ∀ i cell, v.tableView[i]? = some cell → ∃ row s',
      (q.rows C s.realm)[i]? = some row ∧ ShowsItem row cell
      ∧ (machine C).step s (.swipeItem i) = some s' ∧ ItemDeleted row.1 s.realm s'.realm

theorem toggled_setDone {r : Realm} {k : ℕ} {i : TodoItem} (hi : r.todoItems.get? k = some i) :
    Toggled k r (r.setDone k !i.done) where
  toggled := by
    refine ⟨i, hi, ?_⟩
    show (r.todoItems.modify _ _).get? k = _
    rw [Table.get?_modify, if_pos rfl, hi]
    rfl
  items j hj := by
    show (r.todoItems.modify _ _).get? j = _
    rw [Table.get?_modify, if_neg hj]
  categories _ := rfl

theorem itemDeleted_deleteItem {r : Realm} (h : r.Separate) {c k : ℕ} {cat : TodoCategory}
    (hc : r.todoCategories.get? c = some cat) (hk : k ∈ cat.items) :
    ItemDeleted k r (r.deleteItem k) where
  deleted := by
    refine ⟨Realm.isSome_of_mem_items hc hk, ?_⟩
    show (r.todoItems.erase k).get? k = none
    rw [Table.get?_erase, if_pos rfl]
  items j hj := by
    show (r.todoItems.erase k).get? j = _
    rw [Table.get?_erase, if_neg hj]
  category := by
    refine ⟨c, cat, hk, hc, ?_, fun d hd => ?_⟩
    · exact Realm.get?_deleteItem_of_nodup hc (h.nodup c cat hc)
    · rcases hd' : r.todoCategories.get? d with _ | dat
      · rw [Realm.get?_deleteItem, hd', Option.map_none]
      · -- the item is in no other list
        have hn : k ∉ dat.items := fun hk' => hd (h.disjoint d dat c cat k hd' hc hk' hk)
        rw [Realm.get?_deleteItem_of_nodup hd' (h.nodup d dat hd'), List.erase_of_not_mem hn]

theorem categoryDeleted_deleteCategory {r : Realm} {k : ℕ} {cat : TodoCategory}
    (hc : r.todoCategories.get? k = some cat) : CategoryDeleted k r (r.deleteCategory k) where
  deleted := by
    refine ⟨⟨cat, hc⟩, ?_⟩
    rw [Realm.get?_deleteCategory, if_pos rfl]
  categories d hd := by
    rw [Realm.get?_deleteCategory, if_neg hd]
  items _ := rfl

theorem showsCategory_drawn (row : ℕ × TodoCategory) :
    ShowsCategory row (CategoryViewController.drawn row) := ⟨rfl, rfl⟩

theorem showsItem_drawn (row : ℕ × TodoItem) :
    ShowsItem row (TodoListViewController.drawn row) where
  textLabel := rfl
  checkmark := by
    unfold TodoListViewController.drawn
    dsimp only
    split_ifs with h
    · exact iff_of_true rfl h
    · exact iff_of_false nofun h
  object := rfl

theorem forall₂_drawn {β γ : Type*} {shows : β → γ → Prop} {f : β → γ} (h : ∀ x, shows x (f x))
    (l : List β) : List.Forall₂ shows l (l.map f) :=
  List.forall₂_map_right_iff.2 (List.forall₂_same.2 fun x _ => h x)

theorem exists_drawn_row {β γ : Type*} {l : List β} {f : β → γ} {i : ℕ} {cell : γ}
    (h : (l.map f)[i]? = some cell) :
    i < (l.map f).length ∧ ∃ row, l[i]? = some row ∧ f row = cell := by
  refine ⟨(List.getElem?_eq_some_iff.1 h).1, ?_⟩
  rw [List.getElem?_map] at h
  exact Option.map_eq_some_iff.1 h

theorem app_rowsMatch {a : Live} : RowsMatch C (a.app C) where
  categories := ⟨{}, rfl, forall₂_drawn showsCategory_drawn _⟩
  items := by
    intro v hv
    obtain ⟨o, -, rfl⟩ := Option.map_eq_some_iff.1 hv
    exact ⟨o.1, rfl, rfl, forall₂_drawn showsItem_drawn _⟩

theorem app_tapsMatch {a : Live} (ha : a.Sound) : TapsMatch C (a.app C) := by
  obtain ⟨r, o⟩ := a
  refine ⟨?_, ?_, ?_, ?_⟩
  · intro hn q hq i cell hcell
    obtain rfl : o = none := Option.map_eq_none_iff.1 hn
    obtain ⟨hlt, row, hi, rfl⟩ := exists_drawn_row hcell
    have hst := (drawn C).step (i := .selectCategory i) ha (decide_eq_true hlt)
    rw [next_selectCategory none hi] at hst
    exact ⟨row, _, _, hi, showsCategory_drawn row, hst, rfl, rfl, rfl⟩
  · intro hn q hq i cell hcell
    obtain rfl : o = none := Option.map_eq_none_iff.1 hn
    obtain ⟨hlt, row, hi, rfl⟩ := exists_drawn_row hcell
    have hst := (drawn C).step (i := .swipeCategory i) ha (decide_eq_true hlt)
    rw [next_swipeCategory none hi] at hst
    have hc := r.todoCategories.get?_eq_some.2 (List.mem_of_getElem? hi)
    exact ⟨row, _, hi, showsCategory_drawn row, hst, categoryDeleted_deleteCategory hc⟩
  · intro v q hv hq i cell hcell
    obtain ⟨o, rfl, rfl⟩ := Option.map_eq_some_iff.1 hv
    obtain rfl := Option.some_inj.1 hq
    obtain ⟨hlt, row, hi, rfl⟩ := exists_drawn_row hcell
    have hst := (drawn C).step (i := .selectItem i) ha (decide_eq_true hlt)
    rw [next_selectItem hi] at hst
    obtain ⟨cat, -, -, hk⟩ := Realm.mem_itemsOf.1 (mem_rows.1 (List.mem_of_getElem? hi)).1
    exact ⟨row, _, hi, showsItem_drawn row, hst, toggled_setDone hk⟩
  · intro v q hv hq i cell hcell
    obtain ⟨o, rfl, rfl⟩ := Option.map_eq_some_iff.1 hv
    obtain rfl := Option.some_inj.1 hq
    obtain ⟨hlt, row, hi, rfl⟩ := exists_drawn_row hcell
    have hst := (drawn C).step (i := .swipeItem i) ha (decide_eq_true hlt)
    rw [next_swipeItem hi] at hst
    obtain ⟨cat, hc, hk, -⟩ := Realm.mem_itemsOf.1 (mem_rows.1 (List.mem_of_getElem? hi)).1
    exact ⟨row, _, hi, showsItem_drawn row, hst, itemDeleted_deleteItem ha.separate hc hk⟩

/-- On both lists the rows on screen are those of the live query, and what is done to a row is
done to what it shows. -/
theorem rows_match {s : App} (hr : (machine C).Reachable s) : RowsMatch C s ∧ TapsMatch C s := by
  obtain ⟨a, ha, rfl⟩ := (drawn C).reachable hr
  exact ⟨app_rowsMatch, app_tapsMatch ha⟩

/-- Of two items with one name, both found by a search, the first is swiped away. -/
theorem rows_match_equal_names :
    ∃ s, (machine .ascii).run [.addCategory "home", .selectCategory 0, .addItem "Tea" ⟨0⟩,
        .addItem "Tea" ⟨60⟩, .textDidChange "t", .searchButtonClicked, .swipeItem 0] = some s
      ∧ RowsMatch .ascii s ∧ TapsMatch .ascii s := by
  refine ⟨_, rfl, ?_⟩
  exact rows_match ⟨[.addCategory "home", .selectCategory 0, .addItem "Tea" ⟨0⟩,
    .addItem "Tea" ⟨60⟩, .textDidChange "t", .searchButtonClicked, .swipeItem 0], rfl⟩

end Todoey

end IosLearning
