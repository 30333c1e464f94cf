import IosLearning.Base.Decimal
import IosLearning.Base.Machine
import IosLearning.Base.Table
import IosLearning.Base.TableView
import Mathlib.Data.List.Lex
import Mathlib.Data.List.Sort

/-!
# Todoey

Categories and their items in a Realm, a screen that lists the categories and, pushed over it,
a screen that lists one category's items. Both lists are drawn from live `Results`: a query,
evaluated anew against the store each time it is read. The tables draw their cells when they are
reloaded, and take out one row when it is swiped away.

Realm's order of strings and the system's search in them are a parameter (`Collation`). What an
index out of bounds, a forced `nil` or a table in disagreement with its data source does is
`none`: the app traps.
-/

namespace IosLearning

namespace Todoey

/-- An instant, in seconds since 1970; nothing here reads a fraction. -/
structure Date where
  seconds : ℤ
  deriving DecidableEq

namespace Date

/-- Year, month and day of a day counted from the start of 1970. -/
def civil (days : ℤ) : ℤ × ℤ × ℤ :=
  -- years are counted from a first of March, in eras of 400 years
  let z := days + 719468
  let doe := z % 146097
  let yoe := (doe - doe / 1460 + doe / 36524 - doe / 146096) / 365
  let doy := doe - (365 * yoe + yoe / 4 - yoe / 100)
  let mp := (5 * doy + 2) / 153
  let month := if mp < 10 then mp + 3 else mp - 9
  let year := yoe + z / 146097 * 400
  (if month ≤ 2 then year + 1 else year, month, doy - (153 * mp + 2) / 5 + 1)

/-- As in `"\(date)"`. -/
def description (d : Date) : String :=
  let (year, month, day) := civil (d.seconds / 86400)
  let time := d.seconds % 86400
  padded 4 year ++ "-" ++ padded 2 month ++ "-" ++ padded 2 day ++ " " ++ padded 2 (time / 3600)
    ++ ":" ++ padded 2 (time / 60 % 60) ++ ":" ++ padded 2 (time % 60) ++ " +0000"

example : (description ⟨1586164805⟩) = "2020-04-06 09:20:05 +0000" := by decide

end Date

/-- How Realm orders strings, and whether a string that is not empty is found in another one,
whatever their case and diacritics. -/
structure Collation where
  le : String → String → Bool
  find : String → String → Bool
  total : ∀ s t, le s t || le t s
  trans : ∀ s t u, le s t → le t u → le s u

namespace Collation

/-- A condition on a substring is false where the substring is empty. -/
def addSubstringConstraint (value : String) (condition : Bool) : Bool :=
  !value.isEmpty && condition

/-- `CONTAINS[cd]`. -/
def contains (C : Collation) (v1 v2 : String) : Bool := addSubstringConstraint v2 (C.find v1 v2)

def lowered (s : String) : List ℕ := s.toList.map fun c => c.toLower.toNat

/-- Names of plain letters, in alphabetical order. -/
def ascii : Collation where
  le s t := decide (lowered s ≤ lowered t)
  find s t := decide (lowered t <:+: lowered s)
  total s t := by simpa using le_total (lowered s) (lowered t)
  trans s t u hst htu := by
    simp only [decide_eq_true_eq] at *
    exact le_trans hst htu

example : ascii.contains "Green tea" "TEA" = true := by decide +kernel

example : ascii.contains "Green tea" "" = false := by decide +kernel

end Collation

structure TodoItem where
  name : String := ""
  done : Bool := false
  time : Date
  deriving DecidableEq

/-- The items are listed by their keys. -/
structure TodoCategory where
  name : String := ""
  items : List ℕ := []
  deriving DecidableEq

/-! ## The store -/

structure Realm where
  todoItems : Table TodoItem
  todoCategories : Table TodoCategory
  /-- A list holds stored objects only. -/
  links : ∀ r ∈ todoCategories.rows, ∀ k ∈ r.2.items, (todoItems.get? k).isSome

namespace Realm

def empty : Realm where
  todoItems := Table.empty
  todoCategories := Table.empty
  links := by simp

/-- Stores a category of that name, without items. -/
def add (r : Realm) (name : String) : Realm where
  todoItems := r.todoItems
  todoCategories := r.todoCategories.insert { name }
  links := by
    intro c hc
    rcases (Table.mem_insert _).1 hc with hc | rfl
    · exact r.links c hc
    · simp

/-- Stores the item and appends it to the list of the category. -/
def append (r : Realm) (category : ℕ) (item : TodoItem) : Realm where
  todoItems := r.todoItems.insert item
  todoCategories := r.todoCategories.modify category fun c =>
    { c with items := c.items ++ [r.todoItems.next] }
  links := by
    intro c hc k hk
    rw [Table.get?_insert]
    split_ifs with hn
    · rfl
    · obtain ⟨d, hd, rfl⟩ := (Table.mem_mapRows _).1 hc
      split_ifs at hk
      · rcases List.mem_append.1 hk with hk | hk
        · exact r.links d hd k hk
        · exact absurd (List.mem_singleton.1 hk) hn
      · exact r.links d hd k hk

/-- Removes the item, and drops it from the lists that hold it. -/
def deleteItem (r : Realm) (item : ℕ) : Realm where
  todoItems := r.todoItems.erase item
  todoCategories := r.todoCategories.mapRows fun _ c =>
    { c with items := c.items.filter (· ≠ item) }
  links := by
    intro c hc k hk
    obtain ⟨d, hd, rfl⟩ := (Table.mem_mapRows _).1 hc
    obtain ⟨hk, hne⟩ := List.mem_filter.1 hk
    rw [Table.get?_erase, if_neg (by simpa using hne)]
    exact r.links d hd k hk

/-- Removes the category only. -/
def deleteCategory (r : Realm) (category : ℕ) : Realm where
  todoItems := r.todoItems
  todoCategories := r.todoCategories.erase category
  links c hc := r.links c ((Table.mem_erase _).1 hc).1

def setDone (r : Realm) (item : ℕ) (done : Bool) : Realm where
  todoItems := r.todoItems.modify item fun i => { i with done }
  todoCategories := r.todoCategories
  links := by
    intro c hc k hk
    rw [Table.get?_modify]
    split_ifs
    · rw [Option.isSome_map]
      exact r.links c hc k hk
    · exact r.links c hc k hk

/-- The objects in a category's list, in the order they were appended. -/
def itemsOf (r : Realm) (category : ℕ) : List (ℕ × TodoItem) :=
  (r.todoCategories.get? category).elim [] fun c =>
    c.items.filterMap fun k => (r.todoItems.get? k).map (k, ·)

end Realm

/-- `realm.objects(TodoCategory.self)`. -/
structure CategoryResults where
  deriving DecidableEq

def CategoryResults.rows (_ : CategoryResults) (r : Realm) : List (ℕ × TodoCategory) :=
  r.todoCategories.rows

/-- A category's items whose name contains each of the texts, sorted by name. -/
structure ItemResults where
  category : ℕ
  texts : List String := []
  deriving DecidableEq

namespace ItemResults

variable (C : Collation)

def rows (q : ItemResults) (r : Realm) : List (ℕ × TodoItem) :=
  ((r.itemsOf q.category).filter fun row => q.texts.all (C.contains row.2.name)).insertionSort
    fun x y => C.le x.2.name y.2.name

/-- `filter(NSPredicate(format: "name CONTAINS[cd] %@", text))`. -/
def filter (q : ItemResults) (text : String) : ItemResults := { q with texts := q.texts ++ [text] }

end ItemResults

/-! ## The screens -/

inductive AccessoryType where
  | none
  | checkmark
  deriving DecidableEq

/-- A cell as it was drawn; `object` is the key of what it was drawn from. -/
structure Cell where
  textLabel : String
  accessoryType : AccessoryType := .none
  object : Option ℕ
  deriving DecidableEq

/-- What the delete action of a swiped row does: the handler, and then the row is taken out. -/
def swipeDelete (D : DataSource Realm Cell) (deleteAction : Realm → ℕ → Option Realm) (r : Realm)
    (cells : List Cell) (index : ℕ) : Option (Realm × List Cell) := do
  let r' ← deleteAction r index
  let cells' ← D.deleteRow r' cells index
  return (r', cells')

structure CategoryViewController where
  categories : Option CategoryResults := none
  tableView : List Cell := []
  deriving DecidableEq

namespace CategoryViewController

def drawn (row : ℕ × TodoCategory) : Cell where
  textLabel := row.2.name
  object := some row.1

def dataSource (categories : Option CategoryResults) : DataSource Realm Cell where
  numberOfRows r := categories.elim 1 fun q => (q.rows r).length
  cellForRow r index :=
    categories.elim (some { textLabel := "No category found", object := none }) fun q =>
      (q.rows r)[index]?.map drawn

def reloadData (r : Realm) (v : CategoryViewController) : Option CategoryViewController :=
  ((dataSource v.categories).reloadData r).map fun tableView => { v with tableView }

def readData (r : Realm) (v : CategoryViewController) : Option CategoryViewController :=
  { v with categories := some {} }.reloadData r

def viewDidLoad (r : Realm) : Option CategoryViewController := readData r {}

def deleteAction (categories : Option CategoryResults) (r : Realm) (index : ℕ) : Option Realm := do
  let q ← categories
  let row ← (q.rows r)[index]?
  return r.deleteCategory row.1

def addNewCategory (name : String) (r : Realm) (v : CategoryViewController) :
    Option (Realm × CategoryViewController) := do
  let r' := r.add name
  let v' ← v.reloadData r'
  return (r', v')

end CategoryViewController

structure TodoListViewController where
  uiSearchBar : String := ""
  itemArray : Option ItemResults := none
  selectedCategory : Option ℕ := none
  tableView : List Cell := []
  deriving DecidableEq

namespace TodoListViewController

variable (C : Collation)

def drawn (row : ℕ × TodoItem) : Cell where
  textLabel := row.2.name ++ " | " ++ row.2.time.description ++ " "
  accessoryType := if row.2.done then .checkmark else .none
  object := some row.1

def dataSource (itemArray : Option ItemResults) : DataSource Realm Cell where
  numberOfRows r := itemArray.elim 1 fun q => (q.rows C r).length
  cellForRow r index :=
    itemArray.elim (some { textLabel := "No Item found", object := none }) fun q =>
      (q.rows C r)[index]?.map drawn

def reloadData (r : Realm) (v : TodoListViewController) : Option TodoListViewController :=
  ((dataSource C v.itemArray).reloadData r).map fun tableView => { v with tableView }

/-- Reading the list of a category that is no longer stored traps. -/
def loadItems (r : Realm) (v : TodoListViewController) : Option TodoListViewController :=
  match v.selectedCategory with
  | none => { v with itemArray := none }.reloadData C r
  | some category => do
    let _ ← r.todoCategories.get? category
    { v with itemArray := some { category } }.reloadData C r

def searchBarSearchButtonClicked (r : Realm) (v : TodoListViewController) :
    Option TodoListViewController :=
  { v with itemArray := v.itemArray.map (ItemResults.filter · v.uiSearchBar) }.reloadData C r

/-- The keyboard, put away later, is left out. -/
def textDidChange (searchText : String) (r : Realm) (v : TodoListViewController) :
    Option TodoListViewController :=
  let v' := { v with uiSearchBar := searchText }
  if searchText.isEmpty then v'.loadItems C r else some v'

def deleteAction (itemArray : Option ItemResults) (r : Realm) (index : ℕ) : Option Realm := do
  let q ← itemArray
  let row ← (q.rows C r)[index]?
  return r.deleteItem row.1

def didSelectRowAt (index : ℕ) (r : Realm) (v : TodoListViewController) :
    Option (Realm × TodoListViewController) :=
  match v.itemArray with
  | none => some (r, v)
  | some q => do
    let item ← (q.rows C r)[index]?
    let r' := r.setDone item.1 !item.2.done
    let v' ← v.reloadData C r'
    return (r', v')

def saveData (todoItem : TodoItem) (r : Realm) (v : TodoListViewController) :
    Option (Realm × TodoListViewController) :=
  match v.selectedCategory with
  | none => do
    let v' ← v.reloadData C r
    return (r, v')
  | some category => do
    let _ ← r.todoCategories.get? category
    let r' := r.append category todoItem
    let v' ← v.reloadData C r'
    return (r', v')

/-- The alert's action: `name` is what was entered, `now` the time it is tapped at. -/
def addItem (name : String) (now : Date) (r : Realm) (v : TodoListViewController) :
    Option (Realm × TodoListViewController) :=
  v.saveData C { name, done := false, time := now } r

end TodoListViewController

/-- What a tap on a category opens: the segue's destination, set up by `prepare`. -/
def CategoryViewController.didSelectRowAt (C : Collation) (index : ℕ) (r : Realm)
    (v : CategoryViewController) : Option TodoListViewController := do
  let selectedCategory ← v.categories.elim (some none) fun q =>
    (q.rows r)[index]?.map fun row => some row.1
  TodoListViewController.loadItems C r { selectedCategory }

/-! ## The app -/

/-- The store, the category list and, when it is open, the item list over it. -/
structure App where
  realm : Realm
  categoryList : CategoryViewController
  todoList : Option TodoListViewController := none

inductive Event where
  | addCategory (name : String)
  | selectCategory (row : ℕ)
  | swipeCategory (row : ℕ)
  | addItem (name : String) (now : Date)
  | selectItem (row : ℕ)
  | swipeItem (row : ℕ)
  | textDidChange (searchText : String)
  | searchButtonClicked
  | back
  | relaunch
  deriving DecidableEq

namespace App

variable (C : Collation)

def launch (realm : Realm) : Option App := do
  let categoryList ← CategoryViewController.viewDidLoad realm
  return { realm, categoryList }

/-- Only the screen on top is touched, and only the rows it has. -/
def enabled (s : App) (e : Event) : Bool :=
  match e, s.todoList with
  | .addCategory _, none => true
  | .selectCategory row, none => row < s.categoryList.tableView.length
  | .swipeCategory row, none => row < s.categoryList.tableView.length
  | .addItem _ _, some _ => true
  | .selectItem row, some v => row < v.tableView.length
  | .swipeItem row, some v => row < v.tableView.length
  | .textDidChange _, some _ => true
  | .searchButtonClicked, some _ => true
  | .back, some _ => true
  | .relaunch, _ => true
  | _, _ => false

def handle (s : App) (e : Event) : Option App :=
  match e with
  | .addCategory name => do
    let (realm, categoryList) ← s.categoryList.addNewCategory name s.realm
    return { s with realm, categoryList }
  | .selectCategory row => do
    let todoList ← s.categoryList.didSelectRowAt C row s.realm
    return { s with todoList := some todoList }
  | .swipeCategory row => do
    let v := s.categoryList
    let (realm, tableView) ← swipeDelete (CategoryViewController.dataSource v.categories)
      (CategoryViewController.deleteAction v.categories) s.realm v.tableView row
    return { s with realm, categoryList := { v with tableView } }
  | .addItem name now => do
    let v ← s.todoList
    let (realm, v') ← v.addItem C name now s.realm
    return { s with realm, todoList := some v' }
  | .selectItem row => do
    let v ← s.todoList
    let (realm, v') ← v.didSelectRowAt C row s.realm
    return { s with realm, todoList := some v' }
  | .swipeItem row => do
    let v ← s.todoList
    let (realm, tableView) ← swipeDelete (TodoListViewController.dataSource C v.itemArray)
      (TodoListViewController.deleteAction C v.itemArray) s.realm v.tableView row
    return { s with realm, todoList := some { v with tableView } }
  | .textDidChange searchText => do
    let v ← s.todoList
    let v' ← v.textDidChange C searchText s.realm
    return { s with todoList := some v' }
  | .searchButtonClicked => do
    let v ← s.todoList
    let v' ← v.searchBarSearchButtonClicked C s.realm
    return { s with todoList := some v' }
  | .back => some { s with todoList := none }
  | .relaunch => launch s.realm

end App

/-- The app from its first launch, over an empty store. -/
def machine (C : Collation) : Machine App Event where
  start := App.launch Realm.empty
  enabled := App.enabled
  handle := App.handle C

end Todoey

end IosLearning
