import IosLearning.CollectionChange
import IosLearning.ObjectChangeSet

/-!
# The store followed through the transaction log

What the log says was done to the store's objects and lists is told to the change sets of the
tables that are tracked and of the lists that notifiers follow. The notifiers are brought to one
version from different ones: each list gets its change set when the log is read up to its version,
and the later ones of a list are merged into the earlier at the end.
-/

namespace IosLearning

/-- A table, an object of it and a column with a list. -/
structure ListId where
  tableKey : ℤ
  rowKey : ℤ
  colKey : ℤ
  deriving DecidableEq

/-- A list that a notifier follows, with the change set it is told in. -/
structure ListChangeInfo where
  id : ListId
  changes : ℕ
  deriving DecidableEq

/-- `tables` has the change sets of the tables that are tracked. -/
structure TransactionChangeInfo where
  lists : List ListChangeInfo := []
  builders : ℕ → CollectionChangeBuilder := fun _ => {}
  tables : ℤ → Option ObjectChangeSet := fun _ => none
  trackAll : Bool := false
  schemaChanged : Bool := false

/-- Reads the log up to one version. -/
structure TransactLogObserver where
  info : TransactionChangeInfo
  currentTable : ℤ := 0
  activeList : Option ℕ := none
  activeTable : Option ℤ := none

/-- What the log says, with the values it sets and the rows it sets and inserts. -/
inductive Instruction (α : Type*)
  | selectTable (key : ℤ)
  | createObject (key : ℤ) (values : ℤ → α)
  | modifyObject (col key : ℤ) (value : α)
  | removeObject (key : ℤ)
  | clearTable (oldSize : ℕ)
  | insertColumn (key : ℤ)
  | insertGroupLevelTable (key : ℤ)
  | selectList (col obj : ℤ)
  | listSet (index : ℕ) (row : α)
  | listInsert (index : ℕ) (row : α)
  | listErase (index : ℕ)
  | listSwap (index1 index2 : ℕ)
  | listClear (oldSize : ℕ)
  | listMove (fromIndex toIndex : ℕ)

namespace Instruction

variable {α : Type*}

/-- What an instruction of a list does to it, where it may be given. -/
def apply : Instruction α → List α → Option (List α)
  | listSet index row, rows => if index < rows.length then some (rows.set index row) else none
  | listInsert index row, rows =>
    if index ≤ rows.length then some (rows.take index ++ [row] ++ rows.drop index) else none
  | listErase index, rows => if index < rows.length then some (rows.eraseIdx index) else none
  | listSwap index1 index2, rows =>
    if index1 = index2 then none
    else match rows[index1]?, rows[index2]? with
      | some row1, some row2 => some ((rows.set index1 row2).set index2 row1)
      | _, _ => none
  | listClear oldSize, rows => if oldSize = rows.length then some [] else none
  | listMove fromIndex toIndex, rows =>
    if fromIndex = toIndex ∨ rows.length ≤ toIndex then none
    else rows[fromIndex]?.map fun row => (rows.eraseIdx fromIndex).insertIdx toIndex row
  | _, rows => some rows

/-- How a change set is told of an instruction. -/
def observe : Instruction α → CollectionChangeBuilder → Option CollectionChangeBuilder
  | listSet index _, b => some (b.modify index none)
  | listInsert index _, b => b.insert index 1 true
  | listErase index, b => some (b.erase index)
  | listSwap index1 index2, b =>
    let (index1, index2) := if index1 > index2 then (index2, index1) else (index1, index2)
    (b.move index1 index2).bind fun b =>
      if index1 + 1 ≠ index2 then b.move (index2 - 1) index1 else some b
  | listClear oldSize, b => some (b.clear oldSize)
  | listMove fromIndex toIndex, b => b.move fromIndex toIndex
  | _, b => some b

end Instruction

namespace TransactLogObserver

variable {α : Type*}

/-- Of several lists of that id the last. -/
def findList (id : ListId) (lists : List ListChangeInfo) : Option ℕ :=
  (lists.reverse.find? fun info => info.id = id).map ListChangeInfo.changes

/-- The lists an object owns are taken out, each with the last put in its place, which is not
looked at again. -/
def removeLists (owned : ListChangeInfo → Bool) (kept : List ListChangeInfo) :
    List ListChangeInfo → List ListChangeInfo
  | [] => kept.reverse
  | info :: lists =>
    if owned info then
      match lists.getLast? with
      | none => kept.reverse
      | some last => removeLists owned (last :: kept) lists.dropLast
    else removeLists owned (info :: kept) lists
termination_by lists => lists.length

/-- The change set of the table selected is told, if it is tracked. -/
def tellTable (f : ObjectChangeSet → ObjectChangeSet) (o : TransactLogObserver) :
    TransactLogObserver :=
  match o.activeTable with
  | none => o
  | some t =>
    { o with info := { o.info with
        tables := Function.update o.info.tables t ((o.info.tables t).map f) } }

/-- The change set of the list selected is told, if there is one. -/
def tell (o : TransactLogObserver) (i : Instruction α) : Option TransactLogObserver :=
  match o.activeList with
  | none => some o
  | some n => (i.observe (o.info.builders n)).map fun b =>
    { o with info := { o.info with builders := Function.update o.info.builders n b } }

def step (o : TransactLogObserver) (i : Instruction α) : Option TransactLogObserver :=
  match i with
  | .selectTable key =>
    if o.info.trackAll then
      some { o with
        currentTable := key
        activeTable := some key
        info := { o.info with
          tables := Function.update o.info.tables key (some ((o.info.tables key).getD {})) } }
    else
      some { o with
        currentTable := key
        activeTable := if (o.info.tables key).isSome then some key else none }
  | .createObject key _ => some (o.tellTable (ObjectChangeSet.insertionsAdd key))
  | .modifyObject col key _ => some (o.tellTable (ObjectChangeSet.modificationsAdd key col))
  | .removeObject key =>
    -- of a table that is not tracked the object's lists are left
    if o.activeTable = none then some o
    else
      let o := o.tellTable fun changes =>
        let removed := changes.insertionsRemove key
        let changes := if removed.1 then removed.2 else removed.2.deletionsAdd key
        changes.modificationsRemove key
      let owned := fun (info : ListChangeInfo) =>
        decide (info.id.tableKey = o.currentTable ∧ info.id.rowKey = key)
      some { o with info := { o.info with lists := removeLists owned [] o.info.lists } }
  | .clearTable _ =>
    let o := o.tellTable fun _ => ObjectChangeSet.clear
    let kept := o.info.lists.filter fun info => info.id.tableKey ≠ o.currentTable
    some { o with info := { o.info with lists := kept } }
  | .insertColumn _ => some { o with info := { o.info with schemaChanged := true } }
  | .insertGroupLevelTable _ => some { o with info := { o.info with schemaChanged := true } }
  | .selectList col obj =>
    let o := o.tellTable (ObjectChangeSet.modificationsAdd obj col)
    some { o with activeList := findList ⟨o.currentTable, obj, col⟩ o.info.lists }
  | i => o.tell i

/-- Tables with no changes are not tracked any more. -/
def parseComplete (info : TransactionChangeInfo) : TransactionChangeInfo :=
  { info with
    builders := fun n =>
      if n ∈ info.lists.map ListChangeInfo.changes then (info.builders n).cleanUpStaleMoves
      else info.builders n
    tables := fun t => (info.tables t).filter fun changes => !changes.isEmpty }

end TransactLogObserver

namespace TransactionChangeInfo

variable {α : Type*}

/-- A notifier's list is put with those followed, its change set empty so far. -/
def addRequired (list : ListChangeInfo) (info : TransactionChangeInfo) : TransactionChangeInfo :=
  { info with lists := info.lists ++ [list] }

/-- The log up to the next version is read. -/
def advance (log : List (Instruction α)) (info : TransactionChangeInfo) :
    Option TransactionChangeInfo :=
  (log.foldlM TransactLogObserver.step { info := info }).map fun o =>
    TransactLogObserver.parseComplete o.info

/-- The change set of a list is merged into one of the same list before it. -/
def mergeInto (e : ListChangeInfo) (builders : ℕ → CollectionChangeBuilder)
    (f : ListChangeInfo) : Option (ℕ → CollectionChangeBuilder) :=
  if e.id = f.id then
    ((builders f.changes).merge (builders e.changes)).map (Function.update builders f.changes)
  else some builders

/-- Each list's change set is merged into those of the same list before it, the nearest first. -/
def mergeLists : List ListChangeInfo → List ListChangeInfo → (ℕ → CollectionChangeBuilder) →
    Option (ℕ → CollectionChangeBuilder)
  | _, [], builders => some builders
  | before, e :: lists, builders =>
    (before.foldlM (mergeInto e) builders).bind (mergeLists (e :: before) lists)

def advanceToFinal (log : List (Instruction α)) (info : TransactionChangeInfo) :
    Option TransactionChangeInfo :=
  (info.advance log).bind fun info =>
    (mergeLists [] info.lists info.builders).map fun builders => { info with builders := builders }

/-- A notifier comes to follow a list as it is then, or the log is read on. -/
inductive Event (α : Type*)
  | follow (list : ListChangeInfo)
  | advance (log : List (Instruction α))

/-- The next version gets an info of its own, with the same lists, and tracks the tables that were
changed so far. -/
def advanceIncremental (log : List (Instruction α)) (info : TransactionChangeInfo) :
    Option TransactionChangeInfo :=
  (info.advance log).map fun info =>
    { lists := info.lists
      builders := info.builders
      tables := fun t => (info.tables t).map fun _ => {} }

def handle (info : TransactionChangeInfo) : Event α → Option TransactionChangeInfo
  | .follow list => some (info.addRequired list)
  | .advance log => info.advanceIncremental log

end TransactionChangeInfo

/-! ## What happens in the store -/

/-- The objects of the tables with their values, the rows of the lists, and which of the lists are
gone with their objects: they are not used again, though an object may come under the key. -/
structure Store (α : Type*) where
  objects : ℤ → ℤ → Option (ℤ → α)
  rows : ListId → List α
  removed : ListId → Bool := fun _ => false
  currentTable : Option ℤ := none
  selected : Option ListId := none

namespace Store

variable {α : Type*}

/-- The list selected is changed, unless it is gone. -/
def change (s : Store α) (i : Instruction α) : Option (Store α) :=
  match s.selected with
  | none => none
  | some id =>
    if s.removed id then none
    else (i.apply (s.rows id)).map fun rows => { s with rows := Function.update s.rows id rows }

/-- A table's objects are changed. -/
def setObjects (s : Store α) (t : ℤ) (f : (ℤ → Option (ℤ → α)) → ℤ → Option (ℤ → α)) : Store α :=
  { s with objects := Function.update s.objects t (f (s.objects t)) }

def removeObject (s : Store α) (t key : ℤ) : Store α :=
  { s.setObjects t fun objects => Function.update objects key none with
    removed := fun id => s.removed id || decide (id.tableKey = t ∧ id.rowKey = key) }

def clearTable (s : Store α) (t : ℤ) : Store α :=
  { s.setObjects t fun _ _ => none with
    removed := fun id => s.removed id || decide (id.tableKey = t) }

/-- What is done with a table selected: to it, or to the list selected. -/
def stepTable (s : Store α) (t : ℤ) : Instruction α → Option (Store α)
  | .createObject key values =>
    if (s.objects t key).isSome then none
    else some (s.setObjects t fun objects => Function.update objects key (some values))
  | .modifyObject col key value =>
    (s.objects t key).map fun values => s.setObjects t fun objects =>
      Function.update objects key (some (Function.update values col value))
  | .removeObject key =>
    if (s.objects t key).isSome then some (s.removeObject t key) else none
  | .clearTable _ => some (s.clearTable t)
  | .selectList col obj =>
    (s.objects t obj).map fun _ => { s with selected := some ⟨t, obj, col⟩ }
  | i => s.change i

/-- An instruction is none where it may not be given, as any is before a table is selected. -/
def step (s : Store α) : Instruction α → Option (Store α)
  | .selectTable key => some { s with currentTable := some key }
  | .insertColumn _ | .insertGroupLevelTable _ => some s
  | i => s.currentTable.bind fun t => s.stepTable t i

/-- A log is read from its start. -/
def run (s : Store α) (log : List (Instruction α)) : Option (Store α) :=
  log.foldlM step { s with currentTable := none, selected := none }

/-- The store as events go by, with each list as it was when a notifier came to follow it. -/
def handle (s : Store α × (ℕ → List α)) :
    TransactionChangeInfo.Event α → Option (Store α × (ℕ → List α))
  | .follow list =>
    if s.1.removed list.id then none
    else some (s.1, Function.update s.2 list.changes (s.1.rows list.id))
  | .advance log => (s.1.run log).map fun s' => (s', s.2)

end Store

end IosLearning
