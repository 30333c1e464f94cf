import IosLearning.TransactLog

/-!
# Objects changed through their links

Whether an object was modified, or one that its links lead to. Rows found not to be are kept, and a
row that is being checked is not checked again; a row is not kept if a check below it was cut off
for either reason.
-/

namespace IosLearning

inductive ColumnType
  | link
  | linkList
  | other
  deriving DecidableEq

structure Column where
  key : ℤ
  type : ColumnType
  deriving DecidableEq

/-- The tables with their columns, and the links of the objects. A column's key tells its table. -/
structure Group where
  tables : List ℤ
  columns : ℤ → List Column
  /-- By table and column. -/
  linkTarget : ℤ → ℤ → ℤ
  /-- By table, object and column. -/
  link : ℤ → ℤ → ℤ → Option ℤ
  linkList : ℤ → ℤ → ℤ → List ℤ
  target_mem : ∀ t ∈ tables, ∀ c ∈ columns t, c.type ≠ .other → linkTarget t c.key ∈ tables
  apart : ∀ t u c d, c ∈ columns t → d ∈ columns u → c.key = d.key → t = u

structure OutgoingLink where
  colKey : ℤ
  isList : Bool
  deriving DecidableEq

structure RelatedTable where
  tableKey : ℤ
  links : List OutgoingLink
  deriving DecidableEq

/-- A row being checked, with the column followed from it. -/
structure Path where
  objKey : ℤ
  colKey : ℤ
  depthExceeded : Bool
  deriving DecidableEq

/-- `currentPath` has the entries in use, as many as the check is deep. -/
structure DeepChangeChecker where
  notModified : List (ℤ × ℤ) := []
  currentPath : List Path := []

namespace DeepChangeChecker

/-! ## Tables -/

/-- Of the table at that place one link more is known. -/
def addLink (outIndex : ℕ) (link : OutgoingLink) (out : List RelatedTable) : List RelatedTable :=
  out.modify outIndex fun table => { table with links := table.links ++ [link] }

/-- The table and all it links to, each followed when it is first come to: no more often in a row
than there are tables. -/
def findRelatedTables (g : Group) : ℕ → List RelatedTable → ℤ → List RelatedTable
  | 0, out, _ => out
  | fuel + 1, out, tableKey =>
    if out.any fun table => table.tableKey = tableKey then out
    else
      (g.columns tableKey).foldl (fun related col =>
        if col.type = .link ∨ col.type = .linkList then
          let link := ⟨col.key, decide (col.type = .linkList)⟩
          findRelatedTables g fuel (addLink out.length link related) (g.linkTarget tableKey col.key)
        else related) (out ++ [⟨tableKey, []⟩])

def setTable (g : Group) (tableKey : ℤ) : List RelatedTable :=
  findRelatedTables g (g.tables.length + 1) [] tableKey

/-! ## Rows -/

/-- How many entries there are for a path. -/
def pathSize : ℕ := 4

section Check

variable (g : Group) (related : List RelatedTable) (info : TransactionChangeInfo)

def modificationsContains (tableKey objKey : ℤ) : Bool :=
  match info.tables tableKey with
  | none => false
  | some changes => changes.modificationsContains objKey

def exceed (path : Path) : Path := { path with depthExceeded := true }

/-- From where the link is being followed already, no row of the path can be told. -/
def alreadyChecking (objKey colKey : ℤ) : List Path → Option (List Path)
  | [] => none
  | p :: path =>
    if p.objKey = objKey ∧ p.colKey = colKey then some ((p :: path).map exceed)
    else (alreadyChecking objKey colKey path).map (p :: ·)

/-- Whether one of them is so, none being asked after the first that is. -/
def anyOf {β : Type} (f : β → DeepChangeChecker → Bool × DeepChangeChecker) :
    List β → DeepChangeChecker → Bool × DeepChangeChecker
  | [], s => (false, s)
  | x :: xs, s =>
    let r := f x s
    if r.1 then r else anyOf f xs r.2

def destinations (tableKey objKey : ℤ) (link : OutgoingLink) : List ℤ :=
  if link.isList then g.linkList tableKey objKey link.colKey
  else (g.link tableKey objKey link.colKey).toList

def linkedObjectChanged (checkRow : ℤ → ℤ → DeepChangeChecker → Bool × DeepChangeChecker)
    (tableKey objKey : ℤ) (link : OutgoingLink) (s : DeepChangeChecker) : Bool × DeepChangeChecker :=
  match alreadyChecking objKey link.colKey s.currentPath with
  | some path => (false, { s with currentPath := path })
  | none =>
    let entry : Path := ⟨objKey, link.colKey, false⟩
    let r := anyOf (checkRow (g.linkTarget tableKey link.colKey))
      (destinations g tableKey objKey link) { s with currentPath := s.currentPath ++ [entry] }
    (r.1, { r.2 with currentPath := r.2.currentPath.dropLast })

def checkOutgoingLinks (checkRow : ℤ → ℤ → DeepChangeChecker → Bool × DeepChangeChecker)
    (tableKey objKey : ℤ) (s : DeepChangeChecker) : Bool × DeepChangeChecker :=
  match related.find? fun table => table.tableKey = tableKey with
  | none => (false, s)
  | some table =>
    if table.links = [] then (false, s)
    else anyOf (linkedObjectChanged g checkRow tableKey objKey) table.links s

/-- With so many entries of the path left. -/
def checkRow : ℕ → ℤ → ℤ → DeepChangeChecker → Bool × DeepChangeChecker
  | 0, _, _, s => (false, { s with currentPath := s.currentPath.map exceed })
  | left + 1, tableKey, key, s =>
    if s.currentPath ≠ [] ∧ modificationsContains info tableKey key = true then (true, s)
    else if (tableKey, key) ∈ s.notModified then (false, s)
    else
      let r := checkOutgoingLinks g related (checkRow left) tableKey key s
      if !r.1 && r.2.currentPath.getLast?.all fun parent => !parent.depthExceeded then
        (false, { r.2 with notModified := (tableKey, key) :: r.2.notModified })
      else r

def check (rootTable key : ℤ) (s : DeepChangeChecker) : Bool × DeepChangeChecker :=
  if modificationsContains info rootTable key then (true, s)
  else checkRow g related info pathSize rootTable key s

end Check

end DeepChangeChecker

/-! ## A notifier's checker -/

namespace CollectionNotifier

open DeepChangeChecker

/-- How the objects of a table are told apart: one table alone is not searched through. -/
inductive ModificationChecker
  | never
  | ofTable (tableKey : ℤ)
  | deep (related : List RelatedTable) (rootTable : ℤ)

def tableModified (info : TransactionChangeInfo) (table : RelatedTable) : Bool :=
  match info.tables table.tableKey with
  | none => false
  | some changes => !changes.modificationsEmpty

/-- The related tables are found anew when the schema has changed. -/
def getModificationChecker (g : Group) (info : TransactionChangeInfo) (related : List RelatedTable)
    (rootTable : ℤ) : ModificationChecker :=
  let related := if info.schemaChanged then setTable g rootTable else related
  if !related.any (tableModified info) then .never
  else
    match related with
    | [table] => .ofTable table.tableKey
    | _ => .deep related rootTable

/-- The checker asked of one object after the other. -/
def askAll (g : Group) (info : TransactionChangeInfo) :
    ModificationChecker → List ℤ → DeepChangeChecker → List Bool
  | _, [], _ => []
  | .never, _ :: keys, s => false :: askAll g info .never keys s
  | .ofTable t, key :: keys, s =>
    modificationsContains info t key :: askAll g info (.ofTable t) keys s
  | .deep related rootTable, key :: keys, s =>
    let r := check g related info rootTable key s
    r.1 :: askAll g info (.deep related rootTable) keys r.2

end CollectionNotifier

/-! ## What is to be told -/

/-- Whether fewer than so many links away an object was modified. -/
def changedWithin (g : Group) (info : TransactionChangeInfo) : ℕ → ℤ → ℤ → Bool
  | 0, _, _ => false
  | n + 1, tableKey, key =>
    DeepChangeChecker.modificationsContains info tableKey key ||
      (g.columns tableKey).any fun col => col.type ≠ .other &&
        (DeepChangeChecker.destinations g tableKey key
          ⟨col.key, decide (col.type = .linkList)⟩).any
            (changedWithin g info n (g.linkTarget tableKey col.key))

end IosLearning
