import IosLearning.CollectionChange
import Mathlib.Data.List.Sort

/-!
# The changes between two lists of rows

Rows are told by their keys. Those of one list only are deleted or inserted; of the others those
that are out of order are, all but a sequence that is in order in both lists.
-/

namespace IosLearning

/-- A sort leaves what is equal in any order. -/
structure StdSort where
  sort {β : Type} (lt : β → β → Bool) (l : List β) : List β
  perm {β : Type} (lt : β → β → Bool) (l : List β) : (sort lt l).Perm l
  sorted {β : Type} (lt : β → β → Bool) (l : List β) (asymm : ∀ x y, lt x y = true → lt y x = false)
    (trans : ∀ x y z, lt y x = false → lt z y = false → lt z x = false) :
    (sort lt l).Pairwise fun x y => lt y x = false

/-- One that leaves what is equal in order. -/
def insertionSort : StdSort where
  sort lt l := l.insertionSort fun x y => lt y x = false
  perm lt l := List.perm_insertionSort _ l
  sorted lt l asymm trans :=
    haveI : Std.Total fun x y => lt y x = false := ⟨fun x y => by
      rcases h : lt y x with _ | _
      · exact .inl rfl
      · exact .inr (asymm y x h)⟩
    haveI : IsTrans _ fun x y => lt y x = false := ⟨trans⟩
    List.pairwise_insertionSort _ l

/-- Until a row is found in the old list too, there is no index of it there. -/
structure RowInfo where
  key : ℤ
  prevTvIndex : Option ℕ
  tvIndex : ℕ
  deriving DecidableEq

/-- A row of both lists. -/
structure KeptRow where
  key : ℤ
  prevTvIndex : ℕ
  tvIndex : ℕ
  deriving DecidableEq

/-! ## The longest common sequences -/

namespace LongestCommonSubsequenceCalculator

structure Row where
  key : ℤ
  tvIndex : ℕ
  deriving DecidableEq

/-- `modified` is none until it is counted. -/
structure Match where
  i : ℕ
  j : ℕ
  size : ℕ
  modified : Option ℕ := some 0
  deriving DecidableEq

section

variable (modified : IndexSet) (a b : List Row) (begin1 end1 begin2 end2 : ℕ)

/-- How long the match is that ends there, by those that ended a row before. -/
def length (prev : List (ℕ × ℕ)) (j : ℕ) : ℕ :=
  match prev.find? fun pair => pair.1 + 1 = j with
  | none => 1
  | some pair => pair.2 + 1

/-- The indices within the range, which are gone through in order. -/
def within : List ℕ → List ℕ
  | [] => []
  | j :: js => if j < begin2 then within js else if j ≥ end2 then [] else j :: within js

/-- Where the row's key is in `b`: some place, or an assertion fails. -/
def forEachBMatch (key : ℤ) : Option (List ℕ) :=
  let it := b.dropWhile fun row => row.key < key
  if it.head?.any fun row => row.key = key then
    some (within begin2 end2 ((it.takeWhile fun row => row.key = key).map Row.tvIndex))
  else none

/-- The subtraction wraps around, and then nothing is counted. -/
def countModified (j size : ℕ) : ℕ := modified.count ((j + 1 + 2 ^ 64 - size) % 2 ^ 64) (j + 1)

/-- Of matches of one length the one with fewer modified rows is taken. -/
def better (best : Match) (i j size : ℕ) : Match :=
  if size > best.size then ⟨i + 1 - size, j + 1 - size, size, none⟩
  else if size = best.size then
    let fewest := best.modified.getD (countModified modified best.j size)
    let count := countModified modified j size
    if count < fewest then ⟨i + 1 - size, j + 1 - size, size, some count⟩
    else { best with modified := some fewest }
  else best

/-- The best match should always fall within the range being searched. -/
def inRange (best : Match) : Bool :=
  decide (best.i ≥ begin1 ∧ best.i + best.size ≤ end1) &&
    decide (best.j ≥ begin2 ∧ best.j + best.size ≤ end2)

/-- The matches that end at a row, and the best so far. -/
def checkRow (i : ℕ) (prev : List (ℕ × ℕ)) :
    List ℕ → List (ℕ × ℕ) → Match → Option (List (ℕ × ℕ) × Match)
  | [], cur, best => some (cur, best)
  | j :: js, cur, best =>
    let size := length prev j
    let best := better modified best i j size
    if inRange begin1 end1 begin2 end2 best then checkRow i prev js (cur ++ [(j, size)]) best
    else none

def findLongestLoop : List Row → ℕ → List (ℕ × ℕ) → Match → Option Match
  | [], _, _, best => some best
  | row :: rows, i, prev, best =>
    (forEachBMatch b begin2 end2 row.key).bind fun js =>
      (checkRow modified begin1 end1 begin2 end2 i prev js [] best).bind fun (cur, best) =>
        findLongestLoop rows (i + 1) cur best

def findLongestMatch : Option Match :=
  findLongestLoop modified b begin1 end1 begin2 end2 ((a.take end1).drop begin1) begin1 []
    ⟨begin1, begin2, 0, some 0⟩

end

/-- What is left on both sides of the longest match is searched; each search is of fewer rows. -/
def findLongestMatches (modified : IndexSet) (a b : List Row) :
    ℕ → ℕ → ℕ → ℕ → ℕ → Option (List Match)
  | 0, _, _, _, _ => none
  | fuel + 1, begin1, end1, begin2, end2 =>
    (findLongestMatch modified a b begin1 end1 begin2 end2).bind fun m =>
      if m.size = 0 then some []
      else
        (if m.i > begin1 ∧ m.j > begin2 then
          findLongestMatches modified a b fuel begin1 m.i begin2 m.j
        else some []).bind fun before =>
          (if m.i + m.size < end2 ∧ m.j + m.size < end2 then
            findLongestMatches modified a b fuel (m.i + m.size) end1 (m.j + m.size) end2
          else some []).map fun after => before ++ m :: after

def longestMatches (modified : IndexSet) (a b : List Row) (startIndex : ℕ) : Option (List Match) :=
  (findLongestMatches modified a b (a.length + 1) startIndex a.length startIndex b.length).map
    fun longest => longest ++ [⟨a.length, b.length, 0, some 0⟩]

end LongestCommonSubsequenceCalculator

namespace CollectionChangeBuilder

open LongestCommonSubsequenceCalculator

variable (std : StdSort)

/-! ## Rows out of order -/

/-- Rows that are in no match are deleted where they were and inserted where they are. -/
def alignLoop (a : List Row) (rows : List KeptRow) :
    List Match → ℕ → ℕ → CollectionChangeBuilder → CollectionChangeBuilder
  | [], _, _, changeset => changeset
  | m :: matches_, i, j, changeset =>
    let deleted := ((a.take m.i).drop i).map Row.tvIndex
    let inserted := ((rows.take m.j).drop j).map KeptRow.tvIndex
    alignLoop a rows matches_ (max i m.i + m.size) (max j m.j + m.size) { changeset with
      deletions := deleted.foldl IndexSet.add changeset.deletions
      insertions := inserted.foldl IndexSet.add changeset.insertions }

def firstDifference (a : List Row) (rows : List KeptRow) : Option ℕ :=
  (a.zip rows).findIdx? fun p => p.1.key ≠ p.2.key

def calculateMovesSorted (rows : List KeptRow) (changeset : CollectionChangeBuilder) :
    Option CollectionChangeBuilder :=
  let a := std.sort (fun lft rgt => decide (lft.tvIndex < rgt.tvIndex ∨
    lft.tvIndex = rgt.tvIndex ∧ lft.key < rgt.key)) (rows.map fun row => ⟨row.key, row.prevTvIndex⟩)
  match firstDifference a rows with
  | none => some changeset
  | some first =>
    let b := std.sort (fun lft rgt => decide (lft.key < rgt.key ∨
      lft.key = rgt.key ∧ lft.tvIndex < rgt.tvIndex)) (rows.mapIdx fun i row => ⟨row.key, i⟩)
    (longestMatches changeset.modifications a b first).map fun longest =>
      alignLoop a rows longest first first changeset

/-! ## Rows of one list only -/

/-- Both sorted by key: the new rows are given their old indices. -/
def matchRows : List RowInfo → List RowInfo → CollectionChangeBuilder →
    List RowInfo × CollectionChangeBuilder
  | old :: oldRows, new :: newRows, ret =>
    if old.key = new.key then
      let r := matchRows oldRows newRows ret
      ({ new with prevTvIndex := some old.tvIndex } :: r.1, r.2)
    else if old.key < new.key then
      matchRows oldRows (new :: newRows) { ret with deletions := ret.deletions.add old.tvIndex }
    else
      let r := matchRows (old :: oldRows) newRows
        { ret with insertions := ret.insertions.add new.tvIndex }
      (new :: r.1, r.2)
  | [], newRows, ret => (newRows, { ret with
      insertions := (newRows.map RowInfo.tvIndex).foldl IndexSet.add ret.insertions })
  | oldRows, [], ret => ([], { ret with
      deletions := (oldRows.map RowInfo.tvIndex).foldl IndexSet.add ret.deletions })

def kept (row : RowInfo) : Option KeptRow :=
  row.prevTvIndex.map fun prev => ⟨row.key, prev, row.tvIndex⟩

def calculateRows (ret : CollectionChangeBuilder) (oldRows newRows : List RowInfo)
    (keyDidChange : ℤ → Bool) (inTableOrder : Bool) : Option CollectionChangeBuilder :=
  let r := matchRows oldRows newRows ret
  let rows := std.sort (fun lft rgt => decide (lft.tvIndex < rgt.tvIndex)) (r.1.filterMap kept)
  let changed := (rows.filter fun row => keyDidChange row.key).map KeptRow.tvIndex
  let ret := { r.2 with modifications := changed.foldl IndexSet.add r.2.modifications }
  if inTableOrder then some ret else calculateMovesSorted std rows ret

def buildRowInfo (rows : List ℤ) : List RowInfo :=
  std.sort (fun lft rgt => decide (lft.key < rgt.key)) (rows.mapIdx fun i key => ⟨key, none, i⟩)

/-- Ranges are taken out from the last on, and rows put in from the first on. -/
def applyChangeset (nextRows : List ℤ) (changeset : CollectionChangeBuilder) (rows : List ℤ) :
    Option (List ℤ) :=
  let rows := changeset.deletions.ranges.foldr (fun r rows => rows.take r.1 ++ rows.drop r.2) rows
  changeset.insertions.asIndexes.foldlM (fun rows i =>
    if i ≤ rows.length then nextRows[i]?.map fun row => rows.insertIdx i row else none) rows

/-- None if an assertion fails: that the change applied to the one list gives the other. -/
def calculate (prevRows nextRows : List ℤ) (keyDidChange : ℤ → Bool) (inTableOrder : Bool) :
    Option CollectionChangeBuilder :=
  (calculateRows std {} (buildRowInfo std prevRows) (buildRowInfo std nextRows) keyDidChange
    inTableOrder).bind fun ret =>
      if ret.verify && decide (applyChangeset nextRows ret prevRows = some nextRows) then some ret
      else none

end CollectionChangeBuilder

end IosLearning
