import IosLearning.IndexSet
import Mathlib.Algebra.Ring.Int.Defs

/-!
# Change sets of a collection

What a collection's notifier gathers about the changes from one version to another: the indices
deleted from the old collection, those of the new one inserted and modified, and which of them are
moves. An assertion that fails is `none`.
-/

namespace IosLearning

structure Move where
  fromIndex : ℕ
  toIndex : ℕ
  deriving DecidableEq

structure CollectionChangeSet where
  deletions : IndexSet := ∅
  insertions : IndexSet := ∅
  modifications : IndexSet := ∅
  modificationsNew : IndexSet := ∅
  moves : List Move := []
  /-- Per column, where a column without changes has none. -/
  columns : ℤ → IndexSet := fun _ => ∅

def CollectionChangeSet.isEmpty (c : CollectionChangeSet) : Bool :=
  c.deletions.isEmpty && c.insertions.isEmpty && c.modifications.isEmpty
    && c.modificationsNew.isEmpty && c.moves.isEmpty

/-- A change set while it is gathered: its modifications are indices of the new collection. -/
abbrev CollectionChangeBuilder := CollectionChangeSet

namespace CollectionChangeBuilder

/-- Every move is a deletion and an insertion. -/
def verify (b : CollectionChangeBuilder) : Bool :=
  b.moves.all fun m => b.deletions.contains m.fromIndex && b.insertions.contains m.toIndex

def forEachCol (f : IndexSet → IndexSet) (b : CollectionChangeBuilder) :
    CollectionChangeBuilder :=
  { b with modifications := f b.modifications, columns := fun col => f (b.columns col) }

/-! ## Single changes -/

/-- A column that is `npos` is `none`. -/
def modify (ndx : ℕ) (col : Option ℤ) (b : CollectionChangeBuilder) : CollectionChangeBuilder :=
  let b := { b with modifications := b.modifications.add ndx }
  match col with
  | none => b
  | some col => { b with columns := fun c => if c = col then (b.columns c).add ndx else b.columns c }

def insert (index count : ℕ) (trackMoves : Bool) (b : CollectionChangeBuilder) :
    Option CollectionChangeBuilder :=
  if h : 0 < count then
    let b := b.forEachCol fun col => col.shiftForInsertAt index count h
    if trackMoves then
      some { b with
        insertions := b.insertions.insertAt index count
        moves := b.moves.map fun m =>
          if m.toIndex ≥ index then { m with toIndex := m.toIndex + count } else m }
    else some b
  else none

def erase (index : ℕ) (b : CollectionChangeBuilder) : CollectionChangeBuilder :=
  let b := b.forEachCol fun col => col.eraseAt index
  let (unshifted, insertions) := b.insertions.eraseOrUnshift index
  { b with
    insertions := insertions
    deletions := match unshifted with
      | some unshifted => (b.deletions.addShifted unshifted).2
      | none => b.deletions
    moves := b.moves.filterMap fun m =>
      if m.toIndex = index then none
      else if m.toIndex > index then some { m with toIndex := m.toIndex - 1 }
      else some m }

def clear (oldSize : ℕ) (b : CollectionChangeBuilder) : CollectionChangeBuilder :=
  { b with
    modifications := ∅
    insertions := ∅
    moves := []
    columns := fun _ => ∅
    deletions := IndexSet.set (oldSize + b.deletions.size - b.insertions.size) }

/-- The moves gone through for one more: those it passes are shifted, and one that it goes on is
updated, which at most one may be. -/
def moveLoop (fromIndex toIndex : ℕ) :
    List Move → IndexSet → Bool → Option (List Move × IndexSet × Bool)
  | [], insertions, updated => some ([], insertions, updated)
  | m :: moves, insertions, updated =>
    if m.toIndex ≠ fromIndex then
      let m :=
        if m.toIndex ≥ toIndex ∧ m.toIndex < fromIndex then { m with toIndex := m.toIndex + 1 }
        else if m.toIndex ≤ toIndex ∧ m.toIndex > fromIndex then
          { m with toIndex := m.toIndex - 1 }
        else m
      (moveLoop fromIndex toIndex moves insertions updated).map fun r => (m :: r.1, r.2)
    else if updated then none
    else
      let insertions := (insertions.eraseAt fromIndex).insertAt toIndex 1
      (moveLoop fromIndex toIndex moves insertions true).map fun r =>
        ({ m with toIndex := toIndex } :: r.1, r.2)

/-- The move is put with the others, unless the row was inserted. -/
def pushMove (fromIndex toIndex : ℕ) (b : CollectionChangeBuilder) : CollectionChangeBuilder :=
  let (shiftedFrom, insertions) := b.insertions.eraseOrUnshift fromIndex
  let b := { b with insertions := insertions.insertAt toIndex 1 }
  match shiftedFrom with
  | none => b
  | some shiftedFrom =>
    let (shiftedFrom, deletions) := b.deletions.addShifted shiftedFrom
    { b with deletions := deletions, moves := b.moves ++ [⟨shiftedFrom, toIndex⟩] }

/-- A row that was modified stays so where it goes. -/
def moveCol (fromIndex toIndex : ℕ) (col : IndexSet) : IndexSet :=
  let modified := col.contains fromIndex
  let col := col.eraseAt fromIndex
  if modified then col.insertAt toIndex 1 else col.shiftForInsertAt toIndex 1 Nat.one_pos

def move (fromIndex toIndex : ℕ) (b : CollectionChangeBuilder) : Option CollectionChangeBuilder :=
  if fromIndex ≠ toIndex then
    (moveLoop fromIndex toIndex b.moves b.insertions false).map
      fun (moves, insertions, updated) =>
        let b := { b with moves := moves, insertions := insertions }
        let b := if updated then b else pushMove fromIndex toIndex b
        b.forEachCol (moveCol fromIndex toIndex)
  else none

/-! ## Moves that are none any more -/

def cleanUpLoop : List Move → IndexSet → IndexSet → List Move × IndexSet × IndexSet
  | [], deletions, insertions => ([], deletions, insertions)
  | m :: moves, deletions, insertions =>
    if m.fromIndex - deletions.count 0 m.fromIndex ≠ m.toIndex - insertions.count 0 m.toIndex then
      let (moves, deletions, insertions) := cleanUpLoop moves deletions insertions
      (m :: moves, deletions, insertions)
    else
      cleanUpLoop moves (deletions.remove m.fromIndex 1 Nat.one_pos)
        (insertions.remove m.toIndex 1 Nat.one_pos)

def cleanUpStaleMoves (b : CollectionChangeBuilder) : CollectionChangeBuilder :=
  let (moves, deletions, insertions) := cleanUpLoop b.moves b.deletions b.insertions
  { b with moves := moves, deletions := deletions, insertions := insertions }

/-! ## Two change sets in a row -/

/-- The move from the index, taken out of the moves with the last put in its place. -/
def takeMove (index : ℕ) (moves : List Move) : Option (Move × List Move) :=
  match moves.findIdx? fun m => m.fromIndex = index, moves.getLast? with
  | some k, some last => moves[k]?.map fun m => (m, (moves.set k last).dropLast)
  | _, _ => none

/-- In each column where the move's row was modified, it still is where it goes. -/
def markMoved (b : CollectionChangeBuilder) (c : CollectionChangeBuilder) (m : Move) :
    CollectionChangeBuilder :=
  let mark := fun (col other : IndexSet) =>
    if col.contains m.fromIndex then other.add m.toIndex else other
  { c with
    modifications := mark b.modifications c.modifications
    columns := fun col => mark (b.columns col) (c.columns col) }

/-- The old moves: one whose row was moved again goes on, one whose row was deleted is dropped,
and the others are shifted. -/
def updateMoves (b : CollectionChangeBuilder) :
    List Move → CollectionChangeBuilder → List Move × CollectionChangeBuilder
  | [], c => ([], c)
  | old :: moves, c =>
    match takeMove old.toIndex c.moves with
    | some (m, rest) =>
      let (moves, c) := updateMoves b moves { markMoved b c m with moves := rest }
      ({ old with toIndex := m.toIndex } :: moves, c)
    | none =>
      if c.deletions.contains old.toIndex then updateMoves b moves c
      else
        let toIndex := c.insertions.shift (c.deletions.unshift old.toIndex)
        let (moves, c) := updateMoves b moves c
        ({ old with toIndex := toIndex } :: moves, c)

/-- New moves of rows inserted before are dropped. -/
def dropInserted (b c : CollectionChangeBuilder) : CollectionChangeBuilder :=
  if !b.insertions.isEmpty && !c.moves.isEmpty then
    { c with moves := c.moves.filter fun m => !b.insertions.contains m.fromIndex }
  else c

/-- Modified rows that are moved stay so. -/
def markModified (b c : CollectionChangeBuilder) : CollectionChangeBuilder :=
  if !b.modifications.isEmpty && !c.moves.isEmpty then c.moves.foldl (markMoved b) c else c

/-- The sources of new moves become indices of the old collection. -/
def shiftSources (b c : CollectionChangeBuilder) : CollectionChangeBuilder :=
  if !b.deletions.isEmpty || !b.insertions.isEmpty then
    { c with moves := c.moves.map fun m =>
        { m with fromIndex := b.deletions.shift (b.insertions.unshift m.fromIndex) } }
  else c

def mergeCol (c : CollectionChangeBuilder) (col other : IndexSet) : IndexSet :=
  ((col.eraseAtAll c.deletions).shiftForInsertAtAll c.insertions).addAll other

/-- The changes of `c`, with its moves made fit, put on top of those of `b`. -/
def combine (b : CollectionChangeBuilder) (moves : List Move) (c : CollectionChangeBuilder) :
    Option CollectionChangeBuilder :=
  (b.deletions.addShiftedBy b.insertions c.deletions).map fun deletions =>
    let b := { b with
      moves := moves ++ c.moves
      deletions := deletions
      insertions := (b.insertions.eraseAtAll c.deletions).insertAtAll c.insertions }
    let b := cleanUpStaleMoves b
    { b with
      modifications := mergeCol c b.modifications c.modifications
      columns := fun col => mergeCol c (b.columns col) (c.columns col) }

def merge (b c : CollectionChangeBuilder) : Option CollectionChangeBuilder :=
  if c.isEmpty then some b
  else if b.isEmpty then some c
  else if !b.verify || !c.verify then none
  else
    let (moves, c) :=
      if !c.moves.isEmpty || !c.deletions.isEmpty || !c.insertions.isEmpty then
        updateMoves b b.moves c
      else (b.moves, c)
    (combine b moves (shiftSources b (markModified b (dropInserted b c)))).filter verify

/-! ## The finished change set -/

def finalize (b : CollectionChangeBuilder) : CollectionChangeSet :=
  { deletions := b.deletions
    insertions := b.insertions
    modifications := (b.modifications.eraseAtAll b.insertions).shiftForInsertAtAll b.deletions
    modificationsNew := b.modifications.removeAll b.insertions
    moves := b.moves
    columns := b.columns }

end CollectionChangeBuilder

end IosLearning
