import Mathlib.Algebra.GroupWithZero.Nat
import Mathlib.Data.Nat.Notation
import Mathlib.Order.Basic
import Mathlib.Data.List.Basic

/-!
# The ranges of an index set

An index set keeps its indices as ranges, in order and with a gap between any two. Its operations
walk them with an iterator, which here is what it has passed and what is left (`Position`); those
that take another set walk the indices of both and build the ranges anew (`build`). The ranges here
are one list: the source keeps them in chunks, and what `ChunkedRangeVector` does to them there is
proved to be what is done here.
-/

namespace IosLearning

namespace RangeVector

/-- The indices from the first on, before the second. -/
abbrev Range := ℕ × ℕ

/-- Ranges in order that are not empty and leave a gap between them. -/
structure Valid (rs : List Range) : Prop where
  nonempty : ∀ r ∈ rs, r.1 < r.2
  apart : rs.Pairwise fun r s => r.2 < s.1

/-- The index is in one of the ranges. -/
def Covers (rs : List Range) (i : ℕ) : Prop := ∃ r ∈ rs, r.1 ≤ i ∧ i < r.2

def asIndexes (rs : List Range) : List ℕ := rs.flatMap fun r => List.range' r.1 (r.2 - r.1)

/-- Ranges moved back. -/
def shifted (count : ℕ) (rs : List Range) : List Range :=
  rs.map fun r => (r.1 + count, r.2 + count)

/-- Ranges moved forward by one. -/
def unshifted (rs : List Range) : List Range := rs.map fun r => (r.1 - 1, r.2 - 1)

/-- An iterator: the ranges before it, the nearest first, and those from it on. -/
structure Position where
  before : List Range
  after : List Range
  deriving DecidableEq

namespace Position

def ranges (it : Position) : List Range := it.before.reverse ++ it.after

def next : Position → Position
  | ⟨before, r :: after⟩ => ⟨r :: before, after⟩
  | it => it

end Position

def begin (rs : List Range) : Position := ⟨[], rs⟩

def findFrom (index : ℕ) (before : List Range) : List Range → Position
  | [] => ⟨before, []⟩
  | r :: after =>
    if r.2 ≤ index then findFrom index (r :: before) after else ⟨before, r :: after⟩

/-- The first range that ends after the index, from an iterator on. -/
def Position.find (it : Position) (index : ℕ) : Position := findFrom index it.before it.after

def find (index : ℕ) (rs : List Range) : Position := (begin rs).find index

def contains (index : ℕ) (rs : List Range) : Bool :=
  match (find index rs).after with
  | [] => false
  | r :: _ => r.1 ≤ index

/-! ## One index -/

/-- The index is put in where the iterator is, joined to the ranges next to it. -/
def Position.doAdd (it : Position) (index : ℕ) : Position :=
  match it.after, it.before with
  | r :: after, q :: before =>
    if r.1 ≤ index ∧ index < r.2 then it
    else if q.2 = index then
      if q.2 + 1 = r.1 then ⟨before, (q.1, q.2 + 1 + (r.2 - r.1)) :: after⟩
      else ⟨before, (q.1, q.2 + 1) :: r :: after⟩
    else if r.1 = index + 1 then ⟨q :: before, (r.1 - 1, r.2) :: after⟩
    else ⟨q :: before, (index, index + 1) :: r :: after⟩
  | r :: after, [] =>
    if r.1 ≤ index ∧ index < r.2 then it
    else if r.1 = index + 1 then ⟨[], (r.1 - 1, r.2) :: after⟩
    else ⟨[], (index, index + 1) :: r :: after⟩
  | [], q :: before =>
    if q.2 = index then ⟨before, [(q.1, q.2 + 1)]⟩ else ⟨q :: before, [(index, index + 1)]⟩
  | [], [] => ⟨[], [(index, index + 1)]⟩

def add (index : ℕ) (rs : List Range) : List Range := ((find index rs).doAdd index).ranges

/-- The indices are put in one after the other, each looked for from where the last one is. -/
def addIndexes (it : Position) (indexes : List ℕ) : Position :=
  indexes.foldl (fun it index => (it.find index).doAdd index) it

def addRanges (values rs : List Range) : List Range :=
  (addIndexes (begin rs) (asIndexes values)).ranges

/-- The index and those after it move one forward, and the ranges around it are joined. -/
def Position.doErase (it : Position) (index : ℕ) : List Range :=
  match it.after with
  | [] => it.ranges
  | r :: after =>
    if r.1 ≤ index then
      if r.1 + 1 = r.2 then it.before.reverse ++ unshifted after
      else it.before.reverse ++ (r.1, r.2 - 1) :: unshifted after
    else
      match it.before with
      | [] => it.before.reverse ++ unshifted (r :: after)
      | q :: before =>
        if q.2 + 1 = r.1 then before.reverse ++ (q.1, q.2 + (r.2 - r.1)) :: unshifted after
        else it.before.reverse ++ unshifted (r :: after)

def eraseAt (index : ℕ) (rs : List Range) : List Range := (find index rs).doErase index

/-- The ranges that begin at or before the index, which each moves back. -/
def skipShifted (before : List Range) : List Range → ℕ → Position × ℕ
  | [], index => (⟨before, []⟩, index)
  | r :: after, index =>
    if r.1 ≤ index then skipShifted (r :: before) after (index + (r.2 - r.1))
    else (⟨before, r :: after⟩, index)

/-- Adds an index that has had all the ranges before it removed, and gives it back with them. -/
def addShifted (index : ℕ) (rs : List Range) : ℕ × List Range :=
  let (it, index) := skipShifted [] rs index
  (index, (it.doAdd index).ranges)

/-- `count` indices from `index` on put in one after the other. -/
def addRun : ℕ → ℕ → Position → Position
  | _, 0, it => it
  | index, count + 1, it => addRun (index + 1) count (it.doAdd index).next

/-- `count` indices from `index` on are put in, and those there before moved back. -/
def insertAt (index count : ℕ) (rs : List Range) : List Range :=
  match find index rs with
  | ⟨before, r :: after⟩ =>
    if r.1 ≤ index then before.reverse ++ (r.1, r.2 + count) :: shifted count after
    else (addRun index count ⟨before, shifted count (r :: after)⟩).ranges
  | it => (addRun index count it).ranges

def shiftForInsertAt (index count : ℕ) (rs : List Range) : List Range :=
  match find index rs with
  | ⟨_, []⟩ => rs
  | ⟨before, r :: after⟩ =>
    -- a range around the index is split, and its part before the index moved forward again
    if r.1 + count < index + count then
      before.reverse ++
        (r.1 + count - count, index) :: (index + count, r.2 + count) :: shifted count after
    else before.reverse ++ shifted count (r :: after)

/-! ## A range of indices taken out -/

def doRemoveFrom (before : List Range) : List Range → ℕ → ℕ → Position
  | [], _, _ => ⟨before, []⟩
  | r :: after, start, stop =>
    if r.2 ≤ start then doRemoveFrom (r :: before) after start stop
    else if r.1 < stop then
      let start := max r.1 start
      if r.1 < start ∧ r.2 > stop then ⟨(r.1, start) :: before, (stop, r.2) :: after⟩
      else if start = r.1 ∧ stop ≥ r.2 then doRemoveFrom before after start stop
      else if start = r.1 then ⟨before, (stop, r.2) :: after⟩
      else doRemoveFrom ((r.1, start) :: before) after start stop
    else ⟨before, r :: after⟩

def Position.doRemove (it : Position) (start stop : ℕ) : Position :=
  doRemoveFrom it.before it.after start stop

def remove (index count : ℕ) (rs : List Range) : List Range :=
  ((find index rs).doRemove index (index + count)).ranges

def removeFrom (it : Position) : List Range → Position
  | [] => it
  | r :: values =>
    let it := it.doRemove r.1 r.2
    if it.after = [] then it else removeFrom it values

def removeRanges (values rs : List Range) : List Range := (removeFrom (begin rs) values).ranges

/-! ## Moving an index -/

/-- How many of the indices from `start` on and before `stop` are in the ranges. -/
def count (start stop : ℕ) (rs : List Range) : ℕ :=
  (rs.map fun r => min r.2 stop - max r.1 start).sum

/-- The lengths of the ranges put together. -/
def size (rs : List Range) : ℕ := (rs.map fun r => r.2 - r.1).sum

def shift (rs : List Range) (index : ℕ) : ℕ :=
  match rs with
  | [] => index
  | r :: rs => if r.1 > index then index else shift rs (index + (r.2 - r.1))

/-! ## Ranges built anew -/

/-- The ranges pushed so far, the last first: one that goes on where the last ends is joined. -/
def pushBack (built : List Range) (r : Range) : List Range :=
  match built with
  | [] => [r]
  | last :: built =>
    if r.1 = last.2 then (last.1, r.2) :: built else r :: last :: built

/-- What a builder makes of the ranges pushed to it. -/
def build (pushed : List Range) : List Range := (pushed.foldl pushBack []).reverse

def buildIndexes (pushed : List ℕ) : List Range := build (pushed.map fun i => (i, i + 1))

/-- The indices of a set, and those put in among them. -/
def insertLoop (shift : ℕ) : List ℕ → List ℕ → List ℕ
  | x :: xs, y :: ys =>
    if x + shift < y then (x + shift) :: insertLoop shift xs (y :: ys)
    else y :: insertLoop (shift + 1) (x :: xs) ys
  | xs, [] => xs.map (· + shift)
  | [], ys => ys
termination_by xs ys => xs.length + ys.length

def insertAtRanges (positions rs : List Range) : List Range :=
  if positions = [] then rs
  else if rs = [] then positions
  else buildIndexes (insertLoop 0 (asIndexes rs) (asIndexes positions))

/-- The indices of a set, moved back by those put in among them. -/
def shiftLoop (shift : ℕ) : List ℕ → List ℕ → List ℕ
  | x :: xs, y :: ys =>
    if x + shift < y then (x + shift) :: shiftLoop shift xs (y :: ys)
    else shiftLoop (shift + 1) (x :: xs) ys
  | xs, _ => xs.map (· + shift)
termination_by xs ys => xs.length + ys.length

def shiftForInsertAtRanges (values rs : List Range) : List Range :=
  match values.head?, rs.getLast? with
  | some first, some last =>
    if first.1 ≥ last.2 then rs
    else buildIndexes (shiftLoop 0 (asIndexes rs) (asIndexes values))
  | _, _ => rs

/-- The indices of a set but those taken out, moved forward by them. -/
def eraseLoop (shift : ℕ) : List ℕ → List ℕ → List ℕ
  | x :: xs, y :: ys =>
    if x < y then (x - shift) :: eraseLoop shift xs (y :: ys)
    else if x = y then eraseLoop (shift + 1) xs ys
    else eraseLoop (shift + 1) (x :: xs) ys
  | xs, _ => xs.map (· - shift)
termination_by xs ys => xs.length + ys.length

def eraseAtRanges (positions rs : List Range) : List Range :=
  if rs = [] ∨ positions = [] then rs
  else buildIndexes (eraseLoop 0 (asIndexes rs) (asIndexes positions))

/-! ## Indices of one set put in with those of another taken out before -/

/-- The ranges of `shifted_by` that begin at or before the index: what is left of them, the
length of all so far and where the last ends. -/
def passShifts (index : ℕ) : List Range → ℕ → ℕ → List Range × ℕ × ℕ
  | [], newShift, skipUntil => ([], newShift, skipUntil)
  | r :: shifts, newShift, skipUntil =>
    if r.1 ≤ index then passShifts index shifts (newShift + (r.2 - r.1)) r.2
    else (r :: shifts, newShift, skipUntil)

/-- The ranges of the set that begin at or before where the index comes: those, what is left and
the length of all so far. -/
def passOld (index : ℕ) : List Range → ℕ → List Range × List Range × ℕ
  | [], oldShift => ([], [], oldShift)
  | r :: old, oldShift =>
    if r.1 ≤ index + oldShift then
      let (passed, old, oldShift) := passOld index old (oldShift + (r.2 - r.1))
      (r :: passed, old, oldShift)
    else ([], r :: old, oldShift)

/-- What is pushed for each of the values, with what is left of the set at the end. -/
def addShiftedByLoop : List ℕ → List Range → List Range → ℕ → ℕ → ℕ → List Range
  | [], old, _, _, _, _ => old
  | index :: values, old, shifts, skipUntil, oldShift, newShift =>
    let (shifts, newShift, skipUntil) := passShifts index shifts newShift skipUntil
    if index < skipUntil then addShiftedByLoop values old shifts skipUntil oldShift newShift
    else
      let (passed, old, oldShift) := passOld (index - newShift) old oldShift
      let pushed := index - newShift + oldShift
      (asIndexes passed).map (fun i => (i, i + 1)) ++ (pushed, pushed + 1)
        :: addShiftedByLoop values old shifts skipUntil oldShift newShift

def addShiftedBy (shiftedBy values rs : List Range) : List Range :=
  if values = [] then rs
  else build (addShiftedByLoop (asIndexes values) rs shiftedBy 0 0 0)

end RangeVector

end IosLearning
