import IosLearning.RangeVector
import Mathlib.Algebra.Order.Ring.Int

/-!
# Ranges in chunks

An index set keeps its ranges in chunks of at most `maxSize`, each with how many indices it is
said to have: counting and shifting go by that for whole chunks. Where a chunk begins and ends is
where its first range begins and its last one ends, and is not kept here. An iterator is the
chunks before its own, the ranges of its own before it, its range, those after it and the chunks
after its own. What the operations do to the ranges alone is `RangeVector`'s.

A count is an integer; as a `size_t` one below zero wraps (`toSize`), while nothing is taken to
grow past `2 ^ 64`. The sizes are those of a release build.
-/

namespace IosLearning

open RangeVector (Range)

structure Chunk where
  data : List Range
  count : ℤ
  deriving DecidableEq

namespace ChunkedRangeVector

/-- The bytes of a chunk by those of a range. -/
def maxSize : ℕ := 4096 / 16

def toSize (n : ℤ) : ℕ := if 0 ≤ n then n.toNat else (n + 2 ^ 64).toNat

/-- The ranges of all chunks. -/
def ranges (chunks : List Chunk) : List Range := chunks.flatMap Chunk.data

/-- Where the last of the ranges ends. -/
def stop (data : List Range) : ℕ := data.getLast?.elim 0 Prod.snd

/-- The ranges' lengths put together. -/
def size (data : List Range) : ℤ := RangeVector.size data

inductive Iterator where
  | inside (chunksBefore : List Chunk) (before : List Range) (range : Range) (after : List Range)
    (count : ℤ) (chunksAfter : List Chunk)
  /-- The end. -/
  | past (chunksBefore : List Chunk)
  deriving DecidableEq

/-- The first range of the chunks after those before. -/
def enter (chunksBefore : List Chunk) : List Chunk → Iterator
  | [] => .past chunksBefore
  | ⟨[], count⟩ :: chunks => enter (⟨[], count⟩ :: chunksBefore) chunks
  | ⟨r :: data, count⟩ :: chunks => .inside chunksBefore [] r data count chunks

/-- The last range of the chunks before, which are kept the nearest first. -/
def leave : List Chunk → List Chunk → Option Iterator
  | [], _ => none
  | ⟨data, count⟩ :: chunksBefore, chunks =>
    match data.reverse with
    | [] => leave chunksBefore (⟨data, count⟩ :: chunks)
    | r :: before => some (.inside chunksBefore before r [] count chunks)

def begin (chunks : List Chunk) : Iterator := enter [] chunks

namespace Iterator

def chunks : Iterator → List Chunk
  | inside chunksBefore before r after count chunksAfter =>
    chunksBefore.reverse ++ ⟨before.reverse ++ r :: after, count⟩ :: chunksAfter
  | past chunksBefore => chunksBefore.reverse

/-- The range the iterator is at, if it is not past the last. -/
def range? : Iterator → Option Range
  | inside _ _ r _ _ _ => some r
  | past _ => none

def next : Iterator → Iterator
  | inside chunksBefore before r (r' :: after) count chunksAfter =>
    inside chunksBefore (r :: before) r' after count chunksAfter
  | inside chunksBefore before r [] count chunksAfter =>
    enter (⟨before.reverse ++ [r], count⟩ :: chunksBefore) chunksAfter
  | past chunksBefore => past chunksBefore

/-- The iterator before, if it is not the first. -/
def prev? : Iterator → Option Iterator
  | inside chunksBefore (q :: before) r after count chunksAfter =>
    some (inside chunksBefore before q (r :: after) count chunksAfter)
  | inside chunksBefore [] r after count chunksAfter =>
    leave chunksBefore (⟨r :: after, count⟩ :: chunksAfter)
  | past chunksBefore => leave chunksBefore []

/-! ## What an iterator changes -/

def set (front back : ℕ) : Iterator → Iterator
  | inside chunksBefore before r after count chunksAfter =>
    inside chunksBefore before (front, back) after
      (count - (r.2 - r.1 : ℕ) + (back - front : ℕ)) chunksAfter
  | past chunksBefore => past chunksBefore

def adjust (front back : ℤ) : Iterator → Iterator
  | inside chunksBefore before r after count chunksAfter =>
    inside chunksBefore before ((r.1 + front).toNat, (r.2 + back).toNat) after
      (count - front + back) chunksAfter
  | past chunksBefore => past chunksBefore

/-- The ranges after the iterator's moved. -/
def moveAfter (move : Range → Range) : Iterator → Iterator
  | inside chunksBefore before r after count chunksAfter =>
    inside chunksBefore before r (after.map move) count
      (chunksAfter.map fun c => { c with data := c.data.map move })
  | past chunksBefore => past chunksBefore

/-- The iterator's range and those after it moved. -/
def moveFrom (move : Range → Range) (it : Iterator) : Iterator :=
  match it.moveAfter move with
  | inside chunksBefore before r after count chunksAfter =>
    inside chunksBefore before (move r) after count chunksAfter
  | past chunksBefore => past chunksBefore

/-- A full chunk is split in half, for one range more. -/
def ensureSpace : Iterator → Iterator
  | inside chunksBefore before r after count chunksAfter =>
    if before.length + 1 + after.length + 1 ≤ maxSize then
      inside chunksBefore before r after count chunksAfter
    else
      let toMove := maxSize / 2
      if before.length ≥ toMove then
        let kept := (before.drop (before.length - toMove)).reverse
        let before := before.take (before.length - toMove)
        let movedCount := size (before.reverse ++ r :: after)
        inside (⟨kept, count - movedCount⟩ :: chunksBefore) before r after movedCount chunksAfter
      else
        let moved := after.drop (toMove - before.length - 1)
        let after := after.take (toMove - before.length - 1)
        inside chunksBefore before r after (count - size moved) (⟨moved, size moved⟩ :: chunksAfter)
  | past chunksBefore => past chunksBefore

/-- The iterator is at the new range. -/
def insert (value : Range) (it : Iterator) : Iterator :=
  match it.ensureSpace with
  | inside chunksBefore before r after count chunksAfter =>
    inside chunksBefore before value (r :: after) (count + (value.2 - value.1 : ℕ)) chunksAfter
  | past [] => inside [] [] value [] (value.2 - value.1 : ℕ) []
  | past (c :: chunksBefore) =>
    if c.data.length < maxSize then
      inside chunksBefore c.data.reverse value [] (c.count + (value.2 - value.1 : ℕ)) []
    else inside (c :: chunksBefore) [] value [] (value.2 - value.1 : ℕ) []

/-- The iterator is at the range after, and a chunk left without ranges is erased. -/
def erase : Iterator → Iterator
  | inside chunksBefore [] _ [] _ chunksAfter => enter chunksBefore chunksAfter
  | inside chunksBefore (q :: before) r [] count chunksAfter =>
    enter (⟨(q :: before).reverse, count - (r.2 - r.1 : ℕ)⟩ :: chunksBefore) chunksAfter
  | inside chunksBefore before r (r' :: after) count chunksAfter =>
    inside chunksBefore before r' after (count - (r.2 - r.1 : ℕ)) chunksAfter
  | past chunksBefore => past chunksBefore

end Iterator

/-! ## Finding an index -/

/-- The first range of a chunk that ends after the index. -/
def findRange (index : ℕ) (chunksBefore : List Chunk) (count : ℤ) (chunksAfter : List Chunk) :
    List Range → List Range → Iterator
  | before, [] => enter (⟨before.reverse, count⟩ :: chunksBefore) chunksAfter
  | before, r :: after =>
    if r.2 ≤ index then findRange index chunksBefore count chunksAfter (r :: before) after
    else .inside chunksBefore before r after count chunksAfter

/-- The first chunk that ends after the index, and its first range that does. -/
def findChunk (index : ℕ) (chunksBefore : List Chunk) : List Chunk → Iterator
  | [] => .past chunksBefore
  | c :: chunks =>
    if stop c.data ≤ index then findChunk index (c :: chunksBefore) chunks
    else findRange index chunksBefore c.count chunks [] c.data

/-- From an iterator on, or from the first range of its chunk if that begins after the index. -/
def Iterator.find (index : ℕ) : Iterator → Iterator
  | .inside chunksBefore before r after count chunksAfter =>
    if stop (r :: after) ≤ index then
      findChunk index (⟨before.reverse ++ r :: after, count⟩ :: chunksBefore) chunksAfter
    else if before.getLast?.any fun first => index < first.1 then
      findRange index chunksBefore count chunksAfter [] (before.reverse ++ r :: after)
    else findRange index chunksBefore count chunksAfter before (r :: after)
  | .past chunksBefore => .past chunksBefore

def find (index : ℕ) (chunks : List Chunk) : Iterator := findChunk index [] chunks

def contains (index : ℕ) (chunks : List Chunk) : Bool :=
  (find index chunks).range?.any fun r => r.1 ≤ index

/-! ## One index -/

/-- The index is put in where the iterator is, joined to the ranges next to it. -/
def Iterator.doAdd (index : ℕ) (it : Iterator) : Iterator :=
  let insert := if it.range?.any fun r => r.1 = index + 1 then it.adjust (-1) 0
    else it.insert (index, index + 1)
  if it.range?.any fun r => r.1 ≤ index ∧ r.2 > index then it
  else
    match it.prev? with
    | none => insert
    | some prev =>
      if prev.range?.any fun q => q.2 = index then
        let prev := prev.adjust 0 1
        match it.range? with
        | none => prev
        | some r =>
          if index + 1 = r.1 then
            let prev := prev.adjust 0 (r.2 - r.1 : ℕ)
            (prev.next.erase.prev?).getD prev
          else prev
      else insert

def add (index : ℕ) (chunks : List Chunk) : List Chunk :=
  ((find index chunks).doAdd index).chunks

/-- Each index is looked for from where the last one is. -/
def addIndexes (it : Iterator) (indexes : List ℕ) : Iterator :=
  indexes.foldl (fun it index => (it.find index).doAdd index) it

def addRanges (values chunks : List Chunk) : List Chunk :=
  (addIndexes (begin chunks) (RangeVector.asIndexes (ranges values))).chunks

/-- The index and those after it move one forward, and the ranges around it are joined. -/
def Iterator.doErase (index : ℕ) (it : Iterator) : List Chunk :=
  let it :=
    match it.range? with
    | none => it
    | some r =>
      if r.1 ≤ index then
        if r.1 + 1 = r.2 then it.erase else (it.adjust 0 (-1)).next
      else
        match it.prev? with
        | none => it
        | some prev =>
          if prev.range?.any fun q : Range => q.2 + 1 = r.1 then
            (prev.adjust 0 (r.2 - r.1 : ℕ)).next.erase
          else it
  (it.moveFrom fun r => (r.1 - 1, r.2 - 1)).chunks

def eraseAt (index : ℕ) (chunks : List Chunk) : List Chunk := (find index chunks).doErase index

/-- The ranges of a chunk that begin at or before the index, which each moves back. -/
def skipShiftedRanges (before : List Range) : List Range → ℕ → List Range × List Range × ℕ
  | [], index => (before, [], index)
  | r :: after, index =>
    if r.1 ≤ index then skipShiftedRanges (r :: before) after (index + (r.2 - r.1))
    else (before, r :: after, index)

/-- Those of the chunks from here on. -/
def skipShiftedChunk (chunksBefore : List Chunk) : List Chunk → ℕ → Iterator × ℕ
  | [], index => (.past chunksBefore, index)
  | c :: chunks, index =>
    match skipShiftedRanges [] c.data index with
    | (_, [], index) => skipShiftedChunk (c :: chunksBefore) chunks index
    | (before, r :: after, index) => (.inside chunksBefore before r after c.count chunks, index)

/-- Chunks that end at or before the index move it back by their counts. -/
def skipShifted (chunksBefore : List Chunk) : List Chunk → ℕ → Iterator × ℕ
  | [], index => (.past chunksBefore, index)
  | c :: chunks, index =>
    if stop c.data ≤ index then skipShifted (c :: chunksBefore) chunks (toSize (index + c.count))
    else skipShiftedChunk chunksBefore (c :: chunks) index

/-- Adds an index that has had all the ranges before it removed, and gives it back with them. -/
def addShifted (index : ℕ) (chunks : List Chunk) : ℕ × List Chunk :=
  let (it, index) := skipShifted [] chunks index
  (index, (it.doAdd index).chunks)

/-- An index less what the chunks that end at or before it count, and the ranges of the next that
do. -/
def skipUnshifted (index : ℕ) : List Chunk → ℤ → ℤ
  | [], shifted => shifted
  | c :: chunks, shifted =>
    if stop c.data ≤ index then skipUnshifted index chunks (shifted - c.count)
    else shifted - size (c.data.takeWhile fun r => r.2 ≤ index)

/-- Erases an index; one that was not in the ranges is given back without those before it, and
`npos` is `none`. -/
def eraseOrUnshift (index : ℕ) (chunks : List Chunk) : Option ℕ × List Chunk :=
  let it := find index chunks
  let shifted := toSize (skipUnshifted index chunks index)
  match it.range? with
  | none => (some shifted, chunks)
  | some r => (if r.1 ≤ index then none else some shifted, it.doErase index)

/-- `count` indices from `index` on put in one after the other. -/
def addRun : ℕ → ℕ → Iterator → Iterator
  | _, 0, it => it
  | index, count + 1, it => addRun (index + 1) count (it.doAdd index).next

/-- `count` indices from `index` on are put in, and those there before moved back. -/
def insertAt (index count : ℕ) (chunks : List Chunk) : List Chunk :=
  let pos := find index chunks
  let move := fun r : Range => (r.1 + count, r.2 + count)
  match pos.range? with
  | none => (addRun index count pos).chunks
  | some r =>
    if r.1 ≤ index then ((pos.adjust 0 count).moveAfter move).chunks
    else (addRun index count (pos.moveFrom move)).chunks

def shiftForInsertAt (index count : ℕ) (chunks : List Chunk) : List Chunk :=
  let it := (find index chunks).moveFrom fun r => (r.1 + count, r.2 + count)
  match it.range? with
  | none => chunks
  | some r =>
    -- a range around the index is split, and its part before the index moved forward again
    if r.1 < index + count then
      ((it.set (r.1 - count) index).next.insert (index + count, r.2)).chunks
    else it.chunks

/-! ## A range of indices taken out -/

/-- Each round but the last goes past a range. -/
def doRemoveLoop (stop : ℕ) : ℕ → ℕ → Iterator → Iterator
  | 0, _, it => it
  | rounds + 1, start, it =>
    let it := it.find start
    match it.range? with
    | none => it
    | some r =>
      if r.1 < stop then
        let start := max r.1 start
        doRemoveLoop stop rounds start <|
          if r.1 < start ∧ r.2 > stop then
            (((it.set r.1 start).next.insert (stop, r.2)).prev?).getD it
          else if start = r.1 ∧ stop ≥ r.2 then it.erase
          else if start = r.1 then it.set stop r.2
          else it.set r.1 start
      else it

def Iterator.doRemove (start stop : ℕ) (it : Iterator) : Iterator :=
  doRemoveLoop stop ((ranges it.chunks).length + 1) start it

def remove (index count : ℕ) (chunks : List Chunk) : List Chunk :=
  ((find index chunks).doRemove index (index + count)).chunks

def removeFrom (it : Iterator) : List Range → Iterator
  | [] => it
  | r :: values =>
    let it := it.doRemove r.1 r.2
    if it.range? = none then it else removeFrom it values

def removeRanges (values chunks : List Chunk) : List Chunk :=
  (removeFrom (begin chunks) (ranges values)).chunks

/-! ## Counting -/

/-- Whole ranges that end before, and the part of the next. -/
def countRanges (stop : ℕ) : List Range → ℤ
  | [] => 0
  | r :: data => if r.2 ≤ stop then (r.2 - r.1 : ℕ) + countRanges stop data
    else if r.1 < stop then (stop - r.1 : ℕ) else 0

/-- Whole chunks by their counts, and the ranges of the next. -/
def countChunks (last : ℕ) : List Chunk → ℤ
  | [] => 0
  | c :: chunks => if stop c.data ≤ last then c.count + countChunks last chunks
    else countRanges last c.data

/-- From a range in its chunk on, the chunk's own are counted one by one; the first of the next
chunk, where it does not end before, is passed over. -/
def countFrom (start last : ℕ) : Iterator → ℤ
  | .past _ => 0
  | .inside _ before r after count chunksAfter =>
    if r.1 ≥ last then 0
    else if r.2 ≥ last then (min r.2 last - max r.1 start : ℕ)
    else if start > r.1 ∨ before ≠ [] then
      let whole := after.takeWhile fun s => s.2 < last
      let ret := (r.2 - max r.1 start : ℕ) + size whole
      match after.drop whole.length with
      | s :: _ => ret + if s.1 < last then (last - s.1 : ℕ) else 0
      | [] =>
        match (enter [] chunksAfter).range? with
        | none => ret
        | some s => if s.2 ≥ last then ret else ret + countChunks last chunksAfter
    else countChunks last (⟨r :: after, count⟩ :: chunksAfter)

/-- How many of the indices from `start` on and before `last` are in the ranges. -/
def count (start last : ℕ) (chunks : List Chunk) : ℕ :=
  toSize (countFrom start last (find start chunks))

def unshift (chunks : List Chunk) (index : ℕ) : ℕ := toSize (index - count 0 index chunks)

/-! ## Ranges built anew -/

/-- The chunks filled, the last first, the ranges of the one at hand, the last first, with its
count, and how many more were made at the start. -/
structure Builder where
  filled : List Chunk := []
  data : List Range := []
  count : ℤ := 0
  made : ℕ

/-- There are as many chunks as the ranges expected fill, and one more. -/
def Builder.start (expected : List Chunk) : Builder where
  made := (ranges expected).length / maxSize

/-- A range that goes on where the last ends is joined to it. Once no more chunks are left that
were made at the start, the first range of one counts as a single index. -/
def Builder.pushBack (b : Builder) (r : Range) : Builder :=
  match b.data, b.made with
  | [], _ => { b with data := [r], count := (r.2 - r.1 : ℕ) }
  | last :: data, made =>
    if r.1 = last.2 then
      { b with data := (last.1, r.2) :: data, count := b.count + (r.2 - r.1 : ℕ) }
    else if (last :: data).length < maxSize then
      { b with data := r :: last :: data, count := b.count + (r.2 - r.1 : ℕ) }
    else
      let filled := ⟨(last :: data).reverse, b.count⟩ :: b.filled
      match made with
      | 0 => ⟨filled, [r], 1, 0⟩
      | made + 1 => ⟨filled, [r], (r.2 - r.1 : ℕ), made⟩

def Builder.finalize (b : Builder) : List Chunk :=
  if b.data = [] then b.filled.reverse else (⟨b.data.reverse, b.count⟩ :: b.filled).reverse

/-- What a builder for the ranges expected makes of those pushed to it. -/
def build (expected : List Chunk) (pushed : List Range) : List Chunk :=
  (pushed.foldl Builder.pushBack (.start expected)).finalize

def buildIndexes (expected : List Chunk) (pushed : List ℕ) : List Chunk :=
  build expected (pushed.map fun i => (i, i + 1))

def insertAtRanges (positions chunks : List Chunk) : List Chunk :=
  if positions = [] then chunks
  else if chunks = [] then positions
  else buildIndexes chunks (RangeVector.insertLoop 0 (RangeVector.asIndexes (ranges chunks))
    (RangeVector.asIndexes (ranges positions)))

def shiftForInsertAtRanges (values chunks : List Chunk) : List Chunk :=
  match (ranges values).head?, (ranges chunks).getLast? with
  | some first, some last =>
    if first.1 ≥ last.2 then chunks
    else buildIndexes chunks (RangeVector.shiftLoop 0 (RangeVector.asIndexes (ranges chunks))
      (RangeVector.asIndexes (ranges values)))
  | _, _ => chunks

def eraseAtRanges (positions chunks : List Chunk) : List Chunk :=
  if chunks = [] ∨ positions = [] then chunks
  else buildIndexes chunks (RangeVector.eraseLoop 0 (RangeVector.asIndexes (ranges chunks))
    (RangeVector.asIndexes (ranges positions)))

def addShiftedBy (shiftedBy values chunks : List Chunk) : List Chunk :=
  if values = [] then chunks
  else build chunks (RangeVector.addShiftedByLoop (RangeVector.asIndexes (ranges values))
    (ranges chunks) (ranges shiftedBy) 0 0 0)

end ChunkedRangeVector

end IosLearning
