import Mathlib.Data.Finset.Prod
import Mathlib.Data.Finset.Image

/-!
# What became of a table's objects

The keys of the objects inserted and deleted, and for those modified the columns that were.
-/

namespace IosLearning

/-- `modifications` has the pairs of an object and a column of it. -/
@[ext]
structure ObjectChangeSet where
  deletions : Finset ℤ := ∅
  insertions : Finset ℤ := ∅
  modifications : Finset (ℤ × ℤ) := ∅
  clearDidOccur : Bool := false
  deriving DecidableEq

namespace ObjectChangeSet

variable (obj col : ℤ) (s other : ObjectChangeSet)

def insertionsAdd : ObjectChangeSet := { s with insertions := insert obj s.insertions }

/-- Modifications of new objects are not kept. -/
def modificationsAdd : ObjectChangeSet :=
  if obj ∈ s.insertions then s
  else { s with modifications := insert (obj, col) s.modifications }

def modificationsRemove : ObjectChangeSet :=
  { s with modifications := s.modifications.filter fun p => p.1 ≠ obj }

def deletionsAdd : ObjectChangeSet :=
  let s' := { s.modificationsRemove obj with insertions := s.insertions.erase obj }
  if obj ∈ s.insertions then s' else { s' with deletions := insert obj s.deletions }

def clear : ObjectChangeSet := { clearDidOccur := true }

/-- Whether it was there goes with the rest. -/
def insertionsRemove : Bool × ObjectChangeSet :=
  (decide (obj ∈ s.insertions), { s with insertions := s.insertions.erase obj })

def modificationsContains : Bool := decide (obj ∈ s.modifications.image Prod.fst)

/-- Of a table that was cleared all but the new objects are deleted. -/
def deletionsContains : Bool :=
  if s.clearDidOccur then decide (obj ∉ s.insertions) else decide (obj ∈ s.deletions)

def modificationsEmpty : Bool := decide (s.modifications = ∅)

def isEmpty : Bool :=
  decide (s.deletions = ∅) && decide (s.insertions = ∅) && s.modificationsEmpty
    && !s.clearDidOccur

/-- Where an object deleted had been inserted, the set of deletions is asked to erase an iterator
of the other's, which is undefined. -/
def merge : Option ObjectChangeSet :=
  if other.isEmpty then some s
  else if s.isEmpty then some other
  else if other.deletions ∩ s.insertions ≠ ∅ then none
  else some {
    deletions := s.deletions ∪ other.deletions
    insertions := s.insertions ∪ other.insertions
    modifications := (s.modifications.filter fun p => p.1 ∉ other.deletions) ∪ other.modifications
    clearDidOccur := s.clearDidOccur || other.clearDidOccur }

end ObjectChangeSet

end IosLearning
