import IosLearning.Calculate

/-!
# Notifiers of a collection

A worker runs a notifier, which finds how its collection has changed, and hands the changes over:
they are gathered for each callback until they are packaged for delivery. The thread that the
collection belongs to delivers them, callback by callback; a callback may add and remove others.
-/

namespace IosLearning

structure Callback where
  token : ℕ
  accumulatedChanges : CollectionChangeBuilder := {}
  changesToDeliver : CollectionChangeSet := {}
  initialDelivered : Bool := false
  skipNext : Bool := false

/-- `callbackIndex` is one more than the index of the callback that is being called, which is
`npos` when none is; before anything is packaged the count is `npos` too. -/
structure CollectionNotifier where
  change : CollectionChangeBuilder := {}
  hasRun : Bool := false
  callbacks : List Callback := []
  haveCallbacks : Bool := false
  callbackIndex : ℕ := 0
  callbackCount : ℕ := 2 ^ 64 - 1
  nextToken : ℕ := 0

namespace CollectionNotifier

/-! ## Callbacks -/

def addCallback (n : CollectionNotifier) : CollectionNotifier :=
  { n with
    callbacks := n.callbacks ++ [{ token := n.nextToken }]
    haveCallbacks := if n.callbackIndex = 0 then true else n.haveCallbacks
    nextToken := n.nextToken + 1 }

/-- None if the callback is not there: an assertion fails. -/
def findCallback (token : ℕ) (n : CollectionNotifier) : Option ℕ :=
  n.callbacks.findIdx? fun c => c.token = token

/-- The count wraps around below 0. -/
def removeCallback (token : ℕ) (n : CollectionNotifier) : Option CollectionNotifier :=
  (findCallback token n).map fun idx =>
    let callbacks := n.callbacks.eraseIdx idx
    { n with
      callbackIndex := if idx < n.callbackIndex then n.callbackIndex - 1 else n.callbackIndex
      callbackCount := (n.callbackCount + (2 ^ 64 - 1)) % 2 ^ 64
      callbacks := callbacks
      haveCallbacks := !callbacks.isEmpty }

def suppressNextNotification (token : ℕ) (n : CollectionNotifier) : Option CollectionNotifier :=
  (findCallback token n).map fun idx =>
    { n with callbacks := n.callbacks.modify idx fun c => { c with skipNext := true } }

/-! ## Changes handed over and packaged -/

/-- A callback that skips changes has none gathered. -/
def addChange (change : CollectionChangeBuilder) (c : Callback) : Option Callback :=
  if c.skipNext then
    if c.accumulatedChanges.isEmpty then some { c with skipNext := false } else none
  else
    (CollectionChangeBuilder.merge c.accumulatedChanges change).map fun changes =>
      { c with accumulatedChanges := changes }

def prepareHandover (n : CollectionNotifier) : Option CollectionNotifier :=
  (n.callbacks.mapM (addChange n.change)).map fun callbacks =>
    { n with callbacks := callbacks, change := {}, hasRun := true }

/-- What was packaged before and not delivered is replaced. -/
def packageForDelivery (n : CollectionNotifier) : CollectionNotifier :=
  { n with
    callbacks := n.callbacks.map fun c =>
      { c with changesToDeliver := c.accumulatedChanges.finalize, accumulatedChanges := {} }
    callbackCount := n.callbacks.length }

/-! ## Delivery -/

/-- One round of the loop over the callbacks, or its end; none past the last callback. -/
def forEachCallback (fn : Callback → Callback) (n : CollectionNotifier) :
    Option CollectionNotifier :=
  if n.callbackIndex < n.callbackCount then
    n.callbacks[n.callbackIndex]?.map fun c =>
      { n with
        callbacks := n.callbacks.set n.callbackIndex (fn c)
        callbackIndex := n.callbackIndex + 1 }
  else some { n with callbackIndex := 0 }

/-- Before the collection is advanced, the changes are only told. -/
def beforeAdvance (n : CollectionNotifier) : Option CollectionNotifier := forEachCallback id n

/-- Whether the callback is called: at first without changes too. -/
def called (c : Callback) : Bool := !(c.initialDelivered && c.changesToDeliver.isEmpty)

def afterAdvance (n : CollectionNotifier) : Option CollectionNotifier :=
  forEachCallback (fun c =>
    if called c then { c with initialDelivered := true, changesToDeliver := {} } else c) n

end CollectionNotifier

/-! ## Notifiers of lists -/

namespace ListNotifier

/-- The rows whose objects changed, where the list is one of objects; none for a row past its
end. -/
def markModified (list : List ℤ) (objectDidChange : ℤ → Bool) (change : CollectionChangeBuilder) :
    List ℕ → Option CollectionChangeBuilder
  | [] => some change
  | i :: is =>
    if change.modifications.contains i then markModified list objectDidChange change is
    else list[i]?.bind fun key =>
      if objectDidChange key then
        markModified list objectDidChange
          { change with modifications := change.modifications.add i } is
      else markModified list objectDidChange change is

/-- The size the list had and the changes gathered from the log; the list is none once it is
deleted. -/
def run (isObject : Bool) (list : Option (List ℤ)) (objectDidChange : ℤ → Bool)
    (prevSize : ℕ) (change : CollectionChangeBuilder) : Option (ℕ × CollectionChangeBuilder) :=
  match list with
  | none =>
    some (0, if prevSize ≠ 0 then { change with deletions := IndexSet.set prevSize } else {})
  | some list =>
    if isObject then
      (markModified list objectDidChange change (List.range list.length)).bind fun change =>
        (markModified list objectDidChange change (change.moves.map Move.toIndex)).map fun change =>
          (list.length, change)
    else some (list.length, change)

end ListNotifier

/-! ## Notifiers of results -/

namespace ResultsNotifier

/-- Only a notifier that has run and has callbacks finds the changes; the rows found are kept. -/
def calculateChanges (std : StdSort) (n : CollectionNotifier) (previousRows nextRows : List ℤ)
    (keyDidChange : ℤ → Bool) (inTableOrder : Bool) : Option CollectionNotifier :=
  if n.hasRun && n.haveCallbacks then
    (CollectionChangeBuilder.calculate std previousRows nextRows keyDidChange inTableOrder).map
      fun change => { n with change := change }
  else some n

/-- The rows found by the query, or none if its table was deleted. -/
def run (std : StdSort) (n : CollectionNotifier) (previousRows : List ℤ) (rows : Option (List ℤ))
    (keyDidChange : ℤ → Bool) (inTableOrder : Bool) : Option (List ℤ × CollectionNotifier) :=
  match rows with
  | none =>
    some ([], { n with change := { deletions := IndexSet.set previousRows.length } })
  | some rows =>
    (calculateChanges std n previousRows rows keyDidChange inTableOrder).map fun n => (rows, n)

end ResultsNotifier

/-! ## Notifiers of a list's results -/

namespace ListResultsNotifier

/-- Where rows of the list are now; one that was deleted has the key -1, which is `npos`. -/
def updateIndices (change : CollectionChangeBuilder) (rows : List ℕ) : List ℤ :=
  if !change.insertions.isEmpty || !change.deletions.isEmpty then
    rows.map fun row =>
      if change.deletions.contains row then -1
      else change.insertions.shift (change.deletions.unshift row)
  else rows.map fun row : ℕ => (row : ℤ)

/-- A list that is sorted, or without the rows that are there already, is compared with what it was;
of any other the changes from the log are left. -/
def calculateChanges (std : StdSort) (n : CollectionNotifier) (filtered : Bool)
    (previousIndices runIndices : List ℕ) : Option CollectionNotifier :=
  if n.hasRun && n.haveCallbacks && filtered then
    (CollectionChangeBuilder.calculate std (updateIndices n.change previousIndices)
      (runIndices.map fun row : ℕ => (row : ℤ))
      (fun key => n.change.modificationsNew.contains (key % 2 ^ 64).toNat) false).map
        fun change => { n with change := change }
  else some n

/-- The list's indices in order, or none once it is deleted. -/
def run (std : StdSort) (n : CollectionNotifier) (filtered : Bool) (previousIndices : List ℕ)
    (indices : Option (List ℕ)) : Option (List ℕ × CollectionNotifier) :=
  match indices with
  | none =>
    some ([], { n with change := { deletions := IndexSet.set previousIndices.length } })
  | some indices =>
    (calculateChanges std n filtered previousIndices indices).map fun n => (indices, n)

end ListResultsNotifier

end IosLearning
