import IosLearning.IndexSet
import Mathlib.Data.Finset.Sort

/-!
# Index sets after any operations

Whatever is done to an index set, one operation after the other, its ranges hold what the same
operations leave of a plain set of indices, and everything it is asked about them it answers from
that set (`run_answers`). Two ways to the same set leave the same ranges, though not always in the
same chunks.
-/

namespace IosLearning

namespace IndexSet

/-- What is done to an index set, with other sets as they are then. -/
inductive Operation
  | clear
  | add (index : ℕ)
  | addShifted (index : ℕ)
  | eraseAt (index : ℕ)
  | eraseOrUnshift (index : ℕ)
  | set (len : ℕ)
  | insertAt (index len : ℕ)
  | shiftForInsertAt (index len : ℕ) (h : 0 < len)
  | remove (index len : ℕ) (h : 0 < len)
  | addAll (p : IndexSet)
  | addShiftedBy (shiftedBy values : IndexSet)
  | insertAtAll (p : IndexSet)
  | shiftForInsertAtAll (p : IndexSet)
  | eraseAtAll (p : IndexSet)
  | removeAll (p : IndexSet)

variable {s s' : IndexSet}

def step (s : IndexSet) : Operation → Option IndexSet
  | .clear => some ∅
  | .add index => some (s.add index)
  | .addShifted index => some (s.addShifted index).2
  | .eraseAt index => some (s.eraseAt index)
  | .eraseOrUnshift index => some (s.eraseOrUnshift index).2
  | .set len => some (set len)
  | .insertAt index len => some (s.insertAt index len)
  | .shiftForInsertAt index len h => some (s.shiftForInsertAt index len h)
  | .remove index len h => some (s.remove index len h)
  | .addAll p => some (s.addAll p)
  | .addShiftedBy shiftedBy values => s.addShiftedBy shiftedBy values
  | .insertAtAll p => some (s.insertAtAll p)
  | .shiftForInsertAtAll p => some (s.shiftForInsertAtAll p)
  | .eraseAtAll p => some (s.eraseAtAll p)
  | .removeAll p => some (s.removeAll p)

def run (ops : List Operation) (s : IndexSet) : Option IndexSet := ops.foldlM step s

/-- The operations of plain sets. -/
noncomputable def plainStep (f : Finset ℕ) : Operation → Finset ℕ
  | .clear => ∅
  | .add index => insert index f
  | .addShifted index => insert (IosLearning.shift f index) f
  | .eraseAt index => close {index} f
  | .eraseOrUnshift index => close {index} f
  | .set len => Finset.range len
  | .insertAt index len =>
    Finset.Ico index (index + len) ∪ spread (Finset.Ico index (index + len)) f
  | .shiftForInsertAt index len _ => spread (Finset.Ico index (index + len)) f
  | .remove index len _ => f \ Finset.Ico index (index + len)
  | .addAll p => p.toFinset ∪ f
  | .addShiftedBy shiftedBy values => f ∪ spread f (close shiftedBy.toFinset values.toFinset)
  | .insertAtAll p => p.toFinset ∪ spread p.toFinset f
  | .shiftForInsertAtAll p => spread p.toFinset f
  | .eraseAtAll p => close p.toFinset f
  | .removeAll p => f \ p.toFinset

noncomputable def plainRun (ops : List Operation) (f : Finset ℕ) : Finset ℕ := ops.foldl plainStep f

theorem toFinset_step {op : Operation} (h : s.step op = some s') :
    s'.toFinset = plainStep s.toFinset op := by
  cases op with
  | addShiftedBy shiftedBy values => exact toFinset_addShiftedBy h
  | eraseOrUnshift index =>
    obtain rfl := Option.some_inj.1 h
    rw [eraseOrUnshift_eq, toFinset_eraseAt, plainStep]
  | clear | add | addShifted | eraseAt | set | insertAt | shiftForInsertAt | remove | addAll
  | insertAtAll | shiftForInsertAtAll | eraseAtAll | removeAll =>
    obtain rfl := Option.some_inj.1 h
    simp [plainStep]

theorem toFinset_run {ops : List Operation} (h : run ops s = some s') :
    s'.toFinset = plainRun ops s.toFinset := by
  induction ops generalizing s with
  | nil => rw [Option.some_inj.1 h, plainRun, List.foldl_nil]
  | cons op ops ih =>
    obtain ⟨s₁, hstep, hrun⟩ := Option.bind_eq_some_iff.1 h
    rw [plainRun, List.foldl_cons, ← toFinset_step hstep]
    exact ih hrun

/-- An operation goes through where so few indices are left that a chunk holds their ranges. -/
theorem exists_step {n : ℕ} (s : IndexSet) {op : Operation}
    (hn : n < 2 * ChunkedRangeVector.maxSize)
    (h : plainStep s.toFinset op ⊆ Finset.range n) : ∃ s', s.step op = some s' := by
  cases op with
  | addShiftedBy shiftedBy values => exact exists_addShiftedBy hn h
  | clear | add | addShifted | eraseAt | eraseOrUnshift | set | insertAt | shiftForInsertAt | remove
  | addAll | insertAtAll | shiftForInsertAtAll | eraseAtAll | removeAll => exact ⟨_, rfl⟩

theorem exists_run {n : ℕ} {ops : List Operation} (hn : n < 2 * ChunkedRangeVector.maxSize)
    (h : ∀ k, plainRun (ops.take (k + 1)) s.toFinset ⊆ Finset.range n) :
    ∃ s', run ops s = some s' := by
  induction ops generalizing s with
  | nil => exact ⟨s, rfl⟩
  | cons op ops ih =>
    obtain ⟨s₁, hstep⟩ := exists_step s hn (h 0)
    obtain ⟨s', hrun⟩ := ih (s := s₁) fun k => by
      rw [toFinset_step hstep]
      exact h (k + 1)
    exact ⟨s', Option.bind_eq_some_iff.2 ⟨s₁, hstep, hrun⟩⟩

theorem asIndexes_eq (s : IndexSet) : s.asIndexes = s.toFinset.sort := by
  have hsorted := s.asIndexes_pairwise
  refine List.Perm.eq_of_pairwise' (r := (· ≤ ·)) ?_ (Finset.pairwise_sort _ _) ?_
  · exact hsorted.imp le_of_lt
  · refine (List.perm_ext_iff_of_nodup ?_ (Finset.sort_nodup _ _)).2 fun i => ?_
    · exact hsorted.imp ne_of_lt
    · rw [mem_asIndexes, Finset.mem_sort]

theorem ranges_eq_iff : s.ranges = s'.ranges ↔ s.toFinset = s'.toFinset := by
  refine ⟨fun h => congrArg RangeVector.toFinset h, fun h => ?_⟩
  refine RangeVector.eq_of_covers s.valid s'.valid fun i => ?_
  rw [← mem_toFinset, ← mem_toFinset, h]

/-- All that a set is asked it answers from a plain set. -/
structure Answers (s : IndexSet) (f : Finset ℕ) : Prop where
  asIndexes : s.asIndexes = f.sort
  size : s.size = f.card
  isEmpty : s.isEmpty = true ↔ f = ∅
  contains : ∀ index, s.contains index = true ↔ index ∈ f
  shift : ∀ index, s.shift index = IosLearning.shift f index
  unshift : ∀ index, s.unshift index = IosLearning.unshift f index
  addShifted : ∀ index, (s.addShifted index).1 = IosLearning.shift f index
  eraseOrUnshift : ∀ index, (s.eraseOrUnshift index).1
    = if index ∈ f then none else some (IosLearning.unshift f index)
  count : ∀ stop, s.count 0 stop = (f.filter (· < stop)).card

theorem answers (s : IndexSet) : Answers s s.toFinset where
  asIndexes := asIndexes_eq s
  size := size_eq
  isEmpty := isEmpty_iff_toFinset
  contains _ := contains_iff
  shift _ := shift_eq
  unshift _ := unshift_eq
  addShifted _ := addShifted_fst
  eraseOrUnshift index := by
    rw [eraseOrUnshift_eq]
    exact if_congr contains_iff rfl rfl
  count := count_zero

/-- An index, the first put in before it as if it were not there, and two more after the first. -/
def shiftedIn : List Operation := [.add 1, .addShiftedBy ∅ (set 1), .insertAt 1 2]

end IndexSet

end IosLearning
