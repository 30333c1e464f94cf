import Mathlib.Data.List.InsertIdx

/-!
# Table views

A table view draws its rows from a data source, which it asks for their number and then for each
cell. It keeps the cells it has drawn: they follow what they were drawn from only when the view
is reloaded, or is told which row to take out. It then asks for the number of rows again, and
traps where that is not one less.
-/

namespace IosLearning

variable {σ Cell α : Type*}

/-- What a table view asks for, of a state `σ`; a cell that cannot be drawn traps. -/
structure DataSource (σ Cell : Type*) where
  numberOfRows : σ → ℕ
  cellForRow : σ → ℕ → Option Cell

namespace DataSource

variable (D : DataSource σ Cell)

def reloadData (s : σ) : Option (List Cell) := (List.range (D.numberOfRows s)).mapM (D.cellForRow s)

def deleteRow (s : σ) (cells : List Cell) (i : ℕ) : Option (List Cell) :=
  if i < cells.length ∧ D.numberOfRows s + 1 = cells.length then some (cells.eraseIdx i) else none

/-- The data source lists `rows`, each drawn by `draw`. -/
structure Lists (rows : σ → List α) (draw : α → Cell) : Prop where
  numberOfRows : ∀ s, D.numberOfRows s = (rows s).length
  cellForRow : ∀ s i, D.cellForRow s i = ((rows s)[i]?).map draw

variable {D} {rows : σ → List α} {draw : α → Cell}

theorem mapM_range_getElem? (f : α → Cell) :
    ∀ l : List α, (List.range l.length).mapM (fun i => (l[i]?).map f) = some (l.map f)
  | [] => rfl
  | a :: l => by
    rw [List.length_cons, List.range_succ_eq_map, List.mapM_cons, List.mapM_map]
    have ih := mapM_range_getElem? f l
    simp only [List.getElem?_cons_zero, List.getElem?_cons_succ, Function.comp_def, ih]
    rfl

theorem Lists.reloadData (h : D.Lists rows draw) (s : σ) :
    D.reloadData s = some ((rows s).map draw) := by
  have hc : D.cellForRow s = fun i => ((rows s)[i]?).map draw := funext (h.cellForRow s)
  unfold DataSource.reloadData
  rw [h.numberOfRows, hc, mapM_range_getElem?]

/-- Where the data source has lost the row that is taken out, the view shows what is left. -/
theorem Lists.deleteRow (h : D.Lists rows draw) {s s' : σ} {i : ℕ} (hi : i < (rows s).length)
    (hs : rows s' = (rows s).eraseIdx i) :
    D.deleteRow s' ((rows s).map draw) i = some ((rows s').map draw) := by
  have hn : D.numberOfRows s' + 1 = ((rows s).map draw).length := by
    rw [h.numberOfRows, hs, List.length_map, List.length_eraseIdx_of_lt hi]
    omega
  unfold DataSource.deleteRow
  rw [if_pos ⟨by rwa [List.length_map], hn⟩, hs, List.eraseIdx_map]

end DataSource

end IosLearning
