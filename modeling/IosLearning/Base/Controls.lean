import Mathlib.Algebra.Order.Field.Basic
import Mathlib.Data.Rat.Cast.Order
import Mathlib.Tactic.Linarith

/-!
# Controls that keep their value in range
-/

namespace IosLearning

/-- A slider: any value between its ends. -/
structure UISlider (minValue maxValue : ℚ) where
  value : ℚ
  min_le : minValue ≤ value
  le_max : value ≤ maxValue

structure UITextField where
  text : Option String
  isEditing : Bool
  deriving DecidableEq

/-- A stepper: its value moves by one at a time and stops at the ends. -/
structure UIStepper (minimumValue maximumValue : ℚ) where
  value : ℚ
  min_le : minimumValue ≤ value
  le_max : value ≤ maximumValue

namespace UIStepper

variable {lo hi : ℚ}

def stepUp (s : UIStepper lo hi) : UIStepper lo hi where
  value := min (s.value + 1) hi
  min_le := le_min (s.min_le.trans (by linarith)) (s.min_le.trans s.le_max)
  le_max := min_le_right _ _

def stepDown (s : UIStepper lo hi) : UIStepper lo hi where
  value := max (s.value - 1) lo
  min_le := le_max_right _ _
  le_max := max_le (le_trans (by linarith) s.le_max) (s.min_le.trans s.le_max)

/-- The value is a whole number. -/
def Whole (s : UIStepper lo hi) : Prop := ∃ n : ℤ, s.value = n

theorem Whole.stepUp {s : UIStepper lo hi} (h : s.Whole) (hhi : ∃ n : ℤ, hi = n) :
    s.stepUp.Whole := by
  obtain ⟨n, hn⟩ := h
  obtain ⟨m, hm⟩ := hhi
  refine ⟨min (n + 1) m, ?_⟩
  show min (s.value + 1) hi = _
  rw [hn, hm]
  push_cast
  rfl

theorem Whole.stepDown {s : UIStepper lo hi} (h : s.Whole) (hlo : ∃ n : ℤ, lo = n) :
    s.stepDown.Whole := by
  obtain ⟨n, hn⟩ := h
  obtain ⟨m, hm⟩ := hlo
  refine ⟨max (n - 1) m, ?_⟩
  show max (s.value - 1) lo = _
  rw [hn, hm]
  push_cast
  rfl

end UIStepper

end IosLearning
