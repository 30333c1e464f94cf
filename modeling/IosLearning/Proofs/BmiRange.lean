import IosLearning.Bmi
import Mathlib.Tactic.GCongr

/-!
# The BMI over the range of the sliders

The height slider reaches zero, and there the quotient is an infinity or not a number. At every
other height it is a number, and the classification never gets lighter with more weight, nor with
less height, zero included (`bmi_finite_iff`).
-/

namespace IosLearning

namespace Bmi

/-- What a height and a weight are classified as. -/
def bmi (height : ℚ) (weight : ℤ) : BMI :=
  BMI.init ((Floating.rat weight).div (.rat (height ^ 2)))

/-- The categories in order, told by their advice. -/
def BMI.heaviness (b : BMI) : ℕ :=
  if b.advice = "Eat less pies!" then 2
  else if b.advice = "Fit as a fiddle!" then 1
  else 0

theorem calculateBmi_bmi (c : CalculateViewController) :
    c.calculateBmi.1.calculatorBrain.bmi
      = some (bmi c.heightSlider.value (truncate c.weightSlider.value)) := rfl

/-- Nothing is divided by zero, so that `b` classifies a number, and neither a greater weight nor
a smaller height, where there is some weight, is classified lighter. -/
structure FiniteMonotone (c : CalculateViewController) (b : BMI) : Prop where
  divisor : c.heightSlider.value ^ 2 ≠ 0
  finite : ∃ q, b.value = .rat q
  weight : ∀ (c' : CalculateViewController) (b' : BMI),
    c'.heightSlider.value = c.heightSlider.value →
    truncate c.weightSlider.value ≤ truncate c'.weightSlider.value →
    c'.calculateBmi.1.calculatorBrain.bmi = some b' → b.heaviness ≤ b'.heaviness
  height : ∀ (c' : CalculateViewController) (b' : BMI),
    c'.heightSlider.value ≤ c.heightSlider.value →
    truncate c'.weightSlider.value = truncate c.weightSlider.value →
    0 < truncate c.weightSlider.value →
    c'.calculateBmi.1.calculatorBrain.bmi = some b' → b.heaviness ≤ b'.heaviness

theorem init_value (v : Floating) : (BMI.init v).value = v := by
  unfold BMI.init
  split_ifs <;> rfl

theorem heaviness_rat (q : ℚ) :
    (BMI.init (.rat q)).heaviness = if 25 ≤ q then 2 else if 18.5 < q then 1 else 0 := by
  unfold BMI.init
  by_cases h1 : 25 ≤ q
  · simp [Floating.le, BMI.heaviness, h1]
  · by_cases h2 : 18.5 < q <;> simp [Floating.le, Floating.lt, BMI.heaviness, h1, h2]

theorem heaviness_rat_mono {p q : ℚ} (h : p ≤ q) :
    (BMI.init (.rat p)).heaviness ≤ (BMI.init (.rat q)).heaviness := by
  rw [heaviness_rat, heaviness_rat]
  split_ifs with h1 h2 h3 h4 h5 h6 <;> first | omega | linarith

theorem heaviness_le_two (b : BMI) : b.heaviness ≤ 2 := by
  unfold BMI.heaviness
  split_ifs <;> omega

theorem bmi_of_pos {h : ℚ} (hh : 0 < h) (w : ℤ) : bmi h w = BMI.init (.rat (w / h ^ 2)) := by
  unfold bmi
  rw [Floating.div_rat (pow_ne_zero 2 hh.ne')]

/-- At height zero any weight is in the heaviest category. -/
theorem heaviness_bmi_zero {w : ℤ} (hw : 0 < w) : (bmi 0 w).heaviness = 2 := by
  have hq : (w : ℚ) ≠ 0 := by exact_mod_cast hw.ne'
  have hn : ¬ (w : ℚ) < 0 := not_lt.2 (by exact_mod_cast hw.le)
  simp [bmi, BMI.init, Floating.div, Floating.le, BMI.heaviness, hq, hn]

theorem heaviness_mono_weight {h : ℚ} (hh : 0 < h) {w w' : ℤ} (hw : w ≤ w') :
    (bmi h w).heaviness ≤ (bmi h w').heaviness := by
  rw [bmi_of_pos hh, bmi_of_pos hh]
  refine heaviness_rat_mono ?_
  have : (w : ℚ) ≤ w' := by exact_mod_cast hw
  gcongr

theorem heaviness_mono_height {h h' : ℚ} (hh : 0 < h) (h0 : 0 ≤ h') (hle : h' ≤ h) {w : ℤ}
    (hw : 0 < w) : (bmi h w).heaviness ≤ (bmi h' w).heaviness := by
  rcases h0.eq_or_lt with rfl | hpos
  · rw [heaviness_bmi_zero hw]
    exact heaviness_le_two _
  · rw [bmi_of_pos hh, bmi_of_pos hpos]
    refine heaviness_rat_mono ?_
    have : (0 : ℚ) ≤ w := by exact_mod_cast hw.le
    gcongr

/-- For every position of the two sliders, the BMI is a quotient by what is not zero, a number,
classified monotonically, exactly when the height is positive. -/
theorem bmi_finite_iff (c : CalculateViewController) :
    (∃ b, c.calculateBmi.1.calculatorBrain.bmi = some b ∧ FiniteMonotone c b)
      ↔ 0 < c.heightSlider.value := by
  refine ⟨fun h => ?_, fun hh => ⟨_, calculateBmi_bmi c, pow_ne_zero 2 hh.ne', ?_, ?_, ?_⟩⟩
  · obtain ⟨b, -, hb⟩ := h
    exact lt_of_le_of_ne c.heightSlider.min_le fun h0 => hb.divisor (by rw [← h0]; norm_num)
  · rw [bmi_of_pos hh, init_value]
    exact ⟨_, rfl⟩
  · intro c' b' hheight hw hb'
    obtain rfl := Option.some.inj ((calculateBmi_bmi c').symm.trans hb')
    rw [hheight]
    exact heaviness_mono_weight hh hw
  · intro c' b' hle hw hpos hb'
    obtain rfl := Option.some.inj ((calculateBmi_bmi c').symm.trans hb')
    rw [hw]
    exact heaviness_mono_height hh c'.heightSlider.min_le hle hpos

/-- The left end of the height slider. -/
def leftEnd : UISlider 0 3 := ⟨0, le_rfl, by norm_num⟩

/-- With the height slider moved to its left end, and the weight where it was. -/
theorem zero_height_not_finite :
    let c := CalculateViewController.storyboard.heightSliderValueChanged leftEnd
    ¬ ∃ b, c.calculateBmi.1.calculatorBrain.bmi = some b ∧ FiniteMonotone c b := by
  rintro c ⟨b, -, hb⟩
  exact hb.divisor (by norm_num [c, CalculateViewController.heightSliderValueChanged, leftEnd])

end Bmi

end IosLearning
