import IosLearning.Proofs.BmiRange

/-!
# The advice under the number

The result screen rounds the number it shows, and the advice is that of the number itself. So two
measurements shown alike get the same advice unless one is on either side of a boundary and both
are within half a hundredth of it (`same_text_iff`).
-/

namespace IosLearning

namespace Bmi

structure Measurement where
  height : ℚ
  weight : ℤ
  height_pos : 0 < height

namespace Measurement

/-- The result screen for a measurement. -/
def shown (m : Measurement) : ResultViewController :=
  ResultViewController.viewDidLoad
    { bmi := (CalculatorBrain.calculateBMI m.height m.weight {}).bmi }

def quotient (m : Measurement) : ℚ := m.weight / m.height ^ 2

theorem calculateBMI_eq (m : Measurement) :
    (CalculatorBrain.calculateBMI m.height m.weight {}).bmi
      = some (BMI.init (.rat m.quotient)) :=
  congrArg some (bmi_of_pos m.height_pos m.weight)

theorem shown_bmiLabel (m : Measurement) : m.shown.bmiLabel = fixed 2 m.quotient := by
  unfold shown ResultViewController.viewDidLoad
  rw [calculateBMI_eq]
  simp [init_value, Floating.text]

theorem shown_adviceLabel (m : Measurement) :
    m.shown.adviceLabel = some (BMI.init (.rat m.quotient)).advice := by
  unfold shown ResultViewController.viewDidLoad
  rw [calculateBMI_eq]
  rfl

theorem shown_backgroundColor (m : Measurement) :
    m.shown.backgroundColor = some (BMI.init (.rat m.quotient)).color := by
  unfold shown ResultViewController.viewDidLoad
  rw [calculateBMI_eq]
  rfl

/-- The first is below a boundary and the second above it, both within half a hundredth of it:
a BMI of 25 counts as above and one of 18.5 as below. -/
def Straddle (m m' : Measurement) : Prop :=
  (24.995 * m.height ^ 2 ≤ m.weight ∧ m.weight < 25 * m.height ^ 2
      ∧ 25 * m'.height ^ 2 ≤ m'.weight ∧ m'.weight ≤ 25.005 * m'.height ^ 2)
    ∨ (18.495 * m.height ^ 2 ≤ m.weight ∧ m.weight ≤ 18.5 * m.height ^ 2
      ∧ 18.5 * m'.height ^ 2 < m'.weight ∧ m'.weight ≤ 18.505 * m'.height ^ 2)

theorem straddle_iff (m m' : Measurement) : m.Straddle m' ↔
    (24.995 ≤ m.quotient ∧ m.quotient < 25 ∧ 25 ≤ m'.quotient ∧ m'.quotient ≤ 25.005)
      ∨ (18.495 ≤ m.quotient ∧ m.quotient ≤ 18.5
        ∧ 18.5 < m'.quotient ∧ m'.quotient ≤ 18.505) := by
  have h := pow_pos m.height_pos 2
  have h' := pow_pos m'.height_pos 2
  unfold Straddle quotient
  simp only [le_div_iff₀ h, div_le_iff₀ h, div_lt_iff₀ h, le_div_iff₀ h', div_le_iff₀ h',
    lt_div_iff₀ h']

end Measurement

/-- The advice and the color tell the category. -/
theorem advice_color_iff {p q : ℚ} :
    ((BMI.init (.rat p)).advice = (BMI.init (.rat q)).advice
        ∧ (BMI.init (.rat p)).color = (BMI.init (.rat q)).color)
      ↔ (BMI.init (.rat p)).heaviness = (BMI.init (.rat q)).heaviness := by
  refine ⟨fun h => ?_, fun h => ?_⟩
  · unfold BMI.heaviness
    rw [h.1]
  · rw [heaviness_rat, heaviness_rat] at h
    simp only [BMI.init, Floating.le, Floating.lt, decide_eq_true_eq]
    split_ifs at h ⊢ <;> first | omega | exact ⟨rfl, rfl⟩

/-- For two numbers in order. -/
theorem same_text_of_le {p q : ℚ} (hle : p ≤ q) :
    (fixed 2 p = fixed 2 q →
        (BMI.init (.rat p)).heaviness = (BMI.init (.rat q)).heaviness)
      ↔ ¬ ((24.995 ≤ p ∧ p < 25 ∧ 25 ≤ q ∧ q ≤ 25.005)
        ∨ (18.495 ≤ p ∧ p ≤ 18.5 ∧ 18.5 < q ∧ q ≤ 18.505)) := by
  have h25 : p ≤ 25 → 25 ≤ q → (fixed 2 p = fixed 2 q ↔ 24.995 ≤ p ∧ q ≤ 25.005) := by
    intro hp hq
    rw [fixed_eq_iff_within (m := 2500) (by omega) (by omega) (by omega)
      (by push_cast; linarith) (by push_cast; linarith)]
    push_cast
    constructor <;> rintro ⟨h1, h2⟩ <;> constructor <;> linarith
  have h18 : p ≤ 18.5 → 18.5 ≤ q → (fixed 2 p = fixed 2 q ↔ 18.495 ≤ p ∧ q ≤ 18.505) := by
    intro hp hq
    rw [fixed_eq_iff_within (m := 1850) (by omega) (by omega) (by omega)
      (by push_cast; linarith) (by push_cast; linarith)]
    push_cast
    constructor <;> rintro ⟨h1, h2⟩ <;> constructor <;> linarith
  rw [heaviness_rat, heaviness_rat]
  refine ⟨fun h hs => ?_, fun h ht => ?_⟩
  · rcases hs with ⟨h1, h2, h3, h4⟩ | ⟨h1, h2, h3, h4⟩
    · have he := h ((h25 h2.le h3).2 ⟨h1, h4⟩)
      rw [if_neg (not_le.2 h2), if_pos h3] at he
      split_ifs at he
      omega
    · have he := h ((h18 h2 h3.le).2 ⟨h1, h4⟩)
      rw [if_neg (by linarith), if_neg (by linarith), if_neg (by linarith), if_pos h3] at he
      omega
  · by_contra hne
    by_cases hq : 25 ≤ q
    · by_cases hp : 25 ≤ p
      · exact hne (by rw [if_pos hp, if_pos hq])
      · obtain ⟨h1, h2⟩ := (h25 (not_le.1 hp).le hq).1 ht
        exact h (.inl ⟨h1, not_le.1 hp, hq, h2⟩)
    · have hp : ¬ 25 ≤ p := fun hp => hq (hp.trans hle)
      rw [if_neg hp, if_neg hq] at hne
      by_cases hq' : 18.5 < q
      · by_cases hp' : 18.5 < p
        · exact hne (by rw [if_pos hp', if_pos hq'])
        · obtain ⟨h1, h2⟩ := (h18 (not_lt.1 hp') hq'.le).1 ht
          exact h (.inr ⟨h1, not_lt.1 hp', hq', h2⟩)
      · exact hne (by rw [if_neg (fun hp' => hq' (hp'.trans_le hle)), if_neg hq'])

/-- Two measurements shown with the same text are shown with the same advice and color exactly
where they do not straddle a boundary. -/
theorem same_text_iff (m m' : Measurement) :
    (m.shown.bmiLabel = m'.shown.bmiLabel →
        m.shown.adviceLabel = m'.shown.adviceLabel
          ∧ m.shown.backgroundColor = m'.shown.backgroundColor)
      ↔ ¬ (m.Straddle m' ∨ m'.Straddle m) := by
  simp only [Measurement.shown_bmiLabel, Measurement.shown_adviceLabel,
    Measurement.shown_backgroundColor, Option.some.injEq, advice_color_iff,
    Measurement.straddle_iff]
  -- the greater of the two is not the first of a straddling pair
  have hno : ∀ p q : ℚ, p ≤ q → ¬ ((24.995 ≤ q ∧ q < 25 ∧ 25 ≤ p ∧ p ≤ 25.005)
      ∨ (18.495 ≤ q ∧ q ≤ 18.5 ∧ 18.5 < p ∧ p ≤ 18.505)) := by
    rintro p q hle (⟨-, h1, h2, -⟩ | ⟨-, h1, h2, -⟩) <;> linarith
  rcases le_total m.quotient m'.quotient with hle | hle
  · rw [same_text_of_le hle, or_iff_left (hno _ _ hle)]
  · rw [eq_comm (a := fixed 2 m.quotient), eq_comm (a := (BMI.init _).heaviness),
      same_text_of_le hle, or_iff_right (hno _ _ hle)]

/-- 100 kg at two metres. -/
def twoMetres : Measurement := ⟨2, 100, by norm_num⟩

/-- 100 kg at a tenth of a millimetre more. -/
def overTwoMetres : Measurement := ⟨2.0001, 100, by norm_num⟩

/-- 25.00 on both screens, fit on one. -/
theorem same_text_other_advice :
    twoMetres.shown.bmiLabel = overTwoMetres.shown.bmiLabel
      ∧ twoMetres.shown.adviceLabel ≠ overTwoMetres.shown.adviceLabel
      ∧ twoMetres.shown.backgroundColor ≠ overTwoMetres.shown.backgroundColor := by
  decide +kernel

end Bmi

end IosLearning
