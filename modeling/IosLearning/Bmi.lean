import IosLearning.Base.Controls
import IosLearning.Base.Floating

/-!
# BMI Calculator

Two sliders give a height and a weight, the weight truncated to whole kilograms; the quotient is
classified as it is and shown with two decimals. `Float` is `Floating`, and `ℚ` where only
rationals occur.
-/

namespace IosLearning

namespace Bmi

structure UIColor where
  red : ℚ
  green : ℚ
  blue : ℚ
  alpha : ℚ
  deriving DecidableEq

structure BMI where
  value : Floating
  advice : String
  color : UIColor
  deriving DecidableEq

def BMI.init (bmiValue : Floating) : BMI :=
  if Floating.le (.rat 25) bmiValue then
    ⟨bmiValue, "Eat less pies!", ⟨0.6145051122, 0.1419887841, 0.1185588911, 1⟩⟩
  else if Floating.lt (.rat 18.5) bmiValue then
    ⟨bmiValue, "Fit as a fiddle!", ⟨0.9529411793, 0.6862745285, 0.1333333403, 1⟩⟩
  else
    ⟨bmiValue, "Eat more pies!", ⟨0.1764705926, 0.4980392158, 0.7568627596, 1⟩⟩

structure CalculatorBrain where
  bmi : Option BMI := none
  deriving DecidableEq

namespace CalculatorBrain

def calculateBMI (height : ℚ) (weight : ℤ) (m : CalculatorBrain) : CalculatorBrain :=
  let bmiVal := (Floating.rat weight).div (.rat (height ^ 2))
  { m with bmi := some (BMI.init bmiVal) }

end CalculatorBrain

structure ResultViewController where
  bmi : Option BMI := none
  bmiLabel : String := "19.5"
  adviceLabel : Option String := some "EAT SOME MORE SNACKS!"
  backgroundColor : Option UIColor := none
  deriving DecidableEq

def ResultViewController.viewDidLoad (r : ResultViewController) : ResultViewController :=
  { r with
    bmiLabel := ((r.bmi.map BMI.value).getD (.rat 0)).text 2
    adviceLabel := r.bmi.map BMI.advice
    backgroundColor := r.bmi.map BMI.color }

structure CalculateViewController where
  heightLabel : String
  weightLabelValue : String
  heightSlider : UISlider 0 3
  weightSlider : UISlider 0 200
  calculatorBrain : CalculatorBrain

namespace CalculateViewController

/-- The controller as the storyboard builds it. -/
def storyboard : CalculateViewController where
  heightLabel := "1.5m"
  weightLabelValue := "100Kg"
  heightSlider := ⟨1.5, by norm_num, by norm_num⟩
  weightSlider := ⟨100, by norm_num, by norm_num⟩
  calculatorBrain := {}

def heightSliderValueChanged (sender : UISlider 0 3) (c : CalculateViewController) :
    CalculateViewController :=
  { c with heightSlider := sender, heightLabel := fixed 2 sender.value ++ "m" }

/-- The result screen with what it is handed. -/
def prepare (c : CalculateViewController) : ResultViewController where
  bmi := c.calculatorBrain.bmi

/-- The controller, and the result screen it presents. -/
def calculateBmi (c : CalculateViewController) : CalculateViewController × ResultViewController :=
  let height := c.heightSlider.value
  let weight := c.weightSlider.value
  let c := { c with
    calculatorBrain := c.calculatorBrain.calculateBMI height (truncate weight) }
  (c, c.prepare.viewDidLoad)

end CalculateViewController

end Bmi

end IosLearning
