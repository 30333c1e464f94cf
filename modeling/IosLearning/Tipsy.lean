import IosLearning.Base.Controls
import IosLearning.Base.Machine
import IosLearning.Base.Numeral
import Mathlib.Logic.Function.Basic

/-!
# Tipsy

The calculator reads its controls when the result is asked for and hands the result screen what
it computed; while that is presented, over the calculator, the only way on is back. Numbers are
exact: `Double` is `Floating`, and `ℚ` where only rationals occur.
-/

namespace IosLearning

namespace Tipsy

inductive PctButton where
  | zeroPctButton
  | tenPctButton
  | twentyPctButton
  deriving DecidableEq

structure ResultViewController where
  perPersonBill : Option Floating := none
  personCount : Option ℤ := none
  tipPct : Option ℚ := none
  totalLabel : String := "56.32"
  settingsLabel : String := "Split between 2 people, with 10% tip."
  deriving DecidableEq

/-- What was not handed over traps. -/
def ResultViewController.viewDidLoad (r : ResultViewController) : Option ResultViewController := do
  let perPersonBill ← r.perPersonBill
  let personCount ← r.personCount
  let tipPct ← r.tipPct
  return { r with
    totalLabel := perPersonBill.text 2
    settingsLabel := "Split between " ++ toString personCount ++ " people, with "
      ++ toString (truncate (tipPct * 100)) ++ "% tip." }

structure CalculatorViewController where
  billTextField : UITextField
  isSelected : PctButton → Bool
  splitNumberLabel : String
  personStepper : UIStepper 2 25

namespace CalculatorViewController

/-- The controller as the storyboard builds it. -/
def storyboard : CalculatorViewController where
  billTextField := ⟨some "", false⟩
  isSelected b := b = .tenPctButton
  splitNumberLabel := "2"
  personStepper := ⟨2, le_rfl, by norm_num⟩

def endEditing (c : CalculatorViewController) : CalculatorViewController :=
  { c with billTextField := { c.billTextField with isEditing := false } }

def unselectAllPctButtons (c : CalculatorViewController) : CalculatorViewController :=
  { c with isSelected := fun _ => false }

def tipChanged (sender : PctButton) (c : CalculatorViewController) : CalculatorViewController :=
  let c := c.unselectAllPctButtons.endEditing
  { c with isSelected := Function.update c.isSelected sender true }

def stepperValueChanged (c : CalculatorViewController) : CalculatorViewController := c.endEditing

def getTipPctValue (c : CalculatorViewController) : ℚ :=
  if c.isSelected .zeroPctButton then 0
  else if c.isSelected .tenPctButton then 1 / 10
  else 2 / 10

def getBillAmount (c : CalculatorViewController) : Floating :=
  match c.billTextField.text with
  | some billText => (Numeral.double billText).getD (.rat 0)
  | none => .rat 0

def getPersonCount (c : CalculatorViewController) : ℚ := c.personStepper.value

def getPerPersonBill (c : CalculatorViewController) : Floating :=
  (c.getBillAmount.mul (.rat (1 + c.getTipPctValue))).div (.rat c.getPersonCount)

/-- The result screen with what it is handed. -/
def prepare (c : CalculatorViewController) : ResultViewController where
  personCount := some (truncate c.getPersonCount)
  tipPct := some c.getTipPctValue
  perPersonBill := some c.getPerPersonBill

end CalculatorViewController

/-- The calculator and the result screen while it is presented. -/
structure App where
  calculator : CalculatorViewController
  presented : Option ResultViewController

inductive Event where
  | tipChanged (sender : PctButton)
  | stepUp
  | stepDown
  | billEdited (text : String)
  | calculatePressed
  | recalculatePressed
  deriving DecidableEq

namespace App

/-- A stepper at an end of its range offers no step beyond it. -/
def enabled (a : App) : Event → Bool
  | .recalculatePressed => a.presented.isSome
  | .stepUp => a.presented.isNone && decide (a.calculator.personStepper.value < 25)
  | .stepDown => a.presented.isNone && decide (2 < a.calculator.personStepper.value)
  | _ => a.presented.isNone

def handle (a : App) : Event → Option App
  | .tipChanged sender => some { a with calculator := a.calculator.tipChanged sender }
  | .stepUp =>
    let c := { a.calculator with personStepper := a.calculator.personStepper.stepUp }
    some { a with calculator := c.stepperValueChanged }
  | .stepDown =>
    let c := { a.calculator with personStepper := a.calculator.personStepper.stepDown }
    some { a with calculator := c.stepperValueChanged }
  | .billEdited text =>
    some { a with calculator := { a.calculator with billTextField := ⟨some text, true⟩ } }
  | .calculatePressed =>
    a.calculator.prepare.viewDidLoad.map fun r => { a with presented := some r }
  | .recalculatePressed => some { a with presented := none }

end App

def machine : Machine App Event where
  start := some ⟨.storyboard, none⟩
  enabled := App.enabled
  handle := App.handle

end Tipsy

end IosLearning
