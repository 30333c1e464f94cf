import IosLearning.Base.Dispatch
import Mathlib.Data.Rat.Defs

/-!
# EggTimer

A tap starts a cook unless one is going on; the cook is a chain of closures, each handing over
the next, that counts the seconds down. The table of cooking times is a parameter, a button is
its title, and `Float` is `ℚ`.
-/

namespace IosLearning

namespace EggTimer

/-- The closures the controller hands over. -/
inductive Delayed where
  /-- The first one of a cook, with the title of the button that was tapped. -/
  | start (buttonText : String)
  /-- The call of `showRemainingTime` a second later. -/
  | showRemainingTime (secsRemaining : ℤ)
  /-- The last one of a cook. -/
  | finish
  deriving DecidableEq

structure ViewController where
  title : String
  progress : ℚ
  progressBarHidden : Bool
  busyCooking : Bool
  currentCookingTime : ℤ
  deriving DecidableEq

namespace ViewController

def defaultTitleText : String := "How do you like your eggs?"

/-- The cooking times the app ships with. -/
def shippedEggTimes (buttonText : String) : Option ℤ :=
  [("Soft", 5), ("Medium", 7), ("Hard", 12)].lookup buttonText

/-- The controller as the storyboard and its initial values make it, with the bar hidden. -/
def viewDidLoad : ViewController where
  title := "How do you like your eggs?"
  progress := 1 / 2
  progressBarHidden := true
  busyCooking := false
  currentCookingTime := 0

def hardnessSelected (buttonText : String) (c : ViewController) : ViewController × List Delayed :=
  if c.busyCooking then (c, [])
  else
    ({ c with
        busyCooking := true
        title := "Starting to cook " ++ buttonText ++ " egg."
        progress := 0
        progressBarHidden := false },
      [.start buttonText])

def showRemainingTime (secsRemaining : ℤ) (c : ViewController) : ViewController × List Delayed :=
  if secsRemaining > 0 then
    ({ c with
        title := toString secsRemaining ++ " seconds remaining."
        progress := 1 - (secsRemaining : ℚ) / (c.currentCookingTime : ℚ) },
      [.showRemainingTime (secsRemaining - 1)])
  else
    ({ c with title := "Done", progress := 1 }, [.finish])

/-- The division `showRemainingTime` makes: the seconds that remain by the cooking time. -/
def division (secsRemaining : ℤ) (c : ViewController) : Option (ℤ × ℤ) :=
  if secsRemaining > 0 then some (secsRemaining, c.currentCookingTime) else none

theorem showRemainingTime_division {c : ViewController} {r s t : ℤ}
    (h : c.division r = some (s, t)) :
    (c.showRemainingTime r).1.currentCookingTime = t
      ∧ (c.showRemainingTime r).1.progress = 1 - (s : ℚ) / (t : ℚ) := by
  simp only [division, Option.ite_none_right_eq_some, Option.some.injEq, Prod.mk.injEq] at h
  obtain ⟨hr, rfl, rfl⟩ := h
  simp [showRemainingTime, hr]

/-- A call that does not divide is the last one. -/
theorem showRemainingTime_of_division {c : ViewController} {r : ℤ} (h : c.division r = none) :
    c.showRemainingTime r = ({ c with title := "Done", progress := 1 }, [.finish]) := by
  have hr : ¬ r > 0 := by simpa [division] using h
  rw [showRemainingTime, if_neg hr]

variable (eggTimes : String → Option ℤ)

/-- A closure that runs. The first of a cook traps where the title has no cooking time. -/
def runDelayed (c : ViewController) : Delayed → Option (ViewController × List Delayed)
  | .start buttonText => (eggTimes buttonText).map fun t =>
      let c := { c with currentCookingTime := t }
      c.showRemainingTime c.currentCookingTime
  | .showRemainingTime secsRemaining => some (c.showRemainingTime secsRemaining)
  | .finish => some
      ({ c with title := defaultTitleText, busyCooking := false, progressBarHidden := true }, [])

end ViewController

/-- The division a closure makes when it runs. -/
def Delayed.division (eggTimes : String → Option ℤ) (c : ViewController) :
    Delayed → Option (ℤ × ℤ)
  | .start b => (eggTimes b).bind fun t => { c with currentCookingTime := t }.division t
  | .showRemainingTime secsRemaining => c.division secsRemaining
  | .finish => none

/-- The timer screen: taps, each with the title of its button, and the closures of a cook. -/
def screen (eggTimes : String → Option ℤ) : Screen ViewController String Delayed where
  load := some (.viewDidLoad, [])
  onEvent c buttonText := some (c.hardnessSelected buttonText)
  onFire c d := c.runDelayed eggTimes d

def machine (eggTimes : String → Option ℤ) :
    Machine (World ViewController Delayed) (Input String) :=
  (screen eggTimes).machine

end EggTimer

end IosLearning
