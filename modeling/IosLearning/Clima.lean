import IosLearning.Base.Controls
import IosLearning.Base.Machine

/-!
# Clima

The search field: its text is sent off whenever an edit ends, and an edit is ended by the
keyboard's return key or by the search button. Of UIKit: ending the edit of a focused field fires
its `editingDidEnd` once, and of another does nothing; an edit begins with the text cleared; and
the return key is disabled while the text is empty. Of the weather manager there is what it was
asked for.
-/

namespace IosLearning

namespace Clima

/-- The cities the manager was asked for, in order. -/
structure WeatherManager where
  fetched : List String := []
  deriving DecidableEq

def WeatherManager.fetchWeather (cityName : String) (m : WeatherManager) : WeatherManager :=
  { m with fetched := m.fetched ++ [cityName] }

structure WeatherViewController where
  searchText : UITextField
  weatherManager : Option WeatherManager
  deriving DecidableEq

namespace WeatherViewController

/-- The controller as the storyboard builds it. -/
def storyboard : WeatherViewController where
  searchText := ⟨some "", false⟩
  weatherManager := none

def viewDidLoad (c : WeatherViewController) : WeatherViewController :=
  { c with weatherManager := some {} }

/-- Without a manager nothing is asked, and the field's text is not even looked at. -/
def searchTextEntered (c : WeatherViewController) : Option WeatherViewController := do
  let c ← match c.weatherManager with
    | some m => c.searchText.text.map fun cityName =>
      { c with weatherManager := some (m.fetchWeather cityName) }
    | none => some c
  return { c with searchText := { c.searchText with text := some "" } }

/-- `searchText.endEditing(true)`, with the `editingDidEnd` it fires. -/
def endEditing (c : WeatherViewController) : Option WeatherViewController :=
  if c.searchText.isEditing then
    { c with searchText := { c.searchText with isEditing := false } }.searchTextEntered
  else some c

def textFieldShouldClear (_ : WeatherViewController) : Bool := true

def textFieldShouldReturn (c : WeatherViewController) : Option (Bool × WeatherViewController) :=
  c.endEditing.map (true, ·)

def searchButtonPressed (c : WeatherViewController) : Option WeatherViewController := c.endEditing

end WeatherViewController

inductive Event where
  | beginEditing
  /-- The text is what it is after the typing. -/
  | type (text : String)
  | clear
  | returnKey
  | searchButton
  deriving DecidableEq

namespace WeatherViewController

def enabled (c : WeatherViewController) : Event → Bool
  | .beginEditing => !c.searchText.isEditing
  | .type _ | .clear => c.searchText.isEditing
  | .returnKey => c.searchText.isEditing && decide (c.searchText.text ≠ some "")
  | .searchButton => true

def handle (c : WeatherViewController) : Event → Option WeatherViewController
  | .beginEditing => some { c with searchText := ⟨some "", true⟩ }
  | .type text => some { c with searchText := { c.searchText with text := some text } }
  | .clear =>
    if c.textFieldShouldClear then
      some { c with searchText := { c.searchText with text := some "" } }
    else some c
  | .returnKey => c.textFieldShouldReturn.map Prod.snd
  | .searchButton => c.searchButtonPressed

end WeatherViewController

def machine : Machine WeatherViewController Event where
  start := some WeatherViewController.storyboard.viewDidLoad
  enabled := WeatherViewController.enabled
  handle := WeatherViewController.handle

end Clima

end IosLearning
