import IosLearning.Base.Dispatch

/-!
# Flash Chat's title animation

`titleText` is a stack of the characters still to be shown, the next one last. A closure pops
one, appends it to the label and hands over the next closure; it hands over none when it finds
the stack empty. Nothing takes back the closures of an earlier appearance. The title and what a
character is are parameters.
-/

namespace IosLearning

namespace FlashChat

variable {Character : Type*}

inductive Event where
  | viewWillAppear
  | viewWillDisappear
  deriving DecidableEq

/-- The one closure the controller hands over, in `postCharToTitle`. -/
inductive Delayed where
  | postNext
  deriving DecidableEq

structure WelcomeViewController (Character : Type*) where
  titleText : List Character
  titleLabel : Option (List Character)
  isNavigationBarHidden : Bool

namespace WelcomeViewController

def postCharToTitle (char : Option Character) (c : WelcomeViewController Character) :
    WelcomeViewController Character × List Delayed :=
  match char with
  | some ch => ({ c with titleLabel := c.titleLabel.map (· ++ [ch]) }, [.postNext])
  | none => (c, [.postNext])

/-- The closure of `postCharToTitle`. -/
def postNext (c : WelcomeViewController Character) :
    WelcomeViewController Character × List Delayed :=
  match c.titleText.getLast? with
  | some ch => postCharToTitle (some ch) { c with titleText := c.titleText.dropLast }
  | none => (c, [])

variable (title : List Character)

def showTitleAnimation (c : WelcomeViewController Character) :
    WelcomeViewController Character × List Delayed :=
  postCharToTitle none { c with titleText := title.reverse, titleLabel := some [] }

def viewWillAppear (c : WelcomeViewController Character) :
    WelcomeViewController Character × List Delayed :=
  showTitleAnimation title { c with isNavigationBarHidden := true }

def viewWillDisappear (c : WelcomeViewController Character) :
    WelcomeViewController Character × List Delayed :=
  ({ c with isNavigationBarHidden := false }, [])

/-- The controller before it first appears; the storyboard's label is empty. -/
def viewDidLoad : WelcomeViewController Character where
  titleText := title.reverse
  titleLabel := some []
  isNavigationBarHidden := false

end WelcomeViewController

/-- The welcome screen: its appearances and the closures of their animations. -/
def screen (title : List Character) : Screen (WelcomeViewController Character) Event Delayed where
  load := some (.viewDidLoad title, [])
  onEvent c
    | .viewWillAppear => some (c.viewWillAppear title)
    | .viewWillDisappear => some c.viewWillDisappear
  onFire c
    | .postNext => some c.postNext

def machine (title : List Character) :
    Machine (World (WelcomeViewController Character) Delayed) (Input Event) :=
  (screen title).machine

end FlashChat

end IosLearning
