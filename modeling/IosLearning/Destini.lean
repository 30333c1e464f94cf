import IosLearning.Base.Dispatch

/-!
# Destini

A tap moves the model to another story at once; the label and the two buttons follow in a
closure that runs `updateUi` 0.2 s later. The model is told the text of the tapped button, not
which button it was. The table of stories is a parameter; an index out of bounds traps. Texts are
shown and compared with `==`, no more: two texts that `==` takes for equal, being canonically
equivalent, are one `String` here.
-/

namespace IosLearning

namespace Destini

structure Story where
  title : String
  choice1 : String
  choice1Destination : ℤ
  choice2 : String
  choice2Destination : ℤ
  deriving DecidableEq

/-- The model's variable; its constant `stories` is a parameter of what reads it. -/
structure StoryBrain where
  currentStoryIndex : ℤ := 0
  deriving DecidableEq

namespace StoryBrain

variable (stories : List Story)

def getCurrentStory (m : StoryBrain) : Option Story :=
  if 0 ≤ m.currentStoryIndex then stories[m.currentStoryIndex.toNat]? else none

def choiceSelected (choiceText : String) (m : StoryBrain) : Option StoryBrain :=
  (m.getCurrentStory stories).map fun currentStory =>
    if choiceText = currentStory.choice1 then ⟨currentStory.choice1Destination⟩
    else ⟨currentStory.choice2Destination⟩

def getCurrentStoryTitle (m : StoryBrain) : Option String :=
  (m.getCurrentStory stories).map Story.title

def getCurrentStoryChoice1 (m : StoryBrain) : Option String :=
  (m.getCurrentStory stories).map Story.choice1

def getCurrentStoryChoice2 (m : StoryBrain) : Option String :=
  (m.getCurrentStory stories).map Story.choice2

/-- The stories the app ships with. -/
def shipped : List Story :=
  [⟨"Your car has blown a tire on a winding road in the middle of nowhere with no cell phone reception. You decide to hitchhike. A rusty pickup truck rumbles to a stop next to you. A man with a wide brimmed hat with soulless eyes opens the passenger door for you and asks: 'Need a ride, boy?'.",
      "I'll hop in. Thanks for the help!", 2,
      "Better ask him if he's a murderer first.", 1⟩,
    ⟨"He nods slowly, unfazed by the question.",
      "At least he's honest. I'll climb in.", 2,
      "Wait, I know how to change a tire.", 3⟩,
    ⟨"As you begin to drive, the stranger starts talking about his relationship with his mother. He gets angrier and angrier by the minute. He asks you to open the glovebox. Inside you find a bloody knife, two severed fingers, and a cassette tape of Elton John. He reaches for the glove box.",
      "I love Elton John! Hand him the cassette tape.", 5,
      "It's him or me! You take the knife and stab him.", 4⟩,
    ⟨"What? Such a cop out! Did you know traffic accidents are the second leading cause of accidental death for most adult age groups?",
      "The", 0, "End", 0⟩,
    ⟨"As you smash through the guardrail and careen towards the jagged rocks below you reflect on the dubious wisdom of stabbing someone while they are driving a car you are in.",
      "The", 0, "End", 0⟩,
    ⟨"You bond with the murderer while crooning verses of 'Can you feel the love tonight'. He drops you off at the next town. Before you go he asks you if you know any good places to dump bodies. You reply: 'Try the pier.'",
      "The", 0, "End", 0⟩]

end StoryBrain

inductive ChoiceButton where
  | choice1Button
  | choice2Button
  deriving DecidableEq

/-- The one closure the controller hands over. -/
inductive Delayed where
  | updateUi
  deriving DecidableEq

structure ViewController where
  storyBrain : StoryBrain
  storyLabel : String
  currentTitle : ChoiceButton → String

namespace ViewController

variable (stories : List Story)

/-- The controller as the storyboard builds it. -/
def storyboard : ViewController where
  storyBrain := {}
  storyLabel := "Story Text"
  currentTitle
    | .choice1Button => "Choice 1"
    | .choice2Button => "Choice 2"

def updateUi (c : ViewController) : Option ViewController := do
  let title ← c.storyBrain.getCurrentStoryTitle stories
  let choice1 ← c.storyBrain.getCurrentStoryChoice1 stories
  let choice2 ← c.storyBrain.getCurrentStoryChoice2 stories
  return { c with
    storyLabel := title
    currentTitle := fun
      | .choice1Button => choice1
      | .choice2Button => choice2 }

def viewDidLoad : Option ViewController := storyboard.updateUi stories

def choiceSelected (sender : ChoiceButton) (c : ViewController) :
    Option (ViewController × List Delayed) := do
  let choiceText := c.currentTitle sender
  let storyBrain ← c.storyBrain.choiceSelected stories choiceText
  return ({ c with storyBrain }, [.updateUi])

end ViewController

/-- The story screen: taps and the updates they hand over. -/
def screen (stories : List Story) : Screen ViewController ChoiceButton Delayed where
  load := (ViewController.viewDidLoad stories).map (·, [])
  onEvent c b := c.choiceSelected stories b
  onFire c
    | .updateUi => (c.updateUi stories).map (·, [])

def machine (stories : List Story) : Machine (World ViewController Delayed) (Input ChoiceButton) :=
  (screen stories).machine

end Destini

end IosLearning
