import IosLearning.Base.Dispatch
import Mathlib.Data.Rat.Defs
import Mathlib.Logic.Function.Basic

/-!
# Quizzler

A tap on one of the three buttons is judged at once against the current question and scored; the
question changes one second later, in a closure that every tap hands over. Numbers are exact:
`Int` is `ℕ` (nothing here is negative) and `Float` is `ℚ`. Texts are shown and compared with
`==`, no more: two texts that `==` takes for equal, being canonically equivalent, are one `String`
here. An index out of bounds and a remainder by zero trap.
-/

namespace IosLearning

namespace Quizzler

structure Question where
  text : String
  answers : List String
  answer : String
  deriving DecidableEq

/-- The model's variables; its constant `quiz` is a parameter of what reads it. -/
structure QuizBrain where
  questionnumber : ℕ := 0
  score : ℕ := 0
  deriving DecidableEq

namespace QuizBrain

variable (quiz : List Question)

def incQuestionNumber (m : QuizBrain) : Option QuizBrain :=
  if quiz.length = 0 then none
  else
    let questionnumber := (m.questionnumber + 1) % quiz.length
    some ⟨questionnumber, if questionnumber = 0 then 0 else m.score⟩

def getCurrentQuestion (m : QuizBrain) : Option Question := quiz[m.questionnumber]?

def getOptions (m : QuizBrain) : Option (List String) :=
  quiz[m.questionnumber]?.map Question.answers

def getCompletionRatio (m : QuizBrain) : ℚ := ((m.questionnumber + 1 : ℕ) : ℚ) / (quiz.length : ℚ)

/-- Whether the answer is right, and the model with the point added if it is. -/
def checkAnswer (answer : String) (m : QuizBrain) : Option (Bool × QuizBrain) :=
  (m.getCurrentQuestion quiz).map fun q =>
    if q.answer = answer then (true, { m with score := m.score + 1 }) else (false, m)

def getQuestionText (m : QuizBrain) : Option String :=
  (m.getCurrentQuestion quiz).map Question.text

def getCurrentScore (m : QuizBrain) : ℕ := m.score

/-- The quiz the app ships with. -/
def shipped : List Question :=
  [⟨"Which is the largest organ in the human body?", ["Heart", "Skin", "Large Intestine"],
      "Skin"⟩,
    ⟨"Five dollars is worth how many nickels?", ["25", "50", "100"], "100"⟩,
    ⟨"What do the letters in the GMT time zone stand for?",
      ["Global Meridian Time", "Greenwich Mean Time", "General Median Time"],
      "Greenwich Mean Time"⟩,
    ⟨"What is the French word for 'hat'?", ["Chapeau", "Écharpe", "Bonnet"], "Chapeau"⟩,
    ⟨"In past times, what would a gentleman keep in his fob pocket?",
      ["Notebook", "Handkerchief", "Watch"], "Watch"⟩,
    ⟨"How would one say goodbye in Spanish?", ["Au Revoir", "Adiós", "Salir"], "Adiós"⟩,
    ⟨"Which of these colours is NOT featured in the logo for Google?",
      ["Green", "Orange", "Blue"], "Orange"⟩,
    ⟨"What alcoholic drink is made from molasses?", ["Rum", "Whisky", "Gin"], "Rum"⟩,
    ⟨"What type of animal was Harambe?", ["Panda", "Gorilla", "Crocodile"], "Gorilla"⟩,
    ⟨"Where is Tasmania located?", ["Indonesia", "Australia", "Scotland"], "Australia"⟩]

end QuizBrain

inductive ChoiceButton where
  | buttonChoice1
  | buttonChoice2
  | buttonChoice3
  deriving DecidableEq

/-- The place of a button's title among a question's options. -/
def ChoiceButton.index : ChoiceButton → ℕ
  | .buttonChoice1 => 0
  | .buttonChoice2 => 1
  | .buttonChoice3 => 2

inductive UIColor where
  | clear
  | green
  | red
  deriving DecidableEq

/-- The one closure the controller hands over: the advance to the next question. -/
inductive Delayed where
  | advance
  deriving DecidableEq

structure ViewController where
  quizBrain : QuizBrain
  questionLabel : String
  scoreLabel : String
  progress : ℚ
  progressHidden : Bool
  currentTitle : ChoiceButton → String
  backgroundColor : ChoiceButton → Option UIColor

namespace ViewController

variable (quiz : List Question)

/-- The controller as the storyboard builds it. -/
def storyboard : ViewController where
  quizBrain := {}
  questionLabel := "Question Text"
  scoreLabel := "Label"
  progress := 1 / 2
  progressHidden := false
  currentTitle
    | .buttonChoice1 => "Choice 1"
    | .buttonChoice2 => "Choice 2"
    | .buttonChoice3 => "Choice 3"
  backgroundColor := fun _ => none

def resetButtonBg (c : ViewController) : ViewController :=
  { c with backgroundColor := fun _ => some .clear }

def setQuestionDisplay (c : ViewController) : Option ViewController := do
  let text ← c.quizBrain.getQuestionText quiz
  let answers ← c.quizBrain.getOptions quiz
  let title1 ← answers[0]?
  let title2 ← answers[1]?
  let title3 ← answers[2]?
  return { c with
    questionLabel := text
    progress := c.quizBrain.getCompletionRatio quiz
    currentTitle := fun
      | .buttonChoice1 => title1
      | .buttonChoice2 => title2
      | .buttonChoice3 => title3 }

/-- The controller and the closures handed over. -/
def updateUi (initCall : Bool) (c : ViewController) : Option (ViewController × List Delayed) :=
  let c := { c with scoreLabel := "Score: " ++ toString c.quizBrain.getCurrentScore }
  if initCall then (c.setQuestionDisplay quiz).map (·, []) else some (c, [.advance])

/-- The closure `updateUi` hands over. -/
def advance (c : ViewController) : Option ViewController := do
  let quizBrain ← c.quizBrain.incQuestionNumber quiz
  ({ c with quizBrain }.resetButtonBg).setQuestionDisplay quiz

def answerButtonPressed (sender : ChoiceButton) (c : ViewController) :
    Option (ViewController × List Delayed) := do
  let userAnswer := c.currentTitle sender
  let (correct, quizBrain) ← c.quizBrain.checkAnswer quiz userAnswer
  let color := if correct then UIColor.green else UIColor.red
  updateUi quiz false { c with
    quizBrain
    backgroundColor := Function.update c.backgroundColor sender (some color) }

def viewDidLoad : Option (ViewController × List Delayed) :=
  (updateUi quiz true storyboard).map fun r => ({ r.1 with progressHidden := false }, r.2)

end ViewController

/-- The quiz screen: taps and the advances they hand over. -/
def screen (quiz : List Question) : Screen ViewController ChoiceButton Delayed where
  load := ViewController.viewDidLoad quiz
  onEvent c b := c.answerButtonPressed quiz b
  onFire c
    | .advance => (c.advance quiz).map (·, [])

def machine (quiz : List Question) : Machine (World ViewController Delayed) (Input ChoiceButton) :=
  (screen quiz).machine

end Quizzler

end IosLearning
