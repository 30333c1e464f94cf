import IosLearning.Base.Decimal
import IosLearning.Proofs.QuizzlerScreen

/-!
# The score on screen

A tap writes the score and its label together. The advance that wraps the quiz around writes the
score alone, so the label is right in a whole run exactly when every round ends with no points
(`score_label_iff`).
-/

namespace IosLearning

namespace Quizzler

variable {quiz : List Question}

/-- The label shows the model's score. -/
def ScoreShown (_ : List (Input ChoiceButton)) (w : World ViewController Delayed) : Prop :=
  w.state.scoreLabel = "Score: " ++ toString w.state.quizBrain.getCurrentScore

variable (quiz) in
/-- The input is not an advance from the last question with points to reset. -/
def ResetsNothing (_ : List (Input ChoiceButton)) (w : World ViewController Delayed) :
    Input ChoiceButton → Prop
  | .event _ => True
  | .fire k => k < w.pending.length → w.state.quizBrain.questionnumber + 1 = quiz.length →
      w.state.quizBrain.score = 0

theorem scoreText_inj {m n : ℕ} : "Score: " ++ toString m = "Score: " ++ toString n ↔ m = n := by
  rw [String.append_right_inj, toString_inj]

theorem Displays.three_le {c : ViewController} {q : Question} (h : Displays quiz c q) :
    3 ≤ q.answers.length := by
  have h2 := h.title .buttonChoice3
  exact (List.getElem?_eq_some_iff.1 h2).1

section Runs

variable {is : List (Input ChoiceButton)} {w w' : World ViewController Delayed}

theorem run_questionnumber_lt (h : (machine quiz).run is = some w) :
    w.state.quizBrain.questionnumber < quiz.length := by
  obtain ⟨q, hd, -⟩ := run_displays h
  exact (List.getElem?_eq_some_iff.1 hd.current).1

/-- A run that has begun can always wrap around: the first question has been on screen. -/
theorem exists_advance_last (h : (machine quiz).run is = some w)
    (hl : w.state.quizBrain.questionnumber + 1 = quiz.length) :
    ∃ c', w.state.advance quiz = some c' := by
  obtain ⟨w₀, hw₀, -⟩ := Option.bind_eq_some_iff.1 h
  obtain ⟨hm, -, -, ⟨q, hd⟩, -⟩ := viewDidLoad_spec (Screen.start_eq_some.1 hw₀)
  have hq : quiz[(w.state.quizBrain.questionnumber + 1) % quiz.length]? = some q := by
    have h0 := hd.current
    rw [hm] at h0
    rw [hl, Nat.mod_self]
    exact h0
  exact exists_advance_of (by omega) hq hd.three_le

theorem scoreShown_start (h : (machine quiz).start = some w) : ScoreShown [] w := by
  obtain ⟨hm, hl, -, -, -⟩ := viewDidLoad_spec (Screen.start_eq_some.1 h)
  rw [ScoreShown, hl, hm]
  rfl

theorem ScoreShown.step {i : Input ChoiceButton} (hr : (machine quiz).run is = some w)
    (h : ScoreShown is w) (hi : ResetsNothing quiz is w i)
    (hst : (machine quiz).step w i = some w') : ScoreShown (is ++ [i]) w' := by
  rcases step_cases hst with ⟨b, q, rfl, -, rfl⟩ | ⟨k, rfl, hk, ha, -⟩
  · rfl
  · have hs : w'.state.quizBrain.score = w.state.quizBrain.score := by
      rcases Nat.lt_or_eq_of_le (run_questionnumber_lt hr) with hlt | hl
      · exact ha.score_of_lt hlt
      · rw [ha.score_of_last hl, hi hk hl]
    unfold ScoreShown QuizBrain.getCurrentScore at h ⊢
    rw [ha.scoreLabel, h, hs]

/-- A reset is not shown. -/
theorem reset_not_shown {i : Input ChoiceButton} (hr : (machine quiz).run is = some w)
    (h : ScoreShown is w) (hi : ¬ ResetsNothing quiz is w i) :
    ∃ w', (machine quiz).step w i = some w' ∧ ¬ ScoreShown (is ++ [i]) w' := by
  rcases i with b | k
  · exact absurd trivial hi
  · simp only [ResetsNothing, not_forall] at hi
    obtain ⟨hk, hl, hs⟩ := hi
    obtain ⟨c', hc'⟩ := exists_advance_last hr hl
    have ha := advance_spec hc'
    refine ⟨⟨c', w.pending.eraseIdx k⟩, step_advance.2 ⟨hk, hc', rfl⟩, fun h' => ?_⟩
    unfold ScoreShown QuizBrain.getCurrentScore at h h'
    rw [ha.scoreLabel, h, ha.score_of_last hl, scoreText_inj] at h'
    exact hs h'

/-- In a run the label shows the score in every state between events exactly when no advance
wraps the quiz around while there are points. -/
theorem score_label_iff (quiz : List Question) (is : List (Input ChoiceButton)) :
    (machine quiz).Always ScoreShown is ↔ (machine quiz).Along (ResetsNothing quiz) is :=
  Machine.always_iff_along (fun _ => scoreShown_start)
    (fun _ _ _ _ hr hs hi hst => hs.step hr hi hst)
    (fun _ _ _ hr hs hi => reset_not_shown hr hs hi) is

/-- The middle button on each question of a round: six points, and their label stays when the
quiz begins anew. -/
def middleRound : List (Input ChoiceButton) :=
  (List.replicate 10 [.event .buttonChoice2, .fire 0]).flatten

theorem label_after_round :
    QuizBrain.shipped ≠ [] ∧ ¬ (machine QuizBrain.shipped).Always ScoreShown middleRound := by
  refine ⟨shipped_ne_nil, fun h => ?_⟩
  have hw : ∃ w, (machine QuizBrain.shipped).run middleRound = some w
      ∧ w.state.scoreLabel = "Score: 6" ∧ w.state.quizBrain = ⟨0, 0⟩ := ⟨_, rfl, rfl, rfl⟩
  obtain ⟨w, hr, hl, hm⟩ := hw
  have hs := h _ w List.prefix_rfl hr
  rw [ScoreShown, hl, hm] at hs
  exact absurd hs (by decide)

end Runs

end Quizzler

end IosLearning
