import IosLearning.Proofs.QuizzlerScreen

/-!
# The quiz score

A right tap turns its button green until the next advance, and nothing keeps a second right tap
from being scored while it is green. A presentation adds one point when its first right tap is
its last, and then the score is at most the number of questions presented in the round
(`score_bounded_iff`).
-/

namespace IosLearning

namespace Quizzler

variable (quiz : List Question)

/-- The question on screen has added at most one point since it was put there, and the score is
at most the number of questions presented in this round, which is at most the quiz's. -/
def ScoreBounded (is : List (Input ChoiceButton)) (w : World ViewController Delayed) : Prop :=
  (∀ w₀, (machine quiz).run (Input.uptoFire is) = some w₀ →
      w.state.quizBrain.score ≤ w₀.state.quizBrain.score + 1)
    ∧ w.state.quizBrain.score ≤ w.state.quizBrain.questionnumber + 1
    ∧ w.state.quizBrain.questionnumber + 1 ≤ quiz.length

/-- Some button is green. -/
def ViewController.HasGreen (c : ViewController) : Prop :=
  ∃ b, c.backgroundColor b = some .green

instance (c : ViewController) : Decidable c.HasGreen :=
  decidable_of_iff (c.backgroundColor .buttonChoice1 = some .green
      ∨ c.backgroundColor .buttonChoice2 = some .green
      ∨ c.backgroundColor .buttonChoice3 = some .green) (by
    constructor
    · rintro (h | h | h) <;> exact ⟨_, h⟩
    · rintro ⟨b, h⟩
      cases b <;> simp [h])

/-- The input is not a tap on the right answer while a button is green. -/
def OneRightTap (_ : List (Input ChoiceButton)) (w : World ViewController Delayed) :
    Input ChoiceButton → Prop
  | .event b => ∀ q, quiz[w.state.quizBrain.questionnumber]? = some q →
      q.answer = w.state.currentTitle b → ¬ w.state.HasGreen
  | .fire _ => True

variable {quiz}

theorem hasGreen_pressed_right {c : ViewController} {q : Question} {b : ChoiceButton}
    (h : q.answer = c.currentTitle b) : (pressed q b c).HasGreen :=
  ⟨b, by simp [pressed, h]⟩

/-- A wrong tap colors no button green and leaves every green button green. -/
theorem hasGreen_pressed_wrong {is : List (Input ChoiceButton)} {c : ViewController}
    {q : Question} (hc : Colored is q c) {b : ChoiceButton} (h : q.answer ≠ c.currentTitle b) :
    (pressed q b c).HasGreen ↔ c.HasGreen := by
  have hb : c.backgroundColor b ≠ some .green := by
    have := hc b
    split_ifs at this
    · simp [this]
    · rcases this with this | this <;> simp [this]
  constructor
  · rintro ⟨b', hb'⟩
    by_cases he : b' = b
    · subst he
      simp [pressed, h] at hb'
    · exact ⟨b', by simpa [pressed, Function.update_of_ne he] using hb'⟩
  · rintro ⟨b', hb'⟩
    have he : b' ≠ b := fun he => hb (he ▸ hb')
    exact ⟨b', by simpa [pressed, Function.update_of_ne he] using hb'⟩

theorem Advanced.not_hasGreen {c c' : ViewController} (h : Advanced quiz c c') :
    ¬ c'.HasGreen := by
  rintro ⟨b, hb⟩
  simp [h.backgroundColor] at hb

theorem not_hasGreen_start {w : World ViewController Delayed}
    (h : (machine quiz).start = some w) : ¬ w.state.HasGreen := by
  obtain ⟨-, -, hc, -, -⟩ := viewDidLoad_spec (Screen.start_eq_some.1 h)
  rintro ⟨b, hb⟩
  simp [hc b] at hb

/-- A green button is a point the question on screen has added. -/
theorem run_green_scored {is : List (Input ChoiceButton)} {w : World ViewController Delayed}
    (h : (machine quiz).run is = some w) :
    ∃ w₀, (machine quiz).run (Input.uptoFire is) = some w₀
      ∧ w₀.state.quizBrain.score + (if w.state.HasGreen then 1 else 0)
        ≤ w.state.quizBrain.score := by
  revert h
  refine Machine.run_induction (P := fun is (w : World ViewController Delayed) =>
    ∃ w₀, (machine quiz).run (Input.uptoFire is) = some w₀
      ∧ w₀.state.quizBrain.score + (if w.state.HasGreen then 1 else 0)
        ≤ w.state.quizBrain.score) ?_ ?_ is
  · intro w h
    refine ⟨w, by simpa [Machine.run_nil] using h, ?_⟩
    simp [not_hasGreen_start h]
  · rintro is w i w' hr ⟨w₀, hw₀, hle⟩ hst
    rcases step_cases hst with ⟨b, q, rfl, hq, rfl⟩ | ⟨k, rfl, -, ha, -⟩
    · obtain ⟨q', hd, hc⟩ := run_displays hr
      obtain rfl : q = q' := Option.some.inj (hq.symm.trans hd.current)
      refine ⟨w₀, by simpa using hw₀, ?_⟩
      by_cases hb : q.answer = w.state.currentTitle b
      · rw [if_pos (hasGreen_pressed_right hb), pressed_score, if_pos hb]
        omega
      · simpa only [hasGreen_pressed_wrong hc hb, pressed_score, if_neg hb, Nat.add_zero]
          using hle
    · refine ⟨w', by rw [Input.uptoFire_fire]; exact Machine.run_snoc_some.2 ⟨w, hr, hst⟩, ?_⟩
      simp [ha.not_hasGreen]

variable (quiz) in
/-- The tally under single right taps: the question on screen has added its point when a button
is green and none when none is, and the questions before it at most one each. -/
def Tally (is : List (Input ChoiceButton)) (w : World ViewController Delayed) : Prop :=
  ∃ w₀, (machine quiz).run (Input.uptoFire is) = some w₀
    ∧ w.state.quizBrain.score
      = w₀.state.quizBrain.score + (if w.state.HasGreen then 1 else 0)
    ∧ w₀.state.quizBrain.score ≤ w.state.quizBrain.questionnumber
    ∧ w.state.quizBrain.questionnumber < quiz.length

theorem Tally.scoreBounded {is : List (Input ChoiceButton)} {w : World ViewController Delayed}
    (h : Tally quiz is w) : ScoreBounded quiz is w := by
  obtain ⟨w₀, hw₀, hs, hle, hlt⟩ := h
  have hg : w.state.quizBrain.score ≤ w₀.state.quizBrain.score + 1 := by
    split_ifs at hs <;> omega
  refine ⟨fun w₁ hw₁ => ?_, by omega, hlt⟩
  obtain rfl : w₀ = w₁ := Option.some.inj (hw₀.symm.trans hw₁)
  exact hg

theorem tally_start {w : World ViewController Delayed} (h : (machine quiz).start = some w) :
    Tally quiz [] w := by
  obtain ⟨hm, -, -, ⟨q, hd⟩, -⟩ := viewDidLoad_spec (Screen.start_eq_some.1 h)
  refine ⟨w, by simpa [Machine.run_nil] using h, by simp [not_hasGreen_start h], ?_,
    (List.getElem?_eq_some_iff.1 hd.current).1⟩
  simp [hm]

theorem Tally.step {is : List (Input ChoiceButton)} {w w' : World ViewController Delayed}
    {i : Input ChoiceButton} (hr : (machine quiz).run is = some w)
    (h : Tally quiz is w) (hi : OneRightTap quiz is w i)
    (hst : (machine quiz).step w i = some w') : Tally quiz (is ++ [i]) w' := by
  obtain ⟨w₀, hw₀, hs, hle, hlt⟩ := h
  rcases step_cases hst with ⟨b, q, rfl, hq, rfl⟩ | ⟨k, rfl, -, ha, -⟩
  · obtain ⟨q', hd, hc⟩ := run_displays hr
    obtain rfl : q = q' := Option.some.inj (hq.symm.trans hd.current)
    refine ⟨w₀, by simpa using hw₀, ?_, hle, hlt⟩
    by_cases hb : q.answer = w.state.currentTitle b
    · rw [if_neg (hi q hq hb)] at hs
      rw [if_pos (hasGreen_pressed_right hb), pressed_score, if_pos hb, hs]
    · rw [pressed_score, if_neg hb, Nat.add_zero, hs]
      exact congrArg _ (if_congr (hasGreen_pressed_wrong hc hb).symm rfl rfl)
  · refine ⟨w', by rw [Input.uptoFire_fire]; exact Machine.run_snoc_some.2 ⟨w, hr, hst⟩,
      by simp [ha.not_hasGreen], ?_, ?_⟩
    · -- the round goes on with one more question, or a new one starts with the score at zero
      rcases Nat.lt_or_eq_of_le hlt with hlt' | hl
      · rw [ha.score_of_lt hlt', ha.questionnumber, Nat.mod_eq_of_lt hlt']
        split_ifs at hs <;> omega
      · rw [ha.score_of_last hl]
        exact Nat.zero_le _
    · rw [ha.questionnumber]
      exact Nat.mod_lt _ ha.nonempty

/-- A second right tap on one presentation is scored too. -/
theorem second_right_tap_scored {is : List (Input ChoiceButton)}
    {w : World ViewController Delayed} {i : Input ChoiceButton}
    (hr : (machine quiz).run is = some w) (hi : ¬ OneRightTap quiz is w i) :
    ∃ w', (machine quiz).step w i = some w' ∧ ¬ ScoreBounded quiz (is ++ [i]) w' := by
  cases i with
  | fire k => exact absurd trivial hi
  | event b =>
    simp only [OneRightTap, not_forall, not_not] at hi
    obtain ⟨q, hq, hb, hg⟩ := hi
    refine ⟨_, step_tap.2 ⟨q, hq, rfl⟩, fun h => ?_⟩
    obtain ⟨w₀, hw₀, hle⟩ := run_green_scored hr
    have := h.1 w₀ (by simpa using hw₀)
    rw [if_pos hg] at hle
    rw [pressed_score, if_pos hb] at this
    omega

/-- In a run each presentation adds at most one point, with the score at most the number of
questions presented in the round, exactly when no right answer is tapped while a button is still
green from an earlier one. -/
theorem score_bounded_iff (is : List (Input ChoiceButton)) :
    (machine quiz).Always (ScoreBounded quiz) is ↔ (machine quiz).Along (OneRightTap quiz) is := by
  refine ⟨Machine.along_of_always fun is w i hr _ => second_right_tap_scored hr, fun h => ?_⟩
  refine (Machine.always_of_along (Q := Tally quiz) (fun w => tally_start) ?_ h).mono
    fun is w _ => Tally.scoreBounded
  intro is w i w' hr ht hi hst
  exact ht.step hr hi hst

/-- Two taps on "Skin" within the second score twice on the first question. -/
theorem score_two_on_first_question :
    QuizBrain.shipped ≠ [] ∧ ¬ (machine QuizBrain.shipped).Always (ScoreBounded QuizBrain.shipped)
      [.event .buttonChoice2, .event .buttonChoice2] := by
  refine ⟨shipped_ne_nil, fun h => ?_⟩
  have hw : ∃ w, (machine QuizBrain.shipped).run [.event .buttonChoice2, .event .buttonChoice2]
      = some w ∧ w.state.quizBrain = ⟨0, 2⟩ := ⟨_, rfl, rfl⟩
  obtain ⟨w, hr, hm⟩ := hw
  have := (h _ w List.prefix_rfl hr).2.1
  rw [hm] at this
  simp at this

end Quizzler

end IosLearning
