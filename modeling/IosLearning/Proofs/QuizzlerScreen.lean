import IosLearning.Quizzler
import Mathlib.Algebra.Order.Field.Basic
import Mathlib.Data.Rat.Cast.Order
import Mathlib.Tactic.Positivity

/-!
# The quiz screen shows the current question

A press writes the score, its label and one button's color, and hands over an advance
(`pressed`); an advance moves the question, clears the colors and draws the new question
(`Advanced`). So the text on screen is always that of the question the next tap is judged
against, and the colors are those of the taps since the last advance (`screen_shows`).
-/

namespace IosLearning

namespace Quizzler

variable {quiz : List Question}

/-! ## What the handlers do -/

section Handlers

variable {c c' : ViewController}

/-- The question, its options and the progress on screen are those of `q`, and `q` is current. -/
structure Displays (quiz : List Question) (c : ViewController) (q : Question) : Prop where
  current : quiz[c.quizBrain.questionnumber]? = some q
  label : c.questionLabel = q.text
  title : ∀ b : ChoiceButton, q.answers[b.index]? = some (c.currentTitle b)
  progress : c.progress
    = ((c.quizBrain.questionnumber + 1 : ℕ) : ℚ) / (quiz.length : ℚ)

/-- What a press on `b` leaves while `q` is current. -/
def pressed (q : Question) (b : ChoiceButton) (c : ViewController) : ViewController :=
  let score := c.quizBrain.score + if q.answer = c.currentTitle b then 1 else 0
  let color := if q.answer = c.currentTitle b then UIColor.green else UIColor.red
  { c with
    quizBrain := ⟨c.quizBrain.questionnumber, score⟩
    scoreLabel := "Score: " ++ toString score
    backgroundColor := Function.update c.backgroundColor b (some color) }

theorem pressed_score (q : Question) (b : ChoiceButton) (c : ViewController) :
    (pressed q b c).quizBrain.score
      = c.quizBrain.score + if q.answer = c.currentTitle b then 1 else 0 := rfl

/-- What an advance leaves of the controller. -/
structure Advanced (quiz : List Question) (c c' : ViewController) : Prop where
  nonempty : 0 < quiz.length
  questionnumber : c'.quizBrain.questionnumber
    = (c.quizBrain.questionnumber + 1) % quiz.length
  score : c'.quizBrain.score
    = if c'.quizBrain.questionnumber = 0 then 0 else c.quizBrain.score
  scoreLabel : c'.scoreLabel = c.scoreLabel
  backgroundColor : c'.backgroundColor = fun _ => some .clear
  displays : ∃ q, Displays quiz c' q

theorem setQuestionDisplay_spec (h : c.setQuestionDisplay quiz = some c') :
    c'.quizBrain = c.quizBrain ∧ c'.scoreLabel = c.scoreLabel
      ∧ c'.backgroundColor = c.backgroundColor ∧ ∃ q, Displays quiz c' q := by
  simp only [ViewController.setQuestionDisplay, QuizBrain.getQuestionText, QuizBrain.getOptions,
    QuizBrain.getCurrentQuestion, Option.bind_eq_bind, Option.bind_eq_some_iff,
    Option.map_eq_some_iff, Option.pure_def, Option.some.injEq] at h
  obtain ⟨_, ⟨q, hq, rfl⟩, _, ⟨q', hq', rfl⟩, t1, h1, t2, h2, t3, h3, rfl⟩ := h
  obtain rfl : q = q' := Option.some.inj (hq.symm.trans hq')
  refine ⟨rfl, rfl, rfl, q, hq, rfl, fun b => ?_, rfl⟩
  cases b <;> assumption

theorem exists_setQuestionDisplay {q : Question} (hq : quiz[c.quizBrain.questionnumber]? = some q)
    (h3 : 3 ≤ q.answers.length) : ∃ c', c.setQuestionDisplay quiz = some c' := by
  have ha : ∀ i, i < 3 → ∃ t, q.answers[i]? = some t := fun i hi =>
    ⟨q.answers[i], List.getElem?_eq_getElem (by omega)⟩
  obtain ⟨t1, h1⟩ := ha 0 (by omega)
  obtain ⟨t2, h2⟩ := ha 1 (by omega)
  obtain ⟨t3, h3⟩ := ha 2 (by omega)
  simp [ViewController.setQuestionDisplay, QuizBrain.getQuestionText, QuizBrain.getOptions,
    QuizBrain.getCurrentQuestion, hq, h1, h2, h3]

theorem answerButtonPressed_eq (b : ChoiceButton) :
    c.answerButtonPressed quiz b =
      (quiz[c.quizBrain.questionnumber]?).map fun q => (pressed q b c, [.advance]) := by
  rcases hq : quiz[c.quizBrain.questionnumber]? with _ | q
  · simp [ViewController.answerButtonPressed, QuizBrain.checkAnswer,
      QuizBrain.getCurrentQuestion, hq]
  · by_cases ha : q.answer = c.currentTitle b <;>
      simp [ViewController.answerButtonPressed, QuizBrain.checkAnswer,
        QuizBrain.getCurrentQuestion, QuizBrain.getCurrentScore, ViewController.updateUi, pressed,
        hq, ha]

theorem incQuestionNumber_spec {m m' : QuizBrain} (h : m.incQuestionNumber quiz = some m') :
    0 < quiz.length ∧ m'.questionnumber = (m.questionnumber + 1) % quiz.length
      ∧ m'.score = if m'.questionnumber = 0 then 0 else m.score := by
  unfold QuizBrain.incQuestionNumber at h
  by_cases h0 : quiz.length = 0
  · simp [h0] at h
  · rw [if_neg h0, Option.some.injEq] at h
    subst h
    exact ⟨Nat.pos_of_ne_zero h0, rfl, rfl⟩

theorem advance_spec (h : c.advance quiz = some c') : Advanced quiz c c' := by
  simp only [ViewController.advance, Option.bind_eq_bind, Option.bind_eq_some_iff] at h
  obtain ⟨m, hm, h⟩ := h
  obtain ⟨h0, hn, hs⟩ := incQuestionNumber_spec hm
  obtain ⟨hb, hl, hc, hd⟩ := setQuestionDisplay_spec h
  replace hb : c'.quizBrain = m := hb
  exact ⟨h0, by rw [hb, hn], by rw [hb, hs], hl, hc, hd⟩

/-- Between two questions of a round an advance keeps the score. -/
theorem Advanced.score_of_lt (h : Advanced quiz c c')
    (hlt : c.quizBrain.questionnumber + 1 < quiz.length) :
    c'.quizBrain.score = c.quizBrain.score := by
  have hn := h.questionnumber
  rw [Nat.mod_eq_of_lt hlt] at hn
  rw [h.score, if_neg (by omega)]

/-- From the last question it resets the score. -/
theorem Advanced.score_of_last (h : Advanced quiz c c')
    (hl : c.quizBrain.questionnumber + 1 = quiz.length) : c'.quizBrain.score = 0 := by
  have hn := h.questionnumber
  rw [hl, Nat.mod_self] at hn
  rw [h.score, if_pos hn]

/-- An advance draws the next question where that has three options. -/
theorem exists_advance_of {q : Question} (hl : 0 < quiz.length)
    (hq : quiz[(c.quizBrain.questionnumber + 1) % quiz.length]? = some q)
    (h3 : 3 ≤ q.answers.length) : ∃ c', c.advance quiz = some c' := by
  obtain ⟨c', h⟩ := exists_setQuestionDisplay (c := ViewController.resetButtonBg
    { c with quizBrain := ⟨(c.quizBrain.questionnumber + 1) % quiz.length,
        if (c.quizBrain.questionnumber + 1) % quiz.length = 0 then 0 else c.quizBrain.score⟩ })
    hq h3
  refine ⟨c', ?_⟩
  simp only [ViewController.advance, QuizBrain.incQuestionNumber, if_neg hl.ne',
    Option.bind_eq_bind, Option.bind_some]
  exact h

theorem exists_advance (hne : quiz ≠ []) (h3 : ∀ q ∈ quiz, 3 ≤ q.answers.length) :
    ∃ c', c.advance quiz = some c' := by
  have hl : 0 < quiz.length := List.length_pos_iff.2 hne
  have hm : (c.quizBrain.questionnumber + 1) % quiz.length < quiz.length := Nat.mod_lt _ hl
  exact exists_advance_of hl (List.getElem?_eq_getElem hm) (h3 _ (List.getElem_mem hm))

theorem viewDidLoad_spec {ks : List Delayed}
    (h : ViewController.viewDidLoad quiz = some (c, ks)) :
    c.quizBrain = {} ∧ c.scoreLabel = "Score: 0" ∧ (∀ b, c.backgroundColor b = none)
      ∧ (∃ q, Displays quiz c q) ∧ ks = [] := by
  simp only [ViewController.viewDidLoad, ViewController.updateUi, if_true,
    Option.map_eq_some_iff, Prod.mk.injEq] at h
  obtain ⟨_, ⟨c₁, h, rfl⟩, rfl, rfl⟩ := h
  obtain ⟨hb, hl, hc, q, hd⟩ := setQuestionDisplay_spec h
  exact ⟨hb, hl, fun b => by rw [hc]; rfl, ⟨q, hd.current, hd.label, hd.title, hd.progress⟩, rfl⟩

theorem exists_viewDidLoad (hne : quiz ≠ []) (h3 : ∀ q ∈ quiz, 3 ≤ q.answers.length) :
    ∃ r, ViewController.viewDidLoad quiz = some r := by
  have hl : 0 < quiz.length := List.length_pos_iff.2 hne
  obtain ⟨c', h⟩ := exists_setQuestionDisplay
    (c := { ViewController.storyboard with scoreLabel := "Score: 0" })
    (List.getElem?_eq_getElem hl) (h3 _ (List.getElem_mem hl))
  refine ⟨({ c' with progressHidden := false }, []), ?_⟩
  simp only [ViewController.viewDidLoad, ViewController.updateUi, if_true, Option.map_map]
  exact Option.map_eq_some_iff.2 ⟨c', h, rfl⟩

theorem Displays.pressed {q : Question} (h : Displays quiz c q) (b : ChoiceButton) :
    Displays quiz (pressed q b c) q :=
  ⟨h.current, h.label, h.title, h.progress⟩

end Handlers

/-! ## The steps -/

section Steps

variable {w w' : World ViewController Delayed}

theorem step_tap {b : ChoiceButton} :
    (machine quiz).step w (.event b) = some w' ↔
      ∃ q, quiz[w.state.quizBrain.questionnumber]? = some q
        ∧ w' = ⟨pressed q b w.state, w.pending ++ [.advance]⟩ := by
  simp only [machine, Screen.step_event, screen, answerButtonPressed_eq, Option.map_eq_some_iff,
    Prod.mk.injEq]
  constructor
  · rintro ⟨_, _, ⟨q, hq, rfl, rfl⟩, rfl⟩
    exact ⟨q, hq, rfl⟩
  · rintro ⟨q, hq, rfl⟩
    exact ⟨_, _, ⟨q, hq, rfl, rfl⟩, rfl⟩

theorem step_advance {i : ℕ} :
    (machine quiz).step w (.fire i) = some w' ↔
      i < w.pending.length ∧ w.state.advance quiz = some w'.state
        ∧ w'.pending = w.pending.eraseIdx i := by
  simp only [machine, Screen.step_fire, screen, Option.map_eq_some_iff, Prod.mk.injEq]
  constructor
  · rintro ⟨c, _, _, hc, ⟨c', ha, rfl, rfl⟩, rfl⟩
    exact ⟨(List.getElem?_eq_some_iff.1 hc).1, ha, by simp⟩
  · rintro ⟨hi, ha, hp⟩
    refine ⟨w.pending[i], _, _, List.getElem?_eq_getElem hi, ⟨_, ha, rfl, rfl⟩, ?_⟩
    simp [← hp]

/-- A tap is judged, or an advance that waited runs. -/
theorem step_cases {i : Input ChoiceButton} (h : (machine quiz).step w i = some w') :
    (∃ b q, i = .event b ∧ quiz[w.state.quizBrain.questionnumber]? = some q
        ∧ w' = ⟨pressed q b w.state, w.pending ++ [.advance]⟩)
      ∨ ∃ k, i = .fire k ∧ k < w.pending.length ∧ Advanced quiz w.state w'.state
        ∧ w'.pending = w.pending.eraseIdx k := by
  cases i with
  | event b =>
    obtain ⟨q, hq, rfl⟩ := step_tap.1 h
    exact .inl ⟨b, q, rfl, hq, rfl⟩
  | fire k =>
    obtain ⟨hk, ha, hp⟩ := step_advance.1 h
    exact .inr ⟨k, rfl, hk, advance_spec ha, hp⟩

end Steps

/-! ## The screen -/

/-- A button has its verdict's color if it was tapped since the last advance, and none if not. -/
def Colored (is : List (Input ChoiceButton)) (q : Question) (c : ViewController) : Prop :=
  ∀ b, if .event b ∈ Input.sinceFire is
    then c.backgroundColor b
      = some (if q.answer = c.currentTitle b then UIColor.green else UIColor.red)
    else c.backgroundColor b = none ∨ c.backgroundColor b = some .clear

theorem Colored.pressed {is : List (Input ChoiceButton)} {q : Question} {c : ViewController}
    (h : Colored is q c) (b : ChoiceButton) :
    Colored (is ++ [.event b]) q (pressed q b c) := by
  intro b'
  rw [Input.sinceFire_event]
  by_cases hb : b' = b
  · subst hb
    simp [Quizzler.pressed]
  · have hc := h b'
    simpa [Quizzler.pressed, Function.update_of_ne hb, hb] using hc

theorem run_displays {is : List (Input ChoiceButton)} {w : World ViewController Delayed}
    (h : (machine quiz).run is = some w) :
    ∃ q, Displays quiz w.state q ∧ Colored is q w.state := by
  revert h
  refine Machine.run_induction (P := fun is (w : World ViewController Delayed) =>
    ∃ q, Displays quiz w.state q ∧ Colored is q w.state) ?_ ?_ is
  · intro w h
    obtain ⟨-, -, hc, ⟨q, hd⟩, -⟩ := viewDidLoad_spec (Screen.start_eq_some.1 h)
    exact ⟨q, hd, fun b => by simp [hc b]⟩
  · rintro is w i w' - ⟨q, hd, hc⟩ hst
    rcases step_cases hst with ⟨b, q', rfl, hq, rfl⟩ | ⟨k, rfl, -, ha, -⟩
    · obtain rfl : q = q' := Option.some.inj (hd.current.symm.trans hq)
      exact ⟨q, hd.pressed b, hc.pressed b⟩
    · obtain ⟨q', hd'⟩ := ha.displays
      exact ⟨q', hd', fun b => by simp [ha.backgroundColor]⟩

/-- With three options to each question no input is ever trapped on. -/
theorem run_no_trap (hne : quiz ≠ []) (h3 : ∀ q ∈ quiz, 3 ≤ q.answers.length)
    {is : List (Input ChoiceButton)} {w : World ViewController Delayed}
    (h : (machine quiz).run is = some w) (i : Input ChoiceButton) :
    ¬ (machine quiz).Traps w i := by
  obtain ⟨q, hd, -⟩ := run_displays h
  rintro ⟨hen, htr⟩
  suffices ∃ w', (machine quiz).step w i = some w' by
    obtain ⟨w', hw'⟩ := this
    rw [(Machine.step_eq_some.1 hw').2] at htr
    simp at htr
  cases i with
  | event b => exact ⟨_, step_tap.2 ⟨q, hd.current, rfl⟩⟩
  | fire k =>
    obtain ⟨c', hc'⟩ := exists_advance (c := w.state) hne h3
    exact ⟨⟨c', w.pending.eraseIdx k⟩, step_advance.2 ⟨of_decide_eq_true hen, hc', rfl⟩⟩

theorem Displays.progress_pos_le_one {c : ViewController} {q : Question}
    (h : Displays quiz c q) : 0 < c.progress ∧ c.progress ≤ 1 := by
  have hlt : c.quizBrain.questionnumber < quiz.length :=
    (List.getElem?_eq_some_iff.1 h.current).1
  have hl : (0 : ℚ) < quiz.length := by exact_mod_cast (by omega : 0 < quiz.length)
  rw [h.progress]
  refine ⟨by positivity, (div_le_one hl).2 ?_⟩
  exact_mod_cast hlt

/-- In every state between events the screen is that of the current question, in bounds and with
its progress; a tap is judged against the question on screen; and the colors are the verdicts of
the taps since the last advance. -/
theorem screen_shows (hne : quiz ≠ []) (h3 : ∀ q ∈ quiz, 3 ≤ q.answers.length)
    (is : List (Input ChoiceButton)) :
    (machine quiz).start ≠ none ∧ ∀ w, (machine quiz).run is = some w →
      (∀ i, ¬ (machine quiz).Traps w i) ∧
      ∃ q, w.state.quizBrain.questionnumber < quiz.length ∧ Displays quiz w.state q
        ∧ (0 < w.state.progress ∧ w.state.progress ≤ 1) ∧ Colored is q w.state
        ∧ ∀ b w', (machine quiz).step w (.event b) = some w' →
          w'.state.quizBrain.score
              = w.state.quizBrain.score + (if q.answer = w.state.currentTitle b then 1 else 0)
            ∧ w'.state.backgroundColor b
              = some (if q.answer = w.state.currentTitle b then UIColor.green
                else UIColor.red) := by
  constructor
  · obtain ⟨r, hr⟩ := exists_viewDidLoad hne h3
    simp [machine, Screen.machine, screen, hr]
  · intro w h
    obtain ⟨q, hd, hc⟩ := run_displays h
    refine ⟨run_no_trap hne h3 h, q, (List.getElem?_eq_some_iff.1 hd.current).1, hd,
      hd.progress_pos_le_one, hc, fun b w' hst => ?_⟩
    obtain ⟨q', hq', rfl⟩ := step_tap.1 hst
    obtain rfl : q = q' := Option.some.inj (hd.current.symm.trans hq')
    exact ⟨rfl, Function.update_self _ _ _⟩

theorem shipped_ne_nil : QuizBrain.shipped ≠ [] := by decide

theorem shipped_options : ∀ q ∈ QuizBrain.shipped, 3 ≤ q.answers.length := by decide

theorem screen_shows_second_question :
    ∃ w, (machine QuizBrain.shipped).run [.event .buttonChoice2, .fire 0] = some w
      ∧ ∃ q, Displays QuizBrain.shipped w.state q := by
  obtain ⟨-, h⟩ := screen_shows shipped_ne_nil shipped_options
    [.event .buttonChoice2, .fire 0]
  obtain ⟨-, q, -, hd, -⟩ := h _ rfl
  exact ⟨_, rfl, q, hd⟩

end Quizzler

end IosLearning
