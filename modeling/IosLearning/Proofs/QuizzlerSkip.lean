import IosLearning.Proofs.QuizzlerScreen

/-!
# Questions passed over

Every tap hands over an advance of its own, so the advances that wait outnumber the questions
answered as soon as one tap comes while another's advance waits. From then on more advances wait
than the question on screen has use for, and once all of them have run some question was left
without a tap (`no_skip_iff`).
-/

namespace IosLearning

namespace Quizzler

variable {quiz : List Question}

/-- An advance that runs leaves a question that was tapped since it was put on screen. -/
def NoSkip (is : List (Input ChoiceButton)) (w : World ViewController Delayed) :
    Input ChoiceButton → Prop
  | .event _ => True
  | .fire k => k < w.pending.length → ∃ b, .event b ∈ Input.sinceFire is

/-- A tap comes only while no advance waits. -/
def TapsIdle (_ : List (Input ChoiceButton)) (w : World ViewController Delayed) :
    Input ChoiceButton → Prop
  | .event _ => w.pending = []
  | .fire _ => True

/-- One advance waits for a question that was tapped, and none for one that was not. -/
def OneForTapped (is : List (Input ChoiceButton)) (w : World ViewController Delayed) : Prop :=
  w.pending.length ≤ 1 ∧ (w.pending ≠ [] → ∃ b, .event b ∈ Input.sinceFire is)

/-- More advances wait than the question on screen has use for: one if it was tapped, and none
if it was not. -/
def TooMany (is : List (Input ChoiceButton)) (w : World ViewController Delayed) : Prop :=
  w.pending ≠ [] ∧ (Input.sinceFire is ≠ [] → 2 ≤ w.pending.length)

theorem exists_tap_iff {is : List (Input ChoiceButton)} :
    (∃ b, .event b ∈ Input.sinceFire is) ↔ Input.sinceFire is ≠ [] := by
  constructor
  · rintro ⟨b, hb⟩ h
    simp [h] at hb
  · intro h
    obtain ⟨i, hi⟩ := List.exists_mem_of_ne_nil _ h
    rcases i with b | k
    · exact ⟨b, hi⟩
    · exact absurd (Input.not_isFire_of_mem_sinceFire hi) (by simp)

theorem length_pending_fire {w w' : World ViewController Delayed} {k : ℕ}
    (h : (machine quiz).step w (.fire k) = some w') :
    w'.pending.length + 1 = w.pending.length := by
  obtain ⟨hk, -, hp⟩ := step_advance.1 h
  rw [hp, List.length_eraseIdx_of_lt hk]
  omega

theorem idle_oneForTapped {is : List (Input ChoiceButton)}
    (h : (machine quiz).Along TapsIdle is) : (machine quiz).Always OneForTapped is := by
  refine Machine.always_of_along ?_ ?_ h
  · intro w h
    obtain ⟨-, -, -, -, hks⟩ := viewDidLoad_spec (Screen.start_eq_some.1 h)
    simp [OneForTapped, hks]
  · rintro is w i w' - ⟨hl, -⟩ hi hst
    rcases i with b | k
    · obtain ⟨q, -, rfl⟩ := step_tap.1 hst
      have hp : w.pending = [] := hi
      exact ⟨by simp [hp], fun _ => ⟨b, by simp⟩⟩
    · have := length_pending_fire hst
      refine ⟨by omega, fun hne => absurd ?_ hne⟩
      exact List.length_eq_zero_iff.1 (by omega)

theorem along_noSkip_of_idle {is : List (Input ChoiceButton)}
    (h : (machine quiz).Along TapsIdle is) : (machine quiz).Along NoSkip is := by
  intro pre i w hp hr
  rcases i with b | k
  · trivial
  · intro hk
    exact (idle_oneForTapped h pre w ((List.prefix_append _ _).trans hp) hr).2
      (List.ne_nil_of_length_pos (by omega))

/-- A run that has passed over no question either took its taps one by one or has more advances
waiting than it has use for. -/
theorem idle_or_tooMany (is : List (Input ChoiceButton)) :
    ∀ {w : World ViewController Delayed}, (machine quiz).run is = some w →
      (machine quiz).Along NoSkip is → (machine quiz).Along TapsIdle is ∨ TooMany is w := by
  induction is using List.reverseRecOn with
  | nil => exact fun _ _ => .inl Machine.along_nil
  | append_singleton is i ih =>
    intro w' hr' hn
    obtain ⟨hn', hi⟩ := Machine.along_snoc.1 hn
    obtain ⟨w, hr, hst⟩ := Machine.run_snoc_some.1 hr'
    rcases i with b | k
    · obtain ⟨q, -, rfl⟩ := step_tap.1 hst
      by_cases hp : w.pending = []
      · rcases ih hr hn' with hidle | ⟨hne, -⟩
        · refine .inl (Machine.along_snoc.2 ⟨hidle, fun w₁ hr₁ => ?_⟩)
          obtain rfl : w = w₁ := Option.some.inj (hr.symm.trans hr₁)
          exact hp
        · exact absurd hp hne
      · -- the tap hands over an advance beside one that waits already
        have := List.length_pos_iff.2 hp
        exact .inr ⟨by simp, fun _ => by simp; omega⟩
    · rcases ih hr hn' with hidle | ⟨hne, htwo⟩
      · exact .inl (Machine.along_snoc.2 ⟨hidle, fun _ _ => trivial⟩)
      · have hl := length_pending_fire hst
        have htap := exists_tap_iff.1 (hi w hr (by have := (step_advance.1 hst).1; omega))
        have := htwo htap
        exact .inr ⟨List.ne_nil_of_length_pos (by omega), fun h => absurd (by simp) h⟩

/-- Where too many advances wait, running them all passes over a question. -/
theorem TooMany.not_noSkip (hne : quiz ≠ []) (h3 : ∀ q ∈ quiz, 3 ≤ q.answers.length)
    {is : List (Input ChoiceButton)} {w : World ViewController Delayed}
    (hr : (machine quiz).run is = some w) (h : TooMany is w) :
    ¬ (machine quiz).Along NoSkip (is ++ List.replicate w.pending.length (.fire 0)) := by
  intro hn
  obtain ⟨hp, htwo⟩ := h
  have hpos := List.length_pos_iff.2 hp
  by_cases hs : Input.sinceFire is = []
  · have hpre : is ++ [.fire 0] <+: is ++ List.replicate w.pending.length (.fire 0) :=
      (List.prefix_append_right_inj _).2 (by
        rw [← Nat.sub_add_cancel hpos, List.replicate_succ]; simp)
    exact exists_tap_iff.1 (hn is _ w hpre hr hpos) hs
  · -- the first advance that runs uses up the taps, and another still waits
    have htwo := htwo hs
    obtain ⟨n, hl⟩ : ∃ n, w.pending.length = n + 2 := ⟨w.pending.length - 2, by omega⟩
    obtain ⟨c', hc'⟩ := exists_advance (c := w.state) hne h3
    have hst : (machine quiz).step w (.fire 0) = some ⟨c', w.pending.eraseIdx 0⟩ :=
      step_advance.2 ⟨hpos, hc', rfl⟩
    have hpre : is ++ [.fire 0] ++ [.fire 0]
        <+: is ++ List.replicate w.pending.length (.fire 0) := by
      rw [List.append_assoc, hl, List.replicate_succ, List.replicate_succ]
      exact (List.prefix_append_right_inj _).2 (by simp)
    obtain ⟨b, hb⟩ := hn _ _ _ hpre (Machine.run_snoc_some.2 ⟨w, hr, hst⟩)
      (by have := length_pending_fire hst; simp only at this ⊢; omega)
    simp at hb

/-- A run whose taps all came while no advance was waiting passes over no question; and in a run
that is followed by all the advances it leaves waiting, none is passed over exactly when every tap
came so. -/
theorem no_skip_iff (hne : quiz ≠ []) (h3 : ∀ q ∈ quiz, 3 ≤ q.answers.length)
    {is : List (Input ChoiceButton)} {w : World ViewController Delayed}
    (hr : (machine quiz).run is = some w) :
    ((machine quiz).Along TapsIdle is → (machine quiz).Along NoSkip is)
      ∧ ((machine quiz).Along NoSkip (is ++ List.replicate w.pending.length (.fire 0))
        ↔ (machine quiz).Along TapsIdle is) := by
  refine ⟨along_noSkip_of_idle, fun h => ?_, fun h => ?_⟩
  · rcases idle_or_tooMany is hr (h.restrict (List.prefix_append _ _)) with hidle | hmany
    · exact hidle
    · exact absurd h (hmany.not_noSkip hne h3 hr)
  · refine along_noSkip_of_idle (h.append fun i hi pre w₁ => ?_)
    obtain ⟨-, rfl⟩ := List.mem_replicate.1 hi
    trivial

theorem no_skip_one_tap :
    (machine QuizBrain.shipped).Along NoSkip [.event .buttonChoice2, .fire 0] := by
  have hidle : (machine QuizBrain.shipped).Along TapsIdle ([] ++ [.event .buttonChoice2]) :=
    Machine.along_snoc.2 ⟨Machine.along_nil, fun w hr => by cases hr; rfl⟩
  exact (no_skip_iff shipped_ne_nil shipped_options rfl).2.2 hidle

/-- Two taps on the first question: the second advance passes over the second question. -/
theorem second_question_skipped :
    ¬ (machine QuizBrain.shipped).Along NoSkip
      [.event .buttonChoice2, .event .buttonChoice2, .fire 0, .fire 0] := by
  intro h
  obtain ⟨b, hb⟩ := h [.event .buttonChoice2, .event .buttonChoice2, .fire 0] (.fire 0) _
    List.prefix_rfl rfl (by decide)
  simp [Input.sinceFire, List.rtakeWhile] at hb

end Quizzler

end IosLearning
