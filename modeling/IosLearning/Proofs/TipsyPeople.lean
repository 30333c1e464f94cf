import IosLearning.Tipsy

/-!
# The number of people on screen

The result screen reports the stepper's value, a whole number all along, and the bill is divided
by it. The label on the calculator says 2 from the start, and no handler writes it, so the three
agree in a whole run exactly when the stepper is never moved (`people_shown_iff`).
-/

namespace IosLearning

namespace Tipsy

/-- The button last pressed, and the one the storyboard selects before any was. -/
def lastTip (es : List Event) : PctButton :=
  es.foldl (fun b e => match e with
    | .tipChanged sender => sender
    | _ => b) .tenPctButton

/-- The result screen as it comes up over a calculator. -/
def CalculatorViewController.shown (c : CalculatorViewController) : ResultViewController :=
  { c.prepare with
    totalLabel := c.getPerPersonBill.text 2
    settingsLabel := "Split between " ++ toString (truncate c.getPersonCount)
      ++ " people, with " ++ toString (truncate (c.getTipPctValue * 100)) ++ "% tip." }

theorem viewDidLoad_prepare (c : CalculatorViewController) :
    c.prepare.viewDidLoad = some c.shown := rfl

section Steps

variable {a a' : App} {e : Event}

/-- On the calculator a control is used or the result is asked for; on the result screen there
is only the way back. -/
theorem step_cases (h : machine.step a e = some a') :
    (a.presented = none ∧ ∃ c, a' = ⟨c, none⟩
        ∧ ((∃ b, e = .tipChanged b ∧ c = a.calculator.tipChanged b)
          ∨ (e = .stepUp ∧ c = ({ a.calculator with
              personStepper := a.calculator.personStepper.stepUp }).stepperValueChanged)
          ∨ (e = .stepDown ∧ 2 < a.calculator.personStepper.value
            ∧ c = ({ a.calculator with
              personStepper := a.calculator.personStepper.stepDown }).stepperValueChanged)
          ∨ ∃ t, e = .billEdited t
            ∧ c = { a.calculator with billTextField := ⟨some t, true⟩ }))
      ∨ (e = .calculatePressed ∧ a.presented = none
        ∧ a' = ⟨a.calculator, some a.calculator.shown⟩)
      ∨ (e = .recalculatePressed ∧ a' = ⟨a.calculator, none⟩) := by
  obtain ⟨c, p⟩ := a
  obtain ⟨he, hh⟩ := Machine.step_eq_some.1 h
  simp only [machine] at he hh
  rcases e with b | _ | _ | t | _ | _ <;>
    simp only [App.enabled, Bool.and_eq_true, Option.isNone_iff_eq_none, decide_eq_true_eq] at he
  · subst he
    exact .inl ⟨rfl, _, (Option.some.inj hh).symm, .inl ⟨b, rfl, rfl⟩⟩
  · obtain ⟨rfl, -⟩ := he
    exact .inl ⟨rfl, _, (Option.some.inj hh).symm, .inr (.inl ⟨rfl, rfl⟩)⟩
  · obtain ⟨rfl, hv⟩ := he
    exact .inl ⟨rfl, _, (Option.some.inj hh).symm, .inr (.inr (.inl ⟨rfl, hv, rfl⟩))⟩
  · subst he
    exact .inl ⟨rfl, _, (Option.some.inj hh).symm, .inr (.inr (.inr ⟨t, rfl, rfl⟩))⟩
  · simp only [App.handle, viewDidLoad_prepare, Option.map_some, Option.some.injEq] at hh
    exact .inr (.inl ⟨rfl, he, hh.symm⟩)
  · exact .inr (.inr ⟨rfl, (Option.some.inj hh).symm⟩)

/-- No event traps. -/
theorem exists_step (he : a.enabled e = true) : ∃ a', machine.step a e = some a' := by
  cases e <;> exact ⟨_, Machine.step_eq_some.2 ⟨he, rfl⟩⟩

end Steps

/-- What holds between events, whatever came before. -/
structure Sound (es : List Event) (a : App) : Prop where
  text : ∃ t, a.calculator.billTextField.text = some t
  splitNumberLabel : a.calculator.splitNumberLabel = "2"
  whole : a.calculator.personStepper.Whole
  isSelected : ∀ b, a.calculator.isSelected b = decide (b = lastTip es)
  presented : ∀ r ∈ a.presented, r = a.calculator.shown

theorem lastTip_tipChanged (es : List Event) (b : PctButton) :
    lastTip (es ++ [.tipChanged b]) = b := by
  simp only [lastTip, List.foldl_append, List.foldl_cons, List.foldl_nil]

theorem lastTip_snoc_of_ne {es : List Event} {e : Event} (he : ∀ b, e ≠ .tipChanged b) :
    lastTip (es ++ [e]) = lastTip es := by
  simp only [lastTip, List.foldl_append, List.foldl_cons, List.foldl_nil]

theorem run_sound {es : List Event} {a : App} (h : machine.run es = some a) : Sound es a := by
  refine Machine.run_induction (P := Sound) (fun a h => ?_) (fun es a e a' _ ih hst => ?_) es h
  · obtain rfl := Option.some.inj h
    exact ⟨⟨"", rfl⟩, rfl, ⟨2, by norm_num [CalculatorViewController.storyboard]⟩,
      fun b => rfl, by simp⟩
  · have hsel : (∀ b, e ≠ .tipChanged b) →
        ∀ b, a.calculator.isSelected b = decide (b = lastTip (es ++ [e])) := by
      intro he
      rw [lastTip_snoc_of_ne he]
      exact ih.isSelected
    rcases step_cases hst with ⟨-, c, rfl, hc⟩ | ⟨rfl, -, rfl⟩ | ⟨rfl, rfl⟩
    · rcases hc with ⟨b, rfl, rfl⟩ | ⟨rfl, rfl⟩ | ⟨rfl, -, rfl⟩ | ⟨t, rfl, rfl⟩
      · refine ⟨ih.text, ih.splitNumberLabel, ih.whole, fun b' => ?_, by simp⟩
        rw [lastTip_tipChanged]
        by_cases hb : b' = b <;> simp [CalculatorViewController.tipChanged,
          CalculatorViewController.unselectAllPctButtons, CalculatorViewController.endEditing, hb]
      · exact ⟨ih.text, ih.splitNumberLabel, ih.whole.stepUp ⟨25, by norm_num⟩, hsel (by simp),
          by simp⟩
      · exact ⟨ih.text, ih.splitNumberLabel, ih.whole.stepDown ⟨2, by norm_num⟩, hsel (by simp),
          by simp⟩
      · exact ⟨⟨t, rfl⟩, ih.splitNumberLabel, ih.whole, hsel (by simp), by simp⟩
    · exact ⟨ih.text, ih.splitNumberLabel, ih.whole, hsel (by simp), by simp⟩
    · exact ⟨ih.text, ih.splitNumberLabel, ih.whole, hsel (by simp), by simp⟩

/-! ## The label -/

/-- The label shows the number the bill is divided by and the result screen reports. -/
def PeopleShown (_ : List Event) (a : App) : Prop :=
  ∃ n : ℤ, a.calculator.splitNumberLabel = toString n ∧ a.calculator.getPersonCount = n
    ∧ ∀ r ∈ a.presented, r.personCount = some n

/-- The event is not a press on the stepper's plus that reaches it. -/
def NotMoved (_ : List Event) (a : App) : Event → Prop
  | .stepUp => a.presented ≠ none
  | _ => True

theorem peopleShown_iff {es : List Event} {a : App} (h : Sound es a) :
    PeopleShown es a ↔ a.calculator.personStepper.value = 2 := by
  refine ⟨fun hs => ?_, fun hv => ⟨2, h.splitNumberLabel, hv, fun r hr => ?_⟩⟩
  · obtain ⟨n, hl, hn, -⟩ := hs
    have h2 : (2 : ℤ) = n := toString_int_inj.1 (h.splitNumberLabel.symm.trans hl)
    rw [← h2] at hn
    exact hn
  · rw [h.presented r hr]
    show some (truncate a.calculator.personStepper.value) = some 2
    rw [hv]
    exact congrArg some (truncate_intCast 2)

theorem PeopleShown.step {es : List Event} {a a' : App} {e : Event} (hr : machine.run es = some a)
    (h : PeopleShown es a) (he : NotMoved es a e) (hst : machine.step a e = some a') :
    PeopleShown (es ++ [e]) a' := by
  have hv := (peopleShown_iff (run_sound hr)).1 h
  rw [peopleShown_iff (run_sound (Machine.run_snoc_some.2 ⟨a, hr, hst⟩))]
  rcases step_cases hst with ⟨hn, c, rfl, hc⟩ | ⟨rfl, -, rfl⟩ | ⟨rfl, rfl⟩
  · rcases hc with ⟨b, rfl, rfl⟩ | ⟨rfl, rfl⟩ | ⟨rfl, hlt, rfl⟩ | ⟨t, rfl, rfl⟩
    · exact hv
    · exact absurd hn he
    · exact absurd hv hlt.ne'
    · exact hv
  · exact hv
  · exact hv

/-- The stepper moves and its label does not. -/
theorem stepUp_not_shown {es : List Event} {a : App} {e : Event} (hr : machine.run es = some a)
    (h : PeopleShown es a) (he : ¬ NotMoved es a e) :
    ∃ a', machine.step a e = some a' ∧ ¬ PeopleShown (es ++ [e]) a' := by
  have hv := (peopleShown_iff (run_sound hr)).1 h
  rcases e with b | _ | _ | t | _ | _
  case stepUp =>
    have hn : a.presented = none := not_not.1 he
    obtain ⟨a', hst⟩ := exists_step (a := a) (e := .stepUp) (by
      norm_num [App.enabled, hn, hv])
    refine ⟨a', hst, fun hs => ?_⟩
    rw [peopleShown_iff (run_sound (Machine.run_snoc_some.2 ⟨a, hr, hst⟩))] at hs
    obtain ⟨-, hh⟩ := Machine.step_eq_some.1 hst
    obtain rfl := Option.some.inj hh
    have h3 : min (a.calculator.personStepper.value + 1) 25 = 2 := hs
    rw [hv] at h3
    norm_num at h3
  all_goals exact absurd trivial he

/-- In a run the label shows the number of people that the bill is divided by and the result
screen reports, in every state between events, exactly when the stepper's plus is never pressed on
the calculator. -/
theorem people_shown_iff (es : List Event) :
    machine.Always PeopleShown es ↔ machine.Along NotMoved es := by
  refine Machine.always_iff_along (fun a h => ?_) (fun _ _ _ _ hr h he hst => h.step hr he hst)
    (fun _ _ _ hr h he => stepUp_not_shown hr h he) es
  rw [peopleShown_iff (run_sound (Machine.run_nil.trans h))]
  obtain rfl := Option.some.inj h
  rfl

/-- After one press on plus three people are reported, and the label says two. -/
theorem label_after_step_up : ¬ machine.Always PeopleShown [.stepUp, .calculatePressed] := by
  intro h
  have hw : ∃ a, machine.run [.stepUp, .calculatePressed] = some a
      ∧ a.presented.bind ResultViewController.personCount = some 3 := by
    refine ⟨_, rfl, ?_⟩
    decide +kernel
  obtain ⟨a, hr, h3⟩ := hw
  obtain ⟨n, hl, -, hp⟩ := h _ a List.prefix_rfl hr
  obtain ⟨r, hpr, hc⟩ := Option.bind_eq_some_iff.1 h3
  rw [(run_sound hr).splitNumberLabel] at hl
  have h2 : (2 : ℤ) = n := toString_int_inj.1 hl
  rw [hp r hpr, ← h2] at hc
  exact absurd hc (by decide)

end Tipsy

end IosLearning
