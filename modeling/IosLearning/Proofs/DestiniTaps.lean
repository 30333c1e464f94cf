import IosLearning.Destini

/-!
# Where a tap leads

The screen shows the story that was current when `updateUi` last ran. A tap is judged against
the story current now, by the text of the tapped button alone, and what is not the first
choice's text counts as the second's. So a tap leads where the story on screen says, along a
choice with a text on the screen, exactly when the current story answers it: it offers the
tapped choice too, or takes another choice on screen for it and leads to the same place
(`taps_follow_iff`).
-/

namespace IosLearning

namespace Destini

variable {stories : List Story} {w w' : World ViewController Delayed}

/-- The text and the destination a story gives to a button. -/
def Story.choice (s : Story) : ChoiceButton → String × ℤ
  | .choice1Button => (s.choice1, s.choice1Destination)
  | .choice2Button => (s.choice2, s.choice2Destination)

/-- The story `updateUi` last put on screen. -/
def OnScreen (stories : List Story) (is : List (Input ChoiceButton)) (s : Story) : Prop :=
  ∃ w₀, (machine stories).run (Input.uptoFire is) = some w₀
    ∧ w₀.state.storyBrain.getCurrentStory stories = some s

/-- The choice the model takes when it is told a text. -/
def Story.taken (m : Story) (t : String) : ChoiceButton :=
  if t = m.choice1 then .choice1Button else .choice2Button

/-- The tap leads to the destination the story on screen gives to the tapped button, and the
choice of the current story it is taken for has a text on the screen. -/
def TapFollows (stories : List Story) (is : List (Input ChoiceButton))
    (w : World ViewController Delayed) : Input ChoiceButton → Prop
  | .event b => ∃ w' s m b', (machine stories).step w (.event b) = some w'
      ∧ OnScreen stories is s ∧ w'.state.storyBrain.currentStoryIndex = (s.choice b).2
      ∧ w.state.storyBrain.getCurrentStory stories = some m
      ∧ w.state.currentTitle b' = (m.choice (m.taken (w.state.currentTitle b))).1
  | .fire _ => True

/-- `m` offers the choice `s` has on the button; or it has neither its text, and for its second
choice the text of another button of `s` and the same destination. -/
def Story.Answers (m s : Story) (b : ChoiceButton) : Prop :=
  (∃ b', m.choice b' = s.choice b)
    ∨ ((s.choice b).1 ≠ m.choice1
      ∧ ∃ b', m.choice .choice2Button = ((s.choice b').1, (s.choice b).2))

/-- The current story answers the choice tapped on the story on screen. -/
def TapOffered (stories : List Story) (is : List (Input ChoiceButton))
    (w : World ViewController Delayed) : Input ChoiceButton → Prop
  | .event b => ∃ s m, OnScreen stories is s
      ∧ w.state.storyBrain.getCurrentStory stories = some m ∧ m.Answers s b
  | .fire _ => True

/-- The label and the buttons are those of `s`. -/
structure Displays (c : ViewController) (s : Story) : Prop where
  label : c.storyLabel = s.title
  title : ∀ b, c.currentTitle b = (s.choice b).1

theorem updateUi_spec {c c' : ViewController} (h : c.updateUi stories = some c') :
    c'.storyBrain = c.storyBrain
      ∧ ∃ s, c.storyBrain.getCurrentStory stories = some s ∧ Displays c' s := by
  rcases hs : c.storyBrain.getCurrentStory stories with _ | s
  · simp [ViewController.updateUi, StoryBrain.getCurrentStoryTitle, hs] at h
  · simp only [ViewController.updateUi, StoryBrain.getCurrentStoryTitle,
      StoryBrain.getCurrentStoryChoice1, StoryBrain.getCurrentStoryChoice2, hs, Option.map_some,
      Option.bind_eq_bind, Option.bind_some, Option.pure_def, Option.some.injEq] at h
    subst h
    exact ⟨rfl, s, rfl, rfl, fun b => by cases b <;> rfl⟩

/-- The screen comes up with the current story and nothing waiting. -/
theorem load_spec {c : ViewController} {ks : List Delayed}
    (h : (screen stories).load = some (c, ks)) :
    ks = [] ∧ ∃ s, c.storyBrain.getCurrentStory stories = some s ∧ Displays c s := by
  simp only [screen, Option.map_eq_some_iff, Prod.mk.injEq] at h
  obtain ⟨c, h, rfl, rfl⟩ := h
  obtain ⟨hb, s, hs, hd⟩ := updateUi_spec h
  exact ⟨rfl, s, by rw [hb, hs], hd⟩

/-- An update draws the current story and hands nothing over. -/
theorem onFire_spec {c c' : ViewController} {d : Delayed} {ks : List Delayed}
    (h : (screen stories).onFire c d = some (c', ks)) :
    ks = [] ∧ c'.storyBrain = c.storyBrain
      ∧ ∃ s, c'.storyBrain.getCurrentStory stories = some s ∧ Displays c' s := by
  simp only [screen, Option.map_eq_some_iff, Prod.mk.injEq] at h
  obtain ⟨c', h, rfl, rfl⟩ := h
  obtain ⟨hb, s, hs, hd⟩ := updateUi_spec h
  exact ⟨rfl, hb, s, by rw [hb, hs], hd⟩

theorem step_tap {b : ChoiceButton} :
    (machine stories).step w (.event b) = some w' ↔
      ∃ m, w.state.storyBrain.getCurrentStory stories = some m
        ∧ w' = ⟨{ w.state with storyBrain :=
            ⟨(m.choice (m.taken (w.state.currentTitle b))).2⟩ }, w.pending ++ [.updateUi]⟩ := by
  rcases hm : w.state.storyBrain.getCurrentStory stories with _ | m
  · simp [machine, Screen.step_event, screen, ViewController.choiceSelected,
      StoryBrain.choiceSelected, hm]
  · by_cases ht : w.state.currentTitle b = m.choice1 <;>
      simp [machine, Screen.step_event, screen, ViewController.choiceSelected,
        StoryBrain.choiceSelected, Story.taken, Story.choice, hm, ht]

theorem step_update {k : ℕ} (h : (machine stories).step w (.fire k) = some w') :
    w'.state.storyBrain = w.state.storyBrain ∧ w'.pending = w.pending.eraseIdx k
      ∧ ∃ s, w'.state.storyBrain.getCurrentStory stories = some s ∧ Displays w'.state s := by
  obtain ⟨d, c', ks, -, hf, rfl⟩ := Screen.step_fire.1 h
  obtain ⟨rfl, hb, hs⟩ := onFire_spec hf
  exact ⟨hb, by simp, hs⟩

/-- The screen shows the story that was current when it was last drawn. -/
theorem run_onScreen {is : List (Input ChoiceButton)} (h : (machine stories).run is = some w) :
    ∃ s, OnScreen stories is s ∧ Displays w.state s := by
  refine Machine.run_induction (P := fun is (w : World ViewController Delayed) =>
    ∃ s, OnScreen stories is s ∧ Displays w.state s) ?_ ?_ is h
  · intro w h
    obtain ⟨-, s, hs, hd⟩ := load_spec (Screen.start_eq_some.1 h)
    exact ⟨s, ⟨w, by rw [Input.uptoFire_nil, Machine.run_nil, h], hs⟩, hd⟩
  · intro is w i w' hr ih hst
    rcases i with b | k
    · obtain ⟨s, ⟨w₀, hw₀, hs⟩, hd⟩ := ih
      obtain ⟨m, -, rfl⟩ := step_tap.1 hst
      exact ⟨s, ⟨w₀, by rw [Input.uptoFire_event, hw₀], hs⟩, hd.label, hd.title⟩
    · obtain ⟨-, -, s, hs, hd⟩ := step_update hst
      refine ⟨s, ⟨w', ?_, hs⟩, hd⟩
      rw [Input.uptoFire_fire]
      exact Machine.run_snoc_some.2 ⟨w, hr, hst⟩

theorem OnScreen.unique {is : List (Input ChoiceButton)} {s s' : Story}
    (h : OnScreen stories is s) (h' : OnScreen stories is s') : s = s' := by
  obtain ⟨w₀, hw₀, hs⟩ := h
  obtain ⟨w₁, hw₁, hs'⟩ := h'
  obtain rfl := Option.some.inj (hw₀.symm.trans hw₁)
  exact Option.some.inj (hs.symm.trans hs')

theorem mem_of_getCurrentStory {m : StoryBrain} {s : Story}
    (h : m.getCurrentStory stories = some s) : s ∈ stories := by
  unfold StoryBrain.getCurrentStory at h
  split_ifs at h
  exact List.mem_of_getElem? h

/-- Where a story's two texts differ, a choice's text leads to that choice. -/
theorem taken_choice {m : Story} (hne : m.choice1 ≠ m.choice2) (b : ChoiceButton) :
    m.taken (m.choice b).1 = b := by
  unfold Story.taken
  rcases b with _ | _
  · exact if_pos rfl
  · exact if_neg hne.symm

/-- Where a story's two texts differ, it answers a choice exactly when what it takes for it has a
text on the screen and the choice's destination. -/
theorem answers_iff {m s : Story} (hne : m.choice1 ≠ m.choice2) (b : ChoiceButton) :
    m.Answers s b ↔
      ∃ b', m.choice (m.taken (s.choice b).1) = ((s.choice b').1, (s.choice b).2) := by
  unfold Story.Answers
  refine ⟨fun h => ?_, fun h => ?_⟩
  · rcases h with ⟨b', hb'⟩ | ⟨h1, b', hb'⟩
    · refine ⟨b, ?_⟩
      rw [← hb', taken_choice hne b']
    · refine ⟨b', ?_⟩
      rw [Story.taken, if_neg h1, hb']
  · obtain ⟨b', hb'⟩ := h
    by_cases h1 : (s.choice b).1 = m.choice1
    · -- told its first text, the model takes its first choice
      refine Or.inl ⟨.choice1Button, ?_⟩
      rw [Story.taken, if_pos h1] at hb'
      have hd : m.choice1Destination = (s.choice b).2 := congrArg Prod.snd hb'
      show (m.choice1, m.choice1Destination) = s.choice b
      rw [← h1, hd]
    · rw [Story.taken, if_neg h1] at hb'
      exact Or.inr ⟨h1, b', hb'⟩

theorem tapFollows_iff (hne : ∀ s ∈ stories, s.choice1 ≠ s.choice2)
    {is : List (Input ChoiceButton)} (hr : (machine stories).run is = some w)
    (i : Input ChoiceButton) : TapFollows stories is w i ↔ TapOffered stories is w i := by
  rcases i with b | k
  · obtain ⟨s, hon, hd⟩ := run_onScreen hr
    refine ⟨fun h => ?_, fun h => ?_⟩
    · obtain ⟨w', s', m, b', hst, hon', hdest, hm, ht⟩ := h
      obtain rfl := hon.unique hon'
      obtain ⟨m', hm', rfl⟩ := step_tap.1 hst
      obtain rfl := Option.some.inj (hm.symm.trans hm')
      refine ⟨s, m, hon, hm, (answers_iff (hne m (mem_of_getCurrentStory hm)) b).2 ⟨b', ?_⟩⟩
      rw [hd.title b] at hdest ht
      rw [hd.title b'] at ht
      exact Prod.ext ht.symm hdest
    · obtain ⟨s', m, hon', hm, ha⟩ := h
      obtain rfl := hon.unique hon'
      obtain ⟨b', hb'⟩ := (answers_iff (hne m (mem_of_getCurrentStory hm)) b).1 ha
      rw [← hd.title b] at hb'
      refine ⟨_, s, m, b', step_tap.2 ⟨m, hm, rfl⟩, hon, ?_, hm, ?_⟩
      · rw [hb']
      · rw [hb', hd.title b']
  · exact Iff.rfl

/-- In a run every tap leads where the story on screen says, along a choice with a text on the
screen, exactly when at every tap the current story answers the tapped choice. -/
theorem taps_follow_iff (hne : ∀ s ∈ stories, s.choice1 ≠ s.choice2)
    (is : List (Input ChoiceButton)) :
    (machine stories).Along (TapFollows stories) is
      ↔ (machine stories).Along (TapOffered stories) is :=
  ⟨Machine.Along.mono fun _ _ i hr => (tapFollows_iff hne hr i).1,
    Machine.Along.mono fun _ _ i hr => (tapFollows_iff hne hr i).2⟩

theorem shipped_texts : ∀ s ∈ StoryBrain.shipped, s.choice1 ≠ s.choice2 := by
  decide

theorem taps_follow_one_tap :
    (machine StoryBrain.shipped).Along (TapFollows StoryBrain.shipped)
        [.event .choice1Button, .fire 0]
      ↔ (machine StoryBrain.shipped).Along (TapOffered StoryBrain.shipped)
        [.event .choice1Button, .fire 0] :=
  taps_follow_iff shipped_texts _

/-- A second tap on "I'll hop in" before the screen has followed the first: the model takes it
for the knife, and the reader is led to the guardrail. -/
theorem second_tap_astray :
    (∀ s ∈ StoryBrain.shipped, s.choice1 ≠ s.choice2
        ∧ 0 ≤ s.choice1Destination ∧ s.choice1Destination < StoryBrain.shipped.length
        ∧ 0 ≤ s.choice2Destination ∧ s.choice2Destination < StoryBrain.shipped.length)
      ∧ ¬ (machine StoryBrain.shipped).Along (TapFollows StoryBrain.shipped)
        [.event .choice1Button, .event .choice1Button] := by
  refine ⟨by decide, fun h => ?_⟩
  obtain ⟨w, hw⟩ : ∃ w, (machine StoryBrain.shipped).run [.event .choice1Button] = some w :=
    ⟨_, rfl⟩
  obtain ⟨w', s, m, b', hst, ⟨w₀, hw₀, hs⟩, hd, -⟩ :=
    h [.event .choice1Button] (.event .choice1Button) w List.prefix_rfl hw
  have h4 : w'.state.storyBrain.currentStoryIndex = 4 := by
    cases hw
    cases hst
    rfl
  have h2 : (s.choice .choice1Button).2 = 2 := by
    cases hw₀
    cases hs
    rfl
  rw [h4, h2] at hd
  exact absurd hd (by decide)

end Destini

end IosLearning
