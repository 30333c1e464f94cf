import IosLearning.Proofs.DestiniTaps

/-!
# The screen shows a story that was visited

Told any text at all, the model goes to one of the current story's two destinations, so with
valid destinations the index stays valid. Each tap hands over an `updateUi`, and whichever of
those that wait runs last, it draws the story that is current then: so the screen always shows
one story the run has visited, and with none waiting the current one (`screen_shows_visited`).
-/

namespace IosLearning

namespace Destini

variable {stories : List Story}

/-- The tap handler, told the text of the choice. -/
def ViewController.told (stories : List Story) (choiceText : String) (c : ViewController) :
    Option (ViewController × List Delayed) :=
  (c.storyBrain.choiceSelected stories choiceText).map fun storyBrain =>
    ({ c with storyBrain }, [.updateUi])

/-- The story screen with taps that tell the handler a text in any way. -/
def toldScreen (stories : List Story) {Ev : Type} (text : Ev → ViewController → String) :
    Screen ViewController Ev Delayed where
  load := (screen stories).load
  onEvent c e := c.told stories (text e c)
  onFire := (screen stories).onFire

/-- The app's buttons tell their titles. -/
theorem screen_eq_toldScreen :
    screen stories = toldScreen stories fun b c => c.currentTitle b := by
  unfold screen toldScreen
  congr 1
  funext c b
  rcases hm : c.storyBrain.choiceSelected stories (c.currentTitle b) with _ | m <;>
    simp [ViewController.choiceSelected, ViewController.told, hm]

/-- Every choice of the table leads to a story of the table. -/
def ValidDestinations (stories : List Story) : Prop :=
  ∀ s ∈ stories, ∀ b, 0 ≤ (s.choice b).2 ∧ (s.choice b).2 < stories.length

def ValidIndex (stories : List Story) (m : StoryBrain) : Prop :=
  0 ≤ m.currentStoryIndex ∧ m.currentStoryIndex < stories.length

/-- The story was current in some state the run went through. -/
def Visited (stories : List Story) {Ev : Type}
    (M : Machine (World ViewController Delayed) (Input Ev)) (is : List (Input Ev)) (s : Story) :
    Prop :=
  ∃ pre w₀, pre <+: is ∧ M.run pre = some w₀
    ∧ w₀.state.storyBrain.getCurrentStory stories = some s

/-- The machine starts unless there is no story at all, and in every state of every run the index
is valid, no input traps, and the screen is that of one story visited, which is the current one
where no update waits. -/
def ShowsVisited (stories : List Story) {Ev : Type}
    (M : Machine (World ViewController Delayed) (Input Ev)) : Prop :=
  (M.start = none ↔ stories = []) ∧ ∀ is w, M.run is = some w →
    ValidIndex stories w.state.storyBrain ∧ (∀ i, ¬ M.Traps w i)
      ∧ ∃ s, Displays w.state s ∧ Visited stories M is s
        ∧ (w.pending = [] → w.state.storyBrain.getCurrentStory stories = some s)

section Model

variable {m m' : StoryBrain}

theorem validIndex_iff : ValidIndex stories m ↔ ∃ s, m.getCurrentStory stories = some s := by
  unfold ValidIndex StoryBrain.getCurrentStory
  refine ⟨fun h => ?_, fun h => ?_⟩
  · rw [if_pos h.1]
    exact ⟨_, List.getElem?_eq_getElem (by omega)⟩
  · obtain ⟨s, hs⟩ := h
    rw [Option.ite_none_right_eq_some] at hs
    have := (List.getElem?_eq_some_iff.1 hs.2).1
    omega

/-- Whatever the text, the model takes one of the current story's choices. -/
theorem choiceSelected_spec {t : String} (h : m.choiceSelected stories t = some m') :
    ∃ s, m.getCurrentStory stories = some s
      ∧ m'.currentStoryIndex = (s.choice (s.taken t)).2 := by
  simp only [StoryBrain.choiceSelected, Option.map_eq_some_iff] at h
  obtain ⟨s, hs, rfl⟩ := h
  refine ⟨s, hs, ?_⟩
  by_cases ht : t = s.choice1 <;> simp [Story.taken, Story.choice, ht]

theorem ValidIndex.choiceSelected (hv : ValidDestinations stories) {t : String}
    (h : m.choiceSelected stories t = some m') : ValidIndex stories m' := by
  obtain ⟨s, hs, hi⟩ := choiceSelected_spec h
  have := hv s (mem_of_getCurrentStory hs) (s.taken t)
  unfold ValidIndex
  rwa [hi]

theorem exists_updateUi {c : ViewController} (h : ValidIndex stories c.storyBrain) :
    ∃ c', c.updateUi stories = some c' := by
  obtain ⟨s, hs⟩ := validIndex_iff.1 h
  simp [ViewController.updateUi, StoryBrain.getCurrentStoryTitle,
    StoryBrain.getCurrentStoryChoice1, StoryBrain.getCurrentStoryChoice2, hs]

theorem exists_told {c : ViewController} (h : ValidIndex stories c.storyBrain) (t : String) :
    ∃ r, c.told stories t = some r := by
  obtain ⟨s, hs⟩ := validIndex_iff.1 h
  simp [ViewController.told, StoryBrain.choiceSelected, hs]

end Model

section Runs

variable {Ev : Type} {text : Ev → ViewController → String} {is : List (Input Ev)}
  {w w' : World ViewController Delayed}

theorem told_start (h : (toldScreen stories text).machine.start = some w) :
    w.pending = [] ∧ ∃ s, w.state.storyBrain.getCurrentStory stories = some s
      ∧ Displays w.state s :=
  load_spec (Screen.start_eq_some.1 h)

theorem told_start_none_iff : (toldScreen stories text).machine.start = none ↔ stories = [] := by
  refine ⟨fun h => ?_, fun h => ?_⟩
  · by_contra hne
    have hl : 0 < stories.length := List.length_pos_iff.2 hne
    have hi : ValidIndex stories ViewController.storyboard.storyBrain := by
      show (0 : ℤ) ≤ 0 ∧ (0 : ℤ) < stories.length
      omega
    obtain ⟨c, hc⟩ := exists_updateUi hi
    simp [Screen.machine, toldScreen, screen, ViewController.viewDidLoad, hc] at h
  · subst h
    rfl

/-- A tap changes the model alone, and an update draws the current story. -/
theorem told_step {i : Input Ev} (h : (toldScreen stories text).machine.step w i = some w') :
    (∃ e m, i = .event e
        ∧ w.state.storyBrain.choiceSelected stories (text e w.state) = some m
        ∧ w' = ⟨{ w.state with storyBrain := m }, w.pending ++ [.updateUi]⟩)
      ∨ ∃ k, i = .fire k ∧ w'.state.storyBrain = w.state.storyBrain
        ∧ ∃ s, w'.state.storyBrain.getCurrentStory stories = some s ∧ Displays w'.state s := by
  rcases i with e | k
  · obtain ⟨c, ks, he, rfl⟩ := Screen.step_event.1 h
    simp only [toldScreen, ViewController.told, Option.map_eq_some_iff, Prod.mk.injEq] at he
    obtain ⟨m, hm, rfl, rfl⟩ := he
    exact .inl ⟨e, m, rfl, hm, rfl⟩
  · obtain ⟨d, c, ks, -, hf, rfl⟩ := Screen.step_fire.1 h
    obtain ⟨-, hb, hs⟩ := onFire_spec (d := d) hf
    exact .inr ⟨k, rfl, hb, hs⟩

theorem told_validIndex (hv : ValidDestinations stories)
    (h : (toldScreen stories text).machine.run is = some w) :
    ValidIndex stories w.state.storyBrain := by
  refine Machine.reachable_induction (P := fun (w : World ViewController Delayed) =>
    ValidIndex stories w.state.storyBrain) (fun w hw => ?_) (fun w i w' _ hi hst => ?_) ⟨is, h⟩
  · obtain ⟨-, s, hs, -⟩ := told_start hw
    exact validIndex_iff.2 ⟨s, hs⟩
  · rcases told_step hst with ⟨e, m, -, hm, rfl⟩ | ⟨k, -, hb, -⟩
    · exact ValidIndex.choiceSelected hv hm
    · rwa [hb]

theorem told_no_trap (hi : ValidIndex stories w.state.storyBrain) (i : Input Ev) :
    ¬ (toldScreen stories text).machine.Traps w i := by
  rintro ⟨hen, htr⟩
  rcases i with e | k
  · obtain ⟨r, hr⟩ := exists_told hi (text e w.state)
    simp [Screen.machine, toldScreen, hr] at htr
  · obtain ⟨c, hc⟩ := exists_updateUi hi
    have hk : k < w.pending.length := of_decide_eq_true hen
    simp [Screen.machine, toldScreen, screen, hc, hk] at htr

theorem Visited.mono {M : Machine (World ViewController Delayed) (Input Ev)} {i : Input Ev}
    {s : Story} (h : Visited stories M is s) : Visited stories M (is ++ [i]) s := by
  obtain ⟨pre, w₀, hp, hw₀, hs⟩ := h
  exact ⟨pre, w₀, hp.trans (List.prefix_append _ _), hw₀, hs⟩

theorem told_shows (h : (toldScreen stories text).machine.run is = some w) :
    ∃ s, Displays w.state s ∧ Visited stories (toldScreen stories text).machine is s
      ∧ (w.pending = [] → w.state.storyBrain.getCurrentStory stories = some s) := by
  refine Machine.run_induction (P := fun is (w : World ViewController Delayed) =>
    ∃ s, Displays w.state s ∧ Visited stories (toldScreen stories text).machine is s
      ∧ (w.pending = [] → w.state.storyBrain.getCurrentStory stories = some s)) ?_ ?_ is h
  · intro w hw
    obtain ⟨-, s, hs, hd⟩ := told_start hw
    exact ⟨s, hd, ⟨[], w, List.prefix_rfl, by rw [Machine.run_nil, hw], hs⟩, fun _ => hs⟩
  · intro is w i w' hr ih hst
    rcases told_step hst with ⟨e, m, rfl, -, rfl⟩ | ⟨k, rfl, -, s, hs, hd⟩
    · -- the screen stays, and an update waits
      obtain ⟨s, hd, hvis, -⟩ := ih
      exact ⟨s, ⟨hd.label, hd.title⟩, hvis.mono, fun hp => by simp at hp⟩
    · exact ⟨s, hd, ⟨_, w', List.prefix_rfl, Machine.run_snoc_some.2 ⟨w, hr, hst⟩, hs⟩,
        fun _ => hs⟩

end Runs

/-- With valid destinations the index is always valid and nothing traps, the screen is that of
one story visited, and with no update waiting of the current one: for the app's two buttons, and
for taps that tell the model any texts at all. The one table that is left out is the empty one,
with which the screen traps as it comes up. -/
theorem screen_shows_visited (stories : List Story) (hv : ValidDestinations stories) :
    ShowsVisited stories (machine stories)
      ∧ ∀ (Ev : Type) (text : Ev → ViewController → String),
        ShowsVisited stories (toldScreen stories text).machine := by
  have ht : ∀ (Ev : Type) (text : Ev → ViewController → String),
      ShowsVisited stories (toldScreen stories text).machine := by
    intro Ev text
    refine ⟨told_start_none_iff, fun is w h => ?_⟩
    have hi := told_validIndex hv h
    exact ⟨hi, told_no_trap hi, told_shows h⟩
  refine ⟨?_, ht⟩
  rw [machine, screen_eq_toldScreen]
  exact ht _ _

theorem screen_shows_visited_shipped :
    ShowsVisited StoryBrain.shipped (machine StoryBrain.shipped) := by
  have hv : ValidDestinations StoryBrain.shipped := by
    intro s hs b
    have : ∀ s ∈ StoryBrain.shipped, (0 ≤ s.choice1Destination ∧ s.choice1Destination < 6)
        ∧ 0 ≤ s.choice2Destination ∧ s.choice2Destination < 6 := by decide
    rcases b with _ | _
    · exact (this s hs).1
    · exact (this s hs).2
  exact (screen_shows_visited StoryBrain.shipped hv).1

end Destini

end IosLearning
