import IosLearning.FlashChat

/-!
# The title is shown in full

However many chains of closures share the stack and the label, each closure pops a character and
appends it in one step, so the label and the reversed stack always make up the title. Each
closure that runs takes one from the characters left and the closures waiting together: it pops
a character and hands over a closure in its place, or finds the stack empty and hands over none
(`title_animation`).
-/

namespace IosLearning

namespace FlashChat

variable {Character : Type*} {title : List Character}
  {w w' : World (WelcomeViewController Character) Delayed}

/-- The label followed by the reverse of the stack is the title. -/
def Complete (title : List Character) (w : World (WelcomeViewController Character) Delayed) :
    Prop :=
  ∃ l, w.state.titleLabel = some l ∧ l ++ w.state.titleText.reverse = title

/-- A closure waits while characters are left. -/
def Live (w : World (WelcomeViewController Character) Delayed) : Prop :=
  w.state.titleText ≠ [] → w.pending ≠ []

/-- The closures still to run while the screen does not appear again. -/
def work (w : World (WelcomeViewController Character) Delayed) : ℕ :=
  w.state.titleText.length + w.pending.length

theorem step_appear (h : (machine title).step w (.event .viewWillAppear) = some w') :
    w'.state.titleText = title.reverse ∧ w'.state.titleLabel = some [] ∧ w'.pending ≠ [] := by
  obtain ⟨s, ks, he, rfl⟩ := Screen.step_event.1 h
  cases he
  exact ⟨rfl, rfl, by simp⟩

theorem step_disappear (h : (machine title).step w (.event .viewWillDisappear) = some w') :
    w'.state.titleText = w.state.titleText ∧ w'.state.titleLabel = w.state.titleLabel
      ∧ w'.pending = w.pending := by
  obtain ⟨s, ks, he, rfl⟩ := Screen.step_event.1 h
  cases he
  exact ⟨rfl, rfl, by simp⟩

/-- A closure that runs moves a character to the label and another closure waits in its place,
or it finds none left. -/
theorem step_postNext {k : ℕ} (h : (machine title).step w (.fire k) = some w') :
    (∃ ch, w.state.titleText = w'.state.titleText ++ [ch]
        ∧ w'.state.titleLabel = w.state.titleLabel.map (· ++ [ch])
        ∧ w'.pending.length = w.pending.length ∧ w'.pending ≠ [])
      ∨ (w.state.titleText = [] ∧ w'.state.titleText = []
        ∧ w'.state.titleLabel = w.state.titleLabel
        ∧ w'.pending.length + 1 = w.pending.length) := by
  obtain ⟨d, s, ks, hd, hf, rfl⟩ := Screen.step_fire.1 h
  have hk := (List.getElem?_eq_some_iff.1 hd).1
  have hlen := List.length_eraseIdx_of_lt hk
  simp only [screen, WelcomeViewController.postNext, Option.some.injEq] at hf
  rcases hl : w.state.titleText.getLast? with _ | ch <;> rw [hl] at hf <;>
    simp only [WelcomeViewController.postCharToTitle, Prod.mk.injEq] at hf <;>
    obtain ⟨rfl, rfl⟩ := hf
  · refine .inr ⟨List.getLast?_eq_none_iff.1 hl, List.getLast?_eq_none_iff.1 hl, rfl, ?_⟩
    simp only [List.append_nil]
    omega
  · obtain ⟨rest, hrest⟩ := List.getLast?_eq_some_iff.1 hl
    refine .inl ⟨ch, by simp [hrest], rfl, ?_, by simp⟩
    simp only [List.length_append, List.length_singleton]
    omega

theorem exists_step_postNext {k : ℕ} (hk : k < w.pending.length) :
    ∃ w', (machine title).step w (.fire k) = some w' := by
  exact ⟨_, Screen.step_fire.2 ⟨w.pending[k], _, _, List.getElem?_eq_getElem hk, rfl, rfl⟩⟩

/-- An appearance and a disappearance are handled in every state. -/
theorem exists_step_event (w : World (WelcomeViewController Character) Delayed) :
    ∀ e, ∃ w', (machine title).step w (.event e) = some w'
  | .viewWillAppear => ⟨_, Screen.step_event.2 ⟨_, _, rfl, rfl⟩⟩
  | .viewWillDisappear => ⟨_, Screen.step_event.2 ⟨_, _, rfl, rfl⟩⟩

theorem step_work {i : Input Event} (hi : i ≠ .event .viewWillAppear)
    (h : (machine title).step w i = some w') :
    (if i.isFire then 1 else 0) + work w' = work w := by
  unfold work
  rcases i with (_ | _) | k
  · exact absurd rfl hi
  · obtain ⟨ht, -, hp⟩ := step_disappear h
    simp [ht, hp]
  · rcases step_postNext h with ⟨ch, ht, -, hp, -⟩ | ⟨ht, ht', -, hp⟩
    · have hlen := congrArg List.length ht
      simp only [List.length_append, List.length_singleton] at hlen
      simp only [Input.isFire_fire, if_true]
      omega
    · simp only [Input.isFire_fire, if_true, ht, ht', List.length_nil]
      omega

theorem step_live {i : Input Event} (hl : Live w) (h : (machine title).step w i = some w') :
    Live w' := by
  intro hne
  rcases i with (_ | _) | k
  · exact (step_appear h).2.2
  · obtain ⟨ht, -, hp⟩ := step_disappear h
    rw [hp]
    exact hl (ht ▸ hne)
  · rcases step_postNext h with ⟨ch, -, -, -, hp⟩ | ⟨-, ht, -, -⟩
    · exact hp
    · exact absurd ht hne

theorem step_complete {i : Input Event}
    (hc : Complete title w) (h : (machine title).step w i = some w') : Complete title w' := by
  obtain ⟨l, hl, hlt⟩ := hc
  rcases i with (_ | _) | k
  · obtain ⟨ht, hl', -⟩ := step_appear h
    exact ⟨[], hl', by simp [ht]⟩
  · obtain ⟨ht, hl', -⟩ := step_disappear h
    exact ⟨l, by rw [hl', hl], by rw [ht, hlt]⟩
  · rcases step_postNext h with ⟨ch, ht, hl', -, -⟩ | ⟨ht, ht', hl', -⟩
    · refine ⟨l ++ [ch], by rw [hl', hl, Option.map_some], ?_⟩
      rw [← hlt, ht]
      simp
    · exact ⟨l, by rw [hl', hl], by rw [ht', ← ht, hlt]⟩

theorem run_live {is : List (Input Event)} (h : (machine title).run is = some w)
    (happ : .event .viewWillAppear ∈ is) : Live w := by
  revert happ
  refine Machine.run_induction (P := fun is w => .event .viewWillAppear ∈ is → Live w) ?_ ?_ is h
  · intro w _ happ
    simp at happ
  · intro is w i w' _ ih hst happ
    rcases List.mem_append.1 happ with happ | happ
    · exact step_live (ih happ) hst
    · obtain rfl := List.mem_singleton.1 happ
      exact fun _ => (step_appear hst).2.2

theorem run_complete {is : List (Input Event)} (h : (machine title).run is = some w)
    (happ : .event .viewWillAppear ∈ is) : Complete title w := by
  revert happ
  refine Machine.run_induction
    (P := fun is w => .event .viewWillAppear ∈ is → Complete title w) ?_ ?_ is h
  · intro w _ happ
    simp at happ
  · intro is w i w' _ ih hst happ
    rcases List.mem_append.1 happ with happ | happ
    · exact step_complete (ih happ) hst
    · obtain rfl := List.mem_singleton.1 happ
      obtain ⟨ht, hl, -⟩ := step_appear hst
      exact ⟨[], hl, by simp [ht]⟩

theorem runFrom_work : ∀ (js : List (Input Event)) {w w' : World _ _},
    (∀ j ∈ js, j ≠ .event .viewWillAppear) → (machine title).runFrom w js = some w' →
      js.countP Input.isFire + work w' = work w
  | [], w, w', _, h => by
    cases h
    simp
  | j :: js, w, w', hj, h => by
    simp only [Machine.runFrom, Option.bind_eq_some_iff] at h
    obtain ⟨w₁, h₁, h₂⟩ := h
    have hstep := step_work (hj j List.mem_cons_self) h₁
    have ih := runFrom_work js (fun j' hj' => hj j' (List.mem_cons_of_mem _ hj')) h₂
    rw [List.countP_cons]
    omega

/-- The closures that wait can all run, one after the other. -/
theorem exists_runFrom_work : ∀ (n : ℕ) {w : World (WelcomeViewController Character) Delayed},
    Live w → work w = n → ∃ w', (machine title).runFrom w (List.replicate n (.fire 0)) = some w'
  | 0, w, _, _ => ⟨w, rfl⟩
  | n + 1, w, hl, hw => by
    have hp : 0 < w.pending.length := by
      by_contra hp
      have hn : w.pending = [] := List.length_eq_zero_iff.1 (by omega)
      have ht : w.state.titleText = [] := by
        by_contra hne
        exact hl hne hn
      simp [work, hn, ht] at hw
    obtain ⟨w₁, h₁⟩ : ∃ w₁, (machine title).step w (.fire 0) = some w₁ :=
      exists_step_postNext hp
    have hstep := step_work (by simp) h₁
    simp only [Input.isFire_fire, if_true] at hstep
    obtain ⟨w', h'⟩ := exists_runFrom_work n (step_live hl h₁) (by omega)
    exact ⟨w', by simp [Machine.runFrom, List.replicate_succ, h₁, h']⟩

theorem Complete.of_drained (hc : Complete title w) (hl : Live w) (hp : w.pending = []) :
    w.state.titleLabel = some title := by
  obtain ⟨l, hl', hlt⟩ := hc
  have ht : w.state.titleText = [] := by
    by_contra hne
    exact hl hne hp
  rw [hl', ← hlt, ht]
  simp

/-- After the first appearance the label and the reversed stack make up the title, a closure
waits while characters are left, and every appearance, disappearance and closure that waits is
handled. With `n` characters left and `k` closures waiting, and no further appearance, `n + k`
closures run and no more; then none waits and the label is the title. -/
theorem title_animation (title : List Character) {is : List (Input Event)}
    (happ : .event .viewWillAppear ∈ is)
    {w : World (WelcomeViewController Character) Delayed}
    (hr : (machine title).run is = some w) :
    Complete title w ∧ Live w
      ∧ (∀ e, ∃ w', (machine title).step w (.event e) = some w')
      ∧ (∀ k < w.pending.length, ∃ w', (machine title).step w (.fire k) = some w')
      ∧ (∀ js w', (∀ j ∈ js, j ≠ .event .viewWillAppear) →
        (machine title).runFrom w js = some w' →
          js.countP Input.isFire ≤ w.state.titleText.length + w.pending.length
            ∧ (w'.pending = [] ↔
              js.countP Input.isFire = w.state.titleText.length + w.pending.length)
            ∧ (w'.pending = [] → w'.state.titleLabel = some title))
      ∧ ∃ w', (machine title).runFrom w
          (List.replicate (w.state.titleText.length + w.pending.length) (.fire 0)) = some w' := by
  have hl := run_live hr happ
  have hc := run_complete hr happ
  refine ⟨hc, hl, exists_step_event w, fun k hk => exists_step_postNext hk,
    fun js w' hj h' => ?_, exists_runFrom_work _ hl rfl⟩
  have hw := runFrom_work js hj h'
  have hl' : Live w' := Machine.runFrom_induction (fun _ _ _ => step_live) js hl h'
  have hc' : Complete title w' :=
    Machine.runFrom_induction (fun _ _ _ => step_complete) js hc h'
  unfold work at hw
  refine ⟨by omega, ⟨fun hp => ?_, fun hn => ?_⟩, hc'.of_drained hl'⟩
  · have ht : w'.state.titleText = [] := by
      by_contra hne
      exact hl' hne hp
    simp only [hp, ht, List.length_nil] at hw
    omega
  · exact List.length_eq_zero_iff.1 (by omega)

/-- A second appearance while the first one's closure waits. -/
theorem title_animation_twice :
    ∃ w, (machine ['a', 'b']).run [.event .viewWillAppear, .fire 0, .event .viewWillAppear]
      = some w ∧ Complete ['a', 'b'] w := by
  obtain ⟨w, hw⟩ : ∃ w, (machine ['a', 'b']).run
      [.event .viewWillAppear, .fire 0, .event .viewWillAppear] = some w := ⟨_, rfl⟩
  exact ⟨w, hw, (title_animation ['a', 'b'] List.mem_cons_self hw).1⟩

end FlashChat

end IosLearning
