import IosLearning.EggTimer

/-!
# One cook at a time

`busyCooking` is a lock: a tap takes it and hands over the first closure of a cook, each closure
of the cook but the last hands over one more, and the last gives the lock back. So one closure
waits while the lock is taken and none while it is free, and the taps in between change nothing
(`one_cook_at_a_time`).
-/

namespace IosLearning

namespace EggTimer

variable {eggTimes : String → Option ℤ}

/-- One closure waits while a cook is going on; none does while the screen asks its question. -/
def Locked (w : World ViewController Delayed) : Prop :=
  (w.state.busyCooking = true ∧ ∃ d, w.pending = [d])
    ∨ (w.state.busyCooking = false ∧ w.pending = []
      ∧ w.state.title = ViewController.defaultTitleText ∧ w.state.progressBarHidden = true)

/-- The input is not a tap on a busy screen. -/
def heeded (w : World ViewController Delayed) : Input String → Bool
  | .event _ => !w.state.busyCooking
  | .fire _ => true

/-- What the screen shows: the title, the progress and whether the bar is hidden. -/
def shown (w : World ViewController Delayed) : String × ℚ × Bool :=
  (w.state.title, w.state.progress, w.state.progressBarHidden)

theorem showRemainingTime_spec (secsRemaining : ℤ) (c : ViewController) :
    ∃ d, (c.showRemainingTime secsRemaining).2 = [d]
      ∧ (c.showRemainingTime secsRemaining).1.busyCooking = c.busyCooking := by
  unfold ViewController.showRemainingTime
  split_ifs
  · exact ⟨_, rfl, rfl⟩
  · exact ⟨_, rfl, rfl⟩

/-- Every closure but the last hands over another and leaves the lock as it is. -/
theorem runDelayed_spec {c c' : ViewController} {d : Delayed} {ks : List Delayed}
    (h : c.runDelayed eggTimes d = some (c', ks)) :
    (c'.busyCooking = c.busyCooking ∧ ∃ d', ks = [d'])
      ∨ (d = .finish ∧ ks = [] ∧ c' = { c with
          title := ViewController.defaultTitleText
          busyCooking := false
          progressBarHidden := true }) := by
  rcases d with b | s | _
  · simp only [ViewController.runDelayed, Option.map_eq_some_iff] at h
    obtain ⟨t, -, h⟩ := h
    obtain ⟨d', hd, hb⟩ := showRemainingTime_spec t { c with currentCookingTime := t }
    rw [h] at hd hb
    exact .inl ⟨hb, d', hd⟩
  · simp only [ViewController.runDelayed, Option.some.injEq] at h
    obtain ⟨d', hd, hb⟩ := showRemainingTime_spec s c
    rw [h] at hd hb
    exact .inl ⟨hb, d', hd⟩
  · simp only [ViewController.runDelayed, Option.some.injEq, Prod.mk.injEq] at h
    exact .inr ⟨rfl, h.2.symm, h.1.symm⟩

section Steps

variable {w w' : World ViewController Delayed}

/-- A tap is handled in every state. -/
theorem exists_step_tap (w : World ViewController Delayed) (b : String) :
    ∃ w', (machine eggTimes).step w (.event b) = some w' :=
  ⟨_, Screen.step_event.2 ⟨_, _, rfl, rfl⟩⟩

/-- A tap on a busy screen is handled and changes nothing at all. -/
theorem step_tap_busy {b : String} (hb : w.state.busyCooking = true) :
    (machine eggTimes).step w (.event b) = some w := by
  refine Screen.step_event.2 ⟨w.state, [], ?_, by simp⟩
  simp only [screen, ViewController.hardnessSelected, hb, if_true]

/-- A tap on an idle screen takes the lock and hands over the first closure. -/
theorem step_tap_idle {b : String} (hb : w.state.busyCooking = false)
    (h : (machine eggTimes).step w (.event b) = some w') :
    w'.state.busyCooking = true ∧ w'.pending = w.pending ++ [.start b]
      ∧ w'.state.progress = 0 ∧ w'.state.progressBarHidden = false := by
  obtain ⟨s, ks, he, rfl⟩ := Screen.step_event.1 h
  simp only [screen, ViewController.hardnessSelected, hb, Bool.false_eq_true, if_false,
    Option.some.injEq, Prod.mk.injEq] at he
  obtain ⟨rfl, rfl⟩ := he
  exact ⟨rfl, rfl, rfl, rfl⟩

theorem Locked.step {i : Input String} (hl : Locked w)
    (h : (machine eggTimes).step w i = some w') : Locked w' := by
  rcases i with b | k
  · rcases hl with ⟨hb, d, hd⟩ | ⟨hb, hp, -, -⟩
    · obtain rfl := Option.some.inj ((step_tap_busy hb).symm.trans h)
      exact .inl ⟨hb, d, hd⟩
    · obtain ⟨hb', hp', -, -⟩ := step_tap_idle hb h
      exact .inl ⟨hb', .start b, by simp [hp', hp]⟩
  · rcases hl with ⟨hb, d, hd⟩ | ⟨-, hp, -, -⟩
    · obtain ⟨d', s, ks, hd', hf, rfl⟩ := Screen.step_fire.1 h
      -- the closure that runs is the only one that waits
      have hk : k = 0 := by
        have := (List.getElem?_eq_some_iff.1 hd').1
        simp only [hd, List.length_singleton] at this
        omega
      subst hk
      rcases runDelayed_spec hf with ⟨hb', d'', rfl⟩ | ⟨-, rfl, rfl⟩
      · exact .inl ⟨hb'.trans hb, d'', by simp [hd]⟩
      · exact .inr ⟨rfl, by simp [hd], rfl, rfl⟩
    · exact absurd hp (Screen.step_fire_nil h)

end Steps

theorem run_locked {is : List (Input String)} {w : World ViewController Delayed}
    (h : (machine eggTimes).run is = some w) : Locked w := by
  refine Machine.reachable_induction ?_ (fun s i s' _ hl hst => hl.step hst) ⟨is, h⟩
  intro w h
  cases h
  exact .inr ⟨rfl, rfl, rfl, rfl⟩

theorem heeded_spec {w w' : World ViewController Delayed} {i : Input String}
    (hi : heeded w i = false) (h : (machine eggTimes).step w i = some w') : w' = w := by
  rcases i with b | k
  · have hb : w.state.busyCooking = true := by simpa [heeded] using hi
    exact Option.some.inj (h.symm.trans (step_tap_busy hb))
  · simp [heeded] at hi

/-- At most one closure waits, and one does exactly while the screen is busy; every tap is
handled, and one on a busy screen changes nothing, so without such taps a run leads to the same
state through the same sequence of screens, or to the same trap; and with none waiting the screen
asks its question, the bar hidden. -/
theorem one_cook_at_a_time (eggTimes : String → Option ℤ) (is : List (Input String)) :
    (∀ w, (machine eggTimes).run is = some w →
      w.pending.length ≤ 1 ∧ (w.state.busyCooking = true ↔ w.pending.length = 1)
        ∧ (∀ b, ∃ w', (machine eggTimes).step w (.event b) = some w')
        ∧ (w.state.busyCooking = true → ∀ b, (machine eggTimes).step w (.event b) = some w)
        ∧ (w.pending = [] → w.state.title = "How do you like your eggs?"
          ∧ w.state.progressBarHidden = true))
      ∧ (machine eggTimes).run ((machine eggTimes).kept heeded is) = (machine eggTimes).run is
      ∧ (((machine eggTimes).visited ((machine eggTimes).kept heeded is)).map shown).destutter
          (· ≠ ·) = (((machine eggTimes).visited is).map shown).destutter (· ≠ ·) := by
  refine ⟨fun w h => ?_, Machine.run_kept (fun _ _ _ => heeded_spec) is,
    Machine.visited_kept shown (fun _ _ _ => heeded_spec) is⟩
  rcases run_locked h with ⟨hb, d, hd⟩ | ⟨hb, hp, ht, hh⟩
  · refine ⟨by simp [hd], by simp [hb, hd], exists_step_tap w, fun hb b => step_tap_busy hb,
      fun hn => ?_⟩
    simp [hd] at hn
  · exact ⟨by simp [hp], by simp [hb, hp], exists_step_tap w, fun hb b => step_tap_busy hb,
      fun _ => ⟨ht, hh⟩⟩

end EggTimer

end IosLearning
