import IosLearning.Proofs.EggTimerLock
import Mathlib.Algebra.Order.Field.Basic
import Mathlib.Data.Rat.Cast.Order
import Mathlib.Tactic.FieldSimp
import Mathlib.Tactic.Positivity
import Mathlib.Tactic.Ring

/-!
# How a cook counts down

The `n`-th closure of a cook of `T` seconds shows `T - n + 1` seconds remaining and hands over
the call for one second less; at zero it shows "Done", and the last gives the screen back. What
has run so far determines what waits and where the progress is (`CookAt`), whatever taps come in
between, so the cook takes `max T 0 + 2` closures (`cook_counts_down`).
-/

namespace IosLearning

namespace EggTimer

variable {eggTimes : String → Option ℤ} {b : String} {T : ℤ}

/-- The closures that have run. -/
def callbacks (is : List (Input String)) : ℕ := is.countP Input.isFire

/-- What waits when `n` closures of a cook have run. -/
def waiting (b : String) (T : ℤ) (n : ℕ) : List Delayed :=
  if n = 0 then [.start b]
  else if n ≤ T.toNat then [.showRemainingTime (T - n)]
  else if n = T.toNat + 1 then [.finish]
  else []

/-- The progress when `n` closures of a cook have run. -/
def progressAt (T : ℤ) (n : ℕ) : ℚ :=
  if n = 0 then 0
  else if n ≤ T.toNat then ((T - (T - n + 1) : ℤ) : ℚ) / (T : ℚ)
  else 1

/-- The screen asks its question and nothing waits. -/
structure Idle (w : World ViewController Delayed) : Prop where
  busyCooking : w.state.busyCooking = false
  pending : w.pending = []
  title : w.state.title = ViewController.defaultTitleText
  progressBarHidden : w.state.progressBarHidden = true

/-- The screen when `n` closures of a cook have run and not yet the last. -/
structure CookAt (b : String) (T : ℤ) (n : ℕ) (w : World ViewController Delayed) : Prop where
  busyCooking : w.state.busyCooking = true
  pending : w.pending = waiting b T n
  currentCookingTime : 0 < n → w.state.currentCookingTime = T
  progress : w.state.progress = progressAt T n

/-- A closure that divides leaves one minus the quotient as the progress. -/
theorem runDelayed_division {c c' : ViewController} {d : Delayed} {ks : List Delayed} {s t : ℤ}
    (h : c.runDelayed eggTimes d = some (c', ks)) (hd : d.division eggTimes c = some (s, t)) :
    c'.currentCookingTime = t ∧ c'.progress = 1 - (s : ℚ) / (t : ℚ) := by
  rcases d with b | r | _
  · simp only [Delayed.division, Option.bind_eq_some_iff] at hd
    obtain ⟨u, hu, hd⟩ := hd
    simp only [ViewController.runDelayed, hu, Option.map_some, Option.some.injEq] at h
    have := ViewController.showRemainingTime_division hd
    rwa [h] at this
  · simp only [ViewController.runDelayed, Option.some.injEq] at h
    have := ViewController.showRemainingTime_division hd
    rwa [h] at this
  · simp [Delayed.division] at hd

/-- A closure that does not divide fills the bar, or is the last and leaves it as it is. -/
theorem runDelayed_of_division {c c' : ViewController} {d : Delayed} {ks : List Delayed}
    (h : c.runDelayed eggTimes d = some (c', ks)) (hd : d.division eggTimes c = none) :
    c'.progress = 1 ∨ d = .finish ∧ c'.progress = c.progress := by
  rcases d with b | r | _
  · simp only [ViewController.runDelayed, Option.map_eq_some_iff] at h
    obtain ⟨t, ht, h⟩ := h
    simp only [Delayed.division, ht, Option.bind_some] at hd
    rw [ViewController.showRemainingTime_of_division hd] at h
    exact .inl (congrArg (fun r => r.1.progress) h).symm
  · simp only [ViewController.runDelayed, Option.some.injEq] at h
    rw [ViewController.showRemainingTime_of_division hd] at h
    exact .inl (congrArg (fun r => r.1.progress) h).symm
  · simp only [ViewController.runDelayed, Option.some.injEq, Prod.mk.injEq] at h
    exact .inr ⟨rfl, h.1 ▸ rfl⟩

/-! ## The progress -/

theorem progressAt_zero : progressAt T 0 = 0 := rfl

theorem progressAt_done : progressAt T (T.toNat + 1) = 1 := by
  simp [progressAt]

theorem progressAt_remaining {s : ℤ} (h0 : 0 < s) (hs : s ≤ T) :
    progressAt T (T - s + 1).toNat = ((T - s : ℤ) : ℚ) / (T : ℚ) := by
  unfold progressAt
  rw [if_neg (by omega), if_pos (by omega)]
  have hn : ((T - s + 1).toNat : ℤ) = T - s + 1 := Int.toNat_of_nonneg (by omega)
  rw [hn]
  congr 2
  omega

theorem progressAt_nonneg (n : ℕ) : 0 ≤ progressAt T n := by
  unfold progressAt
  split_ifs with h0 hn
  · exact le_rfl
  · have hT : (0 : ℚ) ≤ T := by exact_mod_cast (by omega : 0 ≤ T)
    have hk : (0 : ℚ) ≤ ((T - (T - n + 1) : ℤ) : ℚ) := by
      exact_mod_cast (by omega : 0 ≤ T - (T - n + 1))
    exact div_nonneg hk hT
  · exact zero_le_one

theorem progressAt_le_one (n : ℕ) : progressAt T n ≤ 1 := by
  unfold progressAt
  split_ifs with h0 hn
  · exact zero_le_one
  · have hT : (0 : ℚ) < T := by exact_mod_cast (by omega : 0 < T)
    rw [div_le_one hT]
    exact_mod_cast (by omega : T - (T - n + 1) ≤ T)
  · exact le_rfl

theorem progressAt_mono : Monotone (progressAt T) := by
  intro m n hmn
  by_cases hn : n ≤ T.toNat
  · by_cases h0 : m = 0
    · rw [h0]
      exact progressAt_nonneg n
    · have hT : (0 : ℚ) ≤ T := by exact_mod_cast (by omega : 0 ≤ T)
      unfold progressAt
      rw [if_neg h0, if_pos (by omega), if_neg (by omega), if_pos hn]
      refine div_le_div_of_nonneg_right ?_ hT
      exact_mod_cast (by omega : T - (T - m + 1) ≤ T - (T - n + 1))
  · have h1 : progressAt T n = 1 := by
      unfold progressAt
      rw [if_neg (by omega), if_neg hn]
    rw [h1]
    exact progressAt_le_one m

/-! ## The closures of a cook -/

section Cook

variable {n : ℕ} {w w' : World ViewController Delayed}

/-- The call with `T - n` seconds is the one after `n` closures. -/
theorem cookAt_showRemainingTime {c : ViewController} (hb : c.busyCooking = true)
    (hc : c.currentCookingTime = T) (hn : n ≤ T.toNat) :
    CookAt b T (n + 1)
      ⟨(c.showRemainingTime (T - n)).1, (c.showRemainingTime (T - n)).2⟩ := by
  unfold ViewController.showRemainingTime
  by_cases hs : T - n > 0
  · have hT : (T : ℚ) ≠ 0 := by exact_mod_cast (by omega : T ≠ 0)
    simp only [hs, if_true]
    refine ⟨hb, ?_, fun _ => hc, ?_⟩
    · rw [waiting, if_neg (by omega), if_pos (by omega),
        show T - ((n + 1 : ℕ) : ℤ) = T - n - 1 by omega]
    · show 1 - ((T - n : ℤ) : ℚ) / (c.currentCookingTime : ℚ) = progressAt T (n + 1)
      rw [progressAt, if_neg (by omega), if_pos (by omega), hc]
      field_simp
      push_cast
      ring
  · simp only [hs, if_false]
    have hn' : n = T.toNat := by omega
    subst hn'
    refine ⟨hb, ?_, fun _ => hc, progressAt_done.symm⟩
    rw [waiting, if_neg (by omega), if_neg (by omega), if_pos rfl]

/-- While a cook goes on the closure that waits can run. -/
theorem CookAt.runDelayed (hT : eggTimes b = some T) (h : CookAt b T n w)
    (hn : n ≤ T.toNat + 1) :
    ∃ d c' ks, w.pending = [d] ∧ w.state.runDelayed eggTimes d = some (c', ks)
      ∧ (n ≤ T.toNat → CookAt b T (n + 1) ⟨c', ks⟩)
      ∧ (n = T.toNat + 1 → Idle ⟨c', ks⟩ ∧ c'.progress = 1) := by
  have hp := h.pending
  unfold waiting at hp
  by_cases h0 : n = 0
  · -- the first closure sets the time and makes the first call
    subst h0
    rw [if_pos rfl] at hp
    have hc := cookAt_showRemainingTime (b := b) (n := 0)
      (c := { w.state with currentCookingTime := T }) h.busyCooking rfl (Nat.zero_le _)
    rw [Nat.cast_zero, sub_zero] at hc
    refine ⟨_, _, _, hp, ?_, fun _ => hc, fun h1 => by omega⟩
    simp only [ViewController.runDelayed, hT, Option.map_some]
  · rw [if_neg h0] at hp
    by_cases hle : n ≤ T.toNat
    · rw [if_pos hle] at hp
      refine ⟨_, _, _, hp, rfl, fun _ => ?_, fun h1 => by omega⟩
      exact cookAt_showRemainingTime h.busyCooking (h.currentCookingTime (by omega)) hle
    · have hn' : n = T.toNat + 1 := by omega
      subst hn'
      rw [if_neg hle, if_pos rfl] at hp
      refine ⟨_, _, _, hp, rfl, fun h1 => absurd h1 hle, fun _ => ⟨⟨rfl, rfl, rfl, rfl⟩, ?_⟩⟩
      exact h.progress.trans progressAt_done

theorem CookAt.step_fire (hT : eggTimes b = some T) (h : CookAt b T n w) (hn : n ≤ T.toNat + 1)
    {k : ℕ} (hst : (machine eggTimes).step w (.fire k) = some w') :
    (n ≤ T.toNat → CookAt b T (n + 1) w')
      ∧ (n = T.toNat + 1 → Idle w' ∧ w'.state.progress = 1) := by
  obtain ⟨d, c', ks, hp, hr, hgo, hend⟩ := h.runDelayed hT hn
  obtain ⟨d', s, ks', hd', hf, rfl⟩ := Screen.step_fire.1 hst
  have hk : k = 0 := by
    have := (List.getElem?_eq_some_iff.1 hd').1
    simp only [hp, List.length_singleton] at this
    omega
  subst hk
  simp only [hp, List.getElem?_cons_zero, Option.some.injEq] at hd'
  subst hd'
  simp only [screen, hr, Option.some.injEq, Prod.mk.injEq] at hf
  obtain ⟨rfl, rfl⟩ := hf
  simpa [hp] using And.intro hgo hend

theorem CookAt.exists_step_fire (hT : eggTimes b = some T) (h : CookAt b T n w)
    (hn : n ≤ T.toNat + 1) : ∃ w', (machine eggTimes).step w (.fire 0) = some w' := by
  obtain ⟨d, c', ks, hp, hr, -, -⟩ := h.runDelayed hT hn
  exact ⟨_, Screen.step_fire.2 ⟨d, c', ks, by rw [hp]; rfl, hr, rfl⟩⟩

/-- The closure that waits divides by the cooking time, which is positive, and what it divides is
positive and at most that. -/
theorem CookAt.division (hT : eggTimes b = some T) (h : CookAt b T n w) {d : Delayed}
    (hd : d ∈ w.pending) {s t : ℤ} (hs : d.division eggTimes w.state = some (s, t)) :
    t = T ∧ 0 < s ∧ s ≤ T := by
  rw [h.pending, waiting] at hd
  split_ifs at hd with h0 hle hl
  · obtain rfl := List.mem_singleton.1 hd
    simp only [Delayed.division, ViewController.division, hT, Option.bind_some,
      Option.ite_none_right_eq_some, Option.some.injEq, Prod.mk.injEq] at hs
    omega
  · obtain rfl := List.mem_singleton.1 hd
    simp only [Delayed.division, ViewController.division, Option.ite_none_right_eq_some,
      Option.some.injEq, Prod.mk.injEq] at hs
    have := h.currentCookingTime (by omega)
    omega
  · obtain rfl := List.mem_singleton.1 hd
    simp [Delayed.division] at hs
  · simp at hd

theorem CookAt.step_division (hT : eggTimes b = some T) (h : CookAt b T n w)
    (hn : n ≤ T.toNat + 1) {d : Delayed} (hd : d ∈ w.pending) {s t : ℤ}
    (hs : d.division eggTimes w.state = some (s, t)) {k : ℕ}
    (hst : (machine eggTimes).step w (.fire k) = some w') :
    w'.state.currentCookingTime = t ∧ w'.state.progress = 1 - (s : ℚ) / (t : ℚ) := by
  obtain ⟨d₀, -, -, hp, -⟩ := h.runDelayed hT hn
  obtain ⟨d', c', ks, hd', hf, rfl⟩ := Screen.step_fire.1 hst
  have hm := List.mem_of_getElem? hd'
  rw [hp, List.mem_singleton] at hd hm
  subst hd hm
  exact runDelayed_division hf hs

theorem CookAt.step_of_division (hT : eggTimes b = some T) (h : CookAt b T n w)
    (hn : n ≤ T.toNat + 1) {d : Delayed} (hd : d ∈ w.pending)
    (hs : d.division eggTimes w.state = none) {k : ℕ}
    (hst : (machine eggTimes).step w (.fire k) = some w') : w'.state.progress = 1 := by
  obtain ⟨d₀, -, -, hp, -⟩ := h.runDelayed hT hn
  obtain ⟨d', c', ks, hd', hf, rfl⟩ := Screen.step_fire.1 hst
  have hm := List.mem_of_getElem? hd'
  rw [hp, List.mem_singleton] at hd hm
  subst hd hm
  rcases runDelayed_of_division hf hs with hpr | ⟨rfl, hpr⟩
  · exact hpr
  · -- the last closure waits, so the bar is full already
    have hw := h.pending.symm.trans hp
    have hl : n = T.toNat + 1 := by
      unfold waiting at hw
      split_ifs at hw with h0 hle hl
      · simp at hw
      · simp at hw
      · exact hl
    exact hpr.trans (h.progress.trans (hl ▸ progressAt_done))

/-- What has run determines the cook, whatever taps come in between. -/
theorem CookAt.run (hT : eggTimes b = some T) : ∀ (js : List (Input String)) {n : ℕ}
    {w w' : World ViewController Delayed}, CookAt b T n w → n + callbacks js ≤ T.toNat + 1 →
      (machine eggTimes).runFrom w js = some w' → CookAt b T (n + callbacks js) w'
  | [], n, w, w', h, hn, hr => by
    cases hr
    exact h
  | i :: js, n, w, w', h, hn, hr => by
    obtain ⟨w₁, h₁, h₂⟩ := Option.bind_eq_some_iff.1 hr
    rcases i with b' | k
    · obtain rfl := Option.some.inj ((step_tap_busy h.busyCooking).symm.trans h₁)
      exact CookAt.run hT js h hn h₂
    · have hc : callbacks (.fire k :: js) = callbacks js + 1 := List.countP_cons_of_pos rfl
      rw [hc] at hn ⊢
      have := CookAt.run hT js ((h.step_fire hT (by omega) h₁).1 (by omega)) (by omega) h₂
      rwa [show n + 1 + callbacks js = n + (callbacks js + 1) by omega] at this

theorem cookAt_tap (hl : Locked w) (hi : w.state.busyCooking = false)
    (h : (machine eggTimes).step w (.event b) = some w') : CookAt b T 0 w' := by
  obtain ⟨hb, hp, hpr, -⟩ := step_tap_idle hi h
  rcases hl with ⟨hbusy, -⟩ | ⟨-, hnil, -, -⟩
  · simp [hi] at hbusy
  · refine ⟨hb, ?_, fun h0 => absurd h0 (lt_irrefl 0), hpr⟩
    rw [hp, hnil]
    rfl

end Cook

/-- A tap on an idle screen starts a cook. Until `max T 0 + 2` closures have run the screen is
busy, and a tap is handled and changes nothing: the progress is given by the number of closures
that have run; the one that waits can run, and divides only by the cooking time, which is
positive, what is positive and at most that, or fills the bar; and the last leaves the screen
idle. The progress goes from 0 through `(T - s) / T` for each number of seconds that remain to 1,
never decreases and stays between 0 and 1. -/
theorem cook_counts_down (eggTimes : String → Option ℤ) {is : List (Input String)}
    {w : World ViewController Delayed} {b : String} {T : ℤ}
    (hr : (machine eggTimes).run is = some w) (hi : w.state.busyCooking = false)
    (hT : eggTimes b = some T) :
    (∃ w₁, (machine eggTimes).step w (.event b) = some w₁ ∧
      ∀ js w', (machine eggTimes).runFrom w₁ js = some w' → (callbacks js : ℤ) < max T 0 + 2 →
        w'.state.busyCooking = true ∧ w'.state.progress = progressAt T (callbacks js)
          ∧ (∀ b', (machine eggTimes).step w' (.event b') = some w')
          ∧ (∃ w'', (machine eggTimes).step w' (.fire 0) = some w'')
          ∧ (∀ d ∈ w'.pending, ∀ s t, d.division eggTimes w'.state = some (s, t) →
            (t = T ∧ 0 < s ∧ s ≤ T)
              ∧ ∀ k w'', (machine eggTimes).step w' (.fire k) = some w'' →
                w''.state.currentCookingTime = t
                  ∧ w''.state.progress = 1 - (s : ℚ) / (t : ℚ))
          ∧ (∀ d ∈ w'.pending, d.division eggTimes w'.state = none →
            ∀ k w'', (machine eggTimes).step w' (.fire k) = some w'' → w''.state.progress = 1)
          ∧ ((callbacks js : ℤ) + 1 = max T 0 + 2 →
            ∀ k w'', (machine eggTimes).step w' (.fire k) = some w'' →
              Idle w'' ∧ w''.state.progress = 1))
      ∧ progressAt T 0 = 0
      ∧ (∀ s : ℤ, 0 < s → s ≤ T →
        progressAt T (T - s + 1).toNat = ((T - s : ℤ) : ℚ) / (T : ℚ))
      ∧ progressAt T (T.toNat + 1) = 1
      ∧ Monotone (progressAt T) ∧ ∀ n, 0 ≤ progressAt T n ∧ progressAt T n ≤ 1 := by
  obtain ⟨w₁, hst⟩ := @exists_step_tap eggTimes w b
  refine ⟨⟨w₁, hst, fun js w' hjs hn => ?_⟩, progressAt_zero, fun s => progressAt_remaining,
    progressAt_done, progressAt_mono, fun n => ⟨progressAt_nonneg n, progressAt_le_one n⟩⟩
  have hn' : callbacks js ≤ T.toNat + 1 := by omega
  have h : CookAt b T (callbacks js) w' := by
    have := (cookAt_tap (T := T) (run_locked hr) hi hst).run hT js (by omega) hjs
    rwa [Nat.zero_add] at this
  refine ⟨h.busyCooking, h.progress, fun b' => step_tap_busy h.busyCooking,
    h.exists_step_fire hT hn', fun d hd s t hs => ?_, fun d hd hs k w'' => ?_, fun hl k w'' hk => ?_⟩
  · exact ⟨h.division hT hd hs, fun k w'' hk => h.step_division hT hn' hd hs hk⟩
  · exact h.step_of_division hT hn' hd hs
  · exact (h.step_fire hT hn' hk).2 (by omega)

/-- A soft egg, from the first tap on. -/
theorem soft_egg_counts_down :
    ∃ w₁, (machine ViewController.shippedEggTimes).step ⟨.viewDidLoad, []⟩ (.event "Soft")
        = some w₁
      ∧ ∀ js w', (machine ViewController.shippedEggTimes).runFrom w₁ js = some w' →
        (callbacks js : ℤ) < max 5 0 + 2 → w'.state.progress = progressAt 5 (callbacks js) := by
  obtain ⟨⟨w₁, hst, h⟩, -⟩ :=
    @cook_counts_down ViewController.shippedEggTimes [] _ "Soft" 5 rfl rfl rfl
  exact ⟨w₁, hst, fun js w' hjs hn => (h js w' hjs hn).2.1⟩

end EggTimer

end IosLearning
