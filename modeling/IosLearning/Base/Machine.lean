import Mathlib.Data.List.Destutter
import Mathlib.Data.List.DropRight

/-!
# Machines and their runs

A machine is driven by inputs from outside: in each state some inputs can arrive, and handling
one gives the next state or traps. A run is a list of inputs from the start, and a property of
runs is shown by induction on the last input.

`Always Q` says `Q` of every state a run goes through, `Along P` says `P` of every step it takes.
Where `P` is what keeps `Q`, and a step that does not meet `P` breaks `Q` at once, the two are
the same (`always_iff_along`).

Inputs that change nothing can be left out of a run: what remains leads to the same state, and
what is seen on the way is the same but for repetitions (`run_kept`, `visited_kept`).

Where each step follows a model's, the states a run gets to are drawn from those of the model
(`DrawnFrom.run`).
-/

namespace IosLearning

variable {σ ι : Type*}

/-- Where a machine starts, which inputs can arrive, and how one is handled: `none` is a trap. -/
structure Machine (σ ι : Type*) where
  start : Option σ
  enabled : σ → ι → Bool
  handle : σ → ι → Option σ

namespace Machine

variable (M : Machine σ ι)

def step (s : σ) (i : ι) : Option σ := if M.enabled s i then M.handle s i else none

def runFrom : σ → List ι → Option σ
  | s, [] => some s
  | s, i :: is => (M.step s i).bind (runFrom · is)

def run (is : List ι) : Option σ := M.start.bind (M.runFrom · is)

def Reachable (s : σ) : Prop := ∃ is, M.run is = some s

/-- The input can arrive and is not handled. -/
def Traps (s : σ) (i : ι) : Prop := M.enabled s i = true ∧ M.handle s i = none

/-- Every state the run goes through, with the inputs up to it. -/
def Always (Q : List ι → σ → Prop) (is : List ι) : Prop :=
  ∀ pre s, pre <+: is → M.run pre = some s → Q pre s

/-- Every step the run takes: the inputs before it, the state and the input. -/
def Along (P : List ι → σ → ι → Prop) (is : List ι) : Prop :=
  ∀ pre i s, pre ++ [i] <+: is → M.run pre = some s → P pre s i

variable {M}

theorem step_eq_some {s s' : σ} {i : ι} :
    M.step s i = some s' ↔ M.enabled s i = true ∧ M.handle s i = some s' := by
  unfold step
  split_ifs with h <;> simp [h]

theorem runFrom_append : ∀ (is js : List ι) (s : σ),
    M.runFrom s (is ++ js) = (M.runFrom s is).bind (M.runFrom · js)
  | [], js, s => rfl
  | i :: is, js, s => by
    simp only [List.cons_append, runFrom, Option.bind_assoc]
    exact congrArg _ (funext fun s' => runFrom_append is js s')

theorem run_append (is js : List ι) :
    M.run (is ++ js) = (M.run is).bind (M.runFrom · js) := by
  simp only [run, Option.bind_assoc, runFrom_append]

theorem run_nil : M.run [] = M.start := by
  simp [run, runFrom]

theorem run_snoc (is : List ι) (i : ι) :
    M.run (is ++ [i]) = (M.run is).bind (M.step · i) := by
  rw [run_append]
  congr 1
  funext s
  simp [runFrom]

theorem run_snoc_some {is : List ι} {i : ι} {s' : σ} :
    M.run (is ++ [i]) = some s' ↔ ∃ s, M.run is = some s ∧ M.step s i = some s' := by
  rw [run_snoc, Option.bind_eq_some_iff]

/-- What holds at the start and is kept by every step holds after every run. -/
theorem run_induction {P : List ι → σ → Prop} (h0 : ∀ s, M.start = some s → P [] s)
    (hs : ∀ is s i s', M.run is = some s → P is s → M.step s i = some s' → P (is ++ [i]) s') :
    ∀ (is : List ι) {s : σ}, M.run is = some s → P is s := by
  intro is
  induction is using List.reverseRecOn with
  | nil =>
    intro s h
    rw [run_nil] at h
    exact h0 s h
  | append_singleton is i ih =>
    intro s' h
    obtain ⟨s, hr, hst⟩ := run_snoc_some.1 h
    exact hs is s i s' hr (ih hr) hst

theorem reachable_induction {P : σ → Prop} (h0 : ∀ s, M.start = some s → P s)
    (hs : ∀ s i s', M.Reachable s → P s → M.step s i = some s' → P s') {s : σ}
    (h : M.Reachable s) : P s := by
  obtain ⟨is, hr⟩ := h
  exact run_induction (P := fun _ s => P s) h0
    (fun is s i s' hr hp hst => hs s i s' ⟨is, hr⟩ hp hst) is hr

/-- What every step from a kept state keeps holds all the way through a run from there. -/
theorem runFrom_induction {P : σ → Prop} (hs : ∀ s i s', P s → M.step s i = some s' → P s') :
    ∀ (is : List ι) {s s' : σ}, P s → M.runFrom s is = some s' → P s'
  | [], s, s', hp, h => by
    cases h
    exact hp
  | i :: is, s, s', hp, h => by
    simp only [runFrom, Option.bind_eq_some_iff] at h
    obtain ⟨s₁, h₁, h₂⟩ := h
    exact runFrom_induction hs is (hs s i s₁ hp h₁) h₂

theorem prefix_snoc {pre is : List ι} {i : ι} :
    pre <+: is ++ [i] ↔ pre = is ++ [i] ∨ pre <+: is := by
  rw [List.prefix_concat_iff]

theorem always_nil {Q : List ι → σ → Prop} :
    M.Always Q [] ↔ ∀ s, M.start = some s → Q [] s := by
  refine ⟨fun h s hs => ?_, fun h pre s hp hr => ?_⟩
  · exact h [] s List.prefix_rfl (run_nil.trans hs)
  · obtain rfl := List.prefix_nil.1 hp
    exact h s (run_nil.symm.trans hr)

theorem always_snoc {Q : List ι → σ → Prop} {is : List ι} {i : ι} :
    M.Always Q (is ++ [i]) ↔
      M.Always Q is ∧ ∀ s, M.run (is ++ [i]) = some s → Q (is ++ [i]) s := by
  constructor
  · intro h
    exact ⟨fun pre s hp => h pre s (hp.trans (List.prefix_append _ _)),
      fun s => h _ s List.prefix_rfl⟩
  · rintro ⟨h, hi⟩ pre s hp hr
    rcases prefix_snoc.1 hp with rfl | hp
    · exact hi s hr
    · exact h pre s hp hr

theorem along_nil {P : List ι → σ → ι → Prop} : M.Along P [] := by
  intro pre i s hp
  simp [List.prefix_nil] at hp

theorem along_snoc {P : List ι → σ → ι → Prop} {is : List ι} {i : ι} :
    M.Along P (is ++ [i]) ↔ M.Along P is ∧ ∀ s, M.run is = some s → P is s i := by
  constructor
  · intro h
    exact ⟨fun pre j s hp => h pre j s (hp.trans (List.prefix_append _ _)),
      fun s => h _ i s List.prefix_rfl⟩
  · rintro ⟨h, hi⟩ pre j s hp hr
    rcases prefix_snoc.1 hp with he | hp
    · obtain ⟨rfl, hj⟩ := List.append_inj' he rfl
      simp only [List.cons.injEq, and_true] at hj
      exact hj ▸ hi s hr
    · exact h pre j s hp hr

/-- Inputs that `P` always holds of can be added to a run. -/
theorem Along.append {P : List ι → σ → ι → Prop} {is js : List ι} (h : M.Along P is)
    (hj : ∀ i ∈ js, ∀ pre s, P pre s i) : M.Along P (is ++ js) := by
  induction js using List.reverseRecOn with
  | nil => simpa using h
  | append_singleton js i ih =>
    rw [← List.append_assoc]
    exact along_snoc.2 ⟨ih fun j hm => hj j (List.mem_append_left _ hm),
      fun s _ => hj i (by simp) _ s⟩

theorem Along.restrict {P : List ι → σ → ι → Prop} {pre is : List ι} (h : M.Along P is)
    (hp : pre <+: is) : M.Along P pre :=
  fun pre' i s hp' => h pre' i s (hp'.trans hp)

theorem Always.mono {Q Q' : List ι → σ → Prop} {is : List ι}
    (hqq : ∀ pre s, M.run pre = some s → Q pre s → Q' pre s) (h : M.Always Q is) :
    M.Always Q' is :=
  fun pre s hp hr => hqq pre s hr (h pre s hp hr)

theorem Along.mono {P P' : List ι → σ → ι → Prop} {is : List ι}
    (hpp : ∀ pre s i, M.run pre = some s → P pre s i → P' pre s i) (h : M.Along P is) :
    M.Along P' is :=
  fun pre i s hp hr => hpp pre s i hr (h pre i s hp hr)

/-- What holds at the start and is kept by every step that meets `P` holds of every state of a
run whose steps all meet `P`. -/
theorem always_of_along {P : List ι → σ → ι → Prop} {Q : List ι → σ → Prop}
    (h0 : ∀ s, M.start = some s → Q [] s)
    (hs : ∀ is s i s', M.run is = some s → Q is s → P is s i → M.step s i = some s' →
      Q (is ++ [i]) s') :
    ∀ {is : List ι}, M.Along P is → M.Always Q is := by
  intro is
  induction is using List.reverseRecOn with
  | nil => exact fun _ => always_nil.2 h0
  | append_singleton is i ih =>
    intro h
    obtain ⟨h, hi⟩ := along_snoc.1 h
    refine always_snoc.2 ⟨ih h, fun s' hr' => ?_⟩
    obtain ⟨s, hr, hst⟩ := run_snoc_some.1 hr'
    exact hs is s i s' hr (ih h is s List.prefix_rfl hr) (hi s hr) hst

/-- Where a step that does not meet `P` is taken and breaks `Q`, the steps of a run that keeps `Q`
throughout all meet `P`. -/
theorem along_of_always {P : List ι → σ → ι → Prop} {Q : List ι → σ → Prop}
    (hb : ∀ is s i, M.run is = some s → Q is s → ¬ P is s i →
      ∃ s', M.step s i = some s' ∧ ¬ Q (is ++ [i]) s') :
    ∀ {is : List ι}, M.Always Q is → M.Along P is := by
  intro is
  induction is using List.reverseRecOn with
  | nil => exact fun _ => along_nil
  | append_singleton is i ih =>
    intro h
    obtain ⟨h, hi⟩ := always_snoc.1 h
    refine along_snoc.2 ⟨ih h, fun s hr => ?_⟩
    by_contra hp
    obtain ⟨s', hst, hq⟩ := hb is s i hr (h is s List.prefix_rfl hr) hp
    exact hq (hi s' (run_snoc_some.2 ⟨s, hr, hst⟩))

/-- With both, a run keeps `Q` throughout exactly when its steps all meet `P`. -/
theorem always_iff_along {P : List ι → σ → ι → Prop} {Q : List ι → σ → Prop}
    (h0 : ∀ s, M.start = some s → Q [] s)
    (hs : ∀ is s i s', M.run is = some s → Q is s → P is s i → M.step s i = some s' →
      Q (is ++ [i]) s')
    (hb : ∀ is s i, M.run is = some s → Q is s → ¬ P is s i →
      ∃ s', M.step s i = some s' ∧ ¬ Q (is ++ [i]) s') (is : List ι) :
    M.Always Q is ↔ M.Along P is :=
  ⟨along_of_always hb, always_of_along h0 hs⟩

/-! ## Inputs that change nothing -/

section Stuttering

variable (M)

/-- The states a run from `s` goes through, `s` first. -/
def visitedFrom : σ → List ι → List σ
  | s, [] => [s]
  | s, i :: is => s :: (M.step s i).elim [] (visitedFrom · is)

def visited (is : List ι) : List σ := M.start.elim [] (M.visitedFrom · is)

/-- A run's inputs without those that `keep` does not hold of in the state they arrive in, up to
the first input that is not handled. -/
def keptFrom (keep : σ → ι → Bool) : σ → List ι → List ι
  | _, [] => []
  | s, i :: is => (M.step s i).elim (i :: is) fun s' =>
      if keep s i then i :: keptFrom keep s' is else keptFrom keep s' is

def kept (keep : σ → ι → Bool) (is : List ι) : List ι :=
  M.start.elim is (M.keptFrom keep · is)

variable {M}

variable {keep : σ → ι → Bool}

theorem runFrom_keptFrom (hk : ∀ s i s', keep s i = false → M.step s i = some s' → s' = s) :
    ∀ (is : List ι) (s : σ), M.runFrom s (M.keptFrom keep s is) = M.runFrom s is
  | [], s => rfl
  | i :: is, s => by
    rcases hst : M.step s i with _ | s'
    · simp [keptFrom, hst]
    · have ih := runFrom_keptFrom hk is s'
      by_cases h : keep s i = true
      · simp [keptFrom, runFrom, hst, h, ih]
      · rw [Bool.not_eq_true] at h
        obtain rfl := hk s i s' h hst
        simpa [keptFrom, runFrom, hst, h] using ih

theorem destutter'_visitedFrom_kept {τ : Type*} [DecidableEq τ] (see : σ → τ)
    (hk : ∀ s i s', keep s i = false → M.step s i = some s' → s' = s) :
    ∀ (is : List ι) (s : σ) (t : τ),
      ((M.visitedFrom s (M.keptFrom keep s is)).map see).destutter' (· ≠ ·) t
        = ((M.visitedFrom s is).map see).destutter' (· ≠ ·) t
  | [], s, t => rfl
  | i :: is, s, t => by
    rcases hst : M.step s i with _ | s'
    · simp [keptFrom, hst]
    · have ih := destutter'_visitedFrom_kept see hk is s'
      by_cases h : keep s i = true
      · simp [keptFrom, visitedFrom, hst, h, List.destutter'_cons, ih]
      · rw [Bool.not_eq_true] at h
        obtain rfl := hk s i s' h hst
        -- the state is visited twice in a row, and seen once
        have hd : ∀ u, ((M.visitedFrom s' (i :: is)).map see).destutter' (· ≠ ·) u
            = ((M.visitedFrom s' is).map see).destutter' (· ≠ ·) u := by
          intro u
          rcases is with _ | ⟨j, js⟩ <;>
            by_cases hu : u = see s' <;> simp [visitedFrom, hst, hu]
        rw [hd]
        simpa [keptFrom, hst, h] using ih t

/-- What is left of a run leads where the run does. -/
theorem run_kept (hk : ∀ s i s', keep s i = false → M.step s i = some s' → s' = s)
    (is : List ι) : M.run (M.kept keep is) = M.run is := by
  rcases hs : M.start with _ | s
  · simp [kept, run, hs]
  · simp [kept, run, hs, runFrom_keptFrom hk]

/-- What is seen during what is left of a run is what is seen during the run. -/
theorem visited_kept {τ : Type*} [DecidableEq τ] (see : σ → τ)
    (hk : ∀ s i s', keep s i = false → M.step s i = some s' → s' = s) (is : List ι) :
    ((M.visited (M.kept keep is)).map see).destutter (· ≠ ·)
      = ((M.visited is).map see).destutter (· ≠ ·) := by
  rcases hs : M.start with _ | s
  · simp [visited, hs]
  · have h := destutter'_visitedFrom_kept see hk is s (see s)
    have hself : ∀ js, ((M.visitedFrom s js).map see).destutter' (· ≠ ·) (see s)
        = ((M.visitedFrom s js).map see).destutter (· ≠ ·) := by
      intro js
      rcases js with _ | ⟨j, js⟩ <;> simp [visitedFrom, List.destutter_cons']
    simpa [visited, kept, hs, hself] using h

end Stuttering

/-! ## Machines drawn from a model -/

section Drawn

variable {τ : Type*} {t₀ : τ} {next : τ → ι → τ} {draw : τ → σ} {Sound : τ → Prop}

/-- The machine's states are drawn from those of a model: from a sound state of the model, what
can arrive is handled, and leads to what is drawn from the model's next state. -/
structure DrawnFrom (M : Machine σ ι) (t₀ : τ) (next : τ → ι → τ) (draw : τ → σ)
    (Sound : τ → Prop) : Prop where
  start : M.start = some (draw t₀)
  sound : Sound t₀
  handle : ∀ t i, Sound t → M.enabled (draw t) i = true →
    M.handle (draw t) i = some (draw (next t i)) ∧ Sound (next t i)

namespace DrawnFrom

variable (h : M.DrawnFrom t₀ next draw Sound)

include h

theorem step {t : τ} {i : ι} (ht : Sound t) (he : M.enabled (draw t) i = true) :
    M.step (draw t) i = some (draw (next t i)) :=
  step_eq_some.2 ⟨he, (h.handle t i ht he).1⟩

theorem run {is : List ι} {s : σ} (hr : M.run is = some s) :
    Sound (is.foldl next t₀) ∧ s = draw (is.foldl next t₀) := by
  refine run_induction (P := fun is s => Sound (is.foldl next t₀) ∧ s = draw (is.foldl next t₀))
    (fun s hs => ⟨h.sound, ?_⟩) (fun is s i s' _ ih hst => ?_) is hr
  · rw [h.start] at hs
    exact (Option.some.inj hs).symm
  · obtain ⟨ht, rfl⟩ := ih
    obtain ⟨he, hh⟩ := step_eq_some.1 hst
    obtain ⟨hd, hs⟩ := h.handle _ i ht he
    rw [List.foldl_append]
    exact ⟨hs, Option.some.inj (hh.symm.trans hd)⟩

theorem reachable {s : σ} (hr : M.Reachable s) : ∃ t, Sound t ∧ s = draw t := by
  obtain ⟨is, hr⟩ := hr
  exact ⟨_, h.run hr⟩

end DrawnFrom

end Drawn

end Machine

end IosLearning
