import IosLearning.Base.Machine

/-!
# Screens and their delayed closures

A screen runs on the main thread alone. An event of the user runs its handler to the end; a
handler can hand closures to the main queue to be run later (`asyncAfter`), and such a closure
then runs to the end as well. Nothing orders the two: between two closures any number of events
can arrive, and any closure that waits can be the next to run.
-/

namespace IosLearning

variable {σ Ev κ : Type*}

/-- What the main thread takes up next: an event, or the `i`-th of the closures that wait. -/
inductive Input (Ev : Type*) where
  | event (e : Ev)
  | fire (i : ℕ)
  deriving DecidableEq

namespace Input

def isFire : Input Ev → Bool
  | event _ => false
  | fire _ => true

@[simp] theorem isFire_event (e : Ev) : (event e).isFire = false := rfl

@[simp] theorem isFire_fire (i : ℕ) : (fire i : Input Ev).isFire = true := rfl

/-- The inputs since a closure last ran: what was done to the screen as it now stands. -/
def sinceFire (is : List (Input Ev)) : List (Input Ev) := is.rtakeWhile (!·.isFire)

/-- The inputs up to the last closure that ran, that one included. -/
def uptoFire (is : List (Input Ev)) : List (Input Ev) := is.rdropWhile (!·.isFire)

@[simp] theorem sinceFire_nil : sinceFire ([] : List (Input Ev)) = [] := rfl

@[simp] theorem uptoFire_nil : uptoFire ([] : List (Input Ev)) = [] := rfl

@[simp] theorem sinceFire_event (is : List (Input Ev)) (e : Ev) :
    sinceFire (is ++ [event e]) = sinceFire is ++ [event e] :=
  List.rtakeWhile_concat_pos _ _ _ rfl

@[simp] theorem sinceFire_fire (is : List (Input Ev)) (i : ℕ) :
    sinceFire (is ++ [fire i]) = [] :=
  List.rtakeWhile_concat_neg _ _ _ (by simp)

@[simp] theorem uptoFire_event (is : List (Input Ev)) (e : Ev) :
    uptoFire (is ++ [event e]) = uptoFire is :=
  List.rdropWhile_concat_pos _ _ _ rfl

@[simp] theorem uptoFire_fire (is : List (Input Ev)) (i : ℕ) :
    uptoFire (is ++ [fire i]) = is ++ [fire i] :=
  List.rdropWhile_concat_neg _ _ _ (by simp)

theorem not_isFire_of_mem_sinceFire {is : List (Input Ev)} {i : Input Ev}
    (h : i ∈ sinceFire is) : i.isFire = false := by
  simpa using List.mem_rtakeWhile_imp h

end Input

/-- A screen's state and the closures that wait, in the order they were handed over. -/
structure World (σ κ : Type*) where
  state : σ
  pending : List κ

/-- What a screen is when it comes up, what its handlers do to an event and what its closures do
when they run. Each also gives the closures it hands over, and is `none` where it traps. -/
structure Screen (σ Ev κ : Type*) where
  load : Option (σ × List κ)
  onEvent : σ → Ev → Option (σ × List κ)
  onFire : σ → κ → Option (σ × List κ)

namespace Screen

variable (A : Screen σ Ev κ)

def machine : Machine (World σ κ) (Input Ev) where
  start := A.load.map fun r => ⟨r.1, r.2⟩
  enabled w
    | .event _ => true
    | .fire i => decide (i < w.pending.length)
  handle w
    | .event e => (A.onEvent w.state e).map fun r => ⟨r.1, w.pending ++ r.2⟩
    | .fire i => w.pending[i]?.bind fun c =>
        (A.onFire w.state c).map fun r => ⟨r.1, w.pending.eraseIdx i ++ r.2⟩

variable {A}

theorem start_eq_some {w : World σ κ} :
    A.machine.start = some w ↔ A.load = some (w.state, w.pending) := by
  obtain ⟨s, ks⟩ := w
  simp only [machine, Option.map_eq_some_iff, World.mk.injEq, Prod.exists]
  constructor
  · rintro ⟨s', ks', h, rfl, rfl⟩
    exact h
  · intro h
    exact ⟨s, ks, h, rfl, rfl⟩

/-- What an event does. -/
theorem step_event {w w' : World σ κ} {e : Ev} :
    A.machine.step w (.event e) = some w' ↔
      ∃ s ks, A.onEvent w.state e = some (s, ks) ∧ w' = ⟨s, w.pending ++ ks⟩ := by
  simp only [Machine.step_eq_some, machine, true_and, Option.map_eq_some_iff, Prod.exists]
  exact exists₂_congr fun _ _ => and_congr_right fun _ => eq_comm

/-- What a closure does when it runs: it waits no more. -/
theorem step_fire {w w' : World σ κ} {i : ℕ} :
    A.machine.step w (.fire i) = some w' ↔
      ∃ c s ks, w.pending[i]? = some c ∧ A.onFire w.state c = some (s, ks)
        ∧ w' = ⟨s, w.pending.eraseIdx i ++ ks⟩ := by
  simp only [Machine.step_eq_some, machine, decide_eq_true_eq, Option.bind_eq_some_iff,
    Option.map_eq_some_iff, Prod.exists]
  constructor
  · rintro ⟨-, c, hc, s, ks, h, rfl⟩
    exact ⟨c, s, ks, hc, h, rfl⟩
  · rintro ⟨c, s, ks, hc, h, rfl⟩
    exact ⟨(List.getElem?_eq_some_iff.1 hc).1, c, hc, s, ks, h, rfl⟩

/-- No closure can run where none waits. -/
theorem step_fire_nil {w w' : World σ κ} {i : ℕ} (h : A.machine.step w (.fire i) = some w') :
    w.pending ≠ [] := by
  obtain ⟨c, s, ks, hc, -, -⟩ := step_fire.1 h
  rintro hn
  simp [hn] at hc

end Screen

end IosLearning
