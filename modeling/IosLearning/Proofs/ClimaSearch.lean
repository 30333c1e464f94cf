import IosLearning.Clima

/-!
# The cities that are searched for

What the user does to the search field is followed by a model of its own: the text of the edit
going on, if any, and the texts of the edits ended. The controller asks for each of these, once
and in order, the empty ones too, so only the non-empty texts are asked for exactly when the
search button never ends an edit with nothing typed (`fetched_iff`).
-/

namespace IosLearning

namespace Clima

/-- The text of the edit going on, and the texts the user ended an edit with. -/
structure Edits where
  current : Option String := none
  finished : List String := []
  deriving DecidableEq

namespace Edits

def finish (d : Edits) : Edits :=
  match d.current with
  | some t => ⟨none, d.finished ++ [t]⟩
  | none => d

/-- What the user does, an event that the keyboard or the field does not offer left out. -/
def next (d : Edits) : Event → Edits
  | .beginEditing => { d with current := some (d.current.getD "") }
  | .type t => { d with current := d.current.map fun _ => t }
  | .clear => { d with current := d.current.map fun _ => "" }
  | .returnKey => if d.current = some "" then d else d.finish
  | .searchButton => d.finish

end Edits

/-- The texts the user ended an edit with, in order. -/
def edits (es : List Event) : Edits := es.foldl Edits.next {}

/-- The controller that has asked for what was finished. -/
def draw (d : Edits) : WeatherViewController where
  searchText := ⟨some (d.current.getD ""), d.current.isSome⟩
  weatherManager := some ⟨d.finished⟩

theorem endEditing_draw (d : Edits) : (draw d).endEditing = some (draw d.finish) := by
  obtain ⟨_ | t, fs⟩ := d <;> rfl

theorem drawn : machine.DrawnFrom {} Edits.next draw fun _ => True where
  start := rfl
  sound := trivial
  handle d e _ he := by
    obtain ⟨c, fs⟩ := d
    refine ⟨?_, trivial⟩
    rcases e with _ | t | _ | _ | _
    · rcases c with _ | t
      · rfl
      · simp [machine, WeatherViewController.enabled, draw] at he
    · rcases c with _ | t'
      · simp [machine, WeatherViewController.enabled, draw] at he
      · rfl
    · rcases c with _ | t'
      · simp [machine, WeatherViewController.enabled, draw] at he
      · rfl
    · rcases c with _ | t'
      · simp [machine, WeatherViewController.enabled, draw] at he
      · have ht : t' ≠ "" := by simpa [machine, WeatherViewController.enabled, draw] using he
        show ((draw ⟨some t', fs⟩).endEditing.map (true, ·)).map Prod.snd = _
        rw [endEditing_draw, Edits.next, if_neg (by simpa using ht)]
        rfl
    · exact endEditing_draw _

/-- The manager was asked for the non-empty texts the user ended an edit with, each once and in
order. -/
def FetchedNonempty (es : List Event) (c : WeatherViewController) : Prop :=
  ∃ m, c.weatherManager = some m ∧ m.fetched = (edits es).finished.filter (· ≠ "")

/-- The search button does not end an edit with an empty text. -/
def NotEmptySearch (_ : List Event) (c : WeatherViewController) : Event → Prop
  | .searchButton => c.searchText.isEditing = true → c.searchText.text ≠ some ""
  | _ => True

theorem fetchedNonempty_iff {es : List Event} {c : WeatherViewController}
    (h : machine.run es = some c) : FetchedNonempty es c ↔ "" ∉ (edits es).finished := by
  obtain ⟨-, rfl⟩ := drawn.run h
  have hf : FetchedNonempty es (draw (edits es)) ↔
      (edits es).finished = (edits es).finished.filter (· ≠ "") := by
    refine ⟨fun hm => ?_, fun hm => ⟨_, rfl, hm⟩⟩
    obtain ⟨m, hm, hq⟩ := hm
    obtain rfl := Option.some.inj hm
    exact hq
  refine hf.trans ?_
  rw [eq_comm, List.filter_eq_self]
  refine ⟨fun hm hn => ?_, fun hn t ht => ?_⟩
  · simpa using hm "" hn
  · rw [decide_eq_true_eq]
    rintro rfl
    exact hn ht

theorem edits_snoc (es : List Event) (e : Event) : edits (es ++ [e]) = (edits es).next e := by
  simp only [edits, List.foldl_append, List.foldl_cons, List.foldl_nil]

theorem finished_finish (d : Edits) : d.finish.finished = d.finished ++ d.current.toList := by
  obtain ⟨_ | t, fs⟩ := d
  · simp [Edits.finish]
  · rfl

/-- An event ends an edit with an empty text only as the search button does. -/
theorem empty_mem_next {d : Edits} {e : Event} :
    "" ∈ (d.next e).finished ↔
      "" ∈ d.finished ∨ e = .searchButton ∧ d.current = some "" := by
  have hfin : "" ∈ d.finish.finished ↔ "" ∈ d.finished ∨ d.current = some "" := by
    rw [finished_finish, List.mem_append, Option.mem_toList]
  rcases e with _ | t | _ | _ | _
  · simp [Edits.next]
  · simp [Edits.next]
  · simp [Edits.next]
  · by_cases hc : d.current = some ""
    · simp [Edits.next, hc]
    · rw [Edits.next, if_neg hc, hfin]
      simp [hc]
  · rw [Edits.next, hfin]
    simp

theorem notEmptySearch_iff {es : List Event} {c : WeatherViewController}
    (h : machine.run es = some c) (e : Event) :
    NotEmptySearch es c e ↔ ¬ (e = .searchButton ∧ (edits es).current = some "") := by
  obtain ⟨-, rfl⟩ := drawn.run h
  rcases e with _ | t | _ | _ | _
  case searchButton =>
    show ((edits es).current.isSome = true → some ((edits es).current.getD "") ≠ some "") ↔ _
    rcases (edits es).current with _ | t <;> simp
  all_goals simp [NotEmptySearch]

/-- The manager is asked for the non-empty texts the user ended an edit with, each once, in order
and for nothing else, in every state of a run, exactly when the search button never ends an edit
with an empty text. -/
theorem fetched_iff (es : List Event) :
    machine.Always FetchedNonempty es ↔ machine.Along NotEmptySearch es := by
  refine Machine.always_iff_along (fun c h => ?_) (fun es c e c' hr hq he hst => ?_)
    (fun es c e hr _ he => ?_) es
  · rw [fetchedNonempty_iff (Machine.run_nil.trans h)]
    simp [edits]
  · rw [fetchedNonempty_iff hr] at hq
    rw [notEmptySearch_iff hr] at he
    rw [fetchedNonempty_iff (Machine.run_snoc_some.2 ⟨c, hr, hst⟩), edits_snoc, empty_mem_next]
    exact fun h => h.elim hq he
  · rw [notEmptySearch_iff hr, not_not] at he
    obtain ⟨-, hd⟩ := drawn.run hr
    have hst : machine.step c e = some (draw ((edits es).next e)) := by
      rw [hd]
      exact drawn.step trivial (by rw [he.1]; rfl)
    refine ⟨_, hst, fun h => ?_⟩
    rw [fetchedNonempty_iff (Machine.run_snoc_some.2 ⟨c, hr, hst⟩), edits_snoc] at h
    exact h (empty_mem_next.2 (.inr he))

/-- The search button pressed on a field that was only tapped asks for the weather of no city. -/
theorem empty_city_fetched :
    ¬ machine.Always FetchedNonempty [.beginEditing, .searchButton] := by
  intro h
  have hr : machine.run [.beginEditing, .searchButton] = some ⟨⟨some "", false⟩, some ⟨[""]⟩⟩ :=
    rfl
  have := (fetchedNonempty_iff hr).1 (h _ _ List.prefix_rfl hr)
  exact this (by decide)

end Clima

end IosLearning
