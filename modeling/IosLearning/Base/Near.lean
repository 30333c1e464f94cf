import Mathlib.Data.List.Basic

/-!
# A bounded number of steps away

Steps bear marks, and a mark tells from where the step is. A way on which no mark comes twice finds
all that any way finds in as many steps, as a shortest way does not come by one place twice.
-/

namespace IosLearning

variable {α μ : Type*} {E : α → μ → α → Prop} {P : α → Prop} {seen : List μ} {n k : ℕ} {x : α}

/-- Fewer than `n` steps away is an `x` of `P`. -/
def Near (E : α → μ → α → Prop) (P : α → Prop) : ℕ → α → Prop
  | 0, _ => False
  | n + 1, x => P x ∨ ∃ m y, E x m y ∧ Near E P n y

/-- On the way no mark of `seen` is passed and none twice. -/
def NearAvoiding (E : α → μ → α → Prop) (P : α → Prop) (seen : List μ) : ℕ → α → Prop
  | 0, _ => False
  | n + 1, x => P x ∨ ∃ m y, E x m y ∧ m ∉ seen ∧ NearAvoiding E P (seen ++ [m]) n y

theorem near_succ : ∀ {n : ℕ} {x : α}, Near E P n x → Near E P (n + 1) x
  | _ + 1, _, .inl h => .inl h
  | _ + 1, _, .inr ⟨m, y, he, h⟩ => .inr ⟨m, y, he, near_succ h⟩

theorem near_mono (hn : n ≤ k) (h : Near E P n x) : Near E P k x := by
  induction hn with
  | refl => exact h
  | step _ ih => exact near_succ ih

theorem avoiding_succ : ∀ {n : ℕ} {seen : List μ} {x : α}, NearAvoiding E P seen n x →
    NearAvoiding E P seen (n + 1) x
  | _ + 1, _, _, .inl h => .inl h
  | _ + 1, _, _, .inr ⟨m, y, he, hm, h⟩ => .inr ⟨m, y, he, hm, avoiding_succ h⟩

theorem near_of_avoiding : ∀ {n : ℕ} {seen : List μ} {x : α}, NearAvoiding E P seen n x → Near E P n x
  | _ + 1, _, _, .inl h => .inl h
  | _ + 1, _, _, .inr ⟨m, y, he, _, h⟩ => .inr ⟨m, y, he, near_of_avoiding h⟩

/-- Marks of places from which nothing is as near are not on a shortest way. -/
theorem avoiding_of_near (hE : ∀ x x' m y y', E x m y → E x' m y' → x = x') :
    ∀ {n : ℕ} {seen : List μ} {x : α}, (∀ m ∈ seen, ∀ x' y, E x' m y → ¬ Near E P n x') →
      Near E P n x → NearAvoiding E P seen n x := by
  intro n
  induction n with
  | zero => exact fun _ h => h
  | succ n ih =>
    intro seen x hseen h
    have hseen' : ∀ m ∈ seen, ∀ x' y, E x' m y → ¬ Near E P n x' := fun m hm x' y he hn =>
      hseen m hm x' y he (near_succ hn)
    by_cases hn : Near E P n x
    · exact avoiding_succ (ih hseen' hn)
    · rcases h with h | ⟨m, y, he, h⟩
      · exact .inl h
      · refine .inr ⟨m, y, he, fun hm => hseen m hm x y he (.inr ⟨m, y, he, h⟩), ih ?_ h⟩
        intro m' hm' x' y' he'
        rcases List.mem_append.1 hm' with hm' | hm'
        · exact hseen' m' hm' x' y' he'
        · obtain rfl := List.mem_singleton.1 hm'
          exact hE _ _ _ _ _ he he' ▸ hn

theorem near_iff_avoiding (hE : ∀ x x' m y y', E x m y → E x' m y' → x = x') :
    NearAvoiding E P [] n x ↔ Near E P n x :=
  ⟨near_of_avoiding, avoiding_of_near hE fun _ hm => absurd hm List.not_mem_nil⟩

end IosLearning
