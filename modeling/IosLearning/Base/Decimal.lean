import Mathlib.Algebra.Order.Field.Basic
import Mathlib.Algebra.Order.Floor.Defs
import Mathlib.Data.Rat.Floor
import Mathlib.Tactic.Linarith
import Mathlib.Tactic.Positivity

/-!
# Numbers as text

Numbers with a fixed number of decimals, rounded half to even, and padded with zeros.
-/

namespace IosLearning

/-- The nearest integer, the even one of two. -/
def roundHalfEven (q : ℚ) : ℤ :=
  if q - ⌊q⌋ < 1 / 2 then ⌊q⌋
  else if 1 / 2 < q - ⌊q⌋ then ⌊q⌋ + 1
  else if ⌊q⌋ % 2 = 0 then ⌊q⌋
  else ⌊q⌋ + 1

def padded (width : ℕ) (n : ℤ) : String :=
  let digits := toString n
  "".pushn '0' (width - digits.length) ++ digits

/-- `q` with `n` decimals, as `"%.nf"` prints it. -/
def fixed (n : ℕ) (q : ℚ) : String :=
  let m := roundHalfEven (|q| * 10 ^ n)
  let decimals := if n = 0 then "" else "." ++ padded n (m % 10 ^ n)
  (if q < 0 then "-" else "") ++ toString (m / 10 ^ n) ++ decimals

example : fixed 2 (-9.125) = "-9.12" := by decide +kernel

/-! ## Rounding -/

theorem roundHalfEven_bounds (x : ℚ) :
    (roundHalfEven x : ℚ) - 1 / 2 ≤ x ∧ x ≤ (roundHalfEven x : ℚ) + 1 / 2 := by
  have hlo := Int.floor_le x
  have hhi := Int.lt_floor_add_one x
  unfold roundHalfEven
  split_ifs <;> push_cast <;> constructor <;> linarith

/-- What rounds to an even number is what lies within a half of it. -/
theorem roundHalfEven_eq_iff {x : ℚ} {m : ℤ} (hm : m % 2 = 0) :
    roundHalfEven x = m ↔ (m : ℚ) - 1 / 2 ≤ x ∧ x ≤ (m : ℚ) + 1 / 2 := by
  refine ⟨fun h => h ▸ roundHalfEven_bounds x, fun h => ?_⟩
  have hlo := Int.floor_le x
  have hhi := Int.lt_floor_add_one x
  have h1 : ⌊x⌋ ≤ m := by
    have : (⌊x⌋ : ℚ) < ((m + 1 : ℤ) : ℚ) := by
      push_cast
      linarith
    exact Int.lt_add_one_iff.1 (by exact_mod_cast this)
  have h2 : m - 1 ≤ ⌊x⌋ := by
    have : ((m - 2 : ℤ) : ℚ) < (⌊x⌋ : ℚ) := by
      push_cast
      linarith
    have : m - 2 < ⌊x⌋ := by exact_mod_cast this
    omega
  rcases (by omega : ⌊x⌋ = m ∨ ⌊x⌋ = m - 1) with hf | hf
  · have : x - ((m : ℤ) : ℚ) ≤ 1 / 2 := by linarith
    unfold roundHalfEven
    rw [hf, if_neg (not_lt.2 this), if_pos hm, ite_self]
  · have : 1 / 2 ≤ x - ((m - 1 : ℤ) : ℚ) := by
      push_cast
      linarith
    unfold roundHalfEven
    rw [hf, if_neg (not_lt.2 this), if_neg (by omega : ¬ (m - 1) % 2 = 0)]
    simp

theorem roundHalfEven_mono {x y : ℚ} (hxy : x ≤ y) : roundHalfEven x ≤ roundHalfEven y := by
  by_contra hlt
  have h1 := (roundHalfEven_bounds x).1
  have h2 := (roundHalfEven_bounds y).2
  have hc : ((roundHalfEven y + 1 : ℤ) : ℚ) ≤ (roundHalfEven x : ℚ) := by
    exact_mod_cast (by omega : roundHalfEven y + 1 ≤ roundHalfEven x)
  push_cast at hc
  -- the two are a half away from what they round to, so they are one
  have he : x = y := by linarith
  rw [he] at hlt
  exact hlt le_rfl

theorem roundHalfEven_even {m : ℤ} (hm : m % 2 = 0) : roundHalfEven m = m := by
  rw [roundHalfEven_eq_iff hm]
  constructor <;> linarith

theorem roundHalfEven_nonneg {x : ℚ} (hx : 0 ≤ x) : 0 ≤ roundHalfEven x := by
  have h0 : roundHalfEven ((0 : ℤ) : ℚ) = 0 := roundHalfEven_even rfl
  rw [← h0]
  exact roundHalfEven_mono (by simpa using hx)

/-! ## Reading back -/

theorem toString_inj {m n : ℕ} : toString m = toString n ↔ m = n := by
  refine ⟨fun h => ?_, fun h => h ▸ rfl⟩
  have hd : Nat.toDigits 10 m = Nat.toDigits 10 n := by
    simpa using congrArg String.toList h
  have hv := congrArg (Nat.ofDigitChars 10 · 0) hd
  simpa using hv

theorem minus_notMem_toString (n : ℕ) : '-' ∉ (toString n).toList := by
  intro h
  rw [Nat.toString_eq_repr, Nat.toList_repr] at h
  exact absurd (Nat.isDigit_of_mem_toDigits (by omega) (by omega) h) (by decide)

theorem toString_int_inj {m n : ℤ} : toString m = toString n ↔ m = n := by
  refine ⟨fun h => ?_, fun h => h ▸ rfl⟩
  have hm : ∀ k l : ℕ, toString k ≠ "-" ++ toString l := by
    intro k l h
    refine minus_notMem_toString k ?_
    rw [h]
    simp
  rcases m with k | k <;> rcases n with l | l
  · exact congrArg _ (toString_inj.1 h)
  · exact absurd h (hm k (l + 1))
  · exact absurd h.symm (hm l (k + 1))
  · have h' : "-" ++ toString (k + 1) = "-" ++ toString (l + 1) := h
    rw [String.append_right_inj, toString_inj] at h'
    exact congrArg _ (by omega)

theorem toList_pushn (s : String) (c : Char) (n : ℕ) :
    (s.pushn c n).toList = s.toList ++ List.replicate n c := by
  rw [String.pushn_eq_repeat_push]
  induction n with
  | zero => simp [Nat.repeat]
  | succ n ih => simp [Nat.repeat, ih, List.replicate_succ']

theorem toList_padded (width k : ℕ) :
    (padded width k).toList
      = List.replicate (width - (toString k).length) '0' ++ Nat.toDigits 10 k := by
  show ("".pushn '0' (width - (toString k).length) ++ toString k).toList = _
  rw [String.toList_append, toList_pushn]
  simp

theorem length_padded {width k : ℕ} (hw : 0 < width) (hk : k < 10 ^ width) :
    (padded width k).toList.length = width := by
  have hl : (toString k).length ≤ width := (Nat.length_repr_le_iff hw).2 hk
  have hd : (Nat.toDigits 10 k).length = (toString k).length := by
    rw [← String.length_toList, Nat.toString_eq_repr, Nat.toList_repr]
  rw [toList_padded, List.length_append, List.length_replicate, hd]
  omega

theorem padded_inj {width k l : ℕ} : padded width k = padded width l ↔ k = l := by
  refine ⟨fun h => ?_, fun h => h ▸ rfl⟩
  have hv := congrArg (fun s : String => Nat.ofDigitChars 10 s.toList 0) h
  simpa [toList_padded, Nat.ofDigitChars_append] using hv

/-- `k` hundredths, or what `n` decimals are, as text. -/
def unsigned (n k : ℕ) : String := toString (k / 10 ^ n) ++ "." ++ padded n (k % 10 ^ n : ℕ)

theorem minus_notMem_unsigned (n k : ℕ) : '-' ∉ (unsigned n k).toList := by
  unfold unsigned
  rw [String.toList_append, String.toList_append, toList_padded]
  have h1 := minus_notMem_toString (k / 10 ^ n)
  have h2 : '-' ∉ Nat.toDigits 10 (k % 10 ^ n) := by
    intro h
    exact absurd (Nat.isDigit_of_mem_toDigits (by omega) (by omega) h) (by decide)
  simpa [List.mem_replicate, h2] using h1

theorem unsigned_inj {n k l : ℕ} (hn : 0 < n) : unsigned n k = unsigned n l ↔ k = l := by
  refine ⟨fun h => ?_, fun h => h ▸ rfl⟩
  have hk := Nat.mod_lt k (pow_pos (by omega : 0 < 10) n)
  have hl := Nat.mod_lt l (pow_pos (by omega : 0 < 10) n)
  have h' := congrArg String.toList h
  simp only [unsigned, String.toList_append] at h'
  -- the decimals are equally many
  obtain ⟨hw, hd⟩ := List.append_inj' h' (by rw [length_padded hn hk, length_padded hn hl])
  have hw' := List.append_cancel_right hw
  have h1 := toString_inj.1 (String.toList_inj.1 hw')
  have h2 := padded_inj.1 (String.toList_inj.1 hd)
  rw [← Nat.div_add_mod k (10 ^ n), ← Nat.div_add_mod l (10 ^ n), h1, h2]

theorem fixed_eq {n : ℕ} (hn : 0 < n) (q : ℚ) :
    fixed n q = (if q < 0 then "-" else "")
      ++ unsigned n (roundHalfEven (|q| * 10 ^ n)).toNat := by
  have h0 : 0 ≤ roundHalfEven (|q| * 10 ^ n) := roundHalfEven_nonneg (by positivity)
  obtain ⟨k, hk⟩ := Int.eq_ofNat_of_zero_le h0
  unfold fixed unsigned
  simp only [hk, Int.toNat_natCast, if_neg hn.ne']
  have hd : ((k : ℤ) / 10 ^ n) = ((k / 10 ^ n : ℕ) : ℤ) := by push_cast; rfl
  have hm : ((k : ℤ) % 10 ^ n) = ((k % 10 ^ n : ℕ) : ℤ) := by push_cast; rfl
  rw [hd, hm]
  simp only [String.append_assoc]
  rfl

/-- Two numbers have the same text exactly when they have the same sign and round to the same. -/
theorem fixed_eq_iff {n : ℕ} (hn : 0 < n) {p q : ℚ} :
    fixed n p = fixed n q ↔
      (p < 0 ↔ q < 0) ∧ roundHalfEven (|p| * 10 ^ n) = roundHalfEven (|q| * 10 ^ n) := by
  have hp : 0 ≤ roundHalfEven (|p| * 10 ^ n) := roundHalfEven_nonneg (by positivity)
  have hq : 0 ≤ roundHalfEven (|q| * 10 ^ n) := roundHalfEven_nonneg (by positivity)
  have hne : ∀ k l : ℕ, unsigned n k ≠ "-" ++ unsigned n l := by
    intro k l h
    refine minus_notMem_unsigned n k ?_
    rw [h]
    simp
  rw [fixed_eq hn, fixed_eq hn]
  by_cases h1 : p < 0 <;> by_cases h2 : q < 0
  · rw [if_pos h1, if_pos h2, String.append_right_inj, unsigned_inj hn]
    simp only [h1, h2, true_and]
    omega
  · rw [if_pos h1, if_neg h2, String.empty_append]
    simp only [h1, h2, iff_false, not_true_eq_false, false_and, iff_false]
    exact fun h => hne _ _ h.symm
  · rw [if_neg h1, if_pos h2, String.empty_append]
    simp only [h1, h2, iff_true, false_and, iff_false]
    exact hne _ _
  · rw [if_neg h1, if_neg h2, String.append_right_inj, unsigned_inj hn]
    simp only [h1, h2, true_and]
    omega

/-- Two numbers on either side of an even one that the decimals can write have the same text
exactly when both round to it. -/
theorem fixed_eq_iff_within {n : ℕ} (hn : 0 < n) {p q : ℚ} {m : ℤ} (hm : m % 2 = 0) (h0 : 0 < m)
    (hp : p * 10 ^ n ≤ m) (hq : (m : ℚ) ≤ q * 10 ^ n) :
    fixed n p = fixed n q ↔ (m : ℚ) - 1 / 2 ≤ p * 10 ^ n ∧ q * 10 ^ n ≤ (m : ℚ) + 1 / 2 := by
  have hten : (0 : ℚ) < 10 ^ n := by positivity
  have h1 : (1 : ℚ) ≤ m := by exact_mod_cast h0
  have hq0 : 0 ≤ q := nonneg_of_mul_nonneg_left (by linarith) hten
  rw [fixed_eq_iff hn, abs_of_nonneg hq0]
  refine ⟨fun h => ?_, fun h => ?_⟩
  · obtain ⟨hs, hr⟩ := h
    have hp0 : 0 ≤ p := not_lt.1 fun hlt => absurd (hs.1 hlt) (not_lt.2 hq0)
    rw [abs_of_nonneg hp0] at hr
    have hlo : roundHalfEven (p * 10 ^ n) ≤ m := roundHalfEven_even hm ▸ roundHalfEven_mono hp
    have hhi : m ≤ roundHalfEven (q * 10 ^ n) := roundHalfEven_even hm ▸ roundHalfEven_mono hq
    have hpm : roundHalfEven (p * 10 ^ n) = m := by omega
    have hqm : roundHalfEven (q * 10 ^ n) = m := by omega
    exact ⟨((roundHalfEven_eq_iff hm).1 hpm).1, ((roundHalfEven_eq_iff hm).1 hqm).2⟩
  · have hp0 : 0 ≤ p := nonneg_of_mul_nonneg_left (by linarith : 0 ≤ p * 10 ^ n) hten
    rw [abs_of_nonneg hp0]
    have hpm : roundHalfEven (p * 10 ^ n) = m :=
      (roundHalfEven_eq_iff hm).2 ⟨h.1, by linarith⟩
    have hqm : roundHalfEven (q * 10 ^ n) = m :=
      (roundHalfEven_eq_iff hm).2 ⟨by linarith, h.2⟩
    exact ⟨by simp [not_lt.2 hp0, not_lt.2 hq0], hpm.trans hqm.symm⟩

end IosLearning
