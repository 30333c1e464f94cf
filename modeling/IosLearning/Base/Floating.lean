import IosLearning.Base.Decimal

/-!
# Floating-point values over exact rationals

What `Float` and `Double` arithmetic gives where every rational is taken as exact and zero has no
sign: besides the rationals there are the infinities and what is not a number, and a division by
zero gives one of these.
-/

namespace IosLearning

/-- Toward zero, as `Int(x)` converts. -/
def truncate (q : ℚ) : ℤ := if 0 ≤ q then ⌊q⌋ else ⌈q⌉

theorem truncate_intCast (n : ℤ) : truncate n = n := by
  unfold truncate
  split_ifs <;> simp

inductive Floating where
  | nan
  | infinity (negative : Bool)
  | rat (q : ℚ)
  deriving DecidableEq

namespace Floating

def mul : Floating → Floating → Floating
  | rat p, rat q => rat (p * q)
  | infinity n, rat q | rat q, infinity n =>
    if q = 0 then nan else infinity (n ^^ decide (q < 0))
  | infinity m, infinity n => infinity (m ^^ n)
  | nan, _ | _, nan => nan

def div : Floating → Floating → Floating
  | rat p, rat q =>
    if q = 0 then (if p = 0 then nan else infinity (decide (p < 0))) else rat (p / q)
  | infinity n, rat q => infinity (n ^^ decide (q < 0))
  | rat _, infinity _ => rat 0
  | infinity _, infinity _ => nan
  | nan, _ | _, nan => nan

def lt : Floating → Floating → Bool
  | rat p, rat q => decide (p < q)
  | infinity n, rat _ => n
  | rat _, infinity n => !n
  | infinity m, infinity n => m && !n
  | nan, _ | _, nan => false

def le : Floating → Floating → Bool
  | rat p, rat q => decide (p ≤ q)
  | infinity n, rat _ => n
  | rat _, infinity n => !n
  | infinity m, infinity n => m || !n
  | nan, _ | _, nan => false

/-- With `n` decimals, as `"%.nf"` prints it. -/
def text (n : ℕ) : Floating → String
  | nan => "nan"
  | infinity negative => if negative then "-inf" else "inf"
  | rat q => fixed n q

theorem div_rat {p q : ℚ} (hq : q ≠ 0) : (rat p).div (rat q) = rat (p / q) := by
  simp [div, hq]

/-- A product by a positive number, divided by one that is not zero, is a rational where the
factor is. -/
theorem mul_div_eq_rat_iff {x : Floating} {m c r : ℚ} (hm : 0 < m) (hc : c ≠ 0) :
    (x.mul (rat m)).div (rat c) = rat r ↔ ∃ q, x = rat q ∧ r = q * m / c := by
  rcases x with _ | n | q
  · simp [mul, div]
  · simp [mul, div, hm.ne']
  · simp [mul, div, hc, eq_comm]

end Floating

end IosLearning
