import IosLearning.Base.Floating
import Mathlib.Algebra.Field.Rat
import Mathlib.Algebra.Order.Field.Basic
import Mathlib.Data.List.TakeWhile
import Mathlib.Tactic.Positivity

/-!
# Numerals

The texts `Double(_:)` reads: an optional sign, and then a decimal numeral, a hexadecimal one, an
infinity or what is not a number. `Reads` is the grammar with what each text denotes, `read` is
the reader, and they agree (`read_eq_some_iff`).
-/

namespace IosLearning

namespace Numeral

/-- The value of a digit, and 16 for what is none. -/
def digitValue (c : Char) : ℕ :=
  if '0' ≤ c ∧ c ≤ '9' then c.toNat - '0'.toNat
  else if 'a' ≤ c ∧ c ≤ 'f' then c.toNat - 'a'.toNat + 10
  else if 'A' ≤ c ∧ c ≤ 'F' then c.toNat - 'A'.toNat + 10
  else 16

def isDigit (base : ℕ) (c : Char) : Bool := decide (digitValue c < base)

def digitsValue (base : ℕ) (ds : List Char) : ℕ :=
  ds.foldl (fun v c => base * v + digitValue c) 0

/-- Whether a text is a word, given in small letters, but for case. -/
def caseless : List Char → List Char → Bool
  | [], [] => true
  | w :: ws, c :: cs => (c == w || c == w.toUpper) && caseless ws cs
  | _, _ => false

/-- What a text denotes but for its sign. -/
inductive Form where
  | decimal (q : ℚ)
  | hexadecimal (q : ℚ)
  | infinity
  | nan
  deriving DecidableEq

structure Literal where
  negative : Bool
  form : Form
  deriving DecidableEq

/-- A literal's value. -/
def Literal.value (l : Literal) : Floating :=
  match l.form with
  | .decimal q | .hexadecimal q => .rat (if l.negative then -q else q)
  | .infinity => .infinity l.negative
  | .nan => .nan

/-! ## The grammar -/

inductive Sign : List Char → Bool → Prop
  | none : Sign [] false
  | plus : Sign ['+'] false
  | minus : Sign ['-'] true

/-- Digits with at most one point, and at least one digit. -/
inductive Significand (base : ℕ) : List Char → ℚ → Prop
  | whole {ds : List Char} (hne : ds ≠ []) (hd : ∀ c ∈ ds, isDigit base c = true) :
    Significand base ds (digitsValue base ds)
  | pointed {ds fs : List Char} (hne : ds ++ fs ≠ [])
    (hd : ∀ c ∈ ds, isDigit base c = true) (hf : ∀ c ∈ fs, isDigit base c = true) :
    Significand base (ds ++ '.' :: fs) (digitsValue base (ds ++ fs) / base ^ fs.length)

/-- Nothing, or a mark, an optional sign and decimal digits. -/
inductive Exponent (mark : Char) : List Char → ℤ → Prop
  | none : Exponent mark [] 0
  | some {m : Char} {s ds : List Char} {n : Bool} (hm : m = mark ∨ m = mark.toUpper)
    (hs : Sign s n) (hne : ds ≠ []) (hd : ∀ c ∈ ds, isDigit 10 c = true) :
    Exponent mark (m :: (s ++ ds))
      (if n then -(digitsValue 10 ds : ℤ) else (digitsValue 10 ds : ℤ))

/-- A significand and an exponent of `radix`. -/
inductive Number (base : ℕ) (radix : ℚ) (mark : Char) : List Char → ℚ → Prop
  | mk {s e : List Char} {q : ℚ} {k : ℤ} (hs : Significand base s q) (he : Exponent mark e k) :
    Number base radix mark (s ++ e) (q * radix ^ k)

def IsInfinity (cs : List Char) : Prop :=
  caseless ['i', 'n', 'f'] cs = true ∨ caseless ['i', 'n', 'f', 'i', 'n', 'i', 't', 'y'] cs = true

/-- The word alone, or with a payload in brackets. -/
def IsNan (cs : List Char) : Prop :=
  caseless ['n', 'a', 'n'] (cs.take 3) = true
    ∧ (cs.drop 3 = [] ∨ (cs.drop 3).head? = some '('
      ∧ (cs.drop 4).dropWhile (· ≠ ')') = [')'])

inductive Body : List Char → Form → Prop
  | decimal {cs : List Char} {q : ℚ} (h : Number 10 10 'e' cs q) : Body cs (.decimal q)
  | hexadecimal {x : Char} {cs : List Char} {q : ℚ} (hx : x = 'x' ∨ x = 'X')
    (h : Number 16 2 'p' cs q) : Body ('0' :: x :: cs) (.hexadecimal q)
  | infinity {cs : List Char} (h : IsInfinity cs) : Body cs .infinity
  | nan {cs : List Char} (h : IsNan cs) : Body cs .nan

inductive Reads : List Char → Literal → Prop
  | mk {s b : List Char} {n : Bool} {f : Form} (hs : Sign s n) (hb : Body b f) :
    Reads (s ++ b) ⟨n, f⟩

/-! ## The reader -/

def sign : List Char → Bool × List Char
  | '+' :: cs => (false, cs)
  | '-' :: cs => (true, cs)
  | cs => (false, cs)

/-- The value of the significand a text begins with, and the rest. -/
def significand (base : ℕ) (cs : List Char) : Option (ℚ × List Char) :=
  let ds := cs.takeWhile (isDigit base)
  match cs.dropWhile (isDigit base) with
  | '.' :: rest =>
    let fs := rest.takeWhile (isDigit base)
    if ds ++ fs = [] then none
    else some (digitsValue base (ds ++ fs) / base ^ fs.length, rest.dropWhile (isDigit base))
  | rest => if ds = [] then none else some (digitsValue base ds, rest)

def exponent (mark : Char) : List Char → Option ℤ
  | [] => some 0
  | m :: cs =>
    let (n, ds) := sign cs
    if (m = mark ∨ m = mark.toUpper) ∧ ds ≠ [] ∧ ds.all (isDigit 10) = true then
      some (if n then -(digitsValue 10 ds : ℤ) else (digitsValue 10 ds : ℤ))
    else none

def number (base : ℕ) (radix : ℚ) (mark : Char) (cs : List Char) : Option ℚ :=
  (significand base cs).bind fun r => (exponent mark r.2).map (r.1 * radix ^ ·)

/-- The rest of a text that begins as a hexadecimal numeral. -/
def afterHex : List Char → Option (List Char)
  | '0' :: x :: cs => if x = 'x' ∨ x = 'X' then some cs else none
  | _ => none

instance (cs : List Char) : Decidable (IsInfinity cs) := by unfold IsInfinity; infer_instance

instance (cs : List Char) : Decidable (IsNan cs) := by unfold IsNan; infer_instance

def body (cs : List Char) : Option Form :=
  if IsInfinity cs then some .infinity
  else if IsNan cs then some .nan
  else
    match afterHex cs with
    | some rest => (number 16 2 'p' rest).map .hexadecimal
    | none => (number 10 10 'e' cs).map .decimal

def read (cs : List Char) : Option Literal :=
  (body (sign cs).2).map (⟨(sign cs).1, ·⟩)

/-- What `Double(text)` gives. -/
def double (text : String) : Option Floating := (read text.toList).map Literal.value

example : read "-12.5e+1".toList = some ⟨true, .decimal 125⟩ := by decide +kernel

example : read "0x1c.6".toList = some ⟨false, .hexadecimal (227 / 8)⟩ := by decide +kernel

example : read "1e".toList = none := by decide +kernel

/-! ## The reader reads the grammar -/

theorem not_isDigit_of_le {base : ℕ} {c : Char} (hc : base ≤ digitValue c) :
    isDigit base c = false := by
  simpa [isDigit] using hc

/-- A digit is neither a sign nor a point. -/
theorem digit_ne {base : ℕ} (hb : base ≤ 16) {c : Char} (h : isDigit base c = true) :
    c ≠ '+' ∧ c ≠ '-' ∧ c ≠ '.' := by
  have hv : digitValue c < base := of_decide_eq_true h
  have hne : ∀ d, digitValue d = 16 → c ≠ d := by
    rintro d hd rfl
    omega
  exact ⟨hne _ rfl, hne _ rfl, hne _ rfl⟩

theorem sign_sound {cs ds : List Char} {n : Bool} (h : sign cs = (n, ds)) :
    ∃ s, Sign s n ∧ cs = s ++ ds := by
  unfold sign at h
  split at h <;>
    · simp only [Prod.mk.injEq] at h
      obtain ⟨rfl, rfl⟩ := h
      first
        | exact ⟨_, .plus, rfl⟩
        | exact ⟨_, .minus, rfl⟩
        | exact ⟨_, .none, rfl⟩

theorem sign_complete {s ds : List Char} {n : Bool} (hs : Sign s n)
    (hd : ∀ c ∈ ds.head?, c ≠ '+' ∧ c ≠ '-') : sign (s ++ ds) = (n, ds) := by
  cases hs with
  | plus => rfl
  | minus => rfl
  | none =>
    rcases ds with _ | ⟨c, cs⟩
    · rfl
    · obtain ⟨hp, hm⟩ := hd c rfl
      simp [sign, hp, hm]

section Digits

variable {base : ℕ}

theorem takeWhile_digits {ds rest : List Char} (hd : ∀ c ∈ ds, isDigit base c = true)
    (hr : ∀ c ∈ rest.head?, isDigit base c = false) :
    (ds ++ rest).takeWhile (isDigit base) = ds := by
  rw [List.takeWhile_append_of_pos hd]
  rcases rest with _ | ⟨c, cs⟩
  · simp
  · rw [List.takeWhile_cons_of_neg (by simp [hr c rfl]), List.append_nil]

theorem dropWhile_digits {ds rest : List Char} (hd : ∀ c ∈ ds, isDigit base c = true)
    (hr : ∀ c ∈ rest.head?, isDigit base c = false) :
    (ds ++ rest).dropWhile (isDigit base) = rest := by
  rw [List.dropWhile_append_of_pos hd]
  rcases rest with _ | ⟨c, cs⟩
  · rfl
  · rw [List.dropWhile_cons_of_neg (by simp [hr c rfl])]

theorem significand_sound {cs rest : List Char} {q : ℚ}
    (h : significand base cs = some (q, rest)) : ∃ s, cs = s ++ rest ∧ Significand base s q := by
  have hcs := List.takeWhile_append_dropWhile (p := isDigit base) (l := cs)
  have hds : ∀ c ∈ cs.takeWhile (isDigit base), isDigit base c = true :=
    fun c hc => List.mem_takeWhile_imp hc
  unfold significand at h
  simp only [] at h
  split at h
  · rename_i r hr
    have hfs : ∀ c ∈ r.takeWhile (isDigit base), isDigit base c = true :=
      fun c hc => List.mem_takeWhile_imp hc
    split_ifs at h with hne
    simp only [Option.some.injEq, Prod.mk.injEq] at h
    obtain ⟨rfl, rfl⟩ := h
    refine ⟨_, ?_, .pointed hne hds hfs⟩
    rw [List.append_assoc, List.cons_append, List.takeWhile_append_dropWhile, ← hr, hcs]
  · split_ifs at h with hne
    simp only [Option.some.injEq, Prod.mk.injEq] at h
    obtain ⟨rfl, rfl⟩ := h
    exact ⟨_, hcs.symm, .whole hne hds⟩

theorem significand_complete (hb : base ≤ 16) {s rest : List Char} {q : ℚ}
    (hs : Significand base s q)
    (hr : ∀ c ∈ rest.head?, isDigit base c = false ∧ c ≠ '.') :
    significand base (s ++ rest) = some (q, rest) := by
  have hr' : ∀ c ∈ rest.head?, isDigit base c = false := fun c hc => (hr c hc).1
  cases hs with
  | whole hne hd =>
    unfold significand
    rw [takeWhile_digits hd hr', dropWhile_digits hd hr']
    rcases rest with _ | ⟨c, cs⟩
    · simp [hne]
    · have hc := (hr c rfl).2
      simp [hne, hc]
  | @pointed ds fs hne hd hf =>
    have hp : ∀ c ∈ ('.' :: (fs ++ rest)).head?, isDigit base c = false := by
      intro c hc
      obtain rfl : '.' = c := by simpa using hc
      exact not_isDigit_of_le hb
    unfold significand
    rw [List.append_assoc, List.cons_append, takeWhile_digits hd hp, dropWhile_digits hd hp]
    simp only [takeWhile_digits hf hr', dropWhile_digits hf hr', if_neg hne]

end Digits

theorem exponent_eq_some_iff {mark : Char} {e : List Char} {k : ℤ} :
    exponent mark e = some k ↔ Exponent mark e k := by
  refine ⟨fun h => ?_, fun h => ?_⟩
  · rcases e with _ | ⟨m, cs⟩
    · obtain rfl : 0 = k := by simpa [exponent] using h
      exact .none
    · simp only [exponent, Option.ite_none_right_eq_some, Option.some.injEq] at h
      obtain ⟨⟨hm, hne, hd⟩, rfl⟩ := h
      have hsg : sign cs = ((sign cs).1, (sign cs).2) := rfl
      obtain ⟨s, hs, he⟩ := sign_sound hsg
      rw [List.all_eq_true] at hd
      have := Exponent.some hm hs hne hd
      rwa [← he] at this
  · cases h with
    | none => rfl
    | @some m s ds n hm hs hne hd =>
      have hsg : sign (s ++ ds) = (n, ds) := by
        refine sign_complete hs fun c hc => ?_
        have := digit_ne (by omega) (hd c (List.mem_of_mem_head? hc))
        exact ⟨this.1, this.2.1⟩
      simp only [exponent, hsg]
      rw [if_pos ⟨hm, hne, List.all_eq_true.2 hd⟩]

theorem number_eq_some_iff {base : ℕ} {radix : ℚ} {mark : Char} {cs : List Char} {q : ℚ}
    (hb : base ≤ 16) (hm : ∀ m, m = mark ∨ m = mark.toUpper → base ≤ digitValue m ∧ m ≠ '.') :
    number base radix mark cs = some q ↔ Number base radix mark cs q := by
  refine ⟨fun h => ?_, fun h => ?_⟩
  · simp only [number, Option.bind_eq_some_iff, Option.map_eq_some_iff, Prod.exists] at h
    obtain ⟨v, e, hv, k, he, rfl⟩ := h
    obtain ⟨s, rfl, hs⟩ := significand_sound hv
    exact .mk hs (exponent_eq_some_iff.1 he)
  · obtain @⟨s, e, v, k, hs, he⟩ := h
    have hr : ∀ c ∈ e.head?, isDigit base c = false ∧ c ≠ '.' := by
      intro c hc
      cases he with
      | none => simp at hc
      | some hmk =>
        obtain rfl : _ = c := by simpa using hc
        exact ⟨not_isDigit_of_le (hm _ hmk).1, (hm _ hmk).2⟩
    simp [number, significand_complete hb hs hr, exponent_eq_some_iff.2 he]

theorem decimal_eq_some_iff {cs : List Char} {q : ℚ} :
    number 10 10 'e' cs = some q ↔ Number 10 10 'e' cs q := by
  refine number_eq_some_iff (by omega) fun m hm => ?_
  rcases hm with rfl | rfl <;> decide

theorem hexadecimal_eq_some_iff {cs : List Char} {q : ℚ} :
    number 16 2 'p' cs = some q ↔ Number 16 2 'p' cs q := by
  refine number_eq_some_iff (by omega) fun m hm => ?_
  rcases hm with rfl | rfl <;> decide

/-! ### The four forms begin differently -/

/-- A numeral begins with a digit or a point. -/
theorem Number.head {base : ℕ} {radix : ℚ} {mark : Char} {cs : List Char} {q : ℚ}
    (h : Number base radix mark cs q) :
    ∃ c r, cs = c :: r ∧ (isDigit base c = true ∨ c = '.') := by
  obtain @⟨s, e, v, k, hs, -⟩ := h
  cases hs with
  | whole hne hd =>
    rcases s with _ | ⟨c, s⟩
    · exact absurd rfl hne
    · exact ⟨c, _, rfl, .inl (hd c List.mem_cons_self)⟩
  | @pointed ds fs hne hd hf =>
    rcases ds with _ | ⟨c, ds⟩
    · exact ⟨'.', _, rfl, .inr rfl⟩
    · exact ⟨c, _, rfl, .inl (hd c List.mem_cons_self)⟩

theorem caseless_head {w : Char} {ws cs : List Char} (h : caseless (w :: ws) cs = true) :
    ∃ c r, cs = c :: r ∧ (c = w ∨ c = w.toUpper) := by
  rcases cs with _ | ⟨c, cs⟩
  · simp [caseless] at h
  · simp only [caseless, Bool.and_eq_true, Bool.or_eq_true, beq_iff_eq] at h
    exact ⟨c, cs, rfl, h.1⟩

theorem IsInfinity.head {cs : List Char} (h : IsInfinity cs) :
    ∃ c r, cs = c :: r ∧ (c = 'i' ∨ c = 'I') := by
  rcases h with h | h <;> exact caseless_head h

theorem IsNan.head {cs : List Char} (h : IsNan cs) :
    ∃ c r, cs = c :: r ∧ (c = 'n' ∨ c = 'N') := by
  obtain ⟨c, r, hc, hn⟩ := caseless_head h.1
  rcases cs with _ | ⟨d, cs⟩
  · simp at hc
  · obtain ⟨rfl, -⟩ : d = c ∧ _ := by simpa using hc
    exact ⟨d, cs, rfl, hn⟩

theorem not_isInfinity_cons {c : Char} {cs : List Char} (hc : c ≠ 'i' ∧ c ≠ 'I') :
    ¬ IsInfinity (c :: cs) := by
  intro h
  obtain ⟨d, r, hd, hi⟩ := h.head
  simp only [List.cons.injEq] at hd
  rw [← hd.1] at hi
  exact hi.elim hc.1 hc.2

theorem not_isNan_cons {c : Char} {cs : List Char} (hc : c ≠ 'n' ∧ c ≠ 'N') :
    ¬ IsNan (c :: cs) := by
  intro h
  obtain ⟨d, r, hd, hi⟩ := h.head
  simp only [List.cons.injEq] at hd
  rw [← hd.1] at hi
  exact hi.elim hc.1 hc.2

/-- What begins a decimal numeral begins none of the words. -/
theorem decimalHead_ne {c : Char} (h : isDigit 10 c = true ∨ c = '.') :
    c ≠ 'i' ∧ c ≠ 'I' ∧ c ≠ 'n' ∧ c ≠ 'N' ∧ c ≠ '+' ∧ c ≠ '-' := by
  have hne : ∀ d, ¬ (isDigit 10 d = true ∨ d = '.') → c ≠ d := by
    rintro d hd rfl
    exact hd h
  refine ⟨?_, ?_, ?_, ?_, ?_, ?_⟩ <;> exact hne _ (by decide)

/-- No decimal numeral goes on as a hexadecimal one. -/
theorem afterHex_decimal {cs : List Char} {q : ℚ} (h : number 10 10 'e' cs = some q) :
    afterHex cs = none := by
  by_contra hn
  obtain ⟨rest, hr⟩ := Option.ne_none_iff_exists'.1 hn
  unfold afterHex at hr
  split at hr
  · rename_i x cs
    rw [Option.ite_none_right_eq_some] at hr
    have hsig : significand 10 ('0' :: x :: cs) = some (0, x :: cs) := by
      have hx : ∀ c ∈ (x :: cs).head?, isDigit 10 c = false ∧ c ≠ '.' := by
        intro c hc
        obtain rfl : x = c := by simpa using hc
        rcases hr.1 with rfl | rfl <;> decide
      have h0 : Significand 10 ['0'] (digitsValue 10 ['0']) := .whole (by simp)
        (List.forall_mem_singleton.2 rfl)
      have := significand_complete (by omega) h0 hx
      simpa [digitsValue, digitValue] using this
    simp only [number, hsig, Option.bind_some, Option.map_eq_some_iff, exponent] at h
    obtain ⟨k, hk, -⟩ := h
    rw [Option.ite_none_right_eq_some] at hk
    rcases hr.1 with rfl | rfl <;> exact absurd hk.1.1 (by decide)
  · simp at hr

theorem body_eq_some_iff {cs : List Char} {f : Form} : body cs = some f ↔ Body cs f := by
  refine ⟨fun h => ?_, fun h => ?_⟩
  · unfold body at h
    split_ifs at h with hi hn
    · obtain rfl := Option.some.inj h
      exact .infinity hi
    · obtain rfl := Option.some.inj h
      exact .nan hn
    · split at h
      · rename_i rest hr
        obtain ⟨q, hq, rfl⟩ := Option.map_eq_some_iff.1 h
        unfold afterHex at hr
        split at hr
        · rw [Option.ite_none_right_eq_some] at hr
          obtain ⟨hx, hr⟩ := hr
          obtain rfl := Option.some.inj hr
          exact .hexadecimal hx (hexadecimal_eq_some_iff.1 hq)
        · simp at hr
      · obtain ⟨q, hq, rfl⟩ := Option.map_eq_some_iff.1 h
        exact .decimal (decimal_eq_some_iff.1 hq)
  · unfold body
    cases h with
    | infinity hi => rw [if_pos hi]
    | nan hn =>
      obtain ⟨c, r, rfl, hc⟩ := hn.head
      rw [if_neg (not_isInfinity_cons (by rcases hc with rfl | rfl <;> decide)), if_pos hn]
    | @hexadecimal x cs q hx hq =>
      rw [if_neg (not_isInfinity_cons (by decide)), if_neg (not_isNan_cons (by decide))]
      simp [afterHex, hx, hexadecimal_eq_some_iff.2 hq]
    | decimal hq =>
      obtain ⟨c, r, rfl, hc⟩ := hq.head
      have hw := decimalHead_ne hc
      rw [if_neg (not_isInfinity_cons ⟨hw.1, hw.2.1⟩),
        if_neg (not_isNan_cons ⟨hw.2.2.1, hw.2.2.2.1⟩),
        afterHex_decimal (decimal_eq_some_iff.2 hq)]
      simp [decimal_eq_some_iff.2 hq]

/-- No form begins with a sign. -/
theorem Body.head {cs : List Char} {f : Form} (h : Body cs f) :
    ∀ c ∈ cs.head?, c ≠ '+' ∧ c ≠ '-' := by
  intro c hc
  cases h with
  | decimal hq =>
    obtain ⟨d, r, rfl, hd⟩ := hq.head
    obtain rfl : d = c := by simpa using hc
    exact (decimalHead_ne hd).2.2.2.2
  | hexadecimal hx hq =>
    obtain rfl : '0' = c := by simpa using hc
    decide
  | infinity hi =>
    obtain ⟨d, r, rfl, hd⟩ := hi.head
    obtain rfl : d = c := by simpa using hc
    rcases hd with rfl | rfl <;> decide
  | nan hn =>
    obtain ⟨d, r, rfl, hd⟩ := hn.head
    obtain rfl : d = c := by simpa using hc
    rcases hd with rfl | rfl <;> decide

theorem Number.nonneg {base : ℕ} {radix : ℚ} (hr : 0 ≤ radix) {mark : Char} {cs : List Char}
    {q : ℚ} (h : Number base radix mark cs q) : 0 ≤ q := by
  obtain ⟨hs, -⟩ := h
  refine mul_nonneg ?_ (zpow_nonneg hr _)
  cases hs with
  | whole => positivity
  | pointed => positivity

/-- The reader accepts what the grammar does, and with the same value. -/
theorem read_eq_some_iff {cs : List Char} {l : Literal} : read cs = some l ↔ Reads cs l := by
  refine ⟨fun h => ?_, fun h => ?_⟩
  · obtain ⟨f, hf, rfl⟩ := Option.map_eq_some_iff.1 h
    have hsg : sign cs = ((sign cs).1, (sign cs).2) := rfl
    obtain ⟨s, hs, he⟩ := sign_sound hsg
    have := Reads.mk hs (body_eq_some_iff.1 hf)
    rwa [← he] at this
  · obtain ⟨hs, hb⟩ := h
    simp [read, sign_complete hs hb.head, body_eq_some_iff.2 hb]

theorem Reads.unique {cs : List Char} {l l' : Literal} (h : Reads cs l) (h' : Reads cs l') :
    l = l' :=
  Option.some.inj ((read_eq_some_iff.2 h).symm.trans (read_eq_some_iff.2 h'))

theorem Reads.nonneg {cs : List Char} {n : Bool} {q : ℚ} (h : Reads cs ⟨n, .decimal q⟩) :
    0 ≤ q := by
  obtain ⟨-, hb⟩ := h
  cases hb with
  | decimal hq => exact hq.nonneg (by norm_num)

end Numeral

end IosLearning
