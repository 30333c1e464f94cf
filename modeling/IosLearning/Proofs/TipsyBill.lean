import IosLearning.Proofs.TipsyPeople

/-!
# The bill that is split

The bill is what `Double` reads in the text, and zero where it reads nothing. That is the bill
the text says unless it says a negative number, a hexadecimal one, an infinity or what is not a
number; and the amount per person is the bill with the tip divided by the number of people
exactly where it is (`bill_split_iff`).
-/

namespace IosLearning

namespace Tipsy

open Numeral

/-- The text is a decimal numeral of a number that is not negative. -/
def Denotes (text : String) (q : ℚ) : Prop :=
  0 ≤ q ∧ ∃ n p, Reads text.toList ⟨n, .decimal p⟩ ∧ q = if n then -p else p

/-- The bill a text says: the number it denotes, and zero for every other text. -/
def BillIs (text : String) (q : ℚ) : Prop :=
  Denotes text q ∨ ((∀ p, ¬ Denotes text p) ∧ q = 0)

/-- The text is read as something else than the bill it says. -/
def Misread (text : String) : Prop :=
  ∃ l, Reads text.toList l ∧ match l.form with
    | .nan | .infinity => True
    | .hexadecimal q => q ≠ 0
    | .decimal q => l.negative = true ∧ q ≠ 0

/-- The tip a button stands for. -/
def PctButton.pct : PctButton → ℚ
  | .zeroPctButton => 0
  | .tenPctButton => 1 / 10
  | .twentyPctButton => 2 / 10

/-- What the result screen is handed: one tip is selected, that of the button last pressed, and
an amount that is not negative and, times the number of people, is the bill with the tip. -/
def BillSplit (es : List Event) (a : App) : Prop :=
  (∀ b, a.calculator.isSelected b = true ↔ b = lastTip es)
    ∧ ∀ r ∈ a.presented, ∃ t q n b, a.calculator.billTextField.text = some t
      ∧ r.perPersonBill = some (.rat q) ∧ 0 ≤ q ∧ r.personCount = some n
      ∧ r.tipPct = some (lastTip es).pct ∧ BillIs t b ∧ q * n = b * (1 + (lastTip es).pct)

/-- The result is not asked for with a text that is misread. -/
def TextRead (_ : List Event) (a : App) : Event → Prop
  | .calculatePressed => a.presented = none → ∀ t ∈ a.calculator.billTextField.text, ¬ Misread t
  | _ => True

section Bill

variable {text : String} {l : Literal}

theorem billIs_of_reads {n : Bool} {p : ℚ} (h : Reads text.toList ⟨n, .decimal p⟩)
    (h0 : 0 ≤ if n then -p else p) : BillIs text (if n then -p else p) :=
  .inl ⟨h0, n, p, h, rfl⟩

/-- What is read otherwise says no bill. -/
theorem billIs_zero (h : ∀ n p, Reads text.toList ⟨n, .decimal p⟩ → False) {q : ℚ} :
    BillIs text q ↔ q = 0 := by
  refine ⟨fun hb => ?_, fun hq => .inr ⟨fun p hp => ?_, hq⟩⟩
  · rcases hb with ⟨-, n, p, hr, -⟩ | ⟨-, hq⟩
    · exact (h n p hr).elim
    · exact hq
  · obtain ⟨-, n, p, hr, -⟩ := hp
    exact h n p hr

theorem misread_iff (h : Reads text.toList l) : Misread text ↔ match l.form with
    | .nan | .infinity => True
    | .hexadecimal q => q ≠ 0
    | .decimal q => l.negative = true ∧ q ≠ 0 := by
  refine ⟨fun hm => ?_, fun hm => ⟨l, h, hm⟩⟩
  obtain ⟨l', h', hm⟩ := hm
  rwa [h.unique h']

/-- A decimal numeral is read as the bill it says unless it is negative. -/
theorem decimal_iff {n : Bool} {p : ℚ} (h : Reads text.toList ⟨n, .decimal p⟩) :
    (∃ q, Literal.value ⟨n, .decimal p⟩ = .rat q ∧ 0 ≤ q ∧ BillIs text q)
      ↔ ¬ (n = true ∧ p ≠ 0) := by
  have hp := h.nonneg
  refine ⟨fun hb => ?_, fun hm => ?_⟩
  · obtain ⟨q, hq, h0, -⟩ := hb
    rintro ⟨hn, hne⟩
    obtain rfl : (if n then -p else p) = q := by simpa [Literal.value] using hq
    rw [if_pos hn] at h0
    exact hne (le_antisymm (by linarith) hp)
  · have h0 : 0 ≤ if n then -p else p := by
      split_ifs with hn
      · have : p = 0 := by simpa [hn] using hm
        rw [this, neg_zero]
      · exact hp
    exact ⟨_, rfl, h0, billIs_of_reads h h0⟩

/-- A hexadecimal numeral says no bill, and is read as none where it is of zero. -/
theorem hexadecimal_iff {n : Bool} {p : ℚ} (h : Reads text.toList ⟨n, .hexadecimal p⟩) :
    (∃ q, Literal.value ⟨n, .hexadecimal p⟩ = .rat q ∧ 0 ≤ q ∧ BillIs text q) ↔ ¬ p ≠ 0 := by
  have hz : ∀ q, BillIs text q ↔ q = 0 := fun q => billIs_zero fun n' p' h' => by
    simpa using congrArg Literal.form (h.unique h')
  rw [not_not]
  refine ⟨fun hb => ?_, fun h0 => ?_⟩
  · obtain ⟨q, hq, -, hb⟩ := hb
    obtain rfl : (if n then -p else p) = q := by simpa [Literal.value] using hq
    have h0 := (hz _).1 hb
    split_ifs at h0
    · exact neg_eq_zero.1 h0
    · exact h0
  · subst h0
    exact ⟨0, by simp [Literal.value], le_rfl, (hz 0).2 rfl⟩

/-- What is read as the bill is a number, not negative, and the bill the text says exactly where
the text is not misread. -/
theorem double_iff : (∃ q, (double text).getD (.rat 0) = .rat q ∧ 0 ≤ q ∧ BillIs text q)
    ↔ ¬ Misread text := by
  rcases hr : read text.toList with _ | ⟨n, f⟩
  · have hn : ∀ l, ¬ Reads text.toList l := by
      intro l hl
      rw [read_eq_some_iff.2 hl] at hr
      simp at hr
    have hb : BillIs text 0 := (billIs_zero fun n p h => hn _ h).2 rfl
    have hm : ¬ Misread text := by
      rintro ⟨l, hl, -⟩
      exact hn l hl
    simpa [double, hr, hm] using hb
  · have hl := read_eq_some_iff.1 hr
    have hd : (double text).getD (.rat 0) = Literal.value ⟨n, f⟩ := by simp [double, hr]
    rw [hd, misread_iff hl]
    rcases f with p | p | _ | _
    · exact decimal_iff hl
    · exact hexadecimal_iff hl
    · simp [Literal.value]
    · simp [Literal.value]

end Bill

section Runs

variable {es : List Event} {a a' : App} {e : Event}

theorem getTipPctValue_eq (h : Sound es a) : a.calculator.getTipPctValue = (lastTip es).pct := by
  unfold CalculatorViewController.getTipPctValue
  rw [h.isSelected, h.isSelected]
  cases lastTip es <;> rfl

theorem one_add_pct_pos (b : PctButton) : 0 < 1 + b.pct := by
  cases b <;> norm_num [PctButton.pct]

theorem personStepper_pos (c : CalculatorViewController) : 0 < c.personStepper.value :=
  lt_of_lt_of_le two_pos c.personStepper.min_le

/-- What the result screen is handed is the bill split exactly where the text is not misread. -/
theorem shown_split_iff (h : Sound es a) {t : String}
    (ht : a.calculator.billTextField.text = some t) :
    (∃ q n b, a.calculator.shown.perPersonBill = some (.rat q) ∧ 0 ≤ q
      ∧ a.calculator.shown.personCount = some n
      ∧ BillIs t b ∧ q * n = b * (1 + (lastTip es).pct)) ↔ ¬ Misread t := by
  obtain ⟨n, hn⟩ := h.whole
  have hpos := personStepper_pos a.calculator
  have hpct := one_add_pct_pos (lastTip es)
  have hcount : a.calculator.shown.personCount = some n := by
    show some (truncate a.calculator.personStepper.value) = some n
    rw [hn, truncate_intCast]
  have hbill : ∀ q, a.calculator.shown.perPersonBill = some (.rat q) ↔
      ∃ x, (double t).getD (.rat 0) = .rat x
        ∧ q = x * (1 + (lastTip es).pct) / a.calculator.personStepper.value := by
    intro q
    show some a.calculator.getPerPersonBill = some (.rat q) ↔ _
    rw [Option.some.injEq, CalculatorViewController.getPerPersonBill, getTipPctValue_eq h,
      CalculatorViewController.getPersonCount, Floating.mul_div_eq_rat_iff hpct hpos.ne',
      CalculatorViewController.getBillAmount, ht]
  rw [← double_iff]
  refine ⟨fun hs => ?_, fun hs => ?_⟩
  · obtain ⟨q, n', b, hq, h0, hn', hb, he⟩ := hs
    obtain ⟨x, hx, rfl⟩ := (hbill q).1 hq
    obtain rfl : n = n' := Option.some.inj (hcount.symm.trans hn')
    rw [← hn, div_mul_cancel₀ _ hpos.ne'] at he
    obtain rfl : x = b := mul_right_cancel₀ hpct.ne' he
    refine ⟨x, hx, ?_, hb⟩
    by_contra hneg
    exact absurd h0 (not_le.2 (div_neg_of_neg_of_pos
      (mul_neg_of_neg_of_pos (not_le.1 hneg) hpct) hpos))
  · obtain ⟨x, hx, h0, hb⟩ := hs
    refine ⟨_, n, x, (hbill _).2 ⟨x, hx, rfl⟩, by positivity, hcount, hb, ?_⟩
    rw [← hn, div_mul_cancel₀ _ hpos.ne']

theorem isSelected_iff (h : Sound es a) (b : PctButton) :
    a.calculator.isSelected b = true ↔ b = lastTip es := by
  simp [h.isSelected]

/-- With the result screen up, the split is right exactly where the text is not misread. -/
theorem billSplit_iff (h : Sound es a) : BillSplit es a ↔
    (a.presented ≠ none → ∀ t ∈ a.calculator.billTextField.text, ¬ Misread t) := by
  refine ⟨fun hb hp t ht => ?_, fun hm => ⟨isSelected_iff h, fun r hr => ?_⟩⟩
  · obtain ⟨r, hr⟩ := Option.ne_none_iff_exists'.1 hp
    obtain ⟨t', q, n, b, ht', hq, h0, hn, -, hb, he⟩ := hb.2 r hr
    obtain rfl : t = t' := Option.some.inj (ht.symm.trans ht')
    obtain rfl := h.presented r hr
    exact (shown_split_iff h ht).1 ⟨q, n, b, hq, h0, hn, hb, he⟩
  · obtain ⟨t, ht⟩ := h.text
    obtain rfl := h.presented r hr
    have hp : a.presented ≠ none := by simp [Option.mem_def.1 hr]
    obtain ⟨q, n, b, hq, h0, hn, hb, he⟩ := (shown_split_iff h ht).2 (hm hp t ht)
    exact ⟨t, q, n, b, ht, hq, h0, hn, congrArg some (getTipPctValue_eq h), hb, he⟩

theorem BillSplit.step (hr : machine.run es = some a) (he : TextRead es a e)
    (hst : machine.step a e = some a') : BillSplit (es ++ [e]) a' := by
  rw [billSplit_iff (run_sound (Machine.run_snoc_some.2 ⟨a, hr, hst⟩))]
  rcases step_cases hst with ⟨-, c, rfl, -⟩ | ⟨rfl, hn, rfl⟩ | ⟨rfl, rfl⟩
  · exact fun hp => absurd rfl hp
  · exact fun _ => he hn
  · exact fun hp => absurd rfl hp

theorem misread_not_split (hr : machine.run es = some a) (he : ¬ TextRead es a e) :
    ∃ a', machine.step a e = some a' ∧ ¬ BillSplit (es ++ [e]) a' := by
  rcases e with b | _ | _ | t | _ | _
  case calculatePressed =>
    simp only [TextRead, not_forall, not_not] at he
    obtain ⟨hn, t, ht, hm⟩ := he
    have hst : machine.step a .calculatePressed = some ⟨a.calculator, some a.calculator.shown⟩ := by
      refine Machine.step_eq_some.2 ⟨?_, rfl⟩
      simp [machine, App.enabled, hn]
    refine ⟨_, hst, fun hs => ?_⟩
    rw [billSplit_iff (run_sound (Machine.run_snoc_some.2 ⟨a, hr, hst⟩))] at hs
    exact hs (by simp) t ht hm
  all_goals exact absurd trivial he

/-- In a run one tip is always selected, that of the button last pressed, and every result screen
is handed a finite amount, not negative, that times the number of people is the bill the text says
with that tip, exactly when the result is never asked for with a text that is misread: nan, an
infinity, a hexadecimal numeral or a negative decimal one, zeros apart. -/
theorem bill_split_iff (es : List Event) :
    machine.Always BillSplit es ↔ machine.Along TextRead es := by
  refine Machine.always_iff_along (fun a h => ?_) (fun _ _ _ _ hr _ he hst => .step hr he hst)
    (fun _ _ _ hr _ he => misread_not_split hr he) es
  rw [billSplit_iff (run_sound (Machine.run_nil.trans h))]
  obtain rfl := Option.some.inj h
  exact fun hp => absurd rfl hp

end Runs

/-- A pasted "nan" is split into what is not a number. -/
theorem nan_not_split : ¬ machine.Always BillSplit [.billEdited "nan", .calculatePressed] := by
  intro h
  have hw : ∃ a, machine.run [.billEdited "nan", .calculatePressed] = some a
      ∧ a.presented.bind ResultViewController.perPersonBill = some .nan := by
    refine ⟨_, rfl, ?_⟩
    decide +kernel
  obtain ⟨a, hr, hn⟩ := hw
  obtain ⟨r, hpr, hb⟩ := Option.bind_eq_some_iff.1 hn
  obtain ⟨t, q, n, b, -, hq, -⟩ := (h _ a List.prefix_rfl hr).2 r hpr
  rw [hb] at hq
  simp at hq

end Tipsy

end IosLearning
