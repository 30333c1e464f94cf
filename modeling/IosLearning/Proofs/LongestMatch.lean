import IosLearning.Calculate

/-!
# The longest match

A block is a run of rows with the same keys in both lists. Row by row, the lengths of the blocks
that end there are those of the row before and one more, so the best found is a longest block of
the range searched (`findLongestMatch_spec`).
-/

namespace IosLearning.LongestCommonSubsequenceCalculator

variable (modified : IndexSet) {a b : List Row} {ka kb : List ℤ} {i j k n size : ℕ}

/-! ## Where a key is -/

/-- By key, and rows of one key by index. -/
def Sorted (b : List Row) : Prop :=
  b.Pairwise fun x y => x.key < y.key ∨ x.key = y.key ∧ x.tvIndex ≤ y.tvIndex

theorem dropWhile_takeWhile_of_sorted (key : ℤ) (hb : Sorted b) :
    (b.dropWhile fun row => row.key < key).takeWhile (fun row => row.key = key)
      = b.filter fun row => row.key = key := by
  induction b with
  | nil => rfl
  | cons row b ih =>
    have hb' := (List.pairwise_cons.1 hb).2
    have hle : ∀ row' ∈ b, row.key ≤ row'.key := fun row' h' => by
      rcases (List.pairwise_cons.1 hb).1 row' h' with h | h
      · exact h.le
      · exact h.1.le
    by_cases h1 : row.key < key
    · rw [List.dropWhile_cons_of_pos (by simpa using h1), ih hb',
        List.filter_cons_of_neg (by simpa using h1.ne)]
    · have hdrop : b.dropWhile (fun row => decide (row.key < key)) = b := by
        cases b with
        | nil => rfl
        | cons row' b =>
          refine List.dropWhile_cons_of_neg ?_
          have := hle row' (List.mem_cons_self ..)
          simp only [decide_eq_true_eq]
          omega
      rw [List.dropWhile_cons_of_neg (by simpa using h1)]
      by_cases h2 : row.key = key
      · rw [List.takeWhile_cons_of_pos (by simpa using h2),
          List.filter_cons_of_pos (by simpa using h2), ← ih hb', hdrop]
      · rw [List.takeWhile_cons_of_neg (by simpa using h2),
          List.filter_cons_of_neg (by simpa using h2), List.nil_eq, List.filter_eq_nil_iff]
        intro row' h'
        have := hle row' h'
        simp only [decide_eq_true_eq]
        omega

theorem mem_within (begin2 end2 : ℕ) {js : List ℕ} (h : js.Pairwise (· ≤ ·)) :
    j ∈ within begin2 end2 js ↔ j ∈ js ∧ begin2 ≤ j ∧ j < end2 := by
  induction js with
  | nil => simp [within]
  | cons k js ih =>
    rw [List.pairwise_cons] at h
    have ih := ih h.2
    have hle : j ∈ js → k ≤ j := fun hj => h.1 j hj
    unfold within
    split_ifs with h1 h2
    · rw [ih, List.mem_cons]
      grind
    · simp only [List.not_mem_nil, List.mem_cons, false_iff]
      grind
    · rw [List.mem_cons, ih, List.mem_cons]
      grind

/-- Each place of each key. -/
def Places (b : List Row) (kb : List ℤ) : Prop :=
  ∀ key j, (⟨key, j⟩ : Row) ∈ b ↔ kb[j]? = some key

/-- A key of the other list is found in all its places. -/
theorem forEachBMatch_spec {key : ℤ} (begin2 end2 : ℕ) (hb : Sorted b) (hp : Places b kb)
    (hk : key ∈ kb) : ∃ js, forEachBMatch b begin2 end2 key = some js ∧
      ∀ j, j ∈ js ↔ begin2 ≤ j ∧ j < end2 ∧ kb[j]? = some key := by
  have hf := dropWhile_takeWhile_of_sorted key hb
  have hmem : ∀ j, j ∈ (b.filter fun row => row.key = key).map Row.tvIndex ↔
      kb[j]? = some key := fun j => by
    rw [← hp key j, List.mem_map]
    constructor
    · rintro ⟨⟨key', j'⟩, hr, rfl⟩
      obtain ⟨h1, h2⟩ := List.mem_filter.1 hr
      obtain rfl : key' = key := of_decide_eq_true h2
      exact h1
    · exact fun h => ⟨_, List.mem_filter.2 ⟨h, decide_eq_true rfl⟩, rfl⟩
  have hsorted : ((b.filter fun row => row.key = key).map Row.tvIndex).Pairwise (· ≤ ·) := by
    rw [List.pairwise_map]
    refine (hb.filter _).imp_of_mem fun {x y} hx hy hxy => ?_
    have h1 := of_decide_eq_true (List.mem_filter.1 hx).2
    have h2 := of_decide_eq_true (List.mem_filter.1 hy).2
    omega
  obtain ⟨j, hj⟩ := List.getElem?_of_mem hk
  have hne : (b.dropWhile fun row => decide (row.key < key)).head?.any
      (fun row => decide (row.key = key)) = true := by
    have hne : b.filter (fun row => decide (row.key = key)) ≠ [] := fun h => by
      have := (hmem j).2 hj
      rw [h] at this
      exact absurd this List.not_mem_nil
    rw [← hf] at hne
    generalize b.dropWhile (fun row => decide (row.key < key)) = rows at hne ⊢
    obtain _ | ⟨row, rows⟩ := rows
    · exact absurd rfl hne
    · by_contra hrow
      exact hne (List.takeWhile_cons_of_neg hrow)
  have heq : forEachBMatch b begin2 end2 key = some (within begin2 end2
      ((b.filter fun row => row.key = key).map Row.tvIndex)) := by
    unfold forEachBMatch
    dsimp only
    rw [if_pos hne, hf]
  refine ⟨_, heq, fun j => ?_⟩
  rw [mem_within begin2 end2 hsorted, hmem]
  tauto

/-! ## Blocks -/

variable (ka kb) in
/-- The lists have the same keys for `n` rows from there. -/
def Common (i j n : ℕ) : Prop := ∀ k < n, ∃ key, ka[i + k]? = some key ∧ kb[j + k]? = some key

theorem common_succ : Common ka kb i j (n + 1) ↔
    Common ka kb i j n ∧ ∃ key, ka[i + n]? = some key ∧ kb[j + n]? = some key := by
  constructor
  · exact fun h => ⟨fun k hk => h k (by omega), h n (by omega)⟩
  · rintro ⟨h1, h2⟩ k hk
    obtain hk | rfl := Nat.lt_succ_iff_lt_or_eq.1 hk
    · exact h1 k hk
    · exact h2

section Search

variable {begin1 end1 begin2 end2 : ℕ}

variable (ka kb begin1 begin2) in
/-- A block of the range that is over before row `e` of the one list and row `f` of the other. -/
def EndsAt (e f n : ℕ) : Prop :=
  ∃ i j, begin1 ≤ i ∧ begin2 ≤ j ∧ i + n = e ∧ j + n = f ∧ Common ka kb i j n

variable (ka kb begin1 begin2) in
/-- The longest block that is over there. -/
def Longest (e f n : ℕ) : Prop := IsGreatest {n | EndsAt ka kb begin1 begin2 e f n} n

theorem endsAt_succ {e f : ℕ} : EndsAt ka kb begin1 begin2 (e + 1) (f + 1) (n + 1) ↔
    EndsAt ka kb begin1 begin2 e f n ∧ ∃ key, ka[e]? = some key ∧ kb[f]? = some key := by
  constructor
  · rintro ⟨i, j, hi, hj, he, hf, hc⟩
    obtain ⟨h1, h2⟩ := common_succ.1 hc
    obtain rfl : i + n = e := by omega
    obtain rfl : j + n = f := by omega
    exact ⟨⟨i, j, hi, hj, rfl, rfl, h1⟩, h2⟩
  · rintro ⟨⟨i, j, hi, hj, rfl, rfl, hc⟩, h⟩
    exact ⟨i, j, hi, hj, rfl, rfl, common_succ.2 ⟨hc, h⟩⟩

theorem EndsAt.pos {e f : ℕ} (h : EndsAt ka kb begin1 begin2 e f (n + 1)) :
    begin1 < e ∧ begin2 < f ∧ EndsAt ka kb begin1 begin2 e f 1 := by
  obtain ⟨i, j, hi, hj, rfl, rfl, hc⟩ := h
  refine ⟨by omega, by omega, i + n, j + n, by omega, by omega, rfl, rfl, ?_⟩
  intro k hk
  obtain rfl : k = 0 := by omega
  exact hc n (by omega)

variable (ka kb begin1 begin2 end2) in
/-- What is kept of a row: each match of its key, with the longest block that ends there. -/
structure Lengths (e : ℕ) (cur : List (ℕ × ℕ)) : Prop where
  sound : ∀ p ∈ cur, Longest ka kb begin1 begin2 e (p.1 + 1) p.2
  complete : ∀ j < end2, EndsAt ka kb begin1 begin2 e (j + 1) 1 → ∃ n, (j, n) ∈ cur

/-- One more than the longest block of the row before, or a first row. -/
theorem longest_length {prev : List (ℕ × ℕ)} {key : ℤ}
    (h : Lengths ka kb begin1 begin2 end2 i prev) (hi : begin1 ≤ i) (hj : begin2 ≤ j)
    (hj2 : j ≤ end2) (hka : ka[i]? = some key) (hkb : kb[j]? = some key) :
    Longest ka kb begin1 begin2 (i + 1) (j + 1) (length prev j) := by
  unfold length
  split
  · rename_i hnone
    rw [List.find?_eq_none] at hnone
    refine ⟨endsAt_succ.2 ⟨⟨i, j, hi, hj, rfl, rfl, fun k hk => by omega⟩, key, hka, hkb⟩, ?_⟩
    rintro (_ | _ | n) hn
    · omega
    · exact le_rfl
    · -- a longer block would be one of the row before
      obtain ⟨-, hlt, h1⟩ := (endsAt_succ.1 hn).1.pos
      obtain ⟨f, rfl⟩ : ∃ f, j = f + 1 := ⟨j - 1, by omega⟩
      obtain ⟨m, hm⟩ := h.complete f (by omega) h1
      exact absurd (decide_eq_true rfl) (hnone _ hm)
  · rename_i p hsome
    obtain rfl : p.1 + 1 = j := by simpa using List.find?_some hsome
    obtain ⟨h1, h2⟩ := h.sound p (List.mem_of_find?_eq_some hsome)
    refine ⟨endsAt_succ.2 ⟨h1, key, hka, hkb⟩, ?_⟩
    rintro (_ | n) hn
    · omega
    · exact Nat.succ_le_succ (h2 (endsAt_succ.1 hn).1)

/-- Either the best so far stays, or the block that ends there is as long and taken. -/
theorem better_cases (best : Match) (i j size : ℕ) :
    (∃ c, better modified best i j size = { best with modified := c } ∧ size ≤ best.size) ∨
      ∃ c, better modified best i j size = ⟨i + 1 - size, j + 1 - size, size, c⟩ ∧
        best.size ≤ size := by
  unfold better
  dsimp only
  split_ifs with h1 h2 h3
  · exact .inr ⟨_, rfl, h1.le⟩
  · exact .inr ⟨_, rfl, h2.ge⟩
  · exact .inl ⟨_, rfl, h2.le⟩
  · exact .inl ⟨best.modified, rfl, by omega⟩

variable (ka kb begin1 end1 begin2 end2) in
/-- A block of the range searched. -/
structure Block (m : Match) : Prop where
  begin1_le : begin1 ≤ m.i
  le_end1 : m.i + m.size ≤ end1
  begin2_le : begin2 ≤ m.j
  le_end2 : m.j + m.size ≤ end2
  common : Common ka kb m.i m.j m.size

theorem Block.inRange {m : Match} (h : Block ka kb begin1 end1 begin2 end2 m) :
    inRange begin1 end1 begin2 end2 m = true := by
  rw [LongestCommonSubsequenceCalculator.inRange, Bool.and_eq_true, decide_eq_true_eq,
    decide_eq_true_eq]
  exact ⟨⟨h.begin1_le, h.le_end1⟩, h.begin2_le, h.le_end2⟩

theorem Block.better {best : Match} (h : Block ka kb begin1 end1 begin2 end2 best)
    (hi : i < end1) (hj : j < end2) (hn : EndsAt ka kb begin1 begin2 (i + 1) (j + 1) size) :
    Block ka kb begin1 end1 begin2 end2 (better modified best i j size) ∧
      best.size ≤ (better modified best i j size).size ∧
      size ≤ (better modified best i j size).size := by
  obtain ⟨c, hc, hle⟩ | ⟨c, hc, hle⟩ := better_cases modified best i j size <;> rw [hc]
  · exact ⟨⟨h.begin1_le, h.le_end1, h.begin2_le, h.le_end2, h.common⟩, le_rfl, hle⟩
  · obtain ⟨i', j', hi', hj', he, hf, hcommon⟩ := hn
    obtain rfl : i' = i + 1 - size := by omega
    obtain rfl : j' = j + 1 - size := by omega
    exact ⟨⟨hi', by dsimp only; omega, hj', by dsimp only; omega, hcommon⟩, hle, le_rfl⟩

/-- A row's matches gone through: each has its length, and none is longer than the best. -/
theorem checkRow_spec {prev : List (ℕ × ℕ)} {key : ℤ}
    (hprev : Lengths ka kb begin1 begin2 end2 i prev) (hi : begin1 ≤ i) (hi1 : i < end1)
    (hka : ka[i]? = some key) :
    ∀ (js : List ℕ) (cur : List (ℕ × ℕ)) (best : Match),
      (∀ j ∈ js, begin2 ≤ j ∧ j < end2 ∧ kb[j]? = some key) →
      (∀ p ∈ cur, Longest ka kb begin1 begin2 (i + 1) (p.1 + 1) p.2) →
      Block ka kb begin1 end1 begin2 end2 best →
      ∃ cur' best', checkRow modified begin1 end1 begin2 end2 i prev js cur best
          = some (cur', best') ∧
        (∀ p ∈ cur', Longest ka kb begin1 begin2 (i + 1) (p.1 + 1) p.2) ∧
        (∀ p ∈ cur, p ∈ cur') ∧ (∀ j ∈ js, ∃ n ≤ best'.size, (j, n) ∈ cur') ∧
        Block ka kb begin1 end1 begin2 end2 best' ∧ best.size ≤ best'.size
  | [], cur, best, _, hcur, hbest =>
    ⟨cur, best, rfl, hcur, fun _ h => h, fun _ h => absurd h List.not_mem_nil, hbest, le_rfl⟩
  | j :: js, cur, best, hjs, hcur, hbest => by
    obtain ⟨hj, hj2, hkb⟩ := hjs j (List.mem_cons_self ..)
    have hlen := longest_length hprev hi hj hj2.le hka hkb
    obtain ⟨h1, h2, h3⟩ := hbest.better modified hi1 hj2 hlen.1
    obtain ⟨cur', best', h4, h5, h6, h7, h8, h9⟩ := checkRow_spec hprev hi hi1 hka js
      (cur ++ [(j, length prev j)]) _ (fun j hj => hjs j (List.mem_cons_of_mem _ hj))
      (fun p hp => by
        obtain hp | hp := List.mem_append.1 hp
        · exact hcur p hp
        · obtain rfl := List.mem_singleton.1 hp
          exact hlen) h1
    refine ⟨cur', best', ?_, h5, fun p hp => h6 p (List.mem_append_left _ hp), ?_, h8, h2.trans h9⟩
    · simp only [checkRow]
      rw [if_pos h1.inRange, h4]
    · intro j' hj'
      obtain rfl | hj' := List.mem_cons.1 hj'
      · exact ⟨_, h3.trans h9, h6 _ (List.mem_append_right _ (List.mem_singleton_self _))⟩
      · exact h7 j' hj'

/-- The rows gone through from `i` on: the best is as long as any block that is over by then. -/
theorem findLongestLoop_spec (hb : Sorted b) (hp : Places b kb)
    (hmem : ∀ i < end1, begin1 ≤ i → ∃ key, ka[i]? = some key ∧ key ∈ kb) :
    ∀ (rows : List Row) (i : ℕ) (prev : List (ℕ × ℕ)) (best : Match), begin1 ≤ i →
      i + rows.length = end1 → (∀ k, (rows.map Row.key)[k]? = (ka.take end1)[i + k]?) →
      Lengths ka kb begin1 begin2 end2 i prev → Block ka kb begin1 end1 begin2 end2 best →
      (∀ e f n, e ≤ i → f ≤ end2 → EndsAt ka kb begin1 begin2 e f n → n ≤ best.size) →
      ∃ best', findLongestLoop modified b begin1 end1 begin2 end2 rows i prev best = some best' ∧
        Block ka kb begin1 end1 begin2 end2 best' ∧
        ∀ e f n, e ≤ end1 → f ≤ end2 → EndsAt ka kb begin1 begin2 e f n → n ≤ best'.size
  | [], i, prev, best, _, hlen, _, _, hbest, hmax => by
    obtain rfl : i = end1 := by simpa using hlen
    exact ⟨best, rfl, hbest, hmax⟩
  | row :: rows, i, prev, best, hi, hlen, hrows, hprev, hbest, hmax => by
    rw [List.length_cons] at hlen
    have hi1 : i < end1 := by omega
    obtain ⟨key, hkey, hin⟩ := hmem i hi1 hi
    obtain rfl : row.key = key := by
      have := hrows 0
      rw [Nat.add_zero, List.getElem?_take_of_lt hi1, hkey] at this
      simpa using this
    obtain ⟨js, hjs, hplaces⟩ := forEachBMatch_spec begin2 end2 hb hp hin
    obtain ⟨cur, best', h1, h2, -, h4, h5, h6⟩ := checkRow_spec modified hprev hi hi1
      hkey js [] best (fun j hj => (hplaces j).1 hj)
      (fun p hp => absurd hp List.not_mem_nil) hbest
    have hcomplete : ∀ j < end2, EndsAt ka kb begin1 begin2 (i + 1) (j + 1) 1 →
        ∃ n ≤ best'.size, (j, n) ∈ cur := fun j hj he => by
      obtain ⟨⟨i', j', -, hj', -, hf, -⟩, key, hka, hkb⟩ := endsAt_succ.1 he
      rw [hkey, Option.some_inj] at hka
      exact h4 j ((hplaces j).2 ⟨by omega, hj, hka ▸ hkb⟩)
    have hlens : Lengths ka kb begin1 begin2 end2 (i + 1) cur :=
      ⟨h2, fun j hj he => (hcomplete j hj he).imp fun n hn => hn.2⟩
    obtain ⟨best'', h7, h8, h9⟩ := findLongestLoop_spec hb hp hmem rows (i + 1) cur best'
      (by omega) (by omega) (fun k => by
        have := hrows (k + 1)
        rw [List.map_cons, List.getElem?_cons_succ] at this
        rw [this]
        congr 1
        omega) hlens h5
      (fun e f n he hf hn => by
        obtain he | rfl := Nat.le_succ_iff.1 he
        · exact (hmax e f n he hf hn).trans h6
        -- a block that ends at this row is one of the lengths kept of it
        · obtain _ | n := n
          · exact Nat.zero_le _
          · obtain ⟨-, hlt, h1⟩ := hn.pos
            obtain ⟨j, rfl⟩ : ∃ j, f = j + 1 := ⟨f - 1, by omega⟩
            obtain ⟨m, hm, hcur⟩ := hcomplete j (by omega) h1
            exact ((h2 _ hcur).2 hn).trans hm)
    refine ⟨best'', ?_, h8, h9⟩
    simp only [findLongestLoop, hjs, Option.bind_some, h1]
    exact h7

variable (hb : Sorted b) (hp : Places b kb)

include hb hp

/-- The match found is a longest block of the range. -/
theorem findLongestMatch_spec (h1 : begin1 ≤ end1) (ha : end1 ≤ a.length) (h2 : begin2 ≤ end2)
    (hmem : ∀ key ∈ a.map Row.key, key ∈ kb) :
    ∃ m, findLongestMatch modified a b begin1 end1 begin2 end2 = some m ∧
      Block (a.map Row.key) kb begin1 end1 begin2 end2 m ∧
      ∀ m', Block (a.map Row.key) kb begin1 end1 begin2 end2 m' → m'.size ≤ m.size := by
  have hkeys : ∀ i < end1, begin1 ≤ i → ∃ key, (a.map Row.key)[i]? = some key ∧ key ∈ kb := by
    intro i hi _
    have hlt : i < (a.map Row.key).length := by
      rw [List.length_map]
      omega
    exact ⟨_, List.getElem?_eq_getElem hlt, hmem _ (List.getElem_mem hlt)⟩
  obtain ⟨m, hm, hblock, hmax⟩ := findLongestLoop_spec modified hb hp hkeys
    ((a.take end1).drop begin1) begin1 [] ⟨begin1, begin2, 0, some 0⟩ le_rfl
    (by rw [List.length_drop, List.length_take]; omega)
    (fun k => by rw [List.map_drop, List.getElem?_drop, List.map_take])
    ⟨fun p hp => absurd hp List.not_mem_nil, fun j _ he => absurd he.pos.1 (lt_irrefl _)⟩
    ⟨le_rfl, h1, le_rfl, h2, fun k hk => absurd hk (Nat.not_lt_zero k)⟩
    (by
      rintro e f n he - ⟨i, j, hi, -, rfl, -, -⟩
      dsimp only
      omega)
  exact ⟨m, hm, hblock, fun m' h => hmax _ _ _ h.le_end1 h.le_end2
    ⟨m'.i, m'.j, h.begin1_le, h.begin2_le, rfl, rfl, h.common⟩⟩

end Search

/-! ## The matches on both sides of the longest -/

variable (ka kb) in
/-- Blocks one after the other in both lists. -/
def Chain : List Match → ℕ → ℕ → ℕ → ℕ → Prop
  | [], i, j, e, f => i ≤ e ∧ j ≤ f
  | m :: ms, i, j, e, f => Block ka kb i e j f m ∧ Chain ms (m.i + m.size) (m.j + m.size) e f

theorem Block.mono {m : Match} {e e' f f' : ℕ} (h : Block ka kb i e j f m) (he : e ≤ e')
    (hf : f ≤ f') : Block ka kb i e' j f' m :=
  ⟨h.begin1_le, h.le_end1.trans he, h.begin2_le, h.le_end2.trans hf, h.common⟩

theorem Chain.append {m : Match} {e f : ℕ} {after : List Match} :
    ∀ {before : List Match} {i j : ℕ}, Chain ka kb before i j m.i m.j →
      m.i + m.size ≤ e → m.j + m.size ≤ f → Common ka kb m.i m.j m.size →
      Chain ka kb after (m.i + m.size) (m.j + m.size) e f →
      Chain ka kb (before ++ m :: after) i j e f
  | [], _, _, h, he, hf, hc, h' => ⟨⟨h.1, he, h.2, hf, hc⟩, h'⟩
  | _ :: _, _, _, h, he, hf, hc, h' =>
    ⟨h.1.mono (by omega) (by omega), Chain.append h.2 he hf hc h'⟩

/-- The searches end, and the matches found are blocks in order. -/
theorem findLongestMatches_spec (hb : Sorted b) (hp : Places b kb)
    (hmem : ∀ key ∈ a.map Row.key, key ∈ kb) :
    ∀ (fuel begin1 end1 begin2 end2 : ℕ), end1 - begin1 < fuel → begin1 ≤ end1 →
      end1 ≤ a.length → begin2 ≤ end2 →
      ∃ ms, findLongestMatches modified a b fuel begin1 end1 begin2 end2 = some ms ∧
        Chain (a.map Row.key) kb ms begin1 begin2 end1 end2
  | 0, _, _, _, _, hfuel, _, _, _ => absurd hfuel (Nat.not_lt_zero _)
  | fuel + 1, begin1, end1, begin2, end2, hfuel, h1, ha, h2 => by
    obtain ⟨m, hm, hblock, -⟩ := findLongestMatch_spec modified hb hp h1 ha h2 hmem
    have hi := hblock.begin1_le
    have hi' := hblock.le_end1
    have hj := hblock.begin2_le
    have hj' := hblock.le_end2
    by_cases hsize : m.size = 0
    · refine ⟨[], ?_, h1, h2⟩
      rw [findLongestMatches, hm, Option.bind_some, if_pos hsize]
    · obtain ⟨before, h3, h4⟩ : ∃ ms, (if m.i > begin1 ∧ m.j > begin2 then
          findLongestMatches modified a b fuel begin1 m.i begin2 m.j else some []) = some ms ∧
          Chain (a.map Row.key) kb ms begin1 begin2 m.i m.j := by
        split_ifs with h
        · exact findLongestMatches_spec hb hp hmem fuel _ _ _ _ (by omega) hi (by omega) hj
        · exact ⟨[], rfl, hi, hj⟩
      obtain ⟨after, h5, h6⟩ : ∃ ms, (if m.i + m.size < end2 ∧ m.j + m.size < end2 then
          findLongestMatches modified a b fuel (m.i + m.size) end1 (m.j + m.size) end2
          else some []) = some ms ∧
          Chain (a.map Row.key) kb ms (m.i + m.size) (m.j + m.size) end1 end2 := by
        split_ifs with h
        · exact findLongestMatches_spec hb hp hmem fuel _ _ _ _ (by omega) hi' ha hj'
        · exact ⟨[], rfl, hi', hj'⟩
      refine ⟨before ++ m :: after, ?_, h4.append hi' hj' hblock.common h6⟩
      rw [findLongestMatches, hm, Option.bind_some, if_neg hsize, h3, Option.bind_some, h5,
        Option.map_some]

theorem longestMatches_spec (hb : Sorted b) (hp : Places b kb) (hlen : b.length = a.length)
    (hmem : ∀ key ∈ a.map Row.key, key ∈ kb) {start : ℕ} (hs : start ≤ a.length) :
    ∃ ms, longestMatches modified a b start = some (ms ++ [⟨a.length, a.length, 0, some 0⟩]) ∧
      Chain (a.map Row.key) kb ms start start a.length a.length := by
  obtain ⟨ms, h1, h2⟩ := findLongestMatches_spec modified hb hp hmem (a.length + 1)
    start a.length start b.length (by omega) hs le_rfl (by omega)
  rw [hlen] at h2
  refine ⟨ms, ?_, h2⟩
  rw [longestMatches, h1, Option.map_some, hlen]

end IosLearning.LongestCommonSubsequenceCalculator
