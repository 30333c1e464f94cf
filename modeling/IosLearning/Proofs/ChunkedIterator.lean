import IosLearning.ChunkedRangeVector
import IosLearning.Proofs.RangeVector

/-!
# Iterators into chunks

With the chunks left out an iterator is a position among the ranges (`position`), and what it
changes there is what the source says of a plain vector. The chunks stay sound (`Sound`): none is
empty or longer than `maxSize`, and each has as many indices as it is said to have.
-/

namespace IosLearning

open RangeVector (Range Position Valid)

namespace ChunkedRangeVector

variable {cb ca cs ds : List Chunk} {b a data : List Range} {q r s : Range} {n : ℤ}
  {it : Iterator} {index : ℕ}

/-! ## Sizes -/

@[simp] theorem size_nil : size [] = 0 := rfl

@[simp] theorem size_cons : size (r :: data) = (r.2 - r.1 : ℕ) + size data := by
  simp [size, RangeVector.size]

@[simp] theorem size_append : size (a ++ b) = size a + size b := by
  simp [size, RangeVector.size]

@[simp] theorem size_reverse : size data.reverse = size data := by
  induction data with
  | nil => rfl
  | cons r data ih =>
    rw [List.reverse_cons, size_append, ih, size_cons, size_cons, size_nil, add_zero, add_comm]

theorem size_map {move : Range → Range}
    (h : ∀ r ∈ data, (move r).2 - (move r).1 = r.2 - r.1) : size (data.map move) = size data := by
  induction data with
  | nil => rfl
  | cons r data ih =>
    rw [List.forall_mem_cons] at h
    rw [List.map_cons, size_cons, size_cons, h.1, ih h.2]

/-! ## Sound chunks -/

/-- A chunk that passes `verify`, and is not longer than it may be. -/
structure Sound (c : Chunk) : Prop where
  nonempty : c.data ≠ []
  fits : c.data.length ≤ maxSize
  counted : c.count = size c.data

@[simp] theorem ranges_nil : ranges [] = [] := rfl

@[simp] theorem ranges_cons (c : Chunk) : ranges (c :: cs) = c.data ++ ranges cs := rfl

@[simp] theorem ranges_append : ranges (cs ++ ds) = ranges cs ++ ranges ds := List.flatMap_append

/-- The ranges of the chunks before an iterator, the nearest first. -/
def rangesBefore (cb : List Chunk) : List Range := (ranges cb.reverse).reverse

@[simp] theorem rangesBefore_nil : rangesBefore [] = [] := rfl

@[simp] theorem rangesBefore_cons (c : Chunk) :
    rangesBefore (c :: cb) = c.data.reverse ++ rangesBefore cb := by
  simp [rangesBefore]

theorem reverse_rangesBefore : (rangesBefore cb).reverse = ranges cb.reverse :=
  List.reverse_reverse _

/-- An iterator with the chunks left out. -/
def Iterator.position : Iterator → Position
  | .inside cb b r a _ ca => ⟨b ++ rangesBefore cb, r :: a ++ ranges ca⟩
  | .past cb => ⟨rangesBefore cb, []⟩

theorem position_ranges (it : Iterator) : it.position.ranges = ranges it.chunks := by
  cases it <;> simp [Iterator.position, Position.ranges, Iterator.chunks, reverse_rangesBefore]

theorem range?_eq (it : Iterator) : it.range? = it.position.after.head? := by
  cases it <;> rfl

@[simp] theorem chunks_enter : ∀ {cb cs : List Chunk}, (enter cb cs).chunks = cb.reverse ++ cs
  | cb, [] => by simp [enter, Iterator.chunks]
  | cb, ⟨[], n⟩ :: cs => by simp [enter, chunks_enter]
  | cb, ⟨r :: data, n⟩ :: cs => rfl

@[simp] theorem position_enter : ∀ {cb cs : List Chunk},
    (enter cb cs).position = ⟨rangesBefore cb, ranges cs⟩
  | cb, [] => rfl
  | cb, ⟨[], n⟩ :: cs => by simp [enter, position_enter]
  | cb, ⟨r :: data, n⟩ :: cs => rfl

theorem leave_eq_none : ∀ {cb cs : List Chunk}, rangesBefore cb = [] → leave cb cs = none
  | [], cs, _ => rfl
  | ⟨data, n⟩ :: cb, cs, h => by
    rw [rangesBefore_cons, List.append_eq_nil_iff] at h
    rw [leave, h.1]
    exact leave_eq_none h.2

theorem leave_eq_some : ∀ {cb cs : List Chunk}, rangesBefore cb = q :: b →
    ∃ it, leave cb cs = some it ∧ it.chunks = cb.reverse ++ cs ∧ it.position = ⟨b, q :: ranges cs⟩
  | [], cs, h => by cases h
  | ⟨data, n⟩ :: cb, cs, h => by
    rw [rangesBefore_cons] at h
    unfold leave
    rcases hd : data.reverse with _ | ⟨r, before⟩ <;> rw [hd] at h
    · obtain rfl : data = [] := List.reverse_eq_nil_iff.1 hd
      obtain ⟨it, h1, h2, h3⟩ := @leave_eq_some cb (⟨[], n⟩ :: cs) h
      exact ⟨it, h1, by simpa using h2, h3⟩
    · obtain ⟨rfl, rfl⟩ := List.cons.inj h
      have hrev : before.reverse ++ [r] = data := by
        rw [← List.reverse_cons, ← hd, List.reverse_reverse]
      exact ⟨_, rfl, by simp [Iterator.chunks, hrev], rfl⟩

@[simp] theorem chunks_next (it : Iterator) : it.next.chunks = it.chunks := by
  rcases it with ⟨cb, b, r, _ | ⟨r', a⟩, n, ca⟩ | cb
  · rw [Iterator.next, chunks_enter]
    simp [Iterator.chunks]
  · simp [Iterator.next, Iterator.chunks]
  · rfl

@[simp] theorem position_next (it : Iterator) : it.next.position = it.position.next := by
  rcases it with ⟨cb, b, r, _ | ⟨r', a⟩, n, ca⟩ | cb
  · rw [Iterator.next, position_enter]
    simp [Iterator.position, Position.next]
  · rfl
  · rfl

theorem prev?_eq_none (h : it.position.before = []) : it.prev? = none := by
  rcases it with ⟨cb, _ | ⟨q, b⟩, r, a, n, ca⟩ | cb
  · exact leave_eq_none h
  · cases h
  · exact leave_eq_none h

theorem prev?_eq_some (h : it.position.before = q :: b) : ∃ prev, it.prev? = some prev
    ∧ prev.chunks = it.chunks ∧ prev.position = ⟨b, q :: it.position.after⟩ := by
  rcases it with ⟨cb, _ | ⟨q, b⟩, r, a, n, ca⟩ | cb
  · obtain ⟨prev, h1, h2, h3⟩ := @leave_eq_some _ _ cb (⟨r :: a, n⟩ :: ca) h
    exact ⟨prev, h1, by simpa [Iterator.chunks] using h2, h3⟩
  · obtain ⟨rfl, rfl⟩ := List.cons.inj h
    exact ⟨_, rfl, by simp [Iterator.chunks], rfl⟩
  · obtain ⟨prev, h1, h2, h3⟩ := @leave_eq_some _ _ cb [] h
    exact ⟨prev, h1, by simpa [Iterator.chunks] using h2, h3⟩

/-- The iterator's chunks are sound. -/
def Iterator.Sound (it : Iterator) : Prop :=
  ∀ c ∈ it.chunks, ChunkedRangeVector.Sound c

theorem sound_inside : (Iterator.inside cb b r a n ca).Sound ↔ (∀ c ∈ cb, Sound c)
    ∧ Sound ⟨b.reverse ++ r :: a, n⟩ ∧ ∀ c ∈ ca, Sound c := by
  simp only [Iterator.Sound, Iterator.chunks, List.forall_mem_append, List.forall_mem_cons,
    List.mem_reverse]

theorem sound_past : (Iterator.past cb).Sound ↔ ∀ c ∈ cb, Sound c := by
  simp only [Iterator.Sound, Iterator.chunks, List.mem_reverse]

theorem sound_enter : (enter cb cs).Sound ↔ (∀ c ∈ cb, Sound c) ∧ ∀ c ∈ cs, Sound c := by
  simp only [Iterator.Sound, chunks_enter, List.forall_mem_append, List.mem_reverse]

/-- A chunk with as many ranges, each of the same length, is as sound. -/
theorem Sound.congr {c d : Chunk} (h : Sound c) (hl : d.data.length = c.data.length)
    (hs : d.count - size d.data = c.count - size c.data) : Sound d where
  nonempty := by
    rw [← List.length_pos_iff, hl]
    exact List.length_pos_iff.2 h.nonempty
  fits := hl ▸ h.fits
  counted := by
    have := h.counted
    omega

/-! ## What an iterator changes -/

namespace Iterator

theorem position_set (front back : ℕ) (h : it.position.after = r :: a) :
    (it.set front back).position = ⟨it.position.before, (front, back) :: a⟩ := by
  cases it with
  | inside =>
    obtain ⟨rfl, rfl⟩ := List.cons.inj h
    rfl
  | past => cases h

theorem sound_set {front back : ℕ} (h : it.Sound) : (it.set front back).Sound := by
  cases it with
  | inside cb b r a n ca =>
    obtain ⟨h1, h2, h3⟩ := sound_inside.1 h
    refine sound_inside.2 ⟨h1, h2.congr (by simp) ?_, h3⟩
    simp only [size_append, size_cons]
    omega
  | past => exact h

theorem position_adjust {front back : ℤ} (h : it.position.after = r :: a) :
    (it.adjust front back).position
      = ⟨it.position.before, ((r.1 + front).toNat, (r.2 + back).toNat) :: a⟩ := by
  cases it with
  | inside =>
    obtain ⟨rfl, rfl⟩ := List.cons.inj h
    rfl
  | past => cases h

theorem sound_adjust {front back : ℤ} (h : it.Sound)
    (hr : ∀ r ∈ it.range?, r.1 ≤ r.2 ∧ 0 ≤ r.1 + front ∧ r.1 + front ≤ r.2 + back) :
    (it.adjust front back).Sound := by
  cases it with
  | inside cb b r a n ca =>
    obtain ⟨h1, h2, h3⟩ := sound_inside.1 h
    have := hr r rfl
    refine sound_inside.2 ⟨h1, h2.congr (by simp) ?_, h3⟩
    simp only [size_append, size_cons]
    omega
  | past => exact h

theorem ranges_map (move : Range → Range) :
    ranges (ca.map fun c => { c with data := c.data.map move }) = (ranges ca).map move := by
  induction ca with
  | nil => rfl
  | cons c ca ih => rw [List.map_cons, ranges_cons, ranges_cons, ih, List.map_append]

theorem sound_map {move : Range → Range} (h : ∀ c ∈ ca, ChunkedRangeVector.Sound c)
    (hm : ∀ r ∈ ranges ca, (move r).2 - (move r).1 = r.2 - r.1) :
    ∀ c ∈ ca.map fun c => { c with data := c.data.map move }, ChunkedRangeVector.Sound c := by
  rw [List.forall_mem_map]
  intro c hc
  refine (h c hc).congr (List.length_map _) ?_
  rw [size_map fun r hr => hm r (List.mem_flatMap.2 ⟨c, hc, hr⟩)]

theorem position_moveAfter {move : Range → Range} (h : it.position.after = r :: a) :
    (it.moveAfter move).position = ⟨it.position.before, r :: a.map move⟩ := by
  cases it with
  | inside =>
    obtain ⟨rfl, rfl⟩ := List.cons.inj h
    simp [moveAfter, position, ranges_map]
  | past => cases h

theorem sound_moveAfter {move : Range → Range} (h : it.Sound)
    (hm : ∀ r ∈ it.position.after, (move r).2 - (move r).1 = r.2 - r.1) :
    (it.moveAfter move).Sound := by
  cases it with
  | inside cb b r a n ca =>
    obtain ⟨h1, h2, h3⟩ := sound_inside.1 h
    simp only [position, List.cons_append, List.forall_mem_cons, List.forall_mem_append] at hm
    refine sound_inside.2 ⟨h1, h2.congr (by simp) ?_, sound_map h3 hm.2.2⟩
    simp only [size_append, size_cons, size_map hm.2.1]
  | past => exact h

theorem position_moveFrom (it : Iterator) (move : Range → Range) :
    (it.moveFrom move).position = ⟨it.position.before, it.position.after.map move⟩ := by
  cases it with
  | inside => simp [moveFrom, moveAfter, position, ranges_map]
  | past => rfl

theorem sound_moveFrom {move : Range → Range} (h : it.Sound)
    (hm : ∀ r ∈ it.position.after, (move r).2 - (move r).1 = r.2 - r.1) :
    (it.moveFrom move).Sound := by
  have ha := sound_moveAfter h hm
  cases it with
  | inside cb b r a n ca =>
    obtain ⟨h1, h2, h3⟩ := sound_inside.1 ha
    refine sound_inside.2 ⟨h1, h2.congr (by simp) ?_, h3⟩
    have hr := hm r List.mem_cons_self
    simp only [size_append, size_cons, hr]
  | past => exact h

/-! ### Insertion and erasure -/

theorem maxSize_eq : maxSize = 256 := rfl

theorem position_ensureSpace (it : Iterator) : it.ensureSpace.position = it.position := by
  cases it with
  | inside cb b r a n ca =>
    simp only [ensureSpace]
    split_ifs with h1 h2
    · rfl
    · simp only [position, rangesBefore_cons, List.reverse_reverse, ← List.append_assoc,
        List.take_append_drop]
    · simp only [position, ranges_cons, List.cons_append, ← List.append_assoc,
        List.take_append_drop]
  | past => rfl

/-- Each half keeps as many indices as it counts, and has room for one range. -/
theorem ensureSpace_spec (h : it.Sound) : it.ensureSpace.Sound ∧
    ∀ cb b r a n ca, it.ensureSpace = inside cb b r a n ca →
      b.length + 1 + a.length + 1 ≤ maxSize := by
  cases it with
  | inside cb b r a n ca =>
    obtain ⟨h1, h2, h3⟩ := sound_inside.1 h
    have hfits : b.length + (a.length + 1) ≤ maxSize := by simpa using h2.fits
    simp only [ensureSpace]
    split_ifs with hroom hin
    · refine ⟨h, fun cb' b' r' a' n' ca' he => ?_⟩
      obtain ⟨-, rfl, -, rfl, -, -⟩ := inside.inj he
      exact hroom
    · -- the second half, with the first among the chunks before
      have hlen := List.take_append_drop (b.length - maxSize / 2) b
      rw [maxSize_eq] at hfits hroom hin hlen ⊢
      have hs : size b = size (b.take (b.length - 256 / 2)) + size (b.drop (b.length - 256 / 2)) := by
        rw [← size_append, hlen]
      refine ⟨sound_inside.2 ⟨List.forall_mem_cons.2 ⟨⟨?_, ?_, ?_⟩, h1⟩, ⟨?_, ?_, ?_⟩, h3⟩,
        fun cb' b' r' a' n' ca' he => ?_⟩
      · rw [← List.length_pos_iff, List.length_reverse, List.length_drop]
        omega
      · simp only [List.length_reverse, List.length_drop, maxSize_eq]
        omega
      · have := h2.counted
        simp only [size_append, size_reverse, size_cons] at this ⊢
        omega
      · simp
      · simp only [List.length_append, List.length_reverse, List.length_take, List.length_cons,
          maxSize_eq]
        omega
      · simp
      · obtain ⟨-, rfl, -, rfl, -, -⟩ := inside.inj he
        simp only [List.length_take]
        omega
    · -- the first half, with the second among the chunks after
      have hlen := List.take_append_drop (maxSize / 2 - b.length - 1) a
      rw [maxSize_eq] at hfits hroom hin hlen ⊢
      have hs : size a = size (a.take (256 / 2 - b.length - 1))
          + size (a.drop (256 / 2 - b.length - 1)) := by
        rw [← size_append, hlen]
      refine ⟨sound_inside.2 ⟨h1, ⟨?_, ?_, ?_⟩, List.forall_mem_cons.2 ⟨⟨?_, ?_, ?_⟩, h3⟩⟩,
        fun cb' b' r' a' n' ca' he => ?_⟩
      · simp
      · simp only [List.length_append, List.length_reverse, List.length_take, List.length_cons,
          maxSize_eq]
        omega
      · have := h2.counted
        simp only [size_append, size_reverse, size_cons] at this ⊢
        omega
      · rw [← List.length_pos_iff, List.length_drop]
        omega
      · simp only [List.length_drop, maxSize_eq]
        omega
      · simp
      · obtain ⟨-, rfl, -, rfl, -, -⟩ := inside.inj he
        simp only [List.length_take]
        omega
  | past => exact ⟨h, fun _ _ _ _ _ _ he => by cases he⟩

theorem position_insert (value : Range) (it : Iterator) :
    (it.insert value).position = ⟨it.position.before, value :: it.position.after⟩ := by
  rw [← position_ensureSpace it, insert]
  rcases it.ensureSpace with ⟨cb, b, r, a, n, ca⟩ | _ | ⟨c, cb⟩
  · rfl
  · rfl
  · simp only []
    split_ifs
    · simp [position]
    · rfl

theorem sound_insert {value : Range} (h : it.Sound) : (it.insert value).Sound := by
  obtain ⟨h', hroom⟩ := ensureSpace_spec h
  rw [insert]
  rcases he : it.ensureSpace with ⟨cb, b, r, a, n, ca⟩ | _ | ⟨c, cb⟩
  · have hlen := hroom cb b r a n ca he
    rw [he] at h'
    obtain ⟨h1, h2, h3⟩ := sound_inside.1 h'
    refine sound_inside.2 ⟨h1, ⟨by simp, ?_, ?_⟩, h3⟩
    · simp only [List.length_append, List.length_reverse, List.length_cons]
      omega
    · have := h2.counted
      simp only [size_append, size_cons] at this ⊢
      omega
  · refine sound_inside.2 ⟨by simp, ⟨by simp, by simp [maxSize_eq], by simp⟩, by simp⟩
  · rw [he, sound_past, List.forall_mem_cons] at h'
    obtain ⟨hc, hcb⟩ := h'
    simp only []
    split_ifs with hlt
    · refine sound_inside.2 ⟨hcb, ⟨by simp, ?_, ?_⟩, by simp⟩
      · simp only [List.reverse_reverse, List.length_append, List.length_singleton]
        omega
      · simp [hc.counted]
    · refine sound_inside.2 ⟨List.forall_mem_cons.2 ⟨hc, hcb⟩,
        ⟨by simp, by simp [maxSize_eq], by simp⟩, by simp⟩

theorem position_erase (h : it.position.after = r :: a) :
    it.erase.position = ⟨it.position.before, a⟩ := by
  rcases it with ⟨cb, _ | ⟨q, b⟩, r, _ | ⟨r', a⟩, n, ca⟩ | cb
  · obtain ⟨rfl, rfl⟩ := List.cons.inj h
    exact position_enter
  · obtain ⟨rfl, rfl⟩ := List.cons.inj h
    rfl
  · obtain ⟨rfl, rfl⟩ := List.cons.inj h
    rw [erase, position_enter]
    simp [position]
  · obtain ⟨rfl, rfl⟩ := List.cons.inj h
    rfl
  · cases h

theorem sound_erase (h : it.Sound) : it.erase.Sound := by
  rcases it with ⟨cb, b, r, a, n, ca⟩ | cb
  · obtain ⟨h1, h2, h3⟩ := sound_inside.1 h
    have hfits := h2.fits
    have hcount := h2.counted
    simp only [List.length_append, List.length_reverse, List.length_cons, size_append, size_cons,
      size_reverse] at hfits hcount
    rcases b with _ | ⟨q, b⟩ <;> rcases a with _ | ⟨r', a⟩
    · exact sound_enter.2 ⟨h1, h3⟩
    · refine sound_inside.2 ⟨h1, ⟨by simp, ?_, ?_⟩, h3⟩
      · simp only [List.length_cons, List.length_nil, List.length_append, List.length_reverse] at hfits ⊢
        omega
      · have := hcount
        simp only [size_append, size_cons, size_reverse, size_nil] at this ⊢
        omega
    · refine sound_enter.2 ⟨List.forall_mem_cons.2 ⟨⟨by simp, ?_, ?_⟩, h1⟩, h3⟩
      · simp only [List.length_cons, List.length_nil, List.length_reverse] at hfits ⊢
        omega
      · have := hcount
        simp only [size_cons, size_reverse, size_nil] at this ⊢
        omega
    · refine sound_inside.2 ⟨h1, ⟨by simp, ?_, ?_⟩, h3⟩
      · simp only [List.length_cons, List.length_append, List.length_reverse] at hfits ⊢
        omega
      · have := hcount
        simp only [size_append, size_cons, size_reverse] at this ⊢
        omega
  · exact h

end Iterator

end ChunkedRangeVector

end IosLearning
