import Mathlib.Data.List.Basic
import Mathlib.Data.List.Nodup
import Mathlib.Data.List.Perm.Basic

/-!
# Tables of objects

A table keeps its objects in the order they were added, each under a key that was never used
before. Removing an object leaves the others where they are.
-/

namespace IosLearning

variable {α : Type*}

/-- Where no two members have the same key, leaving out a member's key leaves out that member. -/
theorem filter_ne_eq_eraseIdx {κ : Type*} [DecidableEq κ] (key : α → κ) :
    ∀ {l : List α} {i : ℕ} {a : α}, (l.map key).Nodup → l[i]? = some a →
      l.filter (fun b => key b ≠ key a) = l.eraseIdx i
  | [], i, a, _, h => by simp at h
  | b :: l, 0, a, hn, h => by
    obtain rfl : b = a := by simpa using h
    rw [List.map_cons, List.nodup_cons] at hn
    have hl : l.filter (fun c => key c ≠ key b) = l := by
      refine List.filter_eq_self.2 fun c hc => ?_
      have : key c ≠ key b := fun he => hn.1 (he ▸ List.mem_map_of_mem hc)
      simpa using this
    rw [List.filter_cons_of_neg (by simp), hl]
    rfl
  | b :: l, i + 1, a, hn, h => by
    rw [List.getElem?_cons_succ] at h
    rw [List.map_cons, List.nodup_cons] at hn
    have hne : key b ≠ key a :=
      fun he => hn.1 (he ▸ List.mem_map_of_mem (List.mem_of_getElem? h))
    rw [List.filter_cons_of_pos (by simpa using hne), filter_ne_eq_eraseIdx key hn.2 h]
    rfl

/-- Objects under their keys, in the order they were added; `next` is the first key not used. -/
structure Table (α : Type*) where
  rows : List (ℕ × α)
  next : ℕ
  increasing : rows.Pairwise (·.1 < ·.1)
  fresh : ∀ r ∈ rows, r.1 < next

namespace Table

def empty : Table α where
  rows := []
  next := 0
  increasing := List.Pairwise.nil
  fresh := by simp

/-- The object is stored under the key `next`. -/
def insert (t : Table α) (a : α) : Table α where
  rows := t.rows ++ [(t.next, a)]
  next := t.next + 1
  increasing := by
    refine List.pairwise_append.2 ⟨t.increasing, List.pairwise_singleton _ _, fun r hr s hs => ?_⟩
    rw [List.mem_singleton] at hs
    subst hs
    exact t.fresh r hr
  fresh := by
    intro r hr
    rcases List.mem_append.1 hr with hr | hr
    · have := t.fresh r hr
      omega
    · rw [List.mem_singleton] at hr
      subst hr
      show t.next < t.next + 1
      omega

def erase (t : Table α) (k : ℕ) : Table α where
  rows := t.rows.filter (·.1 ≠ k)
  next := t.next
  increasing := t.increasing.filter _
  fresh r hr := t.fresh r (List.mem_of_mem_filter hr)

/-- Every object changed, by what its key and the object say. -/
def mapRows (t : Table α) (f : ℕ → α → α) : Table α where
  rows := t.rows.map fun r => (r.1, f r.1 r.2)
  next := t.next
  increasing := List.pairwise_map.2 t.increasing
  fresh := by
    intro r hr
    obtain ⟨s, hs, rfl⟩ := List.mem_map.1 hr
    exact t.fresh s hs

def modify (t : Table α) (k : ℕ) (f : α → α) : Table α :=
  t.mapRows fun j a => if j = k then f a else a

def get? (t : Table α) (k : ℕ) : Option α := (t.rows.find? (·.1 = k)).map (·.2)

variable (t : Table α) {k j : ℕ} {a b : α}

theorem keys_nodup : (t.rows.map (·.1)).Nodup :=
  List.pairwise_map.2 (t.increasing.imp fun h => Nat.ne_of_lt h)

/-- A key is used once. -/
theorem eq_of_mem (ha : (k, a) ∈ t.rows) (hb : (k, b) ∈ t.rows) : a = b := by
  have := List.inj_on_of_nodup_map t.keys_nodup ha hb rfl
  exact congrArg Prod.snd this

theorem get?_eq_some : t.get? k = some a ↔ (k, a) ∈ t.rows := by
  unfold get?
  refine ⟨fun h => ?_, fun h => ?_⟩
  · obtain ⟨r, hr, rfl⟩ := Option.map_eq_some_iff.1 h
    have hk : r.1 = k := by simpa using List.find?_some hr
    rw [← hk]
    exact List.mem_of_find?_eq_some hr
  · obtain ⟨r, hr⟩ : ∃ r, t.rows.find? (·.1 = k) = some r := by
      rw [← Option.isSome_iff_exists, List.find?_isSome]
      exact ⟨(k, a), h, by simp⟩
    have hk : r.1 = k := by simpa using List.find?_some hr
    have hm : (k, r.2) ∈ t.rows := hk ▸ List.mem_of_find?_eq_some hr
    rw [hr, Option.map_some, t.eq_of_mem hm h]

theorem lt_next (h : t.get? k = some a) : k < t.next :=
  t.fresh _ (t.get?_eq_some.1 h)

@[simp] theorem rows_empty : (empty : Table α).rows = [] := rfl

theorem mem_insert {r : ℕ × α} : r ∈ (t.insert a).rows ↔ r ∈ t.rows ∨ r = (t.next, a) := by
  simp [insert]

theorem mem_erase {r : ℕ × α} : r ∈ (t.erase k).rows ↔ r ∈ t.rows ∧ r.1 ≠ k := by
  simp [erase]

theorem mem_mapRows {f : ℕ → α → α} {r : ℕ × α} :
    r ∈ (t.mapRows f).rows ↔ ∃ s ∈ t.rows, (s.1, f s.1 s.2) = r := by
  simp [mapRows]

/-- What does not see the change shows the rows as they were. -/
theorem map_mapRows {β : Type*} {f : ℕ → α → α} {g : ℕ × α → β}
    (h : ∀ k a, g (k, f k a) = g (k, a)) : (t.mapRows f).rows.map g = t.rows.map g := by
  show (t.rows.map fun r => (r.1, f r.1 r.2)).map g = _
  rw [List.map_map]
  exact List.map_congr_left fun r _ => h r.1 r.2

theorem get?_insert : (t.insert a).get? k = if k = t.next then some a else t.get? k := by
  ext b
  rw [get?_eq_some, mem_insert]
  split_ifs with h
  · subst h
    refine ⟨fun hm => ?_, fun hb => ?_⟩
    · rcases hm with hm | hm
      · exact absurd (t.fresh _ hm) (Nat.lt_irrefl _)
      · rw [(Prod.mk.inj hm).2]
    · exact Or.inr (by rw [Option.some.inj hb])
  · rw [get?_eq_some]
    constructor
    · intro hm
      rcases hm with hm | hm
      · exact hm
      · exact absurd (Prod.mk.inj hm).1 h
    · exact Or.inl

theorem get?_erase : (t.erase k).get? j = if j = k then none else t.get? j := by
  ext b
  rw [get?_eq_some, mem_erase]
  split_ifs with h
  · simp [h]
  · rw [get?_eq_some]
    exact and_iff_left h

theorem get?_mapRows (f : ℕ → α → α) : (t.mapRows f).get? k = (t.get? k).map (f k) := by
  ext b
  rw [get?_eq_some, mem_mapRows, Option.map_eq_some_iff]
  refine ⟨fun h => ?_, fun h => ?_⟩
  · obtain ⟨s, hs, he⟩ := h
    obtain ⟨rfl, rfl⟩ := Prod.mk.inj he
    exact ⟨s.2, t.get?_eq_some.2 hs, rfl⟩
  · obtain ⟨a, ha, rfl⟩ := h
    exact ⟨(k, a), t.get?_eq_some.1 ha, rfl⟩

theorem get?_modify (f : α → α) :
    (t.modify k f).get? j = if j = k then (t.get? j).map f else t.get? j := by
  rw [modify, get?_mapRows]
  split_ifs with h
  · rfl
  · exact Option.map_id'

/-- Removing the object of the `i`-th row removes that row. -/
theorem erase_rows {i : ℕ} {r : ℕ × α} (h : t.rows[i]? = some r) :
    (t.erase r.1).rows = t.rows.eraseIdx i :=
  filter_ne_eq_eraseIdx (fun s : ℕ × α => s.1) t.keys_nodup h

end Table

end IosLearning
