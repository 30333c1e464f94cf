import IosLearning.DeepChange
import Mathlib.Logic.Relation

/-!
# The related tables are those that links lead to

A table is put down before the tables it links to are gone through, and is not gone through again.
Those put down since are done with when the search comes back: all their links are known, and lead
to tables put down.
-/

namespace IosLearning

namespace DeepChangeChecker

variable {g : Group} {out new : List RelatedTable} {t u : ℤ} {fuel : ℕ} {link : OutgoingLink}
  {links : List OutgoingLink} {cols : List Column}

def keys (out : List RelatedTable) : List ℤ := out.map RelatedTable.tableKey

@[simp] theorem keys_append (out new : List RelatedTable) : keys (out ++ new) = keys out ++ keys new :=
  List.map_append

/-- A table's links, in the order of the columns. -/
def linksOf (cols : List Column) : List OutgoingLink :=
  (cols.filter fun col => col.type ≠ .other).map fun col => ⟨col.key, decide (col.type = .linkList)⟩

def LinksTo (g : Group) (t u : ℤ) : Prop :=
  ∃ col ∈ g.columns t, col.type ≠ .other ∧ g.linkTarget t col.key = u

/-- All links of the table are known, and lead to tables known. -/
structure Done (g : Group) (known : List ℤ) (table : RelatedTable) : Prop where
  mem : table.tableKey ∈ g.tables
  links : table.links = linksOf (g.columns table.tableKey)
  targets : ∀ u, LinksTo g table.tableKey u → u ∈ known

theorem Done.mono {known known' : List ℤ} {table : RelatedTable} (h : Done g known table)
    (hk : known ⊆ known') : Done g known' table :=
  ⟨h.mem, h.links, fun u hu => hk (h.targets u hu)⟩

/-- How many tables are yet to be put down. -/
def left (g : Group) (out : List RelatedTable) : ℕ :=
  (g.tables.filter fun t => t ∉ keys out).length

theorem left_le (h : keys out ⊆ keys new) : left g new ≤ left g out := by
  refine (List.monotone_filter_right _ fun t ht => ?_).length_le
  simp only [decide_not, Bool.not_eq_true', decide_eq_false_iff_not] at ht ⊢
  exact fun hm => ht (h hm)

theorem left_lt {t : ℤ} (ht : t ∈ g.tables) (hn : t ∉ keys out) (h : keys out ⊆ keys new)
    (hm : t ∈ keys new) : left g new < left g out := by
  refine lt_of_le_of_ne (left_le h) fun he => ?_
  have hs : (g.tables.filter fun t => t ∉ keys new).Sublist (g.tables.filter fun t => t ∉ keys out) :=
    List.monotone_filter_right _ fun u hu => by
      simp only [decide_not, Bool.not_eq_true', decide_eq_false_iff_not] at hu ⊢
      exact fun hm => hu (h hm)
  have hin : t ∈ g.tables.filter fun t => t ∉ keys out := by
    simpa using ⟨ht, hn⟩
  rw [← hs.eq_of_length he] at hin
  simp [hm] at hin

theorem addLink_eq {table : RelatedTable} : addLink out.length link (out ++ table :: new)
    = out ++ { table with links := table.links ++ [link] } :: new := by
  induction out with
  | nil => rfl
  | cons r out ih => exact congrArg (r :: ·) ih

/-- What a search from a table puts down. -/
structure Search (g : Group) (out : List RelatedTable) (t : ℤ) (new : List RelatedTable) : Prop where
  start : t ∈ keys (out ++ new)
  done : ∀ table ∈ new, Done g (keys (out ++ new)) table
  once : (keys (out ++ new)).Nodup
  reached : ∀ table ∈ new, Relation.ReflTransGen (LinksTo g) t table.tableKey

/-- The same while the table's columns are gone through. -/
structure Started (g : Group) (out : List RelatedTable) (t : ℤ) (links : List OutgoingLink)
    (new : List RelatedTable) : Prop where
  done : ∀ table ∈ new, Done g (keys (out ++ ⟨t, links⟩ :: new)) table
  once : (keys (out ++ ⟨t, links⟩ :: new)).Nodup
  reached : ∀ table ∈ new, Relation.ReflTransGen (LinksTo g) t table.tableKey

/-- A column's target is searched. -/
theorem Started.search (h : Started g out t links new) {more : List RelatedTable}
    (hu : LinksTo g t u) (hs : Search g (out ++ ⟨t, links ++ [link]⟩ :: new) u more) :
    Started g out t (links ++ [link]) (new ++ more) := by
  have hkeys : keys (out ++ ⟨t, links ++ [link]⟩ :: (new ++ more))
      = keys (out ++ ⟨t, links ++ [link]⟩ :: new ++ more) := by
    rw [List.append_assoc, List.cons_append]
  refine ⟨fun table hm => ?_, hkeys ▸ hs.once, fun table hm => ?_⟩
  · rw [hkeys]
    rcases List.mem_append.1 hm with hm | hm
    · refine (h.done table hm).mono fun u hu => ?_
      rw [keys_append]
      exact List.mem_append_left _ (by simpa [keys] using hu)
    · exact hs.done table hm
  · rcases List.mem_append.1 hm with hm | hm
    · exact h.reached table hm
    · exact (Relation.ReflTransGen.single hu).trans (hs.reached table hm)

theorem foldl_search (ih : ∀ {out : List RelatedTable} {u : ℤ}, u ∈ g.tables → (keys out).Nodup →
      left g out < fuel → ∃ new, findRelatedTables g fuel out u = out ++ new ∧ Search g out u new)
    (ht : t ∈ g.tables) : ∀ {cols : List Column} {links : List OutgoingLink}
    {new : List RelatedTable}, cols ⊆ g.columns t → left g (out ++ ⟨t, links⟩ :: new) < fuel →
    Started g out t links new →
    ∃ more, cols.foldl (fun related col =>
        if col.type = .link ∨ col.type = .linkList then
          findRelatedTables g fuel
            (addLink out.length ⟨col.key, decide (col.type = .linkList)⟩ related)
            (g.linkTarget t col.key)
        else related) (out ++ ⟨t, links⟩ :: new)
          = out ++ ⟨t, links ++ linksOf cols⟩ :: (new ++ more)
      ∧ Started g out t (links ++ linksOf cols) (new ++ more)
      ∧ ∀ col ∈ cols, col.type ≠ .other →
        g.linkTarget t col.key ∈ keys (out ++ ⟨t, links ++ linksOf cols⟩ :: (new ++ more))
  | [], links, new, _, _, h => ⟨[], by simp [linksOf], by simpa [linksOf] using h, by simp⟩
  | col :: cols, links, new, hc, hl, h => by
    obtain ⟨hcol, hcols⟩ := List.cons_subset.1 hc
    rw [List.foldl_cons]
    by_cases hlink : col.type = .link ∨ col.type = .linkList
    · have hother : col.type ≠ .other := by rcases hlink with h | h <;> simp [h]
      have hto : LinksTo g t (g.linkTarget t col.key) := ⟨col, hcol, hother, rfl⟩
      have hof : links ++ linksOf (col :: cols)
          = links ++ [⟨col.key, decide (col.type = .linkList)⟩] ++ linksOf cols := by
        simp [linksOf, hother]
      rw [if_pos hlink, addLink_eq, hof]
      generalize (⟨col.key, decide (col.type = .linkList)⟩ : OutgoingLink) = link
      have hkeys : keys (out ++ ⟨t, links ++ [link]⟩ :: new) = keys (out ++ ⟨t, links⟩ :: new) := by
        simp [keys]
      obtain ⟨found, he, hs⟩ := ih (g.target_mem t ht col hcol hother) (hkeys ▸ h.once)
        ((left_le fun u hu => hkeys ▸ hu).trans_lt hl)
      have hnew := h.search hto hs
      have hle : left g (out ++ ⟨t, links ++ [link]⟩ :: (new ++ found)) < fuel := by
        refine (left_le fun u hu => ?_).trans_lt hl
        simp only [keys, List.map_append, List.map_cons, List.mem_append, List.mem_cons] at hu ⊢
        tauto
      rw [he, List.append_assoc, List.cons_append]
      obtain ⟨more, hfold, hst, htar⟩ := foldl_search ih ht hcols hle hnew
      rw [List.append_assoc new] at hfold hst htar
      refine ⟨found ++ more, hfold, hst, List.forall_mem_cons.2 ⟨fun _ => ?_, htar⟩⟩
      have hstart := hs.start
      simp only [keys, List.map_append, List.map_cons, List.mem_append, List.mem_cons] at hstart ⊢
      tauto
    · have hother : col.type = .other := by
        rcases hty : col.type with _ | _ | _ <;> simp_all
      have hof : linksOf (col :: cols) = linksOf cols := by simp [linksOf, hother]
      rw [if_neg hlink, hof]
      obtain ⟨more, hfold, hst, htar⟩ := foldl_search ih ht hcols hl h
      exact ⟨more, hfold, hst, List.forall_mem_cons.2 ⟨fun hn => (hn hother).elim, htar⟩⟩

theorem findRelatedTables_search : ∀ {fuel : ℕ} {out : List RelatedTable} {t : ℤ}, t ∈ g.tables →
    (keys out).Nodup → left g out < fuel →
    ∃ new, findRelatedTables g fuel out t = out ++ new ∧ Search g out t new
  | 0, _, _, _, _, hl => absurd hl (Nat.not_lt_zero _)
  | fuel + 1, out, t, ht, hnd, hl => by
    unfold findRelatedTables
    have hany : (out.any fun table => table.tableKey = t) = true ↔ t ∈ keys out := by
      simp [keys]
    split_ifs with hm
    · refine ⟨[], (List.append_nil out).symm, ?_, by simp, ?_, by simp⟩
      · rw [List.append_nil]
        exact hany.1 hm
      · rwa [List.append_nil]
    · rw [hany] at hm
      have hst : Started g out t [] [] := by
        refine ⟨by simp, ?_, by simp⟩
        rw [keys_append, List.nodup_append]
        refine ⟨hnd, List.nodup_singleton t, fun u hu v hv => ?_⟩
        obtain rfl := List.mem_singleton.1 hv
        rintro rfl
        exact hm hu
      have hlt : left g (out ++ [⟨t, []⟩]) < fuel := by
        have := left_lt ht hm (by simp : keys out ⊆ keys (out ++ [⟨t, []⟩])) (by simp [keys])
        omega
      obtain ⟨more, hfold, hend, htar⟩ := foldl_search
        (fun hu hn hf => findRelatedTables_search hu hn hf) ht (List.Subset.refl _) hlt hst
      rw [List.nil_append, List.nil_append] at hfold hend htar
      refine ⟨⟨t, linksOf (g.columns t)⟩ :: more, hfold, by simp [keys], ?_, hend.once, ?_⟩
      · refine List.forall_mem_cons.2 ⟨⟨ht, rfl, ?_⟩, hend.done⟩
        rintro u ⟨col, hcol, hother, rfl⟩
        exact htar col hcol hother
      · exact List.forall_mem_cons.2 ⟨.refl, hend.reached⟩

/-- The tables related to one are those that links lead to from it, each once and with all its
links. -/
theorem setTable_spec (ht : t ∈ g.tables) : (keys (setTable g t)).Nodup
    ∧ (∀ u, u ∈ keys (setTable g t) ↔ Relation.ReflTransGen (LinksTo g) t u)
    ∧ ∀ table ∈ setTable g t, table.links = linksOf (g.columns table.tableKey) := by
  have hl : left g [] < g.tables.length + 1 := Nat.lt_succ_of_le (List.length_filter_le _ _)
  have hnd : (keys []).Nodup := List.nodup_nil
  obtain ⟨new, he, hs⟩ := findRelatedTables_search ht hnd hl
  rw [List.nil_append] at he
  have hnew : setTable g t = new := he
  obtain ⟨hstart, hdone, honce, hreach⟩ := hs
  rw [List.nil_append] at hstart hdone honce
  rw [hnew]
  refine ⟨honce, fun u => ⟨fun hu => ?_, fun hu => ?_⟩, fun table hm => (hdone table hm).links⟩
  · obtain ⟨table, hm, rfl⟩ := List.mem_map.1 hu
    exact hreach table hm
  · induction hu with
    | refl => exact hstart
    | tail _ hlink ih =>
      obtain ⟨table, hm, rfl⟩ := List.mem_map.1 ih
      exact (hdone table hm).targets _ hlink

end DeepChangeChecker

end IosLearning
