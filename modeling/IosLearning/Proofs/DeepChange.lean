import IosLearning.Base.Near
import IosLearning.Proofs.RelatedTables

/-!
# The deep check finds every object modified within reach

A row is kept as not modified only after all that is within reach of it was seen: had a check below
been cut off, an entry of the path before the row would have been marked. So it does no harm that
rows kept are not checked again, from whatever depth they are come to.
-/

namespace IosLearning

namespace DeepChangeChecker

variable {g : Group} {related : List RelatedTable} {info : TransactionChangeInfo}
  {s s' s₁ s₂ : DeepChangeChecker} {x : ℤ × ℤ} {n : ℕ} {path : List Path} {objKey colKey : ℤ}

/-! ## Links and marks -/

/-- The rows a table's row links to; the mark is what the path remembers of the link. -/
def Link (g : Group) (related : List RelatedTable) (x m y : ℤ × ℤ) : Prop :=
  ∃ table, (related.find? fun table => table.tableKey = x.1) = some table ∧ ∃ link ∈ table.links,
    m = (x.2, link.colKey) ∧ y.1 = g.linkTarget x.1 link.colKey ∧ y.2 ∈ destinations g x.1 x.2 link

def Modified (info : TransactionChangeInfo) (x : ℤ × ℤ) : Prop :=
  modificationsContains info x.1 x.2 = true

def marksOf (path : List Path) : List (ℤ × ℤ) := path.map fun p => (p.objKey, p.colKey)

/-- No check was cut off below the entry at that place. -/
def Clear (path : List Path) (i : ℕ) : Prop := ∃ p, path[i]? = some p ∧ p.depthExceeded = false

/-- The path is the same, with perhaps more entries cut off. -/
structure Keeps (path path' : List Path) : Prop where
  marks : marksOf path' = marksOf path
  clear : ∀ i, Clear path' i → Clear path i

theorem Keeps.refl (path : List Path) : Keeps path path := ⟨rfl, fun _ => id⟩

theorem Keeps.trans {path' path'' : List Path} (h : Keeps path path') (h' : Keeps path' path'') :
    Keeps path path'' :=
  ⟨h'.marks.trans h.marks, fun i hi => h.clear i (h'.clear i hi)⟩

theorem marksOf_exceed (path : List Path) : marksOf (path.map exceed) = marksOf path := by
  simp [marksOf, exceed]

theorem not_clear_exceed (path : List Path) (i : ℕ) : ¬ Clear (path.map exceed) i := by
  rintro ⟨p, hp, hc⟩
  rw [List.getElem?_map, Option.map_eq_some_iff] at hp
  obtain ⟨q, -, rfl⟩ := hp
  cases hc

theorem keeps_exceed (path : List Path) : Keeps path (path.map exceed) :=
  ⟨marksOf_exceed path, fun i h => (not_clear_exceed path i h).elim⟩

/-- Entries stay clear only before the one where the link is followed already. -/
theorem alreadyChecking_some : ∀ {path path' : List Path},
    alreadyChecking objKey colKey path = some path' → (objKey, colKey) ∈ marksOf path
      ∧ Keeps path path' ∧ ∀ i, Clear path' i → (objKey, colKey) ∈ (marksOf path).drop (i + 1)
  | p :: path, path', h => by
    unfold alreadyChecking at h
    split_ifs at h with hp
    · obtain rfl := Option.some.inj h
      refine ⟨?_, keeps_exceed _, fun i hi => (not_clear_exceed _ i hi).elim⟩
      rw [← hp.1, ← hp.2]
      exact List.mem_cons_self
    · obtain ⟨rest, hrest, rfl⟩ := Option.map_eq_some_iff.1 h
      obtain ⟨h1, h2, h3⟩ := alreadyChecking_some hrest
      refine ⟨List.mem_cons_of_mem _ h1, ⟨congrArg (_ :: ·) h2.marks, fun i hi => ?_⟩, fun i hi => ?_⟩
      · rcases i with _ | i
        · exact hi
        · exact h2.clear i hi
      · rcases i with _ | i
        · exact h1
        · exact h3 i hi

/-! ## What a check answers -/

variable (g related info)

/-- No row is kept within reach of which one was modified. -/
def Sound (s : DeepChangeChecker) : Prop :=
  ∀ x ∈ s.notModified, ¬ Near (Link g related) (Modified info) pathSize x

/-- An answer of yes is right in any case, and one of no by the state it leaves. -/
structure Answers (s : DeepChangeChecker) (yes : Prop) (no : List Path → Prop)
    (r : Bool × DeepChangeChecker) : Prop where
  keeps : Keeps s.currentPath r.2.currentPath
  sound : Sound g related info r.2
  found : r.1 = true → yes
  missed : r.1 = false → no r.2.currentPath

/-- Nothing is in reach on a way that avoids the path; and below an entry that is clear nothing is
in reach at all on a way that avoids the path from there on. -/
def Missed (x : ℤ × ℤ) (n : ℕ) (path : List Path) : Prop :=
  ¬ NearAvoiding (Link g related) (Modified info) (marksOf path) n x ∧ ∀ i, Clear path i →
    ¬ NearAvoiding (Link g related) (Modified info) ((marksOf path).drop (i + 1)) pathSize x

variable {g related info}

theorem Missed.keeps {path' : List Path} (h : Missed g related info x n path)
    (hk : Keeps path path') : Missed g related info x n path' := by
  unfold Missed
  rw [hk.marks]
  exact ⟨h.1, fun i hi => h.2 i (hk.clear i hi)⟩

theorem anyOf_answers {β : Type} {f : β → DeepChangeChecker → Bool × DeepChangeChecker}
    {yes : β → Prop} {no : β → List Path → Prop}
    (hno : ∀ y path path', Keeps path path' → no y path → no y path') :
    ∀ {ys : List β} {s : DeepChangeChecker}, Sound g related info s →
      (∀ y ∈ ys, ∀ s₁, Keeps s.currentPath s₁.currentPath → Sound g related info s₁ →
        Answers g related info s₁ (yes y) (no y) (f y s₁)) →
      Answers g related info s (∃ y ∈ ys, yes y) (fun path => ∀ y ∈ ys, no y path) (anyOf f ys s)
  | [], s, hs, _ => ⟨.refl _, hs, by simp [anyOf], by simp⟩
  | y :: ys, s, hs, hf => by
    rw [List.forall_mem_cons] at hf
    obtain ⟨h1, h2, h3, h4⟩ := hf.1 s (.refl _) hs
    unfold anyOf
    rcases hr : (f y s).1 with _ | _
    · obtain ⟨i1, i2, i3, i4⟩ := anyOf_answers hno h2
        fun z hz s₁ hk hs₁ => hf.2 z hz s₁ (h1.trans hk) hs₁
      rw [if_neg (by simp [hr])]
      refine ⟨h1.trans i1, i2, fun ht => ?_, fun hn => List.forall_mem_cons.2 ⟨?_, i4 hn⟩⟩
      · obtain ⟨z, hz, hy⟩ := i3 ht
        exact ⟨z, List.mem_cons_of_mem _ hz, hy⟩
      · exact hno y _ _ i1 (h4 hr)
    · rw [if_pos (by simp [hr])]
      exact ⟨h1, h2, fun ht => ⟨y, List.mem_cons_self, h3 ht⟩, fun hn => by rw [hr] at hn; cases hn⟩

/-- The same of a link from a row: it is in the path, or none of the rows it leads to is so. -/
def LinkMissed (g : Group) (related : List RelatedTable) (info : TransactionChangeInfo) (x : ℤ × ℤ)
    (n : ℕ) (link : OutgoingLink) (path : List Path) : Prop :=
  let avoids := fun (seen : List (ℤ × ℤ)) (k : ℕ) =>
    (x.2, link.colKey) ∈ seen ∨ ∀ key ∈ destinations g x.1 x.2 link,
      ¬ NearAvoiding (Link g related) (Modified info) (seen ++ [(x.2, link.colKey)]) k
        (g.linkTarget x.1 link.colKey, key)
  avoids (marksOf path) n ∧ ∀ i, Clear path i → avoids ((marksOf path).drop (i + 1)) pathSize

theorem LinkMissed.keeps {link : OutgoingLink} {path' : List Path}
    (h : LinkMissed g related info x n link path) (hk : Keeps path path') :
    LinkMissed g related info x n link path' := by
  unfold LinkMissed
  rw [hk.marks]
  exact ⟨h.1, fun i hi => h.2 i (hk.clear i hi)⟩

/-- The entry pushed is popped again. -/
theorem keeps_pop {p : Path} {path' : List Path} (h : Keeps (path ++ [p]) path') :
    Keeps path path'.dropLast := by
  have hm : marksOf path'.dropLast = (marksOf path').dropLast := List.map_dropLast
  have hp : marksOf (path ++ [p]) = marksOf path ++ [(p.objKey, p.colKey)] := List.map_append
  refine ⟨by rw [hm, h.marks, hp, List.dropLast_concat], fun i hi => ?_⟩
  obtain ⟨q, hq, hc⟩ := hi
  obtain ⟨hlt, -⟩ := List.getElem?_eq_some_iff.1 hq
  have hlen : path'.length = path.length + 1 := by
    simpa [marksOf] using congrArg List.length h.marks
  rw [List.length_dropLast] at hlt
  rw [List.getElem?_dropLast, if_pos hlt] at hq
  obtain ⟨r, hr, hcr⟩ := h.clear i ⟨q, hq, hc⟩
  rw [List.getElem?_append_left (by omega)] at hr
  exact ⟨r, hr, hcr⟩

theorem linkedObjectChanged_answers {link : OutgoingLink}
    {checkRow : ℤ → ℤ → DeepChangeChecker → Bool × DeepChangeChecker} (hs : Sound g related info s)
    (hrow : ∀ key ∈ destinations g x.1 x.2 link, ∀ s₁,
      marksOf s₁.currentPath = marksOf s.currentPath ++ [(x.2, link.colKey)] →
      Sound g related info s₁ → Answers g related info s₁
        (Near (Link g related) (Modified info) n (g.linkTarget x.1 link.colKey, key))
        (Missed g related info (g.linkTarget x.1 link.colKey, key) n)
        (checkRow (g.linkTarget x.1 link.colKey) key s₁)) :
    Answers g related info s
      (∃ key ∈ destinations g x.1 x.2 link,
        Near (Link g related) (Modified info) n (g.linkTarget x.1 link.colKey, key))
      (LinkMissed g related info x n link) (linkedObjectChanged g checkRow x.1 x.2 link s) := by
  unfold linkedObjectChanged
  rcases hc : alreadyChecking x.2 link.colKey s.currentPath with _ | path'
  · simp only []
    set s₀ : DeepChangeChecker :=
      { s with currentPath := s.currentPath ++ [⟨x.2, link.colKey, false⟩] } with hs₀
    have hmarks : marksOf s₀.currentPath = marksOf s.currentPath ++ [(x.2, link.colKey)] :=
      List.map_append
    have hsound : Sound g related info s₀ := hs
    have hans : Answers g related info s₀ (∃ key ∈ destinations g x.1 x.2 link,
        Near (Link g related) (Modified info) n (g.linkTarget x.1 link.colKey, key))
        (fun path => ∀ key ∈ destinations g x.1 x.2 link,
          Missed g related info (g.linkTarget x.1 link.colKey, key) n path) _ :=
      anyOf_answers (fun key _ _ hk hm => hm.keeps hk) hsound
        fun key hm s₁ hk hs₁ => hrow key hm s₁ (hk.marks.trans hmarks) hs₁
    obtain ⟨h1, h2, h3, h4⟩ := hans
    have hpop := keeps_pop h1
    refine ⟨hpop, h2, h3, fun hf => ?_⟩
    have hno := h4 hf
    unfold LinkMissed
    rw [hpop.marks]
    refine ⟨.inr fun key hk => ?_, fun i hi => .inr fun key hk => ?_⟩
    · rw [← hmarks, ← h1.marks]
      exact (hno key hk).1
    · obtain ⟨p, hp, hcl⟩ := hi
      obtain ⟨hlt, -⟩ := List.getElem?_eq_some_iff.1 hp
      have hlen := congrArg List.length hpop.marks
      simp only [marksOf, List.length_map] at hlen
      rw [List.length_dropLast] at hlt
      rw [List.getElem?_dropLast, if_pos hlt] at hp
      have hm := (hno key hk).2 i ⟨p, hp, hcl⟩
      rwa [h1.marks, hmarks, List.drop_append_of_le_length] at hm
      rw [marksOf, List.length_map, ← hlen, List.length_dropLast]
      omega
  · obtain ⟨h1, h2, h3⟩ := alreadyChecking_some hc
    refine ⟨h2, hs, fun ht => (Bool.false_ne_true ht).elim, fun _ => ?_⟩
    refine ⟨.inl ?_, fun i hi => .inl ?_⟩ <;> simp only [h2.marks]
    · exact h1
    · exact h3 i hi

/-- None of the rows a row links to is so. -/
def LinksMissed (g : Group) (related : List RelatedTable) (info : TransactionChangeInfo) (x : ℤ × ℤ)
    (n : ℕ) (path : List Path) : Prop :=
  let avoids := fun (seen : List (ℤ × ℤ)) (k : ℕ) => ∀ m y, Link g related x m y →
    m ∈ seen ∨ ¬ NearAvoiding (Link g related) (Modified info) (seen ++ [m]) k y
  avoids (marksOf path) n ∧ ∀ i, Clear path i → avoids ((marksOf path).drop (i + 1)) pathSize

theorem checkOutgoingLinks_answers
    {checkRow : ℤ → ℤ → DeepChangeChecker → Bool × DeepChangeChecker} (hs : Sound g related info s)
    (hrow : ∀ m y s₁, Link g related x m y → marksOf s₁.currentPath = marksOf s.currentPath ++ [m] →
      Sound g related info s₁ → Answers g related info s₁
        (Near (Link g related) (Modified info) n y) (Missed g related info y n)
        (checkRow y.1 y.2 s₁)) :
    Answers g related info s (∃ m y, Link g related x m y
        ∧ Near (Link g related) (Modified info) n y)
      (LinksMissed g related info x n) (checkOutgoingLinks g related checkRow x.1 x.2 s) := by
  have hnone : (∀ m y, ¬ Link g related x m y) → Answers g related info s
      (∃ m y, Link g related x m y ∧ Near (Link g related) (Modified info) n y)
      (LinksMissed g related info x n) (false, s) := fun hno =>
    ⟨.refl _, hs, fun ht => (Bool.false_ne_true ht).elim, fun _ =>
      ⟨fun m y hl => (hno m y hl).elim, fun i _ m y hl => (hno m y hl).elim⟩⟩
  unfold checkOutgoingLinks
  split
  · rename_i hf
    refine hnone fun m y ⟨table, ht, _⟩ => ?_
    cases hf.symm.trans ht
  · rename_i table hf
    split_ifs with hl
    · refine hnone fun m y ⟨table', ht, link, hm, _⟩ => ?_
      obtain rfl := Option.some.inj (hf.symm.trans ht)
      exact List.not_mem_nil (hl ▸ hm)
    · have hans : Answers g related info s (∃ link ∈ table.links,
          ∃ key ∈ destinations g x.1 x.2 link,
            Near (Link g related) (Modified info) n (g.linkTarget x.1 link.colKey, key))
          (fun path => ∀ link ∈ table.links, LinkMissed g related info x n link path) _ :=
        anyOf_answers (fun link _ _ hk hm => hm.keeps hk) hs fun link hm s₁ hk hs₁ =>
          linkedObjectChanged_answers hs₁ fun key hkey s₂ hp hs₂ =>
            hrow _ (g.linkTarget x.1 link.colKey, key) s₂ ⟨table, hf, link, hm, rfl, rfl, hkey⟩
              (hp.trans (by rw [hk.marks])) hs₂
      obtain ⟨h1, h2, h3, h4⟩ := hans
      refine ⟨h1, h2, fun ht => ?_, fun hn =>
        ⟨fun m ⟨u, key⟩ hlink => ?_, fun i hi m ⟨u, key⟩ hlink => ?_⟩⟩
      · obtain ⟨link, hm, key, hkey, hnear⟩ := h3 ht
        exact ⟨_, _, ⟨table, hf, link, hm, rfl, rfl, hkey⟩, hnear⟩
      all_goals
        obtain ⟨table', ht, link, hm, rfl, hu, hkey⟩ := hlink
        obtain rfl := Option.some.inj (hf.symm.trans ht)
        obtain rfl : u = g.linkTarget x.1 link.colKey := hu
      · exact (h4 hn link hm).1.imp_right fun hall => hall _ hkey
      · exact ((h4 hn link hm).2 i hi).imp_right fun hall => hall _ hkey

theorem missed_of_links {seen : List (ℤ × ℤ)} (hx : ¬ Modified info x)
    (h : ∀ m y, Link g related x m y → m ∈ seen ∨
      ¬ NearAvoiding (Link g related) (Modified info) (seen ++ [m]) n y) :
    ¬ NearAvoiding (Link g related) (Modified info) seen (n + 1) x := by
  rintro (hm | ⟨m, y, hl, hm, hn⟩)
  · exact hx hm
  · exact (h m y hl).elim hm fun hno => hno hn

/-- A mark tells the row it is from. -/
def Apart (g : Group) (related : List RelatedTable) : Prop :=
  ∀ x x' m y y', Link g related x m y → Link g related x' m y' → x = x'

/-- The row itself is found to be modified before any of its links is followed. -/
theorem checkRow_answers (ha : Apart g related) : ∀ {n : ℕ} {x : ℤ × ℤ} {s : DeepChangeChecker},
    (marksOf s.currentPath).length + n = pathSize → Sound g related info s →
    (s.currentPath = [] → ¬ Modified info x) →
    Answers g related info s (Near (Link g related) (Modified info) n x)
      (Missed g related info x n) (checkRow g related info n x.1 x.2 s)
  | 0, x, s, _, hs, _ => by
    refine ⟨keeps_exceed _, hs, fun ht => (Bool.false_ne_true ht).elim, fun _ => ⟨id, ?_⟩⟩
    exact fun i hi => (not_clear_exceed _ i hi).elim
  | n + 1, x, s, hl, hs, hroot => by
    unfold checkRow
    split_ifs with hmod hin
    · exact ⟨.refl _, hs, fun _ => .inl hmod.2, fun hf => (Bool.false_ne_true hf.symm).elim⟩
    · have hn := hs x hin
      refine ⟨.refl _, hs, fun ht => (Bool.false_ne_true ht).elim, fun _ => ⟨fun h => ?_, ?_⟩⟩
      · exact hn (near_mono (by omega) (near_of_avoiding h))
      · exact fun i _ h => hn (near_of_avoiding h)
    · have hout := checkOutgoingLinks_answers (x := x) (n := n) hs fun m y s₁ _ hm hs₁ =>
        checkRow_answers ha (n := n) (x := y) (s := s₁) (by simp [hm]; omega) hs₁ (by
          rintro hnil
          simp [hnil, marksOf] at hm)
      have hmod' : ¬ Modified info x := fun hx => by
        by_cases hnil : s.currentPath = []
        · exact hroot hnil hx
        · exact hmod ⟨hnil, hx⟩
      obtain ⟨h1, h2, h3, h4⟩ := hout
      set r := checkOutgoingLinks g related (checkRow g related info n) x.1 x.2 s
      have hfound : r.1 = true → Near (Link g related) (Modified info) (n + 1) x :=
        fun ht => .inr (h3 ht)
      have hmiss : r.1 = false → Missed g related info x (n + 1) r.2.currentPath := fun hf =>
        ⟨missed_of_links hmod' (h4 hf).1, fun i hi => fun h =>
          missed_of_links hmod' ((h4 hf).2 i hi) (avoiding_succ h)⟩
      simp only []
      split_ifs with hkept
      · rw [Bool.and_eq_true, Bool.not_eq_true'] at hkept
        refine ⟨h1, List.forall_mem_cons.2 ⟨?_, h2⟩, fun ht => (Bool.false_ne_true ht).elim,
          fun _ => hmiss hkept.1⟩
        rw [← near_iff_avoiding ha]
        have hm := hmiss hkept.1
        rcases r.2.currentPath.eq_nil_or_concat' with hnil | ⟨init, p, hp⟩
        · have h0 : marksOf s.currentPath = [] := by rw [← h1.marks, hnil, marksOf, List.map_nil]
          rw [h0, List.length_nil, Nat.zero_add] at hl
          rw [← hl, ← h0, ← h1.marks]
          exact hm.1
        · -- nothing was cut off below the row's parent
          rw [hp, List.getLast?_concat] at hkept
          have hclear : Clear r.2.currentPath init.length :=
            ⟨p, by rw [hp, List.getElem?_concat_length], by simpa using hkept.2⟩
          have hdrop : (marksOf r.2.currentPath).drop (init.length + 1) = [] :=
            List.drop_eq_nil_of_le (by rw [hp]; simp [marksOf])
          have hno := hm.2 _ hclear
          rwa [hdrop] at hno
      · exact ⟨h1, h2, hfound, hmiss⟩

/-- Between two rows asked for, the path is empty. -/
theorem check_iff (ha : Apart g related) {rootTable : ℤ} (key : ℤ) (hs : Sound g related info s)
    (hp : s.currentPath = []) :
    ((check g related info rootTable key s).1 = true ↔
        Near (Link g related) (Modified info) pathSize (rootTable, key))
      ∧ Sound g related info (check g related info rootTable key s).2
      ∧ (check g related info rootTable key s).2.currentPath = [] := by
  unfold check
  split_ifs with hm
  · exact ⟨⟨fun _ => .inl hm, fun _ => rfl⟩, hs, hp⟩
  · have hl : (marksOf s.currentPath).length + pathSize = pathSize := by
      rw [hp]
      exact Nat.zero_add _
    obtain ⟨h1, h2, h3, h4⟩ := checkRow_answers ha (x := (rootTable, key)) hl hs fun _ => hm
    refine ⟨⟨h3, fun hn => ?_⟩, h2, ?_⟩
    · by_contra hf
      have hno := (h4 (Bool.not_eq_true _ ▸ hf)).1
      rw [h1.marks, hp] at hno
      exact hno ((near_iff_avoiding ha).2 hn)
    · have hlen := congrArg List.length h1.marks
      rw [hp] at hlen
      exact List.length_eq_zero_iff.1 (by simpa [marksOf] using hlen)

/-! ## The links of the related tables -/

theorem find_related {table : RelatedTable} (hnd : (keys related).Nodup) (hm : table ∈ related) :
    (related.find? fun r => r.tableKey = table.tableKey) = some table := by
  have hs : (related.find? fun r => r.tableKey = table.tableKey).isSome = true :=
    List.find?_isSome.2 ⟨table, hm, decide_eq_true rfl⟩
  obtain ⟨found, hf⟩ := Option.isSome_iff_exists.1 hs
  have hk : found.tableKey = table.tableKey := by simpa using List.find?_some hf
  rw [hf, List.inj_on_of_nodup_map hnd (List.mem_of_find?_eq_some hf) hm hk]

theorem mem_linksOf {link : OutgoingLink} {cols : List Column} (h : link ∈ linksOf cols) :
    ∃ col ∈ cols, col.type ≠ .other ∧ link = ⟨col.key, decide (col.type = .linkList)⟩ := by
  obtain ⟨col, hm, rfl⟩ := List.mem_map.1 h
  obtain ⟨hm, ht⟩ := List.mem_filter.1 hm
  exact ⟨col, hm, of_decide_eq_true ht, rfl⟩

theorem apart_setTable {t : ℤ} (ht : t ∈ g.tables) : Apart g (setTable g t) := by
  obtain ⟨-, -, hlinks⟩ := setTable_spec ht
  rintro ⟨u, k⟩ ⟨u', k'⟩ m y y' ⟨table, hf, link, hl, rfl, -⟩ ⟨table', hf', link', hl', he, -⟩
  rw [hlinks table (List.mem_of_find?_eq_some hf)] at hl
  rw [hlinks table' (List.mem_of_find?_eq_some hf')] at hl'
  obtain ⟨col, hc, -, rfl⟩ := mem_linksOf hl
  obtain ⟨col', hc', -, rfl⟩ := mem_linksOf hl'
  have hu : table.tableKey = u := by simpa using List.find?_some hf
  have hu' : table'.tableKey = u' := by simpa using List.find?_some hf'
  obtain ⟨rfl, hk⟩ := Prod.mk.inj he
  rw [← hu, ← hu', g.apart _ _ col col' hc hc' hk]

/-- From a related table the links known are all there are. -/
theorem near_iff_changedWithin {t : ℤ} (ht : t ∈ g.tables) : ∀ {n : ℕ} {u key : ℤ},
    u ∈ keys (setTable g t) → (Near (Link g (setTable g t)) (Modified info) n (u, key) ↔
      changedWithin g info n u key = true)
  | 0, _, _, _ => by simp [Near, changedWithin]
  | n + 1, u, key, hu => by
    obtain ⟨hnd, hreach, hlinks⟩ := setTable_spec ht
    obtain ⟨table, hm, rfl⟩ := List.mem_map.1 hu
    have hf := find_related hnd hm
    have hnext : ∀ col ∈ g.columns table.tableKey, col.type ≠ .other →
        g.linkTarget table.tableKey col.key ∈ keys (setTable g t) := fun col hc ho =>
      (hreach _).2 (((hreach _).1 hu).tail ⟨col, hc, ho, rfl⟩)
    unfold Near changedWithin
    rw [Bool.or_eq_true, List.any_eq_true]
    refine or_congr Iff.rfl ⟨?_, ?_⟩
    · rintro ⟨m, ⟨v, k⟩, ⟨table', hf', link, hl, rfl, hv, hk⟩, hn⟩
      obtain rfl := Option.some.inj (hf.symm.trans hf')
      rw [hlinks table hm] at hl
      obtain ⟨col, hc, ho, rfl⟩ := mem_linksOf hl
      obtain rfl : v = g.linkTarget table.tableKey col.key := hv
      refine ⟨col, hc, ?_⟩
      rw [Bool.and_eq_true, List.any_eq_true]
      exact ⟨decide_eq_true ho, k, hk, (near_iff_changedWithin ht (hnext col hc ho)).1 hn⟩
    · rintro ⟨col, hc, hcol⟩
      rw [Bool.and_eq_true, List.any_eq_true] at hcol
      obtain ⟨ho, k, hk, hn⟩ := hcol
      have ho' := of_decide_eq_true ho
      refine ⟨_, (g.linkTarget table.tableKey col.key, k), ⟨table, hf, _, ?_, rfl, rfl, hk⟩,
        (near_iff_changedWithin ht (hnext col hc ho')).2 hn⟩
      rw [hlinks table hm]
      exact List.mem_map.2 ⟨col, List.mem_filter.2 ⟨hc, ho⟩, rfl⟩

end DeepChangeChecker

/-! ## A notifier's checker -/

namespace CollectionNotifier

open DeepChangeChecker

variable {g : Group} {info : TransactionChangeInfo} {rootTable : ℤ}

theorem askAll_deep (hr : rootTable ∈ g.tables) : ∀ {keys : List ℤ} {s : DeepChangeChecker},
    Sound g (setTable g rootTable) info s → s.currentPath = [] →
    askAll g info (.deep (setTable g rootTable) rootTable) keys s
      = keys.map (changedWithin g info pathSize rootTable)
  | [], _, _, _ => rfl
  | key :: keys, s, hs, hp => by
    obtain ⟨h1, h2, h3⟩ := check_iff (apart_setTable hr) key hs hp
    have hroot : rootTable ∈ DeepChangeChecker.keys (setTable g rootTable) :=
      ((setTable_spec hr).2.1 rootTable).2 .refl
    rw [near_iff_changedWithin hr hroot, Bool.coe_iff_coe] at h1
    rw [askAll, List.map_cons, h1, askAll_deep hr h2 h3]

theorem askAll_ofTable {t : ℤ} : ∀ {keys : List ℤ} {s : DeepChangeChecker},
    askAll g info (.ofTable t) keys s = keys.map (modificationsContains info t)
  | [], _ => rfl
  | key :: keys, s => by rw [askAll, List.map_cons, askAll_ofTable]

theorem askAll_never : ∀ {keys : List ℤ} {s : DeepChangeChecker},
    askAll g info .never keys s = keys.map fun _ => false
  | [], _ => rfl
  | key :: keys, s => by rw [askAll, List.map_cons, askAll_never]

/-- With no related table modified, nothing within reach was. -/
theorem changedWithin_eq_false (hr : rootTable ∈ g.tables)
    (h : ∀ t ∈ keys (setTable g rootTable), ∀ key, modificationsContains info t key = false) :
    ∀ {n : ℕ} {t key : ℤ}, t ∈ keys (setTable g rootTable) → changedWithin g info n t key = false
  | 0, _, _, _ => rfl
  | n + 1, t, key, ht => by
    obtain ⟨-, hreach, -⟩ := setTable_spec hr
    unfold changedWithin
    rw [h t ht, Bool.false_or, List.any_eq_false]
    intro col hc hcol
    rw [Bool.and_eq_true, List.any_eq_true] at hcol
    obtain ⟨ho, k, -, hk⟩ := hcol
    have hnext := (hreach _).2 (((hreach t).1 ht).tail ⟨col, hc, of_decide_eq_true ho, rfl⟩)
    rw [changedWithin_eq_false hr h hnext] at hk
    cases hk

theorem modificationsContains_eq_false {table : RelatedTable} (h : tableModified info table = false)
    (key : ℤ) : modificationsContains info table.tableKey key = false := by
  unfold tableModified at h
  unfold modificationsContains
  split at h
  · rfl
  rw [Bool.not_eq_false', ObjectChangeSet.modificationsEmpty, decide_eq_true_eq] at h
  simp [ObjectChangeSet.modificationsContains, h]

/-- However many objects the checker is asked of in a row, it tells of each whether it or an object
that at most three links lead to was modified; where its table has no others related, links are
not followed. -/
theorem checker_tells (related : List RelatedTable) (hroot : rootTable ∈ g.tables)
    (hrelated : info.schemaChanged = true ∨ related = setTable g rootTable) (keys : List ℤ) :
    askAll g info (getModificationChecker g info related rootTable) keys {} =
      keys.map fun key => if (setTable g rootTable).length = 1
        then modificationsContains info rootTable key
        else changedWithin g info pathSize rootTable key := by
  have hrel : (if info.schemaChanged then setTable g rootTable else related)
      = setTable g rootTable := by
    rcases hrelated with h | h
    · rw [if_pos h]
    · rw [h, ite_self]
  have hmem := ((setTable_spec hroot).2.1 rootTable).2 .refl
  unfold getModificationChecker
  simp only [hrel]
  by_cases hany : (setTable g rootTable).any (tableModified info) = true
  · rw [if_neg (by simpa using hany)]
    split
    · rename_i table htab
      rw [htab] at hmem
      obtain rfl := List.mem_singleton.1 hmem
      rw [askAll_ofTable, htab]
      rfl
    · rename_i hsingle
      have hone : (setTable g rootTable).length ≠ 1 := fun h => by
        obtain ⟨table, ht⟩ := List.length_eq_one_iff.1 h
        exact hsingle table ht
      simp only [if_neg hone]
      exact askAll_deep hroot (fun _ hx => absurd hx List.not_mem_nil) rfl
  · have hno : ∀ t ∈ DeepChangeChecker.keys (setTable g rootTable), ∀ key,
        modificationsContains info t key = false := by
      intro t ht key
      obtain ⟨table, hm, rfl⟩ := List.mem_map.1 ht
      rw [Bool.not_eq_true, List.any_eq_false] at hany
      exact modificationsContains_eq_false (Bool.not_eq_true _ ▸ hany table hm) key
    rw [if_pos (by simpa using hany), askAll_never]
    refine List.map_congr_left fun key _ => ?_
    split_ifs
    · exact (hno _ hmem key).symm
    · exact (changedWithin_eq_false hroot hno hmem).symm

/-- Owners link to a list of pets, and each pet back to an owner. -/
def owners : Group where
  tables := [1, 2]
  columns t := if t = 1 then [⟨10, .linkList⟩, ⟨11, .other⟩] else if t = 2 then [⟨20, .link⟩] else []
  linkTarget t _ := if t = 1 then 2 else 1
  link _ key _ := if key < 6 then some (key + 1) else none
  linkList _ key _ := [key, key + 1]
  target_mem := by decide
  apart t u c d hc hd hk := by
    split_ifs at hc hd <;> simp_all <;> grind

/-- The object 5 of the first table is modified. -/
def ownerModified : TransactionChangeInfo where
  tables t := if t = 1 then some { modifications := {(5, 11)} } else none

theorem checker_tells_owners :
    askAll owners ownerModified (getModificationChecker owners ownerModified (setTable owners 1) 1)
      [0, 2, 5, 3, 1, 4] {} = [false, false, true, true, false, true] :=
  (checker_tells (setTable owners 1) (by decide) (.inr rfl) [0, 2, 5, 3, 1, 4]).trans (by decide)

end CollectionNotifier

end IosLearning
