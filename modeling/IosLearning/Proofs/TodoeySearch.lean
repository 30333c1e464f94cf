import IosLearning.Proofs.TodoeyRows

/-!
# What a search shows

A search filters the query on screen, not the category's items: it keeps the texts of the
searches before it, back to when the list was opened or its text emptied (`run_searchLog`). And a
search for an empty text finds nothing. So the list shows the items whose name contains the text
searched for last exactly as long as all of these are found by that text and by the earlier ones;
once the text is emptied it shows all items (`search_shows_iff`).
-/

namespace IosLearning

namespace Todoey

variable {C : Collation}

/-- Whether the name contains the text, as every name does an empty one. -/
def nameContains (C : Collation) (name text : String) : Bool := text.isEmpty || C.find name text

/-- The list shows exactly the items of its category with a name that `p` holds of, each once,
ordered by name. -/
def ShowsExactly (C : Collation) (s : App) (p : String → Bool) : Prop :=
  ∃ v c, ∃ rows : List (ℕ × TodoItem), s.todoList = some v ∧ v.selectedCategory = some c
    ∧ List.Forall₂ ShowsItem rows v.tableView
    ∧ rows.Pairwise (fun x y => C.le x.2.name y.2.name) ∧ (rows.map (·.1)).Nodup
    ∧ ∀ row, row ∈ rows ↔ row ∈ s.realm.itemsOf c ∧ p row.2.name

/-- The text typed last, and those searched for since the list was opened or its text emptied. -/
def searchLog (is : List Event) : String × List String :=
  is.foldl (fun l e =>
    match e with
    | .selectCategory _ => ("", [])
    | .textDidChange text => (text, if text.isEmpty then [] else l.2)
    | .searchButtonClicked => (l.1, l.2 ++ [l.1])
    | _ => l) ("", [])

/-- What the list is to show: what contains the text searched for last, or everything if none was
since the list was opened or its text emptied. -/
def wanted (C : Collation) (is : List Event) (name : String) : Bool :=
  (searchLog is).2.getLast?.elim true (nameContains C name)

/-- While it is open, the list shows exactly what it is to show. -/
def ListShows (C : Collation) (is : List Event) (s : App) : Prop :=
  s.todoList.isSome = true → ShowsExactly C s (wanted C is)

/-- At a press of the search button, every item of the category whose name contains the text is
found by it and by the texts searched for before; and so is an item that is added and is to be
shown. -/
def SearchWithin (C : Collation) (is : List Event) (s : App) : Event → Prop
  | .searchButtonClicked => ∀ v c, s.todoList = some v → v.selectedCategory = some c →
      ∀ row ∈ s.realm.itemsOf c, nameContains C row.2.name (searchLog is).1 →
        ∀ text ∈ (searchLog is).2 ++ [(searchLog is).1], C.contains row.2.name text
  | .addItem name _ => s.todoList.isSome = true → wanted C is name →
      ∀ text ∈ (searchLog is).2, C.contains name text
  | _ => True

theorem searchLog_snoc (is : List Event) (e : Event) :
    searchLog (is ++ [e]) = match e with
      | .selectCategory _ => ("", [])
      | .textDidChange text => (text, if text.isEmpty then [] else (searchLog is).2)
      | .searchButtonClicked => ((searchLog is).1, (searchLog is).2 ++ [(searchLog is).1])
      | _ => searchLog is := by
  unfold searchLog
  rw [List.foldl_append]
  rfl

theorem searchLog_next {is : List Event} {a : Live}
    (h : ∀ o, a.opened = some o → searchLog is = (o.2, o.1.texts)) (e : Event) :
    ∀ o, (a.next C e).opened = some o → searchLog (is ++ [e]) = (o.2, o.1.texts) := by
  intro o ho
  rw [searchLog_snoc]
  cases e with
  | selectCategory i =>
    obtain ⟨row, -, rfl⟩ := Option.map_eq_some_iff.1 ho
    rfl
  | textDidChange text =>
    obtain ⟨o₀, ho₀, rfl⟩ := Option.map_eq_some_iff.1 ho
    show (text, if text.isEmpty then [] else (searchLog is).2) = _
    rw [h o₀ ho₀]
    split_ifs <;> rfl
  | searchButtonClicked =>
    obtain ⟨o₀, ho₀, rfl⟩ := Option.map_eq_some_iff.1 ho
    show ((searchLog is).1, (searchLog is).2 ++ [(searchLog is).1]) = _
    rw [h o₀ ho₀]
    rfl
  | back | relaunch => cases ho
  | addCategory _ | swipeCategory _ | addItem _ _ | selectItem _ | swipeItem _ => exact h o ho

/-- The query on screen filters by what was searched for. -/
theorem run_searchLog {is : List Event} {s : App} (hr : (machine C).run is = some s) :
    ∃ a : Live, a.Sound ∧ s = a.app C
      ∧ ∀ o, a.opened = some o → searchLog is = (o.2, o.1.texts) := by
  refine Machine.run_induction (P := fun is s => ∃ a : Live, a.Sound ∧ s = a.app C
    ∧ ∀ o, a.opened = some o → searchLog is = (o.2, o.1.texts)) ?_ ?_ is hr
  · intro s hs
    rw [(drawn C).start] at hs
    exact ⟨_, (drawn C).sound, (Option.some.inj hs).symm, fun o ho => absurd ho nofun⟩
  · intro is s e s' _ ih hst
    obtain ⟨a, ha, rfl, hl⟩ := ih
    obtain ⟨he, hh⟩ := Machine.step_eq_some.1 hst
    obtain ⟨hn, hs⟩ := (drawn C).handle a e ha he
    exact ⟨_, hs, Option.some.inj (hh.symm.trans hn), searchLog_next hl e⟩

/-- Rows of one list with the same keys are the same. -/
theorem mem_iff_of_keys {l l₁ l₂ : List (ℕ × TodoItem)} (hn : (l.map (·.1)).Nodup)
    (h₁ : l₁ ⊆ l) (hk : l₂.map (·.1) = l₁.map (·.1)) {row : ℕ × TodoItem} (hrow : row ∈ l)
    (h : row ∈ l₂) : row ∈ l₁ := by
  have hm : row.1 ∈ l₁.map (·.1) := hk ▸ List.mem_map_of_mem h
  obtain ⟨row', hrow', he⟩ := List.mem_map.1 hm
  obtain rfl := List.inj_on_of_nodup_map hn (h₁ hrow') hrow he
  exact hrow'

theorem showsItem_keys {rows : List (ℕ × TodoItem)} {cells : List Cell}
    (h : List.Forall₂ ShowsItem rows cells) :
    rows.map (fun row => some row.1) = cells.map Cell.object := by
  induction h with
  | nil => rfl
  | cons hs _ ih => rw [List.map_cons, List.map_cons, ih, hs.object]

theorem drawn_keys {l₁ l₂ : List (ℕ × TodoItem)}
    (h : List.Forall₂ ShowsItem l₁ (l₂.map TodoListViewController.drawn)) :
    l₁.map (·.1) = l₂.map (·.1) := by
  have ho := (showsItem_keys h).trans (showsItem_keys (forall₂_drawn showsItem_drawn l₂)).symm
  have hs : Function.Injective (List.map (some : ℕ → Option ℕ)) :=
    List.map_injective_iff.2 (Option.some_injective ℕ)
  refine hs ?_
  rwa [List.map_map, List.map_map]

theorem showsExactly_iff {r : Realm} {o : ItemResults × String} (h : r.Separate)
    {p : String → Bool} :
    ShowsExactly C (Live.app C ⟨r, some o⟩) p ↔
      ∀ row ∈ r.itemsOf o.1.category,
        (p row.2.name ↔ ∀ text ∈ o.1.texts, C.contains row.2.name text) := by
  have hn := r.itemsOf_keys_nodup h o.1.category
  refine ⟨fun hs row hrow => ?_, fun hp => ?_⟩
  · obtain ⟨v, c, rows, hv, hc, ht, -, -, hm⟩ := hs
    obtain rfl := Option.some.inj hv
    obtain rfl := Option.some.inj hc
    have hk := drawn_keys ht
    have h₁ : rows ⊆ r.itemsOf o.1.category := fun x hx => ((hm x).1 hx).1
    have h₂ : o.1.rows C r ⊆ r.itemsOf o.1.category := fun x hx => (mem_rows.1 hx).1
    constructor
    · intro hp
      exact (mem_rows.1 (mem_iff_of_keys hn h₂ hk hrow ((hm row).2 ⟨hrow, hp⟩))).2
    · intro ht'
      exact ((hm row).1 (mem_iff_of_keys hn h₁ hk.symm hrow (mem_rows.2 ⟨hrow, ht'⟩))).2
  · refine ⟨_, _, o.1.rows C r, rfl, rfl, forall₂_drawn showsItem_drawn _, rows_ordered,
      rows_keys_nodup h, fun row => ?_⟩
    rw [mem_rows]
    exact and_congr_right fun hrow => (hp row hrow).symm

/-! ## What is to be shown and what is found -/

/-- Whatever is found by a text contains it. -/
theorem nameContains_of_contains {name text : String} (h : C.contains name text = true) :
    nameContains C name text = true := by
  rw [Collation.contains, Collation.addSubstringConstraint, Bool.and_eq_true] at h
  rw [nameContains, h.2, Bool.or_true]

theorem wanted_of_contains {is : List Event} {name : String}
    (h : ∀ text ∈ (searchLog is).2, C.contains name text = true) : wanted C is name = true := by
  unfold wanted
  rcases hl : (searchLog is).2.getLast? with _ | text
  · rfl
  · exact nameContains_of_contains (h text (List.mem_of_getLast? hl))

/-- All items that are to be shown are found by the texts searched for. -/
def Within (C : Collation) (is : List Event) (a : Live) : Prop :=
  ∀ o, a.opened = some o → ∀ row ∈ a.realm.itemsOf o.1.category, wanted C is row.2.name = true →
    ∀ text ∈ (searchLog is).2, C.contains row.2.name text

theorem listShows_iff {is : List Event} {a : Live} (ha : a.Sound)
    (hl : ∀ o, a.opened = some o → searchLog is = (o.2, o.1.texts)) :
    ListShows C is (a.app C) ↔ Within C is a := by
  obtain ⟨r, _ | o⟩ := a
  · exact iff_of_true (fun h => absurd h Bool.false_ne_true) fun _ ho => absurd ho nofun
  · have htexts : o.1.texts = (searchLog is).2 := (congrArg Prod.snd (hl o rfl)).symm
    have hs := showsExactly_iff (C := C) ha.separate (o := o) (p := wanted C is)
    rw [htexts] at hs
    refine ⟨fun h o' ho row hrow hw => ?_, fun h _ => hs.2 fun row hrow =>
      ⟨h o rfl row hrow, wanted_of_contains⟩⟩
    obtain rfl := Option.some_inj.1 ho
    exact (hs.1 (h rfl) row hrow).1 hw

/-! ## What an event changes -/

/-- An item keeps its name when it is ticked off. -/
theorem mem_itemsOf_setDone {r : Realm} {c k : ℕ} {done : Bool} {row : ℕ × TodoItem}
    (h : row ∈ (r.setDone k done).itemsOf c) : ∃ row' ∈ r.itemsOf c, row'.2.name = row.2.name := by
  obtain ⟨cat, hc, hk, hi⟩ := Realm.mem_itemsOf.1 h
  change (r.todoItems.modify k fun i => { i with done }).get? row.1 = some row.2 at hi
  rw [Table.get?_modify] at hi
  split_ifs at hi
  · obtain ⟨item, hitem, he⟩ := Option.map_eq_some_iff.1 hi
    exact ⟨(row.1, item), Realm.mem_itemsOf.2 ⟨cat, hc, hk, hitem⟩, by rw [← he]⟩
  · exact ⟨row, Realm.mem_itemsOf.2 ⟨cat, hc, hk, hi⟩, rfl⟩

theorem mem_itemsOf_append {r : Realm} {c : ℕ} {cat : TodoCategory} {item : TodoItem}
    {row : ℕ × TodoItem} (hc : r.todoCategories.get? c = some cat) :
    row ∈ (r.append c item).itemsOf c ↔ row ∈ r.itemsOf c ∨ row = (r.todoItems.next, item) := by
  have hcat : (r.append c item).todoCategories.get? c
      = some { cat with items := cat.items ++ [r.todoItems.next] } := by
    rw [Realm.get?_append, if_pos rfl, hc, Option.map_some]
  have hitems : ∀ k, (r.append c item).todoItems.get? k
      = if k = r.todoItems.next then some item else r.todoItems.get? k := fun k =>
    Table.get?_insert _
  obtain ⟨k, i⟩ := row
  rw [Realm.mem_itemsOf, Realm.mem_itemsOf]
  simp only [hcat, hc, hitems, Option.some.injEq, exists_eq_left', List.mem_append,
    List.mem_singleton, Prod.mk.injEq]
  by_cases hk : k = r.todoItems.next
  · have hn : k ∉ cat.items := hk ▸ Realm.next_notMem_items hc
    simp [hk, hk ▸ hn, eq_comm]
  · simp [hk]

section Step

variable {is : List Event} {r : Realm} {o : ItemResults × String}

theorem within_closed (r : Realm) : Within C is ⟨r, none⟩ := fun _ ho => absurd ho nofun

theorem within_of_nil (h : (searchLog is).2 = []) (a : Live) : Within C is a := by
  intro o _ row _ _ text ht
  rw [h] at ht
  exact absurd ht List.not_mem_nil

/-- Each item that is there was there before, or one of its name. -/
theorem Within.mono {is' : List Event} {r' : Realm} {o' : ItemResults × String}
    (h : Within C is ⟨r, some o⟩) (hl : (searchLog is').2 = (searchLog is).2)
    (hr : ∀ row ∈ r'.itemsOf o'.1.category, ∃ row' ∈ r.itemsOf o.1.category,
      row'.2.name = row.2.name) : Within C is' ⟨r', some o'⟩ := by
  intro o'' ho row hrow hw
  obtain rfl := Option.some_inj.1 ho
  obtain ⟨row', hrow', hname⟩ := hr row hrow
  unfold wanted at hw
  rw [hl, ← hname] at hw
  rw [hl, ← hname]
  exact h o rfl row' hrow' hw

theorem within_addItem {cat : TodoCategory} (hc : r.todoCategories.get? o.1.category = some cat)
    (name : String) (now : Date) (h : Within C is ⟨r, some o⟩) :
    Within C (is ++ [.addItem name now]) (Live.next C ⟨r, some o⟩ (.addItem name now)) ↔
      (wanted C is name = true → ∀ text ∈ (searchLog is).2, C.contains name text) := by
  have hl : searchLog (is ++ [.addItem name now]) = searchLog is := searchLog_snoc _ _
  unfold Within wanted
  rw [hl]
  constructor
  · intro hw
    exact hw o rfl (r.todoItems.next, { name, done := false, time := now })
      ((mem_itemsOf_append hc).2 (.inr rfl))
  · intro hname o' ho row hrow
    obtain rfl := Option.some_inj.1 ho
    rcases (mem_itemsOf_append hc).1 hrow with hrow | rfl
    · exact h o rfl row hrow
    · exact hname

theorem within_searchButtonClicked :
    Within C (is ++ [.searchButtonClicked]) (Live.next C ⟨r, some o⟩ .searchButtonClicked) ↔
      ∀ row ∈ r.itemsOf o.1.category, nameContains C row.2.name (searchLog is).1 →
        ∀ text ∈ (searchLog is).2 ++ [(searchLog is).1], C.contains row.2.name text := by
  have hl : searchLog (is ++ [.searchButtonClicked])
      = ((searchLog is).1, (searchLog is).2 ++ [(searchLog is).1]) := searchLog_snoc _ _
  have hw : ∀ name, wanted C (is ++ [.searchButtonClicked]) name
      = nameContains C name (searchLog is).1 := fun name => by
    rw [wanted, hl, List.getLast?_concat, Option.elim_some]
  unfold Within
  simp only [hw, hl]
  refine ⟨fun h => h (o.1.filter o.2, o.2) rfl, fun h o' ho => ?_⟩
  obtain rfl := Option.some_inj.1 ho
  exact h

/-- A press of the button and an addition keep all that is to be shown found just if they are of
what is; whatever else is done keeps it. -/
theorem within_next {a : Live} {e : Event} (ha : a.Sound)
    (he : App.enabled (a.app C) e = true) (h : Within C is a) :
    Within C (is ++ [e]) (a.next C e) ↔ SearchWithin C is (a.app C) e := by
  obtain ⟨r, _ | o⟩ := a
  · cases e with
    | selectCategory i =>
      have hl : (searchLog (is ++ [.selectCategory i])).2 = [] := congrArg Prod.snd (searchLog_snoc _ _)
      exact iff_of_true (within_of_nil hl _) trivial
    | addCategory _ | swipeCategory _ | relaunch => exact iff_of_true (within_closed _) trivial
    | addItem _ _ | selectItem _ | swipeItem _ | textDidChange _ | searchButtonClicked | back =>
      cases he
  · obtain ⟨cat, hc⟩ := ha.stored o rfl
    cases e with
    | addItem name now =>
      rw [within_addItem hc name now h]
      exact ⟨fun hname _ => hname, fun hname => hname rfl⟩
    | searchButtonClicked =>
      rw [within_searchButtonClicked]
      refine ⟨fun hrows v c hv hc => ?_, fun hrows => hrows _ _ rfl rfl⟩
      obtain rfl := Option.some_inj.1 hv
      obtain rfl := Option.some_inj.1 hc
      exact hrows
    | selectItem i =>
      obtain ⟨row, hi⟩ := exists_row (of_decide_eq_true he)
      rw [next_selectItem hi]
      exact iff_of_true (h.mono (congrArg Prod.snd (searchLog_snoc _ _)) fun _ hrow =>
        mem_itemsOf_setDone hrow) trivial
    | swipeItem i =>
      obtain ⟨row, hi⟩ := exists_row (of_decide_eq_true he)
      rw [next_swipeItem hi]
      refine iff_of_true (h.mono (congrArg Prod.snd (searchLog_snoc _ _)) fun row' hrow => ?_)
        trivial
      rw [Realm.itemsOf_deleteItem] at hrow
      exact ⟨row', List.mem_of_mem_filter hrow, rfl⟩
    | textDidChange text =>
      refine iff_of_true ?_ trivial
      by_cases ht : text.isEmpty = true
      · refine within_of_nil ?_ _
        rw [searchLog_snoc]
        exact if_pos ht
      · refine h.mono ?_ fun row hrow => ⟨row, ?_, rfl⟩
        · rw [searchLog_snoc]
          exact if_neg ht
        · dsimp only at hrow
          rwa [if_neg ht] at hrow
    | back | relaunch => exact iff_of_true (within_closed _) trivial
    | addCategory _ | selectCategory _ | swipeCategory _ => cases he

end Step

/-! ## Runs -/

theorem enabled_of_not_searchWithin {is : List Event} {s : App} {e : Event}
    (h : ¬ SearchWithin C is s e) : App.enabled s e = true := by
  cases e with
  | addItem name now =>
    unfold SearchWithin at h
    rw [Classical.not_imp] at h
    obtain ⟨v, hv⟩ := Option.isSome_iff_exists.1 h.1
    simp only [App.enabled, hv]
  | searchButtonClicked =>
    rcases hv : s.todoList with _ | v
    · exact absurd (fun v c hv' => absurd (hv.symm.trans hv') (Option.some_ne_none v).symm) h
    · simp only [App.enabled, hv]
  | _ => exact absurd trivial h

theorem listShows_step {is : List Event} {s : App} {e : Event}
    (hr : (machine C).run is = some s) (hs : ListShows C is s) (he : App.enabled s e = true) :
    ∃ s', (machine C).step s e = some s' ∧
      (ListShows C (is ++ [e]) s' ↔ SearchWithin C is s e) := by
  obtain ⟨a, ha, rfl, hl⟩ := run_searchLog hr
  refine ⟨_, (drawn C).step ha he, ?_⟩
  rw [listShows_iff ((drawn C).handle a e ha he).2 (searchLog_next hl e)]
  exact within_next ha he ((listShows_iff ha hl).1 hs)

theorem always_listShows_iff (C : Collation) (is : List Event) :
    (machine C).Always (ListShows C) is ↔ (machine C).Along (SearchWithin C) is := by
  refine Machine.always_iff_along (fun s hs => ?_) (fun is s e s' hr hshows hwithin hst => ?_)
    (fun is s e hr hshows hno => ?_) is
  · rw [(drawn C).start] at hs
    obtain rfl := Option.some_inj.1 hs
    exact fun h => absurd h Bool.false_ne_true
  · obtain ⟨s'', hst', hiff⟩ := listShows_step hr hshows (Machine.step_eq_some.1 hst).1
    obtain rfl := Option.some_inj.1 (hst.symm.trans hst')
    exact hiff.2 hwithin
  · obtain ⟨s', hst, hiff⟩ := listShows_step hr hshows (enabled_of_not_searchWithin hno)
    exact ⟨s', hst, fun h => hno (hiff.1 h)⟩

/-- In every state of a run the open list shows what it is to show exactly when at every press and
addition what is to be shown is found by all the texts; and whatever is done, nothing traps. -/
theorem search_shows_iff (C : Collation) (is : List Event) :
    ((machine C).Always (ListShows C) is ↔ (machine C).Along (SearchWithin C) is) ∧
      ∀ s, (machine C).run is = some s → ∀ e, App.enabled s e = true →
        ∃ s', (machine C).step s e = some s' := by
  refine ⟨always_listShows_iff C is, fun s hr e he => ?_⟩
  obtain ⟨a, ha, rfl, -⟩ := run_searchLog hr
  exact ⟨_, (drawn C).step ha he⟩

/-- A search for tea, and then, the text typed over, one for milk. -/
def milkAfterTea : List Event :=
  [.addCategory "home", .selectCategory 0, .addItem "Tea" ⟨0⟩, .addItem "Milk" ⟨60⟩,
    .textDidChange "tea", .searchButtonClicked, .textDidChange "milk", .searchButtonClicked]

/-- The second search finds no milk. -/
theorem second_search_narrows : ¬ (machine .ascii).Always (ListShows .ascii) milkAfterTea := by
  rw [always_listShows_iff]
  intro h
  obtain ⟨s, hs⟩ : ∃ s, (machine .ascii).run milkAfterTea.dropLast = some s :=
    Option.isSome_iff_exists.1 (by decide +kernel)
  have hw := h _ .searchButtonClicked s List.prefix_rfl hs
  have hv : ((machine .ascii).run milkAfterTea.dropLast).bind App.todoList
      = some ⟨"milk", some ⟨0, ["tea"]⟩, some 0,
        [TodoListViewController.drawn (0, { name := "Tea", time := ⟨0⟩ })]⟩ := by decide +kernel
  have hi : ((machine .ascii).run milkAfterTea.dropLast).map (fun s => s.realm.itemsOf 0)
      = some [(0, { name := "Tea", time := ⟨0⟩ }), (1, { name := "Milk", time := ⟨60⟩ })] := by
    decide +kernel
  rw [hs] at hv hi
  have hm : (1, { name := "Milk", time := ⟨60⟩ }) ∈ s.realm.itemsOf 0 := by
    rw [show s.realm.itemsOf 0 = _ from Option.some.inj hi]
    simp
  have hc := hw _ 0 hv rfl _ hm (by decide +kernel) "tea" (by decide +kernel)
  exact absurd hc (by decide +kernel)

end Todoey

end IosLearning
