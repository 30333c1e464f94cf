import IosLearning.TransactLog

/-!
# What an instruction does to the store

One case an instruction, with what lets it be given. A list once gone with its object stays gone.
-/

namespace IosLearning

namespace Store

variable {α : Type*} {s s' : Store α} {i : Instruction α} {id : ListId}

/-- What a step can do. -/
inductive Change (s : Store α) : Instruction α → Store α → Prop
  | selectTable (key : ℤ) : Change s (.selectTable key) { s with currentTable := some key }
  | insertColumn (key : ℤ) : Change s (.insertColumn key) s
  | insertGroupLevelTable (key : ℤ) : Change s (.insertGroupLevelTable key) s
  | createObject {t key : ℤ} (values : ℤ → α) (ht : s.currentTable = some t)
    (hn : s.objects t key = none) : Change s (.createObject key values)
      (s.setObjects t fun objects => Function.update objects key (some values))
  | modifyObject {t key : ℤ} {values : ℤ → α} (col : ℤ) (value : α)
    (ht : s.currentTable = some t) (hv : s.objects t key = some values) :
    Change s (.modifyObject col key value) (s.setObjects t fun objects =>
      Function.update objects key (some (Function.update values col value)))
  | removeObject {t key : ℤ} {values : ℤ → α} (ht : s.currentTable = some t)
    (hv : s.objects t key = some values) : Change s (.removeObject key) (s.removeObject t key)
  | clearTable {t : ℤ} (oldSize : ℕ) (ht : s.currentTable = some t) :
    Change s (.clearTable oldSize) (s.clearTable t)
  | selectList {t obj : ℤ} {values : ℤ → α} (col : ℤ) (ht : s.currentTable = some t)
    (hv : s.objects t obj = some values) :
    Change s (.selectList col obj) { s with selected := some ⟨t, obj, col⟩ }
  | list {t : ℤ} {id : ListId} {i : Instruction α} {rows : List α} (ht : s.currentTable = some t)
    (hsel : s.selected = some id) (hr : s.removed id = false)
    (hrows : i.apply (s.rows id) = some rows)
    (hi : ∀ o : TransactLogObserver, o.step i = o.tell i) :
    Change s i { s with rows := Function.update s.rows id rows }

theorem change_cases (hs : s.change i = some s') : ∃ id rows, s.selected = some id
    ∧ s.removed id = false ∧ i.apply (s.rows id) = some rows
    ∧ s' = { s with rows := Function.update s.rows id rows } := by
  unfold change at hs
  split at hs
  · cases hs
  · rename_i id hsel
    split_ifs at hs with hr
    obtain ⟨rows, hrows, rfl⟩ := Option.map_eq_some_iff.1 hs
    exact ⟨id, rows, hsel, Bool.not_eq_true _ ▸ hr, hrows, rfl⟩

theorem step_cases (hs : s.step i = some s') : Change s i s' := by
  cases i with
  | selectTable key =>
    obtain rfl := Option.some.inj hs
    exact .selectTable key
  | insertColumn key =>
    obtain rfl := Option.some.inj hs
    exact .insertColumn key
  | insertGroupLevelTable key =>
    obtain rfl := Option.some.inj hs
    exact .insertGroupLevelTable key
  | createObject key values =>
    obtain ⟨t, ht, hs⟩ := Option.bind_eq_some_iff.1 hs
    obtain ⟨hn, hs⟩ := Option.ite_none_left_eq_some.1 hs
    obtain rfl := Option.some.inj hs
    exact .createObject values ht (by simpa using hn)
  | modifyObject col key value =>
    obtain ⟨t, ht, hs⟩ := Option.bind_eq_some_iff.1 hs
    obtain ⟨values, hv, rfl⟩ := Option.map_eq_some_iff.1 hs
    exact .modifyObject col value ht hv
  | removeObject key =>
    obtain ⟨t, ht, hs⟩ := Option.bind_eq_some_iff.1 hs
    obtain ⟨hv, hs⟩ := Option.ite_none_right_eq_some.1 hs
    obtain ⟨values, hv⟩ := Option.isSome_iff_exists.1 hv
    obtain rfl := Option.some.inj hs
    exact .removeObject ht hv
  | clearTable oldSize =>
    obtain ⟨t, ht, hs⟩ := Option.bind_eq_some_iff.1 hs
    obtain rfl := Option.some.inj hs
    exact .clearTable oldSize ht
  | selectList col obj =>
    obtain ⟨t, ht, hs⟩ := Option.bind_eq_some_iff.1 hs
    obtain ⟨values, hv, rfl⟩ := Option.map_eq_some_iff.1 hs
    exact .selectList col ht hv
  | listSet | listInsert | listErase | listSwap | listClear | listMove =>
    obtain ⟨t, ht, hs⟩ := Option.bind_eq_some_iff.1 hs
    obtain ⟨id, rows, hsel, hr, hrows, rfl⟩ := change_cases hs
    exact .list ht hsel hr hrows fun _ => rfl

theorem removed_step (hs : s.step i = some s') (hr : s'.removed id = false) :
    s.removed id = false := by
  cases step_cases hs with
  | removeObject | clearTable => exact (Bool.or_eq_false_iff.1 hr).1
  | _ => exact hr

theorem removed_foldlM {log : List (Instruction α)} : ∀ {s : Store α},
    log.foldlM step s = some s' → s'.removed id = false → s.removed id = false := by
  induction log with
  | nil =>
    intro s hs hr
    obtain rfl := Option.some.inj hs
    exact hr
  | cons i log ih =>
    intro s hs hr
    rw [List.foldlM_cons] at hs
    obtain ⟨s₁, h1, h2⟩ := Option.bind_eq_some_iff.1 hs
    exact removed_step h1 (ih h2 hr)

end Store

end IosLearning
