import IosLearning.Proofs.ObjectChangeSet
import IosLearning.Proofs.TransactLog

/-!
# Every tracked table gets the changes of its objects

An object is seen with its values and the rows of its lists. A list is only changed after it is
selected, and that is reported as a modification of its object's column.
-/

namespace IosLearning

open CollectionChangeBuilder ObjectChangeSet TransactLogObserver Store

variable {α : Type*} {s s' : Store α} {o o' : TransactLogObserver} {t u : ℤ}
  {old : ℤ → Option (ℤ → α × List α)} {cs : ObjectChangeSet} {i : Instruction α}

/-- A table's objects, each column with its value and its list's rows. -/
def Store.view (s : Store α) (t key : ℤ) : Option (ℤ → α × List α) :=
  (s.objects t key).map fun values col => (values col, s.rows ⟨t, key, col⟩)

theorem view_setObjects (f : (ℤ → Option (ℤ → α)) → ℤ → Option (ℤ → α)) (h : u ≠ t) :
    (s.setObjects u f).view t = s.view t := by
  funext key
  simp only [view, setObjects, Function.update_of_ne h.symm]

theorem view_removeObject (key : ℤ) (h : u ≠ t) : (s.removeObject u key).view t = s.view t := by
  funext k
  simp only [view, removeObject, setObjects, Function.update_of_ne h.symm]

theorem view_clearTable (h : u ≠ t) : (s.clearTable u).view t = s.view t := by
  funext k
  simp only [view, clearTable, setObjects, Function.update_of_ne h.symm]

theorem view_setObjects_update (key : ℤ) (v : Option (ℤ → α)) :
    (s.setObjects t fun objects => Function.update objects key v).view t =
      Function.update (s.view t) key
        (v.map fun values col => (values col, s.rows ⟨t, key, col⟩)) := by
  funext k
  by_cases hk : k = key
  · subst hk
    simp [view, setObjects]
  · simp [view, setObjects, hk]

/-- The list selected is of an object inserted, or of a column reported. -/
def Reported (t : ℤ) (cs : ObjectChangeSet) (s : Store α) : Prop :=
  ∀ id, s.selected = some id → id.tableKey = t → s.removed id = false →
    id.rowKey ∈ cs.insertions ∨ (id.rowKey, id.colKey) ∈ cs.modifications

structure TableInv (t : ℤ) (old : ℤ → Option (ℤ → α × List α)) (o : TransactLogObserver)
    (s : Store α) : Prop where
  tracked : (o.info.tables t).isSome = true ∨ o.info.trackAll = true
  current : ∀ u, s.currentTable = some u →
    o.activeTable = if (o.info.tables u).isSome then some u else none
  all : o.info.trackAll = true → ∀ u, s.currentTable = some u → (o.info.tables u).isSome = true
  records : Records ((o.info.tables t).getD {}) old (s.view t)
  reported : Reported t ((o.info.tables t).getD {}) s

theorem tables_tellTable (f : ObjectChangeSet → ObjectChangeSet) :
    (o.tellTable f).info.tables t
      = if o.activeTable = some t then (o.info.tables t).map f else o.info.tables t := by
  unfold tellTable
  split
  · rename_i hn
    simp [hn]
  · rename_i u hu
    by_cases ht : u = t
    · subst ht
      simp [hu]
    · simp [hu, ht, Function.update_of_ne (Ne.symm ht)]

theorem isSome_tellTable (f : ObjectChangeSet → ObjectChangeSet) :
    ((o.tellTable f).info.tables t).isSome = (o.info.tables t).isSome := by
  rw [tables_tellTable]
  split_ifs <;> simp

@[simp] theorem tellTable_activeTable (f : ObjectChangeSet → ObjectChangeSet) :
    (o.tellTable f).activeTable = o.activeTable := by
  unfold tellTable
  split <;> simp_all

@[simp] theorem tellTable_trackAll (f : ObjectChangeSet → ObjectChangeSet) :
    (o.tellTable f).info.trackAll = o.info.trackAll := by
  unfold tellTable
  split <;> rfl

/-- The table selected is told, if it is tracked. -/
theorem TableInv.tell (h : TableInv t old o s) (f : ObjectChangeSet → ObjectChangeSet)
    (hu : s.currentTable = some u) (hcur : s'.currentTable = s.currentTable)
    (htab : o'.info.tables = (o.tellTable f).info.tables)
    (hact : o'.activeTable = o.activeTable) (hall : o'.info.trackAll = o.info.trackAll)
    (hne : u ≠ t → s'.view t = s.view t ∧ ∀ cs, Reported t cs s → Reported t cs s')
    (heq : u = t → ∀ cs, Records cs old (s.view t) → Reported t cs s →
      Records (f cs) old (s'.view t) ∧ Reported t (f cs) s') : TableInv t old o' s' := by
  have hsome : ∀ v, (o'.info.tables v).isSome = (o.info.tables v).isSome := fun v => by
    rw [htab, isSome_tellTable]
  have hboth : Records ((o'.info.tables t).getD {}) old (s'.view t)
      ∧ Reported t ((o'.info.tables t).getD {}) s' := by
    rw [htab, tables_tellTable]
    by_cases hut : u = t
    · subst hut
      have hs : (o.info.tables u).isSome = true := by
        rcases h.tracked with hs | hs
        · exact hs
        · exact h.all hs u hu
      rw [if_pos (by rw [h.current u hu, if_pos hs])]
      obtain ⟨cs, hcs⟩ := Option.isSome_iff_exists.1 hs
      have hr := h.records
      have hp := h.reported
      rw [hcs] at hr hp ⊢
      exact heq rfl cs hr hp
    · have hna : o.activeTable ≠ some t := by
        rw [h.current u hu]
        split_ifs <;> simp [hut]
      rw [if_neg hna, (hne hut).1]
      exact ⟨h.records, (hne hut).2 _ h.reported⟩
  exact {
    tracked := by
      rw [hsome, hall]
      exact h.tracked
    current := fun v hv => by
      rw [hact, hsome]
      exact h.current v (hcur ▸ hv)
    all := fun ha v hv => by
      rw [hsome]
      exact h.all (hall ▸ ha) v (hcur ▸ hv)
    records := hboth.1
    reported := hboth.2 }

theorem Reported.mono {cs' : ObjectChangeSet} (h : Reported t cs s)
    (hi : cs.insertions ⊆ cs'.insertions) (hm : cs.modifications ⊆ cs'.modifications)
    (hs : s'.selected = s.selected) (hr : ∀ id, s'.removed id = false → s.removed id = false) :
    Reported t cs' s' := fun id hsel hid hrem =>
  (h id (hs ▸ hsel) hid (hr id hrem)).imp (fun h => hi h) fun h => hm h

theorem tableInv_selectTable (h : TableInv t old o s) (key : ℤ) :
    ∃ o', o.step (.selectTable key : Instruction α) = some o'
      ∧ TableInv t old o' { s with currentTable := some key } := by
  simp only [TransactLogObserver.step]
  split_ifs with hall
  · have hget : (Function.update o.info.tables key (some ((o.info.tables key).getD {})) t).getD {}
        = (o.info.tables t).getD {} := by
      by_cases ht : t = key
      · subst ht
        rw [Function.update_self, Option.getD_some]
      · rw [Function.update_of_ne ht]
    refine ⟨_, rfl, .inr hall, ?_, ?_, ?_, ?_⟩
    · rintro u hu
      obtain rfl := Option.some.inj hu
      simp
    · rintro - u hu
      obtain rfl := Option.some.inj hu
      simp
    · exact hget ▸ h.records
    · exact hget ▸ h.reported
  all_goals
    rename_i hk
    refine ⟨_, rfl, h.tracked, ?_, fun ha => (hall ha).elim, h.records, h.reported⟩
    rintro u hu
    obtain rfl := Option.some.inj hu
    simp [hk]

theorem records_view_create {key : ℤ} (values : ℤ → α) (h : Records cs old (s.view t))
    (hn : s.objects t key = none) : Records (cs.insertionsAdd key) old
      ((s.setObjects t fun objects => Function.update objects key (some values)).view t) := by
  rw [view_setObjects_update]
  exact records_insertionsAdd h (by simp [view, hn]) _

theorem records_view_modify {key : ℤ} {values : ℤ → α} (col : ℤ) (value : α)
    (h : Records cs old (s.view t)) (hv : s.objects t key = some values) :
    Records (cs.modificationsAdd key col) old ((s.setObjects t fun objects =>
      Function.update objects key (some (Function.update values col value))).view t) := by
  have hn : s.view t key = some fun c => (values c, s.rows ⟨t, key, c⟩) := by
    rw [view, hv, Option.map_some]
  have hm := records_modificationsAdd col h hn (value, s.rows ⟨t, key, col⟩)
  rw [view_setObjects_update, Option.map_some]
  convert hm using 3
  funext c
  by_cases hc : c = col
  · subst hc
    simp
  · simp [Function.update_of_ne hc]

theorem modificationsAdd_subset (cs : ObjectChangeSet) (key col : ℤ) :
    cs.insertions ⊆ (cs.modificationsAdd key col).insertions
    ∧ cs.modifications ⊆ (cs.modificationsAdd key col).modifications := by
  unfold modificationsAdd
  split_ifs
  · exact ⟨subset_rfl, subset_rfl⟩
  · exact ⟨subset_rfl, Finset.subset_insert _ _⟩

theorem mem_modificationsAdd (key col : ℤ) : key ∈ (cs.modificationsAdd key col).insertions
    ∨ (key, col) ∈ (cs.modificationsAdd key col).modifications := by
  unfold modificationsAdd
  split_ifs with h
  · exact .inl h
  · exact .inr (Finset.mem_insert_self _ _)

/-- Only the list selected is changed, and its column is reported. -/
theorem records_view_rows {id : ListId} {rows : List α} (h : Records cs old (s.view t))
    (hr : Reported t cs s) (hsel : s.selected = some id) (hrem : s.removed id = false) :
    Records cs old ({ s with rows := Function.update s.rows id rows }.view t) := by
  refine h.congr (fun k => by simp [view]) fun k hk v v' hv hv' col hcol => ?_
  obtain ⟨values, hval, rfl⟩ := Option.map_eq_some_iff.1 hv
  obtain ⟨values', hval', rfl⟩ := Option.map_eq_some_iff.1 hv'
  obtain rfl := Option.some.inj (hval.symm.trans hval')
  have hne : (⟨t, k, col⟩ : ListId) ≠ id := by
    rintro rfl
    rcases hr _ hsel rfl hrem with hm | hm
    · exact hk hm
    · exact hcol hm
  simp only [Function.update_of_ne hne]

theorem step_activeTable {i : Instruction α} (h : o.tell i = some o') :
    o'.info.tables = o.info.tables ∧ o'.activeTable = o.activeTable
      ∧ o'.info.trackAll = o.info.trackAll := by
  unfold TransactLogObserver.tell at h
  split at h
  · obtain rfl := Option.some.inj h
    exact ⟨rfl, rfl, rfl⟩
  · obtain ⟨b, -, rfl⟩ := Option.map_eq_some_iff.1 h
    exact ⟨rfl, rfl, rfl⟩

theorem step_removeObject {key : ℤ} (h : o.step (.removeObject key : Instruction α) = some o') :
    o'.info.tables = (o.tellTable (ObjectChangeSet.remove key)).info.tables
      ∧ o'.activeTable = o.activeTable ∧ o'.info.trackAll = o.info.trackAll := by
  simp only [TransactLogObserver.step] at h
  split_ifs at h with hn
  · obtain rfl := Option.some.inj h
    simp [tellTable, hn]
  · obtain rfl := Option.some.inj h
    exact ⟨rfl, tellTable_activeTable _, tellTable_trackAll _⟩

theorem reported_remove {key : ℤ} (h : Reported t cs s) :
    Reported t (cs.remove key) (s.removeObject t key) := by
  intro id hsel hid hrem
  obtain ⟨hr, hkey⟩ := Bool.or_eq_false_iff.1 hrem
  have hne : id.rowKey ≠ key := fun he => of_decide_eq_false hkey ⟨hid, he⟩
  have hrep := h id hsel hid hr
  by_cases hi : key ∈ cs.insertions
  · rw [remove_of_mem hi]
    exact hrep.imp (fun hm => Finset.mem_erase.2 ⟨hne, hm⟩) fun hm => Finset.mem_filter.2 ⟨hm, hne⟩
  · rw [remove_of_notMem hi]
    exact hrep.imp_right fun hm => Finset.mem_filter.2 ⟨hm, hne⟩

theorem tableInv_createObject {key : ℤ} {values : ℤ → α} (h : TableInv t old o s)
    (ht : s.currentTable = some u) (hn : s.objects u key = none)
    (ho : o.step (.createObject key values) = some o') : TableInv t old o'
      (s.setObjects u fun objects => Function.update objects key (some values)) := by
  obtain rfl := Option.some.inj ho
  refine h.tell (insertionsAdd _) ht rfl rfl (by simp) (by simp)
    (fun hut => ⟨view_setObjects _ hut, fun cs hr => hr⟩) ?_
  rintro rfl cs hr hp
  exact ⟨records_view_create values hr hn,
    hp.mono (Finset.subset_insert _ _) subset_rfl rfl fun _ => id⟩

theorem tableInv_modifyObject {key col : ℤ} {values : ℤ → α} {value : α}
    (h : TableInv t old o s) (ht : s.currentTable = some u)
    (hv : s.objects u key = some values) (ho : o.step (.modifyObject col key value) = some o') :
    TableInv t old o' (s.setObjects u fun objects =>
      Function.update objects key (some (Function.update values col value))) := by
  obtain rfl := Option.some.inj ho
  refine h.tell (modificationsAdd key col) ht rfl rfl (by simp) (by simp)
    (fun hut => ⟨view_setObjects _ hut, fun cs hr => hr⟩) ?_
  rintro rfl cs hr hp
  obtain ⟨h1, h2⟩ := modificationsAdd_subset cs key col
  exact ⟨records_view_modify col value hr hv, hp.mono h1 h2 rfl fun _ => id⟩

theorem tableInv_removeObject {key : ℤ} {values : ℤ → α} (h : TableInv t old o s)
    (ht : s.currentTable = some u) (hv : s.objects u key = some values)
    (ho : o.step (.removeObject key : Instruction α) = some o') :
    TableInv t old o' (s.removeObject u key) := by
  obtain ⟨h1, h2, h3⟩ := step_removeObject ho
  refine h.tell (ObjectChangeSet.remove key) ht rfl h1 h2 h3 (fun hut =>
    ⟨view_removeObject key hut, fun cs hr => hr.mono subset_rfl subset_rfl rfl fun id hid =>
      (Bool.or_eq_false_iff.1 hid).1⟩) ?_
  rintro rfl cs hr hp
  have hview : s.view u key = some fun col => (values col, s.rows ⟨u, key, col⟩) := by
    rw [view, hv, Option.map_some]
  have hrec := records_remove hr hview
  exact ⟨view_setObjects_update key none ▸ hrec, reported_remove hp⟩

theorem tableInv_clearTable {oldSize : ℕ} (h : TableInv t old o s)
    (ht : s.currentTable = some u) (ho : o.step (.clearTable oldSize : Instruction α) = some o') :
    TableInv t old o' (s.clearTable u) := by
  obtain rfl := Option.some.inj ho
  refine h.tell (fun _ => ObjectChangeSet.clear) ht rfl rfl (by simp) (by simp) (fun hut =>
    ⟨view_clearTable hut, fun cs hr => hr.mono subset_rfl subset_rfl rfl fun id hid =>
      (Bool.or_eq_false_iff.1 hid).1⟩) ?_
  rintro rfl cs hr hp
  refine ⟨?_, fun id _ hid hrem => ?_⟩
  · have hnone : (s.clearTable u).view u = fun _ => none := by
      funext k
      simp [view, clearTable, setObjects]
    rw [hnone]
    exact records_clear old
  · exact (of_decide_eq_false (Bool.or_eq_false_iff.1 hrem).2 hid).elim

/-- A list that is selected is reported as its object's column, which keeps its value. -/
theorem tableInv_selectList {obj col : ℤ} {values : ℤ → α} (h : TableInv t old o s)
    (ht : s.currentTable = some u) (hv : s.objects u obj = some values)
    (ho : o.step (.selectList col obj : Instruction α) = some o') :
    TableInv t old o' { s with selected := some ⟨u, obj, col⟩ } := by
  obtain rfl := Option.some.inj ho
  refine h.tell (modificationsAdd obj col) ht rfl rfl (by simp) (by simp) ?_ ?_
  · refine fun hut => ⟨rfl, fun cs hr id hsel hid => ?_⟩
    obtain rfl := Option.some.inj hsel
    exact (hut hid).elim
  · rintro rfl cs hr hp
    have hsame : (s.setObjects u fun objects =>
        Function.update objects obj (some (Function.update values col (values col)))).view u
          = s.view u := by
      rw [view_setObjects_update, Function.update_eq_self, Function.update_eq_self_iff, view, hv]
    refine ⟨?_, fun id hsel _ _ => ?_⟩
    · show Records _ old (s.view u)
      rw [← hsame]
      exact records_view_modify col (values col) hr hv
    · obtain rfl := Option.some.inj hsel
      exact mem_modificationsAdd obj col

/-- What is done to a list is not told to the tables. -/
theorem tableInv_list {id : ListId} {rows : List α} (h : TableInv t old o s)
    (hsel : s.selected = some id) (hr : s.removed id = false) (ho : o.tell i = some o') :
    TableInv t old o' { s with rows := Function.update s.rows id rows } := by
  obtain ⟨h1, h2, h3⟩ := step_activeTable ho
  exact {
    tracked := by
      rw [h1, h3]
      exact h.tracked
    current := fun u hu => by
      rw [h2, h1]
      exact h.current u hu
    all := fun ha u hu => by
      rw [h1]
      exact h.all (h3 ▸ ha) u hu
    records := by
      rw [h1]
      exact records_view_rows h.records h.reported hsel hr
    reported := by
      rw [h1]
      exact h.reported }

theorem tableInv_step (h : TableInv t old o s) (hs : s.step i = some s')
    (ho : o.step i = some o') : TableInv t old o' s' := by
  cases step_cases hs with
  | selectTable key =>
    obtain ⟨o₁, he, hi⟩ := tableInv_selectTable h key
    obtain rfl := Option.some.inj (he.symm.trans ho)
    exact hi
  | insertColumn | insertGroupLevelTable =>
    obtain rfl := Option.some.inj ho
    exact { h with }
  | createObject values ht hn => exact tableInv_createObject h ht hn ho
  | modifyObject col value ht hv => exact tableInv_modifyObject h ht hv ho
  | removeObject ht hv => exact tableInv_removeObject h ht hv ho
  | clearTable oldSize ht => exact tableInv_clearTable h ht ho
  | selectList col ht hv => exact tableInv_selectList h ht hv ho
  | list ht hsel hr hrows hi => exact tableInv_list h hsel hr (hi o ▸ ho)

theorem tableInv_log {log : List (Instruction α)} : ∀ {s : Store α} {o : TransactLogObserver},
    TableInv t old o s → log.foldlM Store.step s = some s' →
    log.foldlM TransactLogObserver.step o = some o' → TableInv t old o' s' := by
  induction log with
  | nil =>
    intro s o h hs ho
    obtain rfl := Option.some.inj hs
    obtain rfl := Option.some.inj ho
    exact h
  | cons i log ih =>
    intro s o h hs ho
    rw [List.foldlM_cons] at hs ho
    obtain ⟨s₁, hs1, hs2⟩ := Option.bind_eq_some_iff.1 hs
    obtain ⟨o₁, ho1, ho2⟩ := Option.bind_eq_some_iff.1 ho
    exact ih (tableInv_step h hs1 ho1) hs2 ho2

/-- A table whose change set is empty is not kept, and none of its objects was changed. -/
theorem getD_parseComplete (info : TransactionChangeInfo) (t : ℤ) :
    ((parseComplete info).tables t).getD {} = (info.tables t).getD {} := by
  show ((info.tables t).filter fun changes => !changes.isEmpty).getD {} = _
  rcases info.tables t with _ | cs
  · rfl
  · by_cases he : cs.isEmpty = true
    · rw [ObjectChangeSet.isEmpty_iff] at he
      subst he
      rfl
    · simp [Option.filter, he]

theorem chain_fresh {builders : ℕ → CollectionChangeBuilder} {l : List ListChangeInfo}
    {seen : ℕ → List α} {now : List α} (hb : ∀ n, builders n = {})
    (hs : ∀ e ∈ l, seen e.changes = now) : Chain builders seen now l := by
  induction l with
  | nil => trivial
  | cons e l ih =>
    rw [List.forall_mem_cons] at hs
    refine ⟨?_, ih hs.2⟩
    have hn : (l.head?.map fun e => seen e.changes).getD now = now := by
      rcases l with _ | ⟨f, l⟩
      · rfl
      · exact hs.2 f List.mem_cons_self
    rw [hb, hn, hs.1]
    exact Tracks.refl now

/-- The rows of the list that a notifier with that change set follows. -/
def rowsOf (l : List ListChangeInfo) (s : Store α) (n : ℕ) : List α :=
  ((l.find? fun e => e.changes = n).map fun e => s.rows e.id).getD []

theorem rowsOf_changes {l : List ListChangeInfo} {e : ListChangeInfo}
    (h : (l.map ListChangeInfo.changes).Nodup) (he : e ∈ l) : rowsOf l s e.changes = s.rows e.id := by
  have hs : (l.find? fun f => f.changes = e.changes).isSome = true :=
    List.find?_isSome.2 ⟨e, he, decide_eq_true rfl⟩
  obtain ⟨f, hf⟩ := Option.isSome_iff_exists.1 hs
  have hfe : f.changes = e.changes := by simpa using List.find?_some hf
  obtain rfl := List.inj_on_of_nodup_map h (List.mem_of_find?_eq_some hf) he hfe
  rw [rowsOf, hf]
  rfl

theorem inv_fresh {info : TransactionChangeInfo} (hb : ∀ n, info.builders n = {})
    (hn : (info.lists.map ListChangeInfo.changes).Nodup)
    (hl : ∀ e ∈ info.lists, s.removed e.id = false) :
    Inv info.lists (rowsOf info.lists s) info s where
  pointers := hn
  subperm := .refl _
  lists _ _ := rfl
  gone id hr := by
    have hnil : ofId id info.lists = [] := List.eq_nil_iff_forall_not_mem.2 fun e he => by
      obtain ⟨hm, rfl⟩ := mem_ofId.1 he
      rw [hl e hm] at hr
      cases hr
    rw [hnil]
    exact Nat.zero_le 1
  chain id _ := chain_fresh hb fun e he => by
    obtain ⟨hm, rfl⟩ := mem_ofId.1 he
    exact rowsOf_changes hn hm
  fresh n _ := hb n

/-- Objects 7 and 8 of any table. -/
def twoObjects : Store Char where
  objects _ key := if key = 7 ∨ key = 8 then some fun _ => 'a' else none
  rows _ := []

/-- One object is created, another modified and a third removed. -/
def objectsChanged : List (Instruction Char) :=
  [.selectTable 1, .createObject 5 fun _ => 'a', .modifyObject 2 7 'b', .removeObject 8]

end IosLearning
