import IosLearning.Proofs.ListLog
import IosLearning.Proofs.StoreSteps

/-!
# Every notifier gets the changes of its list

Notifiers come to follow lists at different versions, and all are brought to the last one. Read up
to a version, the log is told to the change set of the last notifier of each list; merged at the
end, the change set of every notifier tracks its list from what it was when it was followed. An
object's lists taken out put others out of order, which does no harm as long as no two notifiers
follow one list.
-/

namespace IosLearning

open CollectionChangeBuilder TransactLogObserver Store

variable {α : Type*} {seen seen' : ℕ → List α} {now : List α} {e : ListChangeInfo}
  {l att lists kept : List ListChangeInfo} {builders builders' : ℕ → CollectionChangeBuilder}
  {id : ListId} {n : ℕ}

/-! ## Lists taken out -/

section RemoveLists

variable {owned : ListChangeInfo → Bool}

theorem removeLists_of_none (h : ∀ e ∈ lists, owned e = false) :
    removeLists owned kept lists = kept.reverse ++ lists := by
  fun_induction removeLists owned kept lists with
  | case1 kept => simp
  | case2 kept info lists ho hl => simp [h] at ho
  | case3 kept info lists ho last hl ih => simp [h] at ho
  | case4 kept info lists ho ih =>
    rw [ih fun e he => h e (List.mem_cons_of_mem _ he), List.reverse_cons, List.append_assoc,
      List.singleton_append]

/-- Only lists of the object are gone, though not all of them may be. -/
theorem removeLists_perm (owned : ListChangeInfo → Bool) (kept lists : List ListChangeInfo) : ∃ gone, (∀ e ∈ gone, owned e = true)
    ∧ (removeLists owned kept lists ++ gone).Perm (kept ++ lists) := by
  fun_induction removeLists owned kept lists with
  | case1 kept => exact ⟨[], by simp, by simp⟩
  | case2 kept info lists ho hl =>
    rw [List.getLast?_eq_none_iff] at hl
    subst hl
    exact ⟨[info], by simpa using ho, (kept.reverse_perm).append_right _⟩
  | case3 kept info lists ho last hl ih =>
    obtain ⟨gone, hg, hp⟩ := ih
    obtain ⟨init, rfl⟩ := List.getLast?_eq_some_iff.1 hl
    rw [List.dropLast_concat] at hp ⊢
    refine ⟨info :: gone, List.forall_mem_cons.2 ⟨ho, hg⟩, ?_⟩
    refine List.perm_middle.trans ((hp.cons info).trans ?_)
    refine (List.Perm.cons info ?_).trans List.perm_middle.symm
    rw [← List.append_assoc]
    exact (List.perm_append_singleton last (kept ++ init)).symm
  | case4 kept info lists ho ih =>
    obtain ⟨gone, hg, hp⟩ := ih
    exact ⟨gone, hg, hp.trans List.perm_middle.symm⟩

theorem removeLists_subperm : (removeLists owned [] lists).Subperm lists := by
  obtain ⟨gone, -, hp⟩ := removeLists_perm owned [] lists
  exact (List.sublist_append_left _ gone).subperm.trans hp.subperm

theorem removeLists_filter {p : ListChangeInfo → Bool} (h : ∀ e, owned e = true → p e = false) :
    ((removeLists owned [] lists).filter p).Perm (lists.filter p) := by
  obtain ⟨gone, hg, hp⟩ := removeLists_perm owned [] lists
  have hn : gone.filter p = [] := List.filter_eq_nil_iff.2 fun e he => by
    simp [h e (hg e he)]
  have hf := hp.filter p
  rwa [List.filter_append, hn, List.append_nil] at hf

end RemoveLists

/-! ## The change sets of one list -/

/-- Each change set reaches from where its notifier came in to where the next one did. -/
def Chain (builders : ℕ → CollectionChangeBuilder) (seen : ℕ → List α) (now : List α) :
    List ListChangeInfo → Prop
  | [] => True
  | e :: l => (builders e.changes).Follows (seen e.changes)
      ((l.head?.map fun e => seen e.changes).getD now) ∧ Chain builders seen now l

theorem chain_congr (hb : ∀ e ∈ l, builders e.changes = builders' e.changes)
    (hs : ∀ e ∈ l, seen e.changes = seen' e.changes) (h : Chain builders seen now l) :
    Chain builders' seen' now l := by
  induction l with
  | nil => trivial
  | cons e l ih =>
    rw [List.forall_mem_cons] at hb hs
    refine ⟨?_, ih hb.2 hs.2 h.2⟩
    have hn : (l.head?.map fun e => seen e.changes) = l.head?.map fun e => seen' e.changes := by
      rcases l with _ | ⟨f, l⟩
      · rfl
      · exact congrArg some (hs.2 f List.mem_cons_self)
    rw [← hb.1, ← hs.1, ← hn]
    exact h.1

theorem chain_concat : Chain builders seen now (l ++ [e]) ↔
    Chain builders seen (seen e.changes) l ∧ (builders e.changes).Follows (seen e.changes) now := by
  induction l with
  | nil => simp [Chain]
  | cons f l ih =>
    have hh : ((l ++ [e]).head?.map fun e => seen e.changes).getD now
        = (l.head?.map fun e => seen e.changes).getD (seen e.changes) := by
      cases l <;> rfl
    simp only [List.cons_append, Chain, ih, hh, and_assoc]

/-! ## While the log is read -/

/-- The lists of that id, in the order they came to be followed. -/
def ofId (id : ListId) (l : List ListChangeInfo) : List ListChangeInfo :=
  l.filter fun e => e.id = id

/-- `att` are all lists that came to be followed, those gone with their objects too. -/
structure Inv (att : List ListChangeInfo) (seen : ℕ → List α) (info : TransactionChangeInfo)
    (s : Store α) : Prop where
  pointers : (att.map ListChangeInfo.changes).Nodup
  subperm : info.lists.Subperm att
  lists : ∀ id, s.removed id = false → ofId id info.lists = ofId id att
  gone : ∀ id, s.removed id = true → (ofId id info.lists).length ≤ 1
  chain : ∀ id, s.removed id = false → Chain info.builders seen (s.rows id) (ofId id att)
  fresh : ∀ n ∉ att.map ListChangeInfo.changes, info.builders n = {}

structure ObserverInv (att : List ListChangeInfo) (seen : ℕ → List α) (o : TransactLogObserver)
    (s : Store α) : Prop extends Inv att seen o.info s where
  table : ∀ t, s.currentTable = some t → o.currentTable = t
  active : ∀ id, s.selected = some id → s.removed id = false →
    o.activeList = (ofId id att).getLast?.map ListChangeInfo.changes

/-- No two notifiers follow one list, or no list that is followed goes. -/
def Orderly (att : List ListChangeInfo) (s : Store α) : Prop :=
  (att.map ListChangeInfo.id).Nodup ∨ ∀ e ∈ att, s.removed e.id = false

theorem findList_eq (id : ListId) (l : List ListChangeInfo) :
    findList id l = (ofId id l).getLast?.map ListChangeInfo.changes := by
  rw [findList, ofId, List.getLast?_filter]

theorem mem_ofId : e ∈ ofId id att ↔ e ∈ att ∧ e.id = id := by
  rw [ofId, List.mem_filter, decide_eq_true_eq]

theorem ofId_length_le (h : (att.map ListChangeInfo.id).Nodup) (id : ListId) :
    (ofId id att).length ≤ 1 := by
  have hc := List.nodup_iff_count_le_one.1 h id
  rw [List.count_eq_countP, List.countP_map, List.countP_eq_length_filter] at hc
  refine le_trans (le_of_eq (congrArg List.length (List.filter_congr fun e _ => ?_))) hc
  rw [Bool.eq_iff_iff]
  simp

variable {o : TransactLogObserver} {s s' : Store α} {info : TransactionChangeInfo}
  {i : Instruction α}

theorem Orderly.length_le (h : Orderly att s) (hr : s.removed id = true) :
    (ofId id att).length ≤ 1 := by
  rcases h with h | h
  · exact ofId_length_le h id
  · have hn : ofId id att = [] := List.eq_nil_iff_forall_not_mem.2 fun e he => by
      obtain ⟨hm, rfl⟩ := mem_ofId.1 he
      rw [h e hm] at hr
      cases hr
    rw [hn]
    exact Nat.zero_le 1

theorem eq_of_perm_of_length_le {β : Type*} {l l' : List β} (h : l.Perm l') (hl : l'.length ≤ 1) :
    l = l' := by
  match l' with
  | [] => exact h.eq_nil
  | [x] => exact List.perm_singleton.1 h

@[simp] theorem tellTable_lists (f : ObjectChangeSet → ObjectChangeSet) :
    (o.tellTable f).info.lists = o.info.lists := by
  unfold tellTable
  split <;> rfl

@[simp] theorem tellTable_builders (f : ObjectChangeSet → ObjectChangeSet) :
    (o.tellTable f).info.builders = o.info.builders := by
  unfold tellTable
  split <;> rfl

@[simp] theorem tellTable_currentTable (f : ObjectChangeSet → ObjectChangeSet) :
    (o.tellTable f).currentTable = o.currentTable := by
  unfold tellTable
  split <;> rfl

@[simp] theorem tellTable_activeList (f : ObjectChangeSet → ObjectChangeSet) :
    (o.tellTable f).activeList = o.activeList := by
  unfold tellTable
  split <;> rfl

/-- No list is told of anything, though some may be taken out with their objects. -/
theorem ObserverInv.congr (h : ObserverInv att seen o s) {o' : TransactLogObserver}
    (hl : o'.info.lists.Subperm o.info.lists) (hb : o'.info.builders = o.info.builders)
    (ha : o'.activeList = o.activeList) (ht : ∀ t, s'.currentTable = some t → o'.currentTable = t)
    (hr : s'.rows = s.rows) (hsel : s'.selected = s.selected)
    (hm : ∀ id, s'.removed id = false → s.removed id = false)
    (hof : ∀ id, s'.removed id = false → ofId id o'.info.lists = ofId id o.info.lists)
    (hg : ∀ id, s'.removed id = true → (ofId id o'.info.lists).length ≤ 1) :
    ObserverInv att seen o' s' where
  pointers := h.pointers
  subperm := hl.trans h.subperm
  lists id hid := (hof id hid).trans (h.lists id (hm id hid))
  gone := hg
  chain id hid := by
    rw [hb, hr]
    exact h.chain id (hm id hid)
  fresh n hn := by
    rw [hb]
    exact h.fresh n hn
  table := ht
  active id hs hid := by
    rw [ha]
    exact h.active id (hsel ▸ hs) (hm id hid)

theorem inv_removeObject (h : ObserverInv att seen o s) {t key : ℤ} (ht : s.currentTable = some t)
    (ho : Orderly att (s.removeObject t key)) :
    ∃ o', o.step (.removeObject key : Instruction α) = some o'
      ∧ ObserverInv att seen o' (s.removeObject t key) := by
  have hm : ∀ id, (s.removed id || decide (id.tableKey = t ∧ id.rowKey = key)) = false
      → s.removed id = false := fun id hr => (Bool.or_eq_false_iff.1 hr).1
  simp only [TransactLogObserver.step]
  split_ifs
  · exact ⟨o, rfl, h.congr (.refl _) rfl rfl h.table rfl rfl hm (fun _ _ => rfl)
      fun id hr => (h.subperm.filter _).length_le.trans (ho.length_le hr)⟩
  · refine ⟨_, rfl, ?_⟩
    rw [tellTable_lists, tellTable_currentTable, h.table t ht]
    set owned := fun (info : ListChangeInfo) =>
      decide (info.id.tableKey = t ∧ info.id.rowKey = key) with howned
    have hsub : (removeLists owned [] o.info.lists).Subperm o.info.lists := removeLists_subperm
    have hout : ∀ {id e}, (s.removed id || decide (id.tableKey = t ∧ id.rowKey = key))
        = false → owned e = true → e.id ≠ id := by
      rintro _ e hr hown rfl
      simp only [howned, decide_eq_true_eq] at hown
      simp [hown] at hr
    refine h.congr hsub (tellTable_builders _) (tellTable_activeList _)
      (fun t' ht' => Option.some.inj (ht.symm.trans ht')) rfl rfl hm (fun id hr => ?_) fun id hr =>
        ((hsub.trans h.subperm).filter _).length_le.trans (ho.length_le hr)
    rcases ho with hd | hd
    · refine eq_of_perm_of_length_le
        (removeLists_filter fun e hown => decide_eq_false (hout hr hown)) ?_
      exact h.lists id (hm id hr) ▸ ofId_length_le hd id
    · show ofId id (removeLists owned [] o.info.lists) = _
      rw [removeLists_of_none, List.reverse_nil, List.nil_append]
      intro e he
      by_contra hown
      exact hout (hd e (h.subperm.subset he)) (Bool.not_eq_false _ ▸ hown) rfl

theorem inv_clearTable (h : ObserverInv att seen o s) {t : ℤ} (ht : s.currentTable = some t)
    (oldSize : ℕ) : ∃ o', o.step (.clearTable oldSize : Instruction α) = some o'
      ∧ ObserverInv att seen o' (s.clearTable t) := by
  refine ⟨_, rfl, ?_⟩
  rw [tellTable_lists, tellTable_currentTable, h.table t ht]
  have hof : ∀ id, ofId id (o.info.lists.filter fun e => e.id.tableKey ≠ t)
      = if id.tableKey = t then [] else ofId id o.info.lists := by
    intro id
    rw [ofId, List.filter_filter]
    split_ifs with hid
    · refine List.filter_eq_nil_iff.2 fun e _ he => ?_
      simp only [Bool.and_eq_true, decide_eq_true_eq] at he
      exact he.2 (he.1 ▸ hid)
    · refine List.filter_congr fun e _ => ?_
      rw [Bool.and_eq_left_iff_imp]
      simp only [decide_eq_true_eq]
      rintro rfl
      exact hid
  refine h.congr List.filter_sublist.subperm (tellTable_builders _) (tellTable_activeList _)
    (fun t' ht' => Option.some.inj (ht.symm.trans ht')) rfl rfl
    (fun id hr => (Bool.or_eq_false_iff.1 hr).1) (fun id hr => ?_) fun id hr => ?_
  · have hid := (Bool.or_eq_false_iff.1 hr).2
    exact (hof id).trans (if_neg (decide_eq_false_iff_not.1 hid))
  · show (ofId id (o.info.lists.filter _)).length ≤ 1
    rw [hof]
    split_ifs with hid
    · exact Nat.zero_le 1
    · exact h.gone id (by simpa [clearTable, hid] using hr)

/-- Nothing of the lists is changed, and the list selected stays. -/
theorem ObserverInv.same (h : ObserverInv att seen o s) {o' : TransactLogObserver}
    (hl : o'.info.lists = o.info.lists) (hb : o'.info.builders = o.info.builders)
    (ha : o'.activeList = o.activeList) (ht : ∀ t, s'.currentTable = some t → o'.currentTable = t)
    (hr : s'.rows = s.rows) (hsel : s'.selected = s.selected) (hm : s'.removed = s.removed) :
    ObserverInv att seen o' s' :=
  h.congr (hl ▸ .refl _) hb ha ht hr hsel (fun _ => hm ▸ id) (fun _ _ => by rw [hl])
    fun id hid => by
      rw [hl]
      exact h.gone id (hm ▸ hid)

theorem inv_selectTable (h : ObserverInv att seen o s) (key : ℤ) :
    ∃ o', o.step (.selectTable key : Instruction α) = some o'
      ∧ ObserverInv att seen o' { s with currentTable := some key } := by
  have ht : ∀ t, some key = some t → key = t := fun t => Option.some.inj
  simp only [TransactLogObserver.step]
  split_ifs <;> exact ⟨_, rfl, h.same rfl rfl rfl ht rfl rfl rfl⟩

theorem inv_selectList (h : ObserverInv att seen o s) {t : ℤ} (ht : s.currentTable = some t)
    (col obj : ℤ) : ∃ o', o.step (.selectList col obj : Instruction α) = some o'
      ∧ ObserverInv att seen o' { s with selected := some ⟨t, obj, col⟩ } := by
  set o' := o.tellTable (ObjectChangeSet.modificationsAdd obj col)
  have h' : ObserverInv att seen o' s :=
    h.same (by simp [o']) (by simp [o']) (by simp [o']) (by simpa [o'] using h.table) rfl rfl rfl
  refine ⟨_, rfl, { h' with active := ?_ }⟩
  intro id hsel hr
  obtain rfl := Option.some.inj hsel
  show findList ⟨o'.currentTable, obj, col⟩ o'.info.lists = _
  rw [findList_eq, h'.table t ht, h'.lists _ hr]

/-- Different lists that are followed are told in different change sets. -/
theorem Inv.changes_ne (h : Inv att seen info s) {f : ListChangeInfo} (he : e ∈ att) (hf : f ∈ att)
    (hne : f ≠ e) : f.changes ≠ e.changes := fun hc =>
  hne (List.inj_on_of_nodup_map h.pointers hf he hc)

/-- The change set of the last notifier of the list selected is told. -/
theorem inv_tell {rows : List α} (h : ObserverInv att seen o s) (hsel : s.selected = some id)
    (hr' : s.removed id = false) (hrows : i.apply (s.rows id) = some rows) :
    ∃ o', o.tell i = some o'
      ∧ ObserverInv att seen o' { s with rows := Function.update s.rows id rows } := by
  have hactive := h.active
  have hact := h.active id hsel hr'
  have hchain := h.chain id hr'
  rcases (ofId id att).eq_nil_or_concat' with hnil | ⟨init, e, hcat⟩
  · -- no notifier follows the list
    rw [hnil] at hact
    refine ⟨o, by simp [TransactLogObserver.tell, hact],
      { h with active := hactive, chain := ?_ }⟩
    intro id' hr''
    by_cases hid : id' = id
    · subst hid
      rw [hnil]
      trivial
    · simp only [Function.update_of_ne hid]
      exact h.chain id' hr''
  · rw [hcat] at hact hchain
    rw [List.getLast?_concat, Option.map_some] at hact
    obtain ⟨hinit, hlast⟩ := chain_concat.1 hchain
    obtain ⟨bld', hobs, hfol⟩ := observe_follows hlast hrows
    have he : e ∈ att ∧ e.id = id := mem_ofId.1 (hcat ▸ List.mem_append_right _ List.mem_cons_self)
    refine ⟨{ o with info := { o.info with
      builders := Function.update o.info.builders e.changes bld' } }, ?_, ?_⟩
    · simp only [TransactLogObserver.tell, hact, hobs, Option.map_some]
    · have hnd : (init ++ [e]).Nodup := hcat ▸ (List.Nodup.of_map _ h.pointers).filter _
      refine { h with active := hactive, chain := fun id' hr'' => ?_, fresh := fun n hn => ?_ }
      · by_cases hid : id' = id
        · subst hid
          rw [hcat]
          simp only [Function.update_self]
          refine chain_concat.2 ⟨chain_congr (fun f hf => ?_) (fun _ _ => rfl) hinit, ?_⟩
          · have hfa : f ∈ att := (mem_ofId.1 (hcat ▸ List.mem_append_left _ hf)).1
            have hne : f ≠ e := fun hfe =>
              (List.nodup_append.1 hnd).2.2 f hf e List.mem_cons_self hfe
            rw [Function.update_of_ne (h.changes_ne he.1 hfa hne)]
          · rw [Function.update_self]
            exact hfol
        · simp only [Function.update_of_ne hid]
          refine chain_congr (fun f hf => ?_) (fun _ _ => rfl) (h.chain id' hr'')
          obtain ⟨hfa, hfi⟩ := mem_ofId.1 hf
          have hne : f ≠ e := fun hfe => hid (by rw [← hfi, hfe, he.2])
          rw [Function.update_of_ne (h.changes_ne he.1 hfa hne)]
      · have hne : n ≠ e.changes := fun hc => hn (hc ▸ List.mem_map_of_mem he.1)
        simp only [Function.update_of_ne hne]
        exact h.fresh n hn

theorem inv_step (h : ObserverInv att seen o s) (hs : s.step i = some s') (ho : Orderly att s') :
    ∃ o', o.step i = some o' ∧ ObserverInv att seen o' s' := by
  have htell : ∀ (f : ObjectChangeSet → ObjectChangeSet) t, s.currentTable = some t →
      (o.tellTable f).currentTable = t := fun f t ht => by simpa using h.table t ht
  cases step_cases hs with
  | selectTable key => exact inv_selectTable h key
  | insertColumn | insertGroupLevelTable => exact ⟨_, rfl, h.same rfl rfl rfl h.table rfl rfl rfl⟩
  | createObject | modifyObject =>
    exact ⟨_, rfl, h.same (by simp) (by simp) (by simp) (htell _) rfl rfl rfl⟩
  | removeObject ht => exact inv_removeObject h ht ho
  | clearTable oldSize ht => exact inv_clearTable h ht oldSize
  | selectList col ht => exact inv_selectList h ht col _
  | list ht hsel hr hrows hi =>
    rw [hi o]
    exact inv_tell h hsel hr hrows

/-! ## A log, and the next version -/

theorem Orderly.mono (h : Orderly att s') (hs : ∀ id, s'.removed id = false → s.removed id = false)
    (hl : l.Sublist att) : Orderly l s := by
  rcases h with h | h
  · exact .inl (h.sublist (hl.map _))
  · exact .inr fun e he => hs _ (h e (hl.subset he))

theorem inv_log {log : List (Instruction α)} : ∀ {s : Store α} {o : TransactLogObserver},
    ObserverInv att seen o s → log.foldlM Store.step s = some s' → Orderly att s' →
    ∃ o', log.foldlM TransactLogObserver.step o = some o' ∧ ObserverInv att seen o' s' := by
  induction log with
  | nil =>
    intro s o h hs _
    obtain rfl := Option.some.inj hs
    exact ⟨o, rfl, h⟩
  | cons i log ih =>
    intro s o h hs ho
    rw [List.foldlM_cons] at hs
    obtain ⟨s₁, h1, h2⟩ := Option.bind_eq_some_iff.1 hs
    obtain ⟨o₁, ho₁, hi⟩ := inv_step h h1 (ho.mono (fun _ => removed_foldlM h2) (.refl att))
    obtain ⟨o', ho', hi'⟩ := ih hi h2 ho
    refine ⟨o', ?_, hi'⟩
    rw [List.foldlM_cons, ho₁]
    exact ho'

theorem Chain.map {f : CollectionChangeBuilder → CollectionChangeBuilder}
    (hf : ∀ {b : CollectionChangeBuilder} {old new : List α}, b.Follows old new →
      (f b).Follows old new)
    (hb : ∀ e ∈ l, builders' e.changes = f (builders e.changes))
    (h : Chain builders seen now l) : Chain builders' seen now l := by
  induction l with
  | nil => trivial
  | cons e l ih =>
    rw [List.forall_mem_cons] at hb
    exact ⟨hb.1 ▸ hf h.1, ih hb.2 h.2⟩

theorem inv_advance {log : List (Instruction α)} (h : Inv att seen info s)
    (hs : s.run log = some s') (ho : Orderly att s') :
    ∃ info', info.advance log = some info' ∧ Inv att seen info' s' := by
  have hstart : ObserverInv att seen { info := info }
      { s with currentTable := none, selected := none } :=
    { h with table := nofun, active := nofun }
  obtain ⟨o, hlog, hi⟩ := inv_log hstart hs ho
  refine ⟨parseComplete o.info, by rw [TransactionChangeInfo.advance, hlog]; rfl, ?_⟩
  refine { hi.toInv with chain := fun id hr => ?_, fresh := fun n hn => ?_ }
  · refine (hi.chain id hr).map (f := cleanUpStaleMoves) (fun hb => tracks_cleanUp hb) fun e he => ?_
    rw [← hi.lists id hr] at he
    exact if_pos (List.mem_map_of_mem (mem_ofId.1 he).1)
  · have hm : n ∉ o.info.lists.map ListChangeInfo.changes := fun hm =>
      hn (List.map_subset _ hi.subperm.subset hm)
    exact (if_neg hm).trans (hi.fresh n hn)

theorem ofId_append (id : ListId) (l l' : List ListChangeInfo) :
    ofId id (l ++ l') = ofId id l ++ ofId id l' := List.filter_append ..

theorem ofId_cons (id : ListId) (e : ListChangeInfo) (l : List ListChangeInfo) :
    ofId id (e :: l) = if e.id = id then e :: ofId id l else ofId id l := by
  rw [ofId, List.filter_cons]
  split_ifs <;> simp_all [ofId]

theorem ofId_concat (id : ListId) (l : List ListChangeInfo) (e : ListChangeInfo) :
    ofId id (l ++ [e]) = if e.id = id then ofId id l ++ [e] else ofId id l := by
  rw [ofId_append, ofId_cons]
  split_ifs
  · rfl
  · exact List.append_nil _

theorem inv_follow (h : Inv att seen info s) (hr : s.removed e.id = false)
    (hn : e.changes ∉ att.map ListChangeInfo.changes) :
    Inv (att ++ [e]) (Function.update seen e.changes (s.rows e.id)) (info.addRequired e) s where
  pointers := by
    rw [List.map_append, List.map_singleton, List.nodup_append]
    refine ⟨h.pointers, List.nodup_singleton _, fun n hm n' hn' => ?_⟩
    rw [List.mem_singleton.1 hn']
    exact fun he => hn (he ▸ hm)
  subperm := (List.subperm_append_right [e]).2 h.subperm
  lists id hr' := by
    show ofId id (info.lists ++ [e]) = _
    rw [ofId_concat, ofId_concat, h.lists id hr']
  gone id hr' := by
    have hne : e.id ≠ id := fun he => by
      rw [he, hr'] at hr
      cases hr
    show (ofId id (info.lists ++ [e])).length ≤ 1
    rw [ofId_concat, if_neg hne]
    exact h.gone id hr'
  chain id hr' := by
    have hold : ∀ f ∈ ofId id att, seen f.changes
        = Function.update seen e.changes (s.rows e.id) f.changes := fun f hf => by
      rw [Function.update_of_ne]
      exact fun hc => hn (hc ▸ List.mem_map_of_mem (mem_ofId.1 hf).1)
    have hc := chain_congr (fun _ _ => rfl) hold (h.chain id hr')
    rw [ofId_concat]
    split_ifs with he
    · subst he
      refine chain_concat.2 ⟨?_, ?_⟩
      · rw [Function.update_self]
        exact hc
      · show (info.builders e.changes).Follows _ _
        rw [Function.update_self, h.fresh _ hn]
        exact Tracks.refl _
    · exact hc
  fresh n hm := h.fresh n fun hm' => hm (by rw [List.map_append]; exact List.mem_append_left _ hm')

/-! ## Events -/

open TransactionChangeInfo (Event)

/-- The lists that come to be followed. -/
def followed (events : List (Event α)) : List ListChangeInfo :=
  events.filterMap fun
    | .follow list => some list
    | .advance _ => none

theorem removed_handle {ev : Event α} {t t' : Store α × (ℕ → List α)}
    (h : Store.handle t ev = some t') (hr : t'.1.removed id = false) : t.1.removed id = false := by
  cases ev with
  | follow list =>
    unfold Store.handle at h
    simp only [] at h
    split_ifs at h
    obtain rfl := Option.some.inj h
    exact hr
  | advance log =>
    obtain ⟨s', hs, rfl⟩ := Option.map_eq_some_iff.1 h
    exact removed_foldlM (s := { t.1 with currentTable := none, selected := none }) hs hr

theorem removed_events {events : List (Event α)} : ∀ {t t' : Store α × (ℕ → List α)},
    events.foldlM Store.handle t = some t' → t'.1.removed id = false →
    t.1.removed id = false := by
  induction events with
  | nil =>
    intro t t' ht hr
    obtain rfl := Option.some.inj ht
    exact hr
  | cons ev events ih =>
    intro t t' ht hr
    rw [List.foldlM_cons] at ht
    obtain ⟨t₁, h1, h2⟩ := Option.bind_eq_some_iff.1 ht
    exact removed_handle h1 (ih h2 hr)

theorem inv_events {events : List (Event α)} : ∀ {att : List ListChangeInfo}
    {t t' : Store α × (ℕ → List α)} {info : TransactionChangeInfo}, Inv att t.2 info t.1 →
    events.foldlM Store.handle t = some t' →
    ((att ++ followed events).map ListChangeInfo.changes).Nodup →
    Orderly (att ++ followed events) t'.1 →
    ∃ info', events.foldlM TransactionChangeInfo.handle info = some info'
      ∧ Inv (att ++ followed events) t'.2 info' t'.1 := by
  induction events with
  | nil =>
    intro att t t' info h ht _ _
    obtain rfl := Option.some.inj ht
    exact ⟨info, rfl, by simpa [followed] using h⟩
  | cons ev events ih =>
    intro att t t' info h ht hnd ho
    rw [List.foldlM_cons] at ht
    obtain ⟨t₁, h1, h2⟩ := Option.bind_eq_some_iff.1 ht
    cases ev with
    | follow list =>
      have hf : followed (.follow list :: events) = list :: followed events := rfl
      rw [hf, List.append_cons] at hnd ho ⊢
      unfold Store.handle at h1
      simp only [] at h1
      split_ifs at h1 with hr
      obtain rfl := Option.some.inj h1
      have hn : list.changes ∉ att.map ListChangeInfo.changes := by
        rw [List.map_append, List.map_append, List.nodup_append, List.nodup_append] at hnd
        exact fun hm => hnd.1.2.2 _ hm _ (by simp) rfl
      exact ih (inv_follow h (by simpa using hr) hn) h2 hnd ho
    | advance log =>
      have hf : followed (.advance log :: events) = followed events := rfl
      rw [hf] at hnd ho ⊢
      obtain ⟨s', hs, rfl⟩ := Option.map_eq_some_iff.1 h1
      obtain ⟨info', hi, hinv⟩ := inv_advance h hs
        (ho.mono (fun _ => removed_events h2) (List.sublist_append_left att _))
      set next : TransactionChangeInfo := {
        lists := info'.lists
        builders := info'.builders
        tables := fun t => (info'.tables t).map fun _ => {} }
      have hnext : Inv att t.2 next s' := { hinv with }
      obtain ⟨info'', hi', hinv'⟩ := ih hnext h2 hnd ho
      refine ⟨info'', ?_, hinv'⟩
      rw [List.foldlM_cons]
      show (info.advanceIncremental log).bind _ = _
      rw [TransactionChangeInfo.advanceIncremental, hi]
      exact hi'

/-! ## The last version -/

theorem merge_follows {bld chg : CollectionChangeBuilder} {a b c : List α}
    (hlen : a.length < 2 * ChunkedRangeVector.maxSize) (h : bld.Follows a b)
    (h' : chg.Follows b c) : ∃ r, bld.merge chg = some r ∧ r.Follows a c := by
  obtain ⟨r, hr⟩ := exists_merge hlen h h'
  exact ⟨r, hr, (tracks_merge none subset_rfl subset_rfl h h' hr).2⟩

/-- One change set is merged into those of the same list before it, and no other is touched. -/
theorem mergeInto_spec {next : List α} : ∀ {before : List ListChangeInfo}
    (builders : ℕ → CollectionChangeBuilder), (before.map ListChangeInfo.changes).Nodup →
    e.changes ∉ before.map ListChangeInfo.changes →
    (∀ f ∈ before, (seen f.changes).length < 2 * ChunkedRangeVector.maxSize) →
    (∀ f ∈ before, f.id = e.id → (builders f.changes).Follows (seen f.changes) (seen e.changes)
      ∧ (builders e.changes).Follows (seen e.changes) next) →
    ∃ builders', before.foldlM (TransactionChangeInfo.mergeInto e) builders = some builders'
      ∧ (∀ n, (∀ f ∈ before, f.id = e.id → n ≠ f.changes) → builders' n = builders n)
      ∧ ∀ f ∈ before, f.id = e.id → (builders' f.changes).Follows (seen f.changes) next
  | [], builders, _, _, _, _ => ⟨builders, rfl, fun _ _ => rfl, by simp⟩
  | f :: before, builders, hnd, he, hlen, hf => by
    rw [List.map_cons, List.nodup_cons] at hnd
    rw [List.map_cons, List.mem_cons, not_or] at he
    rw [List.forall_mem_cons] at hlen hf
    have hrest : ∀ g ∈ before, g.changes ≠ f.changes := fun g hg hc =>
      hnd.1 (hc ▸ List.mem_map_of_mem hg)
    by_cases hid : f.id = e.id
    · obtain ⟨h1, h2⟩ := hf.1 hid
      obtain ⟨r, hr, hrf⟩ := merge_follows hlen.1 h1 h2
      have hstep : TransactionChangeInfo.mergeInto e builders f
          = some (Function.update builders f.changes r) := by
        rw [TransactionChangeInfo.mergeInto, if_pos hid.symm, hr]
        rfl
      obtain ⟨b', hb', hsame, hfol⟩ := mergeInto_spec (Function.update builders f.changes r)
        hnd.2 he.2 hlen.2 fun g hg hgid => by
          rw [Function.update_of_ne (hrest g hg), Function.update_of_ne he.1]
          exact hf.2 g hg hgid
      refine ⟨b', ?_, fun n hn => ?_, ?_⟩
      · rw [List.foldlM_cons, hstep]
        exact hb'
      · rw [List.forall_mem_cons] at hn
        rw [hsame n hn.2, Function.update_of_ne (hn.1 hid)]
      · refine List.forall_mem_cons.2 ⟨fun _ => ?_, hfol⟩
        rw [hsame f.changes fun g hg _ => (hrest g hg).symm, Function.update_self]
        exact hrf
    · have hstep : TransactionChangeInfo.mergeInto e builders f = some builders := by
        rw [TransactionChangeInfo.mergeInto, if_neg (Ne.symm hid)]
      obtain ⟨b', hb', hsame, hfol⟩ := mergeInto_spec builders hnd.2 he.2 hlen.2 hf.2
      refine ⟨b', ?_, fun n hn => hsame n (List.forall_mem_cons.1 hn).2,
        List.forall_mem_cons.2 ⟨fun hc => (hid hc).elim, hfol⟩⟩
      rw [List.foldlM_cons, hstep]
      exact hb'

/-- Half way through the merge: the change sets before are brought up to the next of their list,
or to the last version; those from here on are as they were. -/
structure Merging (s : Store α) (seen : ℕ → List α) (before lists : List ListChangeInfo)
    (builders : ℕ → CollectionChangeBuilder) : Prop where
  distinct : ((before.reverse ++ lists).map ListChangeInfo.changes).Nodup
  few : ∀ e ∈ before.reverse ++ lists, (seen e.changes).length < 2 * ChunkedRangeVector.maxSize
  gone : ∀ id, s.removed id = true → (ofId id (before.reverse ++ lists)).length ≤ 1
  brought : ∀ id, s.removed id = false → ∀ e ∈ ofId id before,
    (builders e.changes).Follows (seen e.changes)
      (((ofId id lists).head?.map fun e => seen e.changes).getD (s.rows id))
  chain : ∀ id, s.removed id = false → Chain builders seen (s.rows id) (ofId id lists)

namespace Merging

variable {before lists : List ListChangeInfo} {builders builders' : ℕ → CollectionChangeBuilder}
  {f g : ListChangeInfo} (h : Merging s seen before (e :: lists) builders)

include h

theorem nodup_before : (before.map ListChangeInfo.changes).Nodup := by
  have hd := h.distinct
  rw [List.map_append, List.map_reverse] at hd
  exact List.nodup_reverse.1 (List.nodup_append.1 hd).1

theorem changes_ne (hf : f ∈ before) (hg : g ∈ e :: lists) : f.changes ≠ g.changes := by
  have hd := h.distinct
  rw [List.map_append, List.map_reverse] at hd
  exact (List.nodup_append.1 hd).2.2 _ (List.mem_reverse.2 (List.mem_map_of_mem hf)) _
    (List.mem_map_of_mem hg)

/-- What is merged starts where the change set it is merged into ends: of a list that is gone
there is one notifier at most. -/
theorem follows (hf : f ∈ before) (hid : f.id = e.id) :
    (builders f.changes).Follows (seen f.changes) (seen e.changes)
      ∧ (builders e.changes).Follows (seen e.changes)
        (((ofId e.id lists).head?.map fun e => seen e.changes).getD (s.rows e.id)) := by
  rcases hr : s.removed e.id with _ | _
  · have h1 := h.brought e.id hr f (mem_ofId.2 ⟨hf, hid⟩)
    have h2 := h.chain e.id hr
    rw [ofId_cons, if_pos rfl] at h1 h2
    exact ⟨h1, h2.1⟩
  · have hlen := h.gone e.id hr
    rw [ofId_append, ofId_cons, if_pos rfl, List.length_append, List.length_cons] at hlen
    have hpos : 0 < (ofId e.id before.reverse).length :=
      List.length_pos_of_mem (mem_ofId.2 ⟨List.mem_reverse.2 hf, hid⟩)
    omega

/-- What the merge of one change set does to the others. -/
theorem next (hsame : ∀ n, (∀ f ∈ before, f.id = e.id → n ≠ f.changes) → builders' n = builders n)
    (hfol : ∀ f ∈ before, f.id = e.id → (builders' f.changes).Follows (seen f.changes)
      (((ofId e.id lists).head?.map fun e => seen e.changes).getD (s.rows e.id))) :
    Merging s seen (e :: before) lists builders' := by
  have hrev : (e :: before).reverse ++ lists = before.reverse ++ e :: lists := by simp
  refine ⟨hrev ▸ h.distinct, hrev ▸ h.few, hrev ▸ h.gone, fun id hr g hg => ?_, fun id hr => ?_⟩
  · obtain ⟨hgm, rfl⟩ := mem_ofId.1 hg
    rcases List.mem_cons.1 hgm with rfl | hgb
    · have h2 := h.chain g.id hr
      rw [ofId_cons, if_pos rfl] at h2
      rw [hsame _ fun f hf _ => (h.changes_ne hf List.mem_cons_self).symm]
      exact h2.1
    · by_cases hid : g.id = e.id
      · rw [hid]
        exact hfol g hgb hid
      · have h1 := h.brought g.id hr g (mem_ofId.2 ⟨hgb, rfl⟩)
        rw [ofId_cons, if_neg (Ne.symm hid)] at h1
        rw [hsame _ fun f hf hfid hcg => ?_]
        · exact h1
        · refine hid ?_
          rw [List.inj_on_of_nodup_map h.nodup_before hgb hf hcg, hfid]
  · have h2 := h.chain id hr
    have ht : Chain builders seen (s.rows id) (ofId id lists) := by
      rw [ofId_cons] at h2
      split_ifs at h2
      · exact h2.2
      · exact h2
    refine chain_congr (fun g hg => ?_) (fun _ _ => rfl) ht
    have hgl := List.mem_cons_of_mem e (mem_ofId.1 hg).1
    exact (hsame _ fun f hf _ => (h.changes_ne hf hgl).symm).symm

theorem step : ∃ builders', before.foldlM (TransactionChangeInfo.mergeInto e) builders
    = some builders' ∧ Merging s seen (e :: before) lists builders' := by
  obtain ⟨b', hmerge, hsame, hfol⟩ := mergeInto_spec builders h.nodup_before
    (fun hm => by
      obtain ⟨f, hf, hfe⟩ := List.mem_map.1 hm
      exact h.changes_ne hf List.mem_cons_self hfe)
    (fun f hf => h.few f (List.mem_append_left _ (List.mem_reverse.2 hf))) fun f => h.follows
  exact ⟨b', hmerge, h.next hsame hfol⟩

end Merging

theorem inv_mergeLists {lists : List ListChangeInfo} : ∀ {before : List ListChangeInfo}
    {builders : ℕ → CollectionChangeBuilder}, Merging s seen before lists builders →
    ∃ builders', TransactionChangeInfo.mergeLists before lists builders = some builders' ∧
      ∀ id, s.removed id = false → ∀ e ∈ ofId id (before.reverse ++ lists),
        (builders' e.changes).Follows (seen e.changes) (s.rows id) := by
  induction lists with
  | nil =>
    intro before builders h
    refine ⟨builders, rfl, fun id hr e he => ?_⟩
    rw [List.append_nil, mem_ofId, List.mem_reverse, ← mem_ofId] at he
    exact h.brought id hr e he
  | cons e lists ih =>
    intro before builders h
    obtain ⟨b', hmerge, hnext⟩ := h.step
    obtain ⟨b'', hfin, hall⟩ := ih hnext
    rw [List.reverse_cons, List.append_assoc] at hall
    exact ⟨b'', by rw [TransactionChangeInfo.mergeLists, hmerge]; exact hfin, hall⟩

/-- A list of two rows. -/
def twoRows : Store Char where
  objects _ _ := some fun _ => 'a'
  rows _ := ['a', 'b']

/-- A notifier follows the list, a row is put in, and another notifier follows it. -/
def followedTwice : List (Event Char) :=
  [.follow ⟨⟨1, 5, 2⟩, 0⟩, .advance [.selectTable 1, .selectList 2 5, .listInsert 0 'c'],
    .follow ⟨⟨1, 5, 2⟩, 1⟩]

end IosLearning
