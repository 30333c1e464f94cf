import IosLearning.Base.Machine
import IosLearning.CollectionNotifier
import IosLearning.Proofs.CollectionMerge

/-!
# No change is lost on the way to a callback

The worker finds changes and hands them over, the other thread adds and removes callbacks, packages
and delivers, in any order. What a callback is told takes the rows it knew to those packaged, and
what is gathered for it takes these to the rows handed over last (`Inv`); so a callback that is to
be told nothing more knows the rows as they are (`nothing_lost`).
-/

namespace IosLearning

open CollectionNotifier

/-- The notifier with the rows as handed over last and the rows found since, if any; `blind` if the
changes to these were not found. Of each callback, by its token, the rows it was told of and those
that are packaged for it. -/
structure Delivery (α : Type*) where
  notifier : CollectionNotifier := {}
  rows : List α
  pending : Option (List α) := none
  blind : Bool := false
  packaged : ℕ → Option (List α) := fun _ => none
  known : ℕ → Option (List α) := fun _ => none

/-- What the threads do, in any order; `beforeAdvance` and `afterAdvance` are a round of their
loops. -/
inductive DeliveryEvent (α : Type*)
  | addCallback
  | removeCallback (token : ℕ)
  | suppressNextNotification (token : ℕ)
  | run (change : CollectionChangeBuilder) (next : List α)
  | runBlind (next : List α)
  | prepareHandover
  | packageForDelivery
  | beforeAdvance
  | afterAdvance

namespace Delivery

variable {α : Type*}

/-- A callback that skips the changes knows the rows all the same. -/
def spared (callbacks : List Callback) (rows : List α) (f : ℕ → Option (List α)) (token : ℕ) :
    Option (List α) :=
  if callbacks.any fun c => c.token = token ∧ c.skipNext then (f token).map fun _ => rows
  else f token

/-- The callback that is called next knows what was packaged. -/
def told (d : Delivery α) (token : ℕ) : Option (List α) :=
  if d.notifier.callbackIndex < d.notifier.callbackCount ∧
      d.notifier.callbacks[d.notifier.callbackIndex]?.any fun c => c.token = token ∧ called c then
    d.packaged token
  else d.known token

def handle (d : Delivery α) : DeliveryEvent α → Option (Delivery α)
  | .addCallback => some { d with notifier := d.notifier.addCallback }
  | .removeCallback token =>
    (d.notifier.removeCallback token).map fun n => { d with notifier := n }
  | .suppressNextNotification token =>
    (d.notifier.suppressNextNotification token).map fun n => { d with notifier := n }
  | .run change next => some { d with
      notifier := { d.notifier with change := change }
      pending := some next
      blind := false }
  | .runBlind next => some { d with pending := some next, blind := true }
  | .prepareHandover => d.notifier.prepareHandover.map fun n =>
      let rows := d.pending.getD d.rows
      { notifier := n
        rows := rows
        packaged := spared d.notifier.callbacks rows d.packaged
        known := spared d.notifier.callbacks rows d.known }
  | .packageForDelivery => some { d with
      notifier := d.notifier.packageForDelivery
      packaged := fun token =>
        if d.notifier.callbacks.any fun c => c.token = token then some d.rows
        else d.packaged token }
  | .beforeAdvance => d.notifier.beforeAdvance.map fun n => { d with notifier := n }
  | .afterAdvance => d.notifier.afterAdvance.map fun n =>
      { d with notifier := n, known := d.told }

/-- What is found is handed over before more is, only a notifier without callbacks or that has not
run yet does not find the changes, and only one that has run is packaged. -/
def enabled (d : Delivery α) : DeliveryEvent α → Bool
  | .run _ _ => d.pending.isNone
  | .runBlind _ => d.pending.isNone && (d.notifier.callbacks.isEmpty || !d.notifier.hasRun)
  | .packageForDelivery => d.notifier.hasRun
  | _ => true

def machine (rows : List α) : Machine (Delivery α) (DeliveryEvent α) where
  start := some { rows := rows }
  enabled := enabled
  handle := handle

/-- The changes a run finds are those from the rows handed over last to the ones found. -/
def Sound (d : Delivery α) : DeliveryEvent α → Prop
  | .run change next => Tracks (change.edit change.modifications) change.moves d.rows next
  | _ => True

/-- Nothing is packaged while something packaged before is undelivered, nor between a run that did
not find the changes and its handover; and nothing is undelivered of a callback that skips. -/
def Orderly (d : Delivery α) : DeliveryEvent α → Prop
  | .packageForDelivery => (∀ c ∈ d.notifier.callbacks, c.changesToDeliver.isEmpty = true) ∧
      (d.blind = true → d.notifier.callbacks = [])
  | .prepareHandover => ∀ c ∈ d.notifier.callbacks, c.skipNext = true →
      c.changesToDeliver.isEmpty = true
  | _ => True

/-! ## What holds of each callback -/

variable {d : Delivery α} {c : Callback} {old new : List α} {b : CollectionChangeBuilder}

/-- What a change set says that is delivered. -/
def toldEdit (e : CollectionChangeSet) : Edit :=
  ⟨e.deletions.toFinset, e.insertions.toFinset, e.modificationsNew.toFinset⟩

theorem takes_finalize (h : Tracks (b.edit b.modifications) b.moves old new) :
    (toldEdit b.finalize).Takes old new where
  deletions := h.takes.deletions
  insertions := h.takes.insertions
  length := h.takes.length
  kept i hi hm := by
    refine h.takes.kept i hi fun hmem => hm ?_
    have hins := (b.edit b.modifications).forward_notMem i
    change _ ∈ (b.modifications.removeAll b.insertions).toFinset
    rw [IndexSet.toFinset_removeAll]
    exact Finset.mem_sdiff.2 ⟨hmem, hins⟩

/-- The modifications told in indices of the old rows are those told in indices of the new ones:
the same rows, as many, and neither deleted nor inserted; and a row that is not among them nor
deleted is the same where the edit brings it. -/
theorem finalize_tells (h : Tracks (b.edit b.modifications) b.moves old new) :
    (toldEdit b.finalize).Takes old new ∧
    (∀ i, i ∈ b.finalize.modifications.toFinset ↔ i ∉ b.finalize.deletions.toFinset ∧
      (toldEdit b.finalize).forward i ∈ b.finalize.modificationsNew.toFinset) ∧
    b.finalize.modifications.size = b.finalize.modificationsNew.size ∧
    Disjoint b.finalize.modificationsNew.toFinset b.finalize.insertions.toFinset ∧
    ∀ i ∉ b.finalize.deletions.toFinset, i ∉ b.finalize.modifications.toFinset →
      old[i]? = new[(toldEdit b.finalize).forward i]? := by
  have htakes := takes_finalize h
  have hnew : Disjoint b.finalize.modificationsNew.toFinset b.finalize.insertions.toFinset := by
    change Disjoint (b.modifications.removeAll b.insertions).toFinset b.insertions.toFinset
    rw [IndexSet.toFinset_removeAll]
    exact Finset.sdiff_disjoint
  have hmem : ∀ i, i ∈ b.finalize.modifications.toFinset ↔ i ∉ b.finalize.deletions.toFinset ∧
      (toldEdit b.finalize).forward i ∈ b.finalize.modificationsNew.toFinset := fun i => by
    have hins := (toldEdit b.finalize).forward_notMem i
    change i ∈ ((b.modifications.eraseAtAll b.insertions).shiftForInsertAtAll
      b.deletions).toFinset ↔ i ∉ b.deletions.toFinset ∧
        _ ∈ (b.modifications.removeAll b.insertions).toFinset
    rw [IndexSet.toFinset_shiftForInsertAtAll, IndexSet.toFinset_eraseAtAll,
      IndexSet.toFinset_removeAll, mem_spread, mem_close, Finset.mem_sdiff]
    exact and_congr_right fun _ => (and_iff_left hins).symm
  refine ⟨htakes, hmem, ?_, hnew, fun i hi hm => htakes.kept i hi fun hf => hm ?_⟩
  · rw [IndexSet.size_eq, IndexSet.size_eq]
    refine Finset.card_bij (fun i _ => (toldEdit b.finalize).forward i)
      (fun i hi => ((hmem i).1 hi).2) (fun i hi i' hi' he => ?_) fun j hj => ?_
    · rw [Edit.forward_eq_iff ((hmem i).1 hi).1 (Edit.forward_notMem _ _)] at he
      rw [he, Edit.backward_forward ((hmem i').1 hi').1]
    · have hins := Finset.disjoint_left.1 hnew hj
      refine ⟨(toldEdit b.finalize).backward j, (hmem _).2
        ⟨(toldEdit b.finalize).backward_notMem j, ?_⟩, Edit.forward_backward hins⟩
      rw [Edit.forward_backward hins]
      exact hj
  · exact (hmem i).2 ⟨hi, hf⟩

/-- The second row modified, and the first erased. -/
def modifiedThenErased : CollectionChangeBuilder :=
  CollectionChangeBuilder.erase 0 (CollectionChangeBuilder.modify 1 none {})

theorem finalize_tells_erased :
    (toldEdit modifiedThenErased.finalize).Takes ['a', 'b'] ['x'] ∧
      modifiedThenErased.finalize.modifications.size
        = modifiedThenErased.finalize.modificationsNew.size := by
  have hstart : Tracks (CollectionChangeBuilder.edit {} ∅) (CollectionChangeSet.moves {})
      ['a', 'b'] ['a', 'b'] := .refl _
  have hmodify : Tracks (CollectionChangeBuilder.edit (CollectionChangeBuilder.modify 1 none {})
      ((∅ : IndexSet).add 1)) (CollectionChangeBuilder.modify 1 none {}).moves
      ['a', 'b'] ['a', 'x'] := CollectionChangeBuilder.tracks_modify hstart none
  have hzero : 0 < ['a', 'x'].length := by decide
  have herase : Tracks (modifiedThenErased.edit modifiedThenErased.modifications)
      modifiedThenErased.moves ['a', 'b'] ['x'] := CollectionChangeBuilder.tracks_erase hmodify hzero
  obtain ⟨htakes, -, hsize, -⟩ := finalize_tells herase
  exact ⟨htakes, hsize⟩

theorem takes_of_isEmpty {e : CollectionChangeSet} (he : e.isEmpty = true) (rows : List α) :
    (toldEdit e).Takes rows rows := by
  simp only [CollectionChangeSet.isEmpty, Bool.and_eq_true, IndexSet.isEmpty_iff_toFinset] at he
  obtain ⟨⟨⟨⟨hd, hi⟩, -⟩, hm⟩, -⟩ := he
  rw [toldEdit, hd, hi, hm]
  exact .refl rows

theorem tracks_of_isEmpty (he : b.isEmpty = true) (rows : List α) :
    Tracks (b.edit b.modifications) b.moves rows rows := by
  simp only [CollectionChangeSet.isEmpty, Bool.and_eq_true, IndexSet.isEmpty_iff_toFinset,
    List.isEmpty_iff] at he
  obtain ⟨⟨⟨⟨hd, hi⟩, hm⟩, -⟩, hmoves⟩ := he
  rw [CollectionChangeBuilder.edit, hd, hi, hm, hmoves]
  exact .refl rows

/-- The changes gathered go on from the rows packaged, those to deliver lead to them. -/
structure Served (d : Delivery α) (c : Callback) : Prop where
  gathered : ∃ mid, Tracks (c.accumulatedChanges.edit c.accumulatedChanges.modifications)
    c.accumulatedChanges.moves mid d.rows ∧ ∀ p, d.packaged c.token = some p → p = mid
  told : ∀ k, d.known c.token = some k →
    ∃ p, d.packaged c.token = some p ∧ (toldEdit c.changesToDeliver).Takes k p

/-- Nothing was gathered or packaged yet. -/
def Unserved (d : Delivery α) (c : Callback) : Prop :=
  c.accumulatedChanges = {} ∧ d.packaged c.token = none

/-- The change set found leads to the rows found; or none was found and there is no callback that
would miss it. -/
def Found (d : Delivery α) : Prop :=
  (d.blind = false ∧ Tracks (d.notifier.change.edit d.notifier.change.modifications)
    d.notifier.change.moves d.rows (d.pending.getD d.rows)) ∨
  (d.blind = true ∧ d.notifier.change = {} ∧ ∀ c ∈ d.notifier.callbacks, Unserved d c)

structure Inv (d : Delivery α) : Prop where
  nodup : (d.notifier.callbacks.map Callback.token).Nodup
  lt : ∀ c ∈ d.notifier.callbacks, c.token < d.notifier.nextToken
  unknown : ∀ token, d.notifier.nextToken ≤ token →
    d.packaged token = none ∧ d.known token = none
  served : ∀ c ∈ d.notifier.callbacks, Served d c
  found : Found d
  none_found : d.pending = none → d.notifier.change = {} ∧ d.blind = false
  first : d.notifier.hasRun = false → ∀ c ∈ d.notifier.callbacks, Unserved d c

theorem inv_start (rows : List α) : Inv ({ rows := rows } : Delivery α) where
  nodup := .nil
  lt := by simp
  unknown _ _ := ⟨rfl, rfl⟩
  served := by simp
  found := .inl ⟨rfl, .refl rows⟩
  none_found _ := ⟨rfl, rfl⟩
  first := by simp

/-! ## Callbacks added, removed and told to skip -/

/-- The callbacks are some of those before, with the same changes. -/
structure Among (callbacks before : List Callback) : Prop where
  sublist : (callbacks.map Callback.token).Sublist (before.map Callback.token)
  same : ∀ c ∈ callbacks, ∃ c' ∈ before, c'.token = c.token ∧
    c'.accumulatedChanges = c.accumulatedChanges ∧ c'.changesToDeliver = c.changesToDeliver

theorem Served.congr {d' : Delivery α} {c' : Callback} (h : Served d c) (hr : d'.rows = d.rows)
    (hp : d'.packaged = d.packaged) (hk : d'.known = d.known) (ht : c.token = c'.token)
    (ha : c.accumulatedChanges = c'.accumulatedChanges)
    (hd : c.changesToDeliver = c'.changesToDeliver) : Served d' c' := by
  obtain ⟨h1, h2⟩ := h
  rw [ha, ht, ← hr, ← hp] at h1
  rw [ht, hd, ← hp, ← hk] at h2
  exact ⟨h1, h2⟩

theorem Inv.among {n : CollectionNotifier} (h : Inv d)
    (ha : Among n.callbacks d.notifier.callbacks) (hc : n.change = d.notifier.change)
    (hr : n.hasRun = d.notifier.hasRun) (hn : n.nextToken = d.notifier.nextToken) :
    Inv { d with notifier := n } := by
  have hun : ∀ c ∈ n.callbacks, (∀ c ∈ d.notifier.callbacks, Unserved d c) →
      Unserved { d with notifier := n } c := fun c hmem hall => by
    obtain ⟨c', hmem', ht, hacc, -⟩ := ha.same c hmem
    have := hall c' hmem'
    rwa [Unserved, ht, hacc] at this
  refine ⟨h.nodup.sublist ha.sublist, fun c hmem => ?_, fun t ht => ?_, fun c hmem => ?_, ?_,
    fun hp => ?_, fun hf c hmem => ?_⟩
  · obtain ⟨c', hmem', ht, -⟩ := ha.same c hmem
    have := h.lt c' hmem'
    rwa [ht, ← hn] at this
  · exact h.unknown t (hn ▸ ht)
  · obtain ⟨c', hmem', ht, hacc, hdel⟩ := ha.same c hmem
    exact (h.served c' hmem').congr rfl rfl rfl ht hacc hdel
  · obtain ⟨hb, ht⟩ | ⟨hb, he, hu⟩ := h.found
    · refine .inl ⟨hb, ?_⟩
      dsimp only
      rwa [hc]
    · exact .inr ⟨hb, hc.trans he, fun c hmem => hun c hmem hu⟩
  · exact ⟨hc.trans (h.none_found hp).1, (h.none_found hp).2⟩
  · exact hun c hmem (h.first (hr ▸ hf))

theorem Among.refl (callbacks : List Callback) : Among callbacks callbacks :=
  ⟨.refl _, fun c hc => ⟨c, hc, rfl, rfl, rfl⟩⟩

theorem inv_addCallback (h : Inv d) : Inv { d with notifier := d.notifier.addCallback } := by
  obtain ⟨hp, hk⟩ := h.unknown d.notifier.nextToken le_rfl
  have hnew : Unserved d { token := d.notifier.nextToken } := ⟨rfl, hp⟩
  have hmem : ∀ c, c ∈ d.notifier.callbacks ++ [{ token := d.notifier.nextToken }] →
      c ∈ d.notifier.callbacks ∨ c = { token := d.notifier.nextToken } := fun c hc => by
    rwa [List.mem_append, List.mem_singleton] at hc
  refine ⟨?_, fun c hc => ?_, fun t ht => ?_, fun c hc => ?_, ?_, h.none_found, fun hf c hc => ?_⟩
  · change ((d.notifier.callbacks ++ [({ token := d.notifier.nextToken } : Callback)]).map
      Callback.token).Nodup
    rw [List.map_append, List.map_singleton, List.nodup_append']
    refine ⟨h.nodup, List.nodup_singleton _, fun t ht hnew => ?_⟩
    obtain ⟨c, hc, rfl⟩ := List.mem_map.1 ht
    exact (h.lt c hc).ne (List.mem_singleton.1 hnew)
  · change c.token < d.notifier.nextToken + 1
    obtain hc | rfl := hmem c hc
    · exact (h.lt c hc).trans (Nat.lt_succ_self _)
    · exact Nat.lt_succ_self _
  · exact h.unknown t ((Nat.le_succ _).trans ht)
  · obtain hc | rfl := hmem c hc
    · exact (h.served c hc).congr rfl rfl rfl rfl rfl rfl
    · refine ⟨⟨d.rows, .refl d.rows, fun p hpk => ?_⟩, fun k hkk => ?_⟩
      · exact absurd (hp.symm.trans hpk) (Option.some_ne_none p).symm
      · exact absurd (hk.symm.trans hkk) (Option.some_ne_none k).symm
  · obtain hf | ⟨hb, he, hu⟩ := h.found
    · exact .inl hf
    · refine .inr ⟨hb, he, fun c hc => ?_⟩
      obtain hc | rfl := hmem c hc
      · exact hu c hc
      · exact hnew
  · obtain hc | rfl := hmem c hc
    · exact h.first hf c hc
    · exact hnew

theorem among_removeCallback {n n' : CollectionNotifier} {token : ℕ}
    (h : n.removeCallback token = some n') : Among n'.callbacks n.callbacks ∧
      n'.change = n.change ∧ n'.hasRun = n.hasRun ∧ n'.nextToken = n.nextToken := by
  obtain ⟨idx, -, rfl⟩ := Option.map_eq_some_iff.1 h
  refine ⟨⟨(List.eraseIdx_sublist _ _).map _, fun c hc => ?_⟩, rfl, rfl, rfl⟩
  exact ⟨c, (List.eraseIdx_sublist _ _).subset hc, rfl, rfl, rfl⟩

theorem among_suppress {n n' : CollectionNotifier} {token : ℕ}
    (h : n.suppressNextNotification token = some n') : Among n'.callbacks n.callbacks ∧
      n'.change = n.change ∧ n'.hasRun = n.hasRun ∧ n'.nextToken = n.nextToken := by
  obtain ⟨idx, -, rfl⟩ := Option.map_eq_some_iff.1 h
  have hmap : (n.callbacks.modify idx fun c => { c with skipNext := true }).map Callback.token
      = n.callbacks.map Callback.token := by
    refine List.ext_getElem? fun i => ?_
    rw [List.getElem?_map, List.getElem?_map, List.getElem?_modify]
    cases n.callbacks[i]? <;> split_ifs <;> rfl
  refine ⟨⟨hmap ▸ .refl _, fun c hc => ?_⟩, rfl, rfl, rfl⟩
  obtain ⟨i, hi⟩ := List.mem_iff_getElem?.1 hc
  rw [List.getElem?_modify] at hi
  obtain ⟨c', hc', rfl⟩ := Option.map_eq_some_iff.1 hi
  refine ⟨c', List.mem_of_getElem? hc', ?_⟩
  split_ifs <;> exact ⟨rfl, rfl, rfl⟩

/-! ## Changes found, handed over and packaged -/

theorem inv_run {change : CollectionChangeBuilder} {next : List α} (h : Inv d)
    (hs : Tracks (change.edit change.modifications) change.moves d.rows next) :
    Inv { d with
      notifier := { d.notifier with change := change }
      pending := some next
      blind := false } where
  nodup := h.nodup
  lt := h.lt
  unknown := h.unknown
  served c hc := (h.served c hc).congr rfl rfl rfl rfl rfl rfl
  found := .inl ⟨rfl, hs⟩
  none_found hp := absurd hp (Option.some_ne_none next)
  first := h.first

theorem inv_runBlind {next : List α} (h : Inv d) (hp : d.pending = none)
    (hc : d.notifier.callbacks = [] ∨ d.notifier.hasRun = false) :
    Inv { d with pending := some next, blind := true } where
  nodup := h.nodup
  lt := h.lt
  unknown := h.unknown
  served c hmem := (h.served c hmem).congr rfl rfl rfl rfl rfl rfl
  found := by
    refine .inr ⟨rfl, (h.none_found hp).1, fun c hmem => ?_⟩
    obtain hc | hc := hc
    · exact absurd (hc ▸ hmem) List.not_mem_nil
    · exact h.first hc c hmem
  none_found hp := absurd hp (Option.some_ne_none next)
  first := h.first

/-- Changes gathered are handed over with those found unless they are to be skipped, or a chunk's
count would be wrong. -/
theorem addChange_eq_none_iff {mid : List α}
    (hf : Tracks (b.edit b.modifications) b.moves old new)
    (ha : Tracks (c.accumulatedChanges.edit c.accumulatedChanges.modifications)
      c.accumulatedChanges.moves mid old) :
    addChange b c = none ↔ c.accumulatedChanges.isEmpty = false ∧ (c.skipNext = true ∨
      b.isEmpty = false ∧ c.accumulatedChanges.deletions.addShiftedBy
        c.accumulatedChanges.insertions b.deletions = none) := by
  unfold addChange
  split_ifs with h1 h2
  · simp [h2]
  · simpa [h1] using h2
  · rw [Option.map_eq_none_iff, CollectionChangeBuilder.merge_eq_none_iff ha hf,
      or_iff_right h1]

theorem addChange_cases {c' : Callback} (h : addChange b c = some c') :
    c'.token = c.token ∧ c'.changesToDeliver = c.changesToDeliver ∧ c'.skipNext = false ∧
      ((c.skipNext = true ∧ c.accumulatedChanges.isEmpty = true ∧
        c'.accumulatedChanges = c.accumulatedChanges) ∨
      (c.skipNext = false ∧
        CollectionChangeBuilder.merge c.accumulatedChanges b = some c'.accumulatedChanges)) := by
  unfold addChange at h
  split_ifs at h with h1 h2
  · obtain rfl := Option.some_inj.1 h
    exact ⟨rfl, rfl, rfl, .inl ⟨h1, h2, rfl⟩⟩
  · obtain ⟨r, hr, rfl⟩ := Option.map_eq_some_iff.1 h
    exact ⟨rfl, rfl, Bool.eq_false_iff.2 h1, .inr ⟨Bool.eq_false_iff.2 h1, hr⟩⟩

theorem mapM_eq_some {β γ : Type*} {f : β → Option γ} {l : List β} {l' : List γ} :
    l.mapM f = some l' ↔ List.Forall₂ (fun x y => f x = some y) l l' := by
  induction l generalizing l' with
  | nil => simp [eq_comm]
  | cons x l ih =>
    rw [List.mapM_cons]
    constructor
    · intro h
      obtain ⟨y, hy, h⟩ := Option.bind_eq_some_iff.1 h
      obtain ⟨ys, hys, h⟩ := Option.bind_eq_some_iff.1 h
      obtain rfl : y :: ys = l' := Option.some_inj.1 h
      exact .cons hy (ih.1 hys)
    · rintro (_ | ⟨hy, hys⟩)
      rw [hy, ih.2 hys]
      rfl

theorem mapM_eq_none_iff {β γ : Type*} {f : β → Option γ} {l : List β} :
    l.mapM f = none ↔ ∃ x ∈ l, f x = none := by
  induction l with
  | nil => simp
  | cons x l ih =>
    rw [List.mapM_cons, List.exists_mem_cons_iff, ← ih]
    rcases hx : f x with _ | y
    · simp
    · rcases l.mapM f with _ | ys <;> simp

theorem mem_of_forall₂ {β γ : Type*} {r : β → γ → Prop} {l : List β} {l' : List γ} {y : γ}
    (h : List.Forall₂ r l l') (hy : y ∈ l') : ∃ x ∈ l, r x y := by
  induction h with
  | nil => exact absurd hy List.not_mem_nil
  | cons hxy _ ih =>
    obtain rfl | hy := List.mem_cons.1 hy
    · exact ⟨_, List.mem_cons_self .., hxy⟩
    · obtain ⟨x, hx, hr⟩ := ih hy
      exact ⟨x, List.mem_cons_of_mem _ hx, hr⟩

theorem eq_of_token {callbacks : List Callback} {c c' : Callback}
    (h : (callbacks.map Callback.token).Nodup) (hc : c ∈ callbacks) (hc' : c' ∈ callbacks)
    (ht : c.token = c'.token) : c = c' :=
  List.inj_on_of_nodup_map h hc hc' ht

theorem spared_of_mem (new : List α) (f : ℕ → Option (List α)) {callbacks : List Callback}
    (h : (callbacks.map Callback.token).Nodup) (hc : c ∈ callbacks) : spared callbacks new f c.token
      = if c.skipNext then (f c.token).map fun _ => new else f c.token := by
  unfold spared
  congr 1
  rw [eq_iff_iff, List.any_eq_true]
  constructor
  · rintro ⟨c', hc', hany⟩
    obtain ⟨ht, hs⟩ := of_decide_eq_true hany
    rwa [eq_of_token h hc' hc ht] at hs
  · exact fun hs => ⟨c, hc, decide_eq_true ⟨rfl, hs⟩⟩

/-- What is handed over is found changes put on top of those gathered; a callback that skips them
has none, and one that they were not found for has none either. -/
theorem served_handover {c' : Callback} (h : Inv d) (hc : c ∈ d.notifier.callbacks)
    (ha : addChange d.notifier.change c = some c')
    (ho : c.skipNext = true → c.changesToDeliver.isEmpty = true) (n : CollectionNotifier) :
    Served { notifier := n
             rows := d.pending.getD d.rows
             packaged := spared d.notifier.callbacks (d.pending.getD d.rows) d.packaged
             known := spared d.notifier.callbacks (d.pending.getD d.rows) d.known } c' := by
  obtain ⟨htoken, hdeliver, -, hcases⟩ := addChange_cases ha
  obtain ⟨mid, hacc, hmid⟩ := (h.served c hc).gathered
  have htold := (h.served c hc).told
  have hpackaged := spared_of_mem (d.pending.getD d.rows) d.packaged h.nodup hc
  have hknown := spared_of_mem (d.pending.getD d.rows) d.known h.nodup hc
  rw [← htoken] at hpackaged hknown
  obtain ⟨hskip, hempty, haccum⟩ | ⟨hskip, hmerge⟩ := hcases
  · rw [if_pos hskip] at hpackaged hknown
    refine ⟨⟨d.pending.getD d.rows, ?_, fun p hp => ?_⟩, fun k hk => ?_⟩
    · rw [haccum]
      exact tracks_of_isEmpty hempty _
    · obtain ⟨-, -, rfl⟩ := Option.map_eq_some_iff.1 (hpackaged.symm.trans hp)
      rfl
    · obtain ⟨k', hk', rfl⟩ := Option.map_eq_some_iff.1 (hknown.symm.trans hk)
      obtain ⟨p, hp, -⟩ := htold k' (htoken ▸ hk')
      refine ⟨d.pending.getD d.rows, hpackaged.trans ?_, ?_⟩
      · rw [htoken, hp, Option.map_some]
      · rw [hdeliver]
        exact takes_of_isEmpty (ho hskip) _
  · rw [hskip, if_neg Bool.false_ne_true] at hpackaged hknown
    have htold' : ∀ k, d.known c'.token = some k →
        ∃ p, d.packaged c'.token = some p ∧ (toldEdit c'.changesToDeliver).Takes k p := by
      rwa [htoken, hdeliver]
    obtain ⟨-, hfound⟩ | ⟨-, hnone, hun⟩ := h.found
    · obtain ⟨-, htracks⟩ :=
        CollectionChangeBuilder.tracks_merge none subset_rfl subset_rfl hacc hfound hmerge
      refine ⟨⟨mid, htracks, fun p hp => hmid p ?_⟩, fun k hk => ?_⟩
      · rw [← htoken, ← hpackaged]
        exact hp
      · obtain ⟨p, hp, ht⟩ := htold' k (hknown.symm.trans hk)
        exact ⟨p, hpackaged.trans hp, ht⟩
    · obtain ⟨hacc', hp'⟩ := hun c hc
      rw [hnone, hacc'] at hmerge
      obtain hempty : {} = c'.accumulatedChanges := Option.some_inj.1 hmerge
      refine ⟨⟨d.pending.getD d.rows, ?_, fun p hp => ?_⟩, fun k hk => ?_⟩
      · rw [← hempty]
        exact .refl _
      · have := hpackaged.symm.trans hp
        rw [htoken, hp'] at this
        exact absurd this (Option.some_ne_none p).symm
      · obtain ⟨p, hp, -⟩ := htold' k (hknown.symm.trans hk)
        rw [htoken, hp'] at hp
        exact absurd hp (Option.some_ne_none p).symm

theorem tokens_of_forall₂ {callbacks callbacks' : List Callback}
    (h : List.Forall₂ (fun c c' => addChange b c = some c') callbacks callbacks') :
    callbacks'.map Callback.token = callbacks.map Callback.token := by
  induction h with
  | nil => rfl
  | cons ha _ ih => rw [List.map_cons, List.map_cons, ih, (addChange_cases ha).1]

theorem inv_prepareHandover {n : CollectionNotifier} (h : Inv d)
    (hn : d.notifier.prepareHandover = some n) (ho : Orderly d .prepareHandover) :
    Inv { notifier := n
          rows := d.pending.getD d.rows
          packaged := spared d.notifier.callbacks (d.pending.getD d.rows) d.packaged
          known := spared d.notifier.callbacks (d.pending.getD d.rows) d.known } := by
  obtain ⟨callbacks, hmap, rfl⟩ := Option.map_eq_some_iff.1 hn
  rw [mapM_eq_some] at hmap
  refine ⟨?_, fun c' hc' => ?_, fun t ht => ?_, fun c' hc' => ?_, ?_, fun _ => ⟨rfl, rfl⟩,
    fun hf => absurd hf.symm Bool.false_ne_true⟩
  · dsimp only
    rw [tokens_of_forall₂ hmap]
    exact h.nodup
  · obtain ⟨c, hc, ha⟩ := mem_of_forall₂ hmap hc'
    rw [(addChange_cases ha).1]
    exact h.lt c hc
  · obtain ⟨hp, hk⟩ := h.unknown t ht
    refine ⟨?_, ?_⟩ <;> unfold spared <;> dsimp only <;> split_ifs
    · rw [hp, Option.map_none]
    · exact hp
    · rw [hk, Option.map_none]
    · exact hk
  · obtain ⟨c, hc, ha⟩ := mem_of_forall₂ hmap hc'
    exact served_handover h hc ha (ho c hc) _
  · exact .inl ⟨rfl, .refl _⟩

theorem inv_packageForDelivery (h : Inv d) (hr : d.notifier.hasRun = true)
    (ho : Orderly d .packageForDelivery) : Inv { d with
      notifier := d.notifier.packageForDelivery
      packaged := fun token =>
        if d.notifier.callbacks.any fun c => c.token = token then some d.rows
        else d.packaged token } := by
  have hmap : ∀ c ∈ d.notifier.packageForDelivery.callbacks, ∃ c' ∈ d.notifier.callbacks,
      { c' with
        changesToDeliver := c'.accumulatedChanges.finalize
        accumulatedChanges := {} } = c := fun c hc => List.mem_map.1 hc
  have hany : ∀ c ∈ d.notifier.callbacks,
      (d.notifier.callbacks.any fun c' => c'.token = c.token) = true := fun c hc =>
    List.any_eq_true.2 ⟨c, hc, decide_eq_true rfl⟩
  refine ⟨?_, fun c hc => ?_, fun t ht => ?_, fun c hc => ?_, ?_, h.none_found,
    fun hf => absurd (hr.symm.trans hf) Bool.false_ne_true.symm⟩
  · have := h.nodup
    rwa [packageForDelivery, List.map_map]
  · obtain ⟨c, hmem, rfl⟩ := hmap c hc
    exact h.lt c hmem
  · obtain ⟨hp, hk⟩ := h.unknown t ht
    refine ⟨?_, hk⟩
    dsimp only
    rw [if_neg, hp]
    rw [List.any_eq_true]
    rintro ⟨c, hc, hct⟩
    have := h.lt c hc
    rw [of_decide_eq_true hct] at this
    exact absurd ht this.not_ge
  · obtain ⟨c, hmem, rfl⟩ := hmap c hc
    obtain ⟨mid, hacc, hmid⟩ := (h.served c hmem).gathered
    refine ⟨⟨d.rows, .refl d.rows, fun p hp => ?_⟩, fun k hk => ⟨d.rows, if_pos (hany c hmem), ?_⟩⟩
    · dsimp only at hp
      rw [if_pos (hany c hmem), Option.some_inj] at hp
      exact hp.symm
    · -- nothing is undelivered, so the callback knows what was packaged before
      obtain ⟨p, hp, htakes⟩ := (h.served c hmem).told k hk
      have hempty := ho.1 c hmem
      simp only [CollectionChangeSet.isEmpty, Bool.and_eq_true,
        IndexSet.isEmpty_iff_toFinset] at hempty
      obtain ⟨⟨⟨⟨hd, hi⟩, -⟩, hm⟩, -⟩ := hempty
      rw [toldEdit, hd, hi, hm] at htakes
      obtain rfl := htakes.eq_of_empty
      obtain rfl := hmid k hp
      exact takes_finalize hacc
  · obtain hf | ⟨hb, he, -⟩ := h.found
    · exact .inl hf
    · refine .inr ⟨hb, he, fun c hc => ?_⟩
      obtain ⟨c, hmem, rfl⟩ := hmap c hc
      exact absurd (ho.2 hb ▸ hmem) List.not_mem_nil

/-! ## Changes told -/

theorem forEachCallback_cases {fn : Callback → Callback} {n n' : CollectionNotifier}
    (h : forEachCallback fn n = some n') :
    (n.callbackIndex < n.callbackCount ∧ ∃ c, n.callbacks[n.callbackIndex]? = some c ∧
      n' = { n with
        callbacks := n.callbacks.set n.callbackIndex (fn c)
        callbackIndex := n.callbackIndex + 1 }) ∨
    (n.callbackCount ≤ n.callbackIndex ∧ n' = { n with callbackIndex := 0 }) := by
  unfold forEachCallback at h
  split_ifs at h with hlt
  · obtain ⟨c, hc, rfl⟩ := Option.map_eq_some_iff.1 h
    exact .inl ⟨hlt, c, hc, rfl⟩
  · exact .inr ⟨not_lt.1 hlt, (Option.some_inj.1 h).symm⟩

theorem set_of_getElem? {β : Type*} {l : List β} {i : ℕ} {x : β} (h : l[i]? = some x) :
    l.set i x = l := by
  obtain ⟨hi, rfl⟩ := List.getElem?_eq_some_iff.1 h
  exact List.set_getElem_self hi

theorem among_beforeAdvance {n n' : CollectionNotifier} (h : n.beforeAdvance = some n') :
    Among n'.callbacks n.callbacks ∧ n'.change = n.change ∧ n'.hasRun = n.hasRun ∧
      n'.nextToken = n.nextToken := by
  obtain ⟨-, c, hc, rfl⟩ | ⟨-, rfl⟩ := forEachCallback_cases h
  · refine ⟨?_, rfl, rfl, rfl⟩
    dsimp only [id]
    rw [set_of_getElem? hc]
    exact .refl _
  · exact ⟨.refl _, rfl, rfl, rfl⟩

theorem told_of_index {token : ℕ} (hlt : d.notifier.callbackIndex < d.notifier.callbackCount)
    (hc : d.notifier.callbacks[d.notifier.callbackIndex]? = some c) :
    d.told token = if c.token = token ∧ called c = true then d.packaged token
      else d.known token := by
  unfold told
  rw [hc]
  simp only [hlt, true_and, Option.any_some, decide_eq_true_eq]

/-- The callback called knows what was packaged for it, and there is nothing to deliver to it any
more; all others are as before. -/
theorem inv_called (h : Inv d) (hc : d.notifier.callbacks[d.notifier.callbackIndex]? = some c)
    {known : ℕ → Option (List α)}
    (hk : ∀ token, known token = if c.token = token then d.packaged token else d.known token) :
    Inv { d with
      notifier := { d.notifier with
        callbacks := d.notifier.callbacks.set d.notifier.callbackIndex
          { c with initialDelivered := true, changesToDeliver := {} }
        callbackIndex := d.notifier.callbackIndex + 1 }
      known := known } := by
  have hcm := List.mem_of_getElem? hc
  have hmem : ∀ c' ∈ d.notifier.callbacks.set d.notifier.callbackIndex
      { c with initialDelivered := true, changesToDeliver := {} },
      c' = { c with initialDelivered := true, changesToDeliver := {} } ∨
        (c' ∈ d.notifier.callbacks ∧ c'.token ≠ c.token) := fun c' hc' => by
    obtain ⟨i, hi⟩ := List.mem_iff_getElem?.1 hc'
    rw [List.getElem?_set] at hi
    split_ifs at hi with h1 h2
    · exact .inl (Option.some_inj.1 hi).symm
    · refine .inr ⟨List.mem_of_getElem? hi, fun ht => h1 ?_⟩
      -- a token is that of one callback
      have hlt := (List.getElem?_eq_some_iff.1 hc).1
      have hlt' : d.notifier.callbackIndex < (d.notifier.callbacks.map Callback.token).length := by
        rwa [List.length_map]
      refine (List.getElem?_inj hlt' h.nodup).1 ?_
      rw [List.getElem?_map, List.getElem?_map, hc, hi, Option.map_some, Option.map_some, ht]
  have hun : ∀ c', c' ∈ d.notifier.callbacks.set d.notifier.callbackIndex
      { c with initialDelivered := true, changesToDeliver := {} } →
      (∀ c ∈ d.notifier.callbacks, Unserved d c) → Unserved d c' := fun c' hc' hall => by
    obtain rfl | ⟨hm, -⟩ := hmem c' hc'
    · exact hall c hcm
    · exact hall c' hm
  refine ⟨?_, fun c' hc' => ?_, fun t ht => ?_, fun c' hc' => ?_, ?_, h.none_found,
    fun hf c' hc' => hun c' hc' (h.first hf)⟩
  · dsimp only
    have hmap : (d.notifier.callbacks.set d.notifier.callbackIndex
        { c with initialDelivered := true, changesToDeliver := {} }).map Callback.token
        = d.notifier.callbacks.map Callback.token := by
      rw [List.map_set]
      refine set_of_getElem? ?_
      rw [List.getElem?_map, hc, Option.map_some]
    rw [hmap]
    exact h.nodup
  · obtain rfl | ⟨hm, -⟩ := hmem c' hc'
    · exact h.lt c hcm
    · exact h.lt c' hm
  · obtain ⟨hp, hkn⟩ := h.unknown t ht
    refine ⟨hp, (hk t).trans ?_⟩
    split_ifs
    · exact hp
    · exact hkn
  · obtain rfl | ⟨hm, ht⟩ := hmem c' hc'
    · exact ⟨(h.served c hcm).gathered, fun k hkk =>
        ⟨k, ((hk c.token).trans (if_pos rfl)).symm.trans hkk, takes_of_isEmpty rfl k⟩⟩
    · exact ⟨(h.served c' hm).gathered, fun k hkk =>
        (h.served c' hm).told k (((hk c'.token).trans (if_neg ht.symm)).symm.trans hkk)⟩
  · obtain hf | ⟨hb, he, hu⟩ := h.found
    · exact .inl hf
    · exact .inr ⟨hb, he, fun c' hc' => hun c' hc' hu⟩

theorem inv_afterAdvance {n : CollectionNotifier} (h : Inv d)
    (hn : d.notifier.afterAdvance = some n) : Inv { d with notifier := n, known := d.told } := by
  obtain ⟨hlt, c, hc, rfl⟩ | ⟨hge, rfl⟩ := forEachCallback_cases hn
  · split_ifs with hcalled
    · refine inv_called h hc fun token => ?_
      rw [told_of_index hlt hc]
      simp only [hcalled, and_true]
    · have hknown : d.told = d.known := funext fun token => by
        rw [told_of_index hlt hc, if_neg fun h => hcalled h.2]
      rw [hknown, set_of_getElem? hc]
      exact h.among (.refl _) rfl rfl rfl
  · have hknown : d.told = d.known := funext fun token => if_neg fun h => absurd h.1 hge.not_gt
    rw [hknown]
    exact h.among (.refl _) rfl rfl rfl

/-! ## Runs -/

theorem inv_step {rows : List α} {e : DeliveryEvent α} {d' : Delivery α} (h : Inv d)
    (hs : Sound d e) (ho : Orderly d e) (hstep : (machine rows).step d e = some d') : Inv d' := by
  obtain ⟨hen, hstep⟩ := Machine.step_eq_some.1 hstep
  cases e with
  | addCallback =>
    obtain rfl := Option.some_inj.1 hstep
    exact inv_addCallback h
  | removeCallback token =>
    obtain ⟨n, hn, rfl⟩ := Option.map_eq_some_iff.1 hstep
    obtain ⟨ha, hc, hr, ht⟩ := among_removeCallback hn
    exact h.among ha hc hr ht
  | suppressNextNotification token =>
    obtain ⟨n, hn, rfl⟩ := Option.map_eq_some_iff.1 hstep
    obtain ⟨ha, hc, hr, ht⟩ := among_suppress hn
    exact h.among ha hc hr ht
  | run change next =>
    obtain rfl := Option.some_inj.1 hstep
    exact inv_run h hs
  | runBlind next =>
    obtain rfl := Option.some_inj.1 hstep
    obtain ⟨hp, hc⟩ := Bool.and_eq_true_iff.1 hen
    refine inv_runBlind h (Option.isNone_iff_eq_none.1 hp) ?_
    obtain hc | hc := Bool.or_eq_true_iff.1 hc
    · exact .inl (List.isEmpty_iff.1 hc)
    · exact .inr (by simpa using hc)
  | prepareHandover =>
    obtain ⟨n, hn, rfl⟩ := Option.map_eq_some_iff.1 hstep
    exact inv_prepareHandover h hn ho
  | packageForDelivery =>
    obtain rfl := Option.some_inj.1 hstep
    exact inv_packageForDelivery h hen ho
  | beforeAdvance =>
    obtain ⟨n, hn, rfl⟩ := Option.map_eq_some_iff.1 hstep
    obtain ⟨ha, hc, hr, ht⟩ := among_beforeAdvance hn
    exact h.among ha hc hr ht
  | afterAdvance =>
    obtain ⟨n, hn, rfl⟩ := Option.map_eq_some_iff.1 hstep
    exact inv_afterAdvance h hn

theorem inv_run_of_along {rows : List α} {es : List (DeliveryEvent α)}
    (h : (machine rows).run es = some d)
    (ha : (machine rows).Along (fun _ d e => Sound d e ∧ Orderly d e) es) : Inv d := by
  refine Machine.always_of_along (Q := fun _ d => Inv d) ?_ ?_ ha es d List.prefix_rfl h
  · intro s hs
    obtain rfl := Option.some_inj.1 hs
    exact inv_start rows
  · exact fun _ s e s' _ hi hp hstep => inv_step hi hp.1 hp.2 hstep

theorem Inv.told_all (hinv : Inv d) {c : Callback} (hc : c ∈ d.notifier.callbacks)
    {known : List α} (hk : d.known c.token = some known) :
    (∃ packaged, d.packaged c.token = some packaged ∧
      (toldEdit c.changesToDeliver).Takes known packaged) ∧
    (c.changesToDeliver.isEmpty = true → c.accumulatedChanges.isEmpty = true →
      known = d.rows) := by
  obtain ⟨packaged, hp, htakes⟩ := (hinv.served c hc).told known hk
  obtain ⟨mid, hacc, hmid⟩ := (hinv.served c hc).gathered
  refine ⟨⟨packaged, hp, htakes⟩, fun hdeliver hgathered => ?_⟩
  simp only [CollectionChangeSet.isEmpty, Bool.and_eq_true,
    IndexSet.isEmpty_iff_toFinset] at hdeliver
  obtain ⟨⟨⟨⟨hd, hi⟩, -⟩, hm⟩, -⟩ := hdeliver
  rw [toldEdit, hd, hi, hm] at htakes
  obtain rfl := htakes.eq_of_empty
  obtain rfl := hmid known hp
  have hwithin : CollectionChangeBuilder.Within none c.accumulatedChanges := subset_rfl
  exact CollectionChangeBuilder.eq_of_isEmpty hwithin hacc hgathered

/-- A callback is added and told of the rows, then the first of them is erased. -/
def erased : List (DeliveryEvent Char) :=
  [.addCallback, .runBlind ['a', 'b'], .prepareHandover, .packageForDelivery, .beforeAdvance,
    .beforeAdvance, .afterAdvance, .afterAdvance, .run (CollectionChangeBuilder.erase 0 {}) ['b'],
    .prepareHandover, .packageForDelivery, .suppressNextNotification 0]

theorem along_erased : (machine ['a', 'b']).Along (fun _ d e => Sound d e ∧ Orderly d e) erased := by
  have hstart : Tracks (CollectionChangeBuilder.edit {} ∅) (CollectionChangeSet.moves {})
      ['a', 'b'] ['a', 'b'] := .refl _
  have hzero : 0 < ['a', 'b'].length := by decide
  have herase := CollectionChangeBuilder.tracks_erase hstart hzero
  change Machine.Along _ _ ([] ++ [_] ++ [_] ++ [_] ++ [_] ++ [_] ++ [_] ++ [_] ++ [_] ++ [_] ++ [_]
    ++ [_] ++ [_])
  simp only [Machine.along_snoc]
  refine ⟨⟨⟨⟨⟨⟨⟨⟨⟨⟨⟨⟨Machine.along_nil, ?_⟩, ?_⟩, ?_⟩, ?_⟩, ?_⟩, ?_⟩, ?_⟩, ?_⟩, ?_⟩, ?_⟩, ?_⟩, ?_⟩ <;>
    intro d hd <;> obtain rfl := Option.some_inj.1 hd
  · exact ⟨trivial, trivial⟩
  · exact ⟨trivial, trivial⟩
  · exact ⟨trivial, by unfold Orderly; decide⟩
  · exact ⟨trivial, by decide, nofun⟩
  · exact ⟨trivial, trivial⟩
  · exact ⟨trivial, trivial⟩
  · exact ⟨trivial, trivial⟩
  · exact ⟨trivial, trivial⟩
  · exact ⟨herase, trivial⟩
  · exact ⟨trivial, by unfold Orderly; decide⟩
  · exact ⟨trivial, by decide, nofun⟩
  · exact ⟨trivial, trivial⟩

end Delivery

end IosLearning
