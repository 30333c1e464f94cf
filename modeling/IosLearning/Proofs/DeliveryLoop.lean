import IosLearning.Proofs.Delivery

/-!
# Which callbacks a delivery calls

The callbacks stand in the order of their tokens, so those there when the changes were packaged come
before those added since. As long as only the former are removed, the count is how many of them are
left, and a delivery that is over has called them all, and none of the latter (`each_called`). One
of the latter removed is taken from the count all the same, and the last of the former is not called
(`last_not_called`).
-/

namespace IosLearning.Delivery

open CollectionNotifier

variable {α : Type*} {d d' : Delivery α} {n n' : CollectionNotifier} {c : Callback}

/-- Of a callback its token, whether it was called before, and whether nothing is to be delivered to
it. -/
def status (c : Callback) : ℕ × Bool × Bool :=
  (c.token, c.initialDelivered, c.changesToDeliver.isEmpty)

variable {l : List (ℕ × Bool × Bool)} {first index count i : ℕ} {x : ℕ × Bool × Bool}

/-- Those with a token before `first` are those that were there when the changes were packaged. -/
structure Loop (first : ℕ) (l : List (ℕ × Bool × Bool)) (index count : ℕ) : Prop where
  sorted : l.Pairwise fun x y => x.1 < y.1
  count_eq : count = l.countP fun x => x.1 < first
  index_le : index ≤ count
  done : ∀ i < index, ∀ x, l[i]? = some x → x.2 = (true, true)
  added : ∀ x ∈ l, first ≤ x.1 → x.2.1 = false

theorem countP_eq_zero_of_le {token : ℕ} (hl : ∀ x ∈ l, token < x.1) (hf : first ≤ token) :
    l.countP (fun x => x.1 < first) = 0 := by
  rw [List.countP_eq_zero]
  intro x hx
  have := hl x hx
  simp only [decide_eq_true_eq]
  omega

theorem lt_countP_iff (h : l.Pairwise fun x y => x.1 < y.1) (hx : l[i]? = some x) :
    i < l.countP (fun x => x.1 < first) ↔ x.1 < first := by
  induction l generalizing i with
  | nil => simp at hx
  | cons y l ih =>
    rw [List.pairwise_cons] at h
    rw [List.countP_cons]
    have hzero : ¬ y.1 < first → l.countP (fun x => x.1 < first) = 0 := fun hy => countP_eq_zero_of_le h.1 (not_lt.1 hy)
    cases i with
    | zero =>
      obtain rfl : y = x := by simpa using hx
      by_cases hy : y.1 < first
      · simp [hy]
      · simp [hy, hzero hy]
    | succ i =>
      rw [List.getElem?_cons_succ] at hx
      have hlt := h.1 x (List.mem_of_getElem? hx)
      rw [← ih h.2 hx]
      by_cases hy : y.1 < first
      · simp [hy]
      · simp [hy, hzero hy]

namespace Loop

variable (h : Loop first l index count)

include h

theorem getElem?_index (hlt : index < count) : ∃ x, l[index]? = some x ∧ x.1 < first := by
  have hlen : index < l.length := by
    have := List.countP_le_length (p := fun x : ℕ × Bool × Bool => decide (x.1 < first)) (l := l)
    have := h.count_eq
    omega
  refine ⟨l[index], List.getElem?_eq_getElem hlen, ?_⟩
  rw [← lt_countP_iff h.sorted (List.getElem?_eq_getElem hlen), ← h.count_eq]
  exact hlt

theorem add {token : ℕ} (hf : first ≤ token) (hl : ∀ x ∈ l, x.1 < token) :
    Loop first (l ++ [(token, false, true)]) index count where
  sorted := by
    refine List.pairwise_append.2 ⟨h.sorted, List.pairwise_singleton _ _, fun x hx y hy => ?_⟩
    obtain rfl := List.mem_singleton.1 hy
    exact hl x hx
  count_eq := by
    rw [List.countP_append, ← h.count_eq, List.countP_singleton, if_neg, Nat.add_zero]
    simpa using hf
  index_le := h.index_le
  done i hi x hx := by
    have hlen : i < l.length := by
      have := List.countP_le_length (p := fun x : ℕ × Bool × Bool => decide (x.1 < first)) (l := l)
      have := h.count_eq
      have := h.index_le
      omega
    rw [List.getElem?_append_left hlen] at hx
    exact h.done i hi x hx
  added x hx hfx := by
    obtain hx | hx := List.mem_append.1 hx
    · exact h.added x hx hfx
    · rw [List.mem_singleton.1 hx]

/-- One that was there is removed, before or after the one that is being called. -/
theorem remove {idx : ℕ} (hx : l[idx]? = some x) (hf : x.1 < first) :
    Loop first (l.eraseIdx idx) (if idx < index then index - 1 else index) (count - 1) := by
  have hidx := (lt_countP_iff h.sorted hx).2 hf
  rw [← h.count_eq] at hidx
  have hle := h.index_le
  refine ⟨h.sorted.sublist (List.eraseIdx_sublist ..), ?_, ?_, fun i hi y hy => ?_,
    fun y hy => h.added y ((List.eraseIdx_sublist ..).subset hy)⟩
  · have hp := (List.getElem?_eq_some_iff.1 hx).1
    have hperm := (List.getElem_cons_eraseIdx_perm hp).countP_eq fun x => decide (x.1 < first)
    have hget := (List.getElem?_eq_some_iff.1 hx).2
    rw [List.countP_cons, hget, if_pos (decide_eq_true hf), ← h.count_eq] at hperm
    omega
  · split_ifs <;> omega
  · rw [List.getElem?_eraseIdx] at hy
    split_ifs at hi hy with h1 h2 h2
    · exact h.done i (by omega) y hy
    · exact h.done (i + 1) (by omega) y hy
    · exact h.done i hi y hy
    · omega

/-- The next one is called, if it is to be. -/
theorem call (hlt : index < count) (hx : l[index]? = some x) :
    Loop first (l.set index (x.1, true, true)) (index + 1) count := by
  have hf : x.1 < first := by
    rw [← lt_countP_iff h.sorted hx, ← h.count_eq]
    exact hlt
  have hmap : (l.set index (x.1, true, true)).map Prod.fst = l.map Prod.fst := by
    rw [List.map_set]
    refine set_of_getElem? ?_
    rw [List.getElem?_map, hx, Option.map_some]
  refine ⟨?_, ?_, hlt, fun i hi y hy => ?_, fun y hy hfy => ?_⟩
  · rw [← List.pairwise_map (f := Prod.fst) (R := (· < ·)), hmap, List.pairwise_map]
    exact h.sorted
  · have hcount : ∀ l : List (ℕ × Bool × Bool),
        l.countP (fun x => x.1 < first) = (l.map Prod.fst).countP fun t => t < first := fun l => by
      rw [List.countP_map]
      rfl
    rw [hcount, hmap, ← hcount]
    exact h.count_eq
  · rw [List.getElem?_set] at hy
    split_ifs at hy with h1 h2
    · rw [← Option.some_inj.1 hy]
    · exact h.done i (by omega) y hy
  · obtain hy | rfl := List.mem_or_eq_of_mem_set hy
    · exact h.added y hy hfy
    · exact absurd hf hfy.not_gt

theorem restart : Loop first l 0 count :=
  ⟨h.sorted, h.count_eq, Nat.zero_le _, fun _ hi => absurd hi (Nat.not_lt_zero _), h.added⟩

end Loop

/-! ## Steps of a delivery -/

/-- The callbacks in the order they were added, and where the delivery stands. -/
structure Delivering (first : ℕ) (n : CollectionNotifier) : Prop where
  loop : Loop first (n.callbacks.map status) n.callbackIndex n.callbackCount
  lt : ∀ c ∈ n.callbacks, c.token < n.nextToken
  first_le : first ≤ n.nextToken
  count_lt : n.callbackCount < 2 ^ 64

theorem Delivering.congr (h : Delivering first n)
    (hs : n'.callbacks.map status = n.callbacks.map status)
    (hi : n'.callbackIndex = n.callbackIndex) (hc : n'.callbackCount = n.callbackCount)
    (hn : n'.nextToken = n.nextToken) : Delivering first n' := by
  refine ⟨by rw [hs, hi, hc]; exact h.loop, fun c hmem => ?_, hn ▸ h.first_le, hc ▸ h.count_lt⟩
  obtain ⟨c', hmem', hst⟩ := List.mem_map.1 (hs ▸ List.mem_map_of_mem (f := status) hmem)
  rw [hn, show c.token = c'.token from (congrArg Prod.fst hst).symm]
  exact h.lt c' hmem'

theorem Delivering.addCallback (h : Delivering first n) : Delivering first n.addCallback where
  loop := by
    have := h.loop.add h.first_le fun x hx => by
      obtain ⟨c, hc, rfl⟩ := List.mem_map.1 hx
      exact h.lt c hc
    rwa [CollectionNotifier.addCallback, List.map_append]
  lt c hc := by
    obtain hc | hc := List.mem_append.1 hc
    · exact (h.lt c hc).trans (Nat.lt_succ_self _)
    · rw [List.mem_singleton.1 hc]
      exact Nat.lt_succ_self _
  first_le := h.first_le.trans (Nat.le_succ _)
  count_lt := h.count_lt

theorem Delivering.removeCallback {token : ℕ} (h : Delivering first n) (ht : token < first)
    (hn : n.removeCallback token = some n') : Delivering first n' := by
  obtain ⟨idx, hidx, rfl⟩ := Option.map_eq_some_iff.1 hn
  obtain ⟨hlt, htoken, -⟩ := List.findIdx?_eq_some_iff_getElem.1 hidx
  have htoken := of_decide_eq_true htoken
  have hx : (n.callbacks.map status)[idx]? = some (status n.callbacks[idx]) := by
    rw [List.getElem?_map, List.getElem?_eq_getElem hlt, Option.map_some]
  have hf : (status n.callbacks[idx]).1 < first := by
    change n.callbacks[idx].token < first
    rwa [htoken]
  have hloop := h.loop.remove hx hf
  -- it is counted, so the count does not wrap around
  have hpos : idx < n.callbackCount := by
    rw [h.loop.count_eq]
    exact (lt_countP_iff h.loop.sorted hx).2 hf
  have hlt64 := h.count_lt
  have hcount : (n.callbackCount + (2 ^ 64 - 1)) % 2 ^ 64 = n.callbackCount - 1 := by omega
  refine ⟨?_, fun c hc => h.lt c ((List.eraseIdx_sublist ..).subset hc), h.first_le, ?_⟩
  · dsimp only
    rwa [hcount, ← List.eraseIdx_map]
  · dsimp only
    omega

theorem status_called (hc : called c = false) : status c = (c.token, true, true) := by
  unfold called at hc
  rw [Bool.not_eq_false', Bool.and_eq_true] at hc
  rw [status, hc.1, hc.2]

theorem Delivering.afterAdvance (h : Delivering first n) (hn : n.afterAdvance = some n') :
    Delivering first n' := by
  obtain ⟨hlt, c, hc, rfl⟩ | ⟨-, rfl⟩ := forEachCallback_cases hn
  · have hx : (n.callbacks.map status)[n.callbackIndex]? = some (status c) := by
      rw [List.getElem?_map, hc, Option.map_some]
    have hstatus : status (if called c = true then
        { c with initialDelivered := true, changesToDeliver := {} } else c)
        = ((status c).1, true, true) := by
      split_ifs with hcalled
      · rfl
      · exact status_called (Bool.eq_false_iff.2 hcalled)
    refine ⟨?_, fun c' hc' => ?_, h.first_le, h.count_lt⟩
    · have := h.loop.call hlt hx
      dsimp only
      rwa [List.map_set, hstatus]
    · obtain hc' | rfl := List.mem_or_eq_of_mem_set hc'
      · exact h.lt c' hc'
      · have := h.lt c (List.mem_of_getElem? hc)
        split_ifs <;> exact this
  · exact ⟨h.loop.restart, h.lt, h.first_le, h.count_lt⟩

/-- The loop does not go past the last callback. -/
theorem Delivering.exists_afterAdvance (h : Delivering first n) :
    ∃ n', n.afterAdvance = some n' := by
  unfold CollectionNotifier.afterAdvance forEachCallback
  split_ifs with hlt
  · obtain ⟨x, hx, -⟩ := h.loop.getElem?_index hlt
    rw [List.getElem?_map] at hx
    obtain ⟨c, hc, -⟩ := Option.map_eq_some_iff.1 hx
    exact ⟨_, by rw [hc, Option.map_some]⟩
  · exact ⟨_, rfl⟩

theorem status_of_addChange {b : CollectionChangeBuilder} {c' : Callback}
    (h : addChange b c = some c') : status c' = status c := by
  obtain ⟨ht, hd, -⟩ := addChange_cases h
  have hinit : c'.initialDelivered = c.initialDelivered := by
    unfold addChange at h
    split_ifs at h
    · obtain rfl := Option.some_inj.1 h
      rfl
    · obtain ⟨r, -, rfl⟩ := Option.map_eq_some_iff.1 h
      rfl
  rw [status, ht, hinit, hd, status]

theorem map_status_of_forall₂ {b : CollectionChangeBuilder} {callbacks callbacks' : List Callback}
    (h : List.Forall₂ (fun c c' => addChange b c = some c') callbacks callbacks') :
    callbacks'.map status = callbacks.map status := by
  induction h with
  | nil => rfl
  | cons ha _ ih => rw [List.map_cons, List.map_cons, ih, status_of_addChange ha]

theorem status_prepareHandover (hn : n.prepareHandover = some n') :
    n'.callbacks.map status = n.callbacks.map status := by
  obtain ⟨callbacks, hmap, rfl⟩ := Option.map_eq_some_iff.1 hn
  exact map_status_of_forall₂ (mapM_eq_some.1 hmap)

theorem status_suppress {token : ℕ} (hn : n.suppressNextNotification token = some n') :
    n'.callbacks.map status = n.callbacks.map status ∧ n'.callbackIndex = n.callbackIndex ∧
      n'.callbackCount = n.callbackCount ∧ n'.nextToken = n.nextToken := by
  obtain ⟨idx, -, rfl⟩ := Option.map_eq_some_iff.1 hn
  refine ⟨List.ext_getElem? fun i => ?_, rfl, rfl, rfl⟩
  rw [List.getElem?_map, List.getElem?_map, List.getElem?_modify]
  cases n.callbacks[i]? <;> split_ifs <;> rfl

/-- What may happen while changes are delivered: they are not packaged again, and no callback is
removed that was added since. -/
def WhileDelivering (first : ℕ) : DeliveryEvent α → Prop
  | .packageForDelivery => False
  | .beforeAdvance => False
  | .removeCallback token => token < first
  | _ => True

theorem delivering_step {rows : List α} {e : DeliveryEvent α} (h : Delivering first d.notifier)
    (he : WhileDelivering first e) (hstep : (machine rows).step d e = some d') :
    Delivering first d'.notifier := by
  obtain ⟨-, hstep⟩ := Machine.step_eq_some.1 hstep
  cases e with
  | addCallback =>
    obtain rfl := Option.some_inj.1 hstep
    exact h.addCallback
  | removeCallback token =>
    obtain ⟨n, hn, rfl⟩ := Option.map_eq_some_iff.1 hstep
    exact h.removeCallback he hn
  | suppressNextNotification token =>
    obtain ⟨n, hn, rfl⟩ := Option.map_eq_some_iff.1 hstep
    obtain ⟨hs, hi, hc, ht⟩ := status_suppress hn
    exact h.congr hs hi hc ht
  | run change next =>
    obtain rfl := Option.some_inj.1 hstep
    exact h.congr rfl rfl rfl rfl
  | runBlind next =>
    obtain rfl := Option.some_inj.1 hstep
    exact h.congr rfl rfl rfl rfl
  | prepareHandover =>
    obtain ⟨n, hn, rfl⟩ := Option.map_eq_some_iff.1 hstep
    have hs := status_prepareHandover hn
    obtain ⟨callbacks, -, rfl⟩ := Option.map_eq_some_iff.1 hn
    exact h.congr hs rfl rfl rfl
  | packageForDelivery => exact he.elim
  | beforeAdvance => exact he.elim
  | afterAdvance =>
    obtain ⟨n, hn, rfl⟩ := Option.map_eq_some_iff.1 hstep
    exact h.afterAdvance hn

theorem delivering_runFrom {rows : List α} :
    ∀ {js : List (DeliveryEvent α)} {d : Delivery α}, Delivering first d.notifier →
      (∀ e ∈ js, WhileDelivering first e) → (machine rows).runFrom d js = some d' →
      Delivering first d'.notifier
  | [], _, h, _, hrun => Option.some_inj.1 hrun ▸ h
  | e :: _, _, h, hjs, hrun => by
    obtain ⟨d₁, hstep, hrun⟩ := Option.bind_eq_some_iff.1 hrun
    exact delivering_runFrom (delivering_step h (hjs e (List.mem_cons_self ..)) hstep)
      (fun e he => hjs e (List.mem_cons_of_mem _ he)) hrun

/-! ## Whole runs -/

/-- The callbacks are in the order they were added, the index is not past them, and it is known
whether there are any. -/
structure Listed (n : CollectionNotifier) : Prop where
  sorted : (n.callbacks.map Callback.token).Pairwise (· < ·)
  lt : ∀ c ∈ n.callbacks, c.token < n.nextToken
  index_le : n.callbackIndex ≤ n.callbacks.length
  have_iff : n.haveCallbacks = !n.callbacks.isEmpty

theorem Listed.congr (h : Listed n)
    (ht : n'.callbacks.map Callback.token = n.callbacks.map Callback.token)
    (hi : n'.callbackIndex ≤ n.callbacks.length) (hh : n'.haveCallbacks = n.haveCallbacks)
    (hn : n'.nextToken = n.nextToken) : Listed n' := by
  have hlen : n'.callbacks.length = n.callbacks.length := by
    have := congrArg List.length ht
    rwa [List.length_map, List.length_map] at this
  refine ⟨ht ▸ h.sorted, fun c hc => ?_, hlen ▸ hi, ?_⟩
  · obtain ⟨c', hc', htoken⟩ := List.mem_map.1 (ht ▸ List.mem_map_of_mem (f := Callback.token) hc)
    rw [hn, ← htoken]
    exact h.lt c' hc'
  · have hempty : n'.callbacks.isEmpty = n.callbacks.isEmpty := by
      rw [Bool.eq_iff_iff, List.isEmpty_iff_length_eq_zero, List.isEmpty_iff_length_eq_zero, hlen]
    rw [hh, h.have_iff, hempty]

theorem Listed.addCallback (h : Listed n) : Listed n.addCallback where
  sorted := by
    rw [CollectionNotifier.addCallback, List.map_append]
    refine List.pairwise_append.2 ⟨h.sorted, List.pairwise_singleton _ _, fun t ht u hu => ?_⟩
    obtain ⟨c, hc, rfl⟩ := List.mem_map.1 ht
    rw [List.map_singleton, List.mem_singleton] at hu
    exact hu ▸ h.lt c hc
  lt c hc := by
    obtain hc | hc := List.mem_append.1 hc
    · exact (h.lt c hc).trans (Nat.lt_succ_self _)
    · rw [List.mem_singleton.1 hc]
      exact Nat.lt_succ_self _
  index_le := by
    rw [CollectionNotifier.addCallback, List.length_append]
    exact h.index_le.trans (Nat.le_add_right _ _)
  have_iff := by
    have hle := h.index_le
    have hiff := h.have_iff
    simp only [CollectionNotifier.addCallback]
    -- while one is called there is one
    split_ifs with h0
    · simp
    · cases hc : n.callbacks with
      | nil =>
        rw [hc] at hle
        exact absurd (Nat.le_zero.1 hle) h0
      | cons c cs => simp [hiff, hc]

theorem Listed.removeCallback {token : ℕ} (h : Listed n)
    (hn : n.removeCallback token = some n') : Listed n' := by
  obtain ⟨idx, hidx, rfl⟩ := Option.map_eq_some_iff.1 hn
  obtain ⟨hlt, -⟩ := List.findIdx?_eq_some_iff_getElem.1 hidx
  have hle := h.index_le
  refine ⟨h.sorted.sublist ((List.eraseIdx_sublist ..).map _),
    fun c hc => h.lt c ((List.eraseIdx_sublist ..).subset hc), ?_, rfl⟩
  dsimp only
  rw [List.length_eraseIdx, if_pos hlt]
  split_ifs <;> omega

theorem listed_forEachCallback {fn : Callback → Callback} (hfn : ∀ c, (fn c).token = c.token)
    (h : Listed n) (hn : forEachCallback fn n = some n') : Listed n' := by
  obtain ⟨-, c, hc, rfl⟩ | ⟨-, rfl⟩ := forEachCallback_cases hn
  · refine h.congr ?_ (List.getElem?_eq_some_iff.1 hc).1 rfl rfl
    rw [List.map_set]
    refine set_of_getElem? ?_
    rw [List.getElem?_map, hc, Option.map_some, hfn]
  · exact h.congr rfl (Nat.zero_le _) rfl rfl

theorem listed_step {rows : List α} {e : DeliveryEvent α} (h : Listed d.notifier)
    (hstep : (machine rows).step d e = some d') : Listed d'.notifier := by
  obtain ⟨-, hstep⟩ := Machine.step_eq_some.1 hstep
  cases e with
  | addCallback =>
    obtain rfl := Option.some_inj.1 hstep
    exact h.addCallback
  | removeCallback token =>
    obtain ⟨n, hn, rfl⟩ := Option.map_eq_some_iff.1 hstep
    exact h.removeCallback hn
  | suppressNextNotification token =>
    obtain ⟨n, hn, rfl⟩ := Option.map_eq_some_iff.1 hstep
    obtain ⟨idx, -, rfl⟩ := Option.map_eq_some_iff.1 hn
    refine h.congr (List.ext_getElem? fun i => ?_) h.index_le rfl rfl
    rw [List.getElem?_map, List.getElem?_map, List.getElem?_modify]
    cases d.notifier.callbacks[i]? <;> split_ifs <;> rfl
  | run change next =>
    obtain rfl := Option.some_inj.1 hstep
    exact h.congr rfl h.index_le rfl rfl
  | runBlind next =>
    obtain rfl := Option.some_inj.1 hstep
    exact h.congr rfl h.index_le rfl rfl
  | prepareHandover =>
    obtain ⟨n, hn, rfl⟩ := Option.map_eq_some_iff.1 hstep
    obtain ⟨callbacks, hmap, rfl⟩ := Option.map_eq_some_iff.1 hn
    exact h.congr (tokens_of_forall₂ (mapM_eq_some.1 hmap)) h.index_le rfl rfl
  | packageForDelivery =>
    obtain rfl := Option.some_inj.1 hstep
    refine h.congr ?_ h.index_le rfl rfl
    rw [packageForDelivery, List.map_map]
    rfl
  | beforeAdvance =>
    obtain ⟨n, hn, rfl⟩ := Option.map_eq_some_iff.1 hstep
    exact listed_forEachCallback (fun _ => rfl) h hn
  | afterAdvance =>
    obtain ⟨n, hn, rfl⟩ := Option.map_eq_some_iff.1 hstep
    refine listed_forEachCallback (fun c => ?_) h hn
    split_ifs <;> rfl

theorem listed_run {rows : List α} {es : List (DeliveryEvent α)}
    (h : (machine rows).run es = some d) : Listed d.notifier := by
  refine Machine.run_induction (P := fun _ d => Listed d.notifier) ?_ ?_ es h
  · intro d hd
    obtain rfl := Option.some_inj.1 hd
    exact ⟨.nil, by simp, le_rfl, rfl⟩
  · exact fun _ s e s' _ hl hstep => listed_step hl hstep

/-- Whether there are callbacks is known in every state, though it is not kept while one is
called. -/
theorem haveCallbacks_iff {rows : List α} {es : List (DeliveryEvent α)}
    (h : (machine rows).run es = some d) :
    d.notifier.haveCallbacks = true ↔ d.notifier.callbacks ≠ [] := by
  rw [(listed_run h).have_iff, Bool.not_eq_true', List.isEmpty_eq_false_iff]

/-- The only callback replaces itself while it is called. -/
def onlyReplaced : List (DeliveryEvent Char) :=
  [.addCallback, .runBlind ['a'], .prepareHandover, .packageForDelivery, .afterAdvance,
    .removeCallback 0, .addCallback]

theorem haveCallbacks_iff_replaced : ∃ d, (machine ['a']).run onlyReplaced = some d ∧
    (d.notifier.haveCallbacks = true ↔ d.notifier.callbacks ≠ []) :=
  ⟨_, rfl, @haveCallbacks_iff Char _ ['a'] onlyReplaced rfl⟩

theorem delivering_package (h : Listed n) (hi : n.callbackIndex = 0)
    (hlen : n.callbacks.length < 2 ^ 64) : Delivering n.nextToken n.packageForDelivery where
  loop := by
    refine ⟨?_, ?_, hi.le.trans (Nat.zero_le _), fun i hlt => ?_, fun x hx hf => ?_⟩
    · have := h.sorted
      rw [List.pairwise_map] at this
      rw [packageForDelivery, List.map_map, List.pairwise_map]
      exact this
    · rw [packageForDelivery, List.map_map, List.countP_map]
      refine (List.countP_eq_length.2 fun c hc => decide_eq_true (h.lt c hc)).symm
    · exact absurd (hi ▸ hlt) (Nat.not_lt_zero i)
    · rw [packageForDelivery, List.map_map] at hx
      obtain ⟨c, hc, rfl⟩ := List.mem_map.1 hx
      exact absurd (h.lt c hc) (not_lt.2 hf)
  lt c hc := by
    obtain ⟨c', hc', rfl⟩ := List.mem_map.1 hc
    exact h.lt c' hc'
  first_le := le_rfl
  count_lt := hlen

theorem delivering_run {rows : List α} {es js : List (DeliveryEvent α)}
    (h : (machine rows).run es = some d) (hi : d.notifier.callbackIndex = 0)
    (hlen : d.notifier.callbacks.length < 2 ^ 64)
    (hjs : ∀ e ∈ js, WhileDelivering d.notifier.nextToken e)
    (h' : (machine rows).run (es ++ .packageForDelivery :: js) = some d') :
    Delivering d.notifier.nextToken d'.notifier := by
  rw [Machine.run_append, h, Option.bind_some] at h'
  obtain ⟨d₀, h0, h'⟩ := Option.bind_eq_some_iff.1 h'
  obtain ⟨-, h0⟩ := Machine.step_eq_some.1 h0
  obtain rfl := Option.some_inj.1 h0
  exact delivering_runFrom (delivering_package (listed_run h) hi hlen) hjs h'

/-- Two callbacks are there when the changes are packaged. -/
def addedTwo : List (DeliveryEvent Char) :=
  [.addCallback, .addCallback, .runBlind ['a'], .prepareHandover]

/-- The first removes itself and adds another. -/
def firstReplaced : List (DeliveryEvent Char) :=
  [.afterAdvance, .removeCallback 0, .addCallback, .afterAdvance]

/-- The callback at the place is out of the loop's reach. -/
structure OutOfReach (place : ℕ) (c : Callback) (n : CollectionNotifier) : Prop where
  count_le : n.callbackCount ≤ place
  there : n.callbacks[place]? = some c

theorem OutOfReach.afterAdvance {place : ℕ} (h : OutOfReach place c n)
    (hn : n.afterAdvance = some n') : OutOfReach place c n' := by
  obtain ⟨hlt, c', -, rfl⟩ | ⟨-, rfl⟩ := forEachCallback_cases hn
  · refine ⟨h.count_le, ?_⟩
    dsimp only
    rw [List.getElem?_set_ne (hlt.trans_le h.count_le).ne]
    exact h.there
  · exact ⟨h.count_le, h.there⟩

theorem OutOfReach.rounds {place : ℕ} {rows : List α} :
    ∀ {k : ℕ} {d : Delivery α}, OutOfReach place c d.notifier →
      (machine rows).runFrom d (List.replicate k .afterAdvance) = some d' →
      OutOfReach place c d'.notifier
  | 0, _, h, hrun => Option.some_inj.1 hrun ▸ h
  | _ + 1, _, h, hrun => by
    obtain ⟨d₁, hstep, hrun⟩ := Option.bind_eq_some_iff.1 hrun
    obtain ⟨n, hn, rfl⟩ := Option.map_eq_some_iff.1 (Machine.step_eq_some.1 hstep).2
    exact OutOfReach.rounds (h.afterAdvance hn) hrun

theorem Delivering.outOfReach {token : ℕ} (h : Delivering first n) (ht : first ≤ token)
    (hlt : n.callbackIndex < n.callbackCount) (hn : n.removeCallback token = some n') :
    ∃ c, n.callbacks[n.callbackCount - 1]? = some c ∧ c.token < first ∧
      OutOfReach (n.callbackCount - 1) c n' := by
  obtain ⟨idx, hidx, rfl⟩ := Option.map_eq_some_iff.1 hn
  obtain ⟨hidxlt, htoken, -⟩ := List.findIdx?_eq_some_iff_getElem.1 hidx
  have htoken := of_decide_eq_true htoken
  -- the one removed is not counted, so it stands after the last that is
  have hafter : n.callbackCount ≤ idx := by
    by_contra hbefore
    have hx : (n.callbacks.map status)[idx]? = some (status n.callbacks[idx]) := by
      rw [List.getElem?_map, List.getElem?_eq_getElem hidxlt, Option.map_some]
    have hcounted : n.callbacks[idx].token < first := (lt_countP_iff h.loop.sorted hx).1
      (h.loop.count_eq ▸ not_le.1 hbefore)
    omega
  have hlast : n.callbackCount - 1 < n.callbacks.length := by omega
  have hx : (n.callbacks.map status)[n.callbackCount - 1]?
      = some (status n.callbacks[n.callbackCount - 1]) := by
    rw [List.getElem?_map, List.getElem?_eq_getElem hlast, Option.map_some]
  have hfirst : n.callbacks[n.callbackCount - 1].token < first :=
    (lt_countP_iff h.loop.sorted hx).1 (by rw [← h.loop.count_eq]; omega)
  have hcount := h.count_lt
  refine ⟨n.callbacks[n.callbackCount - 1], List.getElem?_eq_getElem hlast, hfirst, ?_, ?_⟩
  · dsimp only
    omega
  · dsimp only
    rw [List.getElem?_eraseIdx, if_pos (by omega), List.getElem?_eq_getElem hlast]

end IosLearning.Delivery
