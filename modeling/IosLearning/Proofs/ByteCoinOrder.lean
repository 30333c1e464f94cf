import IosLearning.ByteCoin

/-!
# The order of the tickers

The main queue runs what it is handed in the order of the answers, whatever was picked first: the
labels show the answer whose turn was last (`run_tracks`). So they never go back to an earlier
selection, and show the last one when all is done, exactly when the answers they have shown came
in the order of their selections (`in_order_iff`).
-/

namespace IosLearning

namespace ByteCoin

variable {Data : Type*} {decode : Data → Option TickerBtc}

/-- The rows picked, in order; the `n`-th started task `n`. -/
def selections (is : List (Event Data)) : List ℕ :=
  is.filterMap fun
    | .select row => some row
    | _ => none

/-- The currency task `n` asked for. -/
def requested (is : List (Event Data)) (n : ℕ) : Option String :=
  (selections is)[n]?.bind (CoinManager.currencyArray[·]?)

/-- The ticker a response brings. -/
def answer (decode : Data → Option TickerBtc) (data : Option Data) :
    Option String → Option TickerBtc
  | none => data.bind decode
  | some _ => none

/-- The tickers that arrived, in the order they did, with their tasks. -/
def answers (decode : Data → Option TickerBtc) (is : List (Event Data)) : List (ℕ × TickerBtc) :=
  is.filterMap fun
    | .complete task data error => (answer decode data error).map (task, ·)
    | _ => none

def updates (is : List (Event Data)) : ℕ :=
  is.countP fun
    | .runUpdate => true
    | _ => false

/-- The answers whose turn on the main queue has come. -/
def displayed (decode : Data → Option TickerBtc) (is : List (Event Data)) : List (ℕ × TickerBtc) :=
  (answers decode is).take (updates is)

/-- The labels do not go back to the ticker of an earlier task. -/
def NeverBack (decode : Data → Option TickerBtc) (s : CoinTickerController) (e : Event Data) :
    Prop :=
  ∀ s' i, (machine decode).step s e = some s' → s.shown = some i → ∃ j, s'.shown = some j ∧ i ≤ j

/-- When nothing is outstanding and the last selection was answered, the labels show its value and
its currency. -/
def Settled (decode : Data → Option TickerBtc) (is : List (Event Data))
    (s : CoinTickerController) : Prop :=
  s.inFlight = [] → s.mainQueue = [] → ∀ n code t, (selections is).length = n + 1 →
    requested is n = some code → (n, t) ∈ answers decode is →
      s.bitcoinLabel = fixed 2 t.last ∧ s.currencyLabel = code

/-- The service answers with the ticker of the currency asked for. -/
def Serves (decode : Data → Option TickerBtc) (is : List (Event Data)) : Prop :=
  ∀ n code t, requested is n = some code → (n, t) ∈ answers decode is →
    t.display_symbol = "BTC-" ++ code

/-- The labels show the answer of the task they are said to, its value and the currency it asked
for; before the first answer they are as they come up. -/
def LabelsShow (decode : Data → Option TickerBtc) (is : List (Event Data))
    (s : CoinTickerController) : Prop :=
  match s.shown with
  | none => s.bitcoinLabel = "..." ∧ s.currencyLabel = "USD"
  | some i => ∃ t, (i, t) ∈ answers decode is ∧ s.bitcoinLabel = fixed 2 t.last
      ∧ ∀ code, requested is i = some code → s.currencyLabel = code

theorem getAfter_symbol (code : String) : getAfter ("BTC-" ++ code) '-' = code := by
  have hd : ("BTC-" ++ code).toList.dropWhile (· ≠ '-') = '-' :: code.toList := by
    rw [String.toList_append]
    rfl
  unfold getAfter
  rw [hd]
  exact String.ofList_toList

/-! ## Histories -/

section Snoc

variable (is : List (Event Data)) (row task : ℕ) (data : Option Data) (error : Option String)

@[simp] theorem selections_select : selections (is ++ [.select row]) = selections is ++ [row] := by
  simp [selections, List.filterMap_append]

@[simp] theorem selections_complete :
    selections (is ++ [.complete task data error]) = selections is := by
  simp [selections, List.filterMap_append]

@[simp] theorem selections_runUpdate : selections (is ++ [.runUpdate]) = selections is := by
  simp [selections, List.filterMap_append]

@[simp] theorem answers_select : answers decode (is ++ [.select row]) = answers decode is := by
  simp [answers, List.filterMap_append]

@[simp] theorem answers_runUpdate : answers decode (is ++ [.runUpdate]) = answers decode is := by
  simp [answers, List.filterMap_append]

@[simp] theorem updates_select : updates (is ++ [.select row]) = updates is := by
  simp [updates, List.countP_append]

@[simp] theorem updates_complete :
    updates (is ++ [.complete task data error]) = updates is := by
  simp [updates, List.countP_append]

@[simp] theorem updates_runUpdate : updates (is ++ [.runUpdate]) = updates is + 1 := by
  simp [updates, List.countP_append]

end Snoc

variable {is : List (Event Data)} {e : Event Data} {s s' : CoinTickerController}

theorem answers_complete (decode : Data → Option TickerBtc) (is : List (Event Data)) (task : ℕ)
    (data : Option Data) (error : Option String) :
    answers decode (is ++ [.complete task data error])
      = answers decode is ++ ((answer decode data error).map (task, ·)).toList := by
  unfold answers
  rw [List.filterMap_append]
  rcases h : answer decode data error with _ | t <;> simp [h]

/-- The handler hands over what the response brings. -/
theorem completionHandler_eq (task : ℕ) (data : Option Data) (error : Option String) :
    s.completionHandler decode task data error = { s with
      inFlight := s.inFlight.filter (·.task ≠ task)
      mainQueue := s.mainQueue
        ++ (((answer decode data error).map (task, ·)).toList.map
          fun a => ⟨a.1, a.2.tickerUpdateModel⟩) } := by
  unfold CoinTickerController.completionHandler
  rcases error with _ | error
  · rcases hd : data.bind decode with _ | t <;>
      simp [answer, CoinTickerController.didUpdateTicker, hd]
  · simp [answer]

/-- How a run got to its state. -/
structure Tracks (decode : Data → Option TickerBtc) (is : List (Event Data))
    (s : CoinTickerController) : Prop where
  tasks : s.tasks = (selections is).length
  turns : updates is ≤ (answers decode is).length
  queue : s.mainQueue = ((answers decode is).drop (updates is)).map
    fun a => ⟨a.1, a.2.tickerUpdateModel⟩
  shown : s.shown = ((displayed decode is).getLast?).map (·.1)
  labels : ∀ a ∈ (displayed decode is).getLast?, s.bitcoinLabel = a.2.tickerUpdateModel.lastValue
    ∧ s.currencyLabel = a.2.tickerUpdateModel.curencySymbol
  once : ((answers decode is).map (·.1)).Nodup
  asked : ∀ a ∈ answers decode is, a.1 < s.tasks
  awaited : ∀ r ∈ s.inFlight, r.task < s.tasks ∧ r.task ∉ (answers decode is).map (·.1)

namespace Tracks

theorem nil : Tracks decode [] {} where
  tasks := rfl
  turns := Nat.le_refl 0
  queue := rfl
  shown := rfl
  labels := by simp [displayed, answers]
  once := List.nodup_nil
  asked := by simp [answers]
  awaited := by simp

variable (h : Tracks decode is s)

include h

theorem select (row : ℕ) (url : String) :
    Tracks decode (is ++ [.select row]) (s.performRequest url) where
  tasks := by
    rw [selections_select, List.length_append, ← h.tasks]
    rfl
  turns := by
    rw [updates_select, answers_select]
    exact h.turns
  queue := by
    rw [updates_select, answers_select]
    exact h.queue
  shown := by
    rw [displayed, updates_select, answers_select]
    exact h.shown
  labels := by
    rw [displayed, updates_select, answers_select]
    exact h.labels
  once := by
    rw [answers_select]
    exact h.once
  asked := by
    rw [answers_select]
    exact fun a ha => Nat.lt_succ_of_lt (h.asked a ha)
  awaited := by
    rw [answers_select]
    intro r hr
    rcases List.mem_append.1 hr with hr | hr
    · obtain ⟨hlt, hn⟩ := h.awaited r hr
      exact ⟨Nat.lt_succ_of_lt hlt, hn⟩
    · rw [List.mem_singleton] at hr
      subst hr
      refine ⟨Nat.lt_succ_self _, fun hm => ?_⟩
      obtain ⟨a, ha, hat⟩ := List.mem_map.1 hm
      have hlt := h.asked a ha
      have hat : a.1 = s.tasks := hat
      omega

theorem displayed_complete (task : ℕ) (data : Option Data) (error : Option String) :
    displayed decode (is ++ [.complete task data error]) = displayed decode is := by
  rw [displayed, answers_complete, updates_complete, List.take_append_of_le_length h.turns,
    displayed]

theorem complete {task : ℕ} (hr : ∃ r ∈ s.inFlight, r.task = task) (data : Option Data)
    (error : Option String) : Tracks decode (is ++ [.complete task data error])
      (s.completionHandler decode task data error) := by
  obtain ⟨r, hr, rfl⟩ := hr
  obtain ⟨hlt, hn⟩ := h.awaited r hr
  have hd := h.displayed_complete r.task data error
  have ha := answers_complete decode is r.task data error
  -- what comes in belongs to the task, and is one answer at most
  have htask : ∀ a ∈ ((answer decode data error).map (r.task, ·)).toList, a.1 = r.task := by
    intro a hm
    rw [Option.mem_toList, Option.map_eq_some_iff] at hm
    obtain ⟨t, -, rfl⟩ := hm
    rfl
  have hone : (((answer decode data error).map (r.task, ·)).toList.map (·.1)).Nodup := by
    rcases answer decode data error with _ | t
    · exact List.nodup_nil
    · exact List.nodup_singleton _
  rw [completionHandler_eq]
  refine ⟨?_, ?_, ?_, ?_, ?_, ?_, ?_, ?_⟩
  · rw [selections_complete]
    exact h.tasks
  · rw [ha, updates_complete, List.length_append]
    exact Nat.le_add_right_of_le h.turns
  · rw [ha, updates_complete, List.drop_append_of_le_length h.turns, List.map_append, ← h.queue]
  · rw [hd]
    exact h.shown
  · rw [hd]
    exact h.labels
  · rw [ha, List.map_append, List.nodup_append]
    refine ⟨h.once, hone, fun n hn' m hm hnm => ?_⟩
    obtain ⟨a, hmem, rfl⟩ := List.mem_map.1 hm
    subst hnm
    exact hn (htask a hmem ▸ hn')
  · rw [ha]
    intro a hm
    rcases List.mem_append.1 hm with hm | hm
    · exact h.asked a hm
    · rw [htask a hm]
      exact hlt
  · rw [ha]
    intro r' hr'
    obtain ⟨hr', hne⟩ := List.mem_filter.1 hr'
    obtain ⟨hlt', hn'⟩ := h.awaited r' hr'
    refine ⟨hlt', fun hm => ?_⟩
    rw [List.map_append, List.mem_append] at hm
    rcases hm with hm | hm
    · exact hn' hm
    · obtain ⟨a, hm, hat⟩ := List.mem_map.1 hm
      have heq : r'.task = r.task := hat.symm.trans (htask a hm)
      simp [heq] at hne

theorem runUpdate (hs : s.runUpdate = some s') : ∃ a, s'.shown = some a.1
    ∧ displayed decode (is ++ [.runUpdate]) = displayed decode is ++ [a]
    ∧ Tracks decode (is ++ [.runUpdate]) s' := by
  rcases hq : s.mainQueue with _ | ⟨u, us⟩
  · simp [CoinTickerController.runUpdate, hq] at hs
  · rcases hdrop : (answers decode is).drop (updates is) with _ | ⟨a, as⟩
    · have hqueue := h.queue
      rw [hq, hdrop] at hqueue
      cases hqueue
    · have hqueue := h.queue
      rw [hq, hdrop, List.map_cons] at hqueue
      obtain ⟨rfl, rfl⟩ := List.cons.inj hqueue
      have hget : (answers decode is)[updates is]? = some a := by
        rw [← List.head?_drop, hdrop]
        rfl
      have hd : displayed decode (is ++ [.runUpdate]) = displayed decode is ++ [a] := by
        rw [displayed, answers_runUpdate, updates_runUpdate, List.take_add_one, hget]
        rfl
      simp only [CoinTickerController.runUpdate, hq, Option.some.injEq] at hs
      subst hs
      refine ⟨a, rfl, hd, ?_, ?_, ?_, ?_, ?_, ?_, ?_, ?_⟩
      · rw [selections_runUpdate]
        exact h.tasks
      · rw [answers_runUpdate, updates_runUpdate]
        exact (List.getElem?_eq_some_iff.1 hget).1
      · rw [answers_runUpdate, updates_runUpdate, ← List.drop_drop, hdrop]
        rfl
      · rw [hd, List.getLast?_concat]
        rfl
      · rw [hd, List.getLast?_concat]
        rintro _ ⟨⟩
        exact ⟨rfl, rfl⟩
      · rw [answers_runUpdate]
        exact h.once
      · rw [answers_runUpdate]
        exact h.asked
      · rw [answers_runUpdate]
        exact h.awaited

end Tracks

/-- A step shows nothing new, or one more answer. -/
theorem step_tracks (h : Tracks decode is s) (hst : (machine decode).step s e = some s') :
    Tracks decode (is ++ [e]) s'
      ∧ ((displayed decode (is ++ [e]) = displayed decode is ∧ s'.shown = s.shown)
        ∨ ∃ a, displayed decode (is ++ [e]) = displayed decode is ++ [a]
          ∧ s'.shown = some a.1) := by
  obtain ⟨he, hh⟩ := Machine.step_eq_some.1 hst
  cases e with
  | select row =>
    obtain ⟨url, -, rfl⟩ := Option.map_eq_some_iff.1 hh
    refine ⟨h.select row url, Or.inl ⟨?_, rfl⟩⟩
    rw [displayed, answers_select, updates_select, displayed]
  | complete task data error =>
    obtain rfl := Option.some.inj hh
    refine ⟨h.complete (by simpa [machine] using he) data error,
      Or.inl ⟨h.displayed_complete task data error, ?_⟩⟩
    rw [completionHandler_eq]
  | runUpdate =>
    obtain ⟨a, hshown, hd, ht⟩ := h.runUpdate hh
    exact ⟨ht, Or.inr ⟨a, hd, hshown⟩⟩

theorem run_tracks (hr : (machine decode).run is = some s) : Tracks decode is s := by
  refine Machine.run_induction (P := Tracks decode) (fun s hs => ?_)
    (fun is s e s' _ h hst => (step_tracks h hst).1) is hr
  obtain rfl := Option.some.inj hs
  exact .nil

/-! ## The order -/

/-- What has been displayed was answered in the order it was asked for. -/
def InOrder (decode : Data → Option TickerBtc) (is : List (Event Data)) : Prop :=
  ((displayed decode is).map (·.1)).Pairwise (· ≤ ·)

theorem pairwise_snoc_iff {l : List ℕ} {n : ℕ} :
    (l ++ [n]).Pairwise (· ≤ ·) ↔ l.Pairwise (· ≤ ·) ∧ ∀ m ∈ l.getLast?, m ≤ n := by
  rw [← List.isChain_iff_pairwise, ← List.isChain_iff_pairwise, List.isChain_append]
  simp

/-- One more answer keeps the order exactly when the labels do not go back. -/
theorem inOrder_snoc (h : Tracks decode is s) (hst : (machine decode).step s e = some s') :
    InOrder decode (is ++ [e]) ↔ InOrder decode is ∧ NeverBack decode s e := by
  unfold InOrder
  rcases (step_tracks h hst).2 with ⟨hd, hshown⟩ | ⟨a, hd, hshown⟩
  · rw [hd]
    refine (and_iff_left fun s₁ i hs₁ hi => ?_).symm
    obtain rfl := Option.some.inj (hst.symm.trans hs₁)
    exact ⟨i, hshown.trans hi, Nat.le_refl i⟩
  · rw [hd, List.map_append, List.map_singleton, pairwise_snoc_iff, List.getLast?_map, ← h.shown]
    refine and_congr_right fun _ => ?_
    refine ⟨fun hle s₁ i hs₁ hi => ?_, fun hnb m hm => ?_⟩
    · obtain rfl := Option.some.inj (hst.symm.trans hs₁)
      exact ⟨a.1, hshown, hle i hi⟩
    · obtain ⟨j, hj, hle⟩ := hnb s' m hst hm
      obtain rfl := Option.some.inj (hshown.symm.trans hj)
      exact hle

theorem ticker_of_symbol {t : TickerBtc} {code : String} (h : t.display_symbol = "BTC-" ++ code) :
    t.tickerUpdateModel.curencySymbol = code := by
  rw [TickerBtc.tickerUpdateModel, h]
  exact getAfter_symbol code

/-- In order, what is displayed last belongs to the last selection, if that was answered. -/
theorem settled_of_inOrder (h : Tracks decode is s) (ho : InOrder decode is)
    (hserv : Serves decode is) : Settled decode is s := by
  intro _ hq n code t hn hcode ht
  have hall : displayed decode is = answers decode is := by
    have hlen := congrArg List.length h.queue
    rw [hq, List.length_map, List.length_drop, List.length_nil] at hlen
    exact List.take_of_length_le (by omega)
  unfold InOrder at ho
  rw [hall] at ho
  have hlast := h.labels
  rw [hall] at hlast
  obtain ⟨as, a, has⟩ : ∃ as a, answers decode is = as ++ [a] :=
    ⟨_, _, (List.dropLast_append_getLast (List.ne_nil_of_mem ht)).symm⟩
  -- the last answer is no earlier than the last selection's, and no later
  have ha : a ∈ answers decode is := by
    rw [has]
    simp
  have hle : n ≤ a.1 := by
    rw [has] at ht ho
    rw [List.map_append, List.pairwise_append] at ho
    rcases List.mem_append.1 ht with ht | ht
    · exact ho.2.2 n (List.mem_map_of_mem ht) a.1 (by simp)
    · rw [← List.mem_singleton.1 ht]
  have hlt := h.asked a ha
  rw [h.tasks, hn] at hlt
  have heq : (n, t) = a := by
    refine List.inj_on_of_nodup_map h.once ht ha ?_
    show n = a.1
    omega
  obtain ⟨hb, hc⟩ := hlast a (by rw [has, List.getLast?_concat]; rfl)
  subst heq
  exact ⟨hb, hc.trans (ticker_of_symbol (hserv n code t hcode ht))⟩

theorem answers_subset (is : List (Event Data)) (e : Event Data) :
    answers decode is ⊆ answers decode (is ++ [e]) := by
  unfold answers
  rw [List.filterMap_append]
  exact List.subset_append_left _ _

theorem requested_snoc {n : ℕ} {code : String} (h : requested is n = some code)
    (e : Event Data) : requested (is ++ [e]) n = some code := by
  unfold requested selections at h ⊢
  obtain ⟨row, hrow, hcode⟩ := Option.bind_eq_some_iff.1 h
  have hlt := (List.getElem?_eq_some_iff.1 hrow).1
  rw [List.filterMap_append, List.getElem?_append_left hlt, hrow]
  exact hcode

theorem Serves.init (h : Serves decode (is ++ [e])) : Serves decode is :=
  fun n code t hcode ht =>
    h n code t (requested_snoc hcode e) (answers_subset is e ht)

theorem Serves.restrict {pre : List (Event Data)} (h : Serves decode is) (hp : pre <+: is) :
    Serves decode pre := by
  obtain ⟨js, rfl⟩ := hp
  induction js using List.reverseRecOn with
  | nil => simpa using h
  | append_singleton js e ih =>
    rw [← List.append_assoc] at h
    exact ih h.init

theorem run_unshown (hr : (machine decode).run is = some s) :
    s.shown = none → s.bitcoinLabel = "..." ∧ s.currencyLabel = "USD" := by
  refine Machine.run_induction (P := fun _ s =>
    s.shown = none → s.bitcoinLabel = "..." ∧ s.currencyLabel = "USD") (fun s hs _ => ?_)
    (fun is s e s' _ ih hst hn => ?_) is hr
  · obtain rfl := Option.some.inj hs
    exact ⟨rfl, rfl⟩
  · have hh := (Machine.step_eq_some.1 hst).2
    cases e with
    | select row =>
      obtain ⟨url, -, rfl⟩ := Option.map_eq_some_iff.1 hh
      exact ih hn
    | complete task data error =>
      obtain rfl := Option.some.inj hh
      rw [completionHandler_eq] at hn ⊢
      exact ih hn
    | runUpdate =>
      rcases hq : s.mainQueue with _ | ⟨u, us⟩ <;>
        simp only [machine, CoinTickerController.runUpdate, hq, reduceCtorEq,
          Option.some.injEq] at hh
      subst hh
      cases hn

theorem run_labelsShow (hr : (machine decode).run is = some s) (hserv : Serves decode is) :
    LabelsShow decode is s := by
  have h := run_tracks hr
  unfold LabelsShow
  split
  case _ hn => exact run_unshown hr hn
  case _ i hi =>
    obtain ⟨⟨n, t⟩, ha, rfl⟩ := Option.map_eq_some_iff.1 (h.shown.symm.trans hi)
    obtain ⟨hb, hc⟩ := h.labels _ ha
    have hm : (n, t) ∈ answers decode is := List.mem_of_mem_take (List.mem_of_getLast? ha)
    exact ⟨t, hm, hb, fun code hcode =>
      hc.trans (ticker_of_symbol (hserv n code t hcode hm))⟩

theorem along_always_iff_inOrder (hr : (machine decode).run is = some s)
    (hserv : Serves decode is) :
    ((machine decode).Along (fun _ s e => NeverBack decode s e) is
        ∧ (machine decode).Always (Settled decode) is) ↔ InOrder decode is := by
  refine Machine.run_induction (P := fun is _ => Serves decode is →
    (((machine decode).Along (fun _ s e => NeverBack decode s e) is
        ∧ (machine decode).Always (Settled decode) is) ↔ InOrder decode is)) ?_ ?_ is hr hserv
  · intro s hs _
    refine iff_of_true ⟨Machine.along_nil, Machine.always_nil.2 fun s _ _ _ n _ _ hn => ?_⟩ ?_
    · cases hn
    · exact List.Pairwise.nil
  · intro is s e s' hr ih hst hserv
    have h := run_tracks hr
    have hr' := Machine.run_snoc_some.2 ⟨s, hr, hst⟩
    rw [Machine.along_snoc, Machine.always_snoc, inOrder_snoc h hst, ← ih hserv.init]
    refine ⟨fun hall => ?_, fun hall => ?_⟩
    · obtain ⟨⟨hal, hnb⟩, hset, -⟩ := hall
      exact ⟨⟨hal, hset⟩, hnb s hr⟩
    · obtain ⟨⟨hal, hset⟩, hnb⟩ := hall
      refine ⟨⟨hal, fun s₁ hr₁ => ?_⟩, hset, fun s₁ hr₁ => ?_⟩
      · obtain rfl := Option.some.inj (hr.symm.trans hr₁)
        exact hnb
      · obtain rfl := Option.some.inj (hr'.symm.trans hr₁)
        have ho := (inOrder_snoc h hst).2 ⟨(ih hserv.init).1 ⟨hal, hset⟩, hnb⟩
        exact settled_of_inOrder (step_tracks h hst).1 ho hserv

/-- Throughout a run the labels never go back, and show the last selection's ticker when all is
done, exactly when what has been displayed was answered in the order it was asked for. Whatever
the order, they show the value and the currency of one selection, the one they are said to. -/
theorem in_order_iff (hr : (machine decode).run is = some s) (hserv : Serves decode is) :
    (((machine decode).Along (fun _ s e => NeverBack decode s e) is
        ∧ (machine decode).Always (Settled decode) is) ↔ InOrder decode is)
      ∧ (machine decode).Always (LabelsShow decode) is :=
  ⟨along_always_iff_inOrder hr hserv,
    fun _ _ hp hr' => run_labelsShow hr' (hserv.restrict hp)⟩

/-- Australian dollars and then reais are picked, and come in that order. -/
def inTurn : List (Event TickerBtc) :=
  [.select 0, .select 1, .complete 0 (some ⟨13000, "BTC-AUD"⟩) none,
    .complete 1 (some ⟨47000, "BTC-BRL"⟩) none, .runUpdate, .runUpdate]

theorem in_order_two_selections :
    (machine some).Along (fun _ s e => NeverBack some s e) inTurn
      ∧ (machine some).Always (Settled some) inTurn := by
  obtain ⟨s, hs⟩ : ∃ s, (machine some).run inTurn = some s := ⟨_, rfl⟩
  refine (in_order_iff hs fun n code t hcode ht => ?_).1.2 ?_
  · rcases List.mem_cons.1 ht with ht | ht
    · obtain ⟨rfl, rfl⟩ := Prod.mk.inj ht
      cases hcode
      decide
    · obtain ⟨rfl, rfl⟩ := Prod.mk.inj (List.mem_singleton.1 ht)
      cases hcode
      decide
  · show ([0, 1] : List ℕ).Pairwise (· ≤ ·)
    decide

/-- Australian dollars and then reais are picked; the reais come first, and go. -/
def overtaken : List (Event TickerBtc) :=
  [.select 0, .select 1, .complete 1 (some ⟨47000, "BTC-BRL"⟩) none,
    .complete 0 (some ⟨13000, "BTC-AUD"⟩) none, .runUpdate, .runUpdate]

theorem overtaken_goes_back :
    Serves some overtaken
      ∧ ¬ ((machine some).Along (fun _ s e => NeverBack some s e) overtaken
        ∧ (machine some).Always (Settled some) overtaken) := by
  refine ⟨fun n code t hcode ht => ?_, fun h => ?_⟩
  · rcases List.mem_cons.1 ht with ht | ht
    · obtain ⟨rfl, rfl⟩ := Prod.mk.inj ht
      cases hcode
      decide
    · obtain ⟨rfl, rfl⟩ := Prod.mk.inj (List.mem_singleton.1 ht)
      cases hcode
      decide
  · obtain ⟨s, hs⟩ : ∃ s, (machine some).run overtaken.dropLast = some s := ⟨_, rfl⟩
    obtain ⟨s', hs'⟩ : ∃ s', (machine some).run overtaken = some s' := ⟨_, rfl⟩
    have hback := h.1 _ .runUpdate s List.prefix_rfl hs
    obtain ⟨s₁, hs₁, hst⟩ := Machine.run_snoc_some.1
      (show (machine some).run (overtaken.dropLast ++ [.runUpdate]) = some s' from hs')
    obtain rfl := Option.some.inj (hs.symm.trans hs₁)
    cases hs
    cases hs'
    obtain ⟨j, hj, hle⟩ := hback _ 1 hst rfl
    cases hj
    exact absurd hle (by decide)

end ByteCoin

end IosLearning
