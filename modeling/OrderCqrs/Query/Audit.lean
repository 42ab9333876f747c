import OrderCqrs.Platform.Versions

/-!
The audit trail of an order (`get_order_events` in `api/routers/query_router.py`), while MongoDB
deletes what has expired.

* `EventHistoryItem`, `getOrderEvents`: the endpoint.
* `Numbered`: the versions of a log are `1, …, n`.
* `Whole`: of an order nothing is deleted, its stored log is numbered, and its handlers are going to
  append at a version that is taken, or at the next one.
* `Whole.step`: every move keeps that which deletes no event of the order.
* `audit_complete`: **the trail is complete up to 30 days after the last moment at which the order
  was not cancelled**, and until then it is only added to.
-/

namespace OrderCqrs

open Runs

/-! ### The endpoint -/

/-- `EventHistoryItem`. -/
structure EventHistoryItem where
  eventId : String
  eventType : EventType
  aggregateVersion : ℤ
  occurredAt : Timestamp
  payload : Payload
  correlationId : String
  deriving DecidableEq

/-- What the response model keeps of a stored event. -/
def Event.historyItem (e : Event) : EventHistoryItem where
  eventId := e.eventId
  eventType := e.eventType
  aggregateVersion := e.aggregateVersion
  occurredAt := e.occurredAt
  payload := e.payload
  correlationId := e.correlationId

/-- `get_order_events`. -/
def getOrderEvents (store : List Event) (orderId : String) :
    Except ApiError (List EventHistoryItem) :=
  match getEvents store orderId with
  | [] => .error (.httpException 404 s!"Order {orderId} not found")
  | events => .ok (events.map Event.historyItem)

/-! ### Numbered logs -/

/-- The versions of the log are `1, …, n`. -/
def Numbered (log : List Event) : Prop :=
  log.map (·.aggregateVersion) = versionsUpTo log.length

namespace Numbered

variable {log : List Event} {e : Event}

lemma nil : Numbered [] := rfl

lemma concat (h : Numbered log) (he : e.aggregateVersion = log.length + 1) :
    Numbered (log ++ [e]) := by
  rw [Numbered] at h ⊢
  rw [List.map_append, h, List.length_append, List.length_singleton, versionsUpTo_succ,
    List.map_singleton, he]

lemma mem_iff (h : Numbered log) {v : ℤ} :
    (∃ e ∈ log, e.aggregateVersion = v) ↔ 1 ≤ v ∧ v ≤ log.length := by
  rw [← List.mem_map, h, mem_versionsUpTo]

lemma sorted (h : Numbered log) : VersionSorted log := by
  have hlt := versionsUpTo_pairwise log.length
  rw [← h, List.pairwise_map] at hlt
  exact hlt.imp le_of_lt

end Numbered

/-- **What the endpoint answers** for an order with a numbered log. -/
lemma getOrderEvents_eq {store : List Event} {o : String} (h : Numbered (orderLog store o)) :
    getOrderEvents store o =
      if orderLog store o = [] then .error (.httpException 404 s!"Order {o} not found")
      else .ok ((orderLog store o).map Event.historyItem) := by
  rw [getOrderEvents, getEvents_eq_orderLog h.sorted]
  cases orderLog store o with
  | nil => rfl
  | cons e log => rfl

/-! ### An order that nothing is deleted of -/

/-- **Nothing of the order is deleted.** -/
structure Whole (s : Retention) (o : String) : Prop where
  complete : orderLog s.store o = orderLog s.history o
  numbered : Numbered (orderLog s.store o)
  /-- Handlers go on from a version that they have read. -/
  slots : ∀ h ∈ s.handlers, ∀ v, h.slot? = some (o, v) → 1 ≤ v ∧ v ≤ (orderLog s.store o).length + 1

namespace Whole

variable {partitioner : String → ℕ} {s t : Retention} {o : String}

lemma init (partitions : ℕ) (rm : ReadModel) (o : String) : Whole (.init partitions rm) o where
  complete := rfl
  numbered := .nil
  slots := fun _ hh => absurd hh List.not_mem_nil

/-- The slots after a command fit what was stored before it. -/
lemma slots_step (hs : Whole s o) {a : Action} {w : State}
    (hstep : OrderCqrs.step s.platform.write a = some w) {g : Handler} (hg : g ∈ w.handlers)
    {v : ℤ} (hslot : g.slot? = some (o, v)) : 1 ≤ v ∧ v ≤ (orderLog s.store o).length + 1 := by
  obtain ⟨j, hget⟩ := List.mem_iff_getElem?.mp hg
  rcases slot_cases hstep hget hslot with ⟨h, hh, hslot', _⟩ | ⟨rfl, _, _⟩ | ⟨agg, hload, rfl, _⟩
  · exact hs.slots h (List.mem_of_getElem? hh) v hslot'
  · omega
  · have hversion := hs.numbered.mem_iff.mp (version_mem_of_load hload)
    omega

/-- A claimed version that is free is the next one. -/
lemma version_eq (hs : Whole s o) {h : Handler} (hmem : h ∈ s.handlers) {b : Built}
    (hpc : h.pc = .append b) (ho : b.event.aggregateId = o)
    (hfree : ∀ d ∈ s.store, ¬ DuplicateKey b.event d) :
    b.event.aggregateVersion = (orderLog s.store o).length + 1 := by
  subst ho
  have hslot := hs.slots h hmem _ (Handler.slot?_append hpc)
  have hnew := hs.numbered.mem_iff.not.mp (not_mem_versions hfree)
  omega

/-- A command keeps the order whole. -/
lemma command [Btree] (hs : Whole s o) {a : Action} (h : s.step partitioner (.command a) = some t) :
    Whole t o := by
  obtain ⟨hplatform, _, _⟩ := Retention.command_cases h
  obtain ⟨hwrite, _, _⟩ := Platform.command_cases hplatform
  have hslots : ∀ g ∈ t.handlers, ∀ v, g.slot? = some (o, v) →
      1 ≤ v ∧ v ≤ (orderLog s.store o).length + 1 := fun g hg v hslot =>
    hs.slots_step hwrite hg hslot
  rcases Retention.append_cases h with
    ⟨hstore, hhistory⟩ | ⟨g, hg, b, hpc, hfree, hstore, hhistory⟩
  · refine ⟨?_, ?_, ?_⟩
    · rw [hstore, hhistory]
      exact hs.complete
    · rw [hstore]
      exact hs.numbered
    · rw [hstore]
      exact hslots
  by_cases ho : b.event.aggregateId = o
  · -- the event takes the next version
    have hlog : orderLog t.store o = orderLog s.store o ++ [b.event] := by
      rw [hstore, orderLog_concat_self ho]
    refine ⟨?_, ?_, fun g' hg' v hslot => ?_⟩
    · rw [hlog, hhistory, orderLog_concat_self ho, hs.complete]
    · rw [hlog]
      exact hs.numbered.concat (hs.version_eq hg hpc ho hfree)
    · have hold := hslots g' hg' v hslot
      rw [hlog, List.length_append, List.length_singleton]
      omega
  · have hlog : orderLog t.store o = orderLog s.store o := by
      rw [hstore, orderLog_concat_of_ne ho]
    refine ⟨?_, ?_, ?_⟩
    · rw [hlog, hhistory, orderLog_concat_of_ne ho, hs.complete]
    · rw [hlog]
      exact hs.numbered
    · rw [hlog]
      exact hslots

/-- The deletion of an event of another order keeps the order whole. -/
lemma delete (hs : Whole s o) {e : Event} (ho : e.aggregateId ≠ o) : Whole (s.delete e) o := by
  have hlog := Retention.orderLog_delete_of_ne (s := s) ho
  refine ⟨?_, ?_, ?_⟩
  · rw [hlog]
    exact hs.complete
  · rw [hlog]
    exact hs.numbered
  · rw [hlog]
    exact hs.slots

/-- **Every move keeps the order whole that deletes no event of it.** -/
lemma step [Btree] (hs : Whole s o) {a : RetentionAction} (h : s.step partitioner a = some t)
    (hspared : ∀ e date, (e, date) ∈ s.dates → date ≤ s.now → e.aggregateId ≠ o) : Whole t o := by
  cases a with
  | command a => exact hs.command h
  | deliver a =>
      obtain ⟨hplatform, hhistory, _⟩ := Retention.deliver_cases h
      obtain ⟨_, _, hwrite, _⟩ := Platform.deliver_cases hplatform
      refine ⟨?_, ?_, ?_⟩
      · rw [hhistory, Retention.store, hwrite]
        exact hs.complete
      · rw [Retention.store, hwrite]
        exact hs.numbered
      · rw [Retention.store, Retention.handlers, hwrite]
        exact hs.slots
  | tick seconds =>
      obtain rfl := Option.some.inj h
      exact ⟨hs.complete, hs.numbered, hs.slots⟩
  | prune id =>
      simp only [Retention.step, Option.bind_eq_bind, Option.bind_eq_some_iff,
        Option.guard_eq_some'] at h
      obtain ⟨e, _, date, hdate, _, hdue, h⟩ := h
      obtain rfl := Option.some.inj h
      obtain ⟨⟨d, date'⟩, hfind, rfl⟩ := Option.map_eq_some_iff.mp hdate
      obtain rfl : d = e := by simpa using List.find?_some hfind
      exact hs.delete (hspared d date' (List.mem_of_find?_eq_some hfind) hdue)

end Whole

/-! ### Dates -/

namespace Retention

variable {partitioner : String → ℕ} {s t : Retention} {a : RetentionAction}

/-- The clock goes on, and dates are set 30 days ahead. -/
lemma dates_step [Btree] (h : s.step partitioner a = some t) :
    s.now ≤ t.now ∧ ∀ x ∈ t.dates, x ∈ s.dates ∨ x.2 = s.now + retentionSeconds := by
  cases a with
  | command a =>
      obtain ⟨platform, _, h⟩ := Option.bind_eq_some_iff.mp h
      obtain rfl := Option.some.inj h
      exact ⟨le_rfl, fun x hx => Or.inl hx⟩
  | deliver a =>
      obtain ⟨platform, _, h⟩ := Option.bind_eq_some_iff.mp h
      obtain rfl := Option.some.inj h
      refine ⟨le_rfl, fun x hx => (List.mem_append.mp hx).symm.imp_right fun hnew => ?_⟩
      obtain ⟨_, _, rfl⟩ := List.mem_map.mp hnew
      rfl
  | tick seconds =>
      obtain rfl := Option.some.inj h
      exact ⟨Nat.le_add_right _ _, fun x hx => Or.inl hx⟩
  | prune id =>
      obtain ⟨e, _, _, rfl⟩ := prune_cases h
      exact ⟨le_rfl, fun x hx => Or.inl hx⟩

/-- The history is only added to. -/
lemma history_isPrefix [Btree] (h : s.step partitioner a = some t) : s.history <+: t.history := by
  cases a with
  | command a => exact (command_cases h).2.2 ▸ List.prefix_append _ _
  | deliver a => exact (deliver_cases h).2.1 ▸ List.prefix_rfl
  | tick seconds =>
      obtain rfl := Option.some.inj h
      exact List.prefix_rfl
  | prune id =>
      obtain ⟨e, _, _, rfl⟩ := prune_cases h
      exact List.prefix_rfl

/-- An order that was never cancelled is whole. -/
lemma whole_of_open [Btree] {partitions : ℕ} {rm : ReadModel} {as : List RetentionAction}
    {o : String}
    (hrun : run (step partitioner) (.init partitions rm) as = some s)
    (hopen : ¬ CancelledIn s.history o) : Whole s o := by
  have hinv : HistoryInv s ∧ (¬ CancelledIn s.history o → Whole s o) := by
    refine run_preserves (P := fun s => HistoryInv s ∧ (¬ CancelledIn s.history o → Whole s o))
      (fun {s a t} hs h => ⟨historyInv_step hs.1 h, fun hopen => ?_⟩)
      ⟨historyInv_init partitions rm, fun _ => .init partitions rm o⟩ hrun
    have hbefore : ¬ CancelledIn s.history o :=
      fun hc => hopen (hc.mono (history_isPrefix h).subset)
    refine (hs.2 hbefore).step h ?_
    -- what has a date is of a cancelled order
    rintro e date hdate _ rfl
    exact hbefore (hs.1.flagged _ hdate)
  exact hinv.2 hopen

end Retention

/-- **The audit trail is complete.**  At some moment an order is not cancelled; less than 30 days
after it the endpoint answers with every event that was ever appended for the order, numbered from
1, and all that it would have answered at the moment itself comes first. -/
theorem audit_complete [Btree] {partitioner : String → ℕ} {partitions : ℕ} {rm : ReadModel}
    {as bs : List RetentionAction} {s t : Retention} {o : String}
    (hrun : run (Retention.step partitioner) (.init partitions rm) as = some s)
    (hopen : ¬ CancelledIn s.history o) (hnext : run (Retention.step partitioner) s bs = some t)
    (hnow : t.now < s.now + retentionSeconds) :
    (getOrderEvents t.store o =
      if orderLog t.history o = [] then .error (.httpException 404 s!"Order {o} not found")
      else .ok ((orderLog t.history o).map Event.historyItem)) ∧
    Numbered (orderLog t.history o) ∧
    ∀ trail, getOrderEvents s.store o = .ok trail →
      ∃ more, getOrderEvents t.store o = .ok (trail ++ more) := by
  have hhist : s.HistoryInv :=
    run_preserves (fun hs h => Retention.historyInv_step hs h)
      (Retention.historyInv_init partitions rm) hrun
  have hstart : Whole s o := Retention.whole_of_open hrun hopen
  -- no date of the order is earlier than 30 days after the moment
  have hinv : s.now ≤ t.now ∧ s.history <+: t.history ∧
      (∀ x ∈ t.dates, x.1.aggregateId = o → s.now + retentionSeconds ≤ x.2) ∧
      (t.now < s.now + retentionSeconds → Whole t o) := by
    refine run_preserves (P := fun t => s.now ≤ t.now ∧ s.history <+: t.history ∧
      (∀ x ∈ t.dates, x.1.aggregateId = o → s.now + retentionSeconds ≤ x.2) ∧
      (t.now < s.now + retentionSeconds → Whole t o)) (fun {u a v} hu h => ?_)
      ⟨le_rfl, List.prefix_rfl, fun x hx ho => absurd (ho ▸ hhist.flagged x hx) hopen,
        fun _ => hstart⟩ hnext
    obtain ⟨hlater, hprefix, hdates, hwhole⟩ := hu
    obtain ⟨htick, hnew⟩ := Retention.dates_step h
    refine ⟨hlater.trans htick, hprefix.trans (Retention.history_isPrefix h), fun x hx ho => ?_,
      fun hsoon => (hwhole (htick.trans_lt hsoon)).step h fun e date hdate hdue ho => ?_⟩
    · rcases hnew x hx with hold | heq
      · exact hdates x hold ho
      · omega
    · have hdeadline := hdates _ hdate ho
      omega
  obtain ⟨_, ⟨later, hhistory⟩, _, hwhole⟩ := hinv
  have hend : Whole t o := hwhole hnow
  have hanswer := getOrderEvents_eq hend.numbered
  rw [hend.complete] at hanswer
  refine ⟨hanswer, hend.complete ▸ hend.numbered, fun trail htrail => ?_⟩
  rw [getOrderEvents_eq hstart.numbered, hstart.complete] at htrail
  have hgrown : orderLog t.history o = orderLog s.history o ++ orderLog later o := by
    rw [← hhistory, orderLog, List.filter_append]
    rfl
  split_ifs at htrail with hnil
  obtain rfl := Except.ok.inj htrail
  refine ⟨(orderLog later o).map Event.historyItem, ?_⟩
  rw [hanswer, hgrown, if_neg (fun h => hnil (List.append_eq_nil_iff.mp h).1), List.map_append]

/-- The moves after the creation of the order, up to the last second before its events expire. -/
def afterCreation : List RetentionAction :=
  (cancelledRun.drop 7).map PlatformAction.retained ++ [.tick (retentionSeconds - 1)]

/-- The order is cancelled, and both its events are still in the trail. -/
theorem cancelledRun_audit : ∃ s t : Retention, ∃ trail,
    run (Retention.step fun _ => 0) (.init 1 .empty)
      ((cancelledRun.take 7).map PlatformAction.retained) = some s ∧
    run (Retention.step fun _ => 0) s afterCreation = some t ∧ t.dates ≠ [] ∧
    getOrderEvents t.store "order-0" = .ok trail ∧
    trail.map (·.eventType) = [.orderCreated, .orderCancelled] := by
  obtain ⟨s, hrun, hopen, hlater⟩ := exists_run_of_eval
    (by decide +kernel : ((run (Retention.step fun _ => 0) (.init 1 .empty)
      ((cancelledRun.take 7).map PlatformAction.retained)).any fun s =>
        decide (¬ CancelledIn s.history "order-0" ∧
          (run (Retention.step fun _ => 0) s afterCreation).any fun t => decide
            (t.dates ≠ [] ∧ t.now < s.now + retentionSeconds ∧
              (orderLog t.history "order-0").map (·.eventType) =
                [.orderCreated, .orderCancelled]))) = true)
  obtain ⟨t, hnext, hdates, hnow, hlog⟩ := exists_run_of_eval hlater
  obtain ⟨hanswer, _⟩ := audit_complete hrun hopen hnext hnow
  refine ⟨s, t, (orderLog t.history "order-0").map Event.historyItem, hrun, hnext, hdates, ?_, ?_⟩
  · rw [hanswer, if_neg]
    intro hnil
    rw [hnil] at hlog
    cases hlog
  · rw [List.map_map]
    exact hlog

end OrderCqrs
