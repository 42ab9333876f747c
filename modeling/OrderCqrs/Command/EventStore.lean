import OrderCqrs.Domain.Aggregate

/-!
The services a command handler calls: the Mongo event store (`api/services/event_store.py`), the
records of the Kafka publisher (`api/services/publisher.py`) and the payment gateway
(`api/services/payment_gateway.py`).

* `EventStore.append`: `insert_one` under the two unique indexes of `setup_indexes`, a duplicate
  key being the version conflict of optimistic concurrency.
* `getEvents`, `getLatestVersion`, `loadAggregate`: the reads.
* `orderLog`: the stored events of one order in the order of their insertion;
  `getEvents_eq_orderLog` identifies it with what `get_events` reads while it is in version order.
* `Record`: what `send_and_wait` writes to the topic, keyed by the order.
* `charge`: the gateway, which declines exactly the payments whose id starts with `fail_`.
-/

namespace OrderCqrs

/-! ### The event store -/

/-- The two unique indexes: `(aggregate_id, aggregate_version)` and `event_id`. -/
def DuplicateKey (e d : Event) : Prop :=
  d.aggregateId = e.aggregateId ∧ d.aggregateVersion = e.aggregateVersion ∨ d.eventId = e.eventId

instance (e d : Event) : Decidable (DuplicateKey e d) :=
  inferInstanceAs (Decidable (_ ∨ _))

/-- The error of an append that meets a duplicate key. -/
def versionConflict (e : Event) : ApiError :=
  .valueError s!"Version conflict: order {e.aggregateId} already at version {e.aggregateVersion}"

/-- `EventStore.append`. -/
def EventStore.append (store : List Event) (e : Event) : Except ApiError (List Event) :=
  if ∃ d ∈ store, DuplicateKey e d then .error (versionConflict e) else .ok (store ++ [e])

/-- The stored events of an order, in the order of their insertion. -/
def orderLog (store : List Event) (orderId : String) : List Event :=
  store.filter fun e => e.aggregateId = orderId

/-- `EventStore.get_events`: the events of an order, sorted by version. -/
def getEvents (store : List Event) (orderId : String) : List Event :=
  sortByVersion (orderLog store orderId)

/-- `EventStore.get_latest_version`: 0 means that the order does not exist. -/
def getLatestVersion (store : List Event) (orderId : String) : ℤ :=
  ((getEvents store orderId).getLast?.map (·.aggregateVersion)).getD 0

/-- `_load_aggregate`. -/
def loadAggregate (store : List Event) (orderId : String) : Except ApiError OrderAggregate :=
  match getEvents store orderId with
  | [] => .error (.httpException 404 s!"Order {orderId} not found")
  | events => rebuildFromEvents events

section Store

variable {store : List Event} {e : Event} {o : String}

lemma EventStore.append_eq_ok {store' : List Event} :
    EventStore.append store e = .ok store' ↔
      (∀ d ∈ store, ¬ DuplicateKey e d) ∧ store' = store ++ [e] := by
  rw [EventStore.append]
  split_ifs with h
  · simp only [false_iff, not_and]
    obtain ⟨d, hd, hk⟩ := h
    exact fun hall => absurd hk (hall d hd)
  · simp only [Except.ok.injEq]
    push Not at h
    exact ⟨fun heq => ⟨h, heq.symm⟩, fun heq => heq.2.symm⟩

lemma EventStore.append_eq_error {err : ApiError} :
    EventStore.append store e = .error err ↔
      (∃ d ∈ store, DuplicateKey e d) ∧ err = versionConflict e := by
  rw [EventStore.append]
  split_ifs with h
  · simp only [Except.error.injEq, h, true_and]
    exact eq_comm
  · simp [h]

lemma mem_orderLog {d : Event} : d ∈ orderLog store o ↔ d ∈ store ∧ d.aggregateId = o := by
  simp [orderLog]

lemma orderLog_concat_self (h : e.aggregateId = o) :
    orderLog (store ++ [e]) o = orderLog store o ++ [e] := by
  simp [orderLog, List.filter_append, h]

lemma orderLog_concat_of_ne (h : e.aggregateId ≠ o) :
    orderLog (store ++ [e]) o = orderLog store o := by
  simp [orderLog, List.filter_append, h]

lemma getEvents_eq_orderLog (h : VersionSorted (orderLog store o)) :
    getEvents store o = orderLog store o :=
  sortByVersion_eq_self h

/-- **A loaded aggregate** is the replay of the stored events of its order in version order. -/
lemma exists_replay_of_load {agg : OrderAggregate} (h : loadAggregate store o = .ok agg) :
    ∃ o' log, agg = replay o' log ∧ log ≠ [] ∧ VersionSorted log ∧
      ∀ e, e ∈ log ↔ e ∈ orderLog store o := by
  rw [loadAggregate] at h
  cases hlog : getEvents store o with
  | nil => simp [hlog] at h
  | cons d ds =>
      simp only [hlog, rebuildFromEvents, Except.ok.injEq] at h
      refine ⟨_, _, h.symm, ?_, List.pairwise_insertionSort _ _, fun e => ?_⟩
      · exact List.ne_nil_of_mem ((List.mem_insertionSort _).mpr List.mem_cons_self)
      · rw [← hlog, getEvents, sortByVersion, sortByVersion, List.mem_insertionSort,
          List.mem_insertionSort]

/-- Loading an order whose stored log is legal replays that log. -/
lemma loadAggregate_of_legal (h : LegalLog o (orderLog store o)) :
    loadAggregate store o = .ok (replay o (orderLog store o)) := by
  rw [loadAggregate, getEvents_eq_orderLog h.versionSorted]
  have hrebuild := h.rebuild_eq
  cases hlog : orderLog store o with
  | nil => exact absurd hlog h.ne_nil
  | cons d ds =>
      rw [hlog] at hrebuild
      exact hrebuild

/-- Loading an order without events is answered with 404. -/
lemma loadAggregate_of_nil (h : orderLog store o = []) :
    loadAggregate store o = .error (.httpException 404 s!"Order {o} not found") := by
  simp [loadAggregate, getEvents, h, sortByVersion]

end Store

/-! ### The topic -/

/-- A record of the topic `order-events`: its key decides its partition. -/
structure Record where
  key : String
  value : Event
  headers : List (String × String)

/-- What `publish` sends for an event. -/
def recordOf (e : Event) : Record where
  key := e.aggregateId
  value := e
  headers := [("event_type", e.eventType.value), ("correlation_id", e.correlationId)]

/-- The records of one partition, in the order they were sent; the partitioner is Kafka's. -/
def partitionOf (partitioner : String → ℕ) (topic : List Record) (p : ℕ) : List Record :=
  topic.filter fun r => partitioner r.key = p

/-! ### The payment gateway -/

/-- The dictionary `charge` returns. -/
inductive ChargeResult where
  | success (transactionRef : String)
  | failure (error : String)

/-- `PaymentGateway.charge`, the mock of the repository. -/
def charge (paymentId : String) (_amount : ℚ) (_method : String) : ChargeResult :=
  if paymentId.startsWith "fail_" then .failure "Payment declined by bank"
  else .success s!"TXN_{paymentId}"

end OrderCqrs
