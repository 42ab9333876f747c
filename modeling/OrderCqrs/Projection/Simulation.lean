import OrderCqrs.Domain.Aggregate
import OrderCqrs.Projection.Image

/-!
The projection against the aggregate: two interpreters of the same events.

* `OrderAggregate.state`: the columns of the aggregate, as `OrderRow.state` gives those of a row.
* `replay_state`: the aggregate goes through the same abstract steps as the row.
* `OrderEvents`: the lists of events of one order considered, in version order and beginning with
  their only `ORDER_CREATED`; every lifecycle-legal log is one.
* `projection_simulates`: **the row agrees with the aggregate after every prefix**.
-/

namespace OrderCqrs

open Runs

/-- The columns the aggregate shares with a row. -/
def OrderAggregate.state (agg : OrderAggregate) : OrderState where
  customerId := agg.customerId
  customerEmail := agg.customerEmail
  status := agg.status.value
  version := agg.version
  paymentId := agg.paymentId
  trackingId := agg.trackingId

/-- The lists of events of one order, in version order, that begin with their only
`ORDER_CREATED`. -/
structure OrderEvents (o : String) (evs : List Event) : Prop where
  order : ∀ e ∈ evs, e.aggregateId = o
  opening : ∃ e c es, evs = e :: es ∧ e.payload = .orderCreated c ∧
    ∀ e' ∈ es, ∀ c', e'.payload ≠ .orderCreated c'
  increasing : evs.Pairwise fun a b => a.aggregateVersion < b.aggregateVersion

/-- A lifecycle-legal log is such a list. -/
lemma LegalLog.orderEvents [FloatArith] {o : String} {log : List Event} (h : LegalLog o log) :
    OrderEvents o log where
  order := h.aggregateId_eq
  opening := h.exists_cons
  increasing := h.versions_lt

/-! ### The aggregate -/

section Aggregate

variable [FloatArith] {o : String} {evs es : List Event} {e : Event} {agg : OrderAggregate}

/-- One event on the aggregate is one abstract step. -/
lemma OrderAggregate.apply_state (hc : ∀ c, e.payload ≠ .orderCreated c) :
    (agg.apply e).state = agg.state.apply e := by
  rw [OrderAggregate.apply]
  cases hp : e.payload with
  | orderCreated c => exact absurd hp (hc c)
  | _ =>
      simp only [OrderState.apply, hp]
      rfl

lemma foldl_apply_state (hes : ∀ e' ∈ es, ∀ c', e'.payload ≠ .orderCreated c') :
    (es.foldl OrderAggregate.apply agg).state = es.foldl OrderState.apply agg.state := by
  induction es generalizing agg with
  | nil => rfl
  | cons e es ih =>
      rw [List.foldl_cons, List.foldl_cons,
        ih fun e' he' => hes e' (List.mem_cons_of_mem _ he'),
        OrderAggregate.apply_state (hes e List.mem_cons_self)]

/-- **The rebuilt aggregate shows the image of its events.** -/
theorem replay_state (h : OrderEvents o evs) : some (replay o evs).state = orderState evs := by
  obtain ⟨e, c, es, rfl, hc, hes⟩ := h.opening
  have hfirst : (({ orderId := o } : OrderAggregate).apply e).state =
      .created c e.aggregateVersion := by
    rw [OrderAggregate.apply, hc]
    rfl
  rw [orderState_cons hc, replay, List.foldl_cons, foldl_apply_state hes, hfirst]

lemma OrderEvents.rebuild_eq (h : OrderEvents o evs) :
    rebuildFromEvents evs = .ok (replay o evs) := by
  obtain ⟨e, c, es, rfl, _⟩ := h.opening
  exact rebuildFromEvents_eq (List.cons_ne_nil _ _) h.order (h.increasing.imp le_of_lt)

omit [FloatArith] in
/-- A nonempty prefix is such a list. -/
lemma OrderEvents.take (h : OrderEvents o evs) {k : ℕ} (hk : 0 < k) :
    OrderEvents o (evs.take k) := by
  obtain ⟨e, c, es, rfl, hc, hes⟩ := h.opening
  refine ⟨fun e' he' => h.order e' (List.mem_of_mem_take he'), ?_,
    h.increasing.sublist (List.take_sublist _ _)⟩
  obtain ⟨k, rfl⟩ := Nat.exists_eq_succ_of_ne_zero (by omega : k ≠ 0)
  exact ⟨e, c, es.take k, rfl, hc, fun e' he' => hes e' (List.mem_of_mem_take he')⟩

end Aggregate

/-! ### The simulation -/

section Simulation

variable [FloatArith] [Btree]

omit [FloatArith] in
lemma FitsColumns.take {evs : List Event} (h : FitsColumns evs) (k : ℕ) :
    FitsColumns (evs.take k) := by
  rw [← List.take_append_drop k evs] at h
  exact h.of_append

/-- The events of an order are projected, and leave a row of it that shows the aggregate. -/
lemma exists_row_of_events {rm₀ : ReadModel} {o : String} {evs : List Event}
    (hnew : o ∉ rm₀.orders) (hevs : OrderEvents o evs) (hfits : FitsColumns evs) :
    ∃ rm row, run projectToPostgres rm₀ evs = some rm ∧ rm.orders.lookup o = some row ∧
      row.state = (replay o evs).state := by
  obtain ⟨e, c, es, hcons, hc, _⟩ := hevs.opening
  have hsome : (run projectToPostgres rm₀ evs).isSome := by
    have horder := hevs.order
    rw [hcons] at hfits horder ⊢
    exact run_isSome hnew horder hc hfits
  obtain ⟨rm, hrun⟩ := Option.isSome_iff_exists.mp hsome
  have hrow := run_orderState hnew hevs.order hrun
  rw [← replay_state hevs, Option.map_eq_some_iff] at hrow
  obtain ⟨row, hrow, heq⟩ := hrow
  exact ⟨rm, row, hrun, hrow, heq⟩

/-- **The projection simulates the aggregate**: over the events of an order that fit their columns,
every projection succeeds, and after every prefix the row and the rebuilt aggregate agree. -/
theorem projection_simulates {rm₀ : ReadModel} {o : String} {evs : List Event}
    (hnew : o ∉ rm₀.orders) (hevs : OrderEvents o evs) (hfits : FitsColumns evs) {k : ℕ}
    (hk : 0 < k) : ∃ rm row agg, run projectToPostgres rm₀ (evs.take k) = some rm ∧
      rm.orders.lookup o = some row ∧ rebuildFromEvents (evs.take k) = .ok agg ∧
      agg.orderId = o ∧ row.state = agg.state := by
  have htake := hevs.take hk
  obtain ⟨rm, row, hrun, hrow, hstate⟩ := exists_row_of_events hnew htake (hfits.take k)
  exact ⟨rm, row, _, hrun, hrow, htake.rebuild_eq, replay_orderId o _, hstate⟩

end Simulation

/-- An order from its creation to its shipment. -/
def shippedLog : List Event :=
  [orderCreatedEvent (.nth 0) "order-0" "cust-1" "a@test.com",
    orderItemAddedEvent (.nth 1) "order-0" 2 "prod-1" "Polish" 3 150,
    orderConfirmedEvent (.nth 2) "order-0" 3,
    orderPaymentProcessedEvent (.nth 3) "order-0" 4 "pay-1" 450 "CARD",
    orderShippedEvent (.nth 4) "order-0" 5 "track-1" "UPS"]

lemma shippedLog_legal : LegalLog "order-0" shippedLog := by
  have hcreated := LegalLog.created (o := "order-0")
    (e := orderCreatedEvent (.nth 0) "order-0" "cust-1" "a@test.com") rfl rfl rfl
  have hitem := hcreated.append
    (e := orderItemAddedEvent (.nth 1) "order-0" 2 "prod-1" "Polish" 3 150) rfl rfl rfl
  have hconfirmed := hitem.append (e := orderConfirmedEvent (.nth 2) "order-0" 3) rfl rfl rfl
  have hpaid := hconfirmed.append
    (e := orderPaymentProcessedEvent (.nth 3) "order-0" 4 "pay-1" 450 "CARD") rfl rfl rfl
  exact hpaid.append (e := orderShippedEvent (.nth 4) "order-0" 5 "track-1" "UPS") rfl rfl rfl

theorem shippedLog_simulated : ∃ rm row agg,
    run projectToPostgres .empty (shippedLog.take 4) = some rm ∧
      rm.orders.lookup "order-0" = some row ∧ rebuildFromEvents (shippedLog.take 4) = .ok agg ∧
      agg.orderId = "order-0" ∧ row.state = agg.state :=
  projection_simulates Finmap.notMem_empty shippedLog_legal.orderEvents
    (by decide +kernel : FitsColumns shippedLog) (by decide)

end OrderCqrs
