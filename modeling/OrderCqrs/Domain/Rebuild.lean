import OrderCqrs.Domain.Aggregate
import OrderCqrs.Logic.SortedFolds

/-!
What `rebuild_from_events` makes of the events of an order, in whatever order it gets them.

* `additions`: the items a list of events adds; the aggregate keeps all of them (`replay_items`,
  `replay_totalAmount`).
* `Payload.status?`, `Event.paymentId?`, `Event.trackingId?`: what an event sets.
* `RebuiltFrom`: every field of the aggregate in terms of the set of its events.
* `rebuild_incremental`: **the rebuild depends on the set of the events only, and goes on where it
  has stopped**: one more event of a greater version is one more `_apply`.
-/

namespace OrderCqrs

open SortedFolds

/-! ### What events set -/

/-- The items a list of events adds. -/
def additions (evs : List Event) : List OrderItem := evs.filterMap (·.payload.item?)

/-- The status that `_apply` sets. -/
def Payload.status? : Payload → Option OrderStatus
  | .orderCreated _ => some .pending
  | .orderItemAdded _ => none
  | .orderConfirmed _ => some .confirmed
  | .orderPaymentProcessed _ => some .paid
  | .orderShipped _ => some .shipped
  | .orderDelivered => some .delivered
  | .orderCancelled _ _ => some .cancelled

/-- The payment id an event writes. -/
def Event.paymentId? (e : Event) : Option (Option String) :=
  match e.payload with
  | .orderPaymentProcessed p => some (some p.paymentId)
  | _ => none

/-- The tracking id an event writes. -/
def Event.trackingId? (e : Event) : Option (Option String) :=
  match e.payload with
  | .orderShipped p => some (some p.trackingId)
  | _ => none

/-! ### The fold -/

section Fold

variable [FloatArith]

/-- The aggregate keeps every addition. -/
lemma replay_items (o : String) (evs : List Event) : (replay o evs).items = additions evs := by
  induction evs using List.reverseRecOn with
  | nil => rfl
  | append_singleton evs e ih =>
      rw [replay_concat, additions, List.filterMap_append, ← additions, ← ih, OrderAggregate.apply]
      cases hp : e.payload <;> simp [OrderAggregate.applyPayload, Payload.item?, hp]

/-- The total of the aggregate sums every addition, in the order of the events. -/
lemma replay_totalAmount (o : String) (evs : List Event) :
    (replay o evs).totalAmount = floatSum ((additions evs).map (·.lineTotal)) := by
  induction evs using List.reverseRecOn with
  | nil => rfl
  | append_singleton evs e ih =>
      rw [replay_concat, additions, List.filterMap_append, ← additions, List.map_append,
        OrderAggregate.apply]
      cases hp : e.payload <;>
        simp [OrderAggregate.applyPayload, Payload.item?, hp, floatSum_concat, ih]

end Fold

/-! ### The aggregate and its events -/

/-- **The aggregate shows a set of events**: the newest version, the added items in version order,
the sum of their lines in this order, and for every other column what the newest event that sets it
has set. -/
structure RebuiltFrom [FloatArith] (o : String) (evs : List Event) (agg : OrderAggregate) :
    Prop where
  orderId : agg.orderId = o
  version : ∃ e ∈ evs, agg.version = e.aggregateVersion ∧
    ∀ d ∈ evs, d.aggregateVersion ≤ agg.version
  items : ∃ log, log.Perm evs ∧ (log.Pairwise fun a b => a.aggregateVersion < b.aggregateVersion) ∧
    agg.items = additions log
  totalAmount : agg.totalAmount = floatSum (agg.items.map (·.lineTotal))
  status : LastWritten (·.aggregateVersion) (·.payload.status?) evs .pending agg.status
  paymentId : LastWritten (·.aggregateVersion) Event.paymentId? evs none agg.paymentId
  trackingId : LastWritten (·.aggregateVersion) Event.trackingId? evs none agg.trackingId

section Rebuild

variable [FloatArith] {o : String} {evs evs' : List Event}

omit [FloatArith] in
lemma sortByVersion_eq (evs : List Event) :
    sortByVersion evs = sortOn (·.aggregateVersion) evs := rfl

/-- The rebuild is the fold in version order. -/
lemma rebuild_eq_replay (hne : evs ≠ []) (horder : ∀ e ∈ evs, e.aggregateId = o) :
    rebuildFromEvents evs = .ok (replay o (sortByVersion evs)) := by
  cases evs with
  | nil => exact absurd rfl hne
  | cons e es => rw [rebuildFromEvents, horder e List.mem_cons_self]

/-- The rebuild of a reordered list. -/
lemma rebuild_of_perm (hne : evs ≠ []) (horder : ∀ e ∈ evs, e.aggregateId = o)
    (hdistinct : (evs.map (·.aggregateVersion)).Nodup) (h : evs'.Perm evs) :
    rebuildFromEvents evs' = .ok (replay o (sortByVersion evs)) := by
  have hne' : evs' ≠ [] := fun hnil => hne (List.perm_nil.mp (hnil ▸ h.symm))
  rw [rebuild_eq_replay hne' fun e he => horder e (h.mem_iff.mp he), sortByVersion_eq,
    sortByVersion_eq, sortOn_congr hdistinct h]

/-- **The fold in version order shows the set of the events.** -/
lemma replay_rebuiltFrom (hne : evs ≠ []) (hdistinct : (evs.map (·.aggregateVersion)).Nodup) :
    RebuiltFrom o evs (replay o (sortByVersion evs)) where
  orderId := replay_orderId o _
  version := by
    have hlast : LastWritten (·.aggregateVersion) (fun e : Event => some e.aggregateVersion) evs
        ({ orderId := o } : OrderAggregate).version (replay o (sortByVersion evs)).version :=
      column_sortOn _ (fun agg e => OrderAggregate.apply_version agg e) hdistinct _
    rcases hlast with ⟨e, he, hversion, hmax⟩ | ⟨hnone, _⟩
    · have heq := Option.some.inj hversion
      exact ⟨e, he, heq.symm, fun d hd => heq ▸ hmax d hd rfl⟩
    · obtain ⟨e, he⟩ := List.exists_mem_of_ne_nil _ hne
      exact absurd (hnone e he) (Option.some_ne_none _)
  items := ⟨_, sortOn_perm _ evs, sortOn_increasing hdistinct, replay_items o _⟩
  totalAmount := by rw [replay_totalAmount, replay_items]
  status := by
    refine column_sortOn _ (fun agg e => ?_) hdistinct _
    rw [OrderAggregate.apply]
    cases e.payload <;> rfl
  paymentId := by
    refine column_sortOn _ (fun agg e => ?_) hdistinct _
    rw [OrderAggregate.apply, Event.paymentId?]
    cases e.payload <;> rfl
  trackingId := by
    refine column_sortOn _ (fun agg e => ?_) hdistinct _
    rw [OrderAggregate.apply, Event.trackingId?]
    cases e.payload <;> rfl

/-- **The rebuild depends on the set of the events only, and is incremental**: all orders of the
events of an order lead to one aggregate, which shows their set; and with one more event, of a
greater version and anywhere in the list, the rebuild is `_apply` of that event. -/
theorem rebuild_incremental (hne : evs ≠ []) (horder : ∀ e ∈ evs, e.aggregateId = o)
    (hdistinct : (evs.map (·.aggregateVersion)).Nodup) :
    ∃ agg, rebuildFromEvents evs = .ok agg ∧
      (∀ evs', evs'.Perm evs → rebuildFromEvents evs' = .ok agg) ∧ RebuiltFrom o evs agg ∧
      ∀ e evs', e.aggregateId = o → (∀ d ∈ evs, d.aggregateVersion < e.aggregateVersion) →
        evs'.Perm (e :: evs) → rebuildFromEvents evs' = .ok (agg.apply e) := by
  refine ⟨_, rebuild_of_perm hne horder hdistinct (List.Perm.refl evs),
    fun evs' h => rebuild_of_perm hne horder hdistinct h, replay_rebuiltFrom hne hdistinct,
    fun e evs' ho hmax h => ?_⟩
  have hne' : evs' ≠ [] := fun hnil => List.cons_ne_nil e evs (List.perm_nil.mp (hnil ▸ h.symm))
  have horder' : ∀ d ∈ evs', d.aggregateId = o := by
    intro d hd
    rcases List.mem_cons.mp (h.mem_iff.mp hd) with rfl | hd
    · exact ho
    · exact horder d hd
  rw [rebuild_eq_replay hne' horder', sortByVersion_eq, sortOn_of_max hdistinct hmax h,
    replay_concat, sortByVersion_eq]

end Rebuild

/-- An order whose events come in another order than they were recorded in. -/
def shuffledLog : List Event :=
  [orderConfirmedEvent (.nth 2) "order-0" 3,
    orderCreatedEvent (.nth 0) "order-0" "cust-1" "a@test.com",
    orderItemAddedEvent (.nth 1) "order-0" 2 "prod-1" "Polish" 3 150]

theorem shuffledLog_rebuilt : ∃ agg, rebuildFromEvents shuffledLog = .ok agg ∧
    (∀ evs', evs'.Perm shuffledLog → rebuildFromEvents evs' = .ok agg) ∧
    RebuiltFrom "order-0" shuffledLog agg ∧
    ∀ e evs', e.aggregateId = "order-0" →
      (∀ d ∈ shuffledLog, d.aggregateVersion < e.aggregateVersion) →
      evs'.Perm (e :: shuffledLog) → rebuildFromEvents evs' = .ok (agg.apply e) :=
  rebuild_incremental (by decide) (by decide) (by decide)

end OrderCqrs
