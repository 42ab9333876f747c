import Mathlib.Data.List.Induction
import Mathlib.Data.List.Sort
import Mathlib.Tactic
import OrderCqrs.Domain.Events

/-!
The order aggregate (`api/services/aggregate.py`): the write side's own reading of a log.

* `OrderAggregate.apply`, `rebuildFromEvents`: the fold over the events in version order.
* `assertCanAddItem`, …: the business rules the command handlers check.
* `OrderAggregate.allows`: the rules gathered in one predicate on payloads.
* `StatusStep`: **the moves of the status** that are allowed (`statusStep`); `OrderStatus.rank`:
  none of them takes an order back (`rank_le_apply`).
* `LegalLog`: **the lifecycle-legal logs**, every event after `ORDER_CREATED` being allowed by
  the aggregate rebuilt from the events before it.  `LegalLog.versions_eq` and its neighbours
  read off what such a log looks like; `LegalLog.once` says what happens once,
  `LegalLog.status_iff` what the status tells.
-/

namespace OrderCqrs

/-- The exceptions that end a command: an HTTP error with its detail, a `ValueError` with its
message, `RetryError` from exhausted publish attempts, or the error of a failing service. -/
inductive ApiError where
  | httpException (statusCode : ℕ) (detail : String)
  | valueError (message : String)
  | retryError
  | serviceError
  deriving DecidableEq, Repr

/-- `OrderAggregate`. -/
structure OrderAggregate where
  orderId : String
  version : ℤ := 0
  status : OrderStatus := .pending
  customerId : String := ""
  customerEmail : String := ""
  items : List OrderItem := []
  totalAmount : ℚ := 0
  paymentId : Option String := none
  trackingId : Option String := none
  deriving DecidableEq

namespace OrderAggregate

/-! ### The fold -/

section Fold

variable [FloatArith]

/-- The part of `_apply` that depends on the event type. -/
def applyPayload (agg : OrderAggregate) : Payload → OrderAggregate
  | .orderCreated c =>
      { agg with
        customerId := c.customerId
        customerEmail := c.customerEmail
        status := .pending }
  | .orderItemAdded item =>
      { agg with
        items := agg.items ++ [item]
        totalAmount := FloatArith.add agg.totalAmount item.lineTotal }
  | .orderConfirmed _ => { agg with status := .confirmed }
  | .orderPaymentProcessed p => { agg with status := .paid, paymentId := some p.paymentId }
  | .orderShipped p => { agg with status := .shipped, trackingId := some p.trackingId }
  | .orderDelivered => { agg with status := .delivered }
  | .orderCancelled _ _ => { agg with status := .cancelled }

/-- `_apply`: the version is taken from the event, whatever its type. -/
def apply (agg : OrderAggregate) (event : Event) : OrderAggregate :=
  { agg with version := event.aggregateVersion }.applyPayload event.payload

@[simp] lemma apply_version (agg : OrderAggregate) (e : Event) :
    (agg.apply e).version = e.aggregateVersion := by
  rw [apply]
  cases e.payload <;> rfl

@[simp] lemma apply_orderId (agg : OrderAggregate) (e : Event) :
    (agg.apply e).orderId = agg.orderId := by
  rw [apply]
  cases e.payload <;> rfl

end Fold

/-! ### The business rules -/

/-- `assert_can_add_item`. -/
def assertCanAddItem (agg : OrderAggregate) : Except ApiError Unit :=
  if agg.status ≠ .pending then
    .error (.valueError s!"Cannot add item to order in status {agg.status.str}")
  else .ok ()

/-- `assert_can_confirm`: the empty order is refused first. -/
def assertCanConfirm (agg : OrderAggregate) : Except ApiError Unit :=
  if agg.items = [] then .error (.valueError "Cannot confirm empty order")
  else if agg.status ≠ .pending then
    .error (.valueError s!"Cannot confirm order in status {agg.status.str}")
  else .ok ()

/-- `assert_can_pay`. -/
def assertCanPay (agg : OrderAggregate) : Except ApiError Unit :=
  if agg.status ≠ .confirmed then
    .error (.valueError s!"Cannot pay order in status {agg.status.str}")
  else .ok ()

/-- `assert_can_ship`. -/
def assertCanShip (agg : OrderAggregate) : Except ApiError Unit :=
  if agg.status ≠ .paid then
    .error (.valueError s!"Cannot ship unpaid order in status {agg.status.str}")
  else .ok ()

/-- `assert_can_cancel`: only shipped and delivered orders are refused. -/
def assertCanCancel (agg : OrderAggregate) : Except ApiError Unit :=
  if agg.status = .shipped ∨ agg.status = .delivered then
    .error (.valueError s!"Cannot cancel order in status {agg.status.str}")
  else .ok ()

lemma assertCanAddItem_eq_ok {agg : OrderAggregate} :
    agg.assertCanAddItem = .ok () ↔ agg.status = .pending := by
  simp [assertCanAddItem]

lemma assertCanConfirm_eq_ok {agg : OrderAggregate} :
    agg.assertCanConfirm = .ok () ↔ agg.items ≠ [] ∧ agg.status = .pending := by
  simp only [assertCanConfirm]
  split_ifs with hi hs <;> simp_all

lemma assertCanPay_eq_ok {agg : OrderAggregate} :
    agg.assertCanPay = .ok () ↔ agg.status = .confirmed := by
  simp [assertCanPay]

lemma assertCanShip_eq_ok {agg : OrderAggregate} :
    agg.assertCanShip = .ok () ↔ agg.status = .paid := by
  simp [assertCanShip]

/-- What may follow in the life of an order: the rule of the handler that records the payload.
No handler records `ORDER_DELIVERED`; a delivery follows a shipment. -/
def allows (agg : OrderAggregate) : Payload → Prop
  | .orderCreated _ => False
  | .orderItemAdded _ => agg.assertCanAddItem = .ok ()
  | .orderConfirmed _ => agg.assertCanConfirm = .ok ()
  | .orderPaymentProcessed _ => agg.assertCanPay = .ok ()
  | .orderShipped _ => agg.assertCanShip = .ok ()
  | .orderDelivered => agg.status = .shipped
  | .orderCancelled _ _ => agg.assertCanCancel = .ok ()

end OrderAggregate

/-- No creation follows. -/
lemma OrderAggregate.allows.ne_created {agg : OrderAggregate} {payload : Payload}
    (h : agg.allows payload) : payload.eventType ≠ .orderCreated := by
  cases payload with
  | orderCreated c => exact h.elim
  | _ => simp [Payload.eventType]

/-- How far an order has come. -/
def OrderStatus.rank : OrderStatus → ℕ
  | .pending => 0
  | .confirmed => 1
  | .paid => 2
  | .shipped => 3
  | .delivered => 4
  | .cancelled => 5

/-- **The moves of the status**: where an event of each type finds an order, and where it takes
it. -/
inductive StatusStep : OrderStatus → EventType → OrderStatus → Prop where
  | addItem : StatusStep .pending .orderItemAdded .pending
  | confirm : StatusStep .pending .orderConfirmed .confirmed
  | pay : StatusStep .confirmed .orderPaymentProcessed .paid
  | ship : StatusStep .paid .orderShipped .shipped
  | deliver : StatusStep .shipped .orderDelivered .delivered
  | cancel {st : OrderStatus} : st ≠ .shipped → st ≠ .delivered →
      StatusStep st .orderCancelled .cancelled

lemma StatusStep.eq_paid {a b : OrderStatus} (h : StatusStep a .orderShipped b) : a = .paid := by
  cases h
  rfl

lemma StatusStep.eq_shipped {a b : OrderStatus} (h : StatusStep a .orderDelivered b) :
    a = .shipped := by
  cases h
  rfl

section Moves

variable [FloatArith]

/-- What is allowed is a move of the status. -/
lemma OrderAggregate.statusStep {agg : OrderAggregate} {payload : Payload}
    (h : agg.allows payload) :
    StatusStep agg.status payload.eventType (agg.applyPayload payload).status := by
  cases payload with
  | orderCreated c => exact h.elim
  | orderItemAdded item =>
      have hstatus : agg.status = .pending := assertCanAddItem_eq_ok.mp h
      rw [applyPayload, hstatus]
      exact .addItem
  | orderConfirmed _ =>
      rw [(assertCanConfirm_eq_ok.mp h).2]
      exact .confirm
  | orderPaymentProcessed p =>
      rw [assertCanPay_eq_ok.mp h]
      exact .pay
  | orderShipped p =>
      rw [assertCanShip_eq_ok.mp h]
      exact .ship
  | orderDelivered =>
      have hstatus : agg.status = .shipped := h
      rw [hstatus]
      exact .deliver
  | orderCancelled _ _ =>
      rw [allows, assertCanCancel, ite_eq_right_iff] at h
      simp only [reduceCtorEq, imp_false, not_or] at h
      exact .cancel h.1 h.2

/-- An event that is allowed moves the status. -/
lemma OrderAggregate.statusStep_apply {agg : OrderAggregate} {e : Event}
    (h : agg.allows e.payload) : StatusStep agg.status e.eventType (agg.apply e).status :=
  @statusStep _ { agg with version := e.aggregateVersion } e.payload h

/-- No event that is allowed takes an order back. -/
lemma OrderAggregate.rank_le_apply {agg : OrderAggregate} {e : Event}
    (h : agg.allows e.payload) : agg.status.rank ≤ (agg.apply e).status.rank := by
  have hstep := statusStep_apply h
  generalize agg.status = a, e.eventType = t, (agg.apply e).status = b at hstep
  cases hstep with
  | cancel => cases a <;> decide
  | _ => decide

end Moves

/-! ### Rebuilding from events -/

/-- Sorting by version, as `sorted(events, key=...)` and Mongo's `sort` do; the sort is stable. -/
def sortByVersion (events : List Event) : List Event :=
  events.insertionSort fun a b => a.aggregateVersion ≤ b.aggregateVersion

section Rebuilding

variable [FloatArith]

/-- The fold of `_apply` over a list of events, from the fresh aggregate of an order. -/
def replay (orderId : String) (events : List Event) : OrderAggregate :=
  events.foldl OrderAggregate.apply { orderId }

/-- `rebuild_from_events`. -/
def rebuildFromEvents : List Event → Except ApiError OrderAggregate
  | [] => .error (.valueError "Cannot rebuild aggregate from empty event list")
  | e :: es => .ok (replay e.aggregateId (sortByVersion (e :: es)))

lemma replay_concat (o : String) (log : List Event) (e : Event) :
    replay o (log ++ [e]) = (replay o log).apply e := by
  simp [replay]

@[simp] lemma replay_orderId (o : String) (log : List Event) : (replay o log).orderId = o := by
  induction log using List.reverseRecOn with
  | nil => rfl
  | append_singleton log e ih => rw [replay_concat, OrderAggregate.apply_orderId, ih]

/-- The version of a rebuilt aggregate is that of one of its events. -/
lemma exists_version_replay {log : List Event} (o : String) (hne : log ≠ []) :
    ∃ e ∈ log, (replay o log).version = e.aggregateVersion := by
  obtain ⟨init, last, rfl⟩ := (List.eq_nil_or_concat' log).resolve_left hne
  rw [replay_concat, OrderAggregate.apply_version]
  exact ⟨last, by simp, rfl⟩

end Rebuilding

/-- A log in version order. -/
abbrev VersionSorted (log : List Event) : Prop :=
  log.Pairwise fun a b => a.aggregateVersion ≤ b.aggregateVersion

lemma sortByVersion_eq_self {log : List Event} (h : VersionSorted log) :
    sortByVersion log = log :=
  h.insertionSort_eq

/-- On a log in version order the rebuild is the plain fold. -/
lemma rebuildFromEvents_eq [FloatArith] {o : String} {log : List Event} (hne : log ≠ [])
    (hlog : ∀ e ∈ log, e.aggregateId = o) (hs : VersionSorted log) :
    rebuildFromEvents log = .ok (replay o log) := by
  cases log with
  | nil => exact absurd rfl hne
  | cons e es => rw [rebuildFromEvents, sortByVersion_eq_self hs, hlog e (by simp)]

/-! ### Lifecycle-legal logs -/

/-- **The lifecycle-legal logs of an order**, in version order: an `ORDER_CREATED` at version 1,
then events that the aggregate of the events before them allows, each one version further. -/
inductive LegalLog [FloatArith] (o : String) : List Event → Prop where
  | created {e : Event} {c : Created} : e.aggregateId = o → e.aggregateVersion = 1 →
      e.payload = .orderCreated c → LegalLog o [e]
  | append {log : List Event} {e : Event} : LegalLog o log → e.aggregateId = o →
      e.aggregateVersion = (replay o log).version + 1 → (replay o log).allows e.payload →
      LegalLog o (log ++ [e])

/-- The versions `1, …, n`. -/
def versionsUpTo (n : ℕ) : List ℤ := (List.range n).map fun k : ℕ => (k : ℤ) + 1

lemma versionsUpTo_succ (n : ℕ) : versionsUpTo (n + 1) = versionsUpTo n ++ [(n : ℤ) + 1] := by
  simp [versionsUpTo, List.range_succ]

lemma mem_versionsUpTo {n : ℕ} {v : ℤ} : v ∈ versionsUpTo n ↔ 1 ≤ v ∧ v ≤ n := by
  simp only [versionsUpTo, List.mem_map, List.mem_range]
  constructor
  · rintro ⟨k, hk, rfl⟩
    omega
  · rintro ⟨h1, hn⟩
    exact ⟨(v - 1).toNat, by omega, by omega⟩

lemma versionsUpTo_pairwise (n : ℕ) : (versionsUpTo n).Pairwise (· < ·) := by
  rw [versionsUpTo, List.pairwise_map]
  exact List.pairwise_lt_range.imp fun h => by omega

namespace LegalLog

variable [FloatArith] {o : String} {log : List Event}

lemma ne_nil (h : LegalLog o log) : log ≠ [] := by
  cases h <;> simp

lemma length_pos (h : LegalLog o log) : 0 < log.length :=
  List.length_pos_iff.mpr h.ne_nil

/-- Every event of a legal log belongs to its order. -/
lemma aggregateId_eq (h : LegalLog o log) : ∀ e ∈ log, e.aggregateId = o := by
  induction h with
  | created ho _ _ =>
      intro e he
      rw [List.mem_singleton.mp he]
      exact ho
  | append _ ho _ _ ih =>
      intro e he
      rcases List.mem_append.mp he with he | he
      · exact ih e he
      · rw [List.mem_singleton.mp he]
        exact ho

/-- The version of the rebuilt aggregate is the number of events. -/
lemma replay_version (h : LegalLog o log) : (replay o log).version = log.length := by
  induction h with
  | created _ hv _ => simp [replay, hv]
  | append _ _ hv _ ih =>
      rw [replay_concat, OrderAggregate.apply_version, hv, ih]
      simp

/-- **Contiguity**: the versions of a legal log are `1, …, n`. -/
lemma versions_eq (h : LegalLog o log) :
    log.map (·.aggregateVersion) = versionsUpTo log.length := by
  induction h with
  | created _ hv _ => simp [hv, versionsUpTo]
  | append hlog _ hv _ ih =>
      rw [List.map_append, ih, List.length_append, List.length_singleton, versionsUpTo_succ,
        List.map_singleton, hv, hlog.replay_version]

/-- The event at position `k` has version `k + 1`. -/
lemma version_getElem? (h : LegalLog o log) {k : ℕ} {e : Event} (hk : log[k]? = some e) :
    e.aggregateVersion = (k : ℤ) + 1 := by
  have hmap : (log.map (·.aggregateVersion))[k]? = some e.aggregateVersion := by
    rw [List.getElem?_map, hk]
    rfl
  rw [h.versions_eq, versionsUpTo, List.getElem?_map] at hmap
  obtain ⟨j, hj, hjv⟩ := Option.map_eq_some_iff.mp hmap
  rw [List.getElem?_eq_some_iff] at hj
  obtain ⟨hlt, hj⟩ := hj
  rw [List.getElem_range] at hj
  omega

lemma versions_lt (h : LegalLog o log) :
    log.Pairwise fun a b => a.aggregateVersion < b.aggregateVersion := by
  have hp := versionsUpTo_pairwise log.length
  rw [← h.versions_eq, List.pairwise_map] at hp
  exact hp

lemma versionSorted (h : LegalLog o log) : VersionSorted log :=
  h.versions_lt.imp le_of_lt

lemma rebuild_eq (h : LegalLog o log) : rebuildFromEvents log = .ok (replay o log) :=
  rebuildFromEvents_eq h.ne_nil h.aggregateId_eq h.versionSorted

/-- A legal log opens with `ORDER_CREATED`, which does not occur again. -/
lemma exists_cons (h : LegalLog o log) : ∃ e c es, log = e :: es ∧
    e.payload = .orderCreated c ∧ ∀ e' ∈ es, ∀ c', e'.payload ≠ .orderCreated c' := by
  induction h with
  | @created e c _ _ hc => exact ⟨e, c, [], rfl, hc, by simp⟩
  | @append log e _ _ _ hallow ih =>
      obtain ⟨e₀, c, es, rfl, hc, hes⟩ := ih
      refine ⟨e₀, c, es ++ [e], rfl, hc, fun e' he' c' hc' => ?_⟩
      rcases List.mem_append.mp he' with he' | he'
      · exact hes e' he' c' hc'
      · rw [List.mem_singleton.mp he'] at hc'
        rw [hc'] at hallow
        exact hallow

/-- `ORDER_CREATED` is the event at version 1 and no other. -/
lemma eventType_eq_created_iff (h : LegalLog o log) {e : Event} (he : e ∈ log) :
    e.eventType = .orderCreated ↔ e.aggregateVersion = 1 := by
  obtain ⟨k, hk⟩ := List.mem_iff_getElem?.mp he
  have hv := h.version_getElem? hk
  obtain ⟨e₀, c, es, rfl, hc, hes⟩ := h.exists_cons
  cases k with
  | zero =>
      simp only [List.getElem?_cons_zero, Option.some.injEq] at hk
      subst hk
      simp [Event.eventType, hc, Payload.eventType, hv]
  | succ k =>
      rw [List.getElem?_cons_succ] at hk
      have hmem : e ∈ es := List.mem_of_getElem? hk
      have hne := hes e hmem
      constructor
      · intro ht
        cases hp : e.payload with
        | orderCreated c' => exact absurd hp (hne c')
        | _ => simp [Event.eventType, hp, Payload.eventType] at ht
      · intro h1
        omega

/-- A nonempty prefix of a legal log is legal. -/
lemma take (h : LegalLog o log) {k : ℕ} (hk : 0 < k) : LegalLog o (log.take k) := by
  induction h generalizing k with
  | created ho hv hc =>
      rw [List.take_of_length_le (by simp; omega)]
      exact .created ho hv hc
  | @append log e hlog ho hv hallow ih =>
      by_cases hle : k ≤ log.length
      · rw [List.take_append_of_le_length hle]
        exact ih hk
      · rw [List.take_of_length_le (by simp; omega)]
        exact .append hlog ho hv hallow

/-- A legal log of more than one event ends with an event the others allow. -/
lemma of_concat {e : Event} (h : LegalLog o (log ++ [e])) (hne : log ≠ []) :
    LegalLog o log ∧ e.aggregateVersion = (replay o log).version + 1 ∧
      (replay o log).allows e.payload := by
  generalize hL : log ++ [e] = L at h
  cases h with
  | created _ _ _ =>
      have hlen := congrArg List.length hL
      simp only [List.length_append, List.length_singleton, Nat.add_eq_right] at hlen
      exact absurd (List.length_eq_zero_iff.mp hlen) hne
  | append hlog _ hv hallow =>
      obtain ⟨rfl, hee⟩ := List.append_inj' hL rfl
      rw [List.singleton_inj] at hee
      subst hee
      exact ⟨hlog, hv, hallow⟩

/-- **What happens once**: what only the events of one type record is recorded at most once, if
their moves take an order past a rank. -/
lemma once {β : Type*} {w : Event → Option β} {t : EventType} {r : ℕ} (h : LegalLog o log)
    (hcreated : t ≠ .orderCreated) (hw : ∀ e, w e ≠ none → e.eventType = t)
    (hpast : ∀ a b, StatusStep a t b → a.rank < r ∧ r ≤ b.rank) :
    (log.filterMap w).length ≤ 1 := by
  have hboth : (log.filterMap w).length ≤ 1 ∧
      (log.filterMap w ≠ [] → r ≤ (replay o log).status.rank) := by
    induction h with
    | @created e c _ _ hc =>
        have hnone : w e = none := by
          by_contra hne
          have htype := hw e hne
          rw [Event.eventType, hc] at htype
          exact hcreated htype.symm
        simp [hnone]
    | @append log e _ _ _ hallow ih =>
        obtain ⟨hlen, hrank⟩ := ih
        rw [List.filterMap_append, replay_concat]
        cases hwe : w e with
        | none =>
            rw [List.filterMap_cons_none hwe, List.filterMap_nil, List.append_nil]
            exact ⟨hlen, fun hne => (hrank hne).trans (OrderAggregate.rank_le_apply hallow)⟩
        | some b =>
            have hstep := OrderAggregate.statusStep_apply hallow
            rw [hw e (by simp [hwe])] at hstep
            obtain ⟨hlt, hle⟩ := hpast _ _ hstep
            have hnil : log.filterMap w = [] := by
              by_contra hne
              exact absurd (hrank hne) (not_le.mpr hlt)
            rw [hnil, List.filterMap_cons_some hwe]
            exact ⟨le_rfl, fun _ => hle⟩
  exact hboth.1

/-- **What the status tells of a log**: an order has a status that only the events of one type lead
to, and that no event leads out of, if one of them is in the log. -/
lemma status_iff {S : OrderStatus → Prop} {type : EventType} (h : LegalLog o log)
    (hpending : ¬ S .pending) (hcreated : type ≠ .orderCreated)
    (hstep : ∀ a t b, StatusStep a t b → (S b ↔ S a ∨ t = type)) :
    S (replay o log).status ↔ ∃ e ∈ log, e.eventType = type := by
  induction h with
  | @created e c _ _ hc =>
      have htype : e.eventType = .orderCreated := by
        rw [Event.eventType, hc]
        rfl
      have hstatus : (replay o [e]).status = .pending := by
        rw [replay, List.foldl_cons, List.foldl_nil, OrderAggregate.apply, hc]
        rfl
      simp [hstatus, hpending, htype, hcreated.symm]
  | append _ _ _ hallow ih =>
      rw [replay_concat, hstep _ _ _ (OrderAggregate.statusStep_apply hallow), ih]
      simp only [List.mem_append, List.mem_singleton, or_and_right, exists_or, exists_eq_left]

/-- A legal log rebuilds to a cancelled order exactly if it has a cancellation. -/
lemma cancelled (h : LegalLog o log) :
    (replay o log).status = .cancelled ↔ ∃ e ∈ log, e.eventType = .orderCancelled :=
  h.status_iff (S := fun st => st = .cancelled) (by decide) (by decide) fun a t b hstep => by
    cases hstep <;> simp

/-- A legal log rebuilds to a shipped or delivered order exactly if it has a shipment. -/
lemma shipped (h : LegalLog o log) :
    (replay o log).status = .shipped ∨ (replay o log).status = .delivered ↔
      ∃ e ∈ log, e.eventType = .orderShipped :=
  h.status_iff (S := fun st => st = .shipped ∨ st = .delivered) (by decide) (by decide)
    fun a t b hstep => by
      cases hstep with
      | cancel hship hdeliver => simp [hship, hdeliver]
      | _ => simp

end LegalLog

end OrderCqrs
