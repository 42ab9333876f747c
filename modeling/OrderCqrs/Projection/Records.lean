import OrderCqrs.Delivery.RawConsumer
import OrderCqrs.Projection.Independence

/-!
The projection (`project_to_postgres` in `consumers/main.py`) over records that are any JSON
objects: members may be missing, of other types or `null`, and the event type may be unknown.

* `Codec`: what the client of Postgres makes of JSON values; a parameter may be `NULL`.
* `projectRecord`: one transaction, statement by statement as `projectToPostgres`.
* `Encodes`, `projectRecord_eq`: **on the records of events it is `projectToPostgres`**.
* `OrdersAfter`, `projectRecord_cases`: what a projected record does to the rows of `orders`: it
  creates one, or updates at most one.
* `RecordAttempt`, `projectRecords`: series of attempts, `createdIds` the orders they create;
  `projectRecords_eq` compares them with those of events.
* `projectRecords_ids`, `projectRecords_status`: **the rows are those of the orders created, and
  their statuses are those of `OrderStatus`**.
-/

namespace OrderCqrs

/-! ### Parameters -/

/-- What the client of Postgres makes of the values of numeric parameters; `none` is a value it
refuses.  A `NaN` has no number of its own here; keys and statuses do not depend on the amounts. -/
structure Codec where
  int : Json → Option ℤ
  numeric : Json → Option ℚ

/-- A member of a payload; a payload that is no object has none. -/
def Json.item? (payload : Json) (key : String) : Option Json :=
  match payload with
  | .object members => members.get? (Str.ofString key)
  | _ => none

/-- A value of a `TEXT` parameter: the client takes strings that UTF-8 can encode, and the server
refuses the character of code 0. -/
def Json.text? : Json → Option Text
  | .string s => s.text?.bind Text.ofString
  | _ => none

/-- A value of an `INTEGER` parameter. -/
def Codec.int4? (codec : Codec) (j : Json) : Option Int4 := (codec.int j).bind Int4.ofInt

/-- A parameter: `null` is `NULL`, any other value is encoded or refused. -/
def Json.param {α : Type} (encode : Json → Option α) : Json → Option (Option α)
  | .null => some none
  | j => (encode j).map some

/-- A parameter for a column that is `NOT NULL`. -/
def Json.required {α : Type} (encode : Json → Option α) (j : Json) : Option α :=
  (j.param encode).join

/-- The event type of a record, if it is one of the seven. -/
def EventType.ofJson? (j : Json) : Option EventType :=
  [.orderCreated, .orderItemAdded, .orderConfirmed, .orderPaymentProcessed, .orderShipped,
    .orderDelivered, .orderCancelled].find? fun type : EventType =>
      j = .string (Str.ofString type.value)

/-- `UPDATE orders SET … WHERE order_id = $1`; no order has the id `NULL`. -/
def ReadModel.updateWhere (rm : ReadModel) (orderId : Option Text)
    (set : OrderRow → Option OrderRow) : Option ReadModel :=
  match orderId with
  | none => some rm
  | some orderId => rm.updateOrder orderId.val set

/-- The literal of a status in a statement. -/
def OrderStatus.text (st : OrderStatus) : Text := ⟨st.value, by cases st <;> decide⟩

/-! ### The projection -/

/-- `project_to_postgres`: one attempt, for a record. -/
def projectRecord [Btree] (codec : Codec) (rm : ReadModel) (event : RawEvent) :
    Option ReadModel := do
  let etype ← RawEvent.get event "event_type"
  let oid ← RawEvent.get event "aggregate_id"
  let payload ← RawEvent.get event "payload"
  let version ← RawEvent.get event "aggregate_version"
  match EventType.ofJson? etype with
  | some .orderCreated => do
      let customerId ← payload.item? "customer_id"
      let customerEmail ← payload.item? "customer_email"
      let orderId ← oid.required Json.text?
      let customerId ← customerId.required Json.text?
      let customerEmail ← customerEmail.required Json.text?
      let version ← version.required codec.int4?
      rm.insertOrder orderId.val customerId.val customerEmail.val version.val
  | some .orderItemAdded => do
      let productId ← payload.item? "product_id"
      let productName ← payload.item? "product_name"
      let quantity ← payload.item? "quantity"
      let unitPrice ← payload.item? "unit_price"
      let lineTotal ← payload.item? "line_total"
      let orderId ← oid.required Json.text?
      let productId ← productId.required Json.text?
      let productName ← productName.required Json.text?
      let quantity ← quantity.required codec.int4?
      let unitPrice ← unitPrice.required codec.numeric
      let lineTotal ← lineTotal.required codec.numeric
      let rm ← rm.upsertItem orderId.val
        { productId := productId.val
          productName := productName.val
          quantity := quantity.val
          unitPrice
          lineTotal }
      let version ← version.required codec.int4?
      rm.updateOrder orderId.val fun row => do
        let totalAmount ← Numeric.ofCents 12 (rm.sumLineTotal orderId.val)
        return { row with totalAmount, version }
  | some .orderConfirmed => do
      let orderId ← oid.param Json.text?
      let version ← version.param codec.int4?
      rm.updateWhere orderId fun row => do
        return { row with status := OrderStatus.confirmed.text, version := ← version }
  | some .orderPaymentProcessed => do
      let paymentId ← payload.item? "payment_id"
      let orderId ← oid.param Json.text?
      let paymentId ← paymentId.param Json.text?
      let version ← version.param codec.int4?
      rm.updateWhere orderId fun row => do
        return { row with status := OrderStatus.paid.text, paymentId, version := ← version }
  | some .orderShipped => do
      let trackingId ← payload.item? "tracking_id"
      let orderId ← oid.param Json.text?
      let trackingId ← trackingId.param Json.text?
      let version ← version.param codec.int4?
      rm.updateWhere orderId fun row => do
        return { row with status := OrderStatus.shipped.text, trackingId, version := ← version }
  | some .orderDelivered => do
      let orderId ← oid.param Json.text?
      let version ← version.param codec.int4?
      rm.updateWhere orderId fun row => do
        return { row with status := OrderStatus.delivered.text, version := ← version }
  | some .orderCancelled => do
      let orderId ← oid.param Json.text?
      let version ← version.param codec.int4?
      rm.updateWhere orderId fun row => do
        return { row with status := OrderStatus.cancelled.text, version := ← version }
  | none => return rm

/-! ### Records of events -/

/-- A text, as the value of a member. -/
def Json.ofText (s : String) : Json := .string (.ofString s)

/-- The value is encoded as a number. -/
def EncodesAs {α : Type} (encode : Json → Option α) (value : Option Json) (a : α) : Prop :=
  ∃ j, value = some j ∧ j ≠ .null ∧ encode j = some a

/-- The members of a payload that the projection reads. -/
def EncodesPayload (codec : Codec) (payload : Json) : Payload → Prop
  | .orderCreated c =>
      payload.item? "customer_id" = some (.ofText c.customerId) ∧
        payload.item? "customer_email" = some (.ofText c.customerEmail)
  | .orderItemAdded item =>
      payload.item? "product_id" = some (.ofText item.productId) ∧
        payload.item? "product_name" = some (.ofText item.productName) ∧
        EncodesAs codec.int (payload.item? "quantity") item.quantity ∧
        EncodesAs codec.numeric (payload.item? "unit_price") item.unitPrice ∧
        EncodesAs codec.numeric (payload.item? "line_total") item.lineTotal
  | .orderPaymentProcessed p => payload.item? "payment_id" = some (.ofText p.paymentId)
  | .orderShipped p => payload.item? "tracking_id" = some (.ofText p.trackingId)
  | .orderConfirmed _ | .orderDelivered | .orderCancelled _ _ => True

/-- **The record of an event.** -/
structure Encodes (codec : Codec) (event : RawEvent) (e : Event) : Prop where
  eventType : RawEvent.get event "event_type" = some (.ofText e.eventType.value)
  aggregateId : RawEvent.get event "aggregate_id" = some (.ofText e.aggregateId)
  aggregateVersion :
    EncodesAs codec.int (RawEvent.get event "aggregate_version") e.aggregateVersion
  payload : ∃ payload, RawEvent.get event "payload" = some payload ∧
    EncodesPayload codec payload e.payload

section Encodes

variable {codec : Codec} {rm rm' : ReadModel} {event : RawEvent} {e : Event}

lemma ofText_injective : Function.Injective Json.ofText := by
  intro s t hst
  have htext : Str.ofString s = .ofString t := Json.string.inj hst
  exact Option.some.inj ((Str.text?_eq_some.mpr rfl).symm.trans (Str.text?_eq_some.mpr htext))

@[simp] lemma text?_ofText (s : String) : (Json.ofText s).text? = Text.ofString s := by
  have htext : (Str.ofString s).text? = some s := Str.text?_eq_some.mpr rfl
  rw [Json.ofText, Json.text?, htext, Option.bind_some]

@[simp] lemma param_ofText (s : String) :
    (Json.ofText s).param Json.text? = (Text.ofString s).map some := by
  rw [← text?_ofText]
  rfl

@[simp] lemma required_ofText (s : String) :
    (Json.ofText s).required Json.text? = Text.ofString s := by
  rw [Json.required, param_ofText]
  cases Text.ofString s <;> rfl

lemma EncodesAs.param {α : Type} {encode : Json → Option α} {j : Json} {a : α}
    (h : EncodesAs encode (some j) a) {β : Type} (check : α → Option β) :
    j.param (fun j => (encode j).bind check) = (check a).map some := by
  obtain ⟨_, hj, hnull, ha⟩ := h
  obtain rfl := Option.some.inj hj
  cases j with
  | null => exact absurd rfl hnull
  | _ => simp only [Json.param, ha, Option.bind_some]

lemma EncodesAs.required {α : Type} {encode : Json → Option α} {j : Json} {a : α}
    (h : EncodesAs encode (some j) a) {β : Type} (check : α → Option β) :
    j.required (fun j => (encode j).bind check) = check a := by
  rw [Json.required, h.param check]
  cases check a <;> rfl

lemma ofJson?_ofText (type : EventType) : EventType.ofJson? (.ofText type.value) = some type := by
  cases type <;> decide +kernel

/-- `INSERT INTO orders` checks its parameters itself. -/
lemma bind_insertOrder [Btree] (o c m : String) (v : ℤ) :
    ((Text.ofString o).bind fun o => (Text.ofString c).bind fun c => (Text.ofString m).bind fun m =>
      (Int4.ofInt v).bind fun v => rm.insertOrder o.val c.val m.val v.val) =
      rm.insertOrder o c m v := by
  refine Option.ext fun rm' => ⟨fun h => ?_, fun h => ?_⟩
  · simp only [Option.bind_eq_some_iff, Text.ofString_eq_some, Int4.ofInt_eq_some] at h
    obtain ⟨_, rfl, _, rfl, _, rfl, _, rfl, h⟩ := h
    exact h
  · have hargs := h
    simp only [ReadModel.insertOrder, Option.bind_eq_bind, Option.bind_eq_some_iff,
      Text.ofString_eq_some, Int4.ofInt_eq_some] at hargs
    obtain ⟨o, rfl, c, rfl, m, rfl, v, rfl, _⟩ := hargs
    simp only [Option.bind_eq_some_iff, Text.ofString_eq_some, Int4.ofInt_eq_some]
    exact ⟨o, rfl, c, rfl, m, rfl, v, rfl, h⟩

/-- So does `INSERT INTO order_items`, whatever comes after it. -/
lemma bind_upsertItem [Btree] {β : Type} (o : String) (item : OrderItem)
    (k : String → ReadModel → Option β) :
    ((Text.ofString o).bind fun o => (Text.ofString item.productId).bind fun p =>
      (Text.ofString item.productName).bind fun n => (Int4.ofInt item.quantity).bind fun q =>
        (rm.upsertItem o.val
          { productId := p.val
            productName := n.val
            quantity := q.val
            unitPrice := item.unitPrice
            lineTotal := item.lineTotal }).bind fun rm₁ => k o.val rm₁) =
      (rm.upsertItem o item).bind fun rm₁ => k o rm₁ := by
  obtain ⟨productId, productName, quantity, unitPrice, lineTotal⟩ := item
  refine Option.ext fun out => ⟨fun h => ?_, fun h => ?_⟩
  · simp only [Option.bind_eq_some_iff, Text.ofString_eq_some, Int4.ofInt_eq_some] at h
    obtain ⟨_, rfl, _, rfl, _, rfl, _, rfl, rm₁, h, hk⟩ := h
    exact Option.bind_eq_some_iff.mpr ⟨rm₁, h, hk⟩
  · obtain ⟨rm₁, h, hk⟩ := Option.bind_eq_some_iff.mp h
    have hargs := h
    simp only [ReadModel.upsertItem, ItemRow.ofItem, Option.bind_eq_bind, Option.bind_eq_some_iff,
      Text.ofString_eq_some, Int4.ofInt_eq_some] at hargs
    obtain ⟨o, rfl, p, rfl, _, ⟨n, rfl, q, rfl, _⟩, _⟩ := hargs
    simp only [Option.bind_eq_some_iff, Text.ofString_eq_some, Int4.ofInt_eq_some]
    exact ⟨o, rfl, p, rfl, n, rfl, q, rfl, rm₁, h, hk⟩

/-- An update by a text is that of the order with this id. -/
lemma bind_updateWhere {β : Type} (o : String) (x : Option β)
    (set : Option β → OrderRow → Option OrderRow) :
    (((Text.ofString o).map some).bind fun o => (x.map some).bind fun v =>
      rm.updateWhere o (set v)) = x.bind fun v => rm.updateOrder o (set (some v)) := by
  cases ho : Text.ofString o with
  | none =>
      cases x with
      | none => rfl
      | some v =>
          rw [Option.bind_some, ReadModel.updateOrder, ho]
          rfl
  | some t =>
      rw [← Text.ofString_eq_some.mp ho]
      cases x <;> rfl

/-- The same for an update that sets an id, too. -/
lemma bind_updateWhere_id {β : Type} (o s : String) (x : Option β)
    (set : Option Text → Option β → OrderRow → Option OrderRow) :
    (((Text.ofString o).map some).bind fun o => ((Text.ofString s).map some).bind fun id =>
      (x.map some).bind fun v => rm.updateWhere o (set id v)) =
      (Text.ofString s).bind fun id => x.bind fun v =>
        rm.updateOrder o (set (some id) (some v)) := by
  cases Text.ofString s with
  | none => exact Option.bind_fun_none _
  | some id => exact bind_updateWhere o x (set (some id))

/-- **On the record of an event the projection is that of the event.** -/
theorem projectRecord_eq [Btree] (h : Encodes codec event e) :
    projectRecord codec rm event = projectToPostgres rm e := by
  obtain ⟨htype, hid, ⟨version, hversion, hv⟩, payload, hpayload, hvalues⟩ := h
  have hparam : version.param codec.int4? = (Int4.ofInt e.aggregateVersion).map some :=
    EncodesAs.param ⟨version, rfl, hv⟩ Int4.ofInt
  have hrequired : version.required codec.int4? = Int4.ofInt e.aggregateVersion :=
    EncodesAs.required ⟨version, rfl, hv⟩ Int4.ofInt
  rw [projectRecord, projectToPostgres, htype, hid, hversion, hpayload]
  iterate 4 rw [Option.bind_eq_bind, Option.bind_some]
  rw [ofJson?_ofText, Event.eventType]
  cases hp : e.payload with
  | orderCreated c =>
      rw [hp] at hvalues
      obtain ⟨hcustomer, hmail⟩ := hvalues
      simp only [Payload.eventType, hcustomer, hmail, hrequired, required_ofText,
        Option.bind_some]
      exact bind_insertOrder _ _ _ _
  | orderItemAdded item =>
      rw [hp] at hvalues
      obtain ⟨hproduct, hname, ⟨quantity, hq, hquantity⟩, ⟨price, hu, hprice⟩, line, hl, hline⟩ :=
        hvalues
      have hquantity : quantity.required codec.int4? = Int4.ofInt item.quantity :=
        EncodesAs.required ⟨quantity, rfl, hquantity⟩ Int4.ofInt
      have hprice : price.required codec.numeric = some item.unitPrice := by
        simpa using EncodesAs.required ⟨price, rfl, hprice⟩ some
      have hline : line.required codec.numeric = some item.lineTotal := by
        simpa using EncodesAs.required ⟨line, rfl, hline⟩ some
      simp only [Payload.eventType, hproduct, hname, hq, hu, hl]
      iterate 5 rw [Option.bind_some]
      rw [required_ofText, required_ofText, required_ofText, hquantity, hprice, hline, hrequired]
      exact bind_upsertItem _ item fun o rm₁ =>
        (Int4.ofInt e.aggregateVersion).bind fun version => rm₁.updateOrder o fun row => do
          let totalAmount ← Numeric.ofCents 12 (rm₁.sumLineTotal o)
          return { row with totalAmount, version }
  | orderConfirmed _ | orderDelivered | orderCancelled _ _ =>
      simp only [Payload.eventType, hparam, param_ofText]
      exact bind_updateWhere _ _ _
  | orderPaymentProcessed p | orderShipped p =>
      rw [hp, EncodesPayload] at hvalues
      simp only [Payload.eventType, hvalues]
      rw [Option.bind_eq_bind, Option.bind_some]
      simp only [hparam, param_ofText]
      exact bind_updateWhere_id _ _ _ _

end Encodes

/-! ### The rows of `orders` -/

/-- The order that a record of `ORDER_CREATED` names. -/
def RawEvent.createdId? (event : RawEvent) : Option Json :=
  if RawEvent.get event "event_type" = some (.ofText EventType.orderCreated.value) then
    RawEvent.get event "aggregate_id"
  else none

/-- **What the projection of a record can do to the rows of `orders`.** -/
inductive OrdersAfter (rm : ReadModel) (event : RawEvent) :
    (Finmap fun _ : String => OrderRow) → Prop where
  | again {o : String} : event.createdId? = some (.ofText o) → o ∈ rm.orders →
      OrdersAfter rm event rm.orders
  | create {o : String} {row : OrderRow} : event.createdId? = some (.ofText o) →
      o ∉ rm.orders → row.status.val = OrderStatus.pending.value →
      OrdersAfter rm event (rm.orders.insert o row)
  | update {o : String} {old row : OrderRow} : event.createdId? = none →
      rm.orders.lookup o = some old →
      row.status = old.status ∨ (∃ st : OrderStatus, row.status.val = st.value) →
      OrdersAfter rm event (rm.orders.insert o row)
  | same : event.createdId? = none → OrdersAfter rm event rm.orders

section Orders

variable {codec : Codec} {rm rm' : ReadModel} {event : RawEvent}
  {orders : Finmap fun _ : String => OrderRow}

/-- The seven event types are texts. -/
lemma ofJson?_eq_some {j : Json} {type : EventType} :
    EventType.ofJson? j = some type ↔ j = .ofText type.value := by
  refine ⟨fun h => ?_, ?_⟩
  · have hfound := List.find?_some h
    exact of_decide_eq_true hfound
  · rintro rfl
    exact ofJson?_ofText type

/-- A text parameter that is not `NULL` is a string. -/
lemma required_text?_eq_some {j : Json} {t : Text} (h : j.required Json.text? = some t) :
    j = .ofText t.val := by
  rw [Json.required, Option.join_eq_some_iff] at h
  cases j with
  | string s =>
      simp only [Json.param, Json.text?, Option.map_eq_some_iff, Option.some.injEq,
        exists_eq_right, Option.bind_eq_some_iff, Str.text?_eq_some, Text.ofString_eq_some] at h
      obtain ⟨_, rfl, ht⟩ := h
      rw [ht]
      rfl
  | _ => simp [Json.param, Json.text?] at h

/-- An update replaces at most one row. -/
lemma updateWhere_orders {o : Option Text} {set : OrderRow → Option OrderRow}
    (h : rm.updateWhere o set = some rm') : rm'.orders = rm.orders ∨
      ∃ o old row, rm.orders.lookup o = some old ∧ set old = some row ∧
        rm'.orders = rm.orders.insert o row := by
  cases o with
  | none =>
      rw [← Option.some.inj h]
      exact Or.inl rfl
  | some o =>
      cases hrow : (rm.view o.val).row with
      | none =>
          rw [ReadModel.updateOrder_of_absent hrow h]
          exact Or.inl rfl
      | some old =>
          obtain ⟨row, hset, rfl⟩ := ReadModel.updateOrder_of_row hrow h
          exact Or.inr ⟨_, old, row, hrow, hset, rfl⟩

/-- A record of another type names no order to create. -/
lemma createdId?_eq_none {etype : Json} (htype : RawEvent.get event "event_type" = some etype)
    (hne : EventType.ofJson? etype ≠ some .orderCreated) : event.createdId? = none := by
  rw [RawEvent.createdId?, htype, if_neg]
  rw [Option.some.injEq, ← ofJson?_eq_some]
  exact hne

/-- The statements that set a status. -/
lemma ordersAfter_updateWhere {β : Type} {o : Option Text} {v : Option β}
    {set : β → OrderRow → OrderRow} (hid : event.createdId? = none) (st : OrderStatus)
    (hset : ∀ v old, (set v old).status.val = st.value)
    (h : rm.updateWhere o (fun row => v.bind fun v => some (set v row)) = some rm') :
    OrdersAfter rm event rm'.orders := by
  rcases updateWhere_orders h with heq | ⟨o, old, row, hold, hrow, heq⟩
  · rw [heq]
    exact .same hid
  · rw [heq]
    obtain ⟨v, _, hrow⟩ := Option.bind_eq_some_iff.mp hrow
    obtain rfl := Option.some.inj hrow
    exact .update hid hold (Or.inr ⟨st, hset v old⟩)

/-- **The inversion of the projection of a record.** -/
theorem projectRecord_cases [Btree] (h : projectRecord codec rm event = some rm') :
    OrdersAfter rm event rm'.orders := by
  rw [projectRecord] at h
  obtain ⟨etype, htype, h⟩ := Option.bind_eq_some_iff.mp h
  obtain ⟨oid, hid, h⟩ := Option.bind_eq_some_iff.mp h
  obtain ⟨payload, hpayload, h⟩ := Option.bind_eq_some_iff.mp h
  obtain ⟨version, hversion, h⟩ := Option.bind_eq_some_iff.mp h
  have hother := createdId?_eq_none htype
  cases hof : EventType.ofJson? etype with
  | none =>
      rw [hof] at h
      rw [← Option.some.inj h]
      exact .same (hother (by simp [hof]))
  | some type =>
      rw [hof] at h hother
      cases type with
      | orderCreated =>
          iterate 2 obtain ⟨_, _, h⟩ := Option.bind_eq_some_iff.mp h
          obtain ⟨o, ho, h⟩ := Option.bind_eq_some_iff.mp h
          iterate 3 obtain ⟨_, _, h⟩ := Option.bind_eq_some_iff.mp h
          have hcreated : event.createdId? = some (.ofText o.val) := by
            rw [RawEvent.createdId?, htype, ofJson?_eq_some.mp hof, if_pos rfl, hid,
              required_text?_eq_some ho]
          by_cases hmem : o.val ∈ rm.orders
          · rw [ReadModel.insertOrder_of_mem hmem h]
            exact .again hcreated hmem
          · obtain ⟨row, rfl, _, _, hstatus, _⟩ := ReadModel.insertOrder_of_notMem hmem h
            exact .create hcreated hmem hstatus
      | orderItemAdded =>
          iterate 5 obtain ⟨_, _, h⟩ := Option.bind_eq_some_iff.mp h
          obtain ⟨o, _, h⟩ := Option.bind_eq_some_iff.mp h
          iterate 5 obtain ⟨_, _, h⟩ := Option.bind_eq_some_iff.mp h
          obtain ⟨rm₁, hupsert, h⟩ := Option.bind_eq_some_iff.mp h
          obtain ⟨_, _, h⟩ := Option.bind_eq_some_iff.mp h
          obtain ⟨_, _, _, rfl, _⟩ := ReadModel.upsertItem_eq_some hupsert
          -- the item row leaves `orders` alone, the update after it the status
          rcases updateWhere_orders (o := some o) h with heq | ⟨o, old, row, hold, hrow, heq⟩
          · rw [heq]
            exact .same (hother (by simp))
          · rw [heq]
            obtain ⟨total, _, hrow⟩ := Option.bind_eq_some_iff.mp hrow
            obtain rfl := Option.some.inj hrow
            exact .update (hother (by simp)) hold (Or.inl rfl)
      -- the other types set one status each, after as many parameters as they have
      | orderConfirmed =>
          iterate 2 obtain ⟨_, _, h⟩ := Option.bind_eq_some_iff.mp h
          exact ordersAfter_updateWhere (hother (by simp)) .confirmed (fun _ _ => rfl) h
      | orderDelivered =>
          iterate 2 obtain ⟨_, _, h⟩ := Option.bind_eq_some_iff.mp h
          exact ordersAfter_updateWhere (hother (by simp)) .delivered (fun _ _ => rfl) h
      | orderCancelled =>
          iterate 2 obtain ⟨_, _, h⟩ := Option.bind_eq_some_iff.mp h
          exact ordersAfter_updateWhere (hother (by simp)) .cancelled (fun _ _ => rfl) h
      | orderPaymentProcessed =>
          iterate 4 obtain ⟨_, _, h⟩ := Option.bind_eq_some_iff.mp h
          exact ordersAfter_updateWhere (hother (by simp)) .paid (fun _ _ => rfl) h
      | orderShipped =>
          iterate 4 obtain ⟨_, _, h⟩ := Option.bind_eq_some_iff.mp h
          exact ordersAfter_updateWhere (hother (by simp)) .shipped (fun _ _ => rfl) h

/-- The rows after a projection are those before and the one that is created. -/
lemma OrdersAfter.ids (h : OrdersAfter rm event orders) {j : Json} :
    (∃ o ∈ orders, j = .ofText o) ↔
      (∃ o ∈ rm.orders, j = .ofText o) ∨ event.createdId? = some j := by
  cases h with
  | @again o hid hmem =>
      refine (or_iff_left_of_imp fun hj => ?_).symm
      exact ⟨o, hmem, Option.some.inj (hj.symm.trans hid)⟩
  | @create o row hid =>
      constructor
      · rintro ⟨o', ho', rfl⟩
        rcases Finmap.mem_insert.mp ho' with rfl | ho'
        · exact Or.inr hid
        · exact Or.inl ⟨o', ho', rfl⟩
      · rintro (⟨o', ho', rfl⟩ | hj)
        · exact ⟨o', Finmap.mem_insert.mpr (Or.inr ho'), rfl⟩
        · exact ⟨o, Finmap.mem_insert.mpr (Or.inl rfl), Option.some.inj (hj.symm.trans hid)⟩
  | @update o old row hid hold =>
      have hmem : ∀ o', o' ∈ rm.orders.insert o row ↔ o' ∈ rm.orders := by
        intro o'
        rw [Finmap.mem_insert, or_iff_right_of_imp]
        rintro rfl
        exact Finmap.mem_of_lookup_eq_some hold
      simp only [hmem, hid, reduceCtorEq, or_false]
  | same hid => simp only [hid, reduceCtorEq, or_false]

/-- The statuses stay among those of `OrderStatus`. -/
lemma OrdersAfter.status (h : OrdersAfter rm event orders)
    (hrm : ∀ o row, rm.orders.lookup o = some row → ∃ st : OrderStatus, row.status.val = st.value)
    (o : String) (row : OrderRow) (hrow : orders.lookup o = some row) :
    ∃ st : OrderStatus, row.status.val = st.value := by
  cases h with
  | again | same => exact hrm o row hrow
  | @create o' row' _ _ hstatus =>
      by_cases ho : o = o'
      · subst ho
        rw [Finmap.lookup_insert, Option.some.injEq] at hrow
        exact ⟨.pending, hrow ▸ hstatus⟩
      · rw [Finmap.lookup_insert_of_ne _ ho] at hrow
        exact hrm o row hrow
  | @update o' old row' _ hold hstatus =>
      by_cases ho : o = o'
      · subst ho
        rw [Finmap.lookup_insert, Option.some.injEq] at hrow
        subst hrow
        rcases hstatus with heq | hstatus
        · rw [heq]
          exact hrm o old hold
        · exact hstatus
      · rw [Finmap.lookup_insert_of_ne _ ho] at hrow
        exact hrm o row hrow

end Orders

/-! ### Series of attempts -/

/-- An attempt to project a record, which the database may refuse whatever the record is. -/
structure RecordAttempt where
  event : RawEvent
  raises : Bool

/-- The tables an attempt commits, if it succeeds. -/
def RecordAttempt.commit [Btree] (codec : Codec) (rm : ReadModel) (a : RecordAttempt) :
    Option ReadModel :=
  if a.raises then none else projectRecord codec rm a.event

/-- The tables after an attempt; a failed one leaves them unchanged. -/
def RecordAttempt.after [Btree] (codec : Codec) (rm : ReadModel) (a : RecordAttempt) : ReadModel :=
  (a.commit codec rm).getD rm

/-- The tables after a series of attempts. -/
def projectRecords [Btree] (codec : Codec) (rm : ReadModel) (as : List RecordAttempt) : ReadModel :=
  as.foldl (RecordAttempt.after codec) rm

/-- The `aggregate_id` of every `ORDER_CREATED` that is successfully projected. -/
def createdIds [Btree] (codec : Codec) : ReadModel → List RecordAttempt → List Json
  | _, [] => []
  | rm, a :: as =>
      let ids := if (a.commit codec rm).isSome then a.event.createdId?.toList else []
      ids ++ createdIds codec (a.after codec rm) as

section Series

variable {codec : Codec} {rm : ReadModel} {a : RecordAttempt}

/-- **Series of attempts to project the records of events** are those to project the events. -/
theorem projectRecords_eq [Btree] {rs : List RecordAttempt} {as : List Attempt}
    (h : List.Forall₂ (fun r a => Encodes codec r.event a.event ∧ r.raises = a.raises) rs as) :
    projectRecords codec rm rs = projectAll rm as := by
  induction h generalizing rm with
  | nil => rfl
  | @cons r a rs as hra _ ih =>
      have hstep : r.after codec rm = rm.attempt a := by
        rw [RecordAttempt.after, RecordAttempt.commit, hra.2, projectRecord_eq hra.1,
          ReadModel.attempt, ReadModel.after]
        cases a.raises <;> rfl
      rw [projectRecords, projectAll, List.foldl_cons, List.foldl_cons, hstep]
      exact ih

/-- An attempt that succeeds projects its record. -/
lemma RecordAttempt.commit_eq_some [Btree] {rm' : ReadModel} (h : a.commit codec rm = some rm') :
    projectRecord codec rm a.event = some rm' := by
  rw [RecordAttempt.commit] at h
  split_ifs at h
  exact h

/-- **The orders with a row are those created.** -/
theorem projectRecords_ids [Btree] (rm : ReadModel) (as : List RecordAttempt) {j : Json} :
    (∃ o ∈ (projectRecords codec rm as).orders, j = .ofText o) ↔
      (∃ o ∈ rm.orders, j = .ofText o) ∨ j ∈ createdIds codec rm as := by
  induction as generalizing rm with
  | nil => simp [projectRecords, createdIds]
  | cons a as ih =>
      rw [projectRecords, List.foldl_cons, createdIds, List.mem_append, ← or_assoc]
      refine (ih (a.after codec rm)).trans (or_congr_left ?_)
      rw [RecordAttempt.after]
      cases hcommit : a.commit codec rm with
      | none => simp
      | some rm' =>
          rw [Option.getD_some, Option.isSome_some, if_pos rfl, Option.mem_toList]
          exact (projectRecord_cases (RecordAttempt.commit_eq_some hcommit)).ids

/-- **The statuses of the rows are those of `OrderStatus`.** -/
theorem projectRecords_status [Btree] (as : List RecordAttempt) (o : String) (row : OrderRow)
    (hrow : (projectRecords codec .empty as).orders.lookup o = some row) :
    ∃ st : OrderStatus, row.status.val = st.value := by
  induction as using List.reverseRecOn generalizing o row with
  | nil => exact absurd (Finmap.mem_of_lookup_eq_some hrow) Finmap.notMem_empty
  | append_singleton as a ih =>
      rw [projectRecords, List.foldl_concat, RecordAttempt.after] at hrow
      cases hcommit : a.commit codec (projectRecords codec .empty as) with
      | none =>
          rw [projectRecords] at hcommit
          rw [hcommit] at hrow
          exact ih o row hrow
      | some rm' =>
          have hcases := projectRecord_cases (RecordAttempt.commit_eq_some hcommit)
          rw [projectRecords] at hcommit
          rw [hcommit] at hrow
          exact hcases.status ih o row hrow

end Series

end OrderCqrs
