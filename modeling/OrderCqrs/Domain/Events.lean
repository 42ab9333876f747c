import Mathlib.Data.Rat.Init
import Mathlib.Algebra.Order.Ring.Rat
import Mathlib.Tactic.Common
import OrderCqrs.Logic.Doubles

/-!
The domain events (`api/models/events.py`) and the command requests (`api/models/schemas.py`).

* `EventType`, `OrderStatus`: the two enumerations, with the string each member carries
  (`value`) and, for the status, the text an f-string shows for it (`str`).
* `Payload`, `Event`: `BaseEvent`.  The source keeps the event type next to an untyped payload;
  here the payload's constructor fixes the type (`Payload.eventType`), so an event whose
  payload does not fit its type cannot be built.
* `orderCreatedEvent`, `orderItemAddedEvent`, …: the event factories.  What they draw from
  `uuid4` and the clock is handed to them as a `Stamp`.
* `AddItemRequest` and its siblings: the requests, the schema's lower bounds being fields.

Python's floats are read as the rationals they denote; the arithmetic is that of `FloatArith`.
-/

namespace OrderCqrs

/-! ### The enumerations -/

/-- `EventType`. -/
inductive EventType where
  | orderCreated
  | orderItemAdded
  | orderConfirmed
  | orderPaymentProcessed
  | orderShipped
  | orderDelivered
  | orderCancelled
  deriving DecidableEq, Repr

/-- The string value of an event type. -/
def EventType.value : EventType → String
  | orderCreated => "ORDER_CREATED"
  | orderItemAdded => "ORDER_ITEM_ADDED"
  | orderConfirmed => "ORDER_CONFIRMED"
  | orderPaymentProcessed => "ORDER_PAYMENT_PROCESSED"
  | orderShipped => "ORDER_SHIPPED"
  | orderDelivered => "ORDER_DELIVERED"
  | orderCancelled => "ORDER_CANCELLED"

/-- `OrderStatus`. -/
inductive OrderStatus where
  | pending
  | confirmed
  | paid
  | shipped
  | delivered
  | cancelled
  deriving DecidableEq, Repr

/-- The string value of a status, which is also what the `status` column holds. -/
def OrderStatus.value : OrderStatus → String
  | pending => "PENDING"
  | confirmed => "CONFIRMED"
  | paid => "PAID"
  | shipped => "SHIPPED"
  | delivered => "DELIVERED"
  | cancelled => "CANCELLED"

/-- The text of a status inside an f-string: class and member (Python 3.12). -/
def OrderStatus.str (s : OrderStatus) : String := "OrderStatus." ++ s.value

/-! ### Payloads and events -/

/-- Seconds since the epoch. -/
abbrev Timestamp := ℚ

/-- The payload of `ORDER_ITEM_ADDED`, and the item the aggregate keeps of it. -/
structure OrderItem where
  productId : String
  productName : String
  quantity : ℤ
  unitPrice : ℚ
  lineTotal : ℚ
  deriving DecidableEq

/-- What the schema and the factory guarantee of an added item in exact arithmetic: a positive
quantity and price, and a line total that is their product. -/
def OrderItem.Priced (item : OrderItem) : Prop :=
  0 < item.quantity ∧ 0 < item.unitPrice ∧ item.lineTotal = item.quantity * item.unitPrice

/-- The payload of `ORDER_CREATED`. -/
structure Created where
  customerId : String
  customerEmail : String
  items : List OrderItem := []
  totalAmount : ℚ := 0
  deriving DecidableEq

/-- The payload of `ORDER_PAYMENT_PROCESSED`. -/
structure PaymentProcessed where
  paymentId : String
  amount : ℚ
  method : String
  processedAt : Timestamp
  deriving DecidableEq

/-- The payload of `ORDER_SHIPPED`. -/
structure Shipped where
  trackingId : String
  carrier : String
  shippedAt : Timestamp
  deriving DecidableEq

/-- The payloads, one constructor for each event type. -/
inductive Payload where
  | orderCreated (c : Created)
  | orderItemAdded (item : OrderItem)
  | orderConfirmed (confirmedAt : Timestamp)
  | orderPaymentProcessed (p : PaymentProcessed)
  | orderShipped (p : Shipped)
  | orderDelivered
  | orderCancelled (reason : String) (cancelledAt : Timestamp)
  deriving DecidableEq

/-- The event type a payload belongs to. -/
def Payload.eventType : Payload → EventType
  | orderCreated _ => .orderCreated
  | orderItemAdded _ => .orderItemAdded
  | orderConfirmed _ => .orderConfirmed
  | orderPaymentProcessed _ => .orderPaymentProcessed
  | orderShipped _ => .orderShipped
  | orderDelivered => .orderDelivered
  | orderCancelled _ _ => .orderCancelled

/-- The payment a payload records. -/
def Payload.payment? : Payload → Option PaymentProcessed
  | .orderPaymentProcessed p => some p
  | _ => none

/-- The item a payload adds. -/
def Payload.item? : Payload → Option OrderItem
  | .orderItemAdded item => some item
  | _ => none

/-- `BaseEvent`. -/
structure Event where
  eventId : String
  aggregateId : String
  aggregateVersion : ℤ
  occurredAt : Timestamp
  correlationId : String
  payload : Payload
  deriving DecidableEq

/-- The type of an event. -/
def Event.eventType (e : Event) : EventType := e.payload.eventType

/-! ### The event factories -/

/-- What a factory draws while it builds an event: the two `uuid4` identifiers of `BaseEvent`,
its `occurred_at`, and the clock reading of the payload. -/
structure Stamp where
  eventId : String
  correlationId : String
  occurredAt : Timestamp
  now : Timestamp

/-- `BaseEvent(...)` with the defaults drawn from the stamp. -/
def Stamp.event (st : Stamp) (orderId : String) (version : ℤ) (payload : Payload) : Event where
  eventId := st.eventId
  aggregateId := orderId
  aggregateVersion := version
  occurredAt := st.occurredAt
  correlationId := st.correlationId
  payload := payload

/-- The `k`-th of a series of stamps with numbered event ids. -/
def Stamp.nth (k : ℕ) : Stamp where
  eventId := s!"event-{k}"
  correlationId := "trace"
  occurredAt := 0
  now := 0

/-- `order_created_event`: always version 1. -/
def orderCreatedEvent (st : Stamp) (orderId customerId customerEmail : String) : Event :=
  st.event orderId 1 (.orderCreated { customerId, customerEmail })

/-- `order_item_added_event`: the line total is computed here, with floats. -/
def orderItemAddedEvent [FloatArith] (st : Stamp) (orderId : String) (version : ℤ)
    (productId productName : String) (quantity : ℤ) (unitPrice : ℚ) : Event :=
  st.event orderId version
    (.orderItemAdded
      { productId, productName, quantity, unitPrice, lineTotal := FloatArith.mul quantity unitPrice })

/-- `order_confirmed_event`. -/
def orderConfirmedEvent (st : Stamp) (orderId : String) (version : ℤ) : Event :=
  st.event orderId version (.orderConfirmed st.now)

/-- `order_payment_processed_event`. -/
def orderPaymentProcessedEvent (st : Stamp) (orderId : String) (version : ℤ)
    (paymentId : String) (amount : ℚ) (method : String) : Event :=
  st.event orderId version
    (.orderPaymentProcessed { paymentId, amount, method, processedAt := st.now })

/-- `order_shipped_event`. -/
def orderShippedEvent (st : Stamp) (orderId : String) (version : ℤ)
    (trackingId carrier : String) : Event :=
  st.event orderId version (.orderShipped { trackingId, carrier, shippedAt := st.now })

/-- `order_cancelled_event`. -/
def orderCancelledEvent (st : Stamp) (orderId : String) (version : ℤ) (reason : String) :
    Event :=
  st.event orderId version (.orderCancelled reason st.now)

/-! ### The requests -/

/-- `CreateOrderRequest`. -/
structure CreateOrderRequest where
  customerId : String
  customerEmail : String
  idempotencyKey : String

/-- `AddItemRequest`; the schema admits positive quantities and prices only. -/
structure AddItemRequest where
  productId : String
  productName : String
  quantity : ℤ
  unitPrice : ℚ
  quantity_pos : 0 < quantity
  unitPrice_pos : 0 < unitPrice

/-- `ProcessPaymentRequest`; the schema admits positive amounts only. -/
structure ProcessPaymentRequest where
  paymentId : String
  amount : ℚ
  method : String
  amount_pos : 0 < amount

/-- `ShipOrderRequest`. -/
structure ShipOrderRequest where
  trackingId : String
  carrier : String

/-- `CancelOrderRequest`. -/
structure CancelOrderRequest where
  reason : String

end OrderCqrs
