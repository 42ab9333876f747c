import OrderCqrs.Logic.Runs
import OrderCqrs.Command.EventStore

/-!
The write side as a transition system (`api/routers/command_router.py`): any number of command
handlers over the event store, the topic, Redis and the payment gateway, interleaved at their
`await` points.

* `Shared`: the stores the handlers share.  `charges` is the ledger of the successful gateway
  calls, with the order each was made for.
* `Pc`, `Handler`: where a handler stands, that is, which call it awaits.  `Built` is what it
  carries from its validation on: the aggregate it validated against and the event it built.
* `addItem`, `confirmOrder`, …: the synchronous part of each handler between its load and its
  next `await`.
* `Handler.complete`: the awaited call takes effect and the handler runs on to its next `await`;
  `Handler.interrupt`: the awaited call raises.
* `step`: a request arrives, a handler's awaited call completes, raises, or takes effect and
  raises all the same (a lost acknowledgement), or a Redis key expires.

The decorator of `publish` is read as it is: three attempts of the whole body, `RetryError` after
the third.
-/

namespace OrderCqrs

open Runs

/-! ### Commands, responses and program points -/

/-- A request to one of the six command endpoints. -/
inductive Command where
  | createOrder (req : CreateOrderRequest)
  | addItem (orderId : String) (req : AddItemRequest)
  | confirmOrder (orderId : String)
  | processPayment (orderId : String) (req : ProcessPaymentRequest)
  | shipOrder (orderId : String) (req : ShipOrderRequest)
  | cancelOrder (orderId : String) (req : CancelOrderRequest)

/-- `CommandResponse`. -/
structure CommandResponse where
  eventId : String
  aggregateId : String
  aggregateVersion : ℤ
  message : String
  deriving DecidableEq

/-- The order a command is about; the creation makes its own. -/
def Command.orderId? : Command → Option String
  | createOrder _ => none
  | addItem o _ | confirmOrder o | processPayment o _ | shipOrder o _ | cancelOrder o _ => some o

/-- The message of the response to a command. -/
def Command.message : Command → String
  | createOrder _ => "Order created"
  | addItem _ req => s!"Item {req.productName} added"
  | confirmOrder _ => "Order confirmed"
  | processPayment _ _ => "Payment processed"
  | shipOrder _ req => s!"Order shipped via {req.carrier}"
  | cancelOrder _ _ => "Order cancelled"

/-- The response of a handler that has published its event. -/
def Command.respond (cmd : Command) (e : Event) : CommandResponse where
  eventId := e.eventId
  aggregateId := e.aggregateId
  aggregateVersion := e.aggregateVersion
  message := cmd.message

/-- What a handler has validated and built: the aggregate (none for `create_order`) and the
event. -/
structure Built where
  agg : Option OrderAggregate
  event : Event

/-- The calls in the body of `publish`. -/
inductive PublishCall where
  | redisExists
  | sendAndWait
  | redisSetex
  deriving DecidableEq

/-- The call a handler awaits, or how it ended. -/
inductive Pc where
  | start
  | latestVersion (orderId : String)
  | charge (agg : OrderAggregate)
  | append (b : Built)
  | publish (b : Built) (attempt : ℕ) (call : PublishCall)
  | setex (b : Built)
  | done (b : Option Built) (response : CommandResponse)
  | failed (b : Option Built) (error : ApiError)

/-- What the handler has built, if it has got that far. -/
def Pc.built : Pc → Option Built
  | start | latestVersion _ | charge _ => none
  | append b | publish b _ _ | setex b => some b
  | done b _ | failed b _ => b

/-- The handler has returned or raised. -/
def Pc.Ended : Pc → Prop
  | done _ _ | failed _ _ => True
  | _ => False

instance : (pc : Pc) → Decidable pc.Ended
  | .done _ _ | .failed _ _ => .isTrue trivial
  | .start | .latestVersion _ | .charge _ | .append _ | .publish _ _ _ | .setex _ => .isFalse id

/-- A command handler. -/
structure Handler where
  command : Command
  pc : Pc

/-! ### The shared stores -/

/-- A successful call of the payment gateway, with the order it was made for. -/
structure Charge where
  orderId : String
  paymentId : String
  amount : ℚ
  deriving DecidableEq

/-- The stores the handlers share: the Mongo collection, the topic in the order of the sends, the
two families of Redis keys, and the ledger of the gateway. -/
structure Shared where
  store : List Event
  topic : List Record
  published : List String
  idempotent : List (String × String)
  charges : List Charge

/-- What a handler draws between two `await` points: a fresh order id and a stamp. -/
structure Draw where
  orderId : String
  stamp : Stamp

/-! ### The handlers -/

/-- `add_item`, from the loaded aggregate to the append. -/
def addItem (orderId : String) (req : AddItemRequest) (st : Stamp) (agg : OrderAggregate) :
    Except ApiError Pc := do
  agg.assertCanAddItem
  return .append ⟨some agg, orderItemAddedEvent st orderId (agg.version + 1) req.productId
    req.productName req.quantity req.unitPrice⟩

/-- `confirm_order`, from the loaded aggregate to the append. -/
def confirmOrder (orderId : String) (st : Stamp) (agg : OrderAggregate) : Except ApiError Pc := do
  agg.assertCanConfirm
  return .append ⟨some agg, orderConfirmedEvent st orderId (agg.version + 1)⟩

/-- `process_payment`, from the loaded aggregate to the call of the gateway. -/
def processPayment (agg : OrderAggregate) : Except ApiError Pc := do
  agg.assertCanPay
  return .charge agg

/-- `ship_order`, from the loaded aggregate to the append. -/
def shipOrder (orderId : String) (req : ShipOrderRequest) (st : Stamp) (agg : OrderAggregate) :
    Except ApiError Pc := do
  agg.assertCanShip
  return .append ⟨some agg, orderShippedEvent st orderId (agg.version + 1) req.trackingId
    req.carrier⟩

/-- `cancel_order`, from the loaded aggregate to the append. -/
def cancelOrder (orderId : String) (req : CancelOrderRequest) (st : Stamp)
    (agg : OrderAggregate) : Except ApiError Pc := do
  agg.assertCanCancel
  return .append ⟨some agg, orderCancelledEvent st orderId (agg.version + 1) req.reason⟩

/-- Where an exception leaves a handler that has built nothing yet. -/
def orFailed : Except ApiError Pc → Pc
  | .ok pc => pc
  | .error err => .failed none err

/-- The first `await` of a handler completes: `redis.get` in `create_order`, `get_events` in the
others, which go on to rebuild, validate and build their event. -/
def Command.begin (sh : Shared) (d : Draw) : Command → Pc
  | createOrder req =>
      match sh.idempotent.lookup req.idempotencyKey with
      | some orderId => .latestVersion orderId
      | none =>
          .append ⟨none, orderCreatedEvent d.stamp d.orderId req.customerId req.customerEmail⟩
  | addItem orderId req =>
      orFailed (loadAggregate sh.store orderId >>= OrderCqrs.addItem orderId req d.stamp)
  | confirmOrder orderId =>
      orFailed (loadAggregate sh.store orderId >>= OrderCqrs.confirmOrder orderId d.stamp)
  | processPayment orderId _ =>
      orFailed (loadAggregate sh.store orderId >>= OrderCqrs.processPayment)
  | shipOrder orderId req =>
      orFailed (loadAggregate sh.store orderId >>= OrderCqrs.shipOrder orderId req d.stamp)
  | cancelOrder orderId req =>
      orFailed (loadAggregate sh.store orderId >>= OrderCqrs.cancelOrder orderId req d.stamp)

/-- Where a handler goes when `publish` returns: `create_order` records its idempotency key. -/
def Command.published (cmd : Command) (b : Built) : Pc :=
  match cmd with
  | createOrder _ => .setex b
  | _ => .done (some b) (cmd.respond b.event)

lemma Command.published_cases (cmd : Command) (b : Built) :
    cmd.published b = .setex b ∨ cmd.published b = .done (some b) (cmd.respond b.event) := by
  cases cmd <;> simp [Command.published]

/-- The awaited call takes effect and returns; the handler runs on to its next `await`. -/
def Handler.complete (sh : Shared) (d : Draw) (h : Handler) : Option (Shared × Pc) :=
  match h.pc with
  | .start => some (sh, h.command.begin sh d)
  | .latestVersion orderId =>
      some (sh, .done none
        { eventId := "cached"
          aggregateId := orderId
          aggregateVersion := getLatestVersion sh.store orderId
          message := "Order already created (idempotent)" })
  | .charge agg =>
      match h.command with
      | .processPayment orderId req =>
          match OrderCqrs.charge req.paymentId req.amount req.method with
          | .failure err =>
              some (sh, .failed none (.httpException 402 s!"Payment failed: {err}"))
          | .success _ =>
              some ({ sh with charges := sh.charges ++ [⟨orderId, req.paymentId, req.amount⟩] },
                .append ⟨some agg, orderPaymentProcessedEvent d.stamp orderId (agg.version + 1)
                  req.paymentId req.amount req.method⟩)
      | _ => none
  | .append b =>
      match EventStore.append sh.store b.event with
      | .ok store => some ({ sh with store }, .publish b 1 .redisExists)
      | .error err => some (sh, .failed (some b) err)
  | .publish b n .redisExists =>
      if b.event.eventId ∈ sh.published then some (sh, h.command.published b)
      else some (sh, .publish b n .sendAndWait)
  | .publish b n .sendAndWait =>
      some ({ sh with topic := sh.topic ++ [recordOf b.event] }, .publish b n .redisSetex)
  | .publish b _ .redisSetex =>
      some ({ sh with published := b.event.eventId :: sh.published }, h.command.published b)
  | .setex b =>
      match h.command with
      | .createOrder req =>
          some ({ sh with idempotent := (req.idempotencyKey, b.event.aggregateId) :: sh.idempotent },
            .done (some b) (h.command.respond b.event))
      | _ => none
  | .done _ _ | .failed _ _ => none

/-- The awaited call raises.  The gateway of the repository never does; `publish` starts its next
attempt, three being the most. -/
def Handler.interrupt (h : Handler) : Option Pc :=
  match h.pc with
  | .start | .latestVersion _ => some (.failed none .serviceError)
  | .append b | .setex b => some (.failed (some b) .serviceError)
  | .publish b n _ =>
      some (if n < 3 then .publish b (n + 1) .redisExists else .failed (some b) .retryError)
  | .charge _ | .done _ _ | .failed _ _ => none

/-! ### The transition system -/

/-- The whole write side.  `drawn` are the identifiers `uuid4` has returned so far. -/
structure State extends Shared where
  drawn : List String
  handlers : List Handler

/-- Nothing stored, nothing sent, no request yet. -/
def State.init : State where
  store := []
  topic := []
  published := []
  idempotent := []
  charges := []
  drawn := []
  handlers := []

/-- How an awaited call ends. -/
inductive Outcome where
  | completes
  | raises
  | raisesAfterEffect
  deriving DecidableEq

/-- The moves of the write side. -/
inductive Action where
  | request (cmd : Command)
  | await (i : ℕ) (outcome : Outcome) (d : Draw)
  | expire (key : String)

/-- `uuid4` never returns an identifier twice. -/
def Draw.Fresh (d : Draw) (drawn : List String) : Prop :=
  d.orderId ∉ drawn ∧ d.stamp.eventId ∉ drawn

instance (d : Draw) (drawn : List String) : Decidable (d.Fresh drawn) :=
  inferInstanceAs (Decidable (_ ∧ _))

/-- What becomes of the shared stores and of a handler when its awaited call ends so. -/
def Handler.await (sh : Shared) (d : Draw) (h : Handler) : Outcome → Option (Shared × Pc)
  | .completes => h.complete sh d
  | .raises => h.interrupt.map fun pc => (sh, pc)
  | .raisesAfterEffect => do
      let (sh', _) ← h.complete sh d
      let pc ← h.interrupt
      return (sh', pc)

/-- One move of the write side. -/
def step (s : State) : Action → Option State
  | .request cmd => some { s with handlers := s.handlers ++ [⟨cmd, .start⟩] }
  | .await i outcome d => do
      guard (d.Fresh s.drawn)
      let h ← s.handlers[i]?
      let (sh, pc) ← h.await s.toShared d outcome
      return { toShared := sh
               drawn := d.orderId :: d.stamp.eventId :: s.drawn
               handlers := s.handlers.set i { h with pc } }
  | .expire key =>
      some { s with
        published := s.published.filter (· ≠ key)
        idempotent := s.idempotent.filter (·.1 ≠ key) }

/-- No handler is in flight. -/
def State.Quiescent (s : State) : Prop := ∀ h ∈ s.handlers, h.pc.Ended

instance (s : State) : Decidable s.Quiescent :=
  inferInstanceAs (Decidable (∀ h ∈ s.handlers, h.pc.Ended))

/-! ### Concrete schedules -/

/-- The `k`-th draw of a schedule, with numbered identifiers. -/
def Draw.nth (k : ℕ) : Draw where
  orderId := s!"order-{k}"
  stamp := .nth k

/-- The next `n` calls of handler `i` return, the first of them with the draw `k`. -/
def returns (i k n : ℕ) : List Action :=
  (List.range n).map fun j => .await i .completes (.nth (k + j))

end OrderCqrs
