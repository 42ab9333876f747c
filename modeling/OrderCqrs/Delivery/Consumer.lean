import Mathlib.Data.Option.Basic
import Mathlib.Logic.Function.Basic
import Mathlib.Tactic.SplitIfs
import OrderCqrs.Logic.Runs
import OrderCqrs.Projection.ReadModel

/-!
The way of an event from the topic into the read model: the projection consumer
(`consumers/main.py`), the dead letter queue, and the Lambda that retries what is in it
(`lambda_handlers/retry_handler.py`).

* `Delivery`: a record as the consumer decodes it; `eventsOf`: the events of a partition.
* `DlqMessage`, `dlqMessage`: what `send_to_dlq` writes; `retryMessage`: what the Lambda does with
  it, that is, publish it again with a higher count or put it away as a dead letter.
* `ConsumerPc`: the calls in the body of the message loop.  Three attempts to project are one call,
  which raises when the third has failed.
* `Pipeline`: the partitions, the offsets, the processed keys, the cache, the tables, the queue.
  `transactions` is the history of the committed projections.
* `Pipeline.step`: the consumer takes the next record of a partition, its call completes or raises,
  possibly after its effect, it crashes and restarts at the committed offsets, a processed key
  expires, or the Lambda handles a message.
-/

namespace OrderCqrs

open Runs

/-! ### Records and messages -/

/-- A record of the topic: an event, with the `retry_count` that the Lambda has added to it. -/
structure Delivery where
  event : Event
  retryCount : Option ℕ := none
  deriving DecidableEq

/-- The events of the records of a partition. -/
def eventsOf (topic : ℕ → List Delivery) (p : ℕ) : List Event := (topic p).map (·.event)

/-- A message of the dead letter queue: body and attributes. -/
structure DlqMessage where
  event : Delivery
  error : String
  retryCount : ℕ
  orderId : String
  eventType : String

/-- What `send_to_dlq` sends for an event. -/
def dlqMessage (d : Delivery) (error : String) : DlqMessage where
  event := d
  error := error
  retryCount := d.retryCount.getD 0
  orderId := d.event.aggregateId
  eventType := d.event.eventType.value

/-- An object of the dead letter storage. -/
structure DeadLetter where
  key : String
  event : Delivery
  error : String
  retryCount : ℕ

/-- The key under which the Lambda stores an event. -/
def deadLetterKey (e : Event) : String := s!"dead-letters/{e.aggregateId}/{e.eventId}.json"

/-- `MAX_RETRIES`. -/
def maxRetries : ℕ := 3

/-- What the Lambda hands a message on as. -/
inductive Handover where
  | publish (d : Delivery)
  | deadLetter (letter : DeadLetter)

/-- One turn of the loop of `handler`, up to the call that hands the event on. -/
def retryMessage (m : DlqMessage) : Handover :=
  if m.retryCount ≥ maxRetries then
    .deadLetter
      { key := deadLetterKey m.event.event
        event := m.event
        error := m.error
        retryCount := m.retryCount }
  else
    .publish { m.event with retryCount := some (m.retryCount + 1) }

/-- What the Lambda hands on is the event of the message. -/
lemma retryMessage_cases (m : DlqMessage) :
    (∃ d, retryMessage m = .publish d ∧ d.event = m.event.event) ∨
      ∃ letter, retryMessage m = .deadLetter letter ∧ letter.event = m.event := by
  rw [retryMessage]
  split_ifs
  · exact .inr ⟨_, rfl, rfl⟩
  · exact .inl ⟨_, rfl, rfl⟩

/-! ### The consumer -/

/-- The call the consumer awaits while it handles a record. -/
inductive ConsumerPc where
  | redisExists
  | commitSkipped
  | project
  | invalidateCache
  | setProcessed
  | setExpiry
  | commit
  | sendToDlq (error : String)
  | commitFailed
  deriving DecidableEq

/-- The record in the consumer's hands. -/
structure InFlight where
  partition : ℕ
  delivery : Delivery
  pc : ConsumerPc
  deriving DecidableEq

/-- The event the consumer handles. -/
abbrev InFlight.event (c : InFlight) : Event := c.delivery.event

/-- Where the loop begins with an event: an event without an id is not looked up. -/
def Event.firstCall (e : Event) : ConsumerPc := if e.eventId ≠ "" then .redisExists else .project

/-- Where the loop goes when the event is marked as processed. -/
def Event.afterProcessed (e : Event) : ConsumerPc :=
  if e.eventType = .orderDelivered ∨ e.eventType = .orderCancelled then .setExpiry else .commit

/-- Where the loop goes when the cache is invalidated: an event without an id is not marked. -/
def Event.afterInvalidate (e : Event) : ConsumerPc :=
  if e.eventId ≠ "" then .setProcessed else e.afterProcessed

/-- Topic, consumer, stores and queue.  `expiring` are the orders whose events are to expire. -/
structure Pipeline where
  partitions : ℕ
  topic : ℕ → List Delivery
  committed : ℕ → ℕ
  position : ℕ → ℕ
  current : Option InFlight
  processed : List String
  cache : List String
  expiring : List String
  dlq : List DlqMessage
  deadLetters : List DeadLetter
  readModel : ReadModel
  transactions : List Event

namespace Pipeline

/-- A consumer group that has committed nothing yet. -/
def init (partitions : ℕ) (topic : ℕ → List Delivery) (rm : ReadModel) : Pipeline where
  partitions := partitions
  topic := topic
  committed := fun _ => 0
  position := fun _ => 0
  current := none
  processed := []
  cache := []
  expiring := []
  dlq := []
  deadLetters := []
  readModel := rm
  transactions := []

/-- The consumer goes on to another call for its record. -/
def goto (s : Pipeline) (c : InFlight) (pc : ConsumerPc) : Pipeline :=
  { s with current := some { c with pc } }

/-- `consumer.commit()`: the positions of all partitions; the loop takes the next record. -/
def commit (s : Pipeline) : Pipeline := { s with committed := s.position, current := none }

/-- An exception that leaves the loop, or a crash: the consumer starts again at the committed
offsets. -/
def restart (s : Pipeline) : Pipeline := { s with position := s.committed, current := none }

/-- The awaited call completes. -/
def complete [Btree] (s : Pipeline) (c : InFlight) : Option Pipeline :=
  match c.pc with
  | .redisExists =>
      some (s.goto c (if c.event.eventId ∈ s.processed then .commitSkipped else .project))
  | .project => do
      let rm ← projectToPostgres s.readModel c.event
      return { s with
        readModel := rm
        transactions := s.transactions ++ [c.event] }.goto c .invalidateCache
  | .invalidateCache =>
      some ({ s with
        cache := s.cache.filter (· ≠ s!"order:{c.event.aggregateId}") }.goto c
          c.event.afterInvalidate)
  | .setProcessed =>
      some ({ s with processed := c.event.eventId :: s.processed }.goto c c.event.afterProcessed)
  | .setExpiry =>
      some ({ s with expiring := c.event.aggregateId :: s.expiring }.goto c .commit)
  | .sendToDlq error =>
      some ({ s with dlq := s.dlq ++ [dlqMessage c.delivery error] }.goto c .commitFailed)
  | .commitSkipped | .commit | .commitFailed => some s.commit

/-- The awaited call raises: inside the `try` block the event goes to the queue, whose own errors
are swallowed; outside of it the exception leaves the loop. -/
def raise (s : Pipeline) (c : InFlight) (error : String) : Pipeline :=
  match c.pc with
  | .project | .invalidateCache | .setProcessed | .setExpiry | .commit => s.goto c (.sendToDlq error)
  | .sendToDlq _ => s.goto c .commitFailed
  | .redisExists | .commitSkipped | .commitFailed => s.restart

/-! ### The transition system -/

/-- The Lambda hands a message on, to partition `p` if it publishes it. -/
def handOver (s : Pipeline) (p : ℕ) (m : DlqMessage) : Pipeline :=
  match retryMessage m with
  | .publish d => { s with topic := Function.update s.topic p (s.topic p ++ [d]) }
  | .deadLetter letter => { s with deadLetters := s.deadLetters ++ [letter] }

end Pipeline

/-- How the Lambda gets on with a message. -/
inductive RetryOutcome where
  | deleted
  | notHandedOver
  | notDeleted
  deriving DecidableEq

/-- The moves of the pipeline. -/
inductive PipelineAction where
  | poll (p : ℕ)
  | complete
  | raise (afterEffect : Bool) (error : String)
  | crash
  | expire (eventId : String)
  | retry (i : ℕ) (p : ℕ) (outcome : RetryOutcome)

/-- One move of the pipeline. -/
def Pipeline.step [Btree] (s : Pipeline) : PipelineAction → Option Pipeline
  | .poll p => do
      guard (p < s.partitions ∧ s.current = none)
      let d ← (s.topic p)[s.position p]?
      return { s with
        position := Function.update s.position p (s.position p + 1)
        current := some ⟨p, d, d.event.firstCall⟩ }
  | .complete => do
      let c ← s.current
      s.complete c
  | .raise afterEffect error => do
      let c ← s.current
      if afterEffect then
        let t ← s.complete c
        return t.raise c error
      else
        return s.raise c error
  | .crash => some s.restart
  | .expire eventId => some { s with processed := s.processed.filter (· ≠ eventId) }
  | .retry i p outcome => do
      guard (p < s.partitions)
      let m ← s.dlq[i]?
      match outcome with
      | .deleted => return { s.handOver p m with dlq := s.dlq.eraseIdx i }
      | .notHandedOver => return s
      | .notDeleted => return s.handOver p m

/-! ### What a move does -/

namespace Pipeline

variable {s t : Pipeline} {p i : ℕ} {e : String} {c : InFlight} {outcome : RetryOutcome}

lemma poll_cases [Btree] (h : s.step (.poll p) = some t) :
    p < s.partitions ∧ s.current = none ∧ ∃ d, (s.topic p)[s.position p]? = some d ∧
      t = { s with
        position := Function.update s.position p (s.position p + 1)
        current := some ⟨p, d, d.event.firstCall⟩ } := by
  simp only [step, Option.bind_eq_bind, Option.bind_eq_some_iff, Option.guard_eq_some'] at h
  obtain ⟨_, ⟨hp, hnone⟩, d, hd, h⟩ := h
  exact ⟨hp, hnone, d, hd, (Option.some.inj h).symm⟩

lemma complete_cases [Btree] (h : s.step .complete = some t) :
    ∃ c, s.current = some c ∧ s.complete c = some t :=
  Option.bind_eq_some_iff.mp h

/-- A call that raises without its effect. -/
lemma raise_cases [Btree] (h : s.step (.raise false e) = some t) :
    ∃ c, s.current = some c ∧ t = s.raise c e := by
  obtain ⟨c, hc, h⟩ := Option.bind_eq_some_iff.mp h
  exact ⟨c, hc, (Option.some.inj h).symm⟩

/-- A call that raises after its effect. -/
lemma raise_after_cases [Btree] (h : s.step (.raise true e) = some t) :
    ∃ c u, s.current = some c ∧ s.complete c = some u ∧ t = u.raise c e := by
  obtain ⟨c, hc, h⟩ := Option.bind_eq_some_iff.mp h
  obtain ⟨u, hu, h⟩ := Option.bind_eq_some_iff.mp h
  exact ⟨c, u, hc, hu, (Option.some.inj h).symm⟩

/-- A message the Lambda hands on and deletes. -/
lemma retry_cases [Btree] (h : s.step (.retry i p .deleted) = some t) :
    p < s.partitions ∧ ∃ m, s.dlq[i]? = some m ∧
      t = { s.handOver p m with dlq := s.dlq.eraseIdx i } := by
  simp only [step, Option.bind_eq_bind, Option.bind_eq_some_iff, Option.guard_eq_some'] at h
  obtain ⟨_, hp, m, hm, h⟩ := h
  exact ⟨hp, m, hm, (Option.some.inj h).symm⟩

/-- A projection that completes. -/
lemma complete_project [Btree] (hpc : c.pc = .project) (h : s.complete c = some t) :
    ∃ rm, projectToPostgres s.readModel c.event = some rm ∧
      t = { s with
        readModel := rm
        transactions := s.transactions ++ [c.event] }.goto c .invalidateCache := by
  rw [complete, hpc] at h
  obtain ⟨rm, hrm, h⟩ := Option.bind_eq_some_iff.mp h
  exact ⟨rm, hrm, (Option.some.inj h).symm⟩

/-- **Only a projection changes the tables and the history.** -/
lemma complete_of_ne_project [Btree] (hpc : c.pc ≠ .project) (h : s.complete c = some t) :
    t.readModel = s.readModel ∧ t.transactions = s.transactions := by
  obtain ⟨p, d, pc⟩ := c
  cases pc with
  | project => exact (hpc rfl).elim
  | redisExists | commitSkipped | invalidateCache | setProcessed | setExpiry | commit
  | sendToDlq _ | commitFailed =>
      obtain rfl := Option.some.inj h
      exact ⟨rfl, rfl⟩

@[simp] lemma raise_readModel : (s.raise c e).readModel = s.readModel := by
  unfold raise
  split <;> rfl

@[simp] lemma raise_transactions : (s.raise c e).transactions = s.transactions := by
  unfold raise
  split <;> rfl

@[simp] lemma handOver_readModel {m : DlqMessage} : (s.handOver p m).readModel = s.readModel := by
  unfold handOver
  split <;> rfl

@[simp] lemma handOver_transactions {m : DlqMessage} :
    (s.handOver p m).transactions = s.transactions := by
  unfold handOver
  split <;> rfl

/-- The tables are those the history leads to. -/
def Projected [Btree] (rm₀ : ReadModel) (s : Pipeline) : Prop :=
  run projectToPostgres rm₀ s.transactions = some s.readModel

lemma projected_init [Btree] {topic : ℕ → List Delivery} {rm₀ : ReadModel} :
    (init p topic rm₀).Projected rm₀ := rfl

lemma projected_of_eq [Btree] {rm₀ : ReadModel} (hs : s.Projected rm₀)
    (hrm : t.readModel = s.readModel)
    (htx : t.transactions = s.transactions) : t.Projected rm₀ := by
  rw [Projected, hrm, htx]
  exact hs

lemma projected_complete [Btree] {rm₀ : ReadModel} (hs : s.Projected rm₀)
    (h : s.complete c = some t) :
    t.Projected rm₀ := by
  by_cases hpc : c.pc = .project
  · obtain ⟨rm, hrm, rfl⟩ := complete_project hpc h
    show run projectToPostgres rm₀ (s.transactions ++ [c.event]) = some rm
    rw [run_concat, hs, Option.bind_some, hrm]
  · obtain ⟨hrm, htx⟩ := complete_of_ne_project hpc h
    exact projected_of_eq hs hrm htx

/-- **The tables are the projections of the history**, whatever fails. -/
theorem projected_step [Btree] {a : PipelineAction} {rm₀ : ReadModel} (hs : s.Projected rm₀)
    (h : s.step a = some t) : t.Projected rm₀ := by
  cases a with
  | poll p =>
      obtain ⟨_, _, d, _, rfl⟩ := poll_cases h
      exact hs
  | complete =>
      obtain ⟨c, _, hcomp⟩ := complete_cases h
      exact projected_complete hs hcomp
  | raise afterEffect e =>
      cases afterEffect with
      | true =>
          obtain ⟨c, u, _, hu, rfl⟩ := raise_after_cases h
          exact projected_of_eq (projected_complete hs hu) raise_readModel raise_transactions
      | false =>
          obtain ⟨c, _, rfl⟩ := raise_cases h
          exact projected_of_eq hs raise_readModel raise_transactions
  | crash | expire _ =>
      obtain rfl := Option.some.inj h
      exact hs
  | retry i p outcome =>
      simp only [step, Option.bind_eq_bind, Option.bind_eq_some_iff] at h
      obtain ⟨_, _, m, _, h⟩ := h
      cases outcome with
      | deleted | notDeleted =>
          obtain rfl := Option.some.inj h
          exact projected_of_eq hs handOver_readModel handOver_transactions
      | notHandedOver =>
          obtain rfl := Option.some.inj h
          exact hs

end Pipeline

end OrderCqrs
