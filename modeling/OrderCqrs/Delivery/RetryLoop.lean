import OrderCqrs.Command.Handlers
import OrderCqrs.Delivery.Consumer
import OrderCqrs.Logic.Partitions

/-!
The loop of topic, consumer, dead letter queue and Lambda, with the Lambda call by call
(`lambda_handlers/retry_handler.py`) and the publisher at its entry.

* `Invocation`: a message in the hands of the Lambda, which hands it on and then deletes it.  Any
  number of invocations may hold the same message.
* `RetryLoop`: the pipeline and the invocations.  Its queue only grows: the place of a message in it
  is the id of the message, and `deleted` are the ids of those the Lambda has deleted.
* `RetryLoop.step`: the publisher sends an event, the consumer moves, the Lambda receives a message,
  hands it on, deletes it or is stopped; each of its calls may raise, also after its effect.
* `RetryLoop.produce_cases` and its neighbours: what each move does.
* `Pipeline.consume_cases`, `Pipeline.holds_consume`: what a move of the consumer does to topic,
  queue and dead letters, and to the record in its hands.
-/

namespace OrderCqrs

open Runs Partitions

/-! ### The transition system -/

/-- The call of the Lambda for a message. -/
inductive LambdaPc where
  | handOver
  | delete
  deriving DecidableEq

/-- A message in the hands of the Lambda, by its id. -/
structure Invocation where
  message : ℕ
  pc : LambdaPc
  deriving DecidableEq

/-- The pipeline with the invocations of the Lambda. -/
structure RetryLoop where
  pipeline : Pipeline
  deleted : List ℕ
  invocations : List Invocation

/-- Nothing sent, nothing received. -/
def RetryLoop.init (partitions : ℕ) (rm : ReadModel) : RetryLoop where
  pipeline := .init partitions (fun _ => []) rm
  deleted := []
  invocations := []

/-- The moves of the consumer. -/
def PipelineAction.Consumes : PipelineAction → Prop
  | .retry _ _ _ => False
  | _ => True

instance : (a : PipelineAction) → Decidable a.Consumes
  | .retry _ _ _ => .isFalse id
  | .poll _ | .complete | .raise _ _ | .crash | .expire _ => .isTrue trivial

/-- The moves of the loop. -/
inductive LoopAction where
  | produce (p : ℕ) (e : Event)
  | consume (a : PipelineAction)
  | receive (i : ℕ)
  | handOver (j p : ℕ) (outcome : Outcome)
  | delete (j : ℕ) (outcome : Outcome)
  | stop (j : ℕ)

/-- The publisher sends an event; its records carry no `retry_count`. -/
def Pipeline.produce (s : Pipeline) (p : ℕ) (e : Event) : Pipeline :=
  { s with topic := Function.update s.topic p (s.topic p ++ [{ event := e }]) }

/-- One move of the loop.  An invocation whose call raises is over for its message. -/
def RetryLoop.step [Btree] (s : RetryLoop) : LoopAction → Option RetryLoop
  | .produce p e => do
      guard (p < s.pipeline.partitions)
      return { s with pipeline := s.pipeline.produce p e }
  | .consume a => do
      guard a.Consumes
      let pipeline ← s.pipeline.step a
      return { s with pipeline }
  | .receive i => do
      guard (i < s.pipeline.dlq.length ∧ i ∉ s.deleted)
      return { s with invocations := s.invocations ++ [⟨i, .handOver⟩] }
  | .handOver j p outcome => do
      guard (p < s.pipeline.partitions)
      let v ← s.invocations[j]?
      guard (v.pc = .handOver)
      let m ← s.pipeline.dlq[v.message]?
      match outcome with
      | .completes =>
          return { s with
            pipeline := s.pipeline.handOver p m
            invocations := s.invocations.set j { v with pc := .delete } }
      | .raises => return { s with invocations := s.invocations.eraseIdx j }
      | .raisesAfterEffect =>
          return { s with
            pipeline := s.pipeline.handOver p m
            invocations := s.invocations.eraseIdx j }
  | .delete j outcome => do
      let v ← s.invocations[j]?
      guard (v.pc = .delete)
      return { s with
        deleted := if outcome = .raises then s.deleted else v.message :: s.deleted
        invocations := s.invocations.eraseIdx j }
  | .stop j => do
      guard (j < s.invocations.length)
      return { s with invocations := s.invocations.eraseIdx j }

/-! ### What a move does -/

namespace RetryLoop

variable {s t : RetryLoop} {i j p : ℕ} {e : Event} {outcome : Outcome}

lemma produce_cases [Btree] (h : s.step (.produce p e) = some t) :
    p < s.pipeline.partitions ∧ t = { s with pipeline := s.pipeline.produce p e } := by
  simp only [step, Option.bind_eq_bind, Option.bind_eq_some_iff, Option.guard_eq_some'] at h
  obtain ⟨_, hp, h⟩ := h
  exact ⟨hp, (Option.some.inj h).symm⟩

lemma consume_cases [Btree] {a : PipelineAction} (h : s.step (.consume a) = some t) :
    a.Consumes ∧ s.pipeline.step a = some t.pipeline ∧ t.deleted = s.deleted ∧
      t.invocations = s.invocations := by
  simp only [step, Option.bind_eq_bind, Option.bind_eq_some_iff, Option.guard_eq_some'] at h
  obtain ⟨_, ha, u, hu, h⟩ := h
  obtain rfl := Option.some.inj h
  exact ⟨ha, hu, rfl, rfl⟩

lemma receive_cases [Btree] (h : s.step (.receive i) = some t) :
    (i < s.pipeline.dlq.length ∧ i ∉ s.deleted) ∧
      t = { s with invocations := s.invocations ++ [⟨i, .handOver⟩] } := by
  simp only [step, Option.bind_eq_bind, Option.bind_eq_some_iff, Option.guard_eq_some'] at h
  obtain ⟨_, hi, h⟩ := h
  exact ⟨hi, (Option.some.inj h).symm⟩

/-- The handover of a message takes effect, in which case the invocation may go on to delete it, or
raises without effect. -/
lemma handOver_cases [Btree] (h : s.step (.handOver j p outcome) = some t) :
    p < s.pipeline.partitions ∧ ∃ v m, s.invocations[j]? = some v ∧ v.pc = .handOver ∧
      s.pipeline.dlq[v.message]? = some m ∧ t.deleted = s.deleted ∧
        (outcome = .completes ∧ t.pipeline = s.pipeline.handOver p m ∧
            t.invocations = s.invocations.set j { v with pc := .delete } ∨
          outcome = .raises ∧ t.pipeline = s.pipeline ∧
            t.invocations = s.invocations.eraseIdx j ∨
          outcome = .raisesAfterEffect ∧ t.pipeline = s.pipeline.handOver p m ∧
            t.invocations = s.invocations.eraseIdx j) := by
  simp only [step, Option.bind_eq_bind, Option.bind_eq_some_iff, Option.guard_eq_some'] at h
  obtain ⟨_, hp, v, hv, _, hpc, m, hm, h⟩ := h
  refine ⟨hp, v, m, hv, hpc, hm, ?_⟩
  cases outcome with
  | completes =>
      obtain rfl := Option.some.inj h
      exact ⟨rfl, Or.inl ⟨rfl, rfl, rfl⟩⟩
  | raises =>
      obtain rfl := Option.some.inj h
      exact ⟨rfl, Or.inr (Or.inl ⟨rfl, rfl, rfl⟩)⟩
  | raisesAfterEffect =>
      obtain rfl := Option.some.inj h
      exact ⟨rfl, Or.inr (Or.inr ⟨rfl, rfl, rfl⟩)⟩

lemma delete_cases [Btree] (h : s.step (.delete j outcome) = some t) :
    ∃ v, s.invocations[j]? = some v ∧ v.pc = .delete ∧
      t = { s with
        deleted := if outcome = .raises then s.deleted else v.message :: s.deleted
        invocations := s.invocations.eraseIdx j } := by
  simp only [step, Option.bind_eq_bind, Option.bind_eq_some_iff, Option.guard_eq_some'] at h
  obtain ⟨v, hv, _, hpc, h⟩ := h
  exact ⟨v, hv, hpc, (Option.some.inj h).symm⟩

lemma stop_cases [Btree] (h : s.step (.stop j) = some t) :
    t = { s with invocations := s.invocations.eraseIdx j } := by
  simp only [step, Option.bind_eq_bind, Option.bind_eq_some_iff, Option.guard_eq_some'] at h
  obtain ⟨_, _, h⟩ := h
  exact (Option.some.inj h).symm

end RetryLoop

/-- What a handover does: the message is published again with the next count, or its dead letter is
stored. -/
lemma Pipeline.handOver_cases (s : Pipeline) (p : ℕ) (m : DlqMessage) :
    (m.retryCount < maxRetries ∧ ∃ d, d.event = m.event.event ∧
      d.retryCount = some (m.retryCount + 1) ∧
      s.handOver p m = { s with topic := Function.update s.topic p (s.topic p ++ [d]) }) ∨
    (maxRetries ≤ m.retryCount ∧ ∃ letter, letter.event = m.event ∧
      s.handOver p m = { s with deadLetters := s.deadLetters ++ [letter] }) := by
  unfold handOver retryMessage
  split_ifs with hmax
  · exact Or.inr ⟨hmax, _, rfl, rfl⟩
  · exact Or.inl ⟨by omega, { m.event with retryCount := some (m.retryCount + 1) }, rfl, rfl, rfl⟩

/-! ### What a move of the consumer does -/

namespace Pipeline

variable {s t : Pipeline} {c : InFlight}

/-- What a move of the consumer leaves alone, what it sends to the queue, and which order it lets
expire. -/
structure Consumed (s t : Pipeline) : Prop where
  partitions : t.partitions = s.partitions
  topic : t.topic = s.topic
  deadLetters : t.deadLetters = s.deadLetters
  dlq : t.dlq = s.dlq ∨ ∃ c error, s.current = some c ∧ c.pc = .sendToDlq error ∧
    t.dlq = s.dlq ++ [dlqMessage c.delivery error]
  expiring : t.expiring = s.expiring ∨ ∃ c, s.current = some c ∧ c.pc = .setExpiry ∧
    t.expiring = c.event.aggregateId :: s.expiring

lemma complete_consumed [Btree] (hc : s.current = some c) (h : s.complete c = some t) :
    Consumed s t := by
  obtain ⟨p, d, pc⟩ := c
  cases pc with
  | project =>
      obtain ⟨rm, _, rfl⟩ := complete_project rfl h
      exact ⟨rfl, rfl, rfl, Or.inl rfl, Or.inl rfl⟩
  | sendToDlq error =>
      obtain rfl := Option.some.inj h
      exact ⟨rfl, rfl, rfl, Or.inr ⟨_, error, hc, rfl, rfl⟩, Or.inl rfl⟩
  | setExpiry =>
      obtain rfl := Option.some.inj h
      exact ⟨rfl, rfl, rfl, Or.inl rfl, Or.inr ⟨_, hc, rfl, rfl⟩⟩
  | redisExists | commitSkipped | invalidateCache | setProcessed | commit | commitFailed =>
      obtain rfl := Option.some.inj h
      exact ⟨rfl, rfl, rfl, Or.inl rfl, Or.inl rfl⟩

/-- An exception leads to the queue and past it, or out of the loop. -/
lemma raise_eq (s : Pipeline) (c : InFlight) (error : String) :
    (∃ pc, (pc = .sendToDlq error ∨ pc = .commitFailed) ∧ s.raise c error = s.goto c pc) ∨
      s.raise c error = s.restart := by
  unfold raise
  split <;> first
    | exact Or.inl ⟨_, Or.inl rfl, rfl⟩
    | exact Or.inl ⟨_, Or.inr rfl, rfl⟩
    | exact Or.inr rfl

lemma raise_consumed (h : Consumed s t) (c : InFlight) (error : String) :
    Consumed s (t.raise c error) := by
  rcases t.raise_eq c error with ⟨pc, _, heq⟩ | heq <;> rw [heq]
  · exact ⟨h.partitions, h.topic, h.deadLetters, h.dlq, h.expiring⟩
  · exact ⟨h.partitions, h.topic, h.deadLetters, h.dlq, h.expiring⟩

/-- **What a move of the consumer does to topic, queue and dead letters.** -/
theorem consume_cases [Btree] {a : PipelineAction} (ha : a.Consumes) (h : s.step a = some t) :
    Consumed s t := by
  have hrefl : Consumed s s := ⟨rfl, rfl, rfl, Or.inl rfl, Or.inl rfl⟩
  cases a with
  | poll p =>
      obtain ⟨_, _, d, _, rfl⟩ := poll_cases h
      exact ⟨rfl, rfl, rfl, Or.inl rfl, Or.inl rfl⟩
  | complete =>
      obtain ⟨c, hc, hcomp⟩ := complete_cases h
      exact complete_consumed hc hcomp
  | raise afterEffect error =>
      cases afterEffect with
      | true =>
          obtain ⟨c, u, hc, hu, rfl⟩ := raise_after_cases h
          exact raise_consumed (complete_consumed hc hu) c error
      | false =>
          obtain ⟨c, hc, rfl⟩ := raise_cases h
          exact raise_consumed hrefl c error
  | crash | expire _ =>
      obtain rfl := Option.some.inj h
      exact ⟨rfl, rfl, rfl, Or.inl rfl, Or.inl rfl⟩
  | retry i p outcome => exact ha.elim

/-- The record in the consumer's hands is the one before its position. -/
def Holds (s : Pipeline) : Prop :=
  ∀ c, s.current = some c →
    ∃ k, s.position c.partition = k + 1 ∧ (s.topic c.partition)[k]? = some c.delivery

lemma holds_goto (hs : s.Holds) (hc : s.current = some c) (hpos : t.position = s.position)
    (htopic : t.topic = s.topic) (pc : ConsumerPc) : (t.goto c pc).Holds := by
  intro c' hc'
  obtain rfl := Option.some.inj hc'
  obtain ⟨k, hk, hd⟩ := hs c hc
  exact ⟨k, by rw [← hk, ← hpos]; rfl, by rw [← hd, ← htopic]; rfl⟩

/-- A record of the topic stays where it is when another one is sent. -/
lemma holds_send (hs : s.Holds) (p : ℕ) (d : Delivery) :
    Holds { s with topic := Function.update s.topic p (s.topic p ++ [d]) } := by
  intro c hc
  obtain ⟨k, hk, hd⟩ := hs c hc
  exact ⟨k, hk, getElem?_send hd p d⟩

/-- A call that completes goes on with the same record or takes the next one. -/
lemma complete_goto [Btree] (h : s.complete c = some t) :
    t.position = s.position ∧ t.topic = s.topic ∧
      ((∃ pc, t.current = some { c with pc }) ∨ t.current = none) := by
  obtain ⟨p, d, pc⟩ := c
  cases pc with
  | project =>
      obtain ⟨rm, _, rfl⟩ := complete_project rfl h
      exact ⟨rfl, rfl, Or.inl ⟨_, rfl⟩⟩
  | commitSkipped | commit | commitFailed =>
      obtain rfl := Option.some.inj h
      exact ⟨rfl, rfl, Or.inr rfl⟩
  | redisExists | invalidateCache | setProcessed | setExpiry | sendToDlq error =>
      obtain rfl := Option.some.inj h
      exact ⟨rfl, rfl, Or.inl ⟨_, rfl⟩⟩

/-- **The consumer's moves keep the record it holds in step with its position.** -/
theorem holds_consume [Btree] {a : PipelineAction} (ha : a.Consumes) (hs : s.Holds)
    (h : s.step a = some t) : t.Holds := by
  have hraise : ∀ {u : Pipeline} {c : InFlight} {error : String}, s.current = some c →
      u.position = s.position → u.topic = s.topic → (u.raise c error).Holds := by
    intro u c error hc hpos htopic
    rcases u.raise_eq c error with ⟨pc, _, heq⟩ | heq <;> rw [heq]
    · exact holds_goto hs hc hpos htopic pc
    · intro c' hc'
      simp [restart] at hc'
  cases a with
  | poll p =>
      obtain ⟨_, _, d, hd, rfl⟩ := poll_cases h
      intro c hc
      obtain rfl := Option.some.inj hc
      exact ⟨s.position p, Function.update_self .., hd⟩
  | complete =>
      obtain ⟨c, hc, hcomp⟩ := complete_cases h
      obtain ⟨hpos, htopic, ⟨pc, hcur⟩ | hcur⟩ := complete_goto hcomp
      · intro c' hc'
        rw [hcur] at hc'
        obtain rfl := Option.some.inj hc'
        obtain ⟨k, hk, hd⟩ := hs c hc
        exact ⟨k, by rw [hpos]; exact hk, by rw [htopic]; exact hd⟩
      · intro c' hc'
        simp [hcur] at hc'
  | raise afterEffect error =>
      cases afterEffect with
      | true =>
          obtain ⟨c, u, hc, hu, rfl⟩ := raise_after_cases h
          obtain ⟨hpos, htopic, _⟩ := complete_goto hu
          exact hraise hc hpos htopic
      | false =>
          obtain ⟨c, hc, rfl⟩ := raise_cases h
          exact hraise hc rfl rfl
  | crash =>
      obtain rfl := Option.some.inj h
      intro c' hc'
      simp [restart] at hc'
  | expire eventId =>
      obtain rfl := Option.some.inj h
      exact hs
  | retry i p outcome => exact ha.elim

end Pipeline

end OrderCqrs
