import OrderCqrs.Command.Handlers
import OrderCqrs.Logic.Markers

/-!
The publisher by itself (`KafkaEventPublisher.publish` in `api/services/publisher.py`): calls of
`publish` under any failures of the services they use.

* `AttemptOutcome`: how the three calls in the body end; `Publisher.attempt` runs the body once,
  `Publisher.publish` up to three times, as its decorator does.
* `attempt_awaits`: **the body is the one the command handlers go through**, call by call.
* `Publisher.ledger`: the records of an event in the topic, and whether its key is set;
  `ledger_publishAll`: series of calls act on it as attempts that mark what they have sent.
* `PublishedOnce`: at most one record of an event, and one if a call for it has returned.
* `published_once_iff`: **when an event is published once**: precisely if the first send that goes
  through is marked, or no other send goes through.
* `published_twice`: a send whose mark fails, and the retry that sends again.
-/

namespace OrderCqrs

open Runs Markers

/-! ### One attempt -/

/-- How the calls of one attempt end: whether `redis.exists` raises, whether `send_and_wait` raises,
which then has written nothing, and how `redis.setex` ends. -/
structure AttemptOutcome where
  existsRaises : Bool
  sendRaises : Bool
  setex : Outcome
  deriving DecidableEq

namespace AttemptOutcome

/-- The attempt sends, if it does not find the key. -/
def Sends (o : AttemptOutcome) : Prop := o.existsRaises = false ∧ o.sendRaises = false

/-- The attempt sets the key, if it has sent. -/
def Marks (o : AttemptOutcome) : Prop := o.setex ≠ .raises

instance : DecidablePred Sends := fun _ => inferInstanceAs (Decidable (_ ∧ _))

instance : DecidablePred Marks := fun _ => inferInstanceAs (Decidable (_ ≠ _))

end AttemptOutcome

/-- What the publisher writes to: the topic, and the `published:` keys of Redis. -/
structure Publisher where
  topic : List Record
  published : List String

namespace Publisher

/-- The body of `publish`, and whether it returns. -/
def attempt (p : Publisher) (e : Event) (o : AttemptOutcome) : Publisher × Bool :=
  if o.existsRaises then (p, false)
  else if e.eventId ∈ p.published then (p, true)
  else if o.sendRaises then (p, false)
  else
    let sent : Publisher := { p with topic := p.topic ++ [recordOf e] }
    let marked : Publisher := { sent with published := e.eventId :: sent.published }
    match o.setex with
    | .completes => (marked, true)
    | .raises => (sent, false)
    | .raisesAfterEffect => (marked, false)

/-- The attempts of a call, one after the other until one returns; `RetryError` after the last. -/
def retrying (p : Publisher) (e : Event) : List AttemptOutcome → Publisher × Bool
  | [] => (p, false)
  | o :: os =>
      match p.attempt e o with
      | (p, true) => (p, true)
      | (p, false) => p.retrying e os

end Publisher

/-- A call of `publish`: its event, and how each of the three attempts would end. -/
structure PublishAttempts where
  event : Event
  first : AttemptOutcome
  second : AttemptOutcome
  third : AttemptOutcome

/-- The attempts of a call. -/
def PublishAttempts.outcomes (c : PublishAttempts) : List AttemptOutcome :=
  [c.first, c.second, c.third]

/-- `KafkaEventPublisher.publish`. -/
def Publisher.publish (p : Publisher) (c : PublishAttempts) : Publisher × Bool :=
  p.retrying c.event c.outcomes

/-- Calls of `publish`, one after the other. -/
def Publisher.publishAll (p : Publisher) (calls : List PublishAttempts) : Publisher :=
  calls.foldl (fun p c => (p.publish c).1) p

/-! ### The command handlers -/

/-- How the calls of an attempt end that are made, given whether the key is set. -/
def AttemptOutcome.awaits (o : AttemptOutcome) (marked : Bool) : List Outcome :=
  if o.existsRaises then [.raises]
  else if marked then [.completes]
  else if o.sendRaises then [.completes, .raises]
  else [.completes, .completes, o.setex]

/-- The awaited calls of one handler, the others standing still. -/
def Handler.awaiting (d : Draw) (x : Shared × Handler) (oc : Outcome) : Option (Shared × Handler) :=
  (x.2.await x.1 d oc).map fun (sh, pc) => (sh, { x.2 with pc })

/-- What the publisher writes to, among the shared stores. -/
def Shared.publisher (sh : Shared) : Publisher := ⟨sh.topic, sh.published⟩

/-- **A handler in `publish` goes through the body of an attempt**: its calls leave the topic and
the keys as the attempt does, and it goes on as the attempt ended. -/
theorem attempt_awaits (sh : Shared) (d : Draw) (h : Handler) (b : Built) (n : ℕ)
    (o : AttemptOutcome) (hpc : h.pc = .publish b n .redisExists) :
    ∃ sh' pc, run (Handler.awaiting d) (sh, h)
        (o.awaits (decide (b.event.eventId ∈ sh.published))) = some (sh', { h with pc }) ∧
      sh'.publisher = (sh.publisher.attempt b.event o).1 ∧
      pc = if (sh.publisher.attempt b.event o).2 then h.command.published b
        else if n < 3 then .publish b (n + 1) .redisExists
        else .failed (some b) .retryError := by
  obtain ⟨existsRaises, sendRaises, setex⟩ := o
  by_cases hmem : b.event.eventId ∈ sh.published
  · cases existsRaises <;>
      simp [AttemptOutcome.awaits, Handler.awaiting, Handler.await, Handler.interrupt,
        Handler.complete, Publisher.attempt, Shared.publisher, hpc, hmem]
  · cases existsRaises <;> cases sendRaises <;> cases setex <;>
      simp [AttemptOutcome.awaits, Handler.awaiting, Handler.await, Handler.interrupt,
        Handler.complete, Publisher.attempt, Shared.publisher, hpc, hmem]

/-! ### The records of one event -/

open AttemptOutcome (Sends Marks)

/-- The records of an event in the topic. -/
def Publisher.records (p : Publisher) (id : String) : List Record :=
  p.topic.filter fun r => r.value.eventId = id

/-- How often an event was sent, and whether its key is set. -/
def Publisher.ledger (p : Publisher) (id : String) : Ledger :=
  ⟨(p.records id).length, decide (id ∈ p.published)⟩

/-- The attempts of the calls for an event, those that a returning attempt makes needless
included. -/
def attemptsFor (id : String) (calls : List PublishAttempts) : List AttemptOutcome :=
  (calls.filter fun c => c.event.eventId = id).flatMap PublishAttempts.outcomes

section Ledger

variable {p : Publisher} {e : Event} {id : String} {o : AttemptOutcome} {os : List AttemptOutcome}
  {c : PublishAttempts} {calls : List PublishAttempts}

/-- **An attempt to publish is an attempt under a mark**; when it returns, the mark is set. -/
lemma ledger_attempt (p : Publisher) (e : Event) (o : AttemptOutcome) :
    (p.attempt e o).1.ledger e.eventId = (p.ledger e.eventId).attempt Sends Marks o ∧
      ((p.attempt e o).2 = true → ((p.attempt e o).1.ledger e.eventId).marked = true) := by
  obtain ⟨existsRaises, sendRaises, setex⟩ := o
  by_cases hmem : e.eventId ∈ p.published
  · cases existsRaises <;> simp [Publisher.attempt, Publisher.ledger, Ledger.attempt, hmem]
  · cases existsRaises <;> cases sendRaises <;> cases setex <;>
      simp [Publisher.attempt, Publisher.ledger, Publisher.records, Ledger.attempt, recordOf,
        Sends, Marks, List.filter_append, hmem]

/-- An attempt leaves the other events alone. -/
lemma ledger_attempt_of_ne (hid : id ≠ e.eventId) :
    (p.attempt e o).1.ledger id = p.ledger id := by
  have hrecord : decide ((recordOf e).value.eventId = id) = false :=
    decide_eq_false fun heq => hid heq.symm
  rw [Publisher.attempt]
  split_ifs
  · rfl
  · rfl
  · rfl
  · cases o.setex <;> simp [Publisher.ledger, Publisher.records, List.filter_append, hrecord, hid]

/-- The attempts of a call act on the ledger of its event one after the other: those after the one
that returns find the mark. -/
lemma ledger_retrying (p : Publisher) (e : Event) (os : List AttemptOutcome) :
    (p.retrying e os).1.ledger e.eventId =
        os.foldl (Ledger.attempt Sends Marks) (p.ledger e.eventId) ∧
      ((p.retrying e os).2 = true → ((p.retrying e os).1.ledger e.eventId).marked = true) := by
  induction os generalizing p with
  | nil => exact ⟨rfl, by simp [Publisher.retrying]⟩
  | cons o os ih =>
      obtain ⟨hledger, hmarked⟩ := ledger_attempt p e o
      rw [Publisher.retrying, List.foldl_cons, ← hledger]
      match hattempt : p.attempt e o with
      | (p', true) =>
          rw [hattempt] at hmarked
          have hset := hmarked rfl
          exact ⟨(foldl_of_marked hset).symm, fun _ => hset⟩
      | (p', false) => exact ih p'

lemma ledger_retrying_of_ne (hid : id ≠ e.eventId) :
    (p.retrying e os).1.ledger id = p.ledger id := by
  induction os generalizing p with
  | nil => rfl
  | cons o os ih =>
      have hone : (p.attempt e o).1.ledger id = p.ledger id := ledger_attempt_of_ne hid
      rw [Publisher.retrying]
      match hattempt : p.attempt e o with
      | (p', true) =>
          rw [hattempt] at hone
          exact hone
      | (p', false) =>
          rw [hattempt] at hone
          exact ih.trans hone

/-- **A series of calls acts on the ledger of an event by the attempts made for it.** -/
theorem ledger_publishAll (p : Publisher) (id : String) (calls : List PublishAttempts) :
    (p.publishAll calls).ledger id =
      (attemptsFor id calls).foldl (Ledger.attempt Sends Marks) (p.ledger id) := by
  induction calls generalizing p with
  | nil => rfl
  | cons c calls ih =>
      have hrest := ih (p.publish c).1
      by_cases hid : c.event.eventId = id
      · have hhead : attemptsFor id (c :: calls) = c.outcomes ++ attemptsFor id calls := by
          simp [attemptsFor, hid]
        subst hid
        rw [hhead, List.foldl_append, ← (ledger_retrying p c.event c.outcomes).1]
        exact hrest
      · have hhead : attemptsFor id (c :: calls) = attemptsFor id calls := by
          simp [attemptsFor, hid]
        rw [Publisher.publish, ledger_retrying_of_ne (Ne.symm hid)] at hrest
        rw [hhead]
        exact hrest

end Ledger

/-! ### Publishing once -/

/-- A call for the event has returned. -/
def ReturnedFor (p : Publisher) (calls : List PublishAttempts) (id : String) : Prop :=
  ∃ pre c post, calls = pre ++ c :: post ∧ c.event.eventId = id ∧
    ((p.publishAll pre).publish c).2 = true

/-- **The event is published once**: the topic has at most one record of it, and exactly one if a
call has returned. -/
def PublishedOnce (p : Publisher) (calls : List PublishAttempts) (id : String) : Prop :=
  ((p.publishAll calls).records id).length ≤ 1 ∧
    (ReturnedFor p calls id → ((p.publishAll calls).records id).length = 1)

section Once

variable {p : Publisher} {calls : List PublishAttempts} {id : String}

/-- After a call that has returned the key is set, and stays set. -/
lemma marked_of_returned (h : ReturnedFor p calls id) :
    ((p.publishAll calls).ledger id).marked = true := by
  obtain ⟨pre, c, post, rfl, rfl, hreturn⟩ := h
  have hset := (ledger_retrying (p.publishAll pre) c.event c.outcomes).2 hreturn
  have hall : p.publishAll (pre ++ c :: post) =
      ((p.publishAll pre).publish c).1.publishAll post := by
    rw [Publisher.publishAll, List.foldl_append]
    rfl
  rw [hall, ledger_publishAll]
  exact (congrArg Ledger.marked (foldl_of_marked hset)).trans hset

/-- **When an event is published once**: for an event that was not published before, precisely if
the first of its attempts that gets through `redis.exists` and `send_and_wait` sets the key, or no
later one gets through both. -/
theorem published_once_iff (hrecords : p.records id = []) (hkey : id ∉ p.published) :
    PublishedOnce p calls id ↔ FirstSticks Sends Marks (attemptsFor id calls) := by
  have hstart : (p.ledger id).marked = false := by
    rw [Publisher.ledger]
    exact decide_eq_false hkey
  have hzero : (p.ledger id).count = 0 := by
    rw [Publisher.ledger, hrecords]
    rfl
  have hcount : _ ↔ FirstSticks Sends Marks (attemptsFor id calls) := count_le_succ_iff hstart
  rw [← ledger_publishAll, hzero] at hcount
  rw [← hcount]
  refine ⟨fun honce => honce.1, fun hle => ⟨hle, fun hreturn => ?_⟩⟩
  -- a returned call has found or set the key, and the key is only set after a send
  have hmarked := marked_of_returned hreturn
  rw [ledger_publishAll] at hmarked
  have hpos := count_pos_of_marked (fun hone => absurd hone (by simp [hstart])) hmarked
  rw [← ledger_publishAll] at hpos
  exact Nat.le_antisymm hle hpos

end Once

/-- An attempt whose calls all return. -/
def smooth : AttemptOutcome := ⟨false, false, .completes⟩

/-- An attempt whose `send_and_wait` raises. -/
def refused : AttemptOutcome := ⟨false, true, .completes⟩

/-- An attempt whose `redis.setex` raises, after its effect. -/
def late : AttemptOutcome := ⟨false, false, .raisesAfterEffect⟩

/-- An attempt whose `redis.setex` raises. -/
def unmarked : AttemptOutcome := ⟨false, false, .raises⟩

/-- The event of the calls below. -/
def publishedEvent : Event := orderCreatedEvent (.nth 0) "order-0" "cust-1" "a@test.com"

theorem retried_published_iff :
    PublishedOnce ⟨[], []⟩ [⟨publishedEvent, refused, late, smooth⟩,
        ⟨publishedEvent, unmarked, smooth, smooth⟩] "event-0" ↔
      FirstSticks Sends Marks [refused, late, smooth, unmarked, smooth, smooth] :=
  published_once_iff rfl (by simp)

/-- **An event published twice in one call**: the mark of the first attempt fails, the second
attempt finds no key and sends again, and the call returns. -/
theorem published_twice :
    (Publisher.publishAll ⟨[], []⟩ [⟨publishedEvent, unmarked, smooth, smooth⟩]).topic.map
        (·.value) = [publishedEvent, publishedEvent] ∧
      (Publisher.publish ⟨[], []⟩ ⟨publishedEvent, unmarked, smooth, smooth⟩).2 = true ∧
      ¬ PublishedOnce ⟨[], []⟩ [⟨publishedEvent, unmarked, smooth, smooth⟩] "event-0" := by
  refine ⟨by decide +kernel, by decide +kernel, fun honce => ?_⟩
  exact absurd honce.1 (by decide +kernel)

end OrderCqrs
