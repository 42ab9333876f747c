import OrderCqrs.Command.Handlers
import OrderCqrs.Delivery.RawConsumer
import OrderCqrs.Logic.Loops

/-!
The Lambda that retries the messages of the dead letter queue
(`lambda_handlers/retry_handler.py`): one invocation of `handler` over a batch of messages with any
bodies, when any of its calls may fail.

* `readBody`, `RetryBody`: what the loop reads of a message, if it can.
* `Numerals`: the comparison and the addition of a count that may be a `float`.
* `MessageCalls`, `ProxyReply`: how the calls for a message end.
* `RetryBody.letterPrints`, `RetryBody.retryPrints`, `RetryBody.failurePrints`: whether the lines
  that the loop prints about a message can be written.
* `LambdaRun`: the queue, what the proxy accepted, what was put into S3, and the two counters.
* `LambdaRun.handOver`, `LambdaRun.turn`: a turn of the loop, which falls through to the deletion,
  continues, or raises.
* `deleted_handed_on`: **only what is handed on is deleted**.
* `batch_unblocked_iff`: **every message whose publish or put succeeds is handed on and deleted**
  precisely if its own line can be printed and no message before it ends the handler.
* `blocked_message`: a body that is not JSON, and a message after it.
-/

namespace OrderCqrs

open Loops

/-! ### Messages -/

/-- A message of the queue.  The body is what `json.loads` makes of it, if it is JSON. -/
structure QueueMessage where
  messageId : String
  body : Option Json
  deriving DecidableEq

/-- What the loop reads of a body. -/
structure RetryBody where
  event : RawEvent
  retryCount : JsonNumber
  error : Json
  orderId : Json
  deriving DecidableEq

/-- The values that compare with `MAX_RETRIES`: `False` and `True` are 0 and 1. -/
def Json.count? : Json → Option JsonNumber
  | .number n => some n
  | .bool b => some (.ofInt b.toInt)
  | _ => none

/-- The loop up to the comparison with `MAX_RETRIES`.  It raises on a body without an event and on
a count that is no number. -/
def readBody : Json → Option RetryBody
  | .object body =>
      match RawEvent.get body "event" with
      | some (.object event) => do
          let retryCount ← ((RawEvent.get body "retry_count").getD (.number (.ofInt 0))).count?
          return {
            event
            retryCount
            error := RawEvent.getUnknown body "error"
            orderId := RawEvent.getUnknown event "aggregate_id" }
      | _ => none
  | _ => none

/-- What the loop reads of a message. -/
def QueueMessage.read? (m : QueueMessage) : Option RetryBody := m.body.bind readBody

/-- The arithmetic of counts.  Of floats nothing is said. -/
structure Numerals where
  exhausted : JsonNumber → Bool
  succ : JsonNumber → JsonNumber
  exhausted_ofInt : ∀ i : ℤ, exhausted (.ofInt i) = decide ((maxRetries : ℤ) ≤ i)
  succ_ofInt : ∀ i : ℤ, succ (.ofInt i) = .ofInt (i + 1)

/-- A record for the proxy. -/
structure ProxyRecord where
  key : Json
  value : RawEvent
  deriving DecidableEq

/-- An object of the dead letter storage, without the time. -/
structure StoredLetter where
  key : Str
  event : RawEvent
  error : Json
  retryCount : JsonNumber
  deriving DecidableEq

/-- The record that is published again. -/
def RetryBody.record (num : Numerals) (b : RetryBody) : ProxyRecord where
  key := b.orderId
  value := b.event.set (.ofString "retry_count") (.number (num.succ b.retryCount))

/-- The object that is put away.  `format` is what an f-string writes for a value. -/
def RetryBody.letter (format : Json → Str) (b : RetryBody) : StoredLetter where
  key := .ofString "dead-letters/" ++ format b.orderId ++ .ofString "/" ++
    format (b.event.getUnknown "event_id") ++ .ofString ".json"
  event := b.event
  error := b.error
  retryCount := b.retryCount

section Prints

variable (prints : Json → Bool) (b : RetryBody)

/-- The line about a dead letter, which names its key, can be written. -/
def RetryBody.letterPrints : Bool := prints b.orderId && prints (b.event.getUnknown "event_id")

/-- The line about a failed publish can be written.  It names the event, and the text of the
exception, which has no surrogates. -/
def RetryBody.failurePrints : Bool := prints ((b.event.get "event_id").getD .null)

/-- The line about a publish can be written. -/
def RetryBody.retryPrints : Bool := b.failurePrints prints && prints b.orderId

end Prints

/-! ### Calls -/

/-- What comes of a request to the proxy: the status it answers with, if an answer comes, and
whether it has accepted the record, which it has when it answers with success. -/
structure ProxyReply where
  status : Option ℕ
  accepted : Bool
  accepted_of_success : ∀ n ∈ status, n ∈ [200, 201, 202] → accepted = true

/-- `publish_to_kafka_via_proxy` raises: the request fails, or its status is another one. -/
def ProxyReply.raises (reply : ProxyReply) : Bool := !reply.status.any fun n => n ∈ [200, 201, 202]

/-- A publish that does not raise has been accepted. -/
lemma ProxyReply.accepted_of_calm (reply : ProxyReply) (h : reply.raises = false) :
    reply.accepted = true := by
  rw [raises, Bool.not_eq_false', Option.any_eq_true] at h
  obtain ⟨n, hn, hin⟩ := h
  exact reply.accepted_of_success n hn (of_decide_eq_true hin)

/-- How the calls for a message end, as far as they are made. -/
structure MessageCalls where
  publish : ProxyReply
  putObject : Outcome
  deleteMessage : Outcome

/-- The end of a call, as the loop sees it. -/
def Outcome.raised : Outcome → Bool
  | .completes => false
  | .raises | .raisesAfterEffect => true

/-- The end of a call, as the other side sees it. -/
def Outcome.done : Outcome → Bool
  | .completes | .raisesAfterEffect => true
  | .raises => false

/-! ### The loop -/

/-- An invocation: the queue, the counters, and the histories of the records that the proxy accepted
and of the objects that were put, each with the message it is for. -/
structure LambdaRun where
  queue : List QueueMessage
  accepted : List (String × ProxyRecord)
  stored : List (String × StoredLetter)
  retried : ℕ
  deadLettered : ℕ

/-- How a turn goes on when the event has been handed on, or has not. -/
inductive TurnExit where
  | falls
  | continues
  | raises
  deriving DecidableEq

/-- What `handler` returns. -/
structure BatchResult where
  retried : ℕ
  deadLettered : Option ℕ
  deriving DecidableEq

namespace LambdaRun

/-- The beginning of an invocation. -/
def start (queue : List QueueMessage) : LambdaRun := ⟨queue, [], [], 0, 0⟩

section Code

variable (num : Numerals) (format : Json → Str) (prints : Json → Bool)
  (calls : QueueMessage → MessageCalls)

/-- A turn of the loop, up to the deletion.  `prints` are the values that standard output can write:
a string may have surrogates.  A line that cannot be written raises like a call, under the `try` of
the publish, too, and the handler of that `try` prints a line of its own. -/
def handOver (s : LambdaRun) (m : QueueMessage) : LambdaRun × TurnExit :=
  match m.read? with
  | none => (s, .raises)
  | some b =>
      if num.exhausted b.retryCount then
        let put := (calls m).putObject
        let t := if put.done then { s with stored := s.stored ++ [(m.messageId, b.letter format)] }
          else s
        if put.raised || !b.letterPrints prints then (t, .raises)
        else ({ t with deadLettered := t.deadLettered + 1 }, .falls)
      else
        let reply := (calls m).publish
        let t := if reply.accepted then
            { s with accepted := s.accepted ++ [(m.messageId, b.record num)] }
          else s
        if reply.raises || !b.retryPrints prints then
          (t, if b.failurePrints prints then .continues else .raises)
        else ({ t with retried := t.retried + 1 }, .falls)

/-- `sqs.delete_message`. -/
def delete (s : LambdaRun) (m : QueueMessage) : LambdaRun × Bool :=
  let call := (calls m).deleteMessage
  (if call.done then { s with queue := s.queue.filter (·.messageId ≠ m.messageId) } else s,
    call.raised)

/-- A turn of the loop, and whether it raises. -/
def turn (s : LambdaRun) (m : QueueMessage) : LambdaRun × Bool :=
  match s.handOver num format prints calls m with
  | (t, .falls) => t.delete calls m
  | (t, .continues) => (t, false)
  | (t, .raises) => (t, true)

/-- `handler`, once it has its messages. -/
def handler (s : LambdaRun) (messages : List QueueMessage) : LambdaRun × Option BatchResult :=
  if messages = [] then (s, some ⟨0, none⟩)
  else
    let (t, raised) := loop (turn num format prints calls) s messages
    (t, if raised then none else some ⟨t.retried, some t.deadLettered⟩)

end Code

end LambdaRun

/-! ### Only what is handed on is deleted -/

/-- A queue, and the messages of it that an invocation receives. -/
structure DlqBatch where
  queue : List QueueMessage
  messages : List QueueMessage
  distinct : (queue.map (·.messageId)).Nodup
  subset : messages ⊆ queue
  nodup : messages.Nodup

/-- Messages of the queue with one id are one message. -/
lemma DlqBatch.eq_of_id (batch : DlqBatch) {m m' : QueueMessage} (hm : m ∈ batch.queue)
    (hm' : m' ∈ batch.queue) (h : m.messageId = m'.messageId) : m = m' :=
  List.inj_on_of_nodup_map batch.distinct hm hm' h

/-- A message is received once. -/
lemma DlqBatch.not_mem_of_eq (batch : DlqBatch) {pre post : List QueueMessage} {m : QueueMessage}
    (h : batch.messages = pre ++ m :: post) : m ∉ pre ∧ m ∉ post := by
  have hnodup := batch.nodup
  rw [h, List.nodup_middle, List.nodup_cons, List.mem_append, not_or] at hnodup
  exact hnodup.1

variable {num : Numerals} {format : Json → Str} {prints : Json → Bool}
  {calls : QueueMessage → MessageCalls}

namespace LambdaRun

variable {s t : LambdaRun} {m : QueueMessage} {exit : TurnExit}

/-- The event of the message is with the proxy, its count one higher, or was put into S3. -/
def Delivered (num : Numerals) (format : Json → Str) (s : LambdaRun) (m : QueueMessage) : Prop :=
  ∃ b, m.read? = some b ∧
    (num.exhausted b.retryCount = false ∧ (m.messageId, b.record num) ∈ s.accepted ∨
      num.exhausted b.retryCount = true ∧ (m.messageId, b.letter format) ∈ s.stored)

/-- The event of the message is with the proxy precisely if its count is below the maximum, and was
put into S3 precisely if it is not. -/
def HandedOn (num : Numerals) (format : Json → Str) (s : LambdaRun) (m : QueueMessage) : Prop :=
  ∃ b, m.read? = some b ∧
    (num.exhausted b.retryCount = false ∧ (m.messageId, b.record num) ∈ s.accepted ∧
        (∀ l ∈ s.stored, l.1 ≠ m.messageId) ∨
      num.exhausted b.retryCount = true ∧ (m.messageId, b.letter format) ∈ s.stored ∧
        ∀ r ∈ s.accepted, r.1 ≠ m.messageId)

lemma Delivered.mono (h : s.Delivered num format m) (ha : s.accepted ⊆ t.accepted)
    (hs : s.stored ⊆ t.stored) : t.Delivered num format m := by
  obtain ⟨b, hb, ⟨hcount, hin⟩ | ⟨hcount, hin⟩⟩ := h
  · exact ⟨b, hb, Or.inl ⟨hcount, ha hin⟩⟩
  · exact ⟨b, hb, Or.inr ⟨hcount, hs hin⟩⟩

/-! #### What a turn does -/

/-- What a turn comes to, up to the deletion: it falls through only when the put or the publish is
done. -/
inductive Hands (num : Numerals) (format : Json → Str) (s : LambdaRun) (m : QueueMessage) :
    LambdaRun → TurnExit → Prop where
  | nothing {exit : TurnExit} : exit ≠ .falls → Hands num format s m s exit
  | put {b : RetryBody} {exit : TurnExit} : m.read? = some b →
      num.exhausted b.retryCount = true →
      Hands num format s m { s with
        stored := s.stored ++ [(m.messageId, b.letter format)]
        deadLettered := s.deadLettered + if exit = .falls then 1 else 0 } exit
  | publish {b : RetryBody} {exit : TurnExit} : m.read? = some b →
      num.exhausted b.retryCount = false →
      Hands num format s m { s with
        accepted := s.accepted ++ [(m.messageId, b.record num)]
        retried := s.retried + if exit = .falls then 1 else 0 } exit

lemma handOver_hands (h : s.handOver num format prints calls m = (t, exit)) :
    Hands num format s m t exit := by
  unfold handOver at h
  cases hb : m.read? with
  | none =>
      rw [hb] at h
      obtain ⟨rfl, rfl⟩ := Prod.mk.inj h
      exact .nothing (by decide)
  | some b =>
      rw [hb] at h
      dsimp only at h
      cases hcount : num.exhausted b.retryCount with
      | true =>
          rw [if_pos hcount] at h
          have hput : ∀ e, Hands num format s m { s with
              stored := s.stored ++ [(m.messageId, b.letter format)]
              deadLettered := s.deadLettered + if e = .falls then 1 else 0 } e :=
            fun _ => .put hb hcount
          cases hcall : (calls m).putObject with
          | completes =>
              rw [hcall] at h
              cases hprints : b.letterPrints prints with
              | true =>
                  rw [hprints] at h
                  obtain ⟨rfl, rfl⟩ := Prod.mk.inj h
                  exact hput .falls
              | false =>
                  rw [hprints] at h
                  obtain ⟨rfl, rfl⟩ := Prod.mk.inj h
                  exact hput .raises
          | raises =>
              rw [hcall] at h
              obtain ⟨rfl, rfl⟩ := Prod.mk.inj h
              exact .nothing (by decide)
          | raisesAfterEffect =>
              rw [hcall] at h
              obtain ⟨rfl, rfl⟩ := Prod.mk.inj h
              exact hput .raises
      | false =>
          rw [if_neg (by simp [hcount])] at h
          have hpublish : ∀ e, Hands num format s m { s with
              accepted := s.accepted ++ [(m.messageId, b.record num)]
              retried := s.retried + if e = .falls then 1 else 0 } e :=
            fun _ => .publish hb hcount
          cases hraises : (calls m).publish.raises || !b.retryPrints prints with
          | true =>
              rw [if_pos hraises] at h
              obtain ⟨rfl, rfl⟩ := Prod.mk.inj h
              have hexit : (if b.failurePrints prints then TurnExit.continues else .raises) ≠
                  .falls := by
                split_ifs <;> decide
              cases (calls m).publish.accepted with
              | true =>
                  have hdone := hpublish (if b.failurePrints prints then .continues else .raises)
                  rwa [if_neg hexit] at hdone
              | false => exact .nothing hexit
          | false =>
              obtain ⟨hcalm, _⟩ := Bool.or_eq_false_iff.mp hraises
              rw [if_neg (by simp [hraises]), if_pos ((calls m).publish.accepted_of_calm hcalm)] at h
              obtain ⟨rfl, rfl⟩ := Prod.mk.inj h
              exact hpublish .falls

lemma Hands.queue (h : Hands num format s m t exit) : t.queue = s.queue := by
  cases h <;> rfl

lemma Hands.accepted (h : Hands num format s m t exit) : s.accepted ⊆ t.accepted := by
  cases h with
  | nothing _ => exact List.Subset.refl _
  | put _ _ => exact List.Subset.refl _
  | publish _ _ => exact List.subset_append_left _ _

lemma Hands.stored (h : Hands num format s m t exit) : s.stored ⊆ t.stored := by
  cases h with
  | nothing _ => exact List.Subset.refl _
  | put _ _ => exact List.subset_append_left _ _
  | publish _ _ => exact List.Subset.refl _

/-- A turn that falls through has delivered its message. -/
lemma Hands.delivered (h : Hands num format s m t .falls) : t.Delivered num format m := by
  cases h with
  | nothing hne => exact absurd rfl hne
  | put hb hcount =>
      exact ⟨_, hb, Or.inr ⟨hcount, List.mem_append_right _ (List.mem_singleton_self _)⟩⟩
  | publish hb hcount =>
      exact ⟨_, hb, Or.inl ⟨hcount, List.mem_append_right _ (List.mem_singleton_self _)⟩⟩

/-- A turn that falls through is counted, another one is not. -/
lemma Hands.counted (h : Hands num format s m t exit) :
    t.retried + t.deadLettered = s.retried + s.deadLettered + if exit = .falls then 1 else 0 := by
  cases h with
  | nothing hne => rw [if_neg hne, Nat.add_zero]
  | put _ _ => exact (Nat.add_assoc _ _ _).symm
  | publish _ _ => exact Nat.add_right_comm _ _ _

/-- The state without a message. -/
def remove (s : LambdaRun) (m : QueueMessage) : LambdaRun :=
  { s with queue := s.queue.filter (·.messageId ≠ m.messageId) }

/-- **A turn**: what it hands on, and the deletion, to which only a turn comes that falls through. -/
lemma turn_cases (num : Numerals) (format : Json → Str) (prints : Json → Bool)
    (calls : QueueMessage → MessageCalls) (s : LambdaRun) (m : QueueMessage) :
    ∃ t exit, Hands num format s m t exit ∧
      ((s.turn num format prints calls m).1 = t ∧
          ((s.turn num format prints calls m).2 = false → exit ≠ .falls) ∨
        exit = .falls ∧ (s.turn num format prints calls m).1 = t.remove m) := by
  cases h : s.handOver num format prints calls m with
  | mk t exit =>
      refine ⟨t, exit, handOver_hands h, ?_⟩
      rw [turn, h]
      cases exit with
      | falls =>
          dsimp only [delete]
          cases (calls m).deleteMessage with
          | completes | raisesAfterEffect => exact Or.inr ⟨rfl, rfl⟩
          | raises => exact Or.inl ⟨rfl, by simp [Outcome.raised]⟩
      | continues | raises => exact Or.inl ⟨rfl, by simp⟩

/-! #### The invariant -/

/-- The queue has lost only delivered messages, and the histories have only what belongs into
them. -/
structure Kept (num : Numerals) (format : Json → Str) (batch : DlqBatch) (s : LambdaRun) :
    Prop where
  queue : s.queue.Sublist batch.queue
  gone : ∀ m ∈ batch.queue, m ∉ s.queue → m ∈ batch.messages ∧ s.Delivered num format m
  accepted : ∀ r ∈ s.accepted, ∃ m ∈ batch.messages, r.1 = m.messageId ∧
    ∃ b, m.read? = some b ∧ num.exhausted b.retryCount = false
  stored : ∀ l ∈ s.stored, ∃ m ∈ batch.messages, l.1 = m.messageId ∧
    ∃ b, m.read? = some b ∧ num.exhausted b.retryCount = true

variable {batch : DlqBatch}

lemma kept_start : Kept num format batch (start batch.queue) :=
  ⟨List.Sublist.refl _, fun _ hm hnot => absurd hm hnot, by simp [start], by simp [start]⟩

lemma Kept.hands (hs : Kept num format batch s) (hm : m ∈ batch.messages)
    (h : Hands num format s m t exit) : Kept num format batch t := by
  have hgone : ∀ m' ∈ batch.queue, m' ∉ t.queue → m' ∈ batch.messages ∧ t.Delivered num format m' := by
    intro m' hin hnot
    rw [h.queue] at hnot
    exact ⟨(hs.gone m' hin hnot).1, (hs.gone m' hin hnot).2.mono h.accepted h.stored⟩
  cases h with
  | nothing _ => exact hs
  | put hb hcount =>
      refine ⟨hs.queue, hgone, hs.accepted, fun l hl => ?_⟩
      rcases List.mem_append.mp hl with hold | hnew
      · exact hs.stored l hold
      · obtain rfl := List.mem_singleton.mp hnew
        exact ⟨m, hm, rfl, _, hb, hcount⟩
  | publish hb hcount =>
      refine ⟨hs.queue, hgone, fun r hr => ?_, hs.stored⟩
      rcases List.mem_append.mp hr with hold | hnew
      · exact hs.accepted r hold
      · obtain rfl := List.mem_singleton.mp hnew
        exact ⟨m, hm, rfl, _, hb, hcount⟩

lemma Kept.remove (hs : Kept num format batch s) (hm : m ∈ batch.messages)
    (hdelivered : s.Delivered num format m) : Kept num format batch (s.remove m) := by
  refine ⟨List.filter_sublist.trans hs.queue, fun m' hin hnot => ?_, hs.accepted, hs.stored⟩
  by_cases hqueue : m' ∈ s.queue
  · have hid : m'.messageId = m.messageId := by
      by_contra hne
      exact hnot (List.mem_filter.mpr ⟨hqueue, decide_eq_true hne⟩)
    obtain rfl := batch.eq_of_id hin (batch.subset hm) hid
    exact ⟨hm, hdelivered⟩
  · exact hs.gone m' hin hqueue

/-- **Every turn keeps the invariant**, whether it raises or not. -/
theorem kept_turn (hs : Kept num format batch s) (hm : m ∈ batch.messages) :
    Kept num format batch (s.turn num format prints calls m).1 := by
  obtain ⟨t, exit, hhands, ⟨heq, _⟩ | ⟨rfl, heq⟩⟩ := turn_cases num format prints calls s m
  · exact heq ▸ hs.hands hm hhands
  · exact heq ▸ (hs.hands hm hhands).remove hm hhands.delivered

/-- The invariant says what is claimed of a deleted message. -/
lemma Kept.handedOn (hs : Kept num format batch s) (hm : m ∈ batch.queue) (hnot : m ∉ s.queue) :
    m ∈ batch.messages ∧ s.HandedOn num format m := by
  obtain ⟨hin, b, hb, hcase⟩ := hs.gone m hm hnot
  refine ⟨hin, b, hb, ?_⟩
  rcases hcase with ⟨hcount, haccepted⟩ | ⟨hcount, hstored⟩
  · refine Or.inl ⟨hcount, haccepted, fun l hl hid => ?_⟩
    obtain ⟨m', hm', hl', b', hb', hcount'⟩ := hs.stored l hl
    obtain rfl := batch.eq_of_id hm (batch.subset hm') (hid.symm.trans hl')
    obtain rfl := Option.some.inj (hb.symm.trans hb')
    simp [hcount] at hcount'
  · refine Or.inr ⟨hcount, hstored, fun r hr hid => ?_⟩
    obtain ⟨m', hm', hr', b', hb', hcount'⟩ := hs.accepted r hr
    obtain rfl := batch.eq_of_id hm (batch.subset hm') (hid.symm.trans hr')
    obtain rfl := Option.some.inj (hb.symm.trans hb')
    simp [hcount] at hcount'

/-- The counters and the queue add up, and the messages that have not had their turn are in the
queue. -/
structure Counted (batch : DlqBatch) (s : LambdaRun) (done : List QueueMessage) : Prop where
  total : s.retried + s.deadLettered + s.queue.length = batch.queue.length
  waiting : ∀ m ∈ batch.queue, m ∉ done → m ∈ s.queue
  queue : s.queue.Sublist batch.queue

/-- **A turn that does not raise keeps the count.** -/
lemma counted_turn {done : List QueueMessage} (hs : Counted batch s done)
    (hm : m ∈ batch.queue) (hnew : m ∉ done) (h : (s.turn num format prints calls m).2 = false) :
    Counted batch (s.turn num format prints calls m).1 (done ++ [m]) := by
  obtain ⟨t, exit, hhands, ⟨heq, hexit⟩ | ⟨rfl, heq⟩⟩ := turn_cases num format prints calls s m
  · have htotal := hhands.counted
    rw [if_neg (hexit h), Nat.add_zero] at htotal
    rw [heq]
    refine ⟨?_, fun m' hin hnot => ?_, hhands.queue ▸ hs.queue⟩
    · rw [htotal, hhands.queue]
      exact hs.total
    · rw [hhands.queue]
      exact hs.waiting m' hin fun hdone => hnot (List.mem_append_left _ hdone)
  · have htotal := hhands.counted
    rw [if_pos rfl] at htotal
    rw [heq]
    have hin : m ∈ s.queue := hs.waiting m hm hnew
    have hdistinct : (s.queue.map (·.messageId)).Nodup :=
      (hs.queue.map (·.messageId)).nodup batch.distinct
    refine ⟨?_, fun m' hin' hnot => ?_, ?_⟩
    · have hlength := ListTables.length_filter_ne hdistinct hin
      have hall := hs.total
      simp only [LambdaRun.remove, hhands.queue]
      omega
    · rw [List.mem_append, not_or] at hnot
      simp only [LambdaRun.remove, hhands.queue]
      refine List.mem_filter.mpr ⟨hs.waiting m' hin' hnot.1, decide_eq_true fun hid => ?_⟩
      exact hnot.2 (List.mem_singleton.mpr (batch.eq_of_id hin' hm hid))
    · simp only [LambdaRun.remove, hhands.queue]
      exact List.filter_sublist.trans hs.queue

/-- `handler` leaves behind what its loop does, also if there are no messages. -/
lemma handler_fst {messages : List QueueMessage} :
    (s.handler num format prints calls messages).1 =
    (loop (turn num format prints calls) s messages).1 := by
  rw [handler]
  split_ifs with hnil
  · rw [hnil, loop_nil]
  · rfl

/-- **An invocation keeps the invariant.** -/
theorem kept_handler : Kept num format batch
    ((start batch.queue).handler num format prints calls batch.messages).1 := by
  rw [handler_fst]
  exact loop_preserves (fun hm hs => kept_turn hs hm) kept_start

/-- What `handler` returns is the count of its loop. -/
lemma counted_result {r : BatchResult}
    (hr : r ∈ ((start batch.queue).handler num format prints calls batch.messages).2) :
    r.retried + r.deadLettered.getD 0 +
      ((start batch.queue).handler num format prints calls batch.messages).1.queue.length =
        batch.queue.length := by
  have hstart : Counted batch (start batch.queue) [] :=
    ⟨Nat.zero_add _, fun _ hm _ => hm, List.Sublist.refl _⟩
  rw [handler] at hr ⊢
  split_ifs at hr ⊢ with hnil
  · obtain rfl := Option.some.inj hr
    exact hstart.total
  · dsimp only at hr ⊢
    split_ifs at hr with hraised
    · cases hr
    · obtain rfl := Option.some.inj hr
      have hcounted := loop_rule (P := fun done s => Counted batch s done)
        (fun heq hs hcalm => counted_turn hs (batch.subset (by simp [heq]))
          (batch.not_mem_of_eq heq).1 hcalm) hstart
        (Bool.not_eq_true _ ▸ hraised)
      exact hcounted.total

end LambdaRun

/-- **The Lambda deletes only what it has handed on**, for any batch and any failures: a message that
is no longer in the queue was received, and its event is with the proxy, unchanged but for a count
one higher, precisely if its count was below the maximum, and was put into S3 precisely if it was
not; the queue has the others as they were; and if the handler returns, its counters add up to the
number of messages that are gone. -/
theorem deleted_handed_on (num : Numerals) (format : Json → Str) (prints : Json → Bool)
    (calls : QueueMessage → MessageCalls) (batch : DlqBatch) :
    let out := (LambdaRun.start batch.queue).handler num format prints calls batch.messages
    (∀ m ∈ batch.queue, m ∉ out.1.queue → m ∈ batch.messages ∧ out.1.HandedOn num format m) ∧
      out.1.queue.Sublist batch.queue ∧
      ∀ r ∈ out.2,
        r.retried + r.deadLettered.getD 0 + out.1.queue.length = batch.queue.length := by
  intro out
  have hkept : LambdaRun.Kept num format batch out.1 := LambdaRun.kept_handler
  exact ⟨fun m hm hnot => hkept.handedOn hm hnot, hkept.queue,
    fun r hr => LambdaRun.counted_result hr⟩

/-! ### The messages after one that cannot be handled -/

namespace QueueMessage

section Calls

variable (num : Numerals) (prints : Json → Bool) (calls : QueueMessage → MessageCalls)
  (m : QueueMessage)

/-- The message can be read, and its own publish or put does not raise. -/
def CanHandOn : Prop :=
  ∃ b, m.read? = some b ∧
    (num.exhausted b.retryCount = false ∧ (calls m).publish.raises = false ∨
      num.exhausted b.retryCount = true ∧ (calls m).putObject.raised = false)

/-- The calls that are the message's own go through: the publish or the put, and the deletion. -/
def Healthy : Prop := m.CanHandOn num calls ∧ (calls m).deleteMessage.raised = false

/-- The line about the publish or the put can be written. -/
def Prints : Prop :=
  ∀ b, m.read? = some b →
    (if num.exhausted b.retryCount then b.letterPrints prints else b.retryPrints prints) = true

/-- The turn of the message ends the handler: the message is not readable, or its dead letter cannot
be put or its key not be printed, or, below the maximum, its event id cannot be printed, or it is
handed on and cannot be deleted. -/
def Blocks : Prop :=
  m.read? = none ∨
    (∃ b, m.read? = some b ∧ (num.exhausted b.retryCount = true ∧
        ((calls m).putObject.raised = true ∨ b.letterPrints prints = false) ∨
      num.exhausted b.retryCount = false ∧ b.failurePrints prints = false)) ∨
    m.CanHandOn num calls ∧ m.Prints num prints ∧ (calls m).deleteMessage.raised = true

end Calls

end QueueMessage

namespace LambdaRun

variable {s : LambdaRun} {m : QueueMessage}

lemma handOver_falls_iff (format : Json → Str) (s : LambdaRun) :
    (s.handOver num format prints calls m).2 = .falls ↔
      m.CanHandOn num calls ∧ m.Prints num prints := by
  unfold handOver QueueMessage.CanHandOn QueueMessage.Prints
  cases hb : m.read? with
  | none => simp
  | some b =>
      cases hcount : num.exhausted b.retryCount with
      | true =>
          cases hput : (calls m).putObject.raised <;> cases hprints : b.letterPrints prints <;>
            simp [hcount, hput, hprints]
      | false =>
          cases hpublish : (calls m).publish.raises <;> cases hprints : b.retryPrints prints <;>
            cases hfailure : b.failurePrints prints <;> simp [hcount, hpublish, hprints, hfailure]

lemma handOver_raises_iff (format : Json → Str) (s : LambdaRun) :
    (s.handOver num format prints calls m).2 = .raises ↔ m.read? = none ∨
      ∃ b, m.read? = some b ∧ (num.exhausted b.retryCount = true ∧
          ((calls m).putObject.raised = true ∨ b.letterPrints prints = false) ∨
        num.exhausted b.retryCount = false ∧ b.failurePrints prints = false) := by
  unfold handOver
  cases hb : m.read? with
  | none => simp
  | some b =>
      cases hcount : num.exhausted b.retryCount with
      | true =>
          cases hput : (calls m).putObject.raised <;> cases hprints : b.letterPrints prints <;>
            simp [hcount, hput, hprints]
      | false =>
          cases hfailure : b.failurePrints prints with
          | true =>
              cases hpublish : (calls m).publish.raises <;>
                cases hprints : prints b.orderId <;>
                  simp [hcount, hpublish, hprints, hfailure, RetryBody.retryPrints]
          | false => simp [hcount, hfailure, RetryBody.retryPrints]

/-- **When a turn raises** depends on the message and its calls alone. -/
lemma turn_raises_iff (s : LambdaRun) (m : QueueMessage) :
    (s.turn num format prints calls m).2 = true ↔ m.Blocks num prints calls := by
  rw [QueueMessage.Blocks, ← or_assoc, ← handOver_raises_iff format s, ← and_assoc,
    ← handOver_falls_iff format s, turn]
  cases hout : s.handOver num format prints calls m with
  | mk t exit =>
      cases exit with
      | falls => simp [delete]
      | continues | raises => simp

/-- A turn takes its message from the queue only if the line about it could be written. -/
lemma turn_queue (s : LambdaRun) (m : QueueMessage) :
    (s.turn num format prints calls m).1.queue = s.queue ∨ m.Prints num prints ∧
      (s.turn num format prints calls m).1.queue =
        s.queue.filter (·.messageId ≠ m.messageId) := by
  cases hout : s.handOver num format prints calls m with
  | mk t exit =>
      have hqueue : t.queue = s.queue := (handOver_hands hout).queue
      cases exit with
      | falls =>
          have hprints := ((handOver_falls_iff format s).mp (congrArg Prod.snd hout)).2
          rw [turn, hout]
          dsimp only [delete]
          split_ifs
          · exact Or.inr ⟨hprints, congrArg _ hqueue⟩
          · exact Or.inl hqueue
      | continues | raises =>
          rw [turn, hout]
          exact Or.inl hqueue

/-- The messages that are gone are those about which a line could be written. -/
lemma prints_of_gone {batch : DlqBatch} (hm : m ∈ batch.queue)
    (hgone : m ∉ ((start batch.queue).handler num format prints calls batch.messages).1.queue) :
    m.Prints num prints := by
  have hall : ∀ m' ∈ batch.queue,
      m' ∉ (loop (turn num format prints calls) (start batch.queue) batch.messages).1.queue →
        m'.Prints num prints := by
    refine loop_preserves (P := fun s : LambdaRun => ∀ m' ∈ batch.queue, m' ∉ s.queue →
      m'.Prints num prints) (fun {s x} hx hs m' hm' hnot => ?_) fun m' hm' hnot => absurd hm' hnot
    rcases @turn_queue num format prints calls s x with heq | ⟨hprints, heq⟩
    · exact hs m' hm' (heq ▸ hnot)
    · rw [heq, List.mem_filter, not_and, decide_eq_true_eq, not_not] at hnot
      by_cases hin : m' ∈ s.queue
      · exact batch.eq_of_id hm' (batch.subset hx) (hnot hin) ▸ hprints
      · exact hs m' hm' hin
  rw [handler_fst] at hgone
  exact hall m hm hgone

/-- A healthy message has been delivered and deleted after its turn, if the line about it could be
written. -/
lemma turn_healthy (h : m.Healthy num calls) (hprints : m.Prints num prints) :
    (s.turn num format prints calls m).1.Delivered num format m ∧
      m ∉ (s.turn num format prints calls m).1.queue := by
  have hfalls := (handOver_falls_iff format s).mpr ⟨h.1, hprints⟩
  have hdelete : (calls m).deleteMessage = .completes := by
    have hraised := h.2
    cases hcall : (calls m).deleteMessage with
    | completes => rfl
    | raises | raisesAfterEffect =>
        rw [hcall] at hraised
        cases hraised
  cases hout : s.handOver num format prints calls m with
  | mk t exit =>
      rw [hout] at hfalls
      obtain rfl : exit = .falls := hfalls
      have hhands := handOver_hands hout
      simp only [turn, hout, delete, hdelete]
      exact ⟨hhands.delivered, by simp [Outcome.done]⟩

/-- Later turns take nothing away from what is delivered, and put no message back. -/
lemma turn_mono : s.accepted ⊆ (s.turn num format prints calls m).1.accepted ∧
    s.stored ⊆ (s.turn num format prints calls m).1.stored ∧
    (s.turn num format prints calls m).1.queue ⊆ s.queue := by
  obtain ⟨t, exit, hhands, ⟨heq, _⟩ | ⟨_, heq⟩⟩ := turn_cases num format prints calls s m
  · rw [heq]
    exact ⟨hhands.accepted, hhands.stored, hhands.queue ▸ List.Subset.refl _⟩
  · rw [heq]
    refine ⟨hhands.accepted, hhands.stored, fun m' hm' => ?_⟩
    exact hhands.queue ▸ List.mem_of_mem_filter hm'

end LambdaRun

/-- **When no message blocks another**: for any batch and any failures, every message whose own
publish or put and whose deletion go through is handed on and deleted, precisely if the line about
it can be written and no message before it ends the handler. -/
theorem batch_unblocked_iff (num : Numerals) (format : Json → Str) (prints : Json → Bool)
    (calls : QueueMessage → MessageCalls) (batch : DlqBatch) :
    let out := (LambdaRun.start batch.queue).handler num format prints calls batch.messages
    (∀ m ∈ batch.messages, m.Healthy num calls →
        out.1.HandedOn num format m ∧ m ∉ out.1.queue) ↔
      ∀ pre m post, batch.messages = pre ++ m :: post → m.Healthy num calls →
        m.Prints num prints ∧ ∀ x ∈ pre, ¬ x.Blocks num prints calls := by
  intro out
  have hout : out.1 =
      (loop (LambdaRun.turn num format prints calls) (.start batch.queue) batch.messages).1 :=
    LambdaRun.handler_fst
  constructor
  · intro hall pre m post heq hhealthy
    have hin : m ∈ batch.messages := heq ▸ List.mem_append_right _ List.mem_cons_self
    have hgone := (hall m hin hhealthy).2
    refine ⟨LambdaRun.prints_of_gone (batch.subset hin) hgone, fun x hx hblocks => ?_⟩
    rw [hout, heq, loop_append_of_raises LambdaRun.turn_raises_iff hx hblocks] at hgone
    -- the loop is over before the message, so that only messages before it are gone
    have hpre : LambdaRun.Kept num format
        ⟨batch.queue, pre, batch.distinct, fun y hy => batch.subset (by simp [heq, hy]),
          (List.sublist_append_left pre (m :: post)).nodup (heq ▸ batch.nodup)⟩
        (loop (LambdaRun.turn num format prints calls) (.start batch.queue) pre).1 :=
      loop_preserves (fun hm hs => LambdaRun.kept_turn hs hm) LambdaRun.kept_start
    exact (batch.not_mem_of_eq heq).1 (hpre.gone m (batch.subset hin) hgone).1
  · intro hcalm m hin hhealthy
    obtain ⟨pre, post, heq⟩ := List.append_of_mem hin
    obtain ⟨hprints, hbefore⟩ := hcalm pre m post heq hhealthy
    have hrest : out.1.Delivered num format m ∧ m ∉ out.1.queue := by
      rw [hout, heq, loop_append_of_calm LambdaRun.turn_raises_iff hbefore, loop_cons]
      split_ifs
      · exact LambdaRun.turn_healthy hhealthy hprints
      · refine loop_preserves (P := fun s : LambdaRun => s.Delivered num format m ∧ m ∉ s.queue)
          (fun _ hs => ?_) (LambdaRun.turn_healthy hhealthy hprints)
        exact ⟨hs.1.mono LambdaRun.turn_mono.1 LambdaRun.turn_mono.2.1,
          fun hback => hs.2 (LambdaRun.turn_mono.2.2 hback)⟩
    exact ⟨(LambdaRun.kept_handler.handedOn (batch.subset hin) hrest.2).2, hrest.2⟩

/-- The number that some digits write. -/
def digits? (digits : List Char) : Option ℕ :=
  if digits.all (·.isDigit) then some (Nat.ofDigitChars 10 digits 0) else none

/-- The value of a number that is an `int`. -/
def JsonNumber.int? (n : JsonNumber) : Option ℤ :=
  if n.text.toList.head? = some '-' then (digits? n.text.toList.tail).map fun k : ℕ => -(k : ℤ)
  else (digits? n.text.toList).map fun k : ℕ => (k : ℤ)

lemma digits?_repr (n : ℕ) : digits? n.repr.toList = some n := by
  rw [Nat.repr, String.toList_ofList, digits?, if_pos, Nat.ofDigitChars_ten_toDigits]
  exact List.all_eq_true.mpr fun c => Nat.isDigit_of_mem_toDigits (by decide) (by decide)

lemma JsonNumber.int?_ofInt (i : ℤ) : (ofInt i).int? = some i := by
  rw [int?, ofInt]
  cases i with
  | ofNat n =>
      have hhead : (Int.repr (.ofNat n)).toList.head? ≠ some '-' := by
        intro h
        have hin : '-' ∈ n.repr.toList := List.mem_of_mem_head? h
        rw [Nat.repr, String.toList_ofList] at hin
        exact absurd (Nat.isDigit_of_mem_toDigits (by decide) (by decide) hin) (by decide)
      rw [if_neg hhead]
      exact congrArg (Option.map _) (digits?_repr n)
  | negSucc n =>
      have hlist : (Int.repr (.negSucc n)).toList = '-' :: (n + 1).repr.toList := by
        simp [Int.repr]
      rw [hlist, List.head?_cons, if_pos rfl, List.tail_cons, digits?_repr]
      rfl

/-- Counts that are an `int`; other counts are left as they are and do not occur below. -/
def Numerals.int : Numerals where
  exhausted n := n.int?.any fun i => (maxRetries : ℤ) ≤ i
  succ n := n.int?.elim n fun i => .ofInt (i + 1)
  exhausted_ofInt i := by rw [JsonNumber.int?_ofInt, Option.any_some]
  succ_ofInt i := by rw [JsonNumber.int?_ofInt, Option.elim_some]

/-- A message whose body is not JSON. -/
def garbledMessage : QueueMessage := ⟨"message-0", none⟩

/-- The message of a cancellation that has not been retried yet. -/
def freshMessage : QueueMessage where
  messageId := "message-1"
  body := some (.object (.cons (.ofString "event") (.object cancelledRecord) .nil))

lemma garbled_distinct : ([garbledMessage, freshMessage].map (·.messageId)).Nodup := by decide

/-- The message that is not JSON comes first. -/
def garbledBatch : DlqBatch where
  queue := [garbledMessage, freshMessage]
  messages := [garbledMessage, freshMessage]
  distinct := garbled_distinct
  subset := List.Subset.refl _
  nodup := List.Nodup.of_map _ garbled_distinct

/-- No call fails. -/
def smoothCalls (_ : QueueMessage) : MessageCalls where
  publish := ⟨some 200, true, fun _ _ _ => rfl⟩
  putObject := .completes
  deleteMessage := .completes

/-- **A blocked message**: nothing of it fails, but it comes after a body that is not JSON, and stays
where it is, although everything can be printed. -/
theorem blocked_message :
    let out := (LambdaRun.start garbledBatch.queue).handler .int formatString (fun _ => true)
      smoothCalls garbledBatch.messages
    freshMessage ∈ garbledBatch.messages ∧ freshMessage.Healthy .int smoothCalls ∧
      out.2 = none ∧ out.1.accepted = [] ∧ freshMessage ∈ out.1.queue := by
  refine ⟨?_, ⟨⟨⟨cancelledRecord, .ofInt 0, .string (.ofString "unknown"),
    .string (.ofString "order-0")⟩, ?_, Or.inl ⟨?_, ?_⟩⟩, rfl⟩, ?_⟩
  · decide
  · decide
  · exact Numerals.exhausted_ofInt _ 0
  · rfl
  · decide

end OrderCqrs
