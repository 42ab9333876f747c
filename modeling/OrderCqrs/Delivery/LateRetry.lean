import OrderCqrs.Delivery.Consumer
import OrderCqrs.Logic.Bags
import OrderCqrs.Logic.Partitions
import OrderCqrs.Projection.Reordering

/-!
Failed projections on their way through the dead letter queue and the Lambda, back to the end of a
partition.

* `LogDelivered`: the topics considered: the log of an order in one partition, in version order,
  events of other orders in between.
* `Pipeline.Transient`: projections fail; nothing else does.
* `Pipeline.ledger`: where the events are; `RetryInv`: **no event is lost or duplicated**, and the
  deduplication skips none.
* `late_retry_iff`: **when all is handled, the rows of the order are those of its log precisely if
  the order in which its projections succeeded respects what `SameOutcome` asks for**.
* `late_payment`: a payment retried after the shipment takes the order back to `PAID`.
-/

namespace OrderCqrs

open Runs Bags Partitions

/-! ### Topics and runs -/

/-- **The topics considered**: no two records of one event id, and the log of the order in one
partition. -/
structure LogDelivered (partitions : ℕ) (topic : ℕ → List Delivery) (o : String)
    (log : List Event) : Prop where
  distinct : ((∑ p ∈ Finset.range partitions, (eventsOf topic p : Multiset Event)).map
    (·.eventId)).Nodup
  inOrder : ∃ p < partitions, (eventsOf topic p).filter (·.aggregateId = o) = log ∧
    ∀ q < partitions, q ≠ p → ∀ e ∈ eventsOf topic q, e.aggregateId ≠ o

/-- Projections may fail, any number of times, and the Lambda may fail to publish, but nothing else
fails.  Processed keys may expire. -/
def Pipeline.Transient (s : Pipeline) : PipelineAction → Prop
  | .poll _ | .complete | .expire _ => True
  | .raise afterEffect _ => afterEffect = false ∧ ∀ c ∈ s.current, c.pc = .project
  | .crash => False
  | .retry _ _ outcome => outcome ≠ .notDeleted

instance (s : Pipeline) : (a : PipelineAction) → Decidable (s.Transient a)
  | .poll _ | .complete | .expire _ => .isTrue trivial
  | .raise afterEffect _ =>
      inferInstanceAs (Decidable (afterEffect = false ∧ ∀ c ∈ s.current, c.pc = .project))
  | .crash => .isFalse id
  | .retry _ _ outcome => inferInstanceAs (Decidable (outcome ≠ .notDeleted))

/-- Every record is handled, and no event is in the queue or put away as a dead letter. -/
structure Pipeline.Drained (s : Pipeline) : Prop where
  consumed : ∀ p < s.partitions, s.position p = (s.topic p).length
  idle : s.current = none
  emptyDlq : s.dlq = []
  noDeadLetter : s.deadLetters = []

lemma Pipeline.drained_iff {s : Pipeline} : s.Drained ↔
    (∀ p < s.partitions, s.position p = (s.topic p).length) ∧ s.current = none ∧ s.dlq = [] ∧
      s.deadLetters = [] :=
  ⟨fun h => ⟨h.consumed, h.idle, h.emptyDlq, h.noDeadLetter⟩, fun ⟨h, h', h'', h'''⟩ =>
    ⟨h, h', h'', h'''⟩⟩

instance (s : Pipeline) : Decidable s.Drained := decidable_of_iff _ Pipeline.drained_iff.symm

/-! ### The ledger -/

/-- The events of the records behind the positions. -/
def unread (partitions : ℕ) (topic : ℕ → List Delivery) (position : ℕ → ℕ) : Multiset Event :=
  ∑ p ∈ Finset.range partitions, ((eventsOf topic p).drop (position p) : Multiset Event)

/-- The event of a record whose projection has not succeeded, until it is in the queue. -/
def InFlight.unprojected (c : InFlight) : Multiset Event :=
  match c.pc with
  | .redisExists | .project | .sendToDlq _ => {c.event}
  | _ => 0

namespace Pipeline

/-- The event in the consumer's hands, if its projection has not succeeded. -/
def inHand (s : Pipeline) : Multiset Event := s.current.elim 0 InFlight.unprojected

/-- The events in the dead letter queue and in the dead letter storage. -/
def failed (s : Pipeline) : Multiset Event :=
  (s.dlq.map (·.event.event) : Multiset Event) +
    (s.deadLetters.map (·.event.event) : Multiset Event)

/-- **Where the events are.** -/
def ledger (s : Pipeline) : Multiset Event :=
  unread s.partitions s.topic s.position + s.failed + s.inHand + (s.transactions : Multiset Event)

lemma inHand_of_current {s : Pipeline} {c : InFlight} (hc : s.current = some c) :
    s.inHand = c.unprojected := by
  rw [inHand, hc, Option.elim_some]

/-- A message leaves the queue. -/
lemma coe_dlq_eraseIdx {s : Pipeline} {i : ℕ} {m : DlqMessage} (hm : s.dlq[i]? = some m) :
    (s.dlq.map (·.event.event) : Multiset Event) =
      {m.event.event} + ((s.dlq.eraseIdx i).map (·.event.event) : Multiset Event) := by
  rw [← Multiset.map_coe, coe_eraseIdx hm, Multiset.map_add, Multiset.map_singleton,
    Multiset.map_coe]

end Pipeline

section Unread

variable {n p : ℕ} {topic : ℕ → List Delivery} {position : ℕ → ℕ} {d : Delivery}

/-- A record is taken. -/
lemma unread_poll (hp : p < n) (hd : (topic p)[position p]? = some d) :
    unread n topic position =
      {d.event} + unread n topic (Function.update position p (position p + 1)) := by
  refine sum_range_eq_add hp ?_ fun q hq => by rw [Function.update_of_ne hq]
  obtain ⟨hlt, hget⟩ := List.getElem?_eq_some_iff.mp hd
  have hlt' : position p < (eventsOf topic p).length := by simpa [eventsOf] using hlt
  have hget' : (eventsOf topic p)[position p] = d.event := by simp [eventsOf, hget]
  rw [Function.update_self, List.drop_eq_getElem_cons hlt', hget']
  rfl

/-- A record is appended. -/
lemma unread_publish (hp : p < n) (hpos : position p ≤ (topic p).length) :
    unread n (Function.update topic p (topic p ++ [d])) position =
      {d.event} + unread n topic position := by
  refine sum_range_eq_add hp ?_ fun q hq => by rw [eventsOf, Function.update_of_ne hq]; rfl
  have hpos' : position p ≤ (eventsOf topic p).length := by simpa [eventsOf] using hpos
  have happ : eventsOf (Function.update topic p (topic p ++ [d])) p =
      eventsOf topic p ++ [d.event] := by
    simp [eventsOf]
  rw [happ, List.drop_append_of_le_length hpos', ← Multiset.coe_add, add_comm]
  rfl

end Unread

/-! ### The invariant -/

/-- What is known of the record in the consumer's hands at each call. -/
def InFlight.Accounted (s : Pipeline) (c : InFlight) : Prop :=
  match c.pc with
  | .commitSkipped => False
  | .invalidateCache | .setProcessed => c.event ∈ s.transactions
  | _ => True

/-- **No event is lost or duplicated on its way**, and what is marked has been projected. -/
structure RetryInv (partitions : ℕ) (all : Multiset Event) (s : Pipeline) : Prop where
  partitions_eq : s.partitions = partitions
  position_le : ∀ p, s.position p ≤ (s.topic p).length
  ledger_eq : s.ledger = all
  marked : ∀ id ∈ s.processed, id ∈ s.transactions.map (·.eventId)
  inFlight : ∀ c, s.current = some c → c.Accounted s

section Invariant

variable {n : ℕ} {all : Multiset Event} {s t : Pipeline}

lemma retryInv_init {topic : ℕ → List Delivery} {rm₀ : ReadModel} :
    RetryInv n (∑ p ∈ Finset.range n, (eventsOf topic p : Multiset Event)) (.init n topic rm₀) where
  partitions_eq := rfl
  position_le := fun _ => Nat.zero_le _
  ledger_eq := by simp [Pipeline.ledger, Pipeline.init, unread, Pipeline.failed, Pipeline.inHand]
  marked := by simp [Pipeline.init]
  inFlight := by simp [Pipeline.init]

namespace RetryInv

/-- The consumer's record is taken up with its next call. -/
lemma goto {c : InFlight} (hs : RetryInv n all s) (hc : s.current = some c) {pc : ConsumerPc}
    {processed cache expiring : List String}
    (hmarked : ∀ id ∈ processed, id ∈ s.transactions.map (·.eventId))
    (hsame : InFlight.unprojected { c with pc } = c.unprojected)
    (hknown : InFlight.Accounted s { c with pc }) :
    RetryInv n all (Pipeline.goto { s with processed, cache, expiring } c pc) where
  partitions_eq := hs.partitions_eq
  position_le := hs.position_le
  ledger_eq := by
    calc unread s.partitions s.topic s.position + s.failed + InFlight.unprojected { c with pc } +
            (s.transactions : Multiset Event)
        = s.ledger := by rw [hsame, Pipeline.ledger, Pipeline.inHand_of_current hc]
      _ = all := hs.ledger_eq
  marked := hmarked
  inFlight := fun c' hc' => by
    obtain rfl := Option.some.inj hc'
    exact hknown

/-- A record that is done with leaves the consumer's hands. -/
lemma commit {c : InFlight} (hs : RetryInv n all s) (hc : s.current = some c)
    (hdone : c.unprojected = 0) : RetryInv n all s.commit where
  partitions_eq := hs.partitions_eq
  position_le := hs.position_le
  ledger_eq := by
    calc unread s.partitions s.topic s.position + s.failed + 0 +
            (s.transactions : Multiset Event)
        = s.ledger := by rw [← hdone, Pipeline.ledger, Pipeline.inHand_of_current hc]
      _ = all := hs.ledger_eq
  marked := hs.marked
  inFlight := by simp [Pipeline.commit]

/-- A projection that succeeds. -/
lemma project {c : InFlight} (hs : RetryInv n all s) (hc : s.current = some c)
    (hopen : c.unprojected = {c.event}) (rm : ReadModel) : RetryInv n all (Pipeline.goto { s with
      readModel := rm
      transactions := s.transactions ++ [c.event] } c .invalidateCache) where
  partitions_eq := hs.partitions_eq
  position_le := hs.position_le
  ledger_eq := by
    calc unread s.partitions s.topic s.position + s.failed + 0 +
            ((s.transactions ++ [c.event] : List Event) : Multiset Event)
        = unread s.partitions s.topic s.position + s.failed + {c.event} +
            (s.transactions : Multiset Event) := by
          rw [← Multiset.coe_add, Multiset.coe_singleton]
          abel
      _ = s.ledger := by rw [Pipeline.ledger, Pipeline.inHand_of_current hc, hopen]
      _ = all := hs.ledger_eq
  marked := by
    intro id hid
    rw [Pipeline.goto, List.map_append]
    exact List.mem_append_left _ (hs.marked id hid)
  inFlight := fun c' hc' => by
    obtain rfl := Option.some.inj hc'
    exact List.mem_append_right _ (List.mem_singleton_self _)

/-- A failed event goes to the queue. -/
lemma sendToDlq {c : InFlight} {error : String} (hs : RetryInv n all s) (hc : s.current = some c)
    (hopen : c.unprojected = {c.event}) : RetryInv n all (Pipeline.goto
      { s with dlq := s.dlq ++ [dlqMessage c.delivery error] } c .commitFailed) where
  partitions_eq := hs.partitions_eq
  position_le := hs.position_le
  ledger_eq := by
    calc unread s.partitions s.topic s.position +
            ((((s.dlq ++ [dlqMessage c.delivery error]).map (·.event.event) : List Event) :
              Multiset Event) + (s.deadLetters.map (·.event.event) : Multiset Event)) + 0 +
            (s.transactions : Multiset Event)
        = unread s.partitions s.topic s.position + s.failed + {c.event} +
            (s.transactions : Multiset Event) := by
          rw [List.map_append, ← Multiset.coe_add, List.map_singleton, Multiset.coe_singleton,
            dlqMessage, Pipeline.failed]
          abel
      _ = s.ledger := by rw [Pipeline.ledger, Pipeline.inHand_of_current hc, hopen]
      _ = all := hs.ledger_eq
  marked := hs.marked
  inFlight := fun c' hc' => by
    obtain rfl := Option.some.inj hc'
    exact trivial

/-- The consumer takes the next record of a partition. -/
lemma poll {p : ℕ} {d : Delivery} (hs : RetryInv n all s) (hp : p < s.partitions)
    (hnone : s.current = none) (hd : (s.topic p)[s.position p]? = some d) :
    RetryInv n all { s with
      position := Function.update s.position p (s.position p + 1)
      current := some ⟨p, d, d.event.firstCall⟩ } where
  partitions_eq := hs.partitions_eq
  position_le := advance_le hs.position_le hd
  ledger_eq := by
    have hhand : s.inHand = 0 := by rw [Pipeline.inHand, hnone, Option.elim_none]
    have hfirst : InFlight.unprojected ⟨p, d, d.event.firstCall⟩ = {d.event} := by
      rw [InFlight.unprojected, Event.firstCall]
      split_ifs <;> rfl
    calc unread s.partitions s.topic (Function.update s.position p (s.position p + 1)) + s.failed +
            InFlight.unprojected ⟨p, d, d.event.firstCall⟩ + (s.transactions : Multiset Event)
        = unread s.partitions s.topic s.position + s.failed + 0 +
            (s.transactions : Multiset Event) := by
          rw [hfirst, unread_poll hp hd]
          abel
      _ = s.ledger := by rw [Pipeline.ledger, hhand]
      _ = all := hs.ledger_eq
  marked := hs.marked
  inFlight := fun c hc => by
    obtain rfl := Option.some.inj hc
    rw [InFlight.Accounted, Event.firstCall]
    split_ifs <;> trivial

/-- The Lambda hands a message on and deletes it. -/
lemma retry {i p : ℕ} {m : DlqMessage} (hs : RetryInv n all s) (hp : p < s.partitions)
    (hm : s.dlq[i]? = some m) :
    RetryInv n all { s.handOver p m with dlq := s.dlq.eraseIdx i } := by
  obtain ⟨d, hpublish, hd⟩ | ⟨letter, hdead, hletter⟩ := retryMessage_cases m
  · rw [Pipeline.handOver, hpublish]
    refine ⟨hs.partitions_eq,
      fun q => (hs.position_le q).trans (isPrefix_send s.topic p d q).length_le, ?_, hs.marked,
      hs.inFlight⟩
    calc unread s.partitions (Function.update s.topic p (s.topic p ++ [d])) s.position +
            (((s.dlq.eraseIdx i).map (·.event.event) : Multiset Event) +
              (s.deadLetters.map (·.event.event) : Multiset Event)) + s.inHand +
            (s.transactions : Multiset Event)
        = s.ledger := by
          rw [Pipeline.ledger, Pipeline.failed, Pipeline.coe_dlq_eraseIdx hm,
            unread_publish hp (hs.position_le p), hd]
          abel
      _ = all := hs.ledger_eq
  · rw [Pipeline.handOver, hdead]
    refine ⟨hs.partitions_eq, hs.position_le, ?_, hs.marked, hs.inFlight⟩
    calc unread s.partitions s.topic s.position +
            (((s.dlq.eraseIdx i).map (·.event.event) : Multiset Event) +
              (((s.deadLetters ++ [letter]).map (·.event.event) : List Event) : Multiset Event)) +
            s.inHand + (s.transactions : Multiset Event)
        = s.ledger := by
          rw [Pipeline.ledger, Pipeline.failed, Pipeline.coe_dlq_eraseIdx hm, List.map_append,
            ← Multiset.coe_add, List.map_singleton, Multiset.coe_singleton, hletter]
          abel
      _ = all := hs.ledger_eq

/-- The event in the consumer's hands is not marked: no two records share an event id. -/
lemma notMem_processed {c : InFlight} (hall : (all.map (·.eventId)).Nodup)
    (hs : RetryInv n all s) (hc : s.current = some c) (hopen : c.unprojected = {c.event}) :
    c.event.eventId ∉ s.processed := by
  have hledger := hs.ledger_eq
  rw [Pipeline.ledger, Pipeline.inHand_of_current hc, hopen] at hledger
  rw [← hledger] at hall
  exact fun hmem => notMem_of_nodup_map hall (hs.marked _ hmem)

/-- A call that completes keeps the invariant. -/
lemma complete [Btree] {c : InFlight} (hall : (all.map (·.eventId)).Nodup) (hs : RetryInv n all s)
    (hc : s.current = some c) (h : s.complete c = some t) : RetryInv n all t := by
  have hknown := hs.inFlight c hc
  obtain ⟨p, d, pc⟩ := c
  cases pc with
  | redisExists =>
      obtain rfl := Option.some.inj h
      rw [if_neg (hs.notMem_processed hall hc rfl)]
      exact hs.goto hc hs.marked rfl trivial
  | project =>
      obtain ⟨rm, _, rfl⟩ := Pipeline.complete_project rfl h
      exact hs.project hc rfl rm
  | invalidateCache =>
      obtain rfl := Option.some.inj h
      refine hs.goto hc hs.marked ?_ ?_
      · rw [Event.afterInvalidate, Event.afterProcessed]
        split_ifs <;> rfl
      · rw [Event.afterInvalidate, Event.afterProcessed]
        split_ifs
        · exact hknown
        · trivial
        · trivial
  | setProcessed =>
      obtain rfl := Option.some.inj h
      refine hs.goto hc ?_ ?_ ?_
      · intro id hid
        obtain rfl | hid := List.mem_cons.mp hid
        · exact List.mem_map_of_mem hknown
        · exact hs.marked id hid
      · rw [Event.afterProcessed]
        split_ifs <;> rfl
      · rw [Event.afterProcessed]
        split_ifs <;> trivial
  | setExpiry =>
      obtain rfl := Option.some.inj h
      exact hs.goto hc hs.marked rfl trivial
  | sendToDlq error =>
      obtain rfl := Option.some.inj h
      exact hs.sendToDlq hc rfl
  | commit | commitFailed =>
      obtain rfl := Option.some.inj h
      exact hs.commit hc rfl
  | commitSkipped => exact hknown.elim

/-- **Every move without another failure keeps the invariant.** -/
theorem step [Btree] {a : PipelineAction} (hall : (all.map (·.eventId)).Nodup)
    (hs : RetryInv n all s)
    (ha : s.Transient a) (h : s.step a = some t) : RetryInv n all t := by
  cases a with
  | poll p =>
      obtain ⟨hp, hnone, d, hd, rfl⟩ := Pipeline.poll_cases h
      exact hs.poll hp hnone hd
  | complete =>
      obtain ⟨c, hc, hcomp⟩ := Pipeline.complete_cases h
      exact hs.complete hall hc hcomp
  | raise afterEffect error =>
      obtain ⟨rfl, hproject⟩ := ha
      obtain ⟨c, hc, rfl⟩ := Pipeline.raise_cases h
      have hpc := hproject c hc
      rw [Pipeline.raise, hpc]
      refine hs.goto hc hs.marked ?_ trivial
      rw [InFlight.unprojected, InFlight.unprojected, hpc]
  | crash => exact ha.elim
  | expire eventId =>
      obtain rfl := Option.some.inj h
      exact ⟨hs.partitions_eq, hs.position_le, hs.ledger_eq,
        fun id hid => hs.marked id (List.mem_filter.mp hid).1, hs.inFlight⟩
  | retry i p outcome =>
      cases outcome with
      | deleted =>
          obtain ⟨hp, m, hm, rfl⟩ := Pipeline.retry_cases h
          exact hs.retry hp hm
      | notHandedOver =>
          obtain ⟨_, _, h⟩ := Option.bind_eq_some_iff.mp h
          obtain ⟨_, _, h⟩ := Option.bind_eq_some_iff.mp h
          obtain rfl := Option.some.inj h
          exact hs
      | notDeleted => exact absurd rfl ha

/-- When all is handled, the projections are those of all events, in some order. -/
lemma transactions_eq (hs : RetryInv n all s) (hend : s.Drained) :
    (s.transactions : Multiset Event) = all := by
  have hunread : unread s.partitions s.topic s.position = 0 := by
    refine Finset.sum_eq_zero fun p hp => ?_
    rw [hend.consumed p (Finset.mem_range.mp hp), List.drop_of_length_le]
    · rfl
    · rw [eventsOf, List.length_map]
  have hledger := hs.ledger_eq
  rw [Pipeline.ledger, hunread, Pipeline.failed, Pipeline.inHand, hend.idle, hend.emptyDlq,
    hend.noDeadLetter] at hledger
  simpa using hledger

end RetryInv

/-! ### The whole run -/

/-- The events of the order are those of its log. -/
lemma LogDelivered.filter_eq {topic : ℕ → List Delivery} {o : String} {log : List Event}
    (hT : LogDelivered n topic o log) :
    (∑ p ∈ Finset.range n, (eventsOf topic p : Multiset Event)).filter (·.aggregateId = o) =
      (log : Multiset Event) := by
  obtain ⟨p, hp, hlog, hother⟩ := hT.inOrder
  rw [filter_sum_range, Finset.sum_eq_single p]
  · rw [Multiset.filter_coe, hlog]
  · intro q hq hqp
    rw [Multiset.filter_eq_nil]
    exact hother q (Finset.mem_range.mp hq) hqp
  · exact fun hnot => absurd (Finset.mem_range.mpr hp) hnot

/-- **When late retries converge.**  Of a run in which only projections fail and at whose end every
event is handled: the rows of the order are those of projecting its log once, in order, precisely if
the order in which its projections succeeded respects what `SameOutcome` asks for. -/
theorem late_retry_iff [Btree] {topic : ℕ → List Delivery} {o : String} {log : List Event}
    {rm₀ rm : ReadModel} {as : List PipelineAction} (hnew : o ∉ rm₀.orders) (hlog : LegalLog o log)
    (hT : LogDelivered n topic o log)
    (hrun : run Pipeline.step (.init n topic rm₀) as = some s)
    (hfail : Along Pipeline.step Pipeline.Transient (.init n topic rm₀) as) (hend : s.Drained)
    (hrm : run projectToPostgres rm₀ log = some rm) :
    s.readModel.view o = rm.view o ↔
      SameOutcome log (s.transactions.filter (·.aggregateId = o)) := by
  have hs := preserves_along (fun hs ha h => RetryInv.step hT.distinct hs ha h) retryInv_init hfail
    hrun
  have hproj : s.Projected rm₀ := run_preserves Pipeline.projected_step Pipeline.projected_init hrun
  have hperm : (s.transactions.filter (·.aggregateId = o)).Perm log := by
    rw [← Multiset.coe_eq_coe, ← hT.filter_eq, ← hs.transactions_eq hend, Multiset.filter_coe]
  obtain ⟨rm', hrm', hview⟩ := projection_local.run_filter (k := o) rfl hproj
  rw [hview]
  exact reordered_eq_iff hnew hlog hperm hrm hrm'

end Invariant

/-! ### A late payment -/

/-- The shipped order in the only partition. -/
def shippedTopic : ℕ → List Delivery
  | 0 => shippedLog.map fun e => ⟨e, none⟩
  | _ => []

lemma shippedTopic_delivered : LogDelivered 1 shippedTopic "order-0" shippedLog where
  distinct := by decide +kernel
  inOrder := ⟨0, Nat.one_pos, by decide +kernel, fun q hq hne => absurd (Nat.lt_one_iff.mp hq) hne⟩

/-- The payment fails once and is retried after the shipment. -/
def latePayment : List PipelineAction :=
  (List.replicate 3 (.poll 0 :: List.replicate 5 .complete)).flatten ++
    [.poll 0, .complete, .raise false "connection lost", .complete, .complete] ++
    (.poll 0 :: List.replicate 5 .complete) ++
    (.retry 0 0 .deleted :: .poll 0 :: List.replicate 5 .complete)

theorem latePayment_iff : ∃ s rm,
    run Pipeline.step (.init 1 shippedTopic .empty) latePayment = some s ∧ s.Drained ∧
      run projectToPostgres .empty shippedLog = some rm ∧
      (s.readModel.view "order-0" = rm.view "order-0" ↔
        SameOutcome shippedLog (s.transactions.filter (·.aggregateId = "order-0"))) := by
  have hend : ((run Pipeline.step (.init 1 shippedTopic .empty) latePayment).any fun s =>
      decide s.Drained) = true := by
    decide +kernel
  obtain ⟨s, hrun, hdrained⟩ := exists_run_of_eval hend
  obtain ⟨rm, hrm⟩ := Option.isSome_iff_exists.mp
    (by decide +kernel : (run projectToPostgres .empty shippedLog).isSome)
  exact ⟨s, rm, hrun, hdrained, hrm, late_retry_iff Finmap.notMem_empty shippedLog_legal
    shippedTopic_delivered hrun (by decide +kernel) hdrained hrm⟩

/-- **A late payment**: it takes the order back from `SHIPPED`, version 5, to `PAID`, version 4. -/
theorem late_payment : LegalLog "order-0" shippedLog ∧
    LogDelivered 1 shippedTopic "order-0" shippedLog ∧
    Along Pipeline.step Pipeline.Transient (.init 1 shippedTopic .empty) latePayment ∧
    ∃ s rm, run Pipeline.step (.init 1 shippedTopic .empty) latePayment = some s ∧ s.Drained ∧
      run projectToPostgres .empty shippedLog = some rm ∧
      (rm.orders.lookup "order-0").map (fun row => (row.status.val, row.version.val)) =
        some ("SHIPPED", 5) ∧
      (s.readModel.orders.lookup "order-0").map (fun row => (row.status.val, row.version.val)) =
        some ("PAID", 4) := by
  refine ⟨shippedLog_legal, shippedTopic_delivered, by decide +kernel, ?_⟩
  have hend : ((run Pipeline.step (.init 1 shippedTopic .empty) latePayment).any fun s => decide
      (s.Drained ∧ (s.readModel.orders.lookup "order-0").map
        (fun row => (row.status.val, row.version.val)) = some ("PAID", 4))) = true := by
    decide +kernel
  have hlog : ((run projectToPostgres .empty shippedLog).any fun rm => decide
      ((rm.orders.lookup "order-0").map (fun row => (row.status.val, row.version.val)) =
        some ("SHIPPED", 5))) = true := by
    decide +kernel
  obtain ⟨s, hrun, hdrained, hpaid⟩ := exists_run_of_eval hend
  obtain ⟨rm, hrm, hshipped⟩ := exists_run_of_eval hlog
  exact ⟨s, rm, hrun, hdrained, hrm, hshipped, hpaid⟩

end OrderCqrs
