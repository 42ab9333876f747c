import OrderCqrs.Command.DualWrite
import OrderCqrs.Delivery.RetryLoop

/-!
The whole system: the command handlers, the loop of topic, consumer, queue and Lambda, and the
expiry that the consumer sets on the stored events (`set_expiry_for_aggregate` in
`api/services/event_store.py`).

* `Platform`, `Platform.step`: what a handler sends the loop delivers, and what the loop lets expire
  is flagged in the store.
* `command_cases`, `deliver_cases`: what a move does; `write_run`: the commands of a run of the
  platform are a run of the write side.
* `Travels`: **the events on their way are stored** (`Travels.step`).
* `Platform.Inv`, `Platform.inv_run`: and so is a terminal event of every order that is flagged.
-/

namespace OrderCqrs

open Runs Partitions

/-- The event ends its order: the consumer then lets the events of the order expire. -/
def Event.Terminal (e : Event) : Prop :=
  e.eventType = .orderDelivered ∨ e.eventType = .orderCancelled

instance (e : Event) : Decidable e.Terminal := inferInstanceAs (Decidable (_ ∨ _))

/-! ### The transition system -/

/-- Handlers and loop.  `expiresAt` are the ids of the stored events that carry `expires_at`. -/
structure Platform where
  write : State
  loop : RetryLoop
  expiresAt : List String

/-- The moves of the platform. -/
inductive PlatformAction where
  | command (a : Action)
  | deliver (a : LoopAction)

/-- The moves of the loop besides those of the publisher, which are the handlers'. -/
def LoopAction.Delivers : LoopAction → Prop
  | .produce _ _ => False
  | _ => True

instance : (a : LoopAction) → Decidable a.Delivers
  | .produce _ _ => .isFalse id
  | .consume _ | .receive _ | .handOver _ _ _ | .delete _ _ | .stop _ => .isTrue trivial

/-- `update_many` over the events of some orders: the ids of those it flags. -/
def idsOfOrders (store : List Event) (orders : List String) : List String :=
  (store.filter fun e => e.aggregateId ∈ orders).map (·.eventId)

namespace Platform

/-- Nothing stored, nothing sent. -/
def init (partitions : ℕ) (rm : ReadModel) : Platform where
  write := .init
  loop := .init partitions rm
  expiresAt := []

/-- The orders that a move of the loop lets expire. -/
def newlyExpiring (s : Platform) (loop : RetryLoop) : List String :=
  loop.pipeline.expiring.take
    (loop.pipeline.expiring.length - s.loop.pipeline.expiring.length)

/-- The sends of some records, to the partitions of their keys. -/
def sends (partitioner : String → ℕ) (records : List Record) : List LoopAction :=
  records.map fun r => .produce (partitioner r.key) r.value

/-- One move of the platform, with the partitioner of the publisher. -/
def step [Btree] (partitioner : String → ℕ) (s : Platform) : PlatformAction → Option Platform
  | .command a => do
      let write ← OrderCqrs.step s.write a
      let loop ← run RetryLoop.step s.loop
        (sends partitioner (write.topic.drop s.write.topic.length))
      return { s with write, loop }
  | .deliver a => do
      guard a.Delivers
      let loop ← s.loop.step a
      return { s with
        loop
        expiresAt := s.expiresAt ++ idsOfOrders s.write.store (s.newlyExpiring loop) }

variable {partitioner : String → ℕ} {s t : Platform}

lemma command_cases [Btree] {a : Action} (h : s.step partitioner (.command a) = some t) :
    OrderCqrs.step s.write a = some t.write ∧ t.expiresAt = s.expiresAt ∧
      run RetryLoop.step s.loop
        (sends partitioner (t.write.topic.drop s.write.topic.length)) = some t.loop := by
  obtain ⟨write, hwrite, h⟩ := Option.bind_eq_some_iff.mp h
  obtain ⟨loop, hloop, h⟩ := Option.bind_eq_some_iff.mp h
  obtain rfl := Option.some.inj h
  exact ⟨hwrite, rfl, hloop⟩

lemma deliver_cases [Btree] {a : LoopAction} (h : s.step partitioner (.deliver a) = some t) :
    a.Delivers ∧ s.loop.step a = some t.loop ∧ t.write = s.write ∧
      t.expiresAt = s.expiresAt ++ idsOfOrders s.write.store (s.newlyExpiring t.loop) := by
  simp only [step, Option.bind_eq_bind, Option.bind_eq_some_iff, Option.guard_eq_some'] at h
  obtain ⟨_, ha, loop, hloop, h⟩ := h
  obtain rfl := Option.some.inj h
  exact ⟨ha, hloop, rfl, rfl⟩

/-- **The commands of a run of the platform are a run of the write side.** -/
theorem write_run [Btree] {as : List PlatformAction} (h : run (step partitioner) s as = some t) :
    ∃ cs, run OrderCqrs.step s.write cs = some t.write := by
  induction as generalizing s with
  | nil => exact ⟨[], by rw [Option.some.inj h]; rfl⟩
  | cons a as ih =>
      obtain ⟨u, hu, h⟩ := (run_cons_eq_some _).mp h
      obtain ⟨cs, hcs⟩ := ih h
      cases a with
      | command c => exact ⟨c :: cs, (run_cons_eq_some _).mpr ⟨_, (command_cases hu).1, hcs⟩⟩
      | deliver a =>
          rw [(deliver_cases hu).2.2.1] at hcs
          exact ⟨cs, hcs⟩

/-- What the sends of stored events keep, a command keeps. -/
lemma sends_preserve [Btree] {P : RetryLoop → Prop} {store : List Event}
    (hP : ∀ {l l' : RetryLoop} {p : ℕ} {e : Event}, P l → e ∈ store →
      l.step (.produce p e) = some l' → P l')
    {records : List Record} (hrecords : ∀ r ∈ records, r.value ∈ store) {l l' : RetryLoop}
    (hl : P l) (hrun : run RetryLoop.step l (sends partitioner records) = some l') : P l' := by
  refine preserves_along (C := fun _ a => ∃ p e, a = .produce p e ∧ e ∈ store)
    (fun {l a l'} hl hC hstep => ?_) hl (along_of_forall (fun a ha _ => ?_) l) hrun
  · obtain ⟨p, e, rfl, he⟩ := hC
    exact hP hl he hstep
  · obtain ⟨r, hr, rfl⟩ := List.mem_map.mp ha
    exact ⟨_, _, rfl, hrecords r hr⟩

/-! ### What travels is stored -/

/-- The events on their way are stored, and the expiry is set for terminal events. -/
structure Travels (store : List Event) (l : RetryLoop) : Prop where
  records : ∀ p, ∀ d ∈ l.pipeline.topic p, d.event ∈ store
  messages : ∀ m ∈ l.pipeline.dlq, m.event.event ∈ store
  holds : l.pipeline.Holds
  expiry : ∀ c, l.pipeline.current = some c → c.pc = .setExpiry → c.event.Terminal

namespace Travels

variable {store : List Event} {l l' : RetryLoop}

/-- The event in the consumer's hands is stored. -/
lemma current (h : Travels store l) {c : InFlight} (hc : l.pipeline.current = some c) :
    c.event ∈ store := by
  obtain ⟨k, _, hk⟩ := h.holds c hc
  exact h.records c.partition _ (List.mem_of_getElem? hk)

lemma mono {store' : List Event} (h : Travels store l) (hsub : store ⊆ store') :
    Travels store' l :=
  ⟨fun p d hd => hsub (h.records p d hd), fun m hm => hsub (h.messages m hm), h.holds, h.expiry⟩

lemma init (partitions : ℕ) (rm : ReadModel) : Travels store (.init partitions rm) where
  records := by simp [RetryLoop.init, Pipeline.init]
  messages := by simp [RetryLoop.init, Pipeline.init]
  holds := by simp [RetryLoop.init, Pipeline.init, Pipeline.Holds]
  expiry := by simp [RetryLoop.init, Pipeline.init]

/-- Nothing but the pipeline matters. -/
lemma of_pipeline (h : Travels store l) (heq : l'.pipeline = l.pipeline) : Travels store l' := by
  obtain ⟨hrecords, hmessages, hholds, hexpiry⟩ := h
  rw [← heq] at hrecords hmessages hholds hexpiry
  exact ⟨hrecords, hmessages, hholds, hexpiry⟩

/-- The send of a record with a stored event. -/
lemma send (h : Travels store l) (p : ℕ) {d : Delivery} (hd : d.event ∈ store)
    (heq : l'.pipeline = { l.pipeline with
      topic := Function.update l.pipeline.topic p (l.pipeline.topic p ++ [d]) }) :
    Travels store l' where
  records := by
    intro q d' hd'
    rw [heq] at hd'
    rcases mem_send hd' with hold | rfl
    · exact h.records q d' hold
    · exact hd
  messages := by
    rw [heq]
    exact h.messages
  holds := by
    rw [heq]
    exact Pipeline.holds_send h.holds p d
  expiry := by
    rw [heq]
    exact h.expiry

/-- The call for the expiry comes after the marking of a terminal event. -/
lemma expiry_consume [Btree] {s t : Pipeline} {a : PipelineAction} (ha : a.Consumes)
    (hs : ∀ c, s.current = some c → c.pc = .setExpiry → c.event.Terminal) (h : s.step a = some t) :
    ∀ c, t.current = some c → c.pc = .setExpiry → c.event.Terminal := by
  have hraise : ∀ {u : Pipeline} {c : InFlight} {error : String} (c' : InFlight),
      (u.raise c error).current = some c' → c'.pc ≠ .setExpiry := by
    intro u c error c' hc' hpc
    rcases u.raise_eq c error with ⟨pc, hpc', heq⟩ | heq
    · rw [heq] at hc'
      obtain rfl := Option.some.inj hc'
      rcases hpc' with rfl | rfl <;> simp at hpc
    · rw [heq] at hc'
      simp [Pipeline.restart] at hc'
  intro c' hc' hpc'
  cases a with
  | poll p =>
      obtain ⟨_, _, d, _, rfl⟩ := Pipeline.poll_cases h
      obtain rfl := Option.some.inj hc'
      dsimp only [Event.firstCall] at hpc'
      split_ifs at hpc'
  | complete =>
      obtain ⟨⟨p, d, pc⟩, hc, hcomp⟩ := Pipeline.complete_cases h
      cases pc with
      | redisExists =>
          obtain rfl := Option.some.inj hcomp
          obtain rfl := Option.some.inj hc'
          dsimp only at hpc'
          split_ifs at hpc'
      | project =>
          obtain ⟨rm, _, rfl⟩ := Pipeline.complete_project rfl hcomp
          obtain rfl := Option.some.inj hc'
          simp at hpc'
      | invalidateCache =>
          obtain rfl := Option.some.inj hcomp
          obtain rfl := Option.some.inj hc'
          dsimp only [Event.afterInvalidate, Event.afterProcessed] at hpc'
          split_ifs at hpc' with _ hterm
          exact hterm
      | setProcessed =>
          obtain rfl := Option.some.inj hcomp
          obtain rfl := Option.some.inj hc'
          dsimp only [Event.afterProcessed] at hpc'
          split_ifs at hpc' with hterm
          exact hterm
      | setExpiry | sendToDlq error =>
          obtain rfl := Option.some.inj hcomp
          obtain rfl := Option.some.inj hc'
          simp at hpc'
      | commitSkipped | commit | commitFailed =>
          obtain rfl := Option.some.inj hcomp
          simp [Pipeline.commit] at hc'
  | raise afterEffect error =>
      cases afterEffect with
      | true =>
          obtain ⟨c, u, _, _, rfl⟩ := Pipeline.raise_after_cases h
          exact absurd hpc' (hraise c' hc')
      | false =>
          obtain ⟨c, _, rfl⟩ := Pipeline.raise_cases h
          exact absurd hpc' (hraise c' hc')
  | crash =>
      obtain rfl := Option.some.inj h
      simp [Pipeline.restart] at hc'
  | expire eventId =>
      obtain rfl := Option.some.inj h
      exact hs c' hc' hpc'
  | retry i p outcome => exact ha.elim

/-- **Every move of the loop keeps what travels among the stored events.** -/
theorem step [Btree] {a : LoopAction} (ha : ∀ p e, a = .produce p e → e ∈ store)
    (h : Travels store l)
    (hstep : l.step a = some l') : Travels store l' := by
  cases a with
  | produce p e =>
      obtain ⟨_, rfl⟩ := RetryLoop.produce_cases hstep
      exact h.send p (d := { event := e }) (ha p e rfl) rfl
  | consume a =>
      obtain ⟨ha, hu, _⟩ := RetryLoop.consume_cases hstep
      have hcons := Pipeline.consume_cases ha hu
      refine ⟨?_, ?_, Pipeline.holds_consume ha h.holds hu, expiry_consume ha h.expiry hu⟩
      · rw [hcons.topic]
        exact h.records
      · rcases hcons.dlq with hdlq | ⟨c, error, hc, _, hdlq⟩
        · rw [hdlq]
          exact h.messages
        · rw [hdlq]
          intro m hm
          rcases List.mem_append.mp hm with hm | hm
          · exact h.messages m hm
          · rw [List.mem_singleton.mp hm]
            exact h.current hc
  | receive i =>
      obtain ⟨_, rfl⟩ := RetryLoop.receive_cases hstep
      exact h.of_pipeline rfl
  | handOver j p outcome =>
      obtain ⟨_, v, m, _, _, hm, _, hcases⟩ := RetryLoop.handOver_cases hstep
      have hsend : l'.pipeline = l.pipeline.handOver p m → Travels store l' := by
        intro heq
        rcases l.pipeline.handOver_cases p m with ⟨_, d, hd, _, hpipe⟩ | ⟨_, letter, _, hpipe⟩
        · rw [hpipe] at heq
          exact h.send p (hd ▸ h.messages m (List.mem_of_getElem? hm)) heq
        · rw [hpipe] at heq
          refine ⟨?_, ?_, ?_, ?_⟩ <;> rw [heq]
          · exact h.records
          · exact h.messages
          · exact h.holds
          · exact h.expiry
      rcases hcases with ⟨_, heq, _⟩ | ⟨_, heq, _⟩ | ⟨_, heq, _⟩
      · exact hsend heq
      · exact h.of_pipeline heq
      · exact hsend heq
  | delete j outcome =>
      obtain ⟨v, _, _, rfl⟩ := RetryLoop.delete_cases hstep
      exact h.of_pipeline rfl
  | stop j =>
      obtain rfl := RetryLoop.stop_cases hstep
      exact h.of_pipeline rfl

end Travels

/-! ### What a move lets expire -/

/-- A move of the loop lets nothing expire, or the order of the terminal event in the consumer's
hands. -/
lemma newlyExpiring_cases [Btree] {a : LoopAction} {loop : RetryLoop}
    (h : s.loop.step a = some loop) :
    s.newlyExpiring loop = [] ∨ ∃ c, s.loop.pipeline.current = some c ∧ c.pc = .setExpiry ∧
      s.newlyExpiring loop = [c.event.aggregateId] := by
  have hsame : loop.pipeline.expiring = s.loop.pipeline.expiring → s.newlyExpiring loop = [] := by
    intro heq
    rw [newlyExpiring, heq, Nat.sub_self, List.take_zero]
  cases a with
  | produce p e =>
      obtain ⟨_, rfl⟩ := RetryLoop.produce_cases h
      exact Or.inl (hsame rfl)
  | consume a =>
      obtain ⟨ha, hu, _⟩ := RetryLoop.consume_cases h
      rcases (Pipeline.consume_cases ha hu).expiring with heq | ⟨c, hc, hpc, heq⟩
      · exact Or.inl (hsame heq)
      · refine Or.inr ⟨c, hc, hpc, ?_⟩
        rw [newlyExpiring, heq, List.length_cons, Nat.add_sub_cancel_left]
        rfl
  | receive i =>
      obtain ⟨_, rfl⟩ := RetryLoop.receive_cases h
      exact Or.inl (hsame rfl)
  | handOver j p outcome =>
      obtain ⟨_, v, m, _, _, _, _, hcases⟩ := RetryLoop.handOver_cases h
      have hhand : (s.loop.pipeline.handOver p m).expiring = s.loop.pipeline.expiring := by
        rcases s.loop.pipeline.handOver_cases p m with ⟨_, _, _, _, hpipe⟩ | ⟨_, _, _, hpipe⟩ <;>
          rw [hpipe]
      rcases hcases with ⟨_, heq, _⟩ | ⟨_, heq, _⟩ | ⟨_, heq, _⟩
      · exact Or.inl (hsame (by rw [heq, hhand]))
      · exact Or.inl (hsame (by rw [heq]))
      · exact Or.inl (hsame (by rw [heq, hhand]))
  | delete j outcome =>
      obtain ⟨v, _, _, rfl⟩ := RetryLoop.delete_cases h
      exact Or.inl (hsame rfl)
  | stop j =>
      obtain rfl := RetryLoop.stop_cases h
      exact Or.inl (hsame rfl)

lemma mem_idsOfOrders {store : List Event} {orders : List String} {id : String} :
    id ∈ idsOfOrders store orders ↔
      ∃ e ∈ store, e.aggregateId ∈ orders ∧ e.eventId = id := by
  simp [idsOfOrders, and_assoc]

/-! ### The invariant -/

/-- **The invariant of the platform.** -/
structure Inv (s : Platform) : Prop where
  write : WriteInv s.write
  topic : TopicInv s.write
  travels : Travels s.write.store s.loop
  /-- A flagged event is stored, and so is a terminal event of its order. -/
  flagged : ∀ id ∈ s.expiresAt, ∃ e ∈ s.write.store, e.eventId = id ∧
    ∃ d ∈ s.write.store, d.aggregateId = e.aggregateId ∧ d.Terminal

lemma inv_init (partitions : ℕ) (rm : ReadModel) : Inv (.init partitions rm) where
  write := writeInv_init
  topic := topicInv_init
  travels := .init partitions rm
  flagged := by simp [init]

/-- **Every move keeps the invariant.** -/
theorem inv_step [Btree] {a : PlatformAction} (hs : Inv s) (h : s.step partitioner a = some t) :
    Inv t := by
  cases a with
  | command a =>
      obtain ⟨hwrite, hexpires, hloop⟩ := command_cases h
      have hw := writeInv_step hs.write hwrite
      have ht := topicInv_step hs.write hs.topic hwrite
      have hsub := store_subset hwrite
      refine ⟨hw, ht, ?_, ?_⟩
      · exact sends_preserve (P := Travels t.write.store) (fun hl he hstep =>
          hl.step (fun p e' heq => by
            obtain ⟨_, rfl⟩ := LoopAction.produce.inj heq
            exact he) hstep)
          (fun r hr => ht.stored r (List.mem_of_mem_drop hr)) (hs.travels.mono hsub) hloop
      · rw [hexpires]
        intro id hid
        obtain ⟨e, he, heid, d, hd, hagg, hterm⟩ := hs.flagged id hid
        exact ⟨e, hsub he, heid, d, hsub hd, hagg, hterm⟩
  | deliver a =>
      obtain ⟨ha, hloop, hwrite, hexpires⟩ := deliver_cases h
      have htravels : Travels t.write.store t.loop := by
        rw [hwrite]
        refine hs.travels.step (fun p e heq => ?_) hloop
        rw [heq] at ha
        exact ha.elim
      refine ⟨hwrite ▸ hs.write, hwrite ▸ hs.topic, htravels, ?_⟩
      intro id hid
      rw [hexpires] at hid
      rw [hwrite]
      rcases List.mem_append.mp hid with hid | hid
      · exact hs.flagged id hid
      · obtain ⟨e, he, horder, heid⟩ := mem_idsOfOrders.mp hid
        rcases newlyExpiring_cases hloop with hnil | ⟨c, hc, hpc, hone⟩
        · simp [hnil] at horder
        · rw [hone, List.mem_singleton] at horder
          exact ⟨e, he, heid, c.event, hs.travels.current hc, horder.symm,
            hs.travels.expiry c hc hpc⟩

theorem inv_run [Btree] {partitions : ℕ} {rm : ReadModel} {as : List PlatformAction}
    (h : run (step partitioner) (init partitions rm) as = some s) : Inv s :=
  run_preserves (fun hs hstep => inv_step hs hstep) (inv_init partitions rm) h

end Platform

end OrderCqrs
