import OrderCqrs.Command.Serializability

/-!
The stored logs as words over the event types.

* `lifecycleWord`, `LifecycleWord`: the words of the order lifecycle: the creation, the items, the
  fulfilment as far as it got, and cancellations in the place of the rest.
* `LifecycleSafe`: what no such word does (`LifecycleWord.safe`).
* `LegalLog.word`: a legal log without deliveries spells such a word, and its aggregate stands where
  the word ends.
* `stored_notDelivered`: no handler records a delivery.
* `stored_lifecycle`: **every stored log of every reachable state is in the lifecycle**.
-/

namespace OrderCqrs

open Runs

/-! ### The words of the lifecycle -/

/-- Confirmation, payment and shipment, in this order. -/
def fulfilment : List EventType := [.orderConfirmed, .orderPaymentProcessed, .orderShipped]

/-- The creation, some items, the first stages of the fulfilment, some cancellations. -/
def lifecycleWord (items stage cancels : ℕ) : List EventType :=
  .orderCreated :: (List.replicate items .orderItemAdded ++ fulfilment.take stage ++
    List.replicate cancels .orderCancelled)

/-- **The words of the order lifecycle**: there is no confirmation without items and no cancellation
after the shipment. -/
def LifecycleWord (ts : List EventType) : Prop :=
  ∃ items stage cancels, stage ≤ 3 ∧ (0 < stage → 0 < items) ∧ (0 < cancels → stage < 3) ∧
    ts = lifecycleWord items stage cancels

/-- What never happens to an order. -/
structure LifecycleSafe (ts : List EventType) : Prop where
  paidOnce : ts.count .orderPaymentProcessed ≤ 1
  shippedPaid : ∀ pre post, ts = pre ++ .orderShipped :: post → .orderPaymentProcessed ∈ pre
  shippedLast : ∀ pre post, ts = pre ++ .orderShipped :: post → post = []
  itemsFixed : ∀ pre post, ts = pre ++ .orderConfirmed :: post → .orderItemAdded ∉ post

/-- Where an order stands at the end of a word. -/
def lifecycleStatus (stage cancels : ℕ) : OrderStatus :=
  if 0 < cancels then .cancelled
  else
    match stage with
    | 0 => .pending
    | 1 => .confirmed
    | 2 => .paid
    | _ => .shipped

/-! ### What no word does -/

/-- How far an event type takes an order. -/
def EventType.stage : EventType → ℕ
  | .orderCreated => 0
  | .orderItemAdded => 1
  | .orderConfirmed => 2
  | .orderPaymentProcessed => 3
  | .orderShipped => 4
  | .orderDelivered => 5
  | .orderCancelled => 6

/-- What a later event may be: nothing follows a shipment, and only items and cancellations are
repeated. -/
def EventType.MayPrecede (a b : EventType) : Prop :=
  a ≠ .orderShipped ∧ (a.stage < b.stage ∨ a = b ∧ (a = .orderItemAdded ∨ a = .orderCancelled))

instance : DecidableRel EventType.MayPrecede := fun _ _ => inferInstanceAs (Decidable (_ ∧ _))

lemma fulfilment_pairwise : fulfilment.Pairwise EventType.MayPrecede := by decide

/-- The events of a word stand in the order of the stages. -/
lemma LifecycleWord.pairwise {ts : List EventType} (h : LifecycleWord ts) :
    ts.Pairwise EventType.MayPrecede := by
  obtain ⟨items, stage, cancels, hstage, _, hcancel, rfl⟩ := h
  have hitem : ∀ b ∈ fulfilment, EventType.MayPrecede .orderItemAdded b := by decide
  have hfirst : ∀ b ∈ fulfilment, EventType.MayPrecede .orderCreated b := by decide
  have hlast : 0 < cancels → ∀ a ∈ fulfilment.take stage, a.MayPrecede .orderCancelled := by
    intro hpos
    have hlt := hcancel hpos
    interval_cases stage <;> decide
  refine List.pairwise_cons.mpr ⟨fun b hb => ?_, List.pairwise_append.mpr
    ⟨List.pairwise_append.mpr ⟨?_, ?_, fun a ha b hb => ?_⟩, ?_, fun a ha b hb => ?_⟩⟩
  · rw [List.mem_append, List.mem_append] at hb
    obtain (hb | hb) | hb := hb
    · rw [List.eq_of_mem_replicate hb]
      decide
    · exact hfirst b (List.mem_of_mem_take hb)
    · rw [List.eq_of_mem_replicate hb]
      decide
  · exact List.pairwise_replicate.mpr (Or.inr (by decide))
  · exact fulfilment_pairwise.sublist (List.take_sublist _ _)
  · rw [List.eq_of_mem_replicate ha]
    exact hitem b (List.mem_of_mem_take hb)
  · exact List.pairwise_replicate.mpr (Or.inr (by decide))
  · rw [List.eq_of_mem_replicate hb]
    obtain ha | ha := List.mem_append.mp ha
    · rw [List.eq_of_mem_replicate ha]
      decide
    · exact hlast (List.length_pos_of_mem hb |>.trans_eq (by simp)) a ha

/-- A word with a shipment has a payment. -/
lemma LifecycleWord.paid_of_shipped {ts : List EventType} (h : LifecycleWord ts)
    (hshipped : .orderShipped ∈ ts) : .orderPaymentProcessed ∈ ts := by
  obtain ⟨items, stage, cancels, hstage, _, _, rfl⟩ := h
  have hmem : .orderShipped ∈ fulfilment.take stage := by
    simpa [lifecycleWord, List.mem_replicate] using hshipped
  have htake : .orderPaymentProcessed ∈ fulfilment.take stage := by
    interval_cases stage <;> revert hmem <;> decide
  simp [lifecycleWord, htake]

/-- **No word pays twice, ships unpaid, goes on after the shipment or adds an item after the
confirmation.** -/
theorem LifecycleWord.safe {ts : List EventType} (h : LifecycleWord ts) : LifecycleSafe ts := by
  have hpair := h.pairwise
  have hshipped : ∀ pre post, ts = pre ++ .orderShipped :: post → post = [] := by
    rintro pre post rfl
    refine List.eq_nil_iff_forall_not_mem.mpr fun b hb => ?_
    exact ((List.pairwise_cons.mp (List.pairwise_append.mp hpair).2.1).1 b hb).1 rfl
  refine ⟨?_, ?_, hshipped, ?_⟩
  · have hself : ¬ EventType.MayPrecede .orderPaymentProcessed .orderPaymentProcessed := by decide
    by_contra hcount
    have hsub : (List.replicate 2 .orderPaymentProcessed).Sublist ts :=
      List.replicate_sublist_iff.mpr (by omega)
    have htwo := hpair.sublist hsub
    simp [hself] at htwo
  · rintro pre post heq
    have hmem := h.paid_of_shipped (by rw [heq]; simp)
    rw [heq, hshipped pre post heq] at hmem
    simpa using hmem
  · rintro pre post rfl hmem
    have hrel := (List.pairwise_cons.mp (List.pairwise_append.mp hpair).2.1).1 _ hmem
    exact absurd hrel (by decide)

/-! ### How a word goes on -/

lemma lifecycleWord_item (items : ℕ) :
    lifecycleWord items 0 0 ++ [.orderItemAdded] = lifecycleWord (items + 1) 0 0 := by
  simp [lifecycleWord, List.replicate_succ']

lemma lifecycleWord_stage (items stage : ℕ) {t : EventType}
    (h : fulfilment[stage]? = some t) :
    lifecycleWord items stage 0 ++ [t] = lifecycleWord items (stage + 1) 0 := by
  simp [lifecycleWord, List.take_add_one, h]

lemma lifecycleWord_cancel (items stage cancels : ℕ) :
    lifecycleWord items stage cancels ++ [.orderCancelled] =
      lifecycleWord items stage (cancels + 1) := by
  simp [lifecycleWord, List.replicate_succ']

/-- Without cancellations the status tells the stage. -/
lemma lifecycleStatus_eq_iff {stage cancels k : ℕ} (hstage : stage ≤ 3) (hk : k ≤ 3) :
    lifecycleStatus stage cancels = lifecycleStatus k 0 ↔ stage = k ∧ cancels = 0 := by
  rcases Nat.eq_zero_or_pos cancels with rfl | hpos
  · interval_cases stage <;> interval_cases k <;> simp [lifecycleStatus]
  · interval_cases k <;> simp [lifecycleStatus, hpos, hpos.ne']

/-! ### The logs of the orders -/

/-- **A legal log without deliveries spells a word of the lifecycle**, and the aggregate rebuilt
from it stands where the word ends. -/
lemma LegalLog.word {o : String} {log : List Event} (h : LegalLog o log)
    (hno : ∀ e ∈ log, e.payload ≠ .orderDelivered) :
    ∃ items stage cancels, stage ≤ 3 ∧ (0 < stage → 0 < items) ∧ (0 < cancels → stage < 3) ∧
      log.map (·.eventType) = lifecycleWord items stage cancels ∧
      (replay o log).items.length = items ∧
      (replay o log).status = lifecycleStatus stage cancels := by
  induction h with
  | created _ _ hc =>
      refine ⟨0, 0, 0, by omega, by omega, by omega, ?_, ?_, ?_⟩
      · simp [Event.eventType, hc, Payload.eventType, lifecycleWord]
      · simp [replay, OrderAggregate.apply, OrderAggregate.applyPayload, hc]
      · simp [replay, OrderAggregate.apply, OrderAggregate.applyPayload, hc, lifecycleStatus]
  | @append log e _ _ _ hallow ih =>
      obtain ⟨items, stage, cancels, hstage, hitems, hcancels, hword, hlen, hstatus⟩ :=
        ih fun e' he' => hno e' (List.mem_append_left _ he')
      have hlast := hno e (by simp)
      rw [List.map_append, hword, replay_concat, OrderAggregate.apply]
      -- a status without cancellations fixes the stage at which the event comes
      have hat : ∀ k, k ≤ 3 → (replay o log).status = lifecycleStatus k 0 →
          stage = k ∧ cancels = 0 := fun k hk heq =>
        (lifecycleStatus_eq_iff hstage hk).mp (hstatus.symm.trans heq)
      cases hp : e.payload with
      | orderCreated c =>
          rw [hp] at hallow
          exact hallow.elim
      | orderItemAdded item =>
          rw [hp] at hallow
          have hpending := OrderAggregate.assertCanAddItem_eq_ok.mp hallow
          obtain ⟨rfl, rfl⟩ := hat 0 (by omega) hpending
          refine ⟨items + 1, 0, 0, by omega, by omega, by omega, ?_, ?_, hpending⟩
          · rw [← lifecycleWord_item]
            simp [Event.eventType, hp, Payload.eventType]
          · simp [OrderAggregate.applyPayload, hlen]
      | orderConfirmed ts =>
          rw [hp] at hallow
          obtain ⟨hne, hpending⟩ := OrderAggregate.assertCanConfirm_eq_ok.mp hallow
          obtain ⟨rfl, rfl⟩ := hat 0 (by omega) hpending
          have hpos : 0 < items := hlen ▸ List.length_pos_iff.mpr hne
          refine ⟨items, 1, 0, by omega, fun _ => hpos, by omega, ?_, hlen, rfl⟩
          rw [← lifecycleWord_stage items 0 (t := .orderConfirmed) rfl]
          simp [Event.eventType, hp, Payload.eventType]
      | orderPaymentProcessed p =>
          rw [hp] at hallow
          obtain ⟨rfl, rfl⟩ := hat 1 (by omega) (OrderAggregate.assertCanPay_eq_ok.mp hallow)
          refine ⟨items, 2, 0, by omega, fun _ => hitems (by omega), by omega, ?_, hlen, rfl⟩
          rw [← lifecycleWord_stage items 1 (t := .orderPaymentProcessed) rfl]
          simp [Event.eventType, hp, Payload.eventType]
      | orderShipped p =>
          rw [hp] at hallow
          obtain ⟨rfl, rfl⟩ := hat 2 (by omega) (OrderAggregate.assertCanShip_eq_ok.mp hallow)
          refine ⟨items, 3, 0, by omega, fun _ => hitems (by omega), by omega, ?_, hlen, rfl⟩
          rw [← lifecycleWord_stage items 2 (t := .orderShipped) rfl]
          simp [Event.eventType, hp, Payload.eventType]
      | orderDelivered => exact absurd hp hlast
      | orderCancelled reason ts =>
          rw [hp] at hallow
          have hopen : stage ≠ 3 ∨ 0 < cancels := by
            by_contra hcon
            push Not at hcon
            have hshipped : (replay o log).status = .shipped := by
              rw [hstatus, hcon.1, Nat.le_zero.mp hcon.2]
              rfl
            simp [OrderAggregate.allows, OrderAggregate.assertCanCancel, hshipped] at hallow
          refine ⟨items, stage, cancels + 1, hstage, hitems, fun _ => ?_, ?_, hlen, ?_⟩
          · rcases hopen with hne | hpos
            · omega
            · exact hcancels hpos
          · rw [← lifecycleWord_cancel]
            simp [Event.eventType, hp, Payload.eventType]
          · simp [OrderAggregate.applyPayload, lifecycleStatus]

/-! ### No handler records a delivery -/

/-- A step of a handler builds no delivery. -/
lemma await_notDelivered {sh sh' : Shared} {d : Draw} {h : Handler} {oc : Outcome} {pc : Pc}
    {b : Built} (hawait : h.await sh d oc = some (sh', pc)) (hb : pc.built = some b)
    (hold : ∀ b, h.pc.built = some b → b.event.payload ≠ .orderDelivered) :
    b.event.payload ≠ .orderDelivered := by
  rcases await_built hawait hb with hb | ⟨_, _, hb⟩ | ⟨o, req, agg, _, _, rfl⟩
  · exact hold b hb
  · generalize h.command = cmd at hb
    cases hb <;> simp [orderCreatedEvent, orderItemAddedEvent, orderConfirmedEvent,
      orderShippedEvent, orderCancelledEvent, Stamp.event]
  · simp [orderPaymentProcessedEvent, Stamp.event]

/-- No handler has built a delivery. -/
def NoDelivery (s : State) : Prop :=
  ∀ h ∈ s.handlers, ∀ b, h.pc.built = some b → b.event.payload ≠ .orderDelivered

lemma noDelivery_step {s t : State} {a : Action} (hs : NoDelivery s) (hstep : step s a = some t) :
    NoDelivery t := by
  intro h' hh' b hb
  rcases mem_handlers_cases hstep hh' with
    hold | hstart | ⟨i, oc, d, h, sh, pc, rfl, hget, hawait, _, rfl⟩
  · exact hs h' hold b hb
  · simp [hstart, Pc.built] at hb
  · exact await_notDelivered hawait hb fun b hb => hs h (List.mem_of_getElem? hget) b hb

/-- **No stored event is a delivery.** -/
lemma stored_notDelivered {s : State} {as : List Action} (hrun : run step State.init as = some s) :
    ∀ e ∈ s.store, e.payload ≠ .orderDelivered := by
  have hno : NoDelivery s := run_preserves (fun hs hstep => noDelivery_step hs hstep)
    (by simp [NoDelivery, State.init]) hrun
  intro e he
  obtain ⟨h, hmem, b, hb, rfl⟩ := (writeInv_run hrun).stored e he
  exact hno h hmem b hb

/-- **The stored logs are of the order lifecycle**: in every state any interleaving of command
handlers can reach, the events of an order in version order are a word of the lifecycle, and so no
order is paid twice, shipped unpaid, cancelled after its shipment or changed in its items after its
confirmation. -/
theorem stored_lifecycle {s : State} {as : List Action} (hrun : run step State.init as = some s)
    (o : String) :
    getEvents s.store o = [] ∨
      LifecycleWord ((getEvents s.store o).map (·.eventType)) ∧
        LifecycleSafe ((getEvents s.store o).map (·.eventType)) := by
  rcases (writeInv_run hrun).legal o with hnil | hlegal
  · exact Or.inl (by simp [getEvents, hnil, sortByVersion])
  · refine Or.inr ?_
    obtain ⟨items, stage, cancels, hstage, hitems, hcancels, hword, _⟩ :=
      hlegal.word fun e he => stored_notDelivered hrun e (mem_orderLog.mp he).1
    rw [getEvents_eq_orderLog hlegal.versionSorted]
    have hlifecycle : LifecycleWord ((orderLog s.store o).map (·.eventType)) :=
      ⟨items, stage, cancels, hstage, hitems, hcancels, hword⟩
    exact ⟨hlifecycle, hlifecycle.safe⟩

theorem stored_lifecycle_stale : ∃ s, run step State.init staleSchedule = some s ∧
    (getEvents s.store "order-0" = [] ∨
      LifecycleWord ((getEvents s.store "order-0").map (·.eventType)) ∧
        LifecycleSafe ((getEvents s.store "order-0").map (·.eventType))) := by
  obtain ⟨s, hrun⟩ := Option.isSome_iff_exists.mp
    (by decide +kernel : (run step State.init staleSchedule).isSome)
  exact ⟨s, hrun, stored_lifecycle hrun "order-0"⟩

end OrderCqrs
