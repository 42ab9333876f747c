import OrderCqrs.Command.Lifecycle
import OrderCqrs.Command.Payments
import OrderCqrs.Platform.Finished
import OrderCqrs.Projection.Replay

/-!
Where the tables come from: what a row shows goes back to stored events of its order, and to the
charges of the gateway, whatever fails on the way.

* `OrderState.Backed`, `ItemRow.Backed`: columns that stored events of the order have written.
* `ReadModel.Backed`: so it is for all rows, and every total is the sum of its lines;
  `ReadModel.Backed.project`: the projection of a stored event keeps it.
* `Pipeline.readModel_cases`, `Platform.readModel_cases`: a move leaves the tables alone, or
  projects the event in the consumer's hands.
* `rows_backed`: **in every state of the platform the rows are backed by the event store**.
* `shown_paid`: **what is shown as paid or shipped has been charged**, and nothing is shown as
  delivered.
-/

namespace OrderCqrs

open Runs

/-! ### Backed rows -/

/-- **The columns of an order go back to events of its log.** -/
structure OrderState.Backed (log : List Event) (st : OrderState) : Prop where
  created : ∃ e ∈ log, ∃ c, e.payload = .orderCreated c ∧ c.customerId = st.customerId ∧
    c.customerEmail = st.customerEmail
  version : ∃ e ∈ log, e.aggregateVersion = st.version
  status : st.status = OrderStatus.pending.value ∨ ∃ e ∈ log, e.status? = some st.status
  paymentId : ∀ p, st.paymentId = some p → ∃ e ∈ log, e.paymentId? = some (some p)
  trackingId : ∀ t, st.trackingId = some t → ∃ e ∈ log, e.trackingId? = some (some t)

/-- **The columns of an item go back to events of its order**: quantity and line total to one, name
and price to one, which may be another. -/
structure ItemRow.Backed (log : List Event) (p : String) (item : ItemRow) : Prop where
  amount : ∃ e ∈ log, ∃ new, e.itemRow? p = some new ∧ new.quantity = item.quantity ∧
    new.lineTotal = item.lineTotal
  product : ∃ e ∈ log, ∃ new, e.itemRow? p = some new ∧ new.productName = item.productName ∧
    new.unitPrice = item.unitPrice

/-- **Every row goes back to stored events of its order**, and every total is a sum of lines. -/
structure ReadModel.Backed (store : List Event) (rm : ReadModel) : Prop where
  row : ∀ o row, (rm.view o).row = some row → row.state.Backed (orderLog store o)
  item : ∀ o p item, (rm.view o).items p = some item → item.Backed (orderLog store o) p
  total : ∀ o, rm.Totalled o

section Backed

variable {store store' log log' : List Event} {rm rm' : ReadModel} {st : OrderState}
  {item new : ItemRow} {e : Event} {p o : String}

lemma OrderState.Backed.mono (h : st.Backed log) (hsub : log ⊆ log') : st.Backed log' := by
  obtain ⟨⟨e, he, hcreated⟩, ⟨d, hd, hversion⟩, hstatus, hpayment, htracking⟩ := h
  refine ⟨⟨e, hsub he, hcreated⟩, ⟨d, hsub hd, hversion⟩, ?_, fun p hp => ?_, fun t ht => ?_⟩
  · exact hstatus.imp_right fun ⟨e, he, hs⟩ => ⟨e, hsub he, hs⟩
  · obtain ⟨e, he, hp⟩ := hpayment p hp
    exact ⟨e, hsub he, hp⟩
  · obtain ⟨e, he, ht⟩ := htracking t ht
    exact ⟨e, hsub he, ht⟩

lemma ItemRow.Backed.mono (h : item.Backed log p) (hsub : log ⊆ log') : item.Backed log' p := by
  obtain ⟨⟨e, he, hamount⟩, ⟨d, hd, hproduct⟩⟩ := h
  exact ⟨⟨e, hsub he, hamount⟩, ⟨d, hsub hd, hproduct⟩⟩

lemma orderLog_subset (h : store ⊆ store') (o : String) : orderLog store o ⊆ orderLog store' o :=
  List.filter_subset _ h

lemma ReadModel.Backed.mono (h : rm.Backed store) (hsub : store ⊆ store') : rm.Backed store' where
  row := fun o row hrow => (h.row o row hrow).mono (orderLog_subset hsub o)
  item := fun o p item hitem => (h.item o p item hitem).mono (orderLog_subset hsub o)
  total := h.total

lemma ReadModel.backed_empty (store : List Event) : ReadModel.empty.Backed store where
  row := by simp [view, empty]
  item := by simp [view, empty]
  total := fun o row hrow => by simp [view, empty] at hrow

/-- The order that an event creates is backed by it. -/
lemma OrderState.backed_created {c : Created} (he : e ∈ log) (hc : e.payload = .orderCreated c) :
    (OrderState.created c e.aggregateVersion).Backed log where
  created := ⟨e, he, c, hc, rfl, rfl⟩
  version := ⟨e, he, rfl⟩
  status := Or.inl rfl
  paymentId := by simp [OrderState.created]
  trackingId := by simp [OrderState.created]

/-- An event of the log keeps the columns backed. -/
lemma OrderState.Backed.apply (h : st.Backed log) (he : e ∈ log) : (st.apply e).Backed log := by
  obtain ⟨hcreated, hversion, hstatus, hpayment, htracking⟩ := h
  have hv : ∃ d ∈ log, d.aggregateVersion = e.aggregateVersion := ⟨e, he, rfl⟩
  have hs : ∀ status, e.status? = some status →
      status = OrderStatus.pending.value ∨ ∃ d ∈ log, d.status? = some status :=
    fun status hstatus => Or.inr ⟨e, he, hstatus⟩
  cases hp : e.payload with
  | orderCreated c =>
      rw [OrderState.apply, hp]
      exact ⟨hcreated, hversion, hstatus, hpayment, htracking⟩
  | orderItemAdded item =>
      rw [OrderState.apply, hp]
      exact ⟨hcreated, hv, hstatus, hpayment, htracking⟩
  | orderPaymentProcessed pay =>
      rw [OrderState.apply, hp]
      refine ⟨hcreated, hv, hs _ (by rw [Event.status?, hp]), fun p hpay => ?_, htracking⟩
      exact ⟨e, he, by rw [Event.paymentId?, hp]; exact congrArg some hpay⟩
  | orderShipped ship =>
      rw [OrderState.apply, hp]
      refine ⟨hcreated, hv, hs _ (by rw [Event.status?, hp]), hpayment, fun t hship => ?_⟩
      exact ⟨e, he, by rw [Event.trackingId?, hp]; exact congrArg some hship⟩
  | orderConfirmed _ | orderDelivered | orderCancelled _ _ =>
      rw [OrderState.apply, hp]
      exact ⟨hcreated, hv, hs _ (by rw [Event.status?, hp]), hpayment, htracking⟩

/-- An upsert keeps the columns of an item backed. -/
lemma ItemRow.Backed.merge (h : item.Backed log p) (he : e ∈ log) (hnew : e.itemRow? p = some new) :
    (item.merge new).Backed log p :=
  ⟨⟨e, he, new, hnew, rfl, rfl⟩, h.product⟩

/-- **The projection of a stored event keeps the rows backed.** -/
theorem ReadModel.Backed.project [Btree] (h : rm.Backed store) (he : e ∈ store)
    (hproject : projectToPostgres rm e = some rm') : rm'.Backed store := by
  have hmem : e ∈ orderLog store e.aggregateId := mem_orderLog.mpr ⟨he, rfl⟩
  refine ⟨fun o row hrow => ?_, fun o p item hitem => ?_, fun o => ?_⟩
  · by_cases ho : o = e.aggregateId
    · subst ho
      by_cases hold : e.aggregateId ∈ rm.orders
      · obtain ⟨old, hold⟩ := Option.isSome_iff_exists.mp (Finmap.lookup_isSome.mpr hold)
        obtain ⟨row', hrow', hstate, _⟩ := project_row hproject hold
        obtain rfl := Option.some.inj (hrow.symm.trans hrow')
        rw [hstate]
        exact (h.row _ _ hold).apply hmem
      · by_cases hc : ∃ c, e.payload = .orderCreated c
        · obtain ⟨c, hc⟩ := hc
          obtain ⟨row', hrow', hstate, _⟩ := project_created hproject hold hc
          obtain rfl := Option.some.inj (hrow.symm.trans hrow')
          rw [hstate]
          exact OrderState.backed_created hmem hc
        · push Not at hc
          obtain ⟨rfl, _⟩ := project_absent hproject hold hc
          exact h.row _ _ hrow
    · rw [project_frame hproject ho] at hrow
      exact h.row o row hrow
  · by_cases ho : o = e.aggregateId
    · subst ho
      rw [project_item hproject p] at hitem
      cases hnew : e.itemRow? p with
      | none =>
          rw [hnew] at hitem
          exact h.item _ p item hitem
      | some new =>
          rw [hnew, Option.elim_some, Option.some.injEq] at hitem
          rw [← hitem]
          cases hold : (rm.view e.aggregateId).items p with
          | none => exact ⟨⟨e, hmem, new, hnew, rfl, rfl⟩, ⟨e, hmem, new, hnew, rfl, rfl⟩⟩
          | some old => exact (h.item _ p old hold).merge hmem hnew
    · rw [project_frame hproject ho] at hitem
      exact h.item o p item hitem
  · by_cases ho : o = e.aggregateId
    · subst ho
      exact project_totalled hproject (h.total _)
    · have hview := project_frame hproject ho
      intro row hrow
      rw [hview] at hrow
      rw [ReadModel.sumLineTotal_congr (congrArg OrderView.items hview)]
      exact h.total o row hrow

end Backed

/-! ### What changes the tables -/

/-- **A move leaves the tables alone, or projects the event in the consumer's hands.** -/
lemma Pipeline.readModel_cases [Btree] {s t : Pipeline} {a : PipelineAction}
    (h : s.step a = some t) :
    t.readModel = s.readModel ∨ ∃ c, s.current = some c ∧
      projectToPostgres s.readModel c.event = some t.readModel := by
  have hcomplete : ∀ {c u}, s.current = some c → s.complete c = some u →
      u.readModel = s.readModel ∨ ∃ c, s.current = some c ∧
        projectToPostgres s.readModel c.event = some u.readModel := by
    intro c u hc hu
    by_cases hpc : c.pc = .project
    · obtain ⟨rm, hrm, rfl⟩ := complete_project hpc hu
      exact Or.inr ⟨c, hc, hrm⟩
    · exact Or.inl (complete_of_ne_project hpc hu).1
  cases a with
  | poll p =>
      obtain ⟨_, _, d, _, rfl⟩ := poll_cases h
      exact Or.inl rfl
  | complete =>
      obtain ⟨c, hc, hu⟩ := complete_cases h
      exact hcomplete hc hu
  | raise afterEffect error =>
      cases afterEffect with
      | true =>
          obtain ⟨c, u, hc, hu, rfl⟩ := raise_after_cases h
          rw [raise_readModel]
          exact hcomplete hc hu
      | false =>
          obtain ⟨c, _, rfl⟩ := raise_cases h
          exact Or.inl raise_readModel
  | crash | expire eventId =>
      obtain rfl := Option.some.inj h
      exact Or.inl rfl
  | retry i p outcome =>
      simp only [step, Option.bind_eq_bind, Option.bind_eq_some_iff] at h
      obtain ⟨_, _, m, _, h⟩ := h
      cases outcome with
      | deleted | notHandedOver | notDeleted =>
          obtain rfl := Option.some.inj h
          exact Or.inl (by simp)

namespace Platform

variable {partitioner : String → ℕ} {s t : Platform}

/-- So it is for the moves of the platform, and the event is stored. -/
lemma readModel_cases [Btree] {a : PlatformAction} (hs : s.Inv)
    (h : s.step partitioner a = some t) :
    t.loop.pipeline.readModel = s.loop.pipeline.readModel ∨ ∃ e ∈ s.write.store,
      projectToPostgres s.loop.pipeline.readModel e = some t.loop.pipeline.readModel := by
  cases a with
  | command a =>
      obtain ⟨_, _, hloop⟩ := command_cases h
      refine Or.inl (preserves_along
        (P := fun l : RetryLoop => l.pipeline.readModel = s.loop.pipeline.readModel)
        (C := fun _ a => ∃ p e, a = .produce p e) (fun {l b l'} hl hb hstep => ?_) rfl
        (along_of_forall (fun b hb _ => ?_) _) hloop)
      · obtain ⟨p, e, rfl⟩ := hb
        obtain ⟨_, rfl⟩ := RetryLoop.produce_cases hstep
        exact hl
      · obtain ⟨r, _, rfl⟩ := List.mem_map.mp hb
        exact ⟨_, _, rfl⟩
  | deliver a =>
      obtain ⟨ha, hloop, _, _⟩ := deliver_cases h
      cases a with
      | produce p e => exact ha.elim
      | consume a =>
          obtain ⟨_, hstep, _⟩ := RetryLoop.consume_cases hloop
          refine (Pipeline.readModel_cases hstep).imp_right fun ⟨c, hc, hproject⟩ => ?_
          exact ⟨c.event, hs.travels.current hc, hproject⟩
      | receive i =>
          obtain ⟨_, heq⟩ := RetryLoop.receive_cases hloop
          rw [heq]
          exact Or.inl rfl
      | handOver j p outcome =>
          obtain ⟨_, v, m, _, _, _, _, hcases⟩ := RetryLoop.handOver_cases hloop
          rcases hcases with ⟨_, heq, _⟩ | ⟨_, heq, _⟩ | ⟨_, heq, _⟩ <;>
            exact Or.inl (by simp [heq])
      | delete j outcome =>
          obtain ⟨v, _, _, heq⟩ := RetryLoop.delete_cases hloop
          rw [heq]
          exact Or.inl rfl
      | stop j =>
          rw [RetryLoop.stop_cases hloop]
          exact Or.inl rfl

/-- The store only grows. -/
lemma store_mono [Btree] {a : PlatformAction} (h : s.step partitioner a = some t) :
    s.write.store ⊆ t.write.store := by
  cases a with
  | command a => exact store_subset (command_cases h).1
  | deliver a =>
      rw [(deliver_cases h).2.2.1]
      exact List.Subset.refl _

lemma backed_step [Btree] {a : PlatformAction} (hs : s.Inv)
    (hbacked : s.loop.pipeline.readModel.Backed s.write.store)
    (h : s.step partitioner a = some t) :
    t.loop.pipeline.readModel.Backed t.write.store := by
  rcases readModel_cases hs h with heq | ⟨e, he, hproject⟩
  · rw [heq]
    exact hbacked.mono (store_mono h)
  · exact (hbacked.project he hproject).mono (store_mono h)

end Platform

/-! ### What is shown -/

section Shown

variable {partitioner : String → ℕ} {partitions : ℕ} {as : List PlatformAction} {s : Platform}

/-- The invariant of the platform and the tables behind it, along every run. -/
lemma backed_run [Btree]
    (hrun : run (Platform.step partitioner) (.init partitions .empty) as = some s) :
    s.Inv ∧ s.loop.pipeline.readModel.Backed s.write.store :=
  run_preserves (P := fun s => s.Inv ∧ s.loop.pipeline.readModel.Backed s.write.store)
    (fun hs hstep => ⟨Platform.inv_step hs.1 hstep, Platform.backed_step hs.1 hs.2 hstep⟩)
    ⟨Platform.inv_init partitions .empty, ReadModel.backed_empty _⟩ hrun

/-- **The rows are backed by the event store**: in every state of the platform, whatever fails and
as long as no document is deleted, every column of a row has been written by a stored event of its
order, every total is the sum of the lines, and the version is one of the log. -/
theorem rows_backed [Btree]
    (hrun : run (Platform.step partitioner) (.init partitions .empty) as = some s) :
    s.loop.pipeline.readModel.Backed s.write.store ∧
      ∀ o row, s.loop.pipeline.readModel.orders.lookup o = some row →
        LegalLog o (orderLog s.write.store o) ∧ 1 ≤ row.version.val ∧
          row.version.val ≤ (orderLog s.write.store o).length := by
  obtain ⟨hinv, hbacked⟩ := backed_run hrun
  refine ⟨hbacked, fun o row hrow => ?_⟩
  obtain ⟨e, he, hversion⟩ := (hbacked.row o row hrow).version
  have hlegal := (hinv.write.legal o).resolve_left (List.ne_nil_of_mem he)
  obtain ⟨k, hk⟩ := List.mem_iff_getElem?.mp he
  have hkth := hlegal.version_getElem? hk
  have hlt := (List.getElem?_eq_some_iff.mp hk).1
  have hval : row.version.val = (k : ℤ) + 1 := hversion.symm.trans hkth
  refine ⟨hlegal, ?_, ?_⟩ <;> omega

/-- A stored payment has been charged. -/
lemma charge_of_stored {cs : List Action} {w : State} (hrun : run step .init cs = some w)
    {e : Event} (he : e ∈ w.store) {pay : PaymentProcessed}
    (hpay : e.payload = .orderPaymentProcessed pay) :
    (⟨e.aggregateId, pay.paymentId, pay.amount⟩ : Charge) ∈ w.charges := by
  rw [(ledger_run hrun).mem_iff, List.mem_filterMap]
  refine ⟨e, mem_builtEvents.mpr ((writeInv_run hrun).stored e he), ?_⟩
  rw [Event.charge?, hpay]
  rfl

lemma payment_of_eventType {e : Event} (h : e.eventType = .orderPaymentProcessed) :
    ∃ pay, e.payload = .orderPaymentProcessed pay := by
  rw [Event.eventType] at h
  cases hp : e.payload with
  | orderPaymentProcessed pay => exact ⟨pay, rfl⟩
  | _ => simp [hp, Payload.eventType] at h

/-- An order with a shipment in its log has a payment in it. -/
lemma LegalLog.exists_payment {o : String} {log : List Event} (h : LegalLog o log)
    (hno : ∀ e ∈ log, e.payload ≠ .orderDelivered) {e : Event} (he : e ∈ log)
    (hshipped : e.eventType = .orderShipped) :
    ∃ d ∈ log, ∃ pay, d.payload = .orderPaymentProcessed pay := by
  obtain ⟨items, stage, cancels, hstage, hitems, hcancels, hword, _⟩ := h.word hno
  have hlifecycle : LifecycleWord (log.map (·.eventType)) :=
    ⟨items, stage, cancels, hstage, hitems, hcancels, hword⟩
  obtain ⟨d, hd, htype⟩ := List.mem_map.mp
    (hlifecycle.paid_of_shipped (List.mem_map.mpr ⟨e, he, hshipped⟩))
  exact ⟨d, hd, payment_of_eventType htype⟩

/-- The type of the events that lead to a status. -/
def OrderStatus.eventType : OrderStatus → EventType
  | pending => .orderCreated
  | confirmed => .orderConfirmed
  | paid => .orderPaymentProcessed
  | shipped => .orderShipped
  | delivered => .orderDelivered
  | cancelled => .orderCancelled

/-- A status that an event writes is that of its type. -/
lemma eventType_of_status {e : Event} {st : OrderStatus} (h : e.status? = some st.value) :
    e.eventType = st.eventType := by
  rw [Event.status?] at h
  rw [Event.eventType]
  cases hp : e.payload <;> cases st <;> simp [hp, OrderStatus.value] at h <;> rfl

/-- A status that is shown goes back to an event of its type. -/
lemma OrderState.Backed.exists_event {log : List Event} {st : OrderState} (h : st.Backed log)
    {status : OrderStatus} (hne : status ≠ .pending) (hstatus : st.status = status.value) :
    ∃ e ∈ log, e.eventType = status.eventType := by
  rcases h.status with hpending | ⟨e, he, hwrote⟩
  · rw [hstatus] at hpending
    cases status <;> simp [OrderStatus.value] at hpending hne
  · rw [hstatus] at hwrote
    exact ⟨e, he, eventType_of_status hwrote⟩

/-- **What is shown as paid has been charged**: a payment id that a row shows is that of a charge of
the order that the gateway accepted, a row is shown as paid or shipped only for orders that were
charged, and no row is ever shown as delivered. -/
theorem shown_paid [Btree]
    (hrun : run (Platform.step partitioner) (.init partitions .empty) as = some s) {o : String}
    {row : OrderRow} (hrow : s.loop.pipeline.readModel.orders.lookup o = some row) :
    (∀ p, row.paymentId = some p →
      ∃ c ∈ s.write.charges, c.orderId = o ∧ c.paymentId = p.val) ∧
      (row.status.val = OrderStatus.paid.value ∨ row.status.val = OrderStatus.shipped.value →
        ∃ c ∈ s.write.charges, c.orderId = o) ∧
      row.status.val ≠ OrderStatus.delivered.value := by
  obtain ⟨hinv, hbacked⟩ := backed_run hrun
  have hst := hbacked.row o row hrow
  obtain ⟨d, hd, _⟩ := hst.version
  have hlog := (hinv.write.legal o).resolve_left (List.ne_nil_of_mem hd)
  obtain ⟨cs, hcs⟩ := Platform.write_run hrun
  have hno := stored_notDelivered hcs
  have hcharged : ∀ e ∈ orderLog s.write.store o, ∀ pay, e.payload = .orderPaymentProcessed pay →
      ∃ c ∈ s.write.charges, c.orderId = o ∧ c.paymentId = pay.paymentId := by
    intro e he pay hpay
    obtain ⟨hmem, ho⟩ := mem_orderLog.mp he
    exact ⟨_, charge_of_stored hcs hmem hpay, ho, rfl⟩
  refine ⟨fun p hp => ?_, fun hstatus => ?_, fun hstatus => ?_⟩
  · obtain ⟨e, he, hid⟩ := hst.paymentId p.val (by rw [OrderRow.state, hp]; rfl)
    rw [Event.paymentId?] at hid
    cases hpay : e.payload with
    | orderPaymentProcessed pay =>
        obtain ⟨c, hc, ho, hcid⟩ := hcharged e he pay hpay
        rw [hpay, Option.some.injEq, Option.some.injEq] at hid
        exact ⟨c, hc, ho, hcid.trans hid⟩
    | _ => simp [hpay] at hid
  · obtain ⟨e, he, pay, hpay⟩ : ∃ e ∈ orderLog s.write.store o, ∃ pay,
        e.payload = .orderPaymentProcessed pay := by
      rcases hstatus with hpaid | hshipped
      · obtain ⟨e, he, htype⟩ := hst.exists_event (by decide) hpaid
        exact ⟨e, he, payment_of_eventType htype⟩
      · obtain ⟨e, he, htype⟩ := hst.exists_event (by decide) hshipped
        exact hlog.exists_payment (fun e he => hno e (mem_orderLog.mp he).1) he htype
    obtain ⟨c, hc, ho, _⟩ := hcharged e he pay hpay
    exact ⟨c, hc, ho⟩
  · obtain ⟨e, he, htype⟩ := hst.exists_event (by decide) hstatus
    refine hno e (mem_orderLog.mp he).1 ?_
    rw [Event.eventType] at htype
    cases hp : e.payload with
    | orderDelivered => rfl
    | _ => simp [hp, Payload.eventType, OrderStatus.eventType] at htype

end Shown

/-- The consumer handles the four events of a paid order. -/
def shownRun : List PlatformAction :=
  paidSchedule.map .command ++ consumes 5 ++ consumes 5 ++ consumes 5 ++ consumes 5

lemma shownRun_row : ∃ s row,
    run (Platform.step fun _ => 0) (.init 1 .empty) shownRun = some s ∧
      s.loop.pipeline.readModel.orders.lookup "order-0" = some row ∧
        row.status.val = OrderStatus.paid.value := by
  have heval : ((run (Platform.step fun _ => 0) (.init 1 .empty) shownRun).any fun s =>
      decide ((s.loop.pipeline.readModel.orders.lookup "order-0").map (·.status.val) =
        some OrderStatus.paid.value)) = true := by
    decide +kernel
  obtain ⟨s, hrun, hrow⟩ := exists_run_of_eval heval
  obtain ⟨row, hrow, hstatus⟩ := Option.map_eq_some_iff.mp hrow
  exact ⟨s, row, hrun, hrow, hstatus⟩

theorem shownRun_backed : ∃ s : Platform, ∃ row : OrderRow,
    s.loop.pipeline.readModel.orders.lookup "order-0" = some row ∧
      row.state.Backed (orderLog s.write.store "order-0") := by
  obtain ⟨s, row, hrun, hrow, _⟩ := shownRun_row
  exact ⟨s, row, hrow, (rows_backed hrun).1.row _ row hrow⟩

theorem shownRun_charged : ∃ s : Platform, ∃ row : OrderRow,
    s.loop.pipeline.readModel.orders.lookup "order-0" = some row ∧
      row.status.val = OrderStatus.paid.value ∧ ∃ c ∈ s.write.charges, c.orderId = "order-0" := by
  obtain ⟨s, row, hrun, hrow, hstatus⟩ := shownRun_row
  exact ⟨s, row, hrow, hstatus, (shown_paid hrun hrow).2.1 (Or.inl hstatus)⟩

end OrderCqrs
