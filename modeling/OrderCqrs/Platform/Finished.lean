import OrderCqrs.Platform.System

/-!
Finished orders: only they are scheduled for pruning.

* `LegalLog.finished`: a legal log with a terminal event rebuilds to a terminal status, which is
  absorbing (`cancelled_of_allows`).
* `Finished`: what it means for an order to be finished, for its stored log, for its status, and for
  the commands that would change it, at their start or in flight.
* `flagged_finished`: **only the events of finished orders carry `expires_at`**.
-/

namespace OrderCqrs

open Runs

/-! ### Terminal statuses -/

/-- The status of an order that has ended. -/
def OrderStatus.Ended (s : OrderStatus) : Prop := s = .cancelled ∨ s = .delivered

/-- An ended order allows nothing but a cancellation. -/
lemma cancelled_of_allows {agg : OrderAggregate} {payload : Payload} (hend : agg.status.Ended)
    (hallow : agg.allows payload) : payload.eventType = .orderCancelled := by
  have hstep := OrderAggregate.statusStep hallow
  generalize agg.status = a, payload.eventType = t, (agg.applyPayload payload).status = b at *
  rcases hend with rfl | rfl <;> cases hstep <;> rfl

/-- A terminal event ends the order. -/
lemma ended_of_terminal {agg : OrderAggregate} {e : Event} (hterm : e.Terminal) :
    (agg.apply e).status.Ended := by
  rw [Event.Terminal, Event.eventType] at hterm
  rw [OrderAggregate.apply]
  cases hp : e.payload with
  | orderDelivered => exact Or.inr rfl
  | orderCancelled reason ts => exact Or.inl rfl
  | _ => simp [hp, Payload.eventType] at hterm

/-- **A legal log with a terminal event rebuilds to an ended order.** -/
lemma LegalLog.finished {o : String} {log : List Event} (h : LegalLog o log) {e : Event}
    (he : e ∈ log) (hterm : e.Terminal) : (replay o log).status.Ended := by
  induction h with
  | created _ _ hc =>
      rw [List.mem_singleton.mp he, Event.Terminal, Event.eventType, hc] at hterm
      simp [Payload.eventType] at hterm
  | append _ _ _ hallow ih =>
      rw [replay_concat]
      rcases List.mem_append.mp he with he | he
      · have htype := cancelled_of_allows (ih he) hallow
        exact ended_of_terminal (Or.inr htype)
      · rw [List.mem_singleton.mp he] at hterm
        exact ended_of_terminal hterm

/-! ### Finished orders -/

/-- The command would go on with the order. -/
def Command.Continues (o : String) : Command → Prop
  | addItem o' _ | confirmOrder o' | processPayment o' _ | shipOrder o' _ => o' = o
  | createOrder _ | cancelOrder _ _ => False

/-- **The order is finished.** -/
structure Finished (s : State) (o : String) : Prop where
  /-- Its stored log has a terminal event. -/
  terminal : ∃ e ∈ getEvents s.store o, e.Terminal
  /-- Its rebuilt status is terminal. -/
  status : ∃ agg, loadAggregate s.store o = .ok agg ∧ agg.status.Ended
  /-- A command that would go on with it is rejected when it loads the order. -/
  rejected : ∀ cmd : Command, cmd.Continues o → ∀ d, ∃ message,
    cmd.begin s.toShared d = .failed none (.valueError message)
  /-- A command that has validated an earlier state of it fails with a version conflict. -/
  conflict : ∀ h ∈ s.handlers, ∀ b, h.pc = .append b → b.event.aggregateId = o →
    b.event.eventType ≠ .orderCancelled →
    EventStore.append s.store b.event = .error (versionConflict b.event)
  /-- Nothing but cancellations is ever stored for it from here on. -/
  closed : ∀ cs t, run step s cs = some t → ∀ e ∈ t.store, e ∉ s.store → e.aggregateId = o →
    e.eventType = .orderCancelled

section Orders

variable {s : State} {o : String} {e : Event}

/-- An insert for an order with a terminal event is a cancellation. -/
lemma cancelled_of_insert (hs : WriteInv s) (he : e ∈ s.store) (hagg : e.aggregateId = o)
    (hterm : e.Terminal) {h : Handler} (hmem : h ∈ s.handlers) {b : Built} (hpc : h.pc = .append b)
    (hfree : ∀ d ∈ s.store, ¬ DuplicateKey b.event d) (ho : b.event.aggregateId = o) :
    b.event.eventType = .orderCancelled := by
  have hin : e ∈ orderLog s.store b.event.aggregateId :=
    mem_orderLog.mpr ⟨he, hagg.trans ho.symm⟩
  have hlegal := hs.legal_concat hmem hpc hfree
  obtain ⟨hlog, _, hallow⟩ := hlegal.of_concat (List.ne_nil_of_mem hin)
  exact cancelled_of_allows (hlog.finished hin hterm) hallow

/-- An order with a stored terminal event is finished. -/
theorem finished_of_terminal (hs : WriteInv s) (he : e ∈ s.store) (hagg : e.aggregateId = o)
    (hterm : e.Terminal) : Finished s o := by
  have hin : e ∈ orderLog s.store o := mem_orderLog.mpr ⟨he, hagg⟩
  have hlegal := (hs.legal o).resolve_left (List.ne_nil_of_mem hin)
  have hload := loadAggregate_of_legal hlegal
  have hend := hlegal.finished hin hterm
  refine ⟨?_, ⟨_, hload, hend⟩, ?_, ?_, ?_⟩
  · rw [getEvents_eq_orderLog hlegal.versionSorted]
    exact ⟨e, hin, hterm⟩
  · have hne : ∀ st : OrderStatus, st ≠ .cancelled → st ≠ .delivered →
        (replay o (orderLog s.store o)).status ≠ st := by
      rintro st hc hd rfl
      rcases hend with h | h
      · exact hc h
      · exact hd h
    intro cmd hcmd d
    cases cmd with
    | addItem o' req =>
        obtain rfl : o' = o := hcmd
        rw [Command.begin, hload]
        simp only [bind, Except.bind, addItem, OrderAggregate.assertCanAddItem,
          if_pos (hne .pending (by decide) (by decide))]
        exact ⟨_, rfl⟩
    | confirmOrder o' =>
        obtain rfl : o' = o := hcmd
        rw [Command.begin, hload]
        simp only [bind, Except.bind, confirmOrder, OrderAggregate.assertCanConfirm,
          if_pos (hne .pending (by decide) (by decide))]
        split_ifs
        · exact ⟨_, rfl⟩
        · exact ⟨_, rfl⟩
    | processPayment o' req =>
        obtain rfl : o' = o := hcmd
        rw [Command.begin, hload]
        simp only [bind, Except.bind, processPayment, OrderAggregate.assertCanPay,
          if_pos (hne .confirmed (by decide) (by decide))]
        exact ⟨_, rfl⟩
    | shipOrder o' req =>
        obtain rfl : o' = o := hcmd
        rw [Command.begin, hload]
        simp only [bind, Except.bind, shipOrder, OrderAggregate.assertCanShip,
          if_pos (hne .paid (by decide) (by decide))]
        exact ⟨_, rfl⟩
    | createOrder _ | cancelOrder _ _ => exact hcmd.elim
  · intro h hmem b hpc ho htype
    refine EventStore.append_eq_error.mpr ⟨?_, rfl⟩
    by_contra hfree
    push Not at hfree
    exact htype (cancelled_of_insert hs he hagg hterm hmem hpc hfree ho)
  · intro cs t hrun
    have hinv : WriteInv t ∧ e ∈ t.store ∧ ∀ e' ∈ t.store, e' ∉ s.store → e'.aggregateId = o →
        e'.eventType = .orderCancelled := by
      refine run_preserves (P := fun t => WriteInv t ∧ e ∈ t.store ∧ ∀ e' ∈ t.store, e' ∉ s.store →
        e'.aggregateId = o → e'.eventType = .orderCancelled) (fun {u a v} hu hstep => ?_)
        ⟨hs, he, fun e' he' hnot => absurd he' hnot⟩ hrun
      obtain ⟨hw, hin', hold⟩ := hu
      refine ⟨writeInv_step hw hstep, store_subset hstep hin', fun e' he' hnot ho => ?_⟩
      rcases store_step hstep with hstore | ⟨h, hmem, b, hpc, hfree, hstore⟩
      · exact hold e' (hstore ▸ he') hnot ho
      · rw [hstore] at he'
        rcases List.mem_append.mp he' with he' | he'
        · exact hold e' he' hnot ho
        · rw [List.mem_singleton.mp he'] at ho ⊢
          exact cancelled_of_insert hw hin' hagg hterm hmem hpc hfree ho
    exact hinv.2.2

end Orders

/-- **Only finished orders are scheduled for pruning**: in every state the handlers, the consumer
and the Lambda can reach in any interleaving, an event that carries `expires_at` belongs to a
finished order. -/
theorem flagged_finished [Btree] {partitioner : String → ℕ} {partitions : ℕ} {rm : ReadModel}
    {as : List PlatformAction} {s : Platform}
    (hrun : run (Platform.step partitioner) (.init partitions rm) as = some s) :
    ∀ e ∈ s.write.store, e.eventId ∈ s.expiresAt → Finished s.write e.aggregateId := by
  have hs := Platform.inv_run hrun
  intro e he hflag
  obtain ⟨e', he', hid, d, hd, hagg, hterm⟩ := hs.flagged e.eventId hflag
  obtain rfl := hs.write.eq_of_eventId_eq he' he hid
  exact finished_of_terminal hs.write hd hagg hterm

/-- The consumer takes the next record and handles it in `n` calls. -/
def consumes (n : ℕ) : List PlatformAction :=
  .deliver (.consume (.poll 0)) ::
    List.replicate n (.deliver (.consume .complete))

/-- An order is created and cancelled. -/
def cancelSchedule : List Action :=
  [.request (.createOrder ⟨"cust-1", "a@test.com", "key-1"⟩)] ++ returns 0 0 6 ++
    [.request (.cancelOrder "order-0" ⟨"changed my mind"⟩)] ++ returns 1 6 5

/-- The consumer handles both its events. -/
def cancelledRun : List PlatformAction :=
  cancelSchedule.map .command ++ consumes 5 ++ consumes 6

theorem cancelledRun_finished : ∃ s e,
    run (Platform.step fun _ => 0) (.init 1 .empty) cancelledRun = some s ∧ e ∈ s.write.store ∧
      e.eventType = .orderCreated ∧ e.eventId ∈ s.expiresAt ∧
      Finished s.write e.aggregateId := by
  have heval : ((run (Platform.step fun _ => 0) (.init 1 .empty) cancelledRun).any fun s =>
      decide (∃ e ∈ s.write.store, e.eventType = .orderCreated ∧ e.eventId ∈ s.expiresAt)) =
        true := by
    decide +kernel
  obtain ⟨s, hrun, e, he, htype, hflag⟩ := exists_run_of_eval heval
  exact ⟨s, e, hrun, he, htype, hflag, flagged_finished hrun e he hflag⟩

end OrderCqrs
