import OrderCqrs.Command.Idempotency
import OrderCqrs.Platform.Finished

/-!
What happens to an order after its cancellation, as long as nothing is pruned.

* `CancelsLive`: the condition on a step: no `cancel_order` loads an order that is cancelled
  already.  Its guard is the only one that lets such an order pass.
* `StaysCancelled`: what it means for the cancellation to be final.
* `NoneAccepted`: the invariant that carries it: no handler has validated its command against a
  cancelled order.
* `cancelled_terminal_iff`: **when cancellations are final**: precisely along the runs that meet the
  condition.
* `cancelled_twice`: a second cancellation, accepted and stored.
-/

namespace OrderCqrs

open Runs

/-- An `ORDER_CANCELLED` of the order is stored. -/
def State.Cancelled (s : State) (o : String) : Prop :=
  ∃ e ∈ s.store, e.aggregateId = o ∧ e.eventType = .orderCancelled

/-- The step is not the load of a `cancel_order` that finds its order cancelled. -/
def CancelsLive (s : State) : Action → Prop
  | .await i .completes _ => ∀ (h : Handler) o req, s.handlers[i]? = some h → h.pc = .start →
      h.command = .cancelOrder o req → ¬ s.Cancelled o
  | _ => True

/-- **The order, cancelled in `t`, is left as it is up to `s`**: its log is the same, and no command
on it that had not loaded it in `t` has got past its guard. -/
structure StaysCancelled (t s : State) (o : String) : Prop where
  log : orderLog s.store o = orderLog t.store o
  rejected : ∀ (j : ℕ) (h : Handler), s.handlers[j]? = some h → h.command.orderId? = some o →
    (∀ h₀ : Handler, t.handlers[j]? = some h₀ → h₀.pc = .start) →
    h.pc = .start ∨ ∃ err, h.pc = .failed none err

/-! ### Cancelled orders -/

section State

variable {s t : State} {a : Action} {o : String}

/-- The order a handler has loaded is cancelled exactly if its cancellation is stored. -/
lemma WriteInv.cancelled_iff (hs : WriteInv s) {agg : OrderAggregate}
    (hload : loadAggregate s.store o = .ok agg) : agg.status = .cancelled ↔ s.Cancelled o := by
  obtain ⟨hlegal, rfl⟩ := hs.load_eq hload
  rw [hlegal.cancelled]
  constructor
  · rintro ⟨e, he, htype⟩
    obtain ⟨he, ho⟩ := mem_orderLog.mp he
    exact ⟨e, he, ho, htype⟩
  · rintro ⟨e, he, ho, htype⟩
    exact ⟨e, mem_orderLog.mpr ⟨he, ho⟩, htype⟩

/-- A cancelled order has a legal log. -/
lemma State.Cancelled.legal (hc : s.Cancelled o) (hs : WriteInv s) :
    LegalLog o (orderLog s.store o) := by
  obtain ⟨e, he, ho, _⟩ := hc
  exact (hs.legal o).resolve_left (List.ne_nil_of_mem (mem_orderLog.mpr ⟨he, ho⟩))

lemma State.Cancelled.mono (hc : s.Cancelled o) (hstep : step s a = some t) : t.Cancelled o := by
  obtain ⟨e, he, horder⟩ := hc
  exact ⟨e, store_subset hstep he, horder⟩

/-! ### The invariant -/

/-- No handler has validated its command against a cancelled order. -/
def NoneAccepted (s : State) : Prop :=
  ∀ h ∈ s.handlers, ∀ b agg, h.pc.built = some b → b.agg = some agg → agg.status ≠ .cancelled

/-- **A step that meets the condition accepts nothing for a cancelled order.** -/
lemma noneAccepted_step (hs : WriteInv s) (hnone : NoneAccepted s) (hC : CancelsLive s a)
    (hstep : step s a = some t) : NoneAccepted t := by
  intro g hg b agg hb hagg hstatus
  rcases mem_handlers_cases hstep hg with
    hold | hstart | ⟨i, oc, d, h, sh, pc, rfl, hget, hawait, _, rfl⟩
  · exact hnone g hold b agg hb hagg hstatus
  · simp [hstart, Pc.built] at hb
  · have hmem := List.mem_of_getElem? hget
    rcases await_built hawait hb with hb | ⟨hpc, rfl, hb⟩ | ⟨o, req, agg', hpc, hcmd, rfl⟩
    · exact hnone h hmem b agg hb hagg hstatus
    · generalize hcmd : h.command = cmd at hb
      cases hb with
      | createOrder => simp at hagg
      | addItem _ hok =>
          obtain rfl := Option.some.inj hagg
          simp [OrderAggregate.assertCanAddItem_eq_ok.mp hok] at hstatus
      | confirmOrder _ hok =>
          obtain rfl := Option.some.inj hagg
          simp [(OrderAggregate.assertCanConfirm_eq_ok.mp hok).2] at hstatus
      | shipOrder _ hok =>
          obtain rfl := Option.some.inj hagg
          simp [OrderAggregate.assertCanShip_eq_ok.mp hok] at hstatus
      | cancelOrder hload _ =>
          -- only this guard lets a cancelled order pass
          obtain rfl := Option.some.inj hagg
          exact hC h _ _ hget hpc hcmd ((hs.cancelled_iff hload).mp hstatus)
    · obtain rfl := Option.some.inj hagg
      have hpay := (hs.charging h hmem _ _ _ hpc hcmd).2
      simp [OrderAggregate.assertCanPay_eq_ok.mp hpay] at hstatus

/-- **A step leaves the log of a cancelled order alone** while no handler has validated its command
against it. -/
lemma cancelled_log_step (hs : WriteInv s) (hnone : NoneAccepted s) (hc : s.Cancelled o)
    (hstep : step s a = some t) : orderLog t.store o = orderLog s.store o := by
  rcases store_step hstep with hstore | ⟨h, hmem, b, hpc, hfree, hstore⟩
  · rw [hstore]
  · rw [hstore]
    by_cases ho : b.event.aggregateId = o
    · -- the event would have been validated against the cancelled order
      subst ho
      have hb : h.pc.built = some b := by
        rw [hpc]
        rfl
      have hlog := hc.legal hs
      cases hagg : b.agg with
      | none =>
          have hnil := (hs.pending h hmem b hpc).2 hagg
          exact absurd hnil hlog.ne_nil
      | some agg =>
          obtain ⟨_, hag⟩ := hs.eq_of_pending (hs.valid h hmem b hb) hagg hfree
          refine absurd ?_ (hnone h hmem b agg hb hagg)
          rw [hag]
          exact (hs.cancelled_iff (loadAggregate_of_legal hlog)).mpr hc
    · exact orderLog_concat_of_ne ho

/-- A command on a cancelled order is rejected when it loads it, unless it is a cancellation. -/
lemma rejected_at_load (hs : WriteInv s) (hc : s.Cancelled o) {cmd : Command}
    (hcmd : cmd.orderId? = some o) (hlive : ∀ req, cmd ≠ .cancelOrder o req) (d : Draw) :
    ∃ message, cmd.begin s.toShared d = .failed none (.valueError message) := by
  obtain ⟨e, he, ho, htype⟩ := hc
  refine (finished_of_terminal hs he ho (Or.inr htype)).rejected cmd ?_ d
  cases cmd with
  | createOrder req => simp [Command.orderId?] at hcmd
  | cancelOrder o' req =>
      obtain rfl := Option.some.inj hcmd
      exact absurd rfl (hlive req)
  | _ => exact Option.some.inj hcmd

/-- **A step that meets the condition lets no command on a cancelled order pass its guard.** -/
lemma rejected_step (hs : WriteInv s) (hc : s.Cancelled o) (hC : CancelsLive s a)
    (hstep : step s a = some t) {j : ℕ} {h' : Handler} (hget' : t.handlers[j]? = some h')
    (hcmd : h'.command.orderId? = some o)
    (hbefore : ∀ h : Handler, s.handlers[j]? = some h →
      h.pc = .start ∨ ∃ err, h.pc = .failed none err) :
    h'.pc = .start ∨ ∃ err, h'.pc = .failed none err := by
  cases a with
  | request cmd =>
      obtain rfl := Option.some.inj hstep
      rcases ListTables.getElem?_concat_cases hget' with hget' | rfl
      · exact hbefore h' hget'
      · exact Or.inl rfl
  | expire key =>
      obtain rfl := Option.some.inj hstep
      exact hbefore h' hget'
  | await i oc d =>
      obtain ⟨_, h, sh, pc, hget, hawait, rfl⟩ := step_await_eq hstep
      rcases getElem?_set_cases hget' with ⟨rfl, rfl⟩ | ⟨_, hget'⟩
      · rcases hbefore h hget with hpc | ⟨err, hpc⟩
        · cases oc with
          | completes =>
              have hlive : ∀ req, h.command ≠ .cancelOrder o req := fun req heq =>
                hC h o req hget hpc heq hc
              obtain ⟨message, hbegin⟩ := rejected_at_load hs hc hcmd hlive d
              simp only [Handler.await, Handler.complete, hpc, Option.some.injEq,
                Prod.mk.injEq] at hawait
              exact Or.inr ⟨_, hawait.2.symm.trans hbegin⟩
          | raises | raisesAfterEffect =>
              simp only [Handler.await, Handler.complete, Handler.interrupt, hpc, Option.map_some,
                Option.bind_eq_bind, Option.bind_some, Option.pure_def, Option.some.injEq,
                Prod.mk.injEq] at hawait
              exact Or.inr ⟨_, hawait.2.symm⟩
        · have hend := (await_move hawait).not_ended
          rw [hpc] at hend
          exact absurd trivial hend
      · exact hbefore h' hget'

/-- A `cancel_order` that loads its cancelled order passes its guard. -/
lemma accepted_of_cancelled (hs : WriteInv s) (hC : ¬ CancelsLive s a) (hstep : step s a = some t) :
    ∃ (i : ℕ) (h : Handler) (o : String) (req : CancelOrderRequest) (b : Built),
      s.handlers[i]? = some h ∧ h.pc = .start ∧ h.command = .cancelOrder o req ∧ s.Cancelled o ∧
      t.handlers[i]? = some { h with pc := .append b } := by
  cases a with
  | request cmd => exact absurd trivial hC
  | expire key => exact absurd trivial hC
  | await i oc d =>
      cases oc with
      | raises | raisesAfterEffect => exact absurd trivial hC
      | completes =>
          rw [CancelsLive] at hC
          push Not at hC
          obtain ⟨h, o, req, hget, hpc, hcmd, hc⟩ := hC
          obtain ⟨_, h', sh, pc, hget', hawait, rfl⟩ := step_await_eq hstep
          obtain rfl := Option.some.inj (hget.symm.trans hget')
          have hload := loadAggregate_of_legal (hc.legal hs)
          have hok : (replay o (orderLog s.store o)).assertCanCancel = .ok () := by
            have hstatus := (hs.cancelled_iff hload).mpr hc
            simp [OrderAggregate.assertCanCancel, hstatus]
          have hpassed : h.command.begin s.toShared d =
              .append ⟨some (replay o (orderLog s.store o)), orderCancelledEvent d.stamp o
                ((replay o (orderLog s.store o)).version + 1) req.reason⟩ := by
            rw [hcmd, Command.begin, hload]
            simp only [bind, Except.bind, cancelOrder, hok]
            rfl
          simp only [Handler.await, Handler.complete, hpc, hpassed, Option.some.injEq,
            Prod.mk.injEq] at hawait
          obtain ⟨rfl, rfl⟩ := hawait
          exact ⟨i, h, o, req, _, hget, hpc, hcmd, hc,
            List.getElem?_set_self (List.getElem?_eq_some_iff.mp hget).1⟩

end State

/-! ### Runs -/

section Runs

variable {s t : State} {as : List Action} {o : String}

/-- What a run after a cancellation keeps, when its steps meet the condition. -/
structure CancelledInv (t s : State) (o : String) : Prop where
  write : WriteInv s
  noneAccepted : NoneAccepted s
  cancelled : s.Cancelled o
  stays : StaysCancelled t s o

lemma cancelledInv_step {u v : State} {a : Action} (hu : CancelledInv t u o) (hC : CancelsLive u a)
    (hstep : step u a = some v) : CancelledInv t v o where
  write := writeInv_step hu.write hstep
  noneAccepted := noneAccepted_step hu.write hu.noneAccepted hC hstep
  cancelled := hu.cancelled.mono hstep
  stays := by
    refine ⟨?_, fun j h hget hcmd hstart => ?_⟩
    · rw [cancelled_log_step hu.write hu.noneAccepted hu.cancelled hstep]
      exact hu.stays.log
    · refine rejected_step hu.write hu.cancelled hC hstep hget hcmd fun h₁ hget₁ => ?_
      obtain ⟨h₂, hget₂, hcmd₂, _⟩ := handler_persists hstep hget₁
      obtain rfl := Option.some.inj (hget.symm.trans hget₂)
      exact hu.stays.rejected j h₁ hget₁ (hcmd₂ ▸ hcmd) hstart

/-- **When cancellations are final**: precisely along the runs in which no `cancel_order` loads an
order that is cancelled already. -/
theorem cancelled_terminal_iff (hrun : run step State.init as = some s) :
    (∀ pre post t o, as = pre ++ post → run step State.init pre = some t → t.Cancelled o →
      StaysCancelled t s o) ↔ Along step CancelsLive State.init as := by
  constructor
  · intro hstays
    by_contra hnot
    obtain ⟨pre, a, post, u, v, rfl, hpre, hC, hstep, hpost⟩ := exists_of_not_along hrun hnot
    obtain ⟨i, h, o, req, b, hget, hpc, hcmd, hc, hget'⟩ :=
      accepted_of_cancelled (writeInv_run hpre) hC hstep
    -- the handler that has passed keeps what it has built
    have hkept : ∃ h', s.handlers[i]? = some h' ∧ h'.command = h.command ∧
        h'.pc.built = some b := by
      refine run_preserves (P := fun w => ∃ h', w.handlers[i]? = some h' ∧
        h'.command = h.command ∧ h'.pc.built = some b) ?_ ⟨_, hget', rfl, rfl⟩ hpost
      rintro w a' w' ⟨h₁, hget₁, hcmd₁, hb₁⟩ hstep'
      obtain ⟨h₂, hget₂, hcmd₂, hb₂⟩ := handler_persists hstep' hget₁
      exact ⟨h₂, hget₂, hcmd₂.trans hcmd₁, hb₂ b hb₁⟩
    obtain ⟨h', hget', hcmd', hb⟩ := hkept
    have hrejected := (hstays pre (a :: post) u o rfl hpre hc).rejected i h' hget'
      (by rw [hcmd', hcmd]; rfl) fun h₀ hget₀ => by
        rw [← Option.some.inj (hget.symm.trans hget₀)]
        exact hpc
    rcases hrejected with hpc' | ⟨err, hpc'⟩ <;> simp [hpc', Pc.built] at hb
  · rintro halong pre post t o rfl hpre hc
    obtain ⟨halong₁, halong₂⟩ := (along_append hpre).mp halong
    obtain ⟨t', hpre', hpost⟩ := (run_append_eq_some _).mp hrun
    obtain rfl := Option.some.inj (hpre.symm.trans hpre')
    have hwrite := writeInv_run hpre
    have hnone : WriteInv t ∧ NoneAccepted t :=
      preserves_along (P := fun u => WriteInv u ∧ NoneAccepted u)
        (fun hu hC hstep => ⟨writeInv_step hu.1 hstep, noneAccepted_step hu.1 hu.2 hC hstep⟩)
        ⟨writeInv_init, by simp [NoneAccepted, State.init]⟩ halong₁ hpre
    have hstart : CancelledInv t t o :=
      ⟨hwrite, hnone.2, hc, rfl, fun j h hget _ hbefore => Or.inl (hbefore h hget)⟩
    exact (preserves_along (fun hu hC hstep => cancelledInv_step hu hC hstep) hstart halong₂
      hpost).stays

end Runs

/-! ### Two cancellations -/

theorem cancelSchedule_terminal : ∃ s, run step State.init cancelSchedule = some s ∧
    ((∀ pre post t o, cancelSchedule = pre ++ post → run step State.init pre = some t →
      t.Cancelled o → StaysCancelled t s o) ↔ Along step CancelsLive State.init cancelSchedule) := by
  obtain ⟨s, hrun⟩ := Option.isSome_iff_exists.mp
    (by decide +kernel : (run step State.init cancelSchedule).isSome)
  exact ⟨s, hrun, cancelled_terminal_iff hrun⟩

/-- The response of a handler that has returned. -/
def Pc.response? : Pc → Option CommandResponse
  | done _ response => some response
  | _ => none

/-- The order is cancelled once more. -/
def cancelAgain : List Action :=
  .request (.cancelOrder "order-0" ⟨"once more"⟩) :: returns 2 11 5

/-- **An order cancelled twice**: the second command is answered with success, and its event is
stored after the first cancellation. -/
theorem cancelled_twice : ∃ t s, run step State.init cancelSchedule = some t ∧
    run step t cancelAgain = some s ∧ t.Cancelled "order-0" ∧
    (orderLog t.store "order-0").map (·.eventType) = [.orderCreated, .orderCancelled] ∧
    (orderLog s.store "order-0").map (·.eventType) =
      [.orderCreated, .orderCancelled, .orderCancelled] ∧
    (s.handlers[2]?.bind fun h => h.pc.response?) =
      some ⟨"event-11", "order-0", 3, "Order cancelled"⟩ ∧ ¬ StaysCancelled t s "order-0" := by
  obtain ⟨t, hrun, hlog, hagain⟩ := exists_run_of_eval
    (by decide +kernel : ((run step State.init cancelSchedule).any fun t =>
      decide ((orderLog t.store "order-0").map (·.eventType) = [.orderCreated, .orderCancelled] ∧
        (run step t cancelAgain).any fun s => decide
          ((orderLog s.store "order-0").map (·.eventType) =
              [.orderCreated, .orderCancelled, .orderCancelled] ∧
            (s.handlers[2]?.bind fun h => h.pc.response?) =
              some ⟨"event-11", "order-0", 3, "Order cancelled"⟩))) = true)
  obtain ⟨s, hrun', hlog', hresponse⟩ := exists_run_of_eval hagain
  have hc : t.Cancelled "order-0" := by
    have hmem : EventType.orderCancelled ∈ (orderLog t.store "order-0").map (·.eventType) := by
      rw [hlog]
      decide
    obtain ⟨e, he, htype⟩ := List.mem_map.mp hmem
    obtain ⟨he, ho⟩ := mem_orderLog.mp he
    exact ⟨e, he, ho, htype⟩
  refine ⟨t, s, hrun, hrun', hc, hlog, hlog', hresponse, fun hstays => ?_⟩
  rw [hstays.log, hlog] at hlog'
  simp at hlog'

end OrderCqrs
