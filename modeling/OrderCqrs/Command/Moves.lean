import OrderCqrs.Command.Handlers

/-!
What one step of a command handler can do.

* `PublishEffect`: what a call inside `publish` may change.
* `Move`, `await_move`: **the inversion of a handler's step**, one constructor for each way an
  awaited call can end; every invariant of the write side is a case analysis on it.
* `Begins`, `await_built`: what a handler builds, and where the event a handler
  carries comes from.
* `step_await_eq`, `step_await`: a step of the whole system by a handler is an awaited call of that
  handler, and so a `Move`.
* `getElem?_set_cases`: which handlers a step leaves behind.
-/

namespace OrderCqrs

/-- What a call inside `publish` may change: `sendAndWait` the topic, `setex` the keys. -/
structure PublishEffect (sh : Shared) (b : Built) (call : PublishCall) (sh' : Shared) : Prop where
  store : sh'.store = sh.store
  charges : sh'.charges = sh.charges
  topic : sh'.topic = sh.topic ∨
    call = .sendAndWait ∧ sh'.topic = sh.topic ++ [recordOf b.event]
  published : sh'.published = sh.published ∨
    call = .redisSetex ∧ sh'.published = b.event.eventId :: sh.published

/-- **The moves of a handler**: how the call it awaits can end, with the shared stores and the
program point this leads to. -/
inductive Move (sh : Shared) (d : Draw) (h : Handler) : Outcome → Shared → Pc → Prop where
  /-- The handler ends, or goes on to a read, without having built an event. -/
  | idle {oc : Outcome} {pc : Pc} : h.pc.built = none → ¬ h.pc.Ended → pc.built = none →
      (∀ agg, pc ≠ .charge agg) → Move sh d h oc sh pc
  /-- `process_payment` has validated its snapshot. -/
  | toCharge {o : String} {req : ProcessPaymentRequest} {agg : OrderAggregate} :
      h.pc = .start → h.command = .processPayment o req → loadAggregate sh.store o = .ok agg →
      agg.assertCanPay = .ok () → Move sh d h .completes sh (.charge agg)
  /-- `create_order` has built its event. -/
  | create {req : CreateOrderRequest} : h.pc = .start → h.command = .createOrder req →
      Move sh d h .completes sh (.append
        ⟨none, orderCreatedEvent d.stamp d.orderId req.customerId req.customerEmail⟩)
  /-- One of the other handlers has validated its snapshot and built its event. -/
  | build {o : String} {agg : OrderAggregate} {payload : Payload} : h.pc = .start →
      loadAggregate sh.store o = .ok agg → agg.allows payload → payload.payment? = none →
      Move sh d h .completes sh (.append ⟨some agg, d.stamp.event o (agg.version + 1) payload⟩)
  /-- The gateway has accepted the payment. -/
  | charge {o : String} {req : ProcessPaymentRequest} {agg : OrderAggregate} :
      h.pc = .charge agg → h.command = .processPayment o req →
      Move sh d h .completes
        { sh with charges := sh.charges ++ [⟨o, req.paymentId, req.amount⟩] }
        (.append ⟨some agg, orderPaymentProcessedEvent d.stamp o (agg.version + 1) req.paymentId
          req.amount req.method⟩)
  /-- The event is stored; the acknowledgement may be lost. -/
  | insert {oc : Outcome} {b : Built} {pc : Pc} : h.pc = .append b →
      (∀ d ∈ sh.store, ¬ DuplicateKey b.event d) →
      (oc = .completes ∧ pc = .publish b 1 .redisExists ∨
        oc = .raisesAfterEffect ∧ pc = .failed (some b) .serviceError) →
      Move sh d h oc { sh with store := sh.store ++ [b.event] } pc
  /-- The append fails without effect, by a conflict or by an error of the store. -/
  | reject {oc : Outcome} {b : Built} {err : ApiError} : h.pc = .append b →
      (oc = .raises ∨ ∃ d ∈ sh.store, DuplicateKey b.event d) →
      (oc = .completes → err = versionConflict b.event) →
      (oc ≠ .completes → err = .serviceError) →
      Move sh d h oc sh (.failed (some b) err)
  /-- `publish` finds the event already published. -/
  | skip {b : Built} {n : ℕ} : h.pc = .publish b n .redisExists →
      b.event.eventId ∈ sh.published → Move sh d h .completes sh (h.command.published b)
  /-- `publish` goes on to send. -/
  | proceed {b : Built} {n : ℕ} : h.pc = .publish b n .redisExists →
      b.event.eventId ∉ sh.published → Move sh d h .completes sh (.publish b n .sendAndWait)
  /-- The record is sent. -/
  | send {b : Built} {n : ℕ} : h.pc = .publish b n .sendAndWait →
      Move sh d h .completes { sh with topic := sh.topic ++ [recordOf b.event] }
        (.publish b n .redisSetex)
  /-- The event is marked as published. -/
  | mark {b : Built} {n : ℕ} : h.pc = .publish b n .redisSetex →
      Move sh d h .completes { sh with published := b.event.eventId :: sh.published }
        (h.command.published b)
  /-- An attempt to publish fails and the next one starts. -/
  | retry {oc : Outcome} {b : Built} {n : ℕ} {call : PublishCall} {sh' : Shared} :
      h.pc = .publish b n call → oc ≠ .completes → n < 3 → PublishEffect sh b call sh' →
      Move sh d h oc sh' (.publish b (n + 1) .redisExists)
  /-- The third attempt to publish fails. -/
  | giveUp {oc : Outcome} {b : Built} {n : ℕ} {call : PublishCall} {sh' : Shared} :
      h.pc = .publish b n call → oc ≠ .completes → 3 ≤ n → PublishEffect sh b call sh' →
      Move sh d h oc sh' (.failed (some b) .retryError)
  /-- `create_order` records its idempotency key and returns; the acknowledgement may be lost. -/
  | finish {oc : Outcome} {b : Built} {pc : Pc} {sh' : Shared} : h.pc = .setex b →
      sh'.store = sh.store → sh'.charges = sh.charges → sh'.topic = sh.topic →
      sh'.published = sh.published →
      (oc = .completes ∧ pc = .done (some b) (h.command.respond b.event) ∨
        oc ≠ .completes ∧ pc = .failed (some b) .serviceError) →
      Move sh d h oc sh' pc

section Inversion

variable {sh sh' : Shared} {d : Draw} {h : Handler} {pc : Pc} {oc : Outcome}

/-- The load of a handler either goes through its synchronous part or ends the handler. -/
lemma load_move {x : Except ApiError OrderAggregate} {f : OrderAggregate → Except ApiError Pc}
    (hpc : h.pc = .start)
    (hf : ∀ agg pc, x = .ok agg → f agg = .ok pc → Move sh d h .completes sh pc) :
    Move sh d h .completes sh (orFailed (x >>= f)) := by
  have hfail : ∀ err, Move sh d h .completes sh (.failed none err) := fun err =>
    .idle (by rw [hpc]; rfl) (by rw [hpc]; exact id) rfl (by simp)
  cases x with
  | error err => exact hfail err
  | ok agg =>
      have hbind : ((.ok agg : Except ApiError OrderAggregate) >>= f) = f agg := rfl
      rw [hbind]
      cases hfa : f agg with
      | error err => exact hfail err
      | ok pc => exact hf agg pc rfl hfa

/-- The guard of a handler has passed when its synchronous part goes on. -/
lemma guard_ok {x : Except ApiError Unit} {p q : Pc}
    (hx : (x >>= fun _ => pure q : Except ApiError Pc) = .ok p) : x = .ok () ∧ q = p := by
  cases x with
  | error err => simp [bind, Except.bind] at hx
  | ok u =>
      simp only [bind, Except.bind, pure, Except.pure, Except.ok.injEq] at hx
      exact ⟨rfl, hx⟩

/-- The first step of a handler. -/
lemma begin_move (hpc : h.pc = .start) : Move sh d h .completes sh (h.command.begin sh d) := by
  cases hc : h.command with
  | createOrder req =>
      rw [Command.begin]
      cases sh.idempotent.lookup req.idempotencyKey with
      | some orderId =>
          exact .idle (by rw [hpc]; rfl) (by rw [hpc]; exact id) rfl (by simp)
      | none => exact .create hpc hc
  | addItem o req =>
      refine load_move hpc fun agg pc hx hf => ?_
      obtain ⟨hok, rfl⟩ := guard_ok hf
      exact .build hpc hx hok rfl
  | confirmOrder o =>
      refine load_move hpc fun agg pc hx hf => ?_
      obtain ⟨hok, rfl⟩ := guard_ok hf
      exact .build hpc hx hok rfl
  | processPayment o req =>
      refine load_move hpc fun agg pc hx hf => ?_
      obtain ⟨hok, rfl⟩ := guard_ok hf
      exact .toCharge hpc hc hx hok
  | shipOrder o req =>
      refine load_move hpc fun agg pc hx hf => ?_
      obtain ⟨hok, rfl⟩ := guard_ok hf
      exact .build hpc hx hok rfl
  | cancelOrder o req =>
      refine load_move hpc fun agg pc hx hf => ?_
      obtain ⟨hok, rfl⟩ := guard_ok hf
      exact .build hpc hx hok rfl

/-- **What a handler builds when it has loaded its order**, by its command. -/
inductive Begins (sh : Shared) (d : Draw) : Command → Built → Prop where
  | createOrder {req : CreateOrderRequest} : Begins sh d (.createOrder req)
      ⟨none, orderCreatedEvent d.stamp d.orderId req.customerId req.customerEmail⟩
  | addItem {o : String} {req : AddItemRequest} {agg : OrderAggregate} :
      loadAggregate sh.store o = .ok agg → agg.assertCanAddItem = .ok () →
      Begins sh d (.addItem o req) ⟨some agg, orderItemAddedEvent d.stamp o (agg.version + 1)
        req.productId req.productName req.quantity req.unitPrice⟩
  | confirmOrder {o : String} {agg : OrderAggregate} :
      loadAggregate sh.store o = .ok agg → agg.assertCanConfirm = .ok () →
      Begins sh d (.confirmOrder o) ⟨some agg, orderConfirmedEvent d.stamp o (agg.version + 1)⟩
  | shipOrder {o : String} {req : ShipOrderRequest} {agg : OrderAggregate} :
      loadAggregate sh.store o = .ok agg → agg.assertCanShip = .ok () →
      Begins sh d (.shipOrder o req) ⟨some agg, orderShippedEvent d.stamp o (agg.version + 1)
        req.trackingId req.carrier⟩
  | cancelOrder {o : String} {req : CancelOrderRequest} {agg : OrderAggregate} :
      loadAggregate sh.store o = .ok agg → agg.assertCanCancel = .ok () →
      Begins sh d (.cancelOrder o req) ⟨some agg, orderCancelledEvent d.stamp o (agg.version + 1)
        req.reason⟩

/-- What a handler has built after its load comes from its synchronous part. -/
lemma built_of_load {x : Except ApiError OrderAggregate} {f : OrderAggregate → Except ApiError Pc}
    {b : Built} (hb : (orFailed (x >>= f)).built = some b) :
    ∃ agg pc, x = .ok agg ∧ f agg = .ok pc ∧ pc.built = some b := by
  cases x with
  | error err => simp [orFailed, bind, Except.bind, Pc.built] at hb
  | ok agg =>
      cases hfa : f agg with
      | error err => simp [orFailed, bind, Except.bind, hfa, Pc.built] at hb
      | ok pc =>
          refine ⟨agg, pc, rfl, hfa, ?_⟩
          simpa [orFailed, bind, Except.bind, hfa] using hb

lemma begin_built {cmd : Command} {b : Built} (hb : (cmd.begin sh d).built = some b) :
    Begins sh d cmd b := by
  cases cmd with
  | createOrder req =>
      rw [Command.begin] at hb
      cases hkey : sh.idempotent.lookup req.idempotencyKey with
      | some o => simp [hkey, Pc.built] at hb
      | none =>
          simp only [hkey, Pc.built, Option.some.injEq] at hb
          exact hb ▸ .createOrder
  | addItem o req =>
      obtain ⟨agg, pc, hload, hf, hpc⟩ := built_of_load hb
      obtain ⟨hok, rfl⟩ := guard_ok hf
      exact Option.some.inj hpc ▸ .addItem hload hok
  | confirmOrder o =>
      obtain ⟨agg, pc, hload, hf, hpc⟩ := built_of_load hb
      obtain ⟨hok, rfl⟩ := guard_ok hf
      exact Option.some.inj hpc ▸ .confirmOrder hload hok
  | processPayment o req =>
      obtain ⟨agg, pc, hload, hf, hpc⟩ := built_of_load hb
      obtain ⟨_, rfl⟩ := guard_ok hf
      simp [Pc.built] at hpc
  | shipOrder o req =>
      obtain ⟨agg, pc, hload, hf, hpc⟩ := built_of_load hb
      obtain ⟨hok, rfl⟩ := guard_ok hf
      exact Option.some.inj hpc ▸ .shipOrder hload hok
  | cancelOrder o req =>
      obtain ⟨agg, pc, hload, hf, hpc⟩ := built_of_load hb
      obtain ⟨hok, rfl⟩ := guard_ok hf
      exact Option.some.inj hpc ▸ .cancelOrder hload hok

/-- An awaited call that returns. -/
lemma complete_move (hstep : h.complete sh d = some (sh', pc)) :
    Move sh d h .completes sh' pc := by
  rw [Handler.complete] at hstep
  cases hpc : h.pc with
  | start =>
      simp only [hpc, Option.some.injEq, Prod.mk.injEq] at hstep
      obtain ⟨rfl, rfl⟩ := hstep
      exact begin_move hpc
  | latestVersion o =>
      simp only [hpc, Option.some.injEq, Prod.mk.injEq] at hstep
      obtain ⟨rfl, rfl⟩ := hstep
      exact .idle (by rw [hpc]; rfl) (by rw [hpc]; exact id) rfl (by simp)
  | charge agg =>
      simp only [hpc] at hstep
      split at hstep
      · rename_i o req hc
        cases hcharge : OrderCqrs.charge req.paymentId req.amount req.method with
        | failure err =>
            simp only [hcharge, Option.some.injEq, Prod.mk.injEq] at hstep
            obtain ⟨rfl, rfl⟩ := hstep
            exact .idle (by rw [hpc]; rfl) (by rw [hpc]; exact id) rfl (by simp)
        | success ref =>
            simp only [hcharge, Option.some.injEq, Prod.mk.injEq] at hstep
            obtain ⟨rfl, rfl⟩ := hstep
            exact .charge hpc hc
      · simp at hstep
  | append b =>
      simp only [hpc] at hstep
      cases happ : EventStore.append sh.store b.event with
      | ok store =>
          simp only [happ, Option.some.injEq, Prod.mk.injEq] at hstep
          obtain ⟨rfl, rfl⟩ := hstep
          obtain ⟨hfree, rfl⟩ := EventStore.append_eq_ok.mp happ
          exact .insert hpc hfree (Or.inl ⟨rfl, rfl⟩)
      | error err =>
          simp only [happ, Option.some.injEq, Prod.mk.injEq] at hstep
          obtain ⟨rfl, rfl⟩ := hstep
          obtain ⟨hdup, herr⟩ := EventStore.append_eq_error.mp happ
          exact .reject hpc (Or.inr hdup) (fun _ => herr) (by simp)
  | publish b n call =>
      cases call with
      | redisExists =>
          simp only [hpc] at hstep
          split_ifs at hstep with hmem
          · simp only [Option.some.injEq, Prod.mk.injEq] at hstep
            obtain ⟨rfl, rfl⟩ := hstep
            exact .skip hpc hmem
          · simp only [Option.some.injEq, Prod.mk.injEq] at hstep
            obtain ⟨rfl, rfl⟩ := hstep
            exact .proceed hpc hmem
      | sendAndWait =>
          simp only [hpc, Option.some.injEq, Prod.mk.injEq] at hstep
          obtain ⟨rfl, rfl⟩ := hstep
          exact .send hpc
      | redisSetex =>
          simp only [hpc, Option.some.injEq, Prod.mk.injEq] at hstep
          obtain ⟨rfl, rfl⟩ := hstep
          exact .mark hpc
  | setex b =>
      simp only [hpc] at hstep
      split at hstep
      · simp only [Option.some.injEq, Prod.mk.injEq] at hstep
        obtain ⟨rfl, rfl⟩ := hstep
        exact .finish hpc rfl rfl rfl rfl (Or.inl ⟨rfl, rfl⟩)
      · simp at hstep
  | done b r => simp [hpc] at hstep
  | failed b err => simp [hpc] at hstep

/-- The handler is at one of the reads that come before its append. -/
def Pc.Reads : Pc → Prop
  | .start | .latestVersion _ => True
  | _ => False

lemma Move.eq_of_reads (hm : Move sh d h oc sh' pc) (hreads : h.pc.Reads) : sh' = sh := by
  cases hm <;> first | rfl | simp_all [Pc.Reads]

/-- An awaited call that raises, `sh'` being what it has left of its effect. -/
lemma interrupt_move (hoc : oc ≠ .completes) (hint : h.interrupt = some pc)
    (heff : oc = .raises ∧ sh' = sh ∨
      oc = .raisesAfterEffect ∧ ∃ pc', Move sh d h .completes sh' pc') :
    Move sh d h oc sh' pc := by
  -- a read leaves nothing behind
  have hread : h.pc.Reads → sh' = sh := fun hreads => by
    rcases heff with ⟨_, rfl⟩ | ⟨_, pc', hm⟩
    · rfl
    · exact hm.eq_of_reads hreads
  rw [Handler.interrupt] at hint
  cases hpc : h.pc with
  | start =>
      simp only [hpc, Option.some.injEq] at hint
      subst hint
      rw [hread (by rw [hpc]; trivial)]
      exact .idle (by rw [hpc]; rfl) (by rw [hpc]; exact id) rfl (by simp)
  | latestVersion o =>
      simp only [hpc, Option.some.injEq] at hint
      subst hint
      rw [hread (by rw [hpc]; trivial)]
      exact .idle (by rw [hpc]; rfl) (by rw [hpc]; exact id) rfl (by simp)
  | charge agg => simp [hpc] at hint
  | append b =>
      simp only [hpc, Option.some.injEq] at hint
      subst hint
      rcases heff with ⟨rfl, rfl⟩ | ⟨rfl, pc', hm⟩
      · exact .reject hpc (Or.inl rfl) (by simp) (by simp)
      · cases hm with
        | @insert _ b' _ hb hfree _ =>
            obtain rfl : b = b' := by simpa [hpc] using hb
            exact .insert hpc hfree (Or.inr ⟨rfl, rfl⟩)
        | @reject _ b' _ hb hdup _ _ =>
            obtain rfl : b = b' := by simpa [hpc] using hb
            exact .reject hpc (Or.inr (hdup.resolve_left (by simp))) (by simp) (by simp)
        | _ => simp_all [Pc.built]
  | publish b n call =>
      simp only [hpc, Option.some.injEq] at hint
      subst hint
      have hsh : PublishEffect sh b call sh' := by
        rcases heff with ⟨_, rfl⟩ | ⟨_, pc', hm⟩
        · exact ⟨rfl, rfl, Or.inl rfl, Or.inl rfl⟩
        · cases hm with
          | skip hb _ => exact ⟨rfl, rfl, Or.inl rfl, Or.inl rfl⟩
          | proceed hb _ => exact ⟨rfl, rfl, Or.inl rfl, Or.inl rfl⟩
          | send hb =>
              rw [hpc] at hb
              cases hb
              exact ⟨rfl, rfl, Or.inr ⟨rfl, rfl⟩, Or.inl rfl⟩
          | mark hb =>
              rw [hpc] at hb
              cases hb
              exact ⟨rfl, rfl, Or.inl rfl, Or.inr ⟨rfl, rfl⟩⟩
          | _ => simp_all [Pc.built]
      split_ifs with hn
      · exact .retry hpc hoc hn hsh
      · exact .giveUp hpc hoc (by omega) hsh
  | setex b =>
      simp only [hpc, Option.some.injEq] at hint
      subst hint
      rcases heff with ⟨_, rfl⟩ | ⟨_, pc', hm⟩
      · exact .finish hpc rfl rfl rfl rfl (Or.inr ⟨hoc, rfl⟩)
      · cases hm with
        | finish hb h1 h2 h3 h4 _ => exact .finish hpc h1 h2 h3 h4 (Or.inr ⟨hoc, rfl⟩)
        | _ => simp_all [Pc.built]
  | done b r => simp [hpc] at hint
  | failed b err => simp [hpc] at hint

/-- **The inversion of a handler's step.** -/
theorem await_move (hstep : h.await sh d oc = some (sh', pc)) : Move sh d h oc sh' pc := by
  cases oc with
  | completes => exact complete_move hstep
  | raises =>
      rw [Handler.await, Option.map_eq_some_iff] at hstep
      obtain ⟨pc', hint, heq⟩ := hstep
      rw [Prod.mk.injEq] at heq
      obtain ⟨rfl, rfl⟩ := heq
      exact interrupt_move (by simp) hint (Or.inl ⟨rfl, rfl⟩)
  | raisesAfterEffect =>
      simp only [Handler.await, Option.bind_eq_bind, Option.bind_eq_some_iff] at hstep
      obtain ⟨⟨sh₁, pc₁⟩, hcomp, pc₂, hint, heq⟩ := hstep
      simp only [Option.pure_def, Option.some.injEq, Prod.mk.injEq] at heq
      obtain ⟨rfl, rfl⟩ := heq
      exact interrupt_move (by simp) hint (Or.inr ⟨rfl, pc₁, complete_move hcomp⟩)

/-- **What a handler has built after a step** it had built before, or it builds it now: when it has
loaded its order, or when the gateway has accepted its payment. -/
lemma await_built {b : Built} (hstep : h.await sh d oc = some (sh', pc))
    (hb : pc.built = some b) : h.pc.built = some b ∨
      h.pc = .start ∧ oc = .completes ∧ Begins sh d h.command b ∨
      ∃ o req agg, h.pc = .charge agg ∧ h.command = .processPayment o req ∧
        b = ⟨some agg, orderPaymentProcessedEvent d.stamp o (agg.version + 1) req.paymentId
          req.amount req.method⟩ := by
  have hsame : h.pc.built = pc.built → h.pc.built = some b := fun heq => heq.trans hb
  cases await_move hstep with
  | idle _ _ hnone => simp [hnone] at hb
  | toCharge => simp [Pc.built] at hb
  | create hpc | build hpc =>
      simp only [Handler.await, Handler.complete, hpc, Option.some.injEq, Prod.mk.injEq] at hstep
      exact Or.inr (Or.inl ⟨hpc, rfl, begin_built (hstep.2 ▸ hb)⟩)
  | charge hpc hcmd => exact Or.inr (Or.inr ⟨_, _, _, hpc, hcmd, (Option.some.inj hb).symm⟩)
  | insert hpc _ hpc' =>
      rcases hpc' with ⟨_, rfl⟩ | ⟨_, rfl⟩ <;> exact Or.inl (hsame (by rw [hpc]; rfl))
  | skip hpc | mark hpc =>
      refine Or.inl (hsame ?_)
      rcases h.command.published_cases _ with heq | heq <;> rw [heq, hpc] <;> rfl
  | finish hpc _ _ _ _ hpc' =>
      rcases hpc' with ⟨_, rfl⟩ | ⟨_, rfl⟩ <;> exact Or.inl (hsame (by rw [hpc]; rfl))
  | reject hpc | proceed hpc | send hpc | retry hpc | giveUp hpc =>
      exact Or.inl (hsame (by rw [hpc]; rfl))

end Inversion

/-! ### Steps of the whole system -/

/-- A step of the system by a handler. -/
lemma step_await_eq {s t : State} {i : ℕ} {oc : Outcome} {d : Draw}
    (hstep : step s (.await i oc d) = some t) :
    d.Fresh s.drawn ∧ ∃ h sh pc, s.handlers[i]? = some h ∧
      h.await s.toShared d oc = some (sh, pc) ∧
      t = { toShared := sh
            drawn := d.orderId :: d.stamp.eventId :: s.drawn
            handlers := s.handlers.set i { h with pc } } := by
  simp only [step, Option.bind_eq_bind, Option.bind_eq_some_iff, Option.guard_eq_some'] at hstep
  obtain ⟨_, hfresh, h, hget, ⟨sh, pc⟩, hawait, heq⟩ := hstep
  exact ⟨hfresh, h, sh, pc, hget, hawait, (Option.some.inj heq).symm⟩

/-- A step of the system by a handler is a move of that handler. -/
lemma step_await {s t : State} {i : ℕ} {oc : Outcome} {d : Draw}
    (hstep : step s (.await i oc d) = some t) :
    d.Fresh s.drawn ∧ ∃ h sh pc, s.handlers[i]? = some h ∧ Move s.toShared d h oc sh pc ∧
      t = { toShared := sh
            drawn := d.orderId :: d.stamp.eventId :: s.drawn
            handlers := s.handlers.set i { h with pc } } := by
  obtain ⟨hfresh, h, sh, pc, hget, hawait, rfl⟩ := step_await_eq hstep
  exact ⟨hfresh, h, sh, pc, hget, await_move hawait, rfl⟩

/-- After a handler's step, a handler is the one that moved or one that did not. -/
lemma getElem?_set_cases {hs : List Handler} {i j : ℕ} {h h' : Handler}
    (hget : (hs.set i h)[j]? = some h') : j = i ∧ h' = h ∨ j ≠ i ∧ hs[j]? = some h' := by
  rw [List.getElem?_set] at hget
  split_ifs at hget with hij hlt
  · exact Or.inl ⟨hij.symm, (Option.some.inj hget).symm⟩
  · exact Or.inr ⟨fun hji => hij hji.symm, hget⟩

/-- The handlers a step leaves behind are still there. -/
lemma eq_or_mem_set {hs : List Handler} {i : ℕ} {h h' g : Handler} (hget : hs[i]? = some h)
    (hg : g ∈ hs) : g = h ∨ g ∈ hs.set i h' := by
  obtain ⟨j, hj⟩ := List.mem_iff_getElem?.mp hg
  by_cases hij : i = j
  · subst hij
    rw [hget, Option.some.injEq] at hj
    exact Or.inl hj.symm
  · refine Or.inr (List.mem_iff_getElem?.mpr ⟨j, ?_⟩)
    rw [List.getElem?_set_ne hij]
    exact hj

end OrderCqrs
