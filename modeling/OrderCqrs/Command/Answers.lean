import OrderCqrs.Command.Idempotency
import OrderCqrs.Command.TopicOrder

/-!
What the clients of the command endpoints can rely on (`api/routers/command_router.py`).

* `Command.payload`, `Command.Asks`: the event a command asks for.
* `AnswerInv`: what the answers and the idempotency keys stand for.
* `AnswersHold`, `answers_hold`: **the answers clients have had are true**: a success names the
  event that was asked for, stored and sent, an idempotent answer an order created under the key.
* `Handler.Saw`, `seen_by_later`: **commands take effect in real time**: what has been answered is
  in the aggregate that every later command on the order is validated against.
-/

namespace OrderCqrs

open Runs

/-! ### What a command asks for -/

/-- What the event of a command carries that is built at the time `now`. -/
def Command.payload (now : Timestamp) : Command → Payload
  | createOrder req =>
      .orderCreated { customerId := req.customerId, customerEmail := req.customerEmail }
  | addItem _ req => .orderItemAdded
      { productId := req.productId
        productName := req.productName
        quantity := req.quantity
        unitPrice := req.unitPrice
        lineTotal := FloatArith.mul req.quantity req.unitPrice }
  | confirmOrder _ => .orderConfirmed now
  | processPayment _ req => .orderPaymentProcessed
      { paymentId := req.paymentId, amount := req.amount, method := req.method, processedAt := now }
  | shipOrder _ req => .orderShipped
      { trackingId := req.trackingId, carrier := req.carrier, shippedAt := now }
  | cancelOrder _ req => .orderCancelled req.reason now

/-- The event is the one a command asks for: of the order it names, with the data of the request. -/
structure Command.Asks (cmd : Command) (e : Event) : Prop where
  order : ∀ o ∈ cmd.orderId?, e.aggregateId = o
  payload : ∃ now, e.payload = cmd.payload now

/-- The check of a command against the stored events: its load and its business rule. -/
def Command.check (store : List Event) : Command → Except ApiError Unit
  | createOrder _ => .ok ()
  | addItem o _ => loadAggregate store o >>= OrderAggregate.assertCanAddItem
  | confirmOrder o => loadAggregate store o >>= OrderAggregate.assertCanConfirm
  | processPayment o _ => loadAggregate store o >>= OrderAggregate.assertCanPay
  | shipOrder o _ => loadAggregate store o >>= OrderAggregate.assertCanShip
  | cancelOrder o _ => loadAggregate store o >>= OrderAggregate.assertCanCancel

section Inversion

variable {sh sh' : Shared} {d : Draw} {h : Handler} {pc : Pc} {oc : Outcome} {b : Built}
  {r : CommandResponse}

lemma Begins.asks {cmd : Command} (h : Begins sh d cmd b) : cmd.Asks b.event := by
  cases h <;> exact ⟨by simp [Command.orderId?, Stamp.event, orderItemAddedEvent,
    orderConfirmedEvent, orderShippedEvent, orderCancelledEvent], d.stamp.now, rfl⟩

/-- What a handler has built is what was asked for. -/
lemma await_asks (hstep : h.await sh d oc = some (sh', pc)) (hb : pc.built = some b) :
    h.pc.built = some b ∨ h.command.Asks b.event := by
  rcases await_built hstep hb with hold | ⟨_, _, hbegins⟩ | ⟨o, req, agg, _, hcmd, rfl⟩
  · exact Or.inl hold
  · exact Or.inr hbegins.asks
  · rw [hcmd]
    exact Or.inr ⟨fun o' ho' => Option.some.inj ho', d.stamp.now, rfl⟩

/-- A success names the event that was built. -/
lemma await_respond (hstep : h.await sh d oc = some (sh', .done (some b) r)) :
    r = h.command.respond b.event := by
  generalize hpc : Pc.done (some b) r = pc at hstep
  cases await_move hstep with
  | idle _ _ hnone => simp [← hpc, Pc.built] at hnone
  | skip | mark =>
      rcases h.command.published_cases _ with heq | heq <;> rw [heq] at hpc
      · simp at hpc
      · obtain ⟨hb, rfl⟩ := Pc.done.inj hpc
        rw [Option.some.inj hb]
  | finish _ _ _ _ _ hpc' =>
      rcases hpc' with ⟨_, rfl⟩ | ⟨_, rfl⟩
      · obtain ⟨hb, rfl⟩ := Pc.done.inj hpc
        rw [Option.some.inj hb]
      · simp at hpc
  | insert _ _ hpc' => rcases hpc' with ⟨_, rfl⟩ | ⟨_, rfl⟩ <;> simp at hpc
  | _ => simp at hpc

/-- **The calls of a handler that has built nothing**, by where they lead. -/
inductive Idle (sh : Shared) (h : Handler) : Pc → Prop where
  /-- `create_order` has found its key. -/
  | found {key o : String} : h.pc = .start → h.Creates key → (key, o) ∈ sh.idempotent →
      Idle sh h (.latestVersion o)
  /-- `process_payment` goes on to the gateway. -/
  | validated {agg : OrderAggregate} : Idle sh h (.charge agg)
  /-- The check against the stored events has failed. -/
  | refused {err : ApiError} : h.command.check sh.store = .error err → Idle sh h (.failed none err)
  /-- The order that was found is returned. -/
  | served {o : String} : h.pc = .latestVersion o → Idle sh h (.done none
      { eventId := "cached"
        aggregateId := o
        aggregateVersion := getLatestVersion sh.store o
        message := "Order already created (idempotent)" })
  /-- The gateway has declined the payment. -/
  | declined {o err : String} {req : ProcessPaymentRequest} :
      h.command = .processPayment o req →
      OrderCqrs.charge req.paymentId req.amount req.method = .failure err →
      Idle sh h (.failed none (.httpException 402 s!"Payment failed: {err}"))
  /-- The call has raised. -/
  | interrupted : Idle sh h (.failed none .serviceError)

/-- The synchronous part of a handler after its load fails when its check does, and goes on as `q`
does otherwise. -/
lemma idle_of_load {x : Except ApiError OrderAggregate} {g : OrderAggregate → Except ApiError Unit}
    {q : OrderAggregate → Pc} (hcheck : h.command.check sh.store = (x >>= g))
    (hq : ∀ agg, (q agg).built = none → Idle sh h (q agg))
    (hnone : (orFailed (x >>= fun agg => g agg >>= fun _ => pure (q agg))).built = none) :
    Idle sh h (orFailed (x >>= fun agg => g agg >>= fun _ => pure (q agg))) := by
  cases x with
  | error err => exact .refused hcheck
  | ok agg =>
      replace hcheck : h.command.check sh.store = g agg := hcheck
      change (orFailed (g agg >>= fun _ => pure (q agg))).built = none at hnone
      change Idle sh h (orFailed (g agg >>= fun _ => pure (q agg)))
      cases hg : g agg with
      | error err => exact .refused (hcheck.trans hg)
      | ok u =>
          rw [hg] at hnone
          exact hq agg hnone

/-- The first call of a handler that goes on without an event. -/
lemma begin_idle (hpc : h.pc = .start) (hnone : (h.command.begin sh d).built = none) :
    Idle sh h (h.command.begin sh d) := by
  have hcheck : ∀ {cmd : Command}, h.command = cmd →
      h.command.check sh.store = cmd.check sh.store := fun heq => by rw [heq]
  cases hc : h.command with
  | createOrder req =>
      rw [hc, Command.begin] at hnone
      rw [Command.begin]
      cases hl : sh.idempotent.lookup req.idempotencyKey with
      | none => simp [hl, Pc.built] at hnone
      | some o =>
          obtain ⟨l₁, l₂, heq, _⟩ := List.lookup_eq_some_iff.mp hl
          exact .found hpc (by rw [Handler.Creates, hc]; rfl) (by rw [heq]; simp)
  | processPayment o req =>
      rw [hc] at hnone
      exact idle_of_load (hcheck hc) (fun agg _ => .validated) hnone
  | addItem o req | confirmOrder o | shipOrder o req | cancelOrder o req =>
      rw [hc] at hnone
      exact idle_of_load (hcheck hc) (fun agg hb => absurd hb (by simp [Pc.built])) hnone

/-- **The inversion of the calls of a handler that has built nothing**, which change nothing. -/
lemma await_idle (hstep : h.await sh d oc = some (sh', pc)) (hnone : pc.built = none) :
    sh' = sh ∧ Idle sh h pc := by
  have hmove := await_move hstep
  have hbuilt : h.pc.built = none := by
    refine Option.eq_none_iff_forall_ne_some.mpr fun b hb => ?_
    simp [hmove.built_eq hb] at hnone
  have hsame : sh' = sh := by
    cases hmove with
    | idle | toCharge | reject | skip | proceed => rfl
    | create | build | charge => simp [Pc.built] at hnone
    | insert hpc | send hpc | mark hpc | retry hpc | giveUp hpc | finish hpc =>
        simp [hpc, Pc.built] at hbuilt
  have hraise : oc ≠ .completes → h.interrupt = some pc := by
    cases oc with
    | completes => exact absurd rfl
    | raises =>
        obtain ⟨_, hint, heq⟩ := Option.map_eq_some_iff.mp hstep
        exact fun _ => (Prod.mk.inj heq).2 ▸ hint
    | raisesAfterEffect =>
        obtain ⟨_, _, h'⟩ := Option.bind_eq_some_iff.mp hstep
        obtain ⟨_, hint, heq⟩ := Option.bind_eq_some_iff.mp h'
        exact fun _ => (Prod.mk.inj (Option.some.inj heq)).2 ▸ hint
  refine ⟨hsame, ?_⟩
  by_cases hoc : oc = .completes
  · subst hoc
    replace hstep : h.complete sh d = some (sh', pc) := hstep
    rw [Handler.complete] at hstep
    cases hpc : h.pc with
    | start =>
        simp only [hpc, Option.some.injEq, Prod.mk.injEq] at hstep
        obtain ⟨_, rfl⟩ := hstep
        exact begin_idle hpc hnone
    | latestVersion o =>
        simp only [hpc, Option.some.injEq, Prod.mk.injEq] at hstep
        exact hstep.2 ▸ .served hpc
    | charge agg =>
        simp only [hpc] at hstep
        split at hstep
        · rename_i o req hc
          split at hstep <;> rename_i hcharge <;>
            obtain ⟨_, rfl⟩ := Prod.mk.inj (Option.some.inj hstep)
          · exact .declined hc hcharge
          · simp [Pc.built] at hnone
        · simp at hstep
    | append b | publish b n call | setex b => simp [hpc, Pc.built] at hbuilt
    | done bo r | failed bo err => exact absurd (by rw [hpc]; trivial) hmove.not_ended
  · have hint := hraise hoc
    rw [Handler.interrupt] at hint
    cases hpc : h.pc with
    | start | latestVersion o =>
        simp only [hpc, Option.some.injEq] at hint
        exact hint ▸ .interrupted
    | append b | publish b n call | setex b => simp [hpc, Pc.built] at hbuilt
    | charge agg | done bo r | failed bo err => simp [hpc] at hint

end Inversion

/-! ### What the answers stand for -/

/-- The stored event that an idempotent answer stands for: the latest one of the order when the
request was answered. -/
def State.Latest (s : State) (r : CommandResponse) : Prop :=
  ∃ e ∈ s.store, e.aggregateId = r.aggregateId ∧ e.aggregateVersion = r.aggregateVersion

/-- **The invariant of the answers.** -/
structure AnswerInv (s : State) : Prop where
  write : WriteInv s
  topic : TopicInv s
  asked : ∀ h ∈ s.handlers, ∀ b, h.pc.built = some b → h.command.Asks b.event
  responded : ∀ h ∈ s.handlers, ∀ b r, h.pc = .done (some b) r → r = h.command.respond b.event
  /-- A key is recorded for the order of a stored creation. -/
  recorded : ∀ key o, (key, o) ∈ s.idempotent → s.Owner key o
  found : ∀ h ∈ s.handlers, ∀ o, h.pc = .latestVersion o → ∃ key, h.Creates key ∧ s.Owner key o
  cached : ∀ h ∈ s.handlers, ∀ r, h.pc = .done none r →
    (∃ key, h.Creates key ∧ s.Owner key r.aggregateId) ∧ s.Latest r

/-- The stored events of an order stand in version order. -/
lemma WriteInv.getEvents_eq {w : State} (hw : WriteInv w) (o : String) :
    getEvents w.store o = orderLog w.store o := by
  rcases hw.legal o with hnil | hlegal
  · rw [getEvents, hnil]
    rfl
  · exact getEvents_eq_orderLog hlegal.versionSorted

namespace AnswerInv

variable {s t : State} {a : Action}

lemma init : AnswerInv State.init where
  write := writeInv_init
  topic := topicInv_init
  asked := by simp [State.init]
  responded := by simp [State.init]
  recorded := by simp [State.init]
  found := by simp [State.init]
  cached := by simp [State.init]

/-- The order of a stored creation has a latest version. -/
lemma latest_of_owner (hs : WriteInv s) {key : String} {r : CommandResponse}
    (ho : s.Owner key r.aggregateId)
    (hr : r.aggregateVersion = getLatestVersion s.store r.aggregateId) : s.Latest r := by
  obtain ⟨_, _, _, b, _, hstored, hb⟩ := ho
  have hne : orderLog s.store r.aggregateId ≠ [] :=
    List.ne_nil_of_mem (mem_orderLog.mpr ⟨hstored, hb⟩)
  rw [getLatestVersion, hs.getEvents_eq, List.getLast?_eq_some_getLast hne] at hr
  obtain ⟨hin, ho⟩ := mem_orderLog.mp (List.getLast_mem hne)
  exact ⟨_, hin, ho, hr.symm⟩

theorem step (hs : AnswerInv s) (hstep : OrderCqrs.step s a = some t) : AnswerInv t where
  write := writeInv_step hs.write hstep
  topic := topicInv_step hs.write hs.topic hstep
  asked := by
    intro h hh b hb
    rcases mem_handlers_cases hstep hh with
      hold | hstart | ⟨i, oc, d, g, sh, pc, rfl, hget, hawait, _, rfl⟩
    · exact hs.asked h hold b hb
    · simp [hstart, Pc.built] at hb
    · rcases await_asks hawait hb with hold | hasks
      · exact hs.asked g (List.mem_of_getElem? hget) b hold
      · exact hasks
  responded := by
    intro h hh b r hpc
    rcases mem_handlers_cases hstep hh with
      hold | hstart | ⟨i, oc, d, g, sh, pc, rfl, hget, hawait, _, rfl⟩
    · exact hs.responded h hold b r hpc
    · simp [hstart] at hpc
    · replace hpc : pc = .done (some b) r := hpc
      subst hpc
      have heq := await_respond hawait
      exact heq
  recorded := by
    intro key o ho
    rcases recorded_cases hs.write hstep ho with hold | howner
    · exact owner_persists hstep (hs.recorded key o hold)
    · exact owner_persists hstep howner
  found := by
    intro h hh o hpc
    rcases mem_handlers_cases hstep hh with
      hold | hstart | ⟨i, oc, d, g, sh, pc, rfl, hget, hawait, _, rfl⟩
    · obtain ⟨key, hkey, howner⟩ := hs.found h hold o hpc
      exact ⟨key, hkey, owner_persists hstep howner⟩
    · simp [hstart] at hpc
    · replace hpc : pc = .latestVersion o := hpc
      subst hpc
      cases (await_idle hawait rfl).2 with
      | found _ hkey hin => exact ⟨_, hkey, owner_persists hstep (hs.recorded _ o hin)⟩
  cached := by
    intro h hh r hpc
    rcases mem_handlers_cases hstep hh with
      hold | hstart | ⟨i, oc, d, g, sh, pc, rfl, hget, hawait, hsh, rfl⟩
    · obtain ⟨⟨key, hkey, howner⟩, e, he, hversion⟩ := hs.cached h hold r hpc
      exact ⟨⟨key, hkey, owner_persists hstep howner⟩, e, store_subset hstep he, hversion⟩
    · simp [hstart] at hpc
    · replace hpc : pc = .done none r := hpc
      subst hpc
      obtain ⟨hsame, hidle⟩ := await_idle hawait rfl
      cases hidle with
      | @served o hlast =>
          obtain ⟨key, hkey, howner⟩ := hs.found g (List.mem_of_getElem? hget) o hlast
          have hlater : t.Owner key o := owner_persists hstep howner
          refine ⟨⟨key, hkey, hlater⟩, latest_of_owner (writeInv_step hs.write hstep) hlater ?_⟩
          rw [hsh, hsame]

end AnswerInv

theorem answerInv_run {s : State} {as : List Action} (h : run step State.init as = some s) :
    AnswerInv s :=
  run_preserves (fun hs hstep => hs.step hstep) AnswerInv.init h

/-! ### What clients can rely on -/

/-- **The answers that clients have had are true.** -/
structure AnswersHold (s : State) : Prop where
  /-- A success names an event that the command asked for, that is stored and that is sent. -/
  success : ∀ h ∈ s.handlers, ∀ b r, h.pc = .done (some b) r →
    r = h.command.respond b.event ∧ h.command.Asks b.event ∧ b.event ∈ s.store ∧
      ∃ record ∈ s.topic, record.value = b.event
  /-- No two requests are told that they have made the same version of an order. -/
  distinct : ∀ (i j : ℕ) (h h' : Handler) (b b' : Built) (r r' : CommandResponse),
    s.handlers[i]? = some h → s.handlers[j]? = some h' → i ≠ j → h.pc = .done (some b) r →
    h'.pc = .done (some b') r' → r.aggregateId = r'.aggregateId →
    r.aggregateVersion ≠ r'.aggregateVersion
  /-- An idempotent answer names an order that was created under the key, at a version it has. -/
  idempotent : ∀ h ∈ s.handlers, ∀ r, h.pc = .done none r →
    ∃ key, h.Creates key ∧ s.Owner key r.aggregateId ∧ s.Latest r

/-- **What a client is told is true**, at the time and as long as no document is deleted: in every
reachable state all the answers given so far hold. -/
theorem answers_hold {s : State} {as : List Action} (hrun : run step State.init as = some s) :
    AnswersHold s := by
  have hs := answerInv_run hrun
  have hbuilt : ∀ {h : Handler} {b : Built} {r : CommandResponse}, h.pc = .done (some b) r →
      h.pc.built = some b := fun hpc => by rw [hpc]; rfl
  have hstored : ∀ h ∈ s.handlers, ∀ b r, h.pc = .done (some b) r → b.event ∈ s.store :=
    fun h hh b r hpc => hs.write.inserted h hh b (by rw [hpc]; trivial) (hbuilt hpc)
  refine ⟨fun h hh b r hpc => ?_, ?_, fun h hh r hpc => ?_⟩
  · exact ⟨hs.responded h hh b r hpc, hs.asked h hh b (hbuilt hpc), hstored h hh b r hpc,
      hs.topic.sent h hh b (by rw [hpc]; trivial) (hbuilt hpc)⟩
  · intro i j h h' b b' r r' hi hj hij hpc hpc' ho hversion
    have hh := List.mem_of_getElem? hi
    have hh' := List.mem_of_getElem? hj
    rw [hs.responded h hh b r hpc, hs.responded h' hh' b' r' hpc'] at ho hversion
    have heq := hs.write.eq_of_version_eq (hstored h hh b r hpc) (hstored h' hh' b' r' hpc')
      ho hversion
    exact (hs.write.distinct i j h h' b b' hi hj hij (hbuilt hpc) (hbuilt hpc')).1
      (congrArg Event.eventId heq)
  · obtain ⟨⟨key, hkey, howner⟩, hlatest⟩ := hs.cached h hh r hpc
    exact ⟨key, hkey, howner, hlatest⟩

/-- The event and the answer of a handler that has succeeded. -/
def Pc.success? : Pc → Option (Built × CommandResponse)
  | done (some b) r => some (b, r)
  | _ => none

lemma Pc.success?_eq_some {pc : Pc} {b : Built} {r : CommandResponse} :
    pc.success? = some (b, r) ↔ pc = .done (some b) r := by
  cases pc with
  | done bo r' => cases bo <;> simp [Pc.success?]
  | _ => simp [Pc.success?]

theorem repeatedSchedule_answered : ∃ s, run step State.init repeatedSchedule = some s ∧
    s.Quiescent ∧ (∃ h ∈ s.handlers, h.pc.success?.isSome) ∧
    (∃ h ∈ s.handlers, h.pc.success? = none) ∧ AnswersHold s := by
  have heval : ((run step State.init repeatedSchedule).any fun s =>
      decide (s.Quiescent ∧ (∃ h ∈ s.handlers, h.pc.success?.isSome) ∧
        ∃ h ∈ s.handlers, h.pc.success? = none)) = true := by
    decide +kernel
  obtain ⟨s, hrun, hend, hsome, hnone⟩ := exists_run_of_eval heval
  exact ⟨s, hrun, hend, hsome, hnone, answers_hold hrun⟩

/-! ### Real time -/

/-- The handler has seen the event: what it is about to charge or has built for the order of the
event was validated against an aggregate of the event's version or a later one. -/
structure Handler.Saw (h : Handler) (e : Event) : Prop where
  charging : ∀ agg req, h.pc = .charge agg → h.command = .processPayment e.aggregateId req →
    e.aggregateVersion ≤ agg.version
  built : ∀ b, h.pc.built = some b → b.event.aggregateId = e.aggregateId →
    ∃ agg, b.agg = some agg ∧ e.aggregateVersion ≤ agg.version

section RealTime

variable {s t : State} {a : Action} {e : Event}

/-- A loaded aggregate is of the version of every stored event or a later one. -/
lemma WriteInv.load_version_le (hs : WriteInv s) (he : e ∈ s.store) {agg : OrderAggregate}
    (hload : loadAggregate s.store e.aggregateId = .ok agg) :
    e.aggregateVersion ≤ agg.version := by
  obtain ⟨hlegal, rfl⟩ := hs.load_eq hload
  obtain ⟨k, hk⟩ := List.mem_iff_getElem?.mp (mem_orderLog.mpr ⟨he, rfl⟩)
  have hlt := (List.getElem?_eq_some_iff.mp hk).1
  have hversion := hlegal.version_getElem? hk
  rw [hlegal.replay_version]
  omega

/-- A handler that has not started has seen all there was. -/
lemma Handler.Saw.of_start {h : Handler} (hpc : h.pc = .start) : h.Saw e where
  charging := by simp [hpc]
  built := by simp [hpc, Pc.built]

/-- A handler loads what is stored, and keeps what it has seen. -/
lemma Handler.Saw.move (hs : WriteInv s) (he : e ∈ s.store) {d : Draw} (hfresh : d.Fresh s.drawn)
    {h : Handler} {oc : Outcome} {sh : Shared} {pc : Pc} (hsaw : h.Saw e)
    (hmove : Move s.toShared d h oc sh pc) : Handler.Saw { h with pc } e := by
  have hkeep : ∀ {b : Built}, h.pc.built = some b → (∀ agg, pc ≠ .charge agg) →
      Handler.Saw { h with pc } e := by
    intro b hb hnot
    refine ⟨fun agg _ hpc => absurd hpc (hnot agg), fun b' hb' ho => ?_⟩
    obtain rfl := Option.some.inj ((hmove.built_eq hb).symm.trans hb')
    exact hsaw.built b hb ho
  cases hmove with
  | idle _ _ hnone hnot =>
      refine ⟨fun agg _ hpc => absurd hpc (hnot agg), fun b hb => ?_⟩
      exact absurd (hnone.symm.trans hb) (by simp)
  | toCharge _ hcmd hload _ =>
      refine ⟨fun agg req hpc hcmd' => ?_, fun b hb => by simp [Pc.built] at hb⟩
      obtain rfl := Pc.charge.inj hpc
      obtain ⟨rfl, _⟩ := Command.processPayment.inj (hcmd.symm.trans hcmd')
      exact hs.load_version_le he hload
  | create =>
      refine ⟨by simp, fun b hb ho => ?_⟩
      obtain rfl := Option.some.inj hb
      exact absurd (hs.drawnStore e he) (ho ▸ hfresh.1)
  | @build o _ _ _ hload =>
      refine ⟨by simp, fun b hb ho => ?_⟩
      obtain rfl := Option.some.inj hb
      obtain rfl : o = e.aggregateId := ho
      exact ⟨_, rfl, hs.load_version_le he hload⟩
  | @charge o _ _ hpc hcmd =>
      refine ⟨by simp, fun b hb ho => ?_⟩
      obtain rfl := Option.some.inj hb
      obtain rfl : o = e.aggregateId := ho
      exact ⟨_, rfl, hsaw.charging _ _ hpc hcmd⟩
  | skip hpc | mark hpc =>
      refine hkeep (by rw [hpc]; rfl) fun agg => ?_
      rcases h.command.published_cases _ with heq | heq <;> rw [heq] <;> simp
  | insert hpc _ hpc' | finish hpc _ _ _ _ hpc' =>
      exact hkeep (by rw [hpc]; rfl) fun agg => by rcases hpc' with ⟨_, rfl⟩ | ⟨_, rfl⟩ <;> simp
  | reject hpc | proceed hpc | send hpc | retry hpc | giveUp hpc =>
      exact hkeep (by rw [hpc]; rfl) (by simp)

/-- The event is stored, and the handler at `j`, if there is one, has seen it. -/
structure Watched (e : Event) (j : ℕ) (s : State) : Prop where
  write : WriteInv s
  stored : e ∈ s.store
  saw : ∀ h, s.handlers[j]? = some h → h.Saw e

/-- Every step keeps it so. -/
lemma Watched.step {j : ℕ} (hs : Watched e j s) (hstep : OrderCqrs.step s a = some t) :
    Watched e j t where
  write := writeInv_step hs.write hstep
  stored := store_subset hstep hs.stored
  saw := by
    intro h hget
    cases a with
    | request cmd =>
        obtain rfl := Option.some.inj hstep
        rcases ListTables.getElem?_concat_cases hget with hget | rfl
        · exact hs.saw h hget
        · exact .of_start rfl
    | expire key =>
        obtain rfl := Option.some.inj hstep
        exact hs.saw h hget
    | await i oc d =>
        obtain ⟨hfresh, g, sh, pc, hg, hmove, rfl⟩ := step_await hstep
        rcases getElem?_set_cases hget with ⟨rfl, rfl⟩ | ⟨_, hold⟩
        · exact (hs.saw g hg).move hs.write hs.stored hfresh hmove
        · exact hs.saw h hold

end RealTime

/-- **The serial order of the commands respects real time.**  Once a command has been answered, what
any later request builds for its order was validated against the replay of a stored prefix that
contains the answered event. -/
theorem seen_by_later {as bs : List Action} {s t : State} (hrun : run step State.init as = some s)
    (hnext : run step s bs = some t) {h h' : Handler} {b b' : Built} {r : CommandResponse}
    (hh : h ∈ s.handlers) (hdone : h.pc = .done (some b) r) {j : ℕ}
    (hlater : ∀ g, s.handlers[j]? = some g → g.pc = .start) (hget : t.handlers[j]? = some h')
    (hbuilt : h'.pc.built = some b') (ho : b'.event.aggregateId = r.aggregateId) :
    ∃ agg k, b'.agg = some agg ∧
      agg = replay r.aggregateId ((orderLog t.store r.aggregateId).take k) ∧
      b.event ∈ (orderLog t.store r.aggregateId).take k := by
  have hs := answerInv_run hrun
  have hstored : b.event ∈ s.store :=
    hs.write.inserted h hh b (by rw [hdone]; trivial) (by rw [hdone]; rfl)
  have ho' : r.aggregateId = b.event.aggregateId := by rw [hs.responded h hh b r hdone]; rfl
  have ht : Watched b.event j t := by
    refine run_preserves (fun hw hstep => hw.step hstep) ?_ hnext
    exact ⟨hs.write, hstored, fun g hg => .of_start (hlater g hg)⟩
  obtain ⟨agg, hagg, hle⟩ := (ht.saw h' hget).built b' hbuilt (ho.trans ho')
  have hvalid := ht.write.valid h' (List.mem_of_getElem? hget) b' hbuilt
  rw [Built.Valid, hagg, ho] at hvalid
  obtain ⟨⟨k, hpos, hk, rfl⟩, _⟩ := hvalid
  refine ⟨_, k, hagg, rfl, ?_⟩
  have hin : b.event ∈ orderLog t.store r.aggregateId := mem_orderLog.mpr ⟨ht.stored, ho'.symm⟩
  have hlegal := (ht.write.legal r.aggregateId).resolve_left (List.ne_nil_of_mem hin)
  obtain ⟨n, hn⟩ := List.mem_iff_getElem?.mp hin
  have hversion := hlegal.version_getElem? hn
  rw [hlegal.take_version hpos hk] at hle
  exact List.mem_of_getElem? ((List.getElem?_take_of_lt (by omega)).trans hn)

/-- The confirmed order is paid. -/
def payingSchedule : List Action :=
  [.request (.processPayment "order-0" payment)] ++ returns 3 16 6

/-- The payment was validated against the confirmation that had been answered before. -/
theorem confirmation_seen : ∃ s t h h' b b' r, run step State.init confirmedSchedule = some s ∧
    run step s payingSchedule = some t ∧ s.handlers[2]? = some h ∧ h.pc = .done (some b) r ∧
    t.handlers[3]? = some h' ∧ h'.pc.built = some b' ∧
    ∃ agg k, b'.agg = some agg ∧
      agg = replay r.aggregateId ((orderLog t.store r.aggregateId).take k) ∧
      b.event ∈ (orderLog t.store r.aggregateId).take k := by
  have heval : ((run step State.init confirmedSchedule).any fun s =>
      decide (s.handlers[3]? = none ∧ (∃ h ∈ s.handlers[2]?, ∃ a ∈ h.pc.success?,
        a.2.aggregateId = "order-0") ∧ ((run step s payingSchedule).any fun t =>
          decide (∃ h' ∈ t.handlers[3]?, ∃ b' ∈ h'.pc.built,
            b'.event.aggregateId = "order-0")) = true)) = true := by
    decide +kernel
  obtain ⟨s, hrun, hnone, ⟨h, hget, ⟨b, r⟩, hdone, ho⟩, hnext⟩ := exists_run_of_eval heval
  obtain ⟨t, hnext, h', hget', b', hb', ho'⟩ := exists_run_of_eval hnext
  have hpc := Pc.success?_eq_some.mp hdone
  refine ⟨s, t, h, h', b, b', r, hrun, hnext, hget, hpc, hget', hb', ?_⟩
  exact seen_by_later hrun hnext (List.mem_of_getElem? hget) hpc
    (fun g hg => by simp [hnone] at hg) hget' hb' (ho'.trans ho.symm)

end OrderCqrs
