import OrderCqrs.Command.Serializability
import OrderCqrs.Logic.Lists

/-!
Charges and recorded payments (`process_payment`).

* `builtEvents`, `ledger_step`, `ledger_run`: **the ledger**: the successful charges are, up to
  order, those of the payment events the handlers have built, stored or not.
* `LegalLog.charges_le_one`: a legal log records at most one charge.
* `ChargesRecorded`: the charges made for an order are the payments stored for it.
* `charges_recorded_iff`: **when every charge is recorded**: after any run that leaves no handler
  in flight, precisely if no append of a charged payment failed (`PaymentStored`).
* `double_charge`: two concurrent payments of one order are both charged and only one is recorded.
-/

namespace OrderCqrs

open Runs ListTables

/-! ### The ledger -/

/-- The charge a payment event records. -/
def Event.charge? (e : Event) : Option Charge :=
  e.payload.payment?.map fun p => ⟨e.aggregateId, p.paymentId, p.amount⟩

/-- The events the handlers have built so far, stored or not.  A payment event is built exactly
when the gateway has accepted the charge. -/
def State.builtEvents (s : State) : List Event :=
  s.handlers.filterMap fun h => h.pc.built.map (·.event)

lemma mem_builtEvents {s : State} {e : Event} :
    e ∈ s.builtEvents ↔ ∃ h ∈ s.handlers, ∃ b, h.pc.built = some b ∧ b.event = e := by
  simp [State.builtEvents, List.mem_filterMap, Option.map_eq_some_iff]

/-- A step charges and builds nothing, or builds one event and charges what it records. -/
lemma ledger_step {s t : State} {a : Action} (hstep : step s a = some t) :
    t.charges = s.charges ∧ t.builtEvents = s.builtEvents ∨
      ∃ e, t.builtEvents.Perm (e :: s.builtEvents) ∧
        t.charges = s.charges ++ e.charge?.toList := by
  cases a with
  | request cmd =>
      rw [step, Option.some.injEq] at hstep
      subst hstep
      exact Or.inl ⟨rfl, by simp [State.builtEvents, List.filterMap_append, Pc.built]⟩
  | expire key =>
      rw [step, Option.some.injEq] at hstep
      subst hstep
      exact Or.inl ⟨rfl, rfl⟩
  | await i oc d =>
      obtain ⟨_, h, sh, pc, hget, hmove, rfl⟩ := step_await hstep
      -- the two ways a handler can go on: with what it had built, or with a new event
      have hkeep : pc.built = h.pc.built → (s.handlers.set i { h with pc }).filterMap
          (fun h => h.pc.built.map (·.event)) = s.builtEvents := fun hb =>
        filterMap_set_of_eq hget (by simp only [hb])
      have hnew : ∀ b, h.pc.built = none → pc.built = some b →
          ((s.handlers.set i { h with pc }).filterMap fun h => h.pc.built.map (·.event)).Perm
            (b.event :: s.builtEvents) := fun b hn hb =>
        filterMap_set_of_none hget (by simp only [hn, Option.map_none])
          (by simp only [hb, Option.map_some])
      cases hmove with
      | idle hb _ hb' => exact Or.inl ⟨rfl, hkeep (hb'.trans hb.symm)⟩
      | toCharge hpc => exact Or.inl ⟨rfl, hkeep (by rw [hpc]; rfl)⟩
      | create hpc hcmd =>
          exact Or.inr ⟨_, hnew _ (by rw [hpc]; rfl) rfl, by
            simp [Event.charge?, orderCreatedEvent, Stamp.event, Payload.payment?]⟩
      | build hpc _ _ hpay =>
          exact Or.inr ⟨_, hnew _ (by rw [hpc]; rfl) rfl, by
            simp [Event.charge?, Stamp.event, hpay]⟩
      | charge hpc hcmd => exact Or.inr ⟨_, hnew _ (by rw [hpc]; rfl) rfl, rfl⟩
      | insert hpc _ hpc' =>
          refine Or.inl ⟨rfl, hkeep ?_⟩
          rcases hpc' with ⟨_, rfl⟩ | ⟨_, rfl⟩ <;> (rw [hpc]; rfl)
      | reject hpc => exact Or.inl ⟨rfl, hkeep (by rw [hpc]; rfl)⟩
      | @skip b n hpc =>
          refine Or.inl ⟨rfl, hkeep ?_⟩
          rcases h.command.published_cases b with heq | heq <;> (rw [heq, hpc]; rfl)
      | proceed hpc => exact Or.inl ⟨rfl, hkeep (by rw [hpc]; rfl)⟩
      | send hpc => exact Or.inl ⟨rfl, hkeep (by rw [hpc]; rfl)⟩
      | @mark b n hpc =>
          refine Or.inl ⟨rfl, hkeep ?_⟩
          rcases h.command.published_cases b with heq | heq <;> (rw [heq, hpc]; rfl)
      | retry hpc _ _ heff => exact Or.inl ⟨heff.charges, hkeep (by rw [hpc]; rfl)⟩
      | giveUp hpc _ _ heff => exact Or.inl ⟨heff.charges, hkeep (by rw [hpc]; rfl)⟩
      | finish hpc _ hcharges _ _ hpc' =>
          refine Or.inl ⟨hcharges, hkeep ?_⟩
          rcases hpc' with ⟨_, rfl⟩ | ⟨_, rfl⟩ <;> (rw [hpc]; rfl)

/-- **The ledger**: in every reachable state the charges are those of the built payment events. -/
theorem ledger_run {s : State} {as : List Action} (h : run step State.init as = some s) :
    s.charges.Perm (s.builtEvents.filterMap Event.charge?) := by
  refine run_preserves (P := fun s => s.charges.Perm (s.builtEvents.filterMap Event.charge?))
    (fun {s a t} hs hstep => ?_) (by simp [State.init, State.builtEvents]) h
  rcases ledger_step hstep with ⟨hc, hb⟩ | ⟨e, hb, hc⟩
  · rw [hc, hb]
    exact hs
  · have hperm := hb.filterMap Event.charge?
    rw [List.filterMap_cons] at hperm
    rw [hc]
    cases he : e.charge? with
    | none =>
        rw [he] at hperm
        simpa using hs.trans hperm.symm
    | some c =>
        rw [he] at hperm
        have hswap : (s.charges ++ [c]).Perm (c :: s.charges) := List.perm_append_singleton c _
        exact hswap.trans ((hs.cons c).trans hperm.symm)

/-! ### At most one recorded payment -/

/-- A legal log records at most one charge. -/
lemma LegalLog.charges_le_one {o : String} {log : List Event} (h : LegalLog o log) :
    (log.filterMap Event.charge?).length ≤ 1 := by
  refine h.once (t := .orderPaymentProcessed) (r := 2) (by decide)
    (fun e hcharge => ?_) fun a b hstep => ?_
  · rw [Event.eventType]
    cases hp : e.payload with
    | orderPaymentProcessed p => rfl
    | _ => simp [Event.charge?, hp, Payload.payment?] at hcharge
  · cases hstep
    decide

/-! ### Every charge is recorded -/

/-- **Every charge of an order is recorded.** -/
structure ChargesRecorded (s : State) (o : String) : Prop where
  /-- The charges made for the order are those of the payments stored for it. -/
  correspondence : (s.charges.filter fun c => c.orderId = o).Perm
    ((orderLog s.store o).filterMap Event.charge?)
  /-- The order is charged at most once. -/
  atMostOnce : (s.charges.filter fun c => c.orderId = o).length ≤ 1
  /-- A request that ends in a version conflict has charged nothing. -/
  conflict : ∀ h ∈ s.handlers, ∀ b, h.pc = .failed (some b) (versionConflict b.event) →
    b.event.aggregateId = o → b.event.charge? = none

/-- The append of a charged payment succeeds: its version is still free and the store does not
fail before the insert. -/
def PaymentStored (s : State) : Action → Prop
  | .await i oc _ => ∀ h b, s.handlers[i]? = some h → h.pc = .append b →
      b.event.charge? ≠ none → oc ≠ .raises ∧ ∀ d ∈ s.store, ¬ DuplicateKey b.event d
  | _ => True

/-- No handler has failed with a charged payment that is not stored. -/
def NoLostPayment (s : State) : Prop :=
  ∀ h ∈ s.handlers, ∀ b err, h.pc = .failed (some b) err → b.event.charge? ≠ none →
    b.event ∈ s.store

section Steps

variable {s t : State} {a : Action}

lemma noLostPayment_keep (hs : WriteInv s) (hgood : NoLostPayment s) (hC : PaymentStored s a)
    (hstep : step s a = some t) : NoLostPayment t := by
  intro g hg b err hpc hcharge
  rcases failed_after_step hstep hg hpc with hold | ⟨i, oc, d, h, rfl, hget, hfail⟩
  · exact store_subset hstep (hgood g hold b err hpc hcharge)
  · cases hfail with
    | lostInsert _ _ _ hin => exact hin
    | rejected happ hwhy =>
        obtain ⟨hne, hfree⟩ := hC h b hget happ hcharge
        rcases hwhy with hraise | ⟨d', hd', hdup⟩
        · exact absurd hraise hne
        · exact absurd hdup (hfree d' hd')
    | later hpc' =>
        exact store_subset hstep (hs.stored_of_later (List.mem_of_getElem? hget) hpc')

lemma noLostPayment_lose (hs : WriteInv s) (hC : ¬ PaymentStored s a)
    (hstep : step s a = some t) : ¬ NoLostPayment t := by
  cases a with
  | request cmd => exact absurd trivial hC
  | expire key => exact absurd trivial hC
  | await i oc d =>
      obtain ⟨_, h, sh, pc, hget, hmove, rfl⟩ := step_await hstep
      have hmem := List.mem_of_getElem? hget
      have hlt := (List.getElem?_eq_some_iff.mp hget).1
      simp only [PaymentStored] at hC
      push Not at hC
      obtain ⟨h', b, hget', hpc, hcharge, hwhy⟩ := hC
      rw [hget, Option.some.injEq] at hget'
      subst hget'
      have hnew := (hs.pending h hmem b hpc).1
      have hnot : b.event ∉ s.store := fun hin => hnew b.event hin rfl
      intro hgood
      cases hmove with
      | @insert _ b' _ hb' hfree hend =>
          obtain rfl : b = b' := by simpa [hpc] using hb'
          have hne : oc ≠ .raises := by
            rcases hend with ⟨rfl, _⟩ | ⟨rfl, _⟩ <;> simp
          obtain ⟨d', hd', hdup⟩ := hwhy hne
          exact hfree d' hd' hdup
      | @reject _ b' err hb' =>
          obtain rfl : b = b' := by simpa [hpc] using hb'
          exact hnot (hgood _ (List.mem_set hlt _) b err rfl hcharge)
      | idle hb => simp [hpc, Pc.built] at hb
      | _ => simp_all

lemma noLostPayment_stay (hs : WriteInv s) (hbad : ¬ NoLostPayment s)
    (hstep : step s a = some t) : ¬ NoLostPayment t := by
  simp only [NoLostPayment] at hbad
  push Not at hbad
  obtain ⟨h, hmem, b, err, hpc, hcharge, hnot⟩ := hbad
  have hend : h.pc.Ended := by rw [hpc]; trivial
  intro hgood
  exact unstored_persists hs hstep hmem hend (by rw [hpc]; rfl) hnot
    (hgood h (ended_persists hstep hmem hend) b err hpc hcharge)

end Steps

/-- A handler that failed with a version conflict has not stored its event. -/
lemma conflict_unstored {s : State} {as : List Action} (h : run step State.init as = some s) :
    ∀ g ∈ s.handlers, ∀ b, g.pc = .failed (some b) (versionConflict b.event) →
      b.event ∉ s.store := by
  suffices hboth : WriteInv s ∧ ∀ g ∈ s.handlers, ∀ b,
      g.pc = .failed (some b) (versionConflict b.event) → b.event ∉ s.store from hboth.2
  refine run_preserves (P := fun s => WriteInv s ∧ ∀ g ∈ s.handlers, ∀ b,
    g.pc = .failed (some b) (versionConflict b.event) → b.event ∉ s.store)
    (fun {s a t} hs hstep => ⟨writeInv_step hs.1 hstep, fun g hg b hpc => ?_⟩)
    ⟨writeInv_init, by simp [State.init]⟩ h
  rcases failed_after_step hstep hg hpc with hold | ⟨i, oc, d, h, rfl, hget, hfail⟩
  · exact unstored_persists hs.1 hstep hold (by rw [hpc]; trivial) (by rw [hpc]; rfl)
      (hs.2 g hold b hpc)
  · cases hfail with
    | lostInsert _ _ herr => simp [versionConflict] at herr
    | rejected happ _ hstore =>
        rw [hstore]
        exact fun hin => (hs.1.pending h (List.mem_of_getElem? hget) b happ).1 _ hin rfl
    | later _ _ herr => simp [versionConflict] at herr

/-! ### The correspondence in a quiescent state -/

/-- Different handlers have built different events. -/
lemma WriteInv.builtEvents_nodup {s : State} (hs : WriteInv s) : s.builtEvents.Nodup := by
  rw [State.builtEvents, List.Nodup, List.pairwise_filterMap, List.pairwise_iff_getElem]
  intro i j hi hj hij e he e' he'
  obtain ⟨b, hb, rfl⟩ := Option.map_eq_some_iff.mp he
  obtain ⟨b', hb', rfl⟩ := Option.map_eq_some_iff.mp he'
  have hdist := hs.distinct i j _ _ b b' (List.getElem?_eq_getElem hi)
    (List.getElem?_eq_getElem hj) (by omega) hb hb'
  exact fun heq => hdist.1 (by rw [heq])

/-- The payment events of an order among some events. -/
def paymentEvents (o : String) (events : List Event) : List Event :=
  (orderLog events o).filter fun e => e.charge?.isSome

lemma mem_paymentEvents {o : String} {events : List Event} {e : Event} :
    e ∈ paymentEvents o events ↔ e ∈ events ∧ e.aggregateId = o ∧ e.charge?.isSome := by
  simp [paymentEvents, mem_orderLog, and_assoc]

/-- The charges of an order among those some events record are those its own events record. -/
lemma filter_charges (o : String) (events : List Event) :
    (events.filterMap Event.charge?).filter (fun c => c.orderId = o) =
      (orderLog events o).filterMap Event.charge? := by
  induction events with
  | nil => rfl
  | cons e es ih =>
      rw [List.filterMap_cons, orderLog, List.filter_cons]
      cases hc : e.charge? with
      | none =>
          by_cases ho : e.aggregateId = o
          · simpa [ho, hc, orderLog] using ih
          · simpa [ho, orderLog] using ih
      | some c =>
          have horder : c.orderId = e.aggregateId := by
            obtain ⟨p, _, rfl⟩ := Option.map_eq_some_iff.mp hc
            rfl
          by_cases ho : e.aggregateId = o
          · simpa [ho, hc, horder, orderLog] using ih
          · simpa [ho, horder, orderLog] using ih

section Quiescent

variable {s : State} {as : List Action}

/-- The charges made for an order are those its built payment events record. -/
lemma charges_perm (hrun : run step State.init as = some s) (o : String) :
    (s.charges.filter fun c => c.orderId = o).Perm
      ((paymentEvents o s.builtEvents).filterMap Event.charge?) := by
  rw [paymentEvents, filterMap_filter_isSome, ← filter_charges]
  exact (ledger_run hrun).filter _

/-- The stored payment events of an order are built ones. -/
lemma WriteInv.paymentEvents_subset (hs : WriteInv s) (o : String) :
    paymentEvents o s.store ⊆ paymentEvents o s.builtEvents := by
  intro e he
  obtain ⟨hin, hpay⟩ := mem_paymentEvents.mp he
  exact mem_paymentEvents.mpr ⟨mem_builtEvents.mpr (hs.stored e hin), hpay⟩

/-- When no charged payment has been lost and no handler is in flight, every built payment event
is stored. -/
lemma NoLostPayment.paymentEvents_subset (hgood : NoLostPayment s) (hs : WriteInv s)
    (hq : s.Quiescent) (o : String) :
    paymentEvents o s.builtEvents ⊆ paymentEvents o s.store := by
  intro e he
  obtain ⟨hin, ho, hpay⟩ := mem_paymentEvents.mp he
  obtain ⟨h, hmem, b, hb, rfl⟩ := mem_builtEvents.mp hin
  refine mem_paymentEvents.mpr ⟨?_, ho, hpay⟩
  have hend := hq h hmem
  cases hpc : h.pc with
  | done b' r => exact hs.inserted h hmem b (by simp [hpc, Pc.Inserted]) hb
  | failed b' err =>
      obtain rfl : b' = some b := by simpa [hpc, Pc.built] using hb
      exact hgood h hmem b err hpc (by rw [Ne, ← Option.not_isSome_iff_eq_none]; simp [hpay])
  | _ => simp [hpc, Pc.Ended] at hend

/-- With no handler in flight, every charge is recorded precisely if none was lost. -/
lemma chargesRecorded_iff_noLostPayment (hrun : run step State.init as = some s)
    (hq : s.Quiescent) : (∀ o, ChargesRecorded s o) ↔ NoLostPayment s := by
  have hs := writeInv_run hrun
  have hrecorded : ∀ o, (orderLog s.store o).filterMap Event.charge? =
      (paymentEvents o s.store).filterMap Event.charge? := fun o => by
    rw [paymentEvents, filterMap_filter_isSome]
  have hstoredNodup : ∀ o, (paymentEvents o s.store).Nodup := fun o =>
    (hs.orderLog_nodup o).filter _
  constructor
  · intro hall h hmem b err hpc hcharge
    by_contra hnot
    have hpay : b.event.charge?.isSome := Option.isSome_iff_ne_none.mpr hcharge
    have hbuilt : b.event ∈ paymentEvents b.event.aggregateId s.builtEvents :=
      mem_paymentEvents.mpr ⟨mem_builtEvents.mpr ⟨h, hmem, b, by rw [hpc]; rfl, rfl⟩, rfl, hpay⟩
    -- the lost payment makes the built payments of its order outnumber the stored ones
    have hlt := length_lt_of_missing (hstoredNodup _) (hs.paymentEvents_subset _) hbuilt
      fun hin => hnot (mem_paymentEvents.mp hin).1
    have hlen : ∀ events, ((paymentEvents b.event.aggregateId events).filterMap
        Event.charge?).length = (paymentEvents b.event.aggregateId events).length := by
      intro events
      rw [List.length_filterMap_eq_countP, List.countP_eq_length]
      exact fun e he => (mem_paymentEvents.mp he).2.2
    have hperm := (hall b.event.aggregateId).correspondence
    rw [hrecorded] at hperm
    have heq := ((charges_perm hrun b.event.aggregateId).symm.trans hperm).length_eq
    rw [hlen, hlen] at heq
    omega
  · intro hgood o
    have hperm : (paymentEvents o s.builtEvents).Perm (paymentEvents o s.store) := by
      have hbuiltNodup : (paymentEvents o s.builtEvents).Nodup :=
        (hs.builtEvents_nodup.filter _).filter _
      refine (List.perm_ext_iff_of_nodup hbuiltNodup (hstoredNodup o)).mpr fun e => ?_
      exact ⟨fun he => hgood.paymentEvents_subset hs hq o he,
        fun he => hs.paymentEvents_subset o he⟩
    have hcorr : (s.charges.filter fun c => c.orderId = o).Perm
        ((orderLog s.store o).filterMap Event.charge?) := by
      rw [hrecorded]
      exact (charges_perm hrun o).trans (hperm.filterMap _)
    refine ⟨hcorr, ?_, fun h hmem b hpc ho => ?_⟩
    · rw [hcorr.length_eq]
      rcases hs.legal o with hnil | hlegal
      · simp [hnil]
      · exact hlegal.charges_le_one
    · by_contra hcharge
      exact conflict_unstored hrun h hmem b hpc (hgood h hmem b _ hpc hcharge)

/-- **When every charge is recorded**: after a run that leaves no handler in flight, the charges
of every order are its recorded payments precisely if, along the run, no append of a charged
payment failed. -/
theorem charges_recorded_iff (hrun : run step State.init as = some s) (hq : s.Quiescent) :
    (∀ o, ChargesRecorded s o) ↔ Along step PaymentStored State.init as := by
  rw [chargesRecorded_iff_noLostPayment hrun hq]
  exact good_iff_along (fun hs hstep => writeInv_step hs hstep)
    (fun hs hgood hC hstep => noLostPayment_keep hs hgood hC hstep)
    (fun hs hC hstep => noLostPayment_lose hs hC hstep)
    (fun hs hbad hstep => noLostPayment_stay hs hbad hstep) writeInv_init
    (by simp [NoLostPayment, State.init]) hrun

end Quiescent

lemma payment_amount_pos : (0 : ℚ) < 450 := by norm_num

/-- The payment of the one item. -/
def payment : ProcessPaymentRequest where
  paymentId := "pay-1"
  amount := 450
  method := "CARD"
  amount_pos := payment_amount_pos

/-- One order is created, filled and confirmed. -/
def confirmedSchedule : List Action :=
  [.request (.createOrder ⟨"cust-1", "a@test.com", "key-1"⟩)] ++ returns 0 0 6 ++
    [.request (.addItem "order-0" oneItem)] ++ returns 1 6 5 ++
    [.request (.confirmOrder "order-0")] ++ returns 2 11 5

/-- The confirmed order is paid. -/
def paidSchedule : List Action :=
  confirmedSchedule ++ [.request (.processPayment "order-0" payment)] ++ returns 3 16 6

theorem paidSchedule_recorded_iff : ∃ s, run step State.init paidSchedule = some s ∧
    ((∀ o, ChargesRecorded s o) ↔ Along step PaymentStored State.init paidSchedule) := by
  obtain ⟨s, hrun, hq⟩ := exists_run_of_eval
    (by decide +kernel : ((run step State.init paidSchedule).any
      fun s => decide s.Quiescent) = true)
  exact ⟨s, hrun, charges_recorded_iff hrun hq⟩

/-- Two requests to pay the confirmed order both pass the check and the gateway before either of
them appends. -/
def doubleSchedule : List Action :=
  confirmedSchedule ++
    [.request (.processPayment "order-0" payment), .request (.processPayment "order-0" payment)] ++
    returns 3 16 2 ++ returns 4 18 2 ++ returns 3 20 4 ++ returns 4 24 1

/-- **A double charge**: with both requests over, the order has been charged twice and one payment
is stored. -/
theorem double_charge : ∃ s, run step State.init doubleSchedule = some s ∧ s.Quiescent ∧
    s.charges = [⟨"order-0", "pay-1", 450⟩, ⟨"order-0", "pay-1", 450⟩] ∧
    ¬ ChargesRecorded s "order-0" := by
  obtain ⟨s, hrun, hq, hcharges⟩ := exists_run_of_eval
    (by decide +kernel : ((run step State.init doubleSchedule).any fun s => decide (s.Quiescent ∧
      s.charges = [⟨"order-0", "pay-1", 450⟩, ⟨"order-0", "pay-1", 450⟩])) = true)
  refine ⟨s, hrun, hq, hcharges, fun hall => ?_⟩
  have honce := hall.atMostOnce
  rw [hcharges] at honce
  exact absurd honce (by decide +kernel)

end OrderCqrs
