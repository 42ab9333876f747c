import OrderCqrs.Projection.Replay

/-!
The events of an order projected in another order than they were recorded in.

* `beforeCreation`: the events projected while the order has no row.
* `SameOutcome`: what a reordering must respect for the tables not to notice it.
* `itemImage_eq_iff`, `LegalLog.orderState_eq_iff`: what it takes for the item rows and for the row.
* `reordered_eq_iff`: **exactly the reorderings with that property lead to the same tables**.
-/

namespace OrderCqrs

open Runs LastWriter

/-- The events that come before the creation of the order. -/
def beforeCreation (evs : List Event) : List Event :=
  evs.takeWhile (·.eventType ≠ .orderCreated)

/-- **What a reordering of a log must respect.** -/
structure SameOutcome (log evs : List Event) : Prop where
  /-- The newest event comes last. -/
  newest : evs.getLast? = log.getLast?
  /-- No payment and no shipment comes before the creation. -/
  notLost : ∀ e ∈ beforeCreation evs,
    e.eventType ≠ .orderPaymentProcessed ∧ e.eventType ≠ .orderShipped
  /-- The first addition of a product has the name and the price of the first one recorded. -/
  firstAddition : ∀ p,
    (firstWrite (Event.itemRow? p) evs).map (fun row => (row.productName, row.unitPrice)) =
      (firstWrite (Event.itemRow? p) log).map fun row => (row.productName, row.unitPrice)
  /-- The last addition of a product has the quantity and the total of the last one recorded. -/
  lastAddition : ∀ p,
    (lastWrite (Event.itemRow? p) evs).map (fun row => (row.quantity, row.lineTotal)) =
      (lastWrite (Event.itemRow? p) log).map fun row => (row.quantity, row.lineTotal)

/-! ### The items -/

lemma ItemRow.merge_eq_iff {first last first' last' : ItemRow} :
    first.merge last = first'.merge last' ↔
      (first.productName, first.unitPrice) = (first'.productName, first'.unitPrice) ∧
        (last.quantity, last.lineTotal) = (last'.quantity, last'.lineTotal) := by
  cases first
  cases first'
  simp only [ItemRow.merge, ItemRow.mk.injEq, Prod.mk.injEq]
  tauto

/-- Two lists of events leave the same item row when they agree on what the row is made of. -/
lemma itemImage_eq_iff {evs evs' : List Event} {p : String} :
    itemImage evs p = itemImage evs' p ↔
      (firstWrite (Event.itemRow? p) evs).map (fun row => (row.productName, row.unitPrice)) =
          (firstWrite (Event.itemRow? p) evs').map (fun row => (row.productName, row.unitPrice)) ∧
        (lastWrite (Event.itemRow? p) evs).map (fun row => (row.quantity, row.lineTotal)) =
          (lastWrite (Event.itemRow? p) evs').map fun row => (row.quantity, row.lineTotal) := by
  have hboth := firstWrite_isSome_iff (Event.itemRow? p) evs
  have hboth' := firstWrite_isSome_iff (Event.itemRow? p) evs'
  rw [itemImage_eq, itemImage_eq]
  cases hf : firstWrite (Event.itemRow? p) evs with
  | none =>
      have hl : lastWrite (Event.itemRow? p) evs = none := by simpa [hf] using hboth
      cases hf' : firstWrite (Event.itemRow? p) evs' with
      | none =>
          have hl' : lastWrite (Event.itemRow? p) evs' = none := by simpa [hf'] using hboth'
          simp [hl, hl']
      | some first' =>
          obtain ⟨last', hl'⟩ := Option.isSome_iff_exists.mp (hboth'.mp (by rw [hf']; rfl))
          simp [hl']
  | some first =>
      obtain ⟨last, hl⟩ := Option.isSome_iff_exists.mp (hboth.mp (by rw [hf]; rfl))
      cases hf' : firstWrite (Event.itemRow? p) evs' with
      | none => simp [hl]
      | some first' =>
          obtain ⟨last', hl'⟩ := Option.isSome_iff_exists.mp (hboth'.mp (by rw [hf']; rfl))
          rw [hl, hl', Option.map₂_some_some, Option.map₂_some_some, Option.map_some,
            Option.map_some, Option.map_some, Option.map_some, Option.some.injEq, Option.some.injEq,
            Option.some.injEq]
          exact ItemRow.merge_eq_iff

/-! ### What a legal log records once -/

section Log

variable {o : String} {log evs : List Event}

lemma paymentId?_eq_none {e : Event} :
    e.paymentId? = none ↔ e.eventType ≠ .orderPaymentProcessed := by
  rw [Event.paymentId?, Event.eventType]
  cases e.payload <;> simp [Payload.eventType]

lemma trackingId?_eq_none {e : Event} : e.trackingId? = none ↔ e.eventType ≠ .orderShipped := by
  rw [Event.trackingId?, Event.eventType]
  cases e.payload <;> simp [Payload.eventType]

/-- A legal log writes the payment id at most once. -/
lemma LegalLog.paymentIds_le_one (h : LegalLog o log) :
    (log.filterMap Event.paymentId?).length ≤ 1 := by
  refine h.once (t := .orderPaymentProcessed) (r := 2) (by decide)
    (fun e hpay => ?_) fun a b hstep => ?_
  · exact not_not.mp fun hne => hpay (paymentId?_eq_none.mpr hne)
  · cases hstep
    decide

/-- A legal log writes the tracking id at most once. -/
lemma LegalLog.trackingIds_le_one (h : LegalLog o log) :
    (log.filterMap Event.trackingId?).length ≤ 1 := by
  refine h.once (t := .orderShipped) (r := 3) (by decide)
    (fun e hship => ?_) fun a b hstep => ?_
  · exact not_not.mp fun hne => hship (trackingId?_eq_none.mpr hne)
  · cases hstep
    decide

/-- While an order is pending, no event has written its status. -/
lemma LegalLog.status?_eq_none (h : LegalLog o log) (hpending : (replay o log).status = .pending) :
    ∀ e ∈ log, e.status? = none := by
  obtain ⟨e₀, c, es, rfl, hc, _⟩ := h.exists_cons
  have hstate := replay_state h.orderEvents
  rw [orderState_cons hc, Option.some.injEq] at hstate
  have hstatus := congrArg OrderState.status hstate
  rw [foldl_apply_status, OrderAggregate.state, hpending] at hstatus
  have hnone : lastWrite Event.status? es = lastWrite Event.status? [] := by
    refine (getD_lastWrite_inj Event.status? (b := OrderStatus.pending.value) ?_).mp hstatus.symm
    intro e
    rw [Event.status?]
    cases e.payload <;> simp [OrderStatus.value]
  rw [lastWrite_nil, lastWrite_eq_none] at hnone
  refine List.forall_mem_cons.mpr ⟨?_, hnone⟩
  rw [Event.status?, hc]

/-- The events of a legal log are told apart by their versions. -/
lemma LegalLog.eq_of_version (h : LegalLog o log) {a b : Event} (ha : a ∈ log) (hb : b ∈ log)
    (hab : a.aggregateVersion = b.aggregateVersion) : a = b := by
  have hnodup : (log.map (·.aggregateVersion)).Nodup := by
    rw [h.versions_eq]
    exact (versionsUpTo_pairwise _).imp ne_of_lt
  exact List.inj_on_of_nodup_map hnodup ha hb hab

/-! ### The columns of the row -/

lemma eventType_eq_created {e : Event} :
    e.eventType = .orderCreated ↔ ∃ c, e.payload = .orderCreated c := by
  rw [Event.eventType]
  cases e.payload <;> simp [Payload.eventType]

/-- A reordered legal log: the creation stands between the events that come before it and the
rest. -/
lemma LegalLog.exists_split (h : LegalLog o log) (hperm : evs.Perm log) :
    ∃ e c es post, log = e :: es ∧ e.payload = .orderCreated c ∧
      (∀ e' ∈ es, ∀ c', e'.payload ≠ .orderCreated c') ∧
      evs = beforeCreation evs ++ e :: post ∧ (beforeCreation evs ++ post).Perm es := by
  obtain ⟨e, c, es, rfl, hc, hes⟩ := h.exists_cons
  obtain ⟨pre, post, rfl, _⟩ :=
    List.eq_append_cons_of_mem (hperm.mem_iff.mpr (List.mem_cons_self (a := e) (l := es)))
  have hrest : (pre ++ post).Perm es := (List.perm_middle.symm.trans hperm).cons_inv
  have hpre : ∀ d ∈ pre, decide (d.eventType ≠ .orderCreated) = true := by
    intro d hd
    rw [decide_eq_true_iff, Ne, eventType_eq_created]
    rintro ⟨c', hc'⟩
    exact hes d (hrest.mem_iff.mp (List.mem_append_left _ hd)) c' hc'
  have hbefore : beforeCreation (pre ++ e :: post) = pre := by
    rw [beforeCreation, List.takeWhile_append_of_pos hpre, List.takeWhile_cons_of_neg,
      List.append_nil]
    simp [eventType_eq_created, hc]
  exact ⟨e, c, es, post, rfl, hc, hes, by rw [hbefore], by rwa [hbefore]⟩

/-- The newest event of an order gives it its version. -/
lemma getLast?_version {e : Event} {es : List Event}
    (hes : ∀ e' ∈ es, ∀ c', e'.payload ≠ .orderCreated c') :
    (e :: es).getLast?.map (·.aggregateVersion) =
      some ((lastWrite Event.version? es).getD e.aggregateVersion) := by
  induction es using List.reverseRecOn with
  | nil => rfl
  | append_singleton es d _ =>
      have hd : d.version? = some d.aggregateVersion := by
        rw [Event.version?]
        cases hp : d.payload with
        | orderCreated c' => exact absurd hp (hes d (by simp) c')
        | _ => rfl
      rw [← List.cons_append, List.getLast?_concat, lastWrite_concat, hd]
      rfl

/-- The version is right when the newest event comes last. -/
lemma LegalLog.version_eq_iff {e : Event} {es pre post : List Event} (h : LegalLog o (e :: es))
    (hes : ∀ e' ∈ es, ∀ c', e'.payload ≠ .orderCreated c') (hperm : (pre ++ post).Perm es) :
    (lastWrite Event.version? post).getD e.aggregateVersion =
        (lastWrite Event.version? es).getD e.aggregateVersion ↔
      (pre ++ e :: post).getLast? = (e :: es).getLast? := by
  have hsub : ∀ d ∈ post, d ∈ es := fun d hd => hperm.mem_iff.mp (List.mem_append_right _ hd)
  have hpost := getLast?_version (e := e) fun e' he' => hes e' (hsub e' he')
  have hlog := getLast?_version (e := e) hes
  rw [List.getLast?_append_cons, ← Option.some.injEq, ← hpost, ← hlog]
  obtain ⟨a, ha⟩ : ∃ a, (e :: post).getLast? = some a :=
    ⟨_, List.getLast?_eq_some_getLast (by simp)⟩
  obtain ⟨b, hb⟩ : ∃ b, (e :: es).getLast? = some b := ⟨_, List.getLast?_eq_some_getLast (by simp)⟩
  have hmem : a ∈ e :: es := by
    obtain rfl | hin := List.mem_cons.mp (List.mem_of_getLast? ha)
    · exact List.mem_cons_self
    · exact List.mem_cons_of_mem _ (hsub a hin)
  rw [ha, hb, Option.map_some, Option.map_some, Option.some.injEq, Option.some.injEq]
  exact ⟨h.eq_of_version hmem (List.mem_of_getLast? hb), fun hab => by rw [hab]⟩

/-- When the newest event comes last, the status is right. -/
lemma LegalLog.status_eq {e : Event} {es pre post : List Event} (h : LegalLog o (e :: es))
    (hes : ∀ e' ∈ es, ∀ c', e'.payload ≠ .orderCreated c') (hc : ∃ c, e.payload = .orderCreated c)
    (hperm : (pre ++ post).Perm es) (hlast : (pre ++ e :: post).getLast? = (e :: es).getLast?) :
    lastWrite Event.status? post = lastWrite Event.status? es := by
  rw [List.getLast?_append_cons] at hlast
  have hsub : ∀ d ∈ post, d ∈ es := fun d hd => hperm.mem_iff.mp (List.mem_append_right _ hd)
  -- it is enough that one of the two lists has no status, or both end with the same one
  have hnone (hall : ∀ d ∈ es, d.status? = none) :
      lastWrite Event.status? post = lastWrite Event.status? es := by
    rw [(lastWrite_eq_none _).mpr hall, lastWrite_eq_none]
    exact fun d hd => hall d (hsub d hd)
  cases es using List.reverseRecOn with
  | nil => exact hnone fun d hd => absurd hd List.not_mem_nil
  | append_singleton es d _ =>
      have hcreated := hes d (by simp)
      rw [← List.cons_append, List.getLast?_concat] at hlast
      cases hd : d.status? with
      | none =>
          refine hnone fun d' hd' => ?_
          rw [← List.cons_append] at h
          obtain ⟨hlog, _, hallow⟩ := h.of_concat (List.cons_ne_nil e es)
          have hpending : (replay o (e :: es)).status = .pending := by
            cases hp : d.payload with
            | orderItemAdded item =>
                rw [hp] at hallow
                exact OrderAggregate.assertCanAddItem_eq_ok.mp hallow
            | orderCreated c' => exact absurd hp (hcreated c')
            | _ => simp [Event.status?, hp] at hd
          obtain hin | heq := List.mem_append.mp hd'
          · exact hlog.status?_eq_none hpending d' (List.mem_cons_of_mem _ hin)
          · rw [List.mem_singleton.mp heq, hd]
      | some st =>
          cases post using List.reverseRecOn with
          | nil =>
              obtain rfl : e = d := by simpa using hlast
              exact absurd hc (by simpa using hcreated)
          | append_singleton post d' _ =>
              rw [← List.cons_append, List.getLast?_concat, Option.some.injEq] at hlast
              rw [hlast, lastWrite_concat, lastWrite_concat, hd]
              rfl

/-- **The row of a reordered log.** -/
theorem LegalLog.orderState_eq_iff (h : LegalLog o log) (hperm : evs.Perm log) :
    orderState evs = orderState log ↔ evs.getLast? = log.getLast? ∧
      ∀ e ∈ beforeCreation evs, e.paymentId? = none ∧ e.trackingId? = none := by
  obtain ⟨e, c, es, post, rfl, hc, hes, hevs, hrest⟩ := h.exists_split hperm
  have hpre : ∀ e' ∈ beforeCreation evs, ∀ c', e'.payload ≠ .orderCreated c' := fun e' he' =>
    hes e' (hrest.mem_iff.mp (List.mem_append_left _ he'))
  generalize beforeCreation evs = pre at hevs hrest hpre ⊢
  subst hevs
  have hone : (es.filterMap Event.paymentId?).length ≤ 1 := by
    simpa [Event.paymentId?, hc] using h.paymentIds_le_one
  have hone' : (es.filterMap Event.trackingId?).length ≤ 1 := by
    simpa [Event.trackingId?, hc] using h.trackingIds_le_one
  have hpayment := lastWrite_eq_iff_of_perm Event.paymentId? hrest hone
  have htracking := lastWrite_eq_iff_of_perm Event.trackingId? hrest hone'
  have hversion := h.version_eq_iff hes hrest
  have hcust := foldl_apply_customer (.created c e.aggregateVersion) post
  have hcust' := foldl_apply_customer (.created c e.aggregateVersion) es
  rw [orderState_append_cons hpre hc, orderState_cons hc, Option.some.injEq, OrderState.ext_iff,
    foldl_apply_status, foldl_apply_status, foldl_apply_version, foldl_apply_version,
    foldl_apply_paymentId, foldl_apply_paymentId, foldl_apply_trackingId, foldl_apply_trackingId,
    hcust.1, hcust.2, hcust'.1, hcust'.2]
  have hpay : (lastWrite Event.paymentId? post).getD none =
        (lastWrite Event.paymentId? es).getD none ↔
      lastWrite Event.paymentId? post = lastWrite Event.paymentId? es :=
    getD_lastWrite_inj _ fun d => by rw [Event.paymentId?]; cases d.payload <;> simp
  have htrack : (lastWrite Event.trackingId? post).getD none =
        (lastWrite Event.trackingId? es).getD none ↔
      lastWrite Event.trackingId? post = lastWrite Event.trackingId? es :=
    getD_lastWrite_inj _ fun d => by rw [Event.trackingId?]; cases d.payload <;> simp
  constructor
  · rintro ⟨_, _, _, hver, hp, ht⟩
    exact ⟨hversion.mp hver, fun d hd =>
      ⟨hpayment.mp (hpay.mp hp) d hd, htracking.mp (htrack.mp ht) d hd⟩⟩
  · rintro ⟨hlast, hlost⟩
    refine ⟨rfl, rfl, ?_, hversion.mpr hlast, hpay.mpr (hpayment.mpr fun d hd => (hlost d hd).1),
      htrack.mpr (htracking.mpr fun d hd => (hlost d hd).2)⟩
    rw [h.status_eq hes ⟨c, hc⟩ hrest hlast]

/-- **The reorderings the tables do not notice.** -/
theorem reordered_eq_iff [Btree] {rm₀ rm rm' : ReadModel} (hnew : o ∉ rm₀.orders)
    (h : LegalLog o log)
    (hperm : evs.Perm log) (hrun : run projectToPostgres rm₀ log = some rm)
    (hrun' : run projectToPostgres rm₀ evs = some rm') :
    rm'.view o = rm.view o ↔ SameOutcome log evs := by
  have horder : ∀ e ∈ evs, e.aggregateId = o := fun e he =>
    h.aggregateId_eq e (hperm.mem_iff.mp he)
  have hview : rm'.view o = rm.view o ↔ rm' = rm := by
    refine ⟨fun heq => ReadModel.ext_view fun o' => ?_, fun heq => by rw [heq]⟩
    by_cases ho : o' = o
    · rw [ho, heq]
    · rw [run_frame horder hrun' ho, run_frame h.aggregateId_eq hrun ho]
  rw [hview, run_eq_iff hnew horder h.aggregateId_eq hrun' hrun, h.orderState_eq_iff hperm]
  simp only [itemImage_eq_iff, paymentId?_eq_none, trackingId?_eq_none]
  constructor
  · rintro ⟨⟨hlast, hlost⟩, hitems⟩
    exact ⟨hlast, hlost, fun p => (hitems p).1, fun p => (hitems p).2⟩
  · intro hsame
    exact ⟨⟨hsame.newest, hsame.notLost⟩, fun p => ⟨hsame.firstAddition p, hsame.lastAddition p⟩⟩

end Log

end OrderCqrs
