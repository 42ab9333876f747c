import OrderCqrs.Domain.Rebuild
import OrderCqrs.Projection.Simulation

/-!
Events projected again, without the deduplication of the consumer.

* `Event.version?`, `Event.status?`, …: what an event writes to each column, so that the columns of
  an order are those of the last writers (`foldl_apply_append_suffix`).
* `replay_suffix`: **a rewind is safe**: projecting a suffix of the log again, in order, ends in the
  same tables.
* `ReadModel.after`: the tables after an attempt, which rolls back when it fails.
* `replay_one_iff`: **when replaying one old event changes nothing**: precisely if it is the
  first or the last of the log, or its replay fails because the total overflows.
* `replayed_payment`: a payment replayed after the shipment takes the status and the version back.
-/

namespace OrderCqrs

open Runs LastWriter

/-! ### Last writers -/

/-- The version an event writes; the creation writes none to an order that exists. -/
def Event.version? (e : Event) : Option ℤ :=
  match e.payload with
  | .orderCreated _ => none
  | _ => some e.aggregateVersion

/-- The status an event writes. -/
def Event.status? (e : Event) : Option String :=
  match e.payload with
  | .orderCreated _ | .orderItemAdded _ => none
  | .orderConfirmed _ => some OrderStatus.confirmed.value
  | .orderPaymentProcessed _ => some OrderStatus.paid.value
  | .orderShipped _ => some OrderStatus.shipped.value
  | .orderDelivered => some OrderStatus.delivered.value
  | .orderCancelled _ _ => some OrderStatus.cancelled.value

section Columns

variable (st : OrderState) (evs : List Event)

lemma foldl_apply_version : (evs.foldl OrderState.apply st).version =
    (lastWrite Event.version? evs).getD st.version :=
  column_foldl _
    (fun st e => by simp only [OrderState.apply, Event.version?]; cases e.payload <;> rfl)
    evs st

lemma foldl_apply_status : (evs.foldl OrderState.apply st).status =
    (lastWrite Event.status? evs).getD st.status :=
  column_foldl _
    (fun st e => by simp only [OrderState.apply, Event.status?]; cases e.payload <;> rfl)
    evs st

lemma foldl_apply_paymentId : (evs.foldl OrderState.apply st).paymentId =
    (lastWrite Event.paymentId? evs).getD st.paymentId :=
  column_foldl _
    (fun st e => by simp only [OrderState.apply, Event.paymentId?]; cases e.payload <;> rfl) evs st

lemma foldl_apply_trackingId : (evs.foldl OrderState.apply st).trackingId =
    (lastWrite Event.trackingId? evs).getD st.trackingId :=
  column_foldl _
    (fun st e => by simp only [OrderState.apply, Event.trackingId?]; cases e.payload <;> rfl) evs st

lemma foldl_apply_customer : (evs.foldl OrderState.apply st).customerId = st.customerId ∧
    (evs.foldl OrderState.apply st).customerEmail = st.customerEmail := by
  induction evs generalizing st with
  | nil => exact ⟨rfl, rfl⟩
  | cons e es ih =>
      have hone : (st.apply e).customerId = st.customerId ∧
          (st.apply e).customerEmail = st.customerEmail := by
        simp only [OrderState.apply]
        cases e.payload <;> exact ⟨rfl, rfl⟩
      rw [List.foldl_cons, (ih (st.apply e)).1, (ih (st.apply e)).2]
      exact hone

/-- Applying a suffix of the events again changes no column. -/
lemma foldl_apply_append_suffix {suffix : List Event} (h : suffix <:+ evs) :
    (evs ++ suffix).foldl OrderState.apply st = evs.foldl OrderState.apply st := by
  have hcust := foldl_apply_customer st evs
  have hcust' := foldl_apply_customer st (evs ++ suffix)
  refine OrderState.ext (hcust'.1.trans hcust.1.symm) (hcust'.2.trans hcust.2.symm) ?_ ?_ ?_ ?_
  · rw [foldl_apply_status, foldl_apply_status, lastWrite_append_suffix _ h]
  · rw [foldl_apply_version, foldl_apply_version, lastWrite_append_suffix _ h]
  · rw [foldl_apply_paymentId, foldl_apply_paymentId, lastWrite_append_suffix _ h]
  · rw [foldl_apply_trackingId, foldl_apply_trackingId, lastWrite_append_suffix _ h]

end Columns

/-! ### Rewinding -/

section Replay

variable [Btree] {rm₀ rm : ReadModel} {o : String} {log : List Event}

omit [Btree] in
/-- The image of a log with a suffix repeated is the image of the log. -/
lemma image_append_suffix (h : OrderEvents o log) {suffix : List Event} (hs : suffix <:+ log) :
    orderState (log ++ suffix) = orderState log ∧
      ∀ p, itemImage (log ++ suffix) p = itemImage log p := by
  refine ⟨?_, fun p => ?_⟩
  · obtain ⟨e, c, es, rfl, hc, _⟩ := h.opening
    have hfirst : ∀ st : OrderState, st.apply e = st := fun st => by rw [OrderState.apply, hc]
    have hcons : ∀ l, orderState (e :: l) =
        some ((e :: l).foldl OrderState.apply (.created c e.aggregateVersion)) := fun l => by
      rw [orderState_cons hc, List.foldl_cons, hfirst]
    rw [List.cons_append, hcons, hcons, ← List.cons_append, foldl_apply_append_suffix _ _ hs]
  · rw [itemImage_eq, itemImage_eq, lastWrite_append_suffix _ hs,
      firstWrite_append_of_subset _ hs.subset]

/-- The events of a run that goes through fit their columns. -/
lemma run_fits {evs : List Event} (hrun : run projectToPostgres rm₀ evs = some rm) :
    ∀ e ∈ evs, e.Fits := by
  induction evs generalizing rm₀ with
  | nil => simp
  | cons e es ih =>
      obtain ⟨rm₁, h, hrun⟩ := (run_cons_eq_some _).mp hrun
      have he : e.Fits := (project_isSome.mp (Option.isSome_iff_exists.mpr ⟨rm₁, h⟩)).1
      exact List.forall_mem_cons.mpr ⟨he, ih hrun⟩

/-- The indexes have taken the keys of a run that goes through from tables without the order. -/
lemma run_indexed (hnew : o ∉ rm₀.orders) (hevs : OrderEvents o log)
    (hrun : run projectToPostgres rm₀ log = some rm) : ∀ e ∈ log, e.Indexed := by
  have hitems := (run_itemsIndexed hevs.order (itemsIndexed_of_notMem hnew) hrun).2
  obtain ⟨d, c, es, rfl, hc, hes⟩ := hevs.opening
  obtain ⟨rm₁, h, _⟩ := (run_cons_eq_some _).mp hrun
  have hfirst : d.Indexed := by
    have hnot : d.aggregateId ∉ rm₀.orders := hevs.order d List.mem_cons_self ▸ hnew
    exact (project_isSome.mp (Option.isSome_iff_exists.mpr ⟨rm₁, h⟩)).2.1 c hc hnot
  refine List.forall_mem_cons.mpr ⟨hfirst, fun e he => ?_⟩
  cases hp : e.payload with
  | orderCreated c' => exact absurd hp (hes e he c')
  | orderItemAdded item => exact hitems e (List.mem_cons_of_mem _ he) (by rw [hp]; rfl)
  | _ =>
      rw [Event.Indexed, hp]
      trivial

/-- **A rewind is safe**: after the projection of a whole log, the projection of any suffix of it
ends in the same tables, as long as no total overflows on the way. -/
theorem replay_suffix (hnew : o ∉ rm₀.orders) (hlog : LegalLog o log)
    (hrun : run projectToPostgres rm₀ log = some rm) (k : ℕ)
    (htotals : ∀ m, |runningTotal ((log ++ log.drop k).take m)| < 10 ^ 12) :
    run projectToPostgres rm (log.drop k) = some rm := by
  have hevs := hlog.orderEvents
  have hsuffix : log.drop k <:+ log := List.drop_suffix k log
  have horder : ∀ e ∈ log ++ log.drop k, e.aggregateId = o := by
    intro e he
    cases List.mem_append.mp he with
    | inl he => exact hevs.order e he
    | inr he => exact hevs.order e (hsuffix.subset he)
  have hfits : FitsColumns (log ++ log.drop k) := by
    have hmem : ∀ e ∈ log ++ log.drop k, e ∈ log := fun e he =>
      (List.mem_append.mp he).elim id fun he => hsuffix.subset he
    exact ⟨fun e he => run_fits hrun e (hmem e he),
      fun e he => run_indexed hnew hevs hrun e (hmem e he), htotals⟩
  have hsome : (run projectToPostgres rm₀ (log ++ log.drop k)).isSome := by
    obtain ⟨e, c, es, hcons, hc, _⟩ := hevs.opening
    have happ : log ++ log.drop k = e :: (es ++ log.drop k) := by
      nth_rewrite 1 [hcons]
      rfl
    rw [happ] at horder hfits ⊢
    exact run_isSome hnew horder hc hfits
  obtain ⟨rm', hrun'⟩ := Option.isSome_iff_exists.mp hsome
  have heq : rm' = rm :=
    (run_eq_iff hnew horder hevs.order hrun' hrun).mpr (image_append_suffix hevs hsuffix)
  obtain ⟨rm₁, h₁, h₂⟩ := (run_append_eq_some _).mp hrun'
  rw [hrun, Option.some.injEq] at h₁
  rw [h₁, h₂, heq, h₁]

/-! ### Replaying one event -/

/-- The tables after an attempt to project an event; a failed one rolls back. -/
def ReadModel.after (rm : ReadModel) (e : Event) : ReadModel := (projectToPostgres rm e).getD rm

/-- A row after the projection of a whole log. -/
lemma exists_row_of_run (hnew : o ∉ rm₀.orders) (hlog : LegalLog o log)
    (hrun : run projectToPostgres rm₀ log = some rm) :
    ∃ row, (rm.view o).row = some row ∧ row.state = (replay o log).state := by
  have hstate := run_orderState hnew hlog.aggregateId_eq hrun
  rw [← replay_state hlog.orderEvents, Option.map_eq_some_iff] at hstate
  exact hstate

/-- The replay of an event of the log fails only by an overflow of the total. -/
lemma replay_eq_none_iff (hnew : o ∉ rm₀.orders) (hlog : LegalLog o log)
    (hrun : run projectToPostgres rm₀ log = some rm) {e : Event} (he : e ∈ log) :
    projectToPostgres rm e = none ↔ 10 ^ 12 ≤ |runningTotal (log ++ [e])| := by
  obtain ⟨row, hrow, _⟩ := exists_row_of_run hnew hlog hrun
  have horder : ∀ e' ∈ log ++ [e], e'.aggregateId = o := by
    intro e' he'
    rw [List.mem_append, List.mem_singleton] at he'
    exact he'.elim (hlog.aggregateId_eq e') fun heq => heq ▸ hlog.aggregateId_eq e he
  constructor
  · intro hnone
    by_contra hlt
    have hsome := run_concat_isSome hnew horder hrun (run_fits hrun e he)
      (fun _ => run_indexed hnew hlog.orderEvents hrun e he)
      (fun _ => Finmap.mem_of_lookup_eq_some hrow) (not_le.mp hlt)
    rw [hnone] at hsome
    simp at hsome
  · intro hle
    by_contra hsome
    obtain ⟨rm', h⟩ := Option.ne_none_iff_exists'.mp hsome
    have hrun' : run projectToPostgres rm₀ (log ++ [e]) = some rm' :=
      (run_concat_eq_some _).mpr ⟨rm, hrun, h⟩
    have hmem : o ∈ rm'.orders := project_mem h (Finmap.mem_of_lookup_eq_some hrow)
    obtain ⟨row', hrow'⟩ := Option.isSome_iff_exists.mp (Finmap.lookup_isSome.mpr hmem)
    have htotal := run_totalled horder (totalled_of_notMem hnew) hrun' row' hrow'
    rw [run_total hnew horder hrun'] at htotal
    have hlt := row'.totalAmount.fits
    rw [htotal] at hlt
    exact absurd hlt (not_lt.mpr hle)

/-- Replaying the creation or the newest event changes nothing. -/
lemma replay_ends (hnew : o ∉ rm₀.orders) (hlog : LegalLog o log)
    (hrun : run projectToPostgres rm₀ log = some rm) {k : ℕ} {e : Event} (hk : log[k]? = some e)
    (hends : k = 0 ∨ k + 1 = log.length) : projectToPostgres rm e = some rm := by
  cases hends with
  | inl hzero =>
      subst hzero
      obtain ⟨row, hrow, _⟩ := exists_row_of_run hnew hlog hrun
      obtain ⟨d, c, es, rfl, hc, _⟩ := hlog.exists_cons
      obtain rfl : d = e := by simpa using hk
      have ho := hlog.aggregateId_eq d List.mem_cons_self
      have hsome : (projectToPostgres rm d).isSome :=
        project_isSome.mpr ⟨run_fits hrun d List.mem_cons_self,
          fun _ _ _ => run_indexed hnew hlog.orderEvents hrun d List.mem_cons_self,
          fun item hitem => by simp [hc] at hitem⟩
      obtain ⟨rm', h⟩ := Option.isSome_iff_exists.mp hsome
      cases project_cases h with
      | again => exact h
      | create _ hnot => exact absurd (ho ▸ Finmap.mem_of_lookup_eq_some hrow) hnot
      | addItem hp => simp [hc] at hp
      | update hne | noRow hne => exact absurd hc (hne c)
  | inr hlast =>
      have htake : log = log.take k ++ [e] := by
        calc log = log.take (k + 1) := by rw [hlast, List.take_length]
          _ = log.take k ++ [e] := by rw [List.take_add_one, hk, Option.toList_some]
      rw [htake, run_concat_eq_some] at hrun
      obtain ⟨rm₁, _, h⟩ := hrun
      exact project_idem h

/-- **When replaying one old event is a no-op**: precisely if it is the creation or the newest
event, or its replay fails on the total and rolls back. -/
theorem replay_one_iff (hnew : o ∉ rm₀.orders) (hlog : LegalLog o log)
    (hrun : run projectToPostgres rm₀ log = some rm) {k : ℕ} {e : Event} (hk : log[k]? = some e) :
    rm.after e = rm ↔
      k = 0 ∨ k + 1 = log.length ∨ 10 ^ 12 ≤ |runningTotal (log ++ [e])| := by
  have he := List.mem_of_getElem? hk
  rw [← or_assoc, ← replay_eq_none_iff hnew hlog hrun he, ReadModel.after]
  constructor
  · intro hsame
    by_contra hnot
    push Not at hnot
    obtain ⟨⟨hzero, hlast⟩, hsome⟩ := hnot
    obtain ⟨rm', h⟩ := Option.ne_none_iff_exists'.mp hsome
    rw [h, Option.getD_some] at hsame
    subst hsame
    obtain ⟨row, hrow, hstate⟩ := exists_row_of_run hnew hlog hrun
    have ho := hlog.aggregateId_eq e he
    subst ho
    have hagain := (project_row_again h hrow).1
    -- an event in between writes its own version
    have hcreated : ∀ c, e.payload ≠ .orderCreated c := by
      intro c hc
      have hone := (hlog.eventType_eq_created_iff he).mp (by rw [Event.eventType, hc]; rfl)
      rw [hlog.version_getElem? hk] at hone
      omega
    have hversion : (row.state.apply e).version = e.aggregateVersion := by
      cases hp : e.payload with
      | orderCreated c => exact absurd hp (hcreated c)
      | _ => simp only [OrderState.apply, hp]
    have hlen : (log.length : ℤ) = (k : ℤ) + 1 := by
      calc (log.length : ℤ)
          = row.state.version := by rw [hstate]; exact hlog.replay_version.symm
        _ = (row.state.apply e).version := by rw [hagain]
        _ = e.aggregateVersion := hversion
        _ = (k : ℤ) + 1 := hlog.version_getElem? hk
    exact hlast (by omega)
  · intro hcase
    cases hcase with
    | inl hends => rw [replay_ends hnew hlog hrun hk hends, Option.getD_some]
    | inr hnone => rw [hnone, Option.getD_none]

end Replay

/-! ### The shipped order -/

theorem shippedLog_rewound : ∃ rm, run projectToPostgres .empty shippedLog = some rm ∧
    run projectToPostgres rm (shippedLog.drop 1) = some rm := by
  obtain ⟨rm, hrun⟩ := Option.isSome_iff_exists.mp
    (by decide +kernel : (run projectToPostgres .empty shippedLog).isSome)
  have hfits : FitsColumns (shippedLog ++ shippedLog.drop 1) := by decide +kernel
  exact ⟨rm, hrun, replay_suffix Finmap.notMem_empty shippedLog_legal hrun 1 hfits.totals⟩

theorem shippedLog_replay_iff : ∃ rm e, run projectToPostgres .empty shippedLog = some rm ∧
    shippedLog[3]? = some e ∧ (rm.after e = rm ↔
      3 = 0 ∨ 3 + 1 = shippedLog.length ∨ 10 ^ 12 ≤ |runningTotal (shippedLog ++ [e])|) := by
  obtain ⟨rm, hrun⟩ := Option.isSome_iff_exists.mp
    (by decide +kernel : (run projectToPostgres .empty shippedLog).isSome)
  exact ⟨rm, _, hrun, rfl, replay_one_iff Finmap.notMem_empty shippedLog_legal hrun rfl⟩

/-- **A replayed payment**: after the shipment it takes the order back to `PAID` and version 4. -/
theorem replayed_payment : LegalLog "order-0" shippedLog ∧
    ∃ rm e, run projectToPostgres .empty shippedLog = some rm ∧ shippedLog[3]? = some e ∧
      (rm.orders.lookup "order-0").map (fun row => (row.status.val, row.version.val)) =
        some ("SHIPPED", 5) ∧
      ((rm.after e).orders.lookup "order-0").map (fun row => (row.status.val, row.version.val)) =
        some ("PAID", 4) := by
  refine ⟨shippedLog_legal, ?_⟩
  obtain ⟨rm, hrun, hbefore, hafter⟩ := exists_run_of_eval
    (by decide +kernel : ((run projectToPostgres .empty shippedLog).any fun rm => decide
      ((rm.orders.lookup "order-0").map (fun row => (row.status.val, row.version.val)) =
          some ("SHIPPED", 5) ∧
        ((rm.after (orderPaymentProcessedEvent (.nth 3) "order-0" 4 "pay-1" 450 "CARD")).orders.lookup
          "order-0").map (fun row => (row.status.val, row.version.val)) = some ("PAID", 4))) = true)
  exact ⟨rm, _, hrun, rfl, hbefore, hafter⟩

end OrderCqrs
