import OrderCqrs.Command.EventStore
import OrderCqrs.Projection.Money
import OrderCqrs.Projection.Replay
import OrderCqrs.Query.Stats

/-!
The revenue that `get_stats` reports against the payments in the logs.

* `LegalLogs`: the logs of the orders are lifecycle-legal, interleaved in any way.
* `Paid`, `paidTotal`: the orders paid for and not cancelled, and the sum of their totals;
  `LegalLog.paid` says which statuses they have.
* `shippedTotal`: the sum of the lines of the orders shipped.
* `paidTotal_eq`: the revenue leaves out exactly the orders shipped.
* `revenue_iff`: **when the revenue is the sum of the orders paid for**, and which projection of a
  shipment or a delivery leaves it unchanged; `shippedTotal_eq_zero_iff` reads the condition order
  by order.
* `shipped_revenue`: an order that is shipped, the revenue being gone.
-/

namespace OrderCqrs

open Runs Rows

/-! ### The orders paid for -/

/-- The log of every order in a list of events is lifecycle-legal. -/
def LegalLogs (events : List Event) : Prop :=
  ∀ o, orderLog events o = [] ∨ LegalLog o (orderLog events o)

/-- The order is paid for and not cancelled. -/
def Paid (log : List Event) : Prop :=
  (∃ e ∈ log, e.eventType = .orderPaymentProcessed) ∧ ¬ ∃ e ∈ log, e.eventType = .orderCancelled

instance (log : List Event) : Decidable (Paid log) := inferInstanceAs (Decidable (_ ∧ _))

/-- The sum of `total_amount` over the orders paid for. -/
def paidTotal (rm : ReadModel) (events : List Event) : ℚ :=
  ∑ r ∈ rows rm.orders with Paid (orderLog events r.1), r.2.totalAmount.amount

/-- The orders shipped. -/
def shippedIds (events : List Event) : Finset String :=
  ((events.filter fun e => e.eventType = .orderShipped).map (·.aggregateId)).toFinset

/-- The sum of the lines of the orders shipped, in cents. -/
def shippedTotal (events : List Event) : ℤ :=
  ∑ o ∈ shippedIds events, runningTotal (orderLog events o)

/-- **The orders paid for** are those with one of three statuses. -/
lemma LegalLog.paid {o : String} {log : List Event} (h : LegalLog o log) :
    Paid log ↔ (replay o log).status = .paid ∨ (replay o log).status = .shipped ∨
      (replay o log).status = .delivered := by
  induction h with
  | @created e c _ _ hc =>
      simp [Paid, replay, OrderAggregate.apply, OrderAggregate.applyPayload, hc, Event.eventType,
        Payload.eventType]
  | @append log e hlog _ _ hallow ih =>
      have hstep := OrderAggregate.statusStep_apply hallow
      have hcancelled := hlog.cancelled
      rw [replay_concat]
      -- by the status before the move the earlier events are paid for or cancelled, so that only
      -- the move matters
      simp only [Paid, List.mem_append, List.mem_singleton, or_and_right, exists_or,
        exists_eq_left] at ih ⊢
      generalize (∃ e ∈ log, e.eventType = .orderPaymentProcessed) = paid,
        (∃ e ∈ log, e.eventType = .orderCancelled) = cancelled at ih hcancelled ⊢
      generalize (replay o log).status = a, e.eventType = t, ((replay o log).apply e).status = b
        at hstep ih hcancelled ⊢
      cases hstep <;> simp_all

section Run

variable {events : List Event} {rm rm' : ReadModel} {o : String} {e : Event}

lemma mem_shippedIds : o ∈ shippedIds events ↔
    ∃ e ∈ orderLog events o, e.eventType = .orderShipped := by
  simp [shippedIds, mem_orderLog, and_assoc, and_comm]

/-- The row of an order, after the projection of its legal log. -/
lemma exists_row [Btree] (hrun : run projectToPostgres .empty events = some rm)
    (hlog : LegalLog o (orderLog events o)) : ∃ row, rm.orders.lookup o = some row ∧
      row.status.val = (replay o (orderLog events o)).status.value ∧
      row.totalAmount.cents = runningTotal (orderLog events o) := by
  obtain ⟨rm₁, hrun₁, hview⟩ := projection_local.run_filter (k := o) rfl hrun
  obtain ⟨row, hrow, hstate⟩ := exists_row_of_run Finmap.notMem_empty hlog hrun₁
  have htotal := run_totalled hlog.aggregateId_eq (totalled_of_notMem Finmap.notMem_empty) hrun₁
    row hrow
  rw [run_total Finmap.notMem_empty hlog.aggregateId_eq hrun₁] at htotal
  refine ⟨row, ?_, congrArg OrderState.status hstate, htotal⟩
  exact (congrArg OrderView.row hview).trans hrow

/-- A row is that of an order with a legal log. -/
lemma row_of_run [Btree] (hlegal : LegalLogs events)
    (hrun : run projectToPostgres .empty events = some rm)
    {row : OrderRow} (hrow : rm.orders.lookup o = some row) : LegalLog o (orderLog events o) ∧
      row.status.val = (replay o (orderLog events o)).status.value ∧
      row.totalAmount.cents = runningTotal (orderLog events o) := by
  rcases hlegal o with hnil | hlog
  · obtain ⟨rm₁, hrun₁, hview⟩ := projection_local.run_filter (k := o) rfl hrun
    have hevents : (events.filter fun e => e.aggregateId = o) = [] := hnil
    rw [hevents, run_nil, Option.some.injEq] at hrun₁
    subst hrun₁
    have hrow' : ReadModel.empty.orders.lookup o = some row :=
      (congrArg OrderView.row hview).symm.trans hrow
    have hempty : ReadModel.empty.orders.lookup o = none := Finmap.lookup_empty o
    rw [hempty] at hrow'
    cases hrow'
  · obtain ⟨row', hrow', hfacts⟩ := exists_row hrun hlog
    rw [hrow, Option.some.injEq] at hrow'
    subst hrow'
    exact ⟨hlog, hfacts⟩

/-! ### The revenue left out -/

/-- The rows that count as revenue are those of the orders paid for and not shipped. -/
lemma status_paid_iff [Btree] (hlegal : LegalLogs events)
    (hrun : run projectToPostgres .empty events = some rm) {row : OrderRow}
    (hrow : rm.orders.lookup o = some row) :
    row.status.val = "PAID" ↔ Paid (orderLog events o) ∧ o ∉ shippedIds events := by
  obtain ⟨hlog, hstatus, _⟩ := row_of_run hlegal hrun hrow
  rw [hstatus, mem_shippedIds, ← hlog.shipped, hlog.paid]
  cases (replay o (orderLog events o)).status <;> decide

/-- An order that is shipped is paid for. -/
lemma paid_of_shipped (hlegal : LegalLogs events) (ho : o ∈ shippedIds events) :
    LegalLog o (orderLog events o) ∧ Paid (orderLog events o) := by
  have hshipped := mem_shippedIds.mp ho
  have ⟨e, he, _⟩ := hshipped
  have hlog := (hlegal o).resolve_left (List.ne_nil_of_mem he)
  exact ⟨hlog, hlog.paid.mpr (Or.inr (hlog.shipped.mpr hshipped))⟩

/-- The rows of the orders shipped sum up to the lines of these orders. -/
lemma sum_shipped [Btree] (hlegal : LegalLogs events)
    (hrun : run projectToPostgres .empty events = some rm) :
    ∑ r ∈ rows rm.orders with r.1 ∈ shippedIds events, r.2.totalAmount.amount =
      (shippedTotal events : ℚ) / 100 := by
  rw [shippedTotal, Int.cast_sum, Finset.sum_div]
  refine Finset.sum_nbij (fun r => r.1) (fun r hr => (Finset.mem_filter.mp hr).2) ?_ ?_ ?_
  · exact fst_injOn.mono (Finset.coe_subset.mpr (Finset.filter_subset _ _))
  · intro o ho
    obtain ⟨row, hrow, _⟩ := exists_row hrun (paid_of_shipped hlegal ho).1
    exact ⟨⟨o, row⟩, Finset.mem_coe.mpr (Finset.mem_filter.mpr ⟨mem_rows.mpr hrow, ho⟩), rfl⟩
  · intro r hr
    obtain ⟨_, _, htotal⟩ := row_of_run hlegal hrun (mem_rows.mp (Finset.mem_filter.mp hr).1)
    rw [Numeric.amount, htotal]

/-- **The revenue leaves out the orders shipped**, and nothing else. -/
theorem paidTotal_eq [Btree] (hlegal : LegalLogs events)
    (hrun : run projectToPostgres .empty events = some rm) :
    paidTotal rm events = (getStats rm).totalRevenue + (shippedTotal events : ℚ) / 100 := by
  rw [← sum_shipped hlegal hrun, paidTotal,
    ← Finset.sum_filter_not_add_sum_filter _ fun r => r.1 ∈ shippedIds events]
  rw [Finset.filter_filter, Finset.filter_filter]
  congr 1
  · refine Finset.sum_congr (Finset.filter_congr fun r hr => ?_) fun _ _ => rfl
    exact (status_paid_iff hlegal hrun (mem_rows.mp hr)).symm
  · refine Finset.sum_congr (Finset.filter_congr fun r hr => ?_) fun _ _ => rfl
    exact and_iff_right_of_imp fun hshipped => (paid_of_shipped hlegal hshipped).2

/-! ### One projection -/

/-- What a row counts for. -/
def OrderRow.revenue (row : OrderRow) : ℚ :=
  if row.status.val = "PAID" then row.totalAmount.amount else 0

/-- A row that is replaced takes its revenue with it. -/
lemma totalRevenue_putOrder {old new : OrderRow} (hold : rm.orders.lookup o = some old) :
    (getStats (rm.putOrder o new)).totalRevenue + old.revenue =
      (getStats rm).totalRevenue + new.revenue := by
  have hsum : ∀ rm : ReadModel, (getStats rm).totalRevenue =
      ∑ r ∈ rows rm.orders, r.2.revenue := fun rm => Finset.sum_filter _ _
  rw [hsum, hsum]
  exact sum_rows_insert (fun _ row => row.revenue) hold

/-- A shipment or a delivery comes after other events, which allow it. -/
lemma legal_before (hnext : LegalLogs (events ++ [e]))
    (htype : e.eventType = .orderShipped ∨ e.eventType = .orderDelivered) :
    LegalLog e.aggregateId (orderLog events e.aggregateId) ∧
      (replay e.aggregateId (orderLog events e.aggregateId)).allows e.payload := by
  have hlog := hnext e.aggregateId
  rw [orderLog_concat_self rfl] at hlog
  have hlegal := hlog.resolve_left (by simp)
  have hne : orderLog events e.aggregateId ≠ [] := by
    intro hnil
    rw [hnil, List.nil_append] at hlegal
    obtain ⟨_, c, _, heq, hc, _⟩ := hlegal.exists_cons
    obtain ⟨rfl, _⟩ := List.cons.inj heq
    simp [Event.eventType, hc, Payload.eventType] at htype
  obtain ⟨hbefore, _, hallow⟩ := hlegal.of_concat hne
  exact ⟨hbefore, hallow⟩

/-- What the row of an order counts for when a shipment or a delivery comes. -/
lemma revenue_before {row : OrderRow}
    (hstatus : row.status.val = (replay o (orderLog events o)).status.value)
    (htotal : row.totalAmount.cents = runningTotal (orderLog events o))
    (hallow : (replay o (orderLog events o)).allows e.payload)
    (htype : e.eventType = .orderShipped ∨ e.eventType = .orderDelivered) :
    row.revenue = if e.eventType = .orderShipped then
      (runningTotal (orderLog events o) : ℚ) / 100 else 0 := by
  have hstep := OrderAggregate.statusStep_apply hallow
  rcases htype with htype | htype
  · have hpaid : (replay o (orderLog events o)).status = .paid := by
      rw [htype] at hstep
      exact hstep.eq_paid
    rw [OrderRow.revenue, hstatus, hpaid, if_pos htype, Numeric.amount, htotal]
    rfl
  · have hshipped : (replay o (orderLog events o)).status = .shipped := by
      rw [htype] at hstep
      exact hstep.eq_shipped
    rw [OrderRow.revenue, hstatus, hshipped, htype]
    rfl

/-- A row that shows a shipment or a delivery counts for nothing. -/
lemma revenue_after {row row' : OrderRow} (hstate : row'.state = row.state.apply e)
    (htype : e.eventType = .orderShipped ∨ e.eventType = .orderDelivered) : row'.revenue = 0 := by
  have hstatus : row'.status.val = (row.state.apply e).status := congrArg OrderState.status hstate
  rw [Event.eventType] at htype
  cases hp : e.payload with
  | orderShipped p | orderDelivered =>
      rw [OrderState.apply, hp] at hstatus
      rw [OrderRow.revenue, hstatus]
      rfl
  | _ => simp [hp, Payload.eventType] at htype

/-- **A shipment takes the order's total out of the revenue**, a delivery leaves it as it is. -/
theorem totalRevenue_project [Btree] (hrun : run projectToPostgres .empty events = some rm)
    (hnext : LegalLogs (events ++ [e])) (h : projectToPostgres rm e = some rm')
    (htype : e.eventType = .orderShipped ∨ e.eventType = .orderDelivered) :
    (getStats rm').totalRevenue + (if e.eventType = .orderShipped then
      (runningTotal (orderLog events e.aggregateId) : ℚ) / 100 else 0) =
      (getStats rm).totalRevenue := by
  obtain ⟨hlog, hallow⟩ := legal_before hnext htype
  obtain ⟨old, hold, hstatus, htotal⟩ := exists_row hrun hlog
  cases project_cases h with
  | @update row row' _ _ hrow hstate _ =>
      obtain rfl : old = row := Option.some.inj (hold.symm.trans hrow)
      rw [← revenue_before hstatus htotal hallow htype, totalRevenue_putOrder hold,
        revenue_after hstate htype, add_zero]
  | noRow _ _ hnew => exact absurd (Finmap.mem_of_lookup_eq_some hold) hnew
  | again hp | create hp | addItem hp => simp [Event.eventType, hp, Payload.eventType] at htype

/-! ### When the revenue survives -/

/-- Where no line is negative the lines of the orders shipped add up to zero only if they do so for
each of these orders. -/
theorem shippedTotal_eq_zero_iff (h : ∀ item ∈ additions events, 0 ≤ item.lineTotal) :
    shippedTotal events = 0 ↔ ∀ o ∈ shippedIds events, runningTotal (orderLog events o) = 0 := by
  refine Finset.sum_eq_zero_iff_of_nonneg fun o _ => runningTotal_nonneg fun item hitem => ?_
  obtain ⟨e, he, hadd⟩ := List.mem_filterMap.mp hitem
  exact h item (List.mem_filterMap.mpr ⟨e, (mem_orderLog.mp he).1, hadd⟩)

/-- **When the revenue is the sum over the orders paid for**: precisely if the lines of the orders
shipped add up to zero.  The projection of a shipment leaves the revenue unchanged precisely if the
lines of its order do, that of a delivery always. -/
theorem revenue_iff [Btree] (hlegal : LegalLogs events)
    (hrun : run projectToPostgres .empty events = some rm) :
    ((getStats rm).totalRevenue = paidTotal rm events ↔ shippedTotal events = 0) ∧
      ∀ e rm', LegalLogs (events ++ [e]) → projectToPostgres rm e = some rm' →
        e.eventType = .orderShipped ∨ e.eventType = .orderDelivered →
        ((getStats rm').totalRevenue = (getStats rm).totalRevenue ↔
          (e.eventType = .orderShipped → runningTotal (orderLog events e.aggregateId) = 0)) := by
  have hcents : ∀ k : ℤ, (k : ℚ) / 100 = 0 ↔ k = 0 := fun k => by
    rw [div_eq_zero_iff, Int.cast_eq_zero, or_iff_left (by norm_num)]
  refine ⟨?_, fun e rm' hnext h htype => ?_⟩
  · rw [paidTotal_eq hlegal hrun, left_eq_add, hcents]
  · rw [← totalRevenue_project hrun hnext h htype, left_eq_add]
    split_ifs with hship
    · rw [hcents]
      exact (imp_iff_right hship).symm
    · exact iff_of_true rfl fun heq => absurd heq hship

end Run

/-! ### A shipped order -/

/-- The log of one order. -/
lemma LegalLog.legalLogs {o : String} {log : List Event} (h : LegalLog o log) : LegalLogs log := by
  intro o'
  by_cases ho : o' = o
  · subst ho
    have hself : orderLog log o' = log :=
      List.filter_eq_self.mpr fun e he => decide_eq_true (h.aggregateId_eq e he)
    exact Or.inr (hself.symm ▸ h)
  · refine Or.inl (List.filter_eq_nil_iff.mpr fun e he => ?_)
    rw [h.aggregateId_eq e he, decide_eq_true_eq]
    exact Ne.symm ho

/-- The payment of an order counts until the order is shipped. -/
theorem paidLog_revenue : ∃ rm, run projectToPostgres .empty (shippedLog.take 4) = some rm ∧
    (getStats rm).totalRevenue = paidTotal rm (shippedLog.take 4) ∧
    ∀ rm',
      projectToPostgres rm (orderShippedEvent (.nth 4) "order-0" 5 "track-1" "UPS") = some rm' →
      (getStats rm').totalRevenue ≠ (getStats rm).totalRevenue := by
  obtain ⟨rm, hrun⟩ := Option.isSome_iff_exists.mp
    (by decide +kernel : (run projectToPostgres .empty (shippedLog.take 4)).isSome = true)
  have hlegal := (shippedLog_legal.take (by decide : 0 < 4)).legalLogs
  obtain ⟨htotal, hstep⟩ := revenue_iff hlegal hrun
  refine ⟨rm, hrun, htotal.mpr (by decide +kernel), fun rm' h heq => ?_⟩
  have hzero := (hstep _ rm' shippedLog_legal.legalLogs h (Or.inl rfl)).mp heq rfl
  exact absurd hzero (by decide +kernel)

/-- **A shipped order**: its payment is gone from the revenue. -/
theorem shipped_revenue : LegalLogs shippedLog ∧
    ∃ rm, run projectToPostgres .empty shippedLog = some rm ∧
      (getStats rm).totalRevenue = 0 ∧ paidTotal rm shippedLog = 450 :=
  ⟨shippedLog_legal.legalLogs, exists_run_of_eval (by decide +kernel)⟩

end OrderCqrs
