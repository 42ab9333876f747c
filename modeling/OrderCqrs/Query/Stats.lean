import OrderCqrs.Logic.Rows
import OrderCqrs.Projection.Records

/-!
The statistics over all orders (`get_stats` in `api/routers/query_router.py`).

* `Stats`, `getStats`: the columns of the one row of its query.
* `stats_partition`: **the counters of the statuses add up to the number of orders**, after any
  series of attempts to project any records, and this is the number of the orders created.
-/

namespace OrderCqrs

open Rows

/-- The statistics. -/
structure Stats where
  totalOrders : ℕ
  pending : ℕ
  confirmed : ℕ
  paid : ℕ
  shipped : ℕ
  delivered : ℕ
  cancelled : ℕ
  totalRevenue : ℚ
  deriving DecidableEq

namespace ReadModel

/-- The rows of `orders` with a given status. -/
def withStatus (rm : ReadModel) (status : String) : Finset (Sigma fun _ : String => OrderRow) :=
  (rows rm.orders).filter fun r => r.2.status.val = status

/-- `COUNT(*) FILTER (WHERE status = …)`. -/
def countStatus (rm : ReadModel) (status : String) : ℕ := (rm.withStatus status).card

/-- `COALESCE(SUM(total_amount) FILTER (WHERE status = …), 0)`. -/
def sumStatus (rm : ReadModel) (status : String) : ℚ :=
  ∑ r ∈ rm.withStatus status, r.2.totalAmount.amount

end ReadModel

/-- `get_stats`. -/
def getStats (rm : ReadModel) : Stats where
  totalOrders := (rows rm.orders).card
  pending := rm.countStatus "PENDING"
  confirmed := rm.countStatus "CONFIRMED"
  paid := rm.countStatus "PAID"
  shipped := rm.countStatus "SHIPPED"
  delivered := rm.countStatus "DELIVERED"
  cancelled := rm.countStatus "CANCELLED"
  totalRevenue := rm.sumStatus "PAID"

/-- The strings that `get_stats` counts. -/
def countedStatuses : Finset String :=
  {"PENDING", "CONFIRMED", "PAID", "SHIPPED", "DELIVERED", "CANCELLED"}

lemma value_mem_counted (st : OrderStatus) : st.value ∈ countedStatuses := by
  cases st <;> decide

/-- The counters add up when every status is one of `OrderStatus`. -/
lemma counters_add_up {rm : ReadModel}
    (h : ∀ o row, rm.orders.lookup o = some row → ∃ st : OrderStatus, row.status.val = st.value) :
    (getStats rm).pending + (getStats rm).confirmed + (getStats rm).paid + (getStats rm).shipped +
      (getStats rm).delivered + (getStats rm).cancelled = (getStats rm).totalOrders := by
  have hlabels : ∀ o row, rm.orders.lookup o = some row → row.status.val ∈ countedStatuses := by
    intro o row hrow
    obtain ⟨st, hst⟩ := h o row hrow
    exact hst ▸ value_mem_counted st
  calc (getStats rm).pending + (getStats rm).confirmed + (getStats rm).paid +
        (getStats rm).shipped + (getStats rm).delivered + (getStats rm).cancelled
      = ∑ status ∈ countedStatuses, rm.countStatus status := by
        simp [countedStatuses, getStats, add_assoc]
    _ = (getStats rm).totalOrders := card_rows_eq_sum hlabels

/-- There are as many rows as orders created. -/
lemma card_rows_projectRecords [Btree] (codec : Codec) (as : List RecordAttempt) :
    (rows (projectRecords codec .empty as).orders).card =
      (createdIds codec .empty as).toFinset.card := by
  rw [card_rows, ← Finset.card_image_of_injective _ ofText_injective]
  refine congrArg Finset.card (Finset.ext fun j => ?_)
  have hempty : ¬ ∃ o ∈ ReadModel.empty.orders, j = .ofText o := by
    rintro ⟨o, ho, _⟩
    exact Finmap.notMem_empty ho
  calc j ∈ (projectRecords codec .empty as).orders.keys.image Json.ofText
      ↔ ∃ o ∈ (projectRecords codec .empty as).orders, j = .ofText o := by
        simp only [Finset.mem_image, Finmap.mem_keys, eq_comm]
    _ ↔ j ∈ createdIds codec .empty as := by
        rw [projectRecords_ids, or_iff_right hempty]
    _ ↔ j ∈ (createdIds codec .empty as).toFinset := List.mem_toFinset.symm

/-- **The counters of the statuses partition the orders**, after any series of attempts to project
any records that starts from empty tables: they add up to the number of orders, and this is the
number of distinct ids for which an `ORDER_CREATED` was projected. -/
theorem stats_partition [Btree] (codec : Codec) (as : List RecordAttempt) :
    let stats := getStats (projectRecords codec .empty as)
    stats.pending + stats.confirmed + stats.paid + stats.shipped + stats.delivered +
        stats.cancelled = stats.totalOrders ∧
      stats.totalOrders = (createdIds codec .empty as).toFinset.card :=
  ⟨counters_add_up (projectRecords_status as), card_rows_projectRecords codec as⟩

end OrderCqrs
