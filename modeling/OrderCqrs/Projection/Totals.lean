import OrderCqrs.Projection.Independence

/-!
The order's row against its item rows, after any series of attempts to project.

* `ReadModel.itemRows`: the rows of `order_items` with a given `order_id`, as the table holds them.
* `sum_itemRows`: what they sum up to is what the statement's `SUM` computes.
* `ReadModel.Consistent`: the relation between the two tables.
* `attempt_totalled`: one attempt keeps the totals in step with the items.
* `projectAll_consistent`: **the tables are consistent after every attempt**, whatever the events,
  their order and the failures are.
-/

namespace OrderCqrs

/-- The rows of `order_items` of an order. -/
def ReadModel.itemRows (rm : ReadModel) (o : String) : Multiset ItemRow :=
  (rm.orderItems.entries.filter fun r => r.1.1 = o).map fun r => r.2

/-- **The two tables agree**: every total is the sum of the order's lines, every item belongs to an
order, and no two items share their order and product. -/
structure ReadModel.Consistent (rm : ReadModel) : Prop where
  total : ∀ o row, rm.orders.lookup o = some row →
    row.totalAmount.amount = ((rm.itemRows o).map fun r => r.lineTotal.amount).sum
  owner : ∀ r ∈ rm.orderItems.entries, ∃ row, rm.orders.lookup r.1.1 = some row
  unique : (rm.orderItems.entries.map fun r => r.1).Nodup

section Consistent

variable {rm : ReadModel} {o : String} {a : Attempt}

/-- The lines of an order sum up to what `SUM` computes. -/
lemma sum_itemRows (rm : ReadModel) (o : String) :
    ((rm.itemRows o).map fun r => r.lineTotal.cents).sum = rm.sumLineTotal o := by
  have hkeys : (rm.orderItems.keys.filter (·.1 = o)).val =
      (rm.orderItems.entries.filter fun r => r.1.1 = o).map fun r => r.1 :=
    Multiset.filter_map _ _ _
  rw [ReadModel.sumLineTotal, Finset.sum, hkeys, Multiset.map_map, ReadModel.itemRows,
    Multiset.map_map]
  refine congrArg Multiset.sum (Multiset.map_congr rfl fun r hr => ?_)
  have hrow : rm.orderItems.lookup r.1 = some r.2 :=
    Finmap.lookup_eq_some_iff.mpr (Multiset.mem_of_mem_filter hr)
  show r.2.lineTotal.cents = (rm.orderItems.lookup r.1).elim 0 _
  rw [hrow, Option.elim_some]

/-- The same sum as an amount. -/
lemma sum_itemRows_amount (rm : ReadModel) (o : String) :
    ((rm.itemRows o).map fun r => r.lineTotal.amount).sum = (rm.sumLineTotal o : ℚ) / 100 := by
  rw [← sum_itemRows]
  generalize rm.itemRows o = rows
  induction rows using Multiset.induction_on with
  | empty => simp
  | cons r rows ih =>
      rw [Multiset.map_cons, Multiset.sum_cons, Multiset.map_cons, Multiset.sum_cons, ih,
        Numeric.amount]
      push_cast
      ring

/-- Tables whose totals are in step are consistent. -/
lemma ReadModel.Consistent.of_totalled (h : ∀ o, rm.Totalled o) : rm.Consistent where
  total := by
    intro o row hrow
    rw [sum_itemRows_amount, Numeric.amount, h o row hrow]
  owner := by
    intro r hr
    have hkey : r.1 ∈ rm.orderItems := Finmap.mem_keys.mp (Multiset.mem_map_of_mem _ hr)
    exact Option.isSome_iff_exists.mp (Finmap.lookup_isSome.mpr (rm.foreignKey r.1 hkey))
  unique := Multiset.nodup_keys.mpr rm.orderItems.nodupKeys

/-- Whether the total of an order is in step is a matter of its rows. -/
lemma ReadModel.Totalled.congr {rm' : ReadModel} (hv : rm'.view o = rm.view o)
    (h : rm.Totalled o) : rm'.Totalled o := by
  intro row hrow
  rw [hv] at hrow
  rw [h row hrow, sumLineTotal_congr (congrArg OrderView.items hv.symm)]

/-- **One attempt keeps the totals in step with the items.** -/
theorem attempt_totalled [Btree] (h : ∀ o, rm.Totalled o) (o : String) :
    (rm.attempt a).Totalled o := by
  by_cases ho : o = a.orderId
  · subst ho
    rw [ReadModel.attempt, ReadModel.after]
    split_ifs
    · exact h a.orderId
    · cases hproject : projectToPostgres rm a.event with
      | none => exact h a.orderId
      | some rm' => exact project_totalled hproject (h a.event.aggregateId)
  · exact (h o).congr (view_attempt_of_ne ho)

end Consistent

/-- **An order's total is always the sum of its items**: after every attempt of a series that starts
from empty tables. -/
theorem projectAll_consistent [Btree] (as : List Attempt) (k : ℕ) :
    (projectAll .empty (as.take k)).Consistent := by
  refine .of_totalled ?_
  generalize as.take k = done
  induction done using List.reverseRecOn with
  | nil => exact fun o => totalled_of_notMem Finmap.notMem_empty
  | append_singleton done a ih =>
      rw [projectAll, List.foldl_append]
      exact attempt_totalled ih

end OrderCqrs
