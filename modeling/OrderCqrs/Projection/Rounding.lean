import OrderCqrs.Projection.Accepted
import OrderCqrs.Projection.LastOrdered

/-!
How far the money of the read model is from that of the aggregate, at any prices
(`consumers/main.py`, the `NUMERIC` columns of `infra/postgres_init.sql`).

* `cents_close`: a column rounds by half a cent at most.
* `replacedLines`, `replacedTotal`: the lines that the read model has replaced by later ones of the
  same product, where the aggregate counts them all.
* `totals_off`: **the total of an order is the sum of the lines of its aggregate without the replaced
  ones**, up to half a cent for every product.
* `halfCents_off`: two products whose lines end in half a cent, where the bound is met.
-/

namespace OrderCqrs

open Runs LastWriter ListTables

/-- Rounding moves an amount by half a cent at most. -/
lemma cents_close (q : ℚ) : |q - cents q / 100| ≤ 1 / 200 := by
  have hfloor : ∀ x : ℚ, |x - (⌊x * 100 + 1 / 2⌋ : ℚ) / 100| ≤ 1 / 200 := by
    intro x
    have hle := Int.floor_le (x * 100 + 1 / 2)
    have hlt := Int.lt_floor_add_one (x * 100 + 1 / 2)
    rw [abs_le]
    constructor <;> linarith
  rw [cents]
  split_ifs
  · exact hfloor q
  · have hneg := hfloor (-q)
    rw [← abs_neg] at hneg
    push_cast
    convert hneg using 2
    ring

/-- The lines of a product that later ones have replaced. -/
def replacedLines (evs : List Event) (p : String) : ℚ :=
  (((additions evs).filter (·.productId = p)).dropLast.map (·.lineTotal)).sum

/-- The replaced lines of all products. -/
def replacedTotal (evs : List Event) : ℚ :=
  ∑ p ∈ (productIds evs).toFinset, replacedLines evs p

section Rounding

variable {rm₀ : ReadModel} {o p : String} {evs : List Event}

/-- The lines of a product are the replaced ones and the last, which is rounded. -/
lemma lines_close (hp : p ∈ productIds evs) :
    |(((additions evs).filter (·.productId = p)).map (·.lineTotal)).sum - replacedLines evs p -
      (lastLine evs p : ℚ) / 100| ≤ 1 / 200 := by
  have hne : (additions evs).filter (·.productId = p) ≠ [] := by
    rw [productIds_eq, List.mem_map] at hp
    obtain ⟨item, hitem, hp⟩ := hp
    exact List.ne_nil_of_mem (List.mem_filter.mpr ⟨hitem, decide_eq_true hp⟩)
  set items := (additions evs).filter (·.productId = p) with hitems
  have hlast : lastLine evs p = cents (items.getLast hne).lineTotal := by
    rw [lastLine, ← hitems, List.getLast?_map, List.getLast?_eq_some_getLast hne]
    rfl
  have hsum : (items.map (·.lineTotal)).sum =
      replacedLines evs p + (items.getLast hne).lineTotal := by
    rw [replacedLines, ← hitems]
    conv_lhs => rw [← List.dropLast_append_getLast hne]
    simp
  rw [hlast, hsum, add_sub_cancel_left]
  exact cents_close _

/-- All lines, product by product. -/
lemma sum_lines (evs : List Event) : ((additions evs).map (·.lineTotal)).sum =
    ∑ p ∈ (productIds evs).toFinset,
      (((additions evs).filter (·.productId = p)).map (·.lineTotal)).sum := by
  rw [productIds_eq]
  exact (sum_filter_keys fun item hitem => List.mem_toFinset.mpr (List.mem_map_of_mem hitem)).symm

/-- The running total is that of all lines without the replaced ones, up to half a cent for every
product. -/
lemma runningTotal_close (hfits : ∀ e ∈ evs, e.Fits) :
    |((additions evs).map (·.lineTotal)).sum - replacedTotal evs - (runningTotal evs : ℚ) / 100| ≤
      ((productIds evs).toFinset.card : ℚ) / 200 := by
  have hdiff : ((additions evs).map (·.lineTotal)).sum - replacedTotal evs -
      (runningTotal evs : ℚ) / 100 = ∑ p ∈ (productIds evs).toFinset,
        ((((additions evs).filter (·.productId = p)).map (·.lineTotal)).sum - replacedLines evs p -
          (lastLine evs p : ℚ) / 100) := by
    rw [sum_lines, replacedTotal, runningTotal_eq hfits, lastLines, Int.cast_sum, Finset.sum_div,
      ← Finset.sum_sub_distrib, ← Finset.sum_sub_distrib]
  calc _ ≤ ∑ p ∈ (productIds evs).toFinset,
        |(((additions evs).filter (·.productId = p)).map (·.lineTotal)).sum -
          replacedLines evs p - (lastLine evs p : ℚ) / 100| := by
        rw [hdiff]
        exact Finset.abs_sum_le_sum_abs _ _
    _ ≤ ∑ _p ∈ (productIds evs).toFinset, (1 / 200 : ℚ) :=
        Finset.sum_le_sum fun p hp => lines_close (List.mem_toFinset.mp hp)
    _ = ((productIds evs).toFinset.card : ℚ) / 200 := by
        rw [Finset.sum_const, nsmul_eq_mul, mul_one_div]

/-- **How far the money is off.**  Whatever the prices are, the total that the read model shows of
an order is the exact sum of the lines of its aggregate, without those that a later addition of the
same product has replaced, up to half a cent for every product, where the total of the aggregate is
the sum by float additions; and the line of a product is that of its newest addition, up to half a
cent. -/
theorem totals_off [FloatArith] [Btree] (hnew : o ∉ rm₀.orders) (hevs : OrderEvents o evs)
    (hfits : FitsColumns evs) :
    ∃ rm row agg, run projectToPostgres rm₀ evs = some rm ∧ rm.orders.lookup o = some row ∧
      rebuildFromEvents evs = .ok agg ∧
      agg.totalAmount = floatSum (agg.items.map (·.lineTotal)) ∧
      |(agg.items.map (·.lineTotal)).sum - replacedTotal evs - row.totalAmount.amount| ≤
        ((productIds evs).toFinset.card : ℚ) / 200 ∧
      ∀ p item, NewestAddition evs p item → ∃ itemRow, rm.orderItems.lookup (o, p) = some itemRow ∧
        |item.lineTotal - itemRow.lineTotal.amount| ≤ 1 / 200 := by
  obtain ⟨rm, row, hrun, hrow, _⟩ := exists_row_of_events hnew hevs hfits
  refine ⟨rm, row, _, hrun, hrow, hevs.rebuild_eq, ?_, ?_, fun p item hnewest => ?_⟩
  · rw [replay_totalAmount, replay_items]
  · have htotal := run_totalled hevs.order (totalled_of_notMem hnew) hrun row hrow
    rw [run_total hnew hevs.order hrun] at htotal
    rw [replay_items, Numeric.amount, htotal]
    exact runningTotal_close hfits.events
  · obtain ⟨oldest, _, holdest, _⟩ := exists_additions hevs hnewest.mem_productIds
    obtain ⟨first, last, _, hlast, hmerged⟩ :=
      itemImage_of_additions hevs hfits.events holdest hnewest
    refine ⟨first.merge last, (run_itemImage hnew hevs.order hrun p).trans hmerged, ?_⟩
    have hcents : (first.merge last).lineTotal.cents = cents item.lineTotal :=
      (ItemRow.ofItem_eq_some.mp hlast).2.2.2
    rw [Numeric.amount, hcents]
    exact cents_close _

end Rounding

/-- An order with a line that is replaced and two lines that end in half a cent. -/
def halfCentsLog : List Event :=
  [orderCreatedEvent (.nth 0) "order-0" "cust-1" "a@test.com",
    orderItemAddedEvent (.nth 1) "order-0" 2 "prod-1" "Polish" 1 (9 / 8),
    orderItemAddedEvent (.nth 2) "order-0" 3 "prod-2" "Wax" 2 10,
    orderItemAddedEvent (.nth 3) "order-0" 4 "prod-2" "Wax" 3 (17 / 8)]

lemma halfCentsLog_legal : LegalLog "order-0" halfCentsLog := by
  have hcreated := LegalLog.created (o := "order-0")
    (e := orderCreatedEvent (.nth 0) "order-0" "cust-1" "a@test.com") rfl rfl rfl
  have hfirst := hcreated.append
    (e := orderItemAddedEvent (.nth 1) "order-0" 2 "prod-1" "Polish" 1 (9 / 8)) rfl rfl rfl
  have hsecond := hfirst.append
    (e := orderItemAddedEvent (.nth 2) "order-0" 3 "prod-2" "Wax" 2 10) rfl rfl rfl
  exact hsecond.append
    (e := orderItemAddedEvent (.nth 3) "order-0" 4 "prod-2" "Wax" 3 (17 / 8)) rfl rfl rfl

/-- **The bound is met**: without the replaced line of 20.00 the lines come to 7.50, and the read
model shows 7.51. -/
theorem halfCents_off : ∃ rm row agg, run projectToPostgres .empty halfCentsLog = some rm ∧
    rm.orders.lookup "order-0" = some row ∧ rebuildFromEvents halfCentsLog = .ok agg ∧
    (agg.items.map (·.lineTotal)).sum - replacedTotal halfCentsLog = 750 / 100 ∧
    row.totalAmount.amount = 751 / 100 ∧
    |(agg.items.map (·.lineTotal)).sum - replacedTotal halfCentsLog - row.totalAmount.amount| ≤
      ((productIds halfCentsLog).toFinset.card : ℚ) / 200 := by
  have hnew : "order-0" ∉ ReadModel.empty.orders := Finmap.notMem_empty
  have hevs := halfCentsLog_legal.orderEvents
  obtain ⟨rm, row, agg, hrun, hrow, hrebuild, _, htotal, _⟩ :=
    totals_off hnew hevs (by decide +kernel)
  have hagg : (agg.items.map (·.lineTotal)).sum - replacedTotal halfCentsLog = 750 / 100 := by
    rw [← Except.ok.inj (hevs.rebuild_eq.symm.trans hrebuild)]
    decide +kernel
  obtain ⟨rm', hrun', hcents⟩ := exists_run_of_eval
    (by decide +kernel : ((run projectToPostgres .empty halfCentsLog).any fun rm =>
      decide ((rm.orders.lookup "order-0").map (·.totalAmount.cents) = some 751)) = true)
  obtain rfl := Option.some.inj (hrun.symm.trans hrun')
  rw [hrow, Option.map_some, Option.some.injEq] at hcents
  have hshown : row.totalAmount.amount = 751 / 100 := by
    rw [Numeric.amount, hcents]
    norm_num
  exact ⟨rm, row, agg, hrun, hrow, hrebuild, hagg, hshown, htotal⟩

end OrderCqrs
