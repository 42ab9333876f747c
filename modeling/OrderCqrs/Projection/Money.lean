import OrderCqrs.Domain.Rebuild
import OrderCqrs.Logic.Lists
import OrderCqrs.Projection.Simulation

/-!
The money of the read model against that of the aggregate.

* `OrderAggregate.itemsOf`: the aggregate keeps all `additions` of a product; the read model keeps
  the last one (`itemImage_quantity`, `itemImage_lineTotal`).
* `lastLine`, `lastLines`: the last line of a product, and the sum of those of all products, which
  is the running total (`runningTotal_eq`).
* `MoneyAgrees`: equal totals, and for every product equal quantities and line totals.
* `money_agrees_iff`: **when the two agree**, where the aggregate adds up its lines exactly:
  precisely if no product is added twice.
* `repeated_product`: the same product added twice, the second line replacing the first.
-/

namespace OrderCqrs

open Runs LastWriter ListTables

/-! ### The additions of a log -/

/-- The items of the aggregate with a given product. -/
def OrderAggregate.itemsOf (agg : OrderAggregate) (p : String) : List OrderItem :=
  agg.items.filter (·.productId = p)

section Additions

variable {o p : String} {evs : List Event}

lemma productIds_eq (evs : List Event) : productIds evs = (additions evs).map (·.productId) := by
  rw [additions, List.map_filterMap]
  rfl

/-- What the events write to a product's row are its additions. -/
lemma filterMap_itemRow? (evs : List Event) (p : String) : evs.filterMap (Event.itemRow? p) =
    ((additions evs).filter (·.productId = p)).filterMap ItemRow.ofItem := by
  rw [additions, List.filterMap_filter, List.filterMap_filterMap]
  refine List.filterMap_congr fun e _ => ?_
  rw [Event.itemRow?]
  cases e.payload.item? <;> simp

/-- The columns an update replaces are those of the last addition. -/
lemma itemImage_elim {β : Type*} {column : ItemRow → β} (b : β)
    (hcol : ∀ r s : ItemRow, column (r.merge s) = column s) :
    (itemImage evs p).elim b column = (lastWrite (Event.itemRow? p) evs).elim b column := by
  have hboth := firstWrite_isSome_iff (Event.itemRow? p) evs
  rw [itemImage_eq]
  cases hlast : lastWrite (Event.itemRow? p) evs with
  | none => rw [Option.map₂_none_right]
  | some r =>
      obtain ⟨f, hf⟩ := Option.isSome_iff_exists.mp (hboth.mpr (by rw [hlast]; rfl))
      rw [hf, Option.map₂_some_some, Option.elim_some, Option.elim_some, hcol]

/-- The additions of events that fit are rows. -/
lemma ofItem_isSome (hfits : ∀ e ∈ evs, e.Fits) {item : OrderItem} (hitem : item ∈ additions evs) :
    (ItemRow.ofItem item).isSome := by
  obtain ⟨e, he, hadd⟩ := List.mem_filterMap.mp hitem
  have hpayload := (hfits e he).payload
  cases hp : e.payload with
  | orderItemAdded item' =>
      rw [hp, Payload.item?, Option.some.injEq] at hadd
      subst hadd
      rw [hp] at hpayload
      exact hpayload.2
  | _ => simp [hp, Payload.item?] at hadd

/-- A column an update replaces is the one of the last addition of the product. -/
lemma itemImage_column (hfits : ∀ e ∈ evs, e.Fits) {column : ItemRow → ℤ} {value : OrderItem → ℤ}
    (hmerge : ∀ r s : ItemRow, column (r.merge s) = column s)
    (hvalue : ∀ item row, ItemRow.ofItem item = some row → column row = value item) :
    (itemImage evs p).elim 0 column =
      (((additions evs).filter (·.productId = p)).map value).getLast?.getD 0 := by
  have hsome : ∀ item ∈ (additions evs).filter (·.productId = p), (ItemRow.ofItem item).isSome :=
    fun item hitem => ofItem_isSome hfits (List.mem_of_mem_filter hitem)
  rw [itemImage_elim 0 hmerge, lastWrite, filterMap_itemRow?, getLast?_filterMap hsome,
    List.getLast?_map]
  cases hlast : ((additions evs).filter (·.productId = p)).getLast? with
  | none => rfl
  | some item =>
      obtain ⟨row, hrow⟩ := Option.isSome_iff_exists.mp (hsome item (List.mem_of_getLast? hlast))
      rw [Option.bind_some, hrow]
      exact hvalue item row hrow

lemma itemImage_quantity (hfits : ∀ e ∈ evs, e.Fits) :
    (itemImage evs p).elim 0 (·.quantity.val) =
      (((additions evs).filter (·.productId = p)).map (·.quantity)).getLast?.getD 0 :=
  itemImage_column hfits (fun _ _ => rfl) fun _ _ h => (ItemRow.ofItem_eq_some.mp h).2.1

/-- The line total of the last addition of a product, in cents. -/
def lastLine (evs : List Event) (p : String) : ℤ :=
  (((additions evs).filter (·.productId = p)).map fun item => cents item.lineTotal).getLast?.getD 0

/-- The sum of the last lines of all products, in cents. -/
def lastLines (evs : List Event) : ℤ := ∑ p ∈ (productIds evs).toFinset, lastLine evs p

lemma itemImage_lineTotal (hfits : ∀ e ∈ evs, e.Fits) :
    (itemImage evs p).elim 0 (·.lineTotal.cents) = lastLine evs p :=
  itemImage_column hfits (fun _ _ => rfl) fun _ _ h => (ItemRow.ofItem_eq_some.mp h).2.2.2

/-- The running total sums the last lines of the products. -/
lemma runningTotal_eq (hfits : ∀ e ∈ evs, e.Fits) : runningTotal evs = lastLines evs :=
  Finset.sum_congr rfl fun _ _ => itemImage_lineTotal hfits

/-- Lines that are not negative sum up to a total that is not. -/
lemma runningTotal_nonneg (h : ∀ item ∈ additions evs, 0 ≤ item.lineTotal) :
    0 ≤ runningTotal evs := by
  refine Finset.sum_nonneg fun p _ => ?_
  rw [itemImage_elim 0 fun _ _ => rfl]
  cases hlast : lastWrite (Event.itemRow? p) evs with
  | none => exact le_rfl
  | some row =>
      have hmem := List.mem_of_getLast? hlast
      rw [filterMap_itemRow?] at hmem
      obtain ⟨item, hitem, hrow⟩ := List.mem_filterMap.mp hmem
      rw [Option.elim_some, (ItemRow.ofItem_eq_some.mp hrow).2.2.2]
      exact cents_nonneg (h item (List.mem_of_mem_filter hitem))

end Additions

/-! ### Agreement -/

/-- **The money of the tables is that of the aggregate**: its total, and for every product the
quantity and the line total, summed over the rows and over the items. -/
structure MoneyAgrees (rm : ReadModel) (o : String) (agg : OrderAggregate) : Prop where
  total : (rm.orders.lookup o).map (·.totalAmount.amount) = some agg.totalAmount
  quantity : ∀ p, (rm.orderItems.lookup (o, p)).elim 0 (·.quantity.val) =
    ((agg.itemsOf p).map (·.quantity)).sum
  lineTotal : ∀ p, (rm.orderItems.lookup (o, p)).elim 0 (·.lineTotal.amount) =
    ((agg.itemsOf p).map (·.lineTotal)).sum

lemma OrderItem.Priced.wholeCents {item : OrderItem} (h : item.Priced)
    (hprice : WholeCents item.unitPrice) : WholeCents item.lineTotal := by
  obtain ⟨k, hk⟩ := hprice
  refine ⟨item.quantity * k, ?_⟩
  rw [h.2.2, hk]
  push_cast
  ring

section Agreement

variable {rm₀ rm : ReadModel} {o : String} {log : List Event}

/-- The quantities agree when no product is added twice, and only then. -/
lemma quantities_agree_iff (hfits : ∀ e ∈ log, e.Fits)
    (hpriced : ∀ item ∈ additions log, item.Priced) :
    (∀ p, (itemImage log p).elim 0 (·.quantity.val) =
        (((additions log).filter (·.productId = p)).map (·.quantity)).sum) ↔
      (productIds log).Nodup := by
  rw [productIds_eq, nodup_map_iff]
  refine forall_congr' fun p => ?_
  have hpos : ∀ x ∈ ((additions log).filter (·.productId = p)).map (·.quantity), 0 < x := by
    intro x hx
    obtain ⟨item, hitem, rfl⟩ := List.mem_map.mp hx
    exact (hpriced item (List.mem_of_mem_filter hitem)).1
  rw [itemImage_quantity hfits, getLast_eq_sum_iff hpos, List.length_map]

/-- Without a repeated product the lines agree. -/
lemma lineTotals_agree (hfits : ∀ e ∈ log, e.Fits)
    (hwhole : ∀ item ∈ additions log, WholeCents item.lineTotal) (hnodup : (productIds log).Nodup)
    (p : String) : (((itemImage log p).elim 0 (·.lineTotal.cents) : ℤ) : ℚ) / 100 =
      (((additions log).filter (·.productId = p)).map (·.lineTotal)).sum := by
  rw [productIds_eq, nodup_map_iff] at hnodup
  rw [itemImage_lineTotal hfits, lastLine]
  cases hitems : (additions log).filter (·.productId = p) with
  | nil => simp
  | cons item items =>
      have hlen := hnodup p
      rw [hitems, List.length_cons] at hlen
      obtain rfl : items = [] := List.length_eq_zero_iff.mp (by omega)
      have hmem : item ∈ additions log := by
        refine List.mem_of_mem_filter (p := fun item => decide (item.productId = p)) ?_
        rw [hitems]
        exact List.mem_singleton_self item
      show ((cents item.lineTotal : ℤ) : ℚ) / 100 = item.lineTotal + 0
      rw [(hwhole item hmem).cents_eq]
      ring

/-- Without a repeated product the running total is the sum of all lines. -/
lemma runningTotal_agrees (hfits : ∀ e ∈ log, e.Fits)
    (hwhole : ∀ item ∈ additions log, WholeCents item.lineTotal)
    (hnodup : (productIds log).Nodup) :
    (runningTotal log : ℚ) / 100 = ((additions log).map (·.lineTotal)).sum := by
  have hone : ∀ item ∈ additions log,
      (additions log).filter (·.productId = item.productId) = [item] := by
    intro item hitem
    have hmem : item ∈ (additions log).filter (·.productId = item.productId) :=
      List.mem_filter.mpr ⟨hitem, by simp⟩
    have hlen := hnodup
    rw [productIds_eq, nodup_map_iff] at hlen
    exact eq_singleton hmem (hlen item.productId)
  calc (runningTotal log : ℚ) / 100
      = ∑ p ∈ (productIds log).toFinset,
          (((itemImage log p).elim 0 (·.lineTotal.cents) : ℤ) : ℚ) / 100 := by
        rw [runningTotal, Int.cast_sum, Finset.sum_div]
    _ = ∑ p ∈ (productIds log).toFinset,
          (((additions log).filter (·.productId = p)).map (·.lineTotal)).sum :=
        Finset.sum_congr rfl fun p _ => lineTotals_agree hfits hwhole hnodup p
    _ = ((productIds log).map fun p =>
          (((additions log).filter (·.productId = p)).map (·.lineTotal)).sum).sum :=
        List.sum_toFinset _ hnodup
    _ = ((additions log).map (·.lineTotal)).sum := by
        rw [productIds_eq, List.map_map]
        refine congrArg List.sum (List.map_congr_left fun item hitem => ?_)
        show (((additions log).filter (·.productId = item.productId)).map (·.lineTotal)).sum = _
        rw [hone item hitem, List.map_singleton, List.sum_singleton]

/-- **When the money agrees**: over a lifecycle-legal log whose prices are whole cents and whose
amounts fit their columns, and in an arithmetic that adds its lines up exactly, precisely if no
product is added twice. -/
theorem money_agrees_iff [FloatArith] [Btree] (hnew : o ∉ rm₀.orders) (hlog : LegalLog o log)
    (hpriced : ∀ item ∈ additions log, item.Priced ∧ WholeCents item.unitPrice)
    (hexact : ExactSum ((additions log).map (·.lineTotal))) (hfits : FitsColumns log) :
    ∃ rm agg, run projectToPostgres rm₀ log = some rm ∧
      rebuildFromEvents log = .ok agg ∧ (MoneyAgrees rm o agg ↔ (productIds log).Nodup) := by
  have hevs := hlog.orderEvents
  have hprice : ∀ item ∈ additions log, item.Priced := fun item hi => (hpriced item hi).1
  have hwhole : ∀ item ∈ additions log, WholeCents item.lineTotal := fun item hi =>
    (hprice item hi).wholeCents (hpriced item hi).2
  obtain ⟨rm, row, hrun, hrow, _⟩ := exists_row_of_events hnew hevs hfits
  refine ⟨rm, _, hrun, hevs.rebuild_eq, ?_⟩
  have hitem : ∀ p, rm.orderItems.lookup (o, p) = itemImage log p :=
    run_itemImage hnew hevs.order hrun
  have hitems : ∀ p, (replay o log).itemsOf p = (additions log).filter (·.productId = p) :=
    fun p => by rw [OrderAggregate.itemsOf, replay_items]
  constructor
  · intro hagree
    refine (quantities_agree_iff hfits.events hprice).mp fun p => ?_
    have hq := hagree.quantity p
    rwa [hitem, hitems] at hq
  · intro hnodup
    refine ⟨?_, fun p => ?_, fun p => ?_⟩
    · have htotal := run_totalled hevs.order (totalled_of_notMem hnew) hrun row hrow
      rw [run_total hnew hevs.order hrun] at htotal
      rw [hrow, Option.map_some, Numeric.amount, htotal, replay_totalAmount, hexact,
        runningTotal_agrees hfits.events hwhole hnodup]
    · rw [hitem, hitems]
      exact (quantities_agree_iff hfits.events hprice).mpr hnodup p
    · rw [hitem, hitems, ← lineTotals_agree hfits.events hwhole hnodup p]
      cases itemImage log p with
      | none => norm_num
      | some r => rfl

end Agreement

lemma shippedLog_priced :
    ∀ item ∈ additions shippedLog, item.Priced ∧ WholeCents item.unitPrice := by
  intro item hitem
  obtain rfl : item = ⟨"prod-1", "Polish", 3, 150, 450⟩ := by
    have hadd : additions shippedLog = [⟨"prod-1", "Polish", 3, 150, 450⟩] := by decide +kernel
    rw [hadd] at hitem
    exact List.mem_singleton.mp hitem
  exact ⟨⟨by norm_num, by norm_num, by norm_num⟩, 15000, by norm_num⟩

theorem shippedLog_money : ∃ rm agg, run projectToPostgres .empty shippedLog = some rm ∧
    rebuildFromEvents shippedLog = .ok agg ∧
      (MoneyAgrees rm "order-0" agg ↔ (productIds shippedLog).Nodup) :=
  money_agrees_iff Finmap.notMem_empty shippedLog_legal shippedLog_priced
    (by decide +kernel) (by decide +kernel)

/-- An order to which the same product is added twice. -/
def repeatedLog : List Event :=
  [orderCreatedEvent (.nth 0) "order-0" "cust-1" "a@test.com",
    orderItemAddedEvent (.nth 1) "order-0" 2 "prod-1" "Polish" 1 10,
    orderItemAddedEvent (.nth 2) "order-0" 3 "prod-1" "Polish" 2 10]

lemma repeatedLog_legal : LegalLog "order-0" repeatedLog := by
  have hcreated := LegalLog.created (o := "order-0")
    (e := orderCreatedEvent (.nth 0) "order-0" "cust-1" "a@test.com") rfl rfl rfl
  have hfirst := hcreated.append
    (e := orderItemAddedEvent (.nth 1) "order-0" 2 "prod-1" "Polish" 1 10) rfl rfl rfl
  exact hfirst.append
    (e := orderItemAddedEvent (.nth 2) "order-0" 3 "prod-1" "Polish" 2 10) rfl rfl rfl

/-- **A repeated product**: the aggregate charges both lines, the read model shows the last. -/
theorem repeated_product : LegalLog "order-0" repeatedLog ∧ FitsColumns repeatedLog ∧
    ∃ rm agg, run projectToPostgres .empty repeatedLog = some rm ∧
      rebuildFromEvents repeatedLog = .ok agg ∧ agg.totalAmount = 30 ∧
      (rm.orders.lookup "order-0").map (·.totalAmount.cents) = some 2000 ∧
      ¬ MoneyAgrees rm "order-0" agg := by
  refine ⟨repeatedLog_legal, by decide +kernel, ?_⟩
  obtain ⟨rm, hrun, htotal⟩ := exists_run_of_eval
    (by decide +kernel : ((run projectToPostgres .empty repeatedLog).any fun rm =>
      decide ((rm.orders.lookup "order-0").map (·.totalAmount.cents) = some 2000)) = true)
  have hagg : (replay "order-0" repeatedLog).totalAmount = 30 := by decide +kernel
  refine ⟨rm, _, hrun, repeatedLog_legal.rebuild_eq, hagg, htotal, fun hagree => ?_⟩
  obtain ⟨row, hrow, hcents⟩ := Option.map_eq_some_iff.mp htotal
  have hmoney := hagree.total
  rw [hagg, hrow, Option.map_some, Option.some.injEq, Numeric.amount, hcents] at hmoney
  norm_num at hmoney

end OrderCqrs
