import OrderCqrs.Projection.Effects

/-!
What a projection that reports success has achieved.

* `Payload.ShownBy`: the columns an event of each type governs hold its values.
* `Effective`: the order has a row, it has the version of the event, and it shows the event.
* `effective_of_row`: on an order that has a row only the item row can be wrong.
* `effective_iff`: **when a reported projection has had its effect**: precisely if the order has a
  row, unless the event creates it, and an item row that exists already has the name and the price
  of the added item.
* `confirmed_unseen`: a confirmation of an order without a row, reported and without effect.
-/

namespace OrderCqrs

open Runs

/-- The columns that an event of this payload governs hold its values. -/
def Payload.ShownBy (payload : Payload) (rm : ReadModel) (o : String) (row : OrderRow) : Prop :=
  match payload with
  | .orderCreated _ => True
  | .orderItemAdded item =>
      (∃ r, rm.orderItems.lookup (o, item.productId) = some r ∧ ItemRow.ofItem item = some r) ∧
        row.totalAmount.cents = rm.sumLineTotal o
  | .orderConfirmed _ => row.status.val = OrderStatus.confirmed.value
  | .orderPaymentProcessed p =>
      row.status.val = OrderStatus.paid.value ∧ row.paymentId.map (·.val) = some p.paymentId
  | .orderShipped p =>
      row.status.val = OrderStatus.shipped.value ∧ row.trackingId.map (·.val) = some p.trackingId
  | .orderDelivered => row.status.val = OrderStatus.delivered.value
  | .orderCancelled _ _ => row.status.val = OrderStatus.cancelled.value

/-- **The tables show an event**: its order has a row, which has the version of the event, unless
the event is the creation, and the values of the columns it governs. -/
def Effective (rm : ReadModel) (e : Event) : Prop :=
  ∃ row, rm.orders.lookup e.aggregateId = some row ∧
    ((∀ c, e.payload ≠ .orderCreated c) → row.version.val = e.aggregateVersion) ∧
    e.payload.ShownBy rm e.aggregateId row

/-- An item row that exists has the name and the price of the item an event adds. -/
def SameItem (rm : ReadModel) (e : Event) : Prop :=
  ∀ item r, e.payload = .orderItemAdded item →
    rm.orderItems.lookup (e.aggregateId, item.productId) = some r →
    r.productName.val = item.productName ∧ r.unitPrice.cents = cents item.unitPrice

section Effective

variable {rm rm' : ReadModel} {e : Event}

/-- The item row after the addition shows the item when the one before had its name and price. -/
lemma item_shown_iff [Btree] (h : projectToPostgres rm e = some rm') {item : OrderItem}
    (hitem : e.payload = .orderItemAdded item) :
    (∃ r, rm'.orderItems.lookup (e.aggregateId, item.productId) = some r ∧
      ItemRow.ofItem item = some r) ↔ SameItem rm e := by
  cases project_cases h with
  | again hp | create hp => simp [hitem] at hp
  | update _ hi | noRow _ hi => simp [hitem, Payload.item?] at hi
  | @addItem item' new _ _ _ _ hp hnew =>
      obtain rfl : item = item' := Payload.orderItemAdded.inj (hitem.symm.trans hp)
      have hrow := project_item h item.productId
      rw [Event.itemRow?, hitem, Payload.item?, Option.bind_some, if_pos rfl, hnew,
        Option.elim_some] at hrow
      obtain ⟨hname, _, hprice, _⟩ := ItemRow.ofItem_eq_some.mp hnew
      cases hold : (rm.view e.aggregateId).items item.productId with
      | none =>
          -- the row is new
          rw [hold, Option.elim_none] at hrow
          have hsame : SameItem rm e := fun item' r hp' hr => by
            obtain rfl : item = item' := Payload.orderItemAdded.inj (hitem.symm.trans hp')
            have hnone : rm.orderItems.lookup (e.aggregateId, item.productId) = none := hold
            rw [hnone] at hr
            simp at hr
          exact ⟨fun _ => hsame, fun _ => ⟨new, hrow, hnew⟩⟩
      | some r =>
          rw [hold, Option.elim_some] at hrow
          constructor
          · rintro ⟨r', hr', hshown⟩ item' r₀ hp' hr₀
            obtain rfl : item = item' := Payload.orderItemAdded.inj (hitem.symm.trans hp')
            obtain rfl : r = r₀ := Option.some.inj (hold.symm.trans hr₀)
            obtain rfl : r.merge new = r' := Option.some.inj (hrow.symm.trans hr')
            obtain ⟨hname', _, hprice', _⟩ := ItemRow.ofItem_eq_some.mp hshown
            exact ⟨hname', hprice'⟩
          · intro hsame
            obtain ⟨hname', hprice'⟩ := hsame item r hitem hold
            have hmerge : r.merge new = new := ItemRow.ext
              (Text.ext (hname'.trans hname.symm)) rfl (Numeric.ext (hprice'.trans hprice.symm)) rfl
            rw [hmerge] at hrow
            exact ⟨new, hrow, hnew⟩

/-- An event that adds no item makes no condition on item rows. -/
lemma SameItem.of_no_item (h : e.payload.item? = none) : SameItem rm e := by
  intro item r hitem
  simp [hitem, Payload.item?] at h

/-- On an order that has a row, only the item row can be wrong. -/
lemma effective_of_row [Btree] (h : projectToPostgres rm e = some rm')
    (ho : e.aggregateId ∈ rm.orders) :
    Effective rm' e ↔ SameItem rm e := by
  obtain ⟨old, hold⟩ := Option.isSome_iff_exists.mp (Finmap.lookup_isSome.mpr ho)
  obtain ⟨row, hrow, hstate, htotal⟩ := project_row h hold
  have hversion : (∀ c, e.payload ≠ .orderCreated c) → row.version.val = e.aggregateVersion := by
    intro hc
    have hv : row.state.version = (old.state.apply e).version := by rw [hstate]
    rw [OrderState.apply] at hv
    cases hp : e.payload with
    | orderCreated c => exact absurd hp (hc c)
    | _ => simpa only [hp, OrderRow.state] using hv
  have hiff : Effective rm' e ↔ e.payload.ShownBy rm' e.aggregateId row := by
    constructor
    · rintro ⟨row', hrow', _, hshown⟩
      obtain rfl : row = row' := Option.some.inj (hrow.symm.trans hrow')
      exact hshown
    · exact fun hshown => ⟨row, hrow, hversion, hshown⟩
  rw [hiff]
  rw [OrderState.apply] at hstate
  cases hp : e.payload with
  | orderItemAdded item =>
      rw [hp, Payload.item?, Option.isSome_some, if_pos rfl] at htotal
      rw [Payload.ShownBy, item_shown_iff h hp]
      exact and_iff_left htotal
  | orderCreated c => exact iff_of_true trivial (.of_no_item (by rw [hp]; rfl))
  | orderConfirmed _ | orderDelivered | orderCancelled _ _ =>
      simp only [hp] at hstate
      exact iff_of_true (congrArg OrderState.status hstate) (.of_no_item (by rw [hp]; rfl))
  | orderPaymentProcessed p =>
      simp only [hp] at hstate
      exact iff_of_true ⟨congrArg OrderState.status hstate, congrArg OrderState.paymentId hstate⟩
        (.of_no_item (by rw [hp]; rfl))
  | orderShipped p =>
      simp only [hp] at hstate
      exact iff_of_true ⟨congrArg OrderState.status hstate, congrArg OrderState.trackingId hstate⟩
        (.of_no_item (by rw [hp]; rfl))

/-- **When a reported projection has had its effect**: precisely if the order had a row, unless the
event is its creation, and an item row that was there has the name and the price of the event. -/
theorem effective_iff [Btree] (h : projectToPostgres rm e = some rm') :
    Effective rm' e ↔
      ((∀ c, e.payload ≠ .orderCreated c) → e.aggregateId ∈ rm.orders) ∧ SameItem rm e := by
  by_cases ho : e.aggregateId ∈ rm.orders
  · rw [effective_of_row h ho]
    exact (and_iff_right fun _ => ho).symm
  · by_cases hc : ∃ c, e.payload = .orderCreated c
    · obtain ⟨c, hc⟩ := hc
      obtain ⟨row, hrow, _⟩ := project_created h ho hc
      refine iff_of_true ⟨row, hrow, fun hne => absurd hc (hne c), ?_⟩
        ⟨fun hne => absurd hc (hne c), .of_no_item (by rw [hc]; rfl)⟩
      rw [hc]
      trivial
    · push Not at hc
      obtain ⟨rfl, _⟩ := project_absent h ho hc
      refine iff_of_false ?_ fun hcond => ho (hcond.1 hc)
      rintro ⟨row, hrow, _⟩
      exact ho (Finmap.mem_of_lookup_eq_some hrow)

end Effective

/-! ### A product that is added again, and an order without a row -/

/-- An addition of a product that has been added before, with its name and at its price. -/
def readdedEvent : Event := orderItemAddedEvent (.nth 2) "order-0" 3 "prod-1" "Polish" 2 150

theorem readded_effective : ∃ rm rm', run projectToPostgres .empty
      [orderCreatedEvent (.nth 0) "order-0" "cust-1" "a@test.com",
        orderItemAddedEvent (.nth 1) "order-0" 2 "prod-1" "Polish" 3 150] = some rm ∧
    ("order-0", "prod-1") ∈ rm.orderItems ∧ projectToPostgres rm readdedEvent = some rm' ∧
    Effective rm' readdedEvent := by
  obtain ⟨rm, hrun, horder, hrow, hsome⟩ := exists_run_of_eval
    (by decide +kernel : ((run projectToPostgres .empty
      [orderCreatedEvent (.nth 0) "order-0" "cust-1" "a@test.com",
        orderItemAddedEvent (.nth 1) "order-0" 2 "prod-1" "Polish" 3 150]).any fun rm =>
      decide ("order-0" ∈ rm.orders ∧ (rm.orderItems.lookup ("order-0", "prod-1")).map
          (fun r => (r.productName.val, r.unitPrice.cents)) = some ("Polish", 15000) ∧
        (projectToPostgres rm readdedEvent).isSome)) = true)
  obtain ⟨rm', h⟩ := Option.isSome_iff_exists.mp hsome
  obtain ⟨r, hr, hcolumns⟩ := Option.map_eq_some_iff.mp hrow
  refine ⟨rm, rm', hrun, Finmap.mem_of_lookup_eq_some hr, h,
    (effective_iff h).mpr ⟨fun _ => horder, fun item r' hitem hr' => ?_⟩⟩
  obtain rfl := Payload.orderItemAdded.inj hitem
  obtain rfl := Option.some.inj (hr.symm.trans hr')
  obtain ⟨hname, hprice⟩ := Prod.mk.inj hcolumns
  exact ⟨hname, hprice.trans (by decide +kernel)⟩

/-- **A confirmation nobody sees**: its order has no row, the projection reports success, and the
tables are as empty as before. -/
theorem confirmed_unseen :
    projectToPostgres .empty (orderConfirmedEvent (.nth 2) "order-0" 3) = some .empty ∧
      ¬ Effective .empty (orderConfirmedEvent (.nth 2) "order-0" 3) := by
  refine ⟨by decide +kernel, ?_⟩
  rintro ⟨row, hrow, _⟩
  exact Finmap.notMem_empty (Finmap.mem_of_lookup_eq_some hrow)

end OrderCqrs
