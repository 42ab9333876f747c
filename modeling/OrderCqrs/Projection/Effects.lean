import OrderCqrs.Logic.Keyed
import OrderCqrs.Projection.ReadModel

/-!
What the projection of an event does, seen from one order.

* `OrderView`, `ReadModel.view`: the rows that concern one order.
* `OrderState`: the columns of an order besides its total and its items, as plain values, and
  `OrderState.apply`, **what an event does to them**.
* `Event.Fits`: the values of an event pass the checks of their columns; `Event.Indexed`: the
  indexes take its keys.
* `project_row`, `project_created`, `project_absent`, `project_item`: the effect of the projection
  on a row that exists, on one that does not, and on the items; `project_isSome` says when it
  succeeds.
* `projection_local`: the projection concerns the order of its event only, `project_idem`: done
  twice in a row it is done once.
-/

namespace OrderCqrs

open Runs

/-! ### The rows of one order -/

/-- The rows that concern one order. -/
@[ext] structure OrderView where
  row : Option OrderRow
  items : String → Option ItemRow

namespace ReadModel

/-- The rows of an order. -/
def view (rm : ReadModel) (o : String) : OrderView where
  row := rm.orders.lookup o
  items := fun p => rm.orderItems.lookup (o, p)

variable {rm rm' : ReadModel} {o o' p p' : String}

/-- The tables are what the views of all orders show. -/
lemma ext_view (h : ∀ o, rm.view o = rm'.view o) : rm = rm' := by
  obtain ⟨orders, orderItems, _⟩ := rm
  obtain ⟨orders', orderItems', _⟩ := rm'
  obtain rfl : orders = orders' := Finmap.ext_lookup fun o => congrArg OrderView.row (h o)
  obtain rfl : orderItems = orderItems' :=
    Finmap.ext_lookup fun k => congrFun (congrArg OrderView.items (h k.1)) k.2
  rfl

lemma mem_orders_congr (h : rm.view o = rm'.view o) : o ∈ rm.orders ↔ o ∈ rm'.orders := by
  rw [← Finmap.lookup_isSome, ← Finmap.lookup_isSome]
  exact iff_of_eq (congrArg (fun v : OrderView => v.row.isSome = true) h)

/-- An order without a row has no items. -/
lemma lookup_item_eq_none (h : o ∉ rm.orders) : rm.orderItems.lookup (o, p) = none :=
  Finmap.lookup_eq_none.mpr fun hmem => h (rm.foreignKey _ hmem)

/-- The sum of an order's lines, over any products that include its own. -/
lemma sumLineTotal_eq (products : Finset String)
    (h : ∀ p, rm.orderItems.lookup (o, p) ≠ none → p ∈ products) :
    rm.sumLineTotal o =
      ∑ p ∈ products, (rm.orderItems.lookup (o, p)).elim 0 (·.lineTotal.cents) := by
  have hinj : ∀ a ∈ products, ∀ b ∈ products, (o, a) = (o, b) → a = b :=
    fun a _ b _ hab => (Prod.mk.inj hab).2
  rw [sumLineTotal, ← Finset.sum_image (s := products) (g := fun p => (o, p))
    (f := fun k => (rm.orderItems.lookup k).elim 0 (·.lineTotal.cents)) hinj]
  refine Finset.sum_subset (fun k hk => ?_) fun k hk hnot => ?_
  · obtain ⟨hkey, rfl⟩ := Finset.mem_filter.mp hk
    have hsome : rm.orderItems.lookup (k.1, k.2) ≠ none := by
      rw [Ne, Finmap.lookup_eq_none, not_not]
      exact Finmap.mem_keys.mp hkey
    exact Finset.mem_image.mpr ⟨k.2, h k.2 hsome, rfl⟩
  · obtain ⟨p, _, rfl⟩ := Finset.mem_image.mp hk
    have hnone : rm.orderItems.lookup (o, p) = none := by
      rw [Finmap.lookup_eq_none]
      exact fun hmem => hnot (Finset.mem_filter.mpr ⟨Finmap.mem_keys.mpr hmem, rfl⟩)
    rw [hnone]
    rfl

/-- The sum of an order's lines is a matter of its own items. -/
lemma sumLineTotal_congr (h : (rm.view o).items = (rm'.view o).items) :
    rm.sumLineTotal o = rm'.sumLineTotal o := by
  have hitems : ∀ p, rm.orderItems.lookup (o, p) = rm'.orderItems.lookup (o, p) := congrFun h
  have hin : ∀ {r : ReadModel}, ∀ p, r.orderItems.lookup (o, p) ≠ none →
      p ∈ (r.orderItems.keys.image Prod.snd) := fun {r} p hp => by
    rw [Ne, Finmap.lookup_eq_none, not_not] at hp
    exact Finset.mem_image.mpr ⟨(o, p), Finmap.mem_keys.mpr hp, rfl⟩
  rw [sumLineTotal_eq _ (hin (r := rm)), sumLineTotal_eq _ fun p hp => hin p (hitems p ▸ hp)]
  exact Finset.sum_congr rfl fun p _ => by rw [hitems]

/-! ### The statements -/

@[simp] lemma view_putOrder_self {row : OrderRow} :
    (rm.putOrder o row).view o = { row := some row, items := (rm.view o).items } := by
  simp [view, putOrder]

lemma view_putOrder_of_ne {row : OrderRow} (h : o' ≠ o) :
    (rm.putOrder o row).view o' = rm.view o' := by
  simp [view, putOrder, Finmap.lookup_insert_of_ne _ h]

@[simp] lemma view_putItem_self {row : ItemRow} {ho : o ∈ rm.orders} :
    (rm.putItem o p row ho).view o =
      { row := (rm.view o).row, items := Function.update (rm.view o).items p (some row) } := by
  refine OrderView.ext rfl (funext fun q => ?_)
  by_cases hq : q = p
  · subst hq
    simp [view, putItem]
  · have hne : (o, q) ≠ (o, p) := fun heq => hq (Prod.mk.inj heq).2
    calc Finmap.lookup (o, q) (rm.orderItems.insert (o, p) row)
        = (rm.view o).items q := Finmap.lookup_insert_of_ne _ hne
      _ = Function.update (rm.view o).items p (some row) q := (Function.update_of_ne hq _ _).symm

lemma view_putItem_of_ne {row : ItemRow} {ho : o ∈ rm.orders} (h : o' ≠ o) :
    (rm.putItem o p row ho).view o' = rm.view o' := by
  refine OrderView.ext rfl (funext fun q => ?_)
  have hne : (o', q) ≠ (o, p) := fun heq => h (Prod.mk.inj heq).1
  exact Finmap.lookup_insert_of_ne _ hne

section Statements

variable [Btree]

lemma insertOrder_of_mem {customerId customerEmail : String} {version : ℤ} (h : o ∈ rm.orders)
    (hinsert : rm.insertOrder o customerId customerEmail version = some rm') : rm' = rm := by
  simp only [insertOrder, Option.bind_eq_bind, Option.bind_eq_some_iff, if_pos h, Option.pure_def,
    Option.some.injEq] at hinsert
  obtain ⟨_, _, _, _, _, _, _, _, rfl⟩ := hinsert
  rfl

lemma insertOrder_of_notMem {customerId customerEmail : String} {version : ℤ}
    (h : o ∉ rm.orders) (hinsert : rm.insertOrder o customerId customerEmail version = some rm') :
    ∃ row : OrderRow, rm' = rm.putOrder o row ∧ row.customerId.val = customerId ∧
      row.customerEmail.val = customerEmail ∧ row.status.val = OrderStatus.pending.value ∧
      row.totalAmount.cents = 0 ∧ row.version.val = version ∧ row.paymentId = none ∧
      row.trackingId = none ∧ Btree.takes [o] ∧ Btree.takes [customerId] := by
  simp only [insertOrder, Option.bind_eq_bind, Option.bind_eq_some_iff, if_neg h, Option.pure_def,
    Text.ofString_eq_some, Int4.ofInt_eq_some] at hinsert
  obtain ⟨_, _, c, hc, m, hm, v, hv, hrest⟩ := hinsert
  split_ifs at hrest with htakes
  obtain rfl := Option.some.inj hrest
  rw [Bool.and_eq_true, hc] at htakes
  exact ⟨_, rfl, hc, hm, rfl, rfl, hv, rfl, rfl, htakes⟩

omit [Btree] in
lemma updateOrder_of_row {set : OrderRow → Option OrderRow} {row : OrderRow}
    (hrow : (rm.view o).row = some row) (hupdate : rm.updateOrder o set = some rm') :
    ∃ row', set row = some row' ∧ rm' = rm.putOrder o row' := by
  have hlookup : rm.orders.lookup o = some row := hrow
  simp only [updateOrder, hlookup, Option.bind_eq_bind, Option.bind_eq_some_iff, Option.pure_def,
    Option.some.injEq] at hupdate
  obtain ⟨_, _, row', hset, rfl⟩ := hupdate
  exact ⟨row', hset, rfl⟩

omit [Btree] in
lemma updateOrder_of_absent {set : OrderRow → Option OrderRow} (hrow : (rm.view o).row = none)
    (hupdate : rm.updateOrder o set = some rm') : rm' = rm := by
  have hlookup : rm.orders.lookup o = none := hrow
  simp only [updateOrder, hlookup, Option.bind_eq_bind, Option.bind_eq_some_iff, Option.pure_def,
    Option.some.injEq] at hupdate
  obtain ⟨_, _, rfl⟩ := hupdate
  rfl

lemma upsertItem_eq_some {item : OrderItem} (hupsert : rm.upsertItem o item = some rm') :
    ∃ new, ∃ ho : o ∈ rm.orders, ItemRow.ofItem item = some new ∧
      rm' = rm.putItem o item.productId
        (((rm.view o).items item.productId).elim new (·.merge new)) ho ∧
      ((rm.view o).items item.productId = none → Btree.takes [o, item.productId]) := by
  simp only [upsertItem, Option.bind_eq_bind, Option.bind_eq_some_iff] at hupsert
  obtain ⟨_, _, _, _, new, hnew, hrest⟩ := hupsert
  by_cases ho : o ∈ rm.orders
  swap
  · rw [dif_neg ho] at hrest
    cases hrest
  rw [dif_pos ho] at hrest
  refine ⟨new, ho, hnew, ?_⟩
  show rm' = rm.putItem o item.productId
    ((rm.orderItems.lookup (o, item.productId)).elim new (·.merge new)) ho ∧
      (rm.orderItems.lookup (o, item.productId) = none → Btree.takes [o, item.productId])
  cases hold : rm.orderItems.lookup (o, item.productId) with
  | some old =>
      rw [hold] at hrest
      exact ⟨(Option.some.inj hrest).symm, by simp⟩
  | none =>
      rw [hold] at hrest
      dsimp only at hrest
      split_ifs at hrest with htakes
      exact ⟨(Option.some.inj hrest).symm, fun _ => htakes⟩

end Statements

end ReadModel

/-! ### The columns of an order -/

/-- The columns of an order besides its total, as plain values. -/
@[ext] structure OrderState where
  customerId : String
  customerEmail : String
  status : String
  version : ℤ
  paymentId : Option String
  trackingId : Option String

namespace OrderState

/-- The order an `ORDER_CREATED` starts. -/
def created (c : Created) (version : ℤ) : OrderState where
  customerId := c.customerId
  customerEmail := c.customerEmail
  status := OrderStatus.pending.value
  version := version
  paymentId := none
  trackingId := none

/-- What an event does to an order that exists; it is created once. -/
def apply (st : OrderState) (event : Event) : OrderState :=
  let version := event.aggregateVersion
  match event.payload with
  | .orderCreated _ => st
  | .orderItemAdded _ => { st with version }
  | .orderConfirmed _ => { st with status := OrderStatus.confirmed.value, version }
  | .orderPaymentProcessed p =>
      { st with status := OrderStatus.paid.value, paymentId := some p.paymentId, version }
  | .orderShipped p =>
      { st with status := OrderStatus.shipped.value, trackingId := some p.trackingId, version }
  | .orderDelivered => { st with status := OrderStatus.delivered.value, version }
  | .orderCancelled _ _ => { st with status := OrderStatus.cancelled.value, version }

end OrderState

/-- The columns of a row besides its total. -/
def OrderRow.state (row : OrderRow) : OrderState where
  customerId := row.customerId.val
  customerEmail := row.customerEmail.val
  status := row.status.val
  version := row.version.val
  paymentId := row.paymentId.map (·.val)
  trackingId := row.trackingId.map (·.val)

/-- A row is its total and its other columns. -/
lemma OrderRow.ext_state {row row' : OrderRow} (hstate : row.state = row'.state)
    (htotal : row.totalAmount.cents = row'.totalAmount.cents) : row = row' := by
  have hopt : ∀ {a b : Option Text}, a.map (·.val) = b.map (·.val) → a = b := fun {a b} h =>
    Option.map_injective (fun _ _ => Text.ext) h
  simp only [OrderRow.state, OrderState.mk.injEq] at hstate
  obtain ⟨hc, hm, hs, hv, hp, ht⟩ := hstate
  exact OrderRow.ext (Text.ext hc) (Text.ext hm) (Text.ext hs) (Numeric.ext htotal) (Int4.ext hv)
    (hopt hp) (hopt ht)

/-- What an event writes to the item row of a product. -/
def Event.itemRow? (p : String) (event : Event) : Option ItemRow :=
  event.payload.item?.bind fun item => if item.productId = p then ItemRow.ofItem item else none

lemma ItemRow.ofItem_eq_some {item : OrderItem} {row : ItemRow} :
    ItemRow.ofItem item = some row ↔ row.productName.val = item.productName ∧
      row.quantity.val = item.quantity ∧ row.unitPrice.cents = cents item.unitPrice ∧
      row.lineTotal.cents = cents item.lineTotal := by
  simp only [ofItem, Option.bind_eq_bind, Option.bind_eq_some_iff, Text.ofString_eq_some,
    Int4.ofInt_eq_some, Numeric.ofRat_eq_some, Option.pure_def, Option.some.injEq]
  constructor
  · rintro ⟨name, hname, quantity, hquantity, price, hprice, line, hline, rfl⟩
    exact ⟨hname, hquantity, hprice, hline⟩
  · rintro ⟨hname, hquantity, hprice, hline⟩
    exact ⟨_, hname, _, hquantity, _, hprice, _, hline, rfl⟩

/-! ### The effect of a projection -/

/-- The indexes take the keys of the row that a payload adds to an order. -/
def Payload.Indexed [Btree] (o : String) : Payload → Prop
  | .orderCreated c => Btree.takes [o] ∧ Btree.takes [c.customerId]
  | .orderItemAdded item => Btree.takes [o, item.productId]
  | .orderConfirmed _ | .orderPaymentProcessed _ | .orderShipped _ | .orderDelivered
  | .orderCancelled _ _ => True

instance [Btree] (o : String) : (payload : Payload) → Decidable (payload.Indexed o)
  | .orderCreated _ => inferInstanceAs (Decidable (_ ∧ _))
  | .orderItemAdded item => inferInstanceAs (Decidable (Btree.takes [o, item.productId] = true))
  | .orderConfirmed _ | .orderPaymentProcessed _ | .orderShipped _ | .orderDelivered
  | .orderCancelled _ _ => .isTrue trivial

/-- The indexes take the keys of the row that an event adds. -/
def Event.Indexed [Btree] (e : Event) : Prop := e.payload.Indexed e.aggregateId

instance [Btree] (e : Event) : Decidable e.Indexed :=
  inferInstanceAs (Decidable (e.payload.Indexed e.aggregateId))

/-- **The ways a projection can end.** -/
inductive Projection [Btree] (rm : ReadModel) (e : Event) : ReadModel → Prop where
  /-- The order has been created before. -/
  | again {c : Created} : e.payload = .orderCreated c → e.aggregateId ∈ rm.orders →
      Projection rm e rm
  /-- The order is created. -/
  | create {c : Created} {row : OrderRow} : e.payload = .orderCreated c →
      e.aggregateId ∉ rm.orders → row.state = .created c e.aggregateVersion →
      row.totalAmount.cents = 0 → e.Indexed → Projection rm e (rm.putOrder e.aggregateId row)
  /-- An item is added or updated, and the total is the new sum. -/
  | addItem {item : OrderItem} {new : ItemRow} {row row' : OrderRow} {rm₁ : ReadModel}
      {ho : e.aggregateId ∈ rm.orders} : e.payload = .orderItemAdded item →
      ItemRow.ofItem item = some new →
      rm₁ = rm.putItem e.aggregateId item.productId
        (((rm.view e.aggregateId).items item.productId).elim new (·.merge new)) ho →
      ((rm.view e.aggregateId).items item.productId = none → e.Indexed) →
      (rm.view e.aggregateId).row = some row → row'.state = row.state.apply e →
      row'.totalAmount.cents = rm₁.sumLineTotal e.aggregateId →
      Projection rm e (rm₁.putOrder e.aggregateId row')
  /-- One of the other events updates the row. -/
  | update {row row' : OrderRow} : (∀ c, e.payload ≠ .orderCreated c) → e.payload.item? = none →
      (rm.view e.aggregateId).row = some row → row'.state = row.state.apply e →
      row'.totalAmount = row.totalAmount → Projection rm e (rm.putOrder e.aggregateId row')
  /-- One of the other events finds no row, which is no error. -/
  | noRow : (∀ c, e.payload ≠ .orderCreated c) → e.payload.item? = none →
      e.aggregateId ∉ rm.orders → Projection rm e rm

section Effect

variable [Btree] {rm rm' : ReadModel} {e : Event}

/-- The events that only update the order's row, `set` being what they set. -/
lemma update_projection {set : OrderRow → OrderRow}
    (h : rm.updateOrder e.aggregateId (fun row => some (set row)) = some rm')
    (hc : ∀ c, e.payload ≠ .orderCreated c) (hi : e.payload.item? = none)
    (hstate : ∀ row, (set row).state = row.state.apply e)
    (htotal : ∀ row, (set row).totalAmount = row.totalAmount) : Projection rm e rm' := by
  cases hrow : (rm.view e.aggregateId).row with
  | none =>
      rw [ReadModel.updateOrder_of_absent hrow h]
      exact .noRow hc hi (Finmap.lookup_eq_none.mp hrow)
  | some row =>
      obtain ⟨row', hset, rfl⟩ := ReadModel.updateOrder_of_row hrow h
      rw [Option.some.injEq] at hset
      subst hset
      exact .update hc hi hrow (hstate row) (htotal row)

/-- **The inversion of a projection.** -/
theorem project_cases (h : projectToPostgres rm e = some rm') : Projection rm e rm' := by
  rw [projectToPostgres] at h
  cases hp : e.payload with
  | orderCreated c =>
      simp only [hp] at h
      by_cases ho : e.aggregateId ∈ rm.orders
      · rw [ReadModel.insertOrder_of_mem ho h]
        exact .again hp ho
      · obtain ⟨row, rfl, hcust, hmail, hstatus, htotal, hv, hpay, htrack, htakes⟩ :=
          ReadModel.insertOrder_of_notMem ho h
        refine .create hp ho ?_ htotal ?_
        · rw [OrderRow.state, hcust, hmail, hstatus, hv, hpay, htrack]
          rfl
        · rw [Event.Indexed, hp]
          exact htakes
  | orderItemAdded item =>
      simp only [hp, Option.bind_eq_bind, Option.bind_eq_some_iff, Int4.ofInt_eq_some] at h
      obtain ⟨rm₁, hupsert, v, hv, hupdate⟩ := h
      obtain ⟨new, ho, hnew, hrm₁, htakes⟩ := ReadModel.upsertItem_eq_some hupsert
      obtain ⟨row, hrow⟩ := Option.isSome_iff_exists.mp (Finmap.lookup_isSome.mpr ho)
      have hrow₁ : (rm₁.view e.aggregateId).row = some row := by
        rw [hrm₁, ReadModel.view_putItem_self]
        exact hrow
      have hindexed : (rm.view e.aggregateId).items item.productId = none → e.Indexed := by
        rw [Event.Indexed, hp]
        exact htakes
      obtain ⟨row', hset, rfl⟩ := ReadModel.updateOrder_of_row hrow₁ hupdate
      simp only [Option.bind_eq_some_iff, Option.pure_def, Option.some.injEq,
        Numeric.ofCents_eq_some] at hset
      obtain ⟨total, htotal, rfl⟩ := hset
      refine .addItem hp hnew hrm₁ hindexed hrow ?_ htotal
      rw [OrderState.apply, hp, OrderRow.state, hv]
      rfl
  | orderConfirmed _ | orderDelivered | orderCancelled _ _ =>
      simp only [hp, Option.bind_eq_bind, Option.bind_eq_some_iff, Int4.ofInt_eq_some] at h
      obtain ⟨v, hv, hupdate⟩ := h
      refine update_projection hupdate (by simp [hp]) (by rw [hp]; rfl) (fun row => ?_)
        fun row => rfl
      rw [OrderState.apply, hp, OrderRow.state, hv]
      rfl
  | orderPaymentProcessed p | orderShipped p =>
      simp only [hp, Option.bind_eq_bind, Option.bind_eq_some_iff, Int4.ofInt_eq_some,
        Text.ofString_eq_some] at h
      obtain ⟨id, hid, v, hv, hupdate⟩ := h
      refine update_projection hupdate (by simp [hp]) (by rw [hp]; rfl) (fun row => ?_)
        fun row => rfl
      rw [OrderState.apply, hp, OrderRow.state, hv, Option.map_some, hid]
      rfl

/-- The projection leaves the other orders alone. -/
lemma project_frame (h : projectToPostgres rm e = some rm') {o : String} (ho : o ≠ e.aggregateId) :
    rm'.view o = rm.view o := by
  cases project_cases h with
  | again | noRow => rfl
  | create | update => exact ReadModel.view_putOrder_of_ne ho
  | addItem _ _ hrm₁ =>
      rw [ReadModel.view_putOrder_of_ne ho, hrm₁, ReadModel.view_putItem_of_ne ho]

/-- The effect on an order that has a row. -/
lemma project_row (h : projectToPostgres rm e = some rm') {row : OrderRow}
    (hrow : (rm.view e.aggregateId).row = some row) :
    ∃ row', (rm'.view e.aggregateId).row = some row' ∧ row'.state = row.state.apply e ∧
      row'.totalAmount.cents =
        if e.payload.item?.isSome then rm'.sumLineTotal e.aggregateId else row.totalAmount.cents := by
  have hmem : e.aggregateId ∈ rm.orders := Finmap.mem_of_lookup_eq_some hrow
  cases project_cases h with
  | again hp =>
      refine ⟨row, hrow, ?_, ?_⟩
      · rw [OrderState.apply, hp]
      · rw [hp]
        rfl
  | create _ hnew => exact absurd hmem hnew
  | noRow _ _ hnew => exact absurd hmem hnew
  | @addItem item _ r row' _ _ hp _ _ _ hr hstate htotal =>
      rw [hrow, Option.some.injEq] at hr
      subst hr
      refine ⟨row', by rw [ReadModel.view_putOrder_self], hstate, ?_⟩
      rw [hp, htotal]
      rfl
  | @update r row' _ hi hr hstate htotal =>
      rw [hrow, Option.some.injEq] at hr
      subst hr
      refine ⟨row', by rw [ReadModel.view_putOrder_self], hstate, ?_⟩
      rw [hi, htotal]
      rfl

/-- The effect of `ORDER_CREATED` on an order that has no row. -/
lemma project_created (h : projectToPostgres rm e = some rm') (hnew : e.aggregateId ∉ rm.orders)
    {c : Created} (hc : e.payload = .orderCreated c) :
    ∃ row, (rm'.view e.aggregateId).row = some row ∧
      row.state = .created c e.aggregateVersion ∧ row.totalAmount.cents = 0 := by
  cases project_cases h with
  | @create c' row hc' _ hstate htotal _ =>
      obtain rfl : c = c' := Payload.orderCreated.inj (hc.symm.trans hc')
      exact ⟨row, by rw [ReadModel.view_putOrder_self], hstate, htotal⟩
  | again _ ho => exact absurd ho hnew
  | addItem hp | update hp | noRow hp => simp_all

/-- The effect of the other events on an order that has no row: none. -/
lemma project_absent (h : projectToPostgres rm e = some rm') (hnew : e.aggregateId ∉ rm.orders)
    (hc : ∀ c, e.payload ≠ .orderCreated c) : rm' = rm ∧ e.payload.item? = none := by
  cases project_cases h with
  | noRow _ hi => exact ⟨rfl, hi⟩
  | again hp | create hp => exact absurd hp (hc _)
  | @addItem _ _ _ _ _ ho => exact absurd ho hnew
  | update _ _ hrow => exact absurd (Finmap.mem_of_lookup_eq_some hrow) hnew

/-- The effect on the item rows. -/
lemma project_item (h : projectToPostgres rm e = some rm') (p : String) :
    (rm'.view e.aggregateId).items p = (e.itemRow? p).elim ((rm.view e.aggregateId).items p)
      fun new => some (((rm.view e.aggregateId).items p).elim new (·.merge new)) := by
  cases project_cases h with
  | again hp | create hp =>
      simp [Event.itemRow?, hp, Payload.item?]
  | update _ hi | noRow _ hi => simp [Event.itemRow?, hi]
  | @addItem item new _ _ _ _ hp hnew hrm₁ =>
      rw [ReadModel.view_putOrder_self, hrm₁, ReadModel.view_putItem_self, Event.itemRow?, hp,
        Payload.item?, Option.bind_some]
      by_cases hpid : item.productId = p
      · subst hpid
        simp [hnew]
      · simp [hpid, Function.update_of_ne (Ne.symm hpid)]

/-- The total of every row is the sum of the order's lines. -/
def ReadModel.Totalled (rm : ReadModel) (o : String) : Prop :=
  ∀ row, (rm.view o).row = some row → row.totalAmount.cents = rm.sumLineTotal o

omit [Btree] in
/-- An order without a row has no lines to sum. -/
lemma ReadModel.sumLineTotal_eq_zero {o : String} (h : o ∉ rm.orders) : rm.sumLineTotal o = 0 := by
  rw [sumLineTotal_eq ∅ fun p hp => absurd (lookup_item_eq_none h) hp]
  rfl

/-- The projection keeps the totals in step with the items. -/
lemma project_totalled (h : projectToPostgres rm e = some rm')
    (ht : rm.Totalled e.aggregateId) : rm'.Totalled e.aggregateId := by
  intro row' hrow'
  have hsum : e.payload.item? = none →
      rm'.sumLineTotal e.aggregateId = rm.sumLineTotal e.aggregateId := fun hi =>
    ReadModel.sumLineTotal_congr (funext fun p => by simp [project_item h p, Event.itemRow?, hi])
  by_cases hmem : e.aggregateId ∈ rm.orders
  · obtain ⟨row, hrow⟩ := Option.isSome_iff_exists.mp (Finmap.lookup_isSome.mpr hmem)
    obtain ⟨r, hr, _, htotal⟩ := project_row h hrow
    rw [hr, Option.some.injEq] at hrow'
    subst hrow'
    rw [htotal]
    split_ifs with hi
    · rfl
    · rw [hsum (by simpa using hi), ht row hrow]
  · by_cases hc : ∃ c, e.payload = .orderCreated c
    · obtain ⟨c, hc⟩ := hc
      obtain ⟨r, hr, _, htotal⟩ := project_created h hmem hc
      rw [hr, Option.some.injEq] at hrow'
      subst hrow'
      rw [htotal, hsum (by rw [hc]; rfl), ReadModel.sumLineTotal_eq_zero hmem]
    · push Not at hc
      obtain ⟨rfl, _⟩ := project_absent h hmem hc
      exact absurd (Finmap.mem_of_lookup_eq_some hrow') hmem

/-! ### When a projection succeeds -/

/-- The values of a payload pass the checks of their columns. -/
def Payload.Fits : Payload → Prop
  | .orderCreated c => (Text.ofString c.customerId).isSome ∧ (Text.ofString c.customerEmail).isSome
  | .orderItemAdded item => (Text.ofString item.productId).isSome ∧ (ItemRow.ofItem item).isSome
  | .orderPaymentProcessed p => (Text.ofString p.paymentId).isSome
  | .orderShipped p => (Text.ofString p.trackingId).isSome
  | .orderConfirmed _ | .orderDelivered | .orderCancelled _ _ => True

instance : (payload : Payload) → Decidable payload.Fits
  | .orderCreated _ | .orderItemAdded _ => inferInstanceAs (Decidable (_ ∧ _))
  | .orderPaymentProcessed p => inferInstanceAs (Decidable ((Text.ofString p.paymentId).isSome = true))
  | .orderShipped p => inferInstanceAs (Decidable ((Text.ofString p.trackingId).isSome = true))
  | .orderConfirmed _ | .orderDelivered | .orderCancelled _ _ => .isTrue trivial

/-- The values of an event pass the checks of their columns. -/
structure Event.Fits (e : Event) : Prop where
  aggregateId : (Text.ofString e.aggregateId).isSome
  aggregateVersion : (Int4.ofInt e.aggregateVersion).isSome
  payload : e.payload.Fits

omit [Btree] in
lemma Event.fits_iff {e : Event} : e.Fits ↔ (Text.ofString e.aggregateId).isSome ∧
    (Int4.ofInt e.aggregateVersion).isSome ∧ e.payload.Fits :=
  ⟨fun h => ⟨h.aggregateId, h.aggregateVersion, h.payload⟩, fun h => ⟨h.1, h.2.1, h.2.2⟩⟩

instance (e : Event) : Decidable e.Fits := decidable_of_iff _ Event.fits_iff.symm

omit [Btree] in
lemma ReadModel.updateOrder_isSome {o : String} {set : OrderRow → Option OrderRow} :
    (rm.updateOrder o set).isSome ↔ (Text.ofString o).isSome ∧
      ∀ row, (rm.view o).row = some row → (set row).isSome := by
  simp only [updateOrder, view]
  cases Text.ofString o with
  | none => simp
  | some t =>
      cases rm.orders.lookup o with
      | none => simp
      | some row =>
          simp only [Option.bind_eq_bind, Option.bind_some, Option.some.injEq, forall_eq']
          cases set row <;> simp

lemma ReadModel.insertOrder_isSome {o customerId customerEmail : String} {version : ℤ} :
    (rm.insertOrder o customerId customerEmail version).isSome ↔ (Text.ofString o).isSome ∧
      (Text.ofString customerId).isSome ∧ (Text.ofString customerEmail).isSome ∧
        (Int4.ofInt version).isSome ∧
          (o ∉ rm.orders → Btree.takes [o] ∧ Btree.takes [customerId]) := by
  rw [insertOrder]
  cases Text.ofString o with
  | none => simp
  | some t =>
      cases hcustomer : Text.ofString customerId with
      | none => simp
      | some c =>
          rw [Text.ofString_eq_some] at hcustomer
          cases Text.ofString customerEmail <;> cases Int4.ofInt version <;>
            by_cases ho : o ∈ rm.orders <;> simp [ho, hcustomer]

lemma ReadModel.upsertItem_isSome {o : String} {item : OrderItem} :
    (rm.upsertItem o item).isSome ↔ (Text.ofString o).isSome ∧
      (Payload.orderItemAdded item).Fits ∧ o ∈ rm.orders ∧
        ((rm.view o).items item.productId = none → Btree.takes [o, item.productId]) := by
  have hview : (rm.view o).items item.productId = rm.orderItems.lookup (o, item.productId) := rfl
  rw [upsertItem, Payload.Fits, hview]
  cases Text.ofString o <;> cases Text.ofString item.productId <;>
    cases ItemRow.ofItem item <;> by_cases ho : o ∈ rm.orders <;>
      cases rm.orderItems.lookup (o, item.productId) <;> simp [ho]

/-- **When a projection succeeds**: the values fit, the indexes take the keys of a new row, an added
item has its order, and the total it leads to is in range. -/
theorem project_isSome : (projectToPostgres rm e).isSome ↔ e.Fits ∧
    (∀ c, e.payload = .orderCreated c → e.aggregateId ∉ rm.orders → e.Indexed) ∧
    ∀ item, e.payload = .orderItemAdded item → ∃ rm₁, rm.upsertItem e.aggregateId item = some rm₁ ∧
      |rm₁.sumLineTotal e.aggregateId| < 10 ^ 12 := by
  rw [Event.fits_iff, projectToPostgres]
  cases hp : e.payload with
  | orderCreated c =>
      simp only [ReadModel.insertOrder_isSome, Payload.Fits, Payload.orderCreated.injEq, forall_eq',
        reduceCtorEq, false_implies, implies_true, and_true, Event.Indexed, hp, Payload.Indexed]
      tauto
  | orderItemAdded item =>
      simp only [Payload.orderItemAdded.injEq, forall_eq', Option.bind_eq_bind]
      cases hupsert : rm.upsertItem e.aggregateId item with
      | none => simp
      | some rm₁ =>
          obtain ⟨new, ho, hnew, hrm₁, _⟩ := ReadModel.upsertItem_eq_some hupsert
          have hok := ReadModel.upsertItem_isSome.mp (Option.isSome_iff_exists.mpr ⟨rm₁, hupsert⟩)
          obtain ⟨row, hrow⟩ := Option.isSome_iff_exists.mp (Finmap.lookup_isSome.mpr ho)
          have hrow₁ : (rm₁.view e.aggregateId).row = some row := by
            rw [hrm₁, ReadModel.view_putItem_self]
            exact hrow
          cases Int4.ofInt e.aggregateVersion with
          | none => simp
          | some v =>
              simp [ReadModel.updateOrder_isSome, hrow₁, hok.1, hok.2.1, Option.isSome_bind]
  | orderConfirmed _ | orderDelivered | orderCancelled _ _ =>
      cases Int4.ofInt e.aggregateVersion <;> simp [ReadModel.updateOrder_isSome, Payload.Fits]
  | orderPaymentProcessed p =>
      simp only [Payload.Fits]
      cases Int4.ofInt e.aggregateVersion <;> cases Text.ofString p.paymentId <;>
        simp [ReadModel.updateOrder_isSome]
  | orderShipped p =>
      simp only [Payload.Fits]
      cases Int4.ofInt e.aggregateVersion <;> cases Text.ofString p.trackingId <;>
        simp [ReadModel.updateOrder_isSome]

/-! ### Locality and idempotence -/

omit [Btree] in
lemma OrderState.apply_apply (st : OrderState) (e : Event) : (st.apply e).apply e = st.apply e := by
  simp only [OrderState.apply]
  cases e.payload <;> rfl

omit [Btree] in
lemma ItemRow.merge_self (r : ItemRow) : r.merge r = r := rfl

omit [Btree] in
lemma ItemRow.merge_merge (r s t : ItemRow) : (r.merge s).merge t = r.merge t := rfl

/-- The upsert does the same to two tables that show the same order. -/
lemma upsertItem_congr {rm₂ rm₁ : ReadModel} {o : String} {item : OrderItem}
    (hv : rm.view o = rm₂.view o) (h : rm.upsertItem o item = some rm₁) :
    ∃ rm₃, rm₂.upsertItem o item = some rm₃ ∧ rm₁.sumLineTotal o = rm₃.sumLineTotal o := by
  obtain ⟨new, ho, hnew, rfl, _⟩ := ReadModel.upsertItem_eq_some h
  have hok := ReadModel.upsertItem_isSome.mp (Option.isSome_iff_exists.mpr ⟨_, h⟩)
  obtain ⟨rm₃, hrm₃⟩ := Option.isSome_iff_exists.mp (ReadModel.upsertItem_isSome.mpr
    ⟨hok.1, hok.2.1, (ReadModel.mem_orders_congr hv).mp ho, hv ▸ hok.2.2.2⟩)
  obtain ⟨new', _, hnew', rfl, _⟩ := ReadModel.upsertItem_eq_some hrm₃
  obtain rfl : new = new' := Option.some.inj (hnew.symm.trans hnew')
  refine ⟨_, hrm₃, ReadModel.sumLineTotal_congr ?_⟩
  rw [ReadModel.view_putItem_self, ReadModel.view_putItem_self, hv]

/-- Two tables that show the order of the event alike do so after its projection. -/
lemma project_congr {rm₂ : ReadModel} (hv : rm.view e.aggregateId = rm₂.view e.aggregateId)
    (h : projectToPostgres rm e = some rm') :
    ∃ rm₂', projectToPostgres rm₂ e = some rm₂' ∧
      rm'.view e.aggregateId = rm₂'.view e.aggregateId := by
  obtain ⟨hfits, hkeys, htotal⟩ := project_isSome.mp (Option.isSome_iff_exists.mpr ⟨rm', h⟩)
  have hsome : (projectToPostgres rm₂ e).isSome := by
    refine project_isSome.mpr ⟨hfits, fun c hc hnew => hkeys c hc ?_, fun item hitem => ?_⟩
    · exact fun hmem => hnew ((ReadModel.mem_orders_congr hv).mp hmem)
    obtain ⟨rm₁, hrm₁, hlt⟩ := htotal item hitem
    obtain ⟨rm₃, hrm₃, hsum⟩ := upsertItem_congr hv hrm₁
    exact ⟨rm₃, hrm₃, hsum ▸ hlt⟩
  obtain ⟨rm₂', h₂⟩ := Option.isSome_iff_exists.mp hsome
  have hitems : (rm'.view e.aggregateId).items = (rm₂'.view e.aggregateId).items :=
    funext fun p => by rw [project_item h, project_item h₂, hv]
  refine ⟨rm₂', h₂, OrderView.ext ?_ hitems⟩
  by_cases hmem : e.aggregateId ∈ rm.orders
  · obtain ⟨row, hrow⟩ := Option.isSome_iff_exists.mp (Finmap.lookup_isSome.mpr hmem)
    obtain ⟨r, hr, hstate, ht⟩ := project_row h hrow
    obtain ⟨r₂, hr₂, hstate₂, ht₂⟩ := project_row h₂ ((congrArg OrderView.row hv).symm.trans hrow)
    rw [hr, hr₂, OrderRow.ext_state (hstate.trans hstate₂.symm)]
    rw [ht, ht₂, ReadModel.sumLineTotal_congr hitems]
  · have hmem₂ := (ReadModel.mem_orders_congr hv).not.mp hmem
    by_cases hc : ∃ c, e.payload = .orderCreated c
    · obtain ⟨c, hc⟩ := hc
      obtain ⟨r, hr, hstate, ht⟩ := project_created h hmem hc
      obtain ⟨r₂, hr₂, hstate₂, ht₂⟩ := project_created h₂ hmem₂ hc
      rw [hr, hr₂, OrderRow.ext_state (hstate.trans hstate₂.symm) (ht.trans ht₂.symm)]
    · push Not at hc
      obtain ⟨rfl, _⟩ := project_absent h hmem hc
      obtain ⟨rfl, _⟩ := project_absent h₂ hmem₂ hc
      exact congrArg OrderView.row hv

/-- **The projection is local to the order of its event.** -/
theorem projection_local : Keyed.Local projectToPostgres Event.aggregateId ReadModel.view where
  frame := fun h ho => project_frame h ho
  here := by
    intro rm rm₂ e hv
    cases h : projectToPostgres rm e with
    | some rm' =>
        obtain ⟨rm₂', h₂, hview⟩ := project_congr hv h
        rw [h₂, Option.map_some, Option.map_some, hview]
    | none =>
        cases h₂ : projectToPostgres rm₂ e with
        | none => rfl
        | some rm₂' =>
            obtain ⟨rm', h', _⟩ := project_congr hv.symm h₂
            rw [h] at h'
            simp at h'
  ext := ReadModel.ext_view

/-- Rows stay. -/
lemma project_mem (h : projectToPostgres rm e = some rm') {o : String} (ho : o ∈ rm.orders) :
    o ∈ rm'.orders := by
  by_cases heq : o = e.aggregateId
  · subst heq
    obtain ⟨row, hrow⟩ := Option.isSome_iff_exists.mp (Finmap.lookup_isSome.mpr ho)
    obtain ⟨r, hr, _⟩ := project_row h hrow
    exact Finmap.mem_of_lookup_eq_some hr
  · exact (ReadModel.mem_orders_congr (project_frame h heq)).mpr ho

/-- `ORDER_CREATED` leaves a row. -/
lemma project_created_mem (h : projectToPostgres rm e = some rm') {c : Created}
    (hc : e.payload = .orderCreated c) : e.aggregateId ∈ rm'.orders := by
  by_cases ho : e.aggregateId ∈ rm.orders
  · exact project_mem h ho
  · obtain ⟨row, hrow, _⟩ := project_created h ho hc
    exact Finmap.mem_of_lookup_eq_some hrow

/-- Writing an item again changes no item row. -/
lemma project_item_again (h : projectToPostgres rm e = some rm') {p : String} {new : ItemRow}
    (hp : e.itemRow? p = some new) : (rm'.view e.aggregateId).items p =
      some (((rm'.view e.aggregateId).items p).elim new (·.merge new)) := by
  rw [project_item h p, hp]
  cases (rm.view e.aggregateId).items p <;> rfl

/-- The row a projection leaves behind already shows the event. -/
lemma project_row_again (h : projectToPostgres rm e = some rm') {row : OrderRow}
    (hrow : (rm'.view e.aggregateId).row = some row) : row.state.apply e = row.state ∧
      (e.payload.item?.isSome → row.totalAmount.cents = rm'.sumLineTotal e.aggregateId) := by
  by_cases hmem : e.aggregateId ∈ rm.orders
  · obtain ⟨old, hold⟩ := Option.isSome_iff_exists.mp (Finmap.lookup_isSome.mpr hmem)
    obtain ⟨r, hr, hstate, ht⟩ := project_row h hold
    obtain rfl : r = row := Option.some.inj (hr.symm.trans hrow)
    refine ⟨by rw [hstate, OrderState.apply_apply], fun hi => ?_⟩
    rw [ht, if_pos hi]
  · by_cases hc : ∃ c, e.payload = .orderCreated c
    · obtain ⟨c, hc⟩ := hc
      refine ⟨by rw [OrderState.apply, hc], fun hi => ?_⟩
      rw [hc] at hi
      simp [Payload.item?] at hi
    · push Not at hc
      obtain ⟨rfl, _⟩ := project_absent h hmem hc
      exact absurd (Finmap.mem_of_lookup_eq_some hrow) hmem

/-- **An event projected twice in a row is projected once.** -/
theorem project_idem (h : projectToPostgres rm e = some rm') :
    projectToPostgres rm' e = some rm' := by
  obtain ⟨hfits, _, htotal⟩ := project_isSome.mp (Option.isSome_iff_exists.mpr ⟨rm', h⟩)
  have hsame : ∀ {rm'' : ReadModel}, projectToPostgres rm' e = some rm'' →
      (rm''.view e.aggregateId).items = (rm'.view e.aggregateId).items := by
    intro rm'' h'
    funext p
    rw [project_item h' p]
    cases hp : e.itemRow? p with
    | none => rfl
    | some new => exact (project_item_again h hp).symm
  have hsome : (projectToPostgres rm' e).isSome := by
    refine project_isSome.mpr ⟨hfits, fun c hc hnew => ?_, fun item hitem => ?_⟩
    · exact absurd (project_created_mem h hc) hnew
    obtain ⟨rm₁, hupsert, _⟩ := htotal item hitem
    obtain ⟨new, ho, hnew, _, _⟩ := ReadModel.upsertItem_eq_some hupsert
    obtain ⟨old, hold⟩ := Option.isSome_iff_exists.mp (Finmap.lookup_isSome.mpr ho)
    obtain ⟨row, hrow, _⟩ := project_row h hold
    have hok := ReadModel.upsertItem_isSome.mp (Option.isSome_iff_exists.mpr ⟨_, hupsert⟩)
    have hwrite : e.itemRow? item.productId = some new := by
      rw [Event.itemRow?, hitem, Payload.item?, Option.bind_some, if_pos rfl, hnew]
    obtain ⟨rm₂, hrm₂⟩ := Option.isSome_iff_exists.mp (ReadModel.upsertItem_isSome.mpr
      ⟨hok.1, hok.2.1, Finmap.mem_of_lookup_eq_some hrow, fun hnone => by
        rw [project_item_again h hwrite] at hnone
        cases hnone⟩)
    -- the sum is the total that the row already holds
    have hsum : rm₂.sumLineTotal e.aggregateId = row.totalAmount.cents := by
      obtain ⟨new', _, hnew', rfl, _⟩ := ReadModel.upsertItem_eq_some hrm₂
      obtain rfl : new = new' := Option.some.inj (hnew.symm.trans hnew')
      rw [(project_row_again h hrow).2 (by rw [hitem]; rfl)]
      refine ReadModel.sumLineTotal_congr ?_
      rw [ReadModel.view_putItem_self]
      rw [← project_item_again h hwrite, Function.update_eq_self]
    exact ⟨rm₂, hrm₂, hsum ▸ row.totalAmount.fits⟩
  obtain ⟨rm'', h'⟩ := Option.isSome_iff_exists.mp hsome
  suffices heq : rm'' = rm' from heq ▸ h'
  refine ReadModel.ext_view fun o => ?_
  by_cases ho : o = e.aggregateId
  · subst ho
    refine OrderView.ext ?_ (hsame h')
    cases hrow : (rm'.view e.aggregateId).row with
    | some row =>
        obtain ⟨hstate, htot⟩ := project_row_again h hrow
        obtain ⟨r, hr, hstate', htot'⟩ := project_row h' hrow
        rw [hr, OrderRow.ext_state (hstate'.trans hstate)]
        rw [htot']
        split_ifs with hi
        · rw [htot hi, ReadModel.sumLineTotal_congr (hsame h')]
        · rfl
    | none =>
        have hmem : e.aggregateId ∉ rm'.orders := Finmap.lookup_eq_none.mp hrow
        by_cases hc : ∃ c, e.payload = .orderCreated c
        · obtain ⟨c, hc⟩ := hc
          exact absurd (project_created_mem h hc) hmem
        · push Not at hc
          obtain ⟨rfl, _⟩ := project_absent h' hmem hc
          exact hrow
  · exact project_frame h' ho

end Effect

end OrderCqrs
