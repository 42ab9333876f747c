import Mathlib.Algebra.BigOperators.Group.Finset.Basic
import Mathlib.Data.Finmap
import OrderCqrs.Domain.Events
import OrderCqrs.Projection.Columns

/-!
The Postgres read model (`infra/postgres_init.sql`) and the projection of an event into it
(`project_to_postgres` in `consumers/main.py`).

* `OrderRow`, `ItemRow`: the rows, without the timestamps and the serial id.
* `ReadModel`: the two tables, each keyed by its unique key; `foreignKey` says that every item row
  references an order row.
* `insertOrder`, `upsertItem`, `updateOrder`: the statements.
* `projectToPostgres`: one transaction.  `none` is the error that ends it: a parameter its column
  refuses, a new row that an index refuses, a total out of range, or an item without its order.
-/

namespace OrderCqrs

/-! ### The tables -/

/-- A row of `orders`, without its key. -/
@[ext] structure OrderRow where
  customerId : Text
  customerEmail : Text
  status : Text
  totalAmount : Numeric 12
  version : Int4
  paymentId : Option Text
  trackingId : Option Text
  deriving DecidableEq

/-- A row of `order_items`, without its key. -/
@[ext] structure ItemRow where
  productName : Text
  quantity : Int4
  unitPrice : Numeric 10
  lineTotal : Numeric 12
  deriving DecidableEq

/-- The tables `orders`, keyed by `order_id`, and `order_items`, keyed by
`(order_id, product_id)`. -/
structure ReadModel where
  orders : Finmap fun _ : String => OrderRow
  orderItems : Finmap fun _ : String × String => ItemRow
  /-- `order_items.order_id REFERENCES orders`. -/
  foreignKey : ∀ k ∈ orderItems, k.1 ∈ orders
  deriving DecidableEq

/-- The values of an added item, as the columns of `order_items` take them. -/
def ItemRow.ofItem (item : OrderItem) : Option ItemRow := do
  let productName ← Text.ofString item.productName
  let quantity ← Int4.ofInt item.quantity
  let unitPrice ← Numeric.ofRat 10 item.unitPrice
  let lineTotal ← Numeric.ofRat 12 item.lineTotal
  return { productName, quantity, unitPrice, lineTotal }

/-- `ON CONFLICT DO UPDATE SET quantity = EXCLUDED.quantity, line_total = EXCLUDED.line_total`. -/
def ItemRow.merge (old new : ItemRow) : ItemRow :=
  { old with quantity := new.quantity, lineTotal := new.lineTotal }

namespace ReadModel

/-- Empty tables. -/
def empty : ReadModel where
  orders := ∅
  orderItems := ∅
  foreignKey := fun _ hk => absurd hk Finmap.notMem_empty

/-! ### The statements -/

/-- `SELECT COALESCE(SUM(line_total), 0) FROM order_items WHERE order_id = $1`, in cents. -/
def sumLineTotal (rm : ReadModel) (orderId : String) : ℤ :=
  ∑ k ∈ rm.orderItems.keys.filter (·.1 = orderId),
    (rm.orderItems.lookup k).elim 0 (·.lineTotal.cents)

/-- A row put under its key. -/
def putOrder (rm : ReadModel) (orderId : String) (row : OrderRow) : ReadModel where
  orders := rm.orders.insert orderId row
  orderItems := rm.orderItems
  foreignKey := fun k hk => Finmap.mem_insert.mpr (Or.inr (rm.foreignKey k hk))

/-- An item row put under its key; its order is there. -/
def putItem (rm : ReadModel) (orderId productId : String) (row : ItemRow)
    (horder : orderId ∈ rm.orders) : ReadModel where
  orders := rm.orders
  orderItems := rm.orderItems.insert (orderId, productId) row
  foreignKey := by
    intro k hk
    rcases Finmap.mem_insert.mp hk with rfl | hk
    · exact horder
    · exact rm.foreignKey k hk

/-- `INSERT INTO orders … ON CONFLICT (order_id) DO NOTHING`.  A new row goes into the indexes of
`order_id` and `customer_id`; the other indexes of `orders` are of short values. -/
def insertOrder [Btree] (rm : ReadModel) (orderId customerId customerEmail : String) (version : ℤ) :
    Option ReadModel := do
  let _ ← Text.ofString orderId
  let customerId ← Text.ofString customerId
  let customerEmail ← Text.ofString customerEmail
  let version ← Int4.ofInt version
  if orderId ∈ rm.orders then
    return rm
  else if Btree.takes [orderId] && Btree.takes [customerId.val] then
    return rm.putOrder orderId
      { customerId
        customerEmail
        status := ⟨"PENDING", by decide⟩
        totalAmount := ⟨0, by norm_num⟩
        version
        paymentId := none
        trackingId := none }
  else
    none

/-- `INSERT INTO order_items … ON CONFLICT (order_id, product_id) DO UPDATE …`.  An item that is
updated has its order by `foreignKey`, so that the reference is checked once for both.  A new row
goes into the index of its key; the one of `order_id` alone has taken this id with the order. -/
def upsertItem [Btree] (rm : ReadModel) (orderId : String) (item : OrderItem) :
    Option ReadModel := do
  let _ ← Text.ofString orderId
  let _ ← Text.ofString item.productId
  let new ← ItemRow.ofItem item
  if horder : orderId ∈ rm.orders then
    match rm.orderItems.lookup (orderId, item.productId) with
    | some old => return rm.putItem orderId item.productId (old.merge new) horder
    | none =>
        if Btree.takes [orderId, item.productId] then
          return rm.putItem orderId item.productId new horder
        else
          none
  else
    none

/-- `UPDATE orders SET … WHERE order_id = $1`; no row is no error. -/
def updateOrder (rm : ReadModel) (orderId : String) (set : OrderRow → Option OrderRow) :
    Option ReadModel := do
  let _ ← Text.ofString orderId
  match rm.orders.lookup orderId with
  | none => return rm
  | some row =>
      let row ← set row
      return rm.putOrder orderId row

end ReadModel

/-! ### The projection -/

/-- `project_to_postgres`: one attempt, which is one transaction. -/
def projectToPostgres [Btree] (rm : ReadModel) (event : Event) : Option ReadModel :=
  let oid := event.aggregateId
  match event.payload with
  | .orderCreated c =>
      rm.insertOrder oid c.customerId c.customerEmail event.aggregateVersion
  | .orderItemAdded item => do
      let rm ← rm.upsertItem oid item
      let version ← Int4.ofInt event.aggregateVersion
      rm.updateOrder oid fun row => do
        let totalAmount ← Numeric.ofCents 12 (rm.sumLineTotal oid)
        return { row with totalAmount, version }
  | .orderConfirmed _ => do
      let version ← Int4.ofInt event.aggregateVersion
      rm.updateOrder oid fun row => return { row with status := ⟨"CONFIRMED", by decide⟩, version }
  | .orderPaymentProcessed p => do
      let paymentId ← Text.ofString p.paymentId
      let version ← Int4.ofInt event.aggregateVersion
      rm.updateOrder oid fun row =>
        return { row with status := ⟨"PAID", by decide⟩, paymentId := some paymentId, version }
  | .orderShipped p => do
      let trackingId ← Text.ofString p.trackingId
      let version ← Int4.ofInt event.aggregateVersion
      rm.updateOrder oid fun row =>
        return { row with status := ⟨"SHIPPED", by decide⟩, trackingId := some trackingId, version }
  | .orderDelivered => do
      let version ← Int4.ofInt event.aggregateVersion
      rm.updateOrder oid fun row => return { row with status := ⟨"DELIVERED", by decide⟩, version }
  | .orderCancelled _ _ => do
      let version ← Int4.ofInt event.aggregateVersion
      rm.updateOrder oid fun row => return { row with status := ⟨"CANCELLED", by decide⟩, version }

end OrderCqrs
