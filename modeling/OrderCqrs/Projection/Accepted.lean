import OrderCqrs.Command.Idempotency
import OrderCqrs.Command.Lifecycle
import OrderCqrs.Projection.Money
import OrderCqrs.Projection.Replay

/-!
The items the API accepts against the items the read model can take.

* `ItemsRequested`, `added_by`: what `add_item` builds is what its request says.
* `otherLines`: the sum of the last lines of the other products; `runningTotal_concat_item` is the
  total after one more addition.
* `Storable`: the request and the total it leads to fit their columns, and the index of the items
  takes its key.
* `project_item_isSome_iff`: after the earlier events of an order an addition is projected exactly
  if its values and the new total fit and the index takes its key.
* `accepted_projected_iff`: **when an accepted item can be projected**: precisely if it is storable,
  which its schema does not ensure.
* `accepted_overflow`: an accepted quantity that no `INTEGER` holds.
-/

namespace OrderCqrs

open Runs

/-! ### What `add_item` builds -/

/-- What the handlers of `add_item` have built adds the items of their requests. -/
def ItemsRequested (s : State) : Prop :=
  ∀ h ∈ s.handlers, ∀ o req b, h.command = .addItem o req → h.pc.built = some b →
    ∃ st v, b.event = orderItemAddedEvent st o v req.productId req.productName req.quantity
      req.unitPrice

lemma itemsRequested_step {s t : State} {a : Action} (hs : ItemsRequested s)
    (hstep : step s a = some t) : ItemsRequested t := by
  intro h' hh' o req b hcmd hb
  rcases mem_handlers_cases hstep hh' with
    hold | hstart | ⟨i, oc, d, h, sh, pc, rfl, hget, hawait, _, rfl⟩
  · exact hs h' hold o req b hcmd hb
  · simp [hstart, Pc.built] at hb
  · replace hcmd : h.command = .addItem o req := hcmd
    rcases await_built hawait hb with hb | ⟨_, _, hb⟩ | ⟨_, _, _, _, hpay, _⟩
    · exact hs h (List.mem_of_getElem? hget) o req b hcmd hb
    · rw [hcmd] at hb
      cases hb with
      | addItem => exact ⟨_, _, rfl⟩
    · rw [hcmd] at hpay
      simp at hpay

/-- **An `add_item` handler adds the item of its request.** -/
theorem added_by {s : State} {as : List Action} (hrun : run step State.init as = some s)
    {h : Handler} (hh : h ∈ s.handlers) {o : String} {req : AddItemRequest} {b : Built}
    (hcmd : h.command = .addItem o req) (hb : h.pc.built = some b) :
    ∃ st v, b.event = orderItemAddedEvent st o v req.productId req.productName req.quantity
      req.unitPrice := by
  have hall : ItemsRequested s := run_preserves (fun hs hstep => itemsRequested_step hs hstep)
    (by simp [ItemsRequested, State.init]) hrun
  exact hall h hh o req b hcmd hb

/-! ### The total after one more addition -/

/-- The sum of the last lines of the other products. -/
def otherLines (evs : List Event) (p : String) : ℤ :=
  ∑ q ∈ (productIds evs).toFinset.erase p, lastLine evs q

section Total

variable {evs : List Event} {e : Event} {item : OrderItem}

lemma additions_concat (he : e.payload = .orderItemAdded item) :
    additions (evs ++ [e]) = additions evs ++ [item] := by
  simp [additions, he, Payload.item?]

lemma lastLine_concat_self (he : e.payload = .orderItemAdded item) :
    lastLine (evs ++ [e]) item.productId = cents item.lineTotal := by
  simp [lastLine, additions_concat he, List.filter_append]

lemma lastLine_concat_of_ne (he : e.payload = .orderItemAdded item) {p : String}
    (hp : p ≠ item.productId) : lastLine (evs ++ [e]) p = lastLine evs p := by
  simp [lastLine, additions_concat he, List.filter_append, Ne.symm hp]

/-- **The total after an addition**: its line replaces that of its product. -/
lemma runningTotal_concat_item (hfits : ∀ e' ∈ evs ++ [e], e'.Fits)
    (he : e.payload = .orderItemAdded item) :
    runningTotal (evs ++ [e]) = otherLines evs item.productId + cents item.lineTotal := by
  have hproducts : (productIds (evs ++ [e])).toFinset =
      insert item.productId ((productIds evs).toFinset.erase item.productId) := by
    ext p
    rw [productIds_eq, productIds_eq, additions_concat he, List.mem_toFinset, Finset.mem_insert,
      Finset.mem_erase, List.mem_toFinset, List.map_append, List.mem_append, List.map_singleton,
      List.mem_singleton]
    tauto
  rw [runningTotal_eq hfits, lastLines, hproducts, Finset.sum_insert (Finset.notMem_erase _ _),
    lastLine_concat_self he, add_comm, otherLines]
  congr 1
  exact Finset.sum_congr rfl fun p hp => lastLine_concat_of_ne he (Finset.ne_of_mem_erase hp)

end Total

/-! ### When an addition is projected -/

/-- **The request fits the columns** of the item it becomes, its line being the product of floats, and
so do the version of its event and the total of the order, after the earlier events of the order;
and the index of the items takes the key. -/
structure Storable [Btree] (o : String) (req : AddItemRequest) (earlier : List Event) : Prop where
  productId : Char.ofNat 0 ∉ req.productId.toList
  productName : Char.ofNat 0 ∉ req.productName.toList
  quantity : req.quantity < 2 ^ 31
  unitPrice : cents req.unitPrice < 10 ^ 10
  lineTotal : |cents (FloatArith.mul req.quantity req.unitPrice)| < 10 ^ 12
  version : (earlier.length : ℤ) + 1 < 2 ^ 31
  key : Btree.takes [o, req.productId]
  total : |otherLines earlier req.productId +
    cents (FloatArith.mul req.quantity req.unitPrice)| < 10 ^ 12

section Projected

variable [Btree] {rm₀ rm : ReadModel} {o : String} {evs : List Event} {e : Event} {item : OrderItem}

omit [Btree] in
/-- When the values of an item are a row. -/
lemma ItemRow.ofItem_isSome : (ItemRow.ofItem item).isSome ↔
    Char.ofNat 0 ∉ item.productName.toList ∧ (-2 ^ 31 ≤ item.quantity ∧ item.quantity < 2 ^ 31) ∧
      |cents item.unitPrice| < 10 ^ 10 ∧ |cents item.lineTotal| < 10 ^ 12 := by
  rw [← Text.ofString_isSome, ← Int4.ofInt_isSome, ← Numeric.ofCents_isSome,
    ← Numeric.ofCents_isSome, ItemRow.ofItem, Numeric.ofRat, Numeric.ofRat]
  cases Text.ofString item.productName <;> cases Int4.ofInt item.quantity <;>
    cases Numeric.ofCents 10 (cents item.unitPrice) <;>
      cases Numeric.ofCents 12 (cents item.lineTotal) <;> simp

/-- After the earlier events of its order, an addition is projected exactly if its values and the
new total fit and the index takes its key, which it has done if the product is not new. -/
lemma project_item_isSome_iff (hnew : o ∉ rm₀.orders) (hevs : OrderEvents o evs)
    (hrun : run projectToPostgres rm₀ evs = some rm) (ho : e.aggregateId = o)
    (he : e.payload = .orderItemAdded item) : (projectToPostgres rm e).isSome ↔
      e.Fits ∧ e.Indexed ∧ |otherLines evs item.productId + cents item.lineTotal| < 10 ^ 12 := by
  have hall : ∀ e' ∈ evs ++ [e], e'.aggregateId = o := by
    intro e' he'
    rw [List.mem_append, List.mem_singleton] at he'
    exact he'.elim (hevs.order e') fun heq => heq ▸ ho
  have hfits : e.Fits → ∀ e' ∈ evs ++ [e], e'.Fits := by
    intro hfit e' he'
    rw [List.mem_append, List.mem_singleton] at he'
    exact he'.elim (run_fits hrun e') fun heq => heq ▸ hfit
  -- the row is there since the creation
  have hmem : o ∈ rm.orders := by
    obtain ⟨row, hrow, _⟩ := Option.map_eq_some_iff.mp
      ((run_orderState hnew hevs.order hrun).trans (replay_state hevs).symm)
    exact Finmap.mem_of_lookup_eq_some hrow
  constructor
  · intro hsome
    have hfit : e.Fits := (project_isSome.mp hsome).1
    obtain ⟨rm', h⟩ := Option.isSome_iff_exists.mp hsome
    have hrun' : run projectToPostgres rm₀ (evs ++ [e]) = some rm' :=
      (run_concat_eq_some _).mpr ⟨rm, hrun, h⟩
    have hindexed := (run_itemsIndexed hall (itemsIndexed_of_notMem hnew) hrun').2 e
      (List.mem_append_right _ (List.mem_singleton_self _)) (by rw [he]; rfl)
    refine ⟨hfit, hindexed, ?_⟩
    obtain ⟨row, hrow⟩ := Option.isSome_iff_exists.mp
      (Finmap.lookup_isSome.mpr (project_mem h hmem))
    have htotal := run_totalled hall (totalled_of_notMem hnew) hrun' row hrow
    rw [run_total hnew hall hrun', runningTotal_concat_item (hfits hfit) he] at htotal
    rw [← htotal]
    exact row.totalAmount.fits
  · rintro ⟨hfit, hindexed, htotal⟩
    rw [← runningTotal_concat_item (hfits hfit) he] at htotal
    exact run_concat_isSome hnew hall hrun hfit (fun _ => hindexed) (fun _ => hmem) htotal

end Projected

/-! ### Accepted items -/

section Accepted

variable {rm₀ rm₁ rm : ReadModel} {s : State} {as : List Action} {h : Handler} {o : String}
  {req : AddItemRequest} {b : Built} {earlier later : List Event}

/-- **When an accepted item can be projected**: in every state the command handlers can reach, the
event an `add_item` has stored is projected, after the earlier events of its order, precisely if its
request is storable. -/
theorem accepted_projected_iff [Btree] (hrun : run step State.init as = some s)
    (hh : h ∈ s.handlers)
    (hcmd : h.command = .addItem o req) (hb : h.pc.built = some b)
    (hstored : orderLog s.store o = earlier ++ b.event :: later) (hnew : o ∉ rm₀.orders)
    (hproj : run projectToPostgres rm₀ earlier = some rm₁) (hview : rm.view o = rm₁.view o) :
    (projectToPostgres rm b.event).isSome ↔ Storable o req earlier := by
  obtain ⟨st, v, hevent⟩ := added_by hrun hh hcmd hb
  have hlegal : LegalLog o (earlier ++ b.event :: later) := by
    have hlog := (writeInv_run hrun).legal o
    rw [hstored] at hlog
    exact hlog.resolve_left (by simp)
  have hposition : (earlier ++ b.event :: later)[earlier.length]? = some b.event := by simp
  have hversion : b.event.aggregateVersion = (earlier.length : ℤ) + 1 :=
    hlegal.version_getElem? hposition
  -- an addition is not the first event of its order
  have hpos : 0 < earlier.length := by
    rw [List.length_pos_iff]
    rintro rfl
    obtain ⟨e, c, es, hcons, hc, _⟩ := hlegal.exists_cons
    rw [List.nil_append, List.cons.injEq] at hcons
    rw [← hcons.1, hevent] at hc
    simp [orderItemAddedEvent, Stamp.event] at hc
  have hearlier : OrderEvents o earlier := by
    have htake := hlegal.take hpos
    rw [List.take_left] at htake
    exact htake.orderEvents
  have hsame : (projectToPostgres rm b.event).isSome = (projectToPostgres rm₁ b.event).isSome := by
    have hlocal := projection_local.here (a := b.event)
      (show rm.view b.event.aggregateId = rm₁.view b.event.aggregateId by
        rw [hevent]
        exact hview)
    rw [← Option.isSome_map, hlocal, Option.isSome_map]
  -- the order's id is that of its creation, which was projected
  have hid : (Text.ofString o).isSome := by
    obtain ⟨e, c, es, rfl, _⟩ := hearlier.opening
    have hfit := (run_fits hproj e List.mem_cons_self).aggregateId
    rwa [hearlier.order e List.mem_cons_self] at hfit
  have hprice : 0 ≤ cents req.unitPrice := cents_nonneg (le_of_lt req.unitPrice_pos)
  have hquantity := req.quantity_pos
  rw [hsame, project_item_isSome_iff hnew hearlier hproj (by rw [hevent]; rfl)
    (by rw [hevent]; rfl), Event.fits_iff, Event.Indexed, hversion, hevent]
  simp only [orderItemAddedEvent, Stamp.event, Payload.Fits, Payload.Indexed,
    ItemRow.ofItem_isSome, Text.ofString_isSome, Int4.ofInt_isSome, abs_of_nonneg hprice]
  rw [Text.ofString_isSome] at hid
  constructor
  · rintro ⟨⟨_, ⟨_, hv⟩, hp, hname, ⟨_, hq⟩, hu, hl⟩, hkey, htotal⟩
    exact ⟨hp, hname, hq, hu, hl, hv, hkey, htotal⟩
  · intro hstorable
    exact ⟨⟨hid, ⟨by omega, hstorable.version⟩, hstorable.productId, hstorable.productName,
      ⟨by omega, hstorable.quantity⟩, hstorable.unitPrice, hstorable.lineTotal⟩, hstorable.key,
      hstorable.total⟩

end Accepted

/-! ### An order with one item -/

deriving instance DecidableEq for CreateOrderRequest, AddItemRequest, ProcessPaymentRequest,
  ShipOrderRequest, CancelOrderRequest, Command, Handler

/-- A request for one piece of a product and some more. -/
def pieces (more : ℕ) : AddItemRequest where
  productId := "prod-1"
  productName := "Polish"
  quantity := more + 1
  unitPrice := 1
  quantity_pos := by omega
  unitPrice_pos := by norm_num

/-- An order is created and some pieces of a product are added, both answered. -/
def itemSchedule (more : ℕ) : List Action :=
  .request (.createOrder ⟨"cust-1", "a@test.com", "key-1"⟩) :: returns 0 0 6 ++
    .request (.addItem "order-0" (pieces more)) :: returns 1 6 5

/-- The event the order starts with. -/
def itemCreated : Event := orderCreatedEvent (.nth 0) "order-0" "cust-1" "a@test.com"

/-- The event that adds the pieces. -/
def itemAdded (more : ℕ) : Event :=
  orderItemAddedEvent (.nth 6) "order-0" 2 "prod-1" "Polish" (more + 1) 1

/-- What the handler of `add_item` has built at its end. -/
def itemBuilt (more : ℕ) : Built := ⟨some (replay "order-0" [itemCreated]), itemAdded more⟩

/-- The handler of `add_item` at its end. -/
def itemHandler (more : ℕ) : Handler where
  command := .addItem "order-0" (pieces more)
  pc := .done (some (itemBuilt more))
    ((Command.addItem "order-0" (pieces more)).respond (itemAdded more))

theorem accepted_pieces : ∃ s rm, run step State.init (itemSchedule 2) = some s ∧
    run projectToPostgres .empty [itemCreated] = some rm ∧
    ((projectToPostgres rm (itemAdded 2)).isSome ↔
      Storable "order-0" (pieces 2) [itemCreated]) := by
  obtain ⟨s, hrun, hhandler, hlog⟩ := exists_run_of_eval
    (by decide +kernel : ((run step State.init (itemSchedule 2)).any fun s =>
      decide (s.handlers[1]? = some (itemHandler 2) ∧
        orderLog s.store "order-0" = [itemCreated, itemAdded 2])) = true)
  obtain ⟨rm, hproj⟩ := Option.isSome_iff_exists.mp
    (by decide +kernel : (run projectToPostgres .empty [itemCreated]).isSome)
  exact ⟨s, rm, hrun, hproj, accepted_projected_iff (b := itemBuilt 2) hrun
    (List.mem_of_getElem? hhandler) rfl rfl hlog Finmap.notMem_empty hproj rfl⟩

/-- **An accepted quantity that no `INTEGER` holds**: the request is answered, its event is stored
and sent, and after the creation of the order it cannot be projected. -/
theorem accepted_overflow : ∃ s rm,
    run step State.init (itemSchedule (2 ^ 31 - 1)) = some s ∧
      itemHandler (2 ^ 31 - 1) ∈ s.handlers ∧
      orderLog s.store "order-0" = [itemCreated, itemAdded (2 ^ 31 - 1)] ∧
      s.topic.map (·.value) = [itemCreated, itemAdded (2 ^ 31 - 1)] ∧
      run projectToPostgres .empty [itemCreated] = some rm ∧
      projectToPostgres rm (itemAdded (2 ^ 31 - 1)) = none := by
  obtain ⟨s, hrun, hhandler, hlog, htopic⟩ := exists_run_of_eval
    (by decide +kernel : ((run step State.init (itemSchedule (2 ^ 31 - 1))).any fun s =>
      decide (s.handlers[1]? = some (itemHandler (2 ^ 31 - 1)) ∧
        orderLog s.store "order-0" = [itemCreated, itemAdded (2 ^ 31 - 1)] ∧
        s.topic.map (·.value) = [itemCreated, itemAdded (2 ^ 31 - 1)])) = true)
  obtain ⟨rm, hproj, hnone⟩ := exists_run_of_eval
    (by decide +kernel : ((run projectToPostgres .empty [itemCreated]).any fun rm =>
      decide (projectToPostgres rm (itemAdded (2 ^ 31 - 1)) = none)) = true)
  exact ⟨s, rm, hrun, List.mem_of_getElem? hhandler, hlog, htopic, hproj, hnone⟩

end OrderCqrs
