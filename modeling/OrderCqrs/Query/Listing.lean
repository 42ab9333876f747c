import OrderCqrs.Logic.Paging
import OrderCqrs.Projection.Replay
import OrderCqrs.Query.Stats

/-!
The listing of the orders (`list_orders` in `api/routers/query_router.py`), read page by page while
the consumer goes on.

* `DatedModel`: the tables with the column `created_at`, which `NOW()` sets when a row is inserted.
* `DatedModel.step`: a transaction of the projection, later than the one before it.
* `DatedInv`: the dates are different and passed; `dates_kept`: a row keeps its date and its
  customer.
* `ListOrders`, `ListOrders.Answer`: the parameters of a request, and what the query may answer.
* `walk_misses_nothing`: **pages that are read while orders are created list every order that was
  there at the first page**, as long as no status is asked for.
* `walk_exact`: **pages of unchanged tables list every order once**, and as many as `get_stats`
  counts.
-/

namespace OrderCqrs

open Runs Paging Rows

/-! ### The tables with their dates -/

/-- The tables, `created_at` of every row of `orders`, and the time of the last transaction. -/
structure DatedModel where
  tables : ReadModel
  createdAt : String → ℕ
  now : ℕ

namespace DatedModel

/-- Empty tables. -/
def init : DatedModel where
  tables := .empty
  createdAt := fun _ => 0
  now := 0

/-- A transaction at a later time, which dates the row that it inserts. -/
def step [Btree] (s : DatedModel) (a : ℕ × Event) : Option DatedModel := do
  guard (s.now < a.1)
  let tables ← projectToPostgres s.tables a.2
  let inserts := a.2.eventType = .orderCreated ∧ a.2.aggregateId ∉ s.tables.orders
  return {
    tables
    createdAt := if inserts then Function.update s.createdAt a.2.aggregateId a.1 else s.createdAt
    now := a.1 }

end DatedModel

section Dated

variable {s t : DatedModel} {a : ℕ × Event} {o : String}

lemma DatedModel.step_cases [Btree] (h : s.step a = some t) :
    s.now < a.1 ∧ t.now = a.1 ∧ projectToPostgres s.tables a.2 = some t.tables ∧
      t.createdAt = if a.2.eventType = .orderCreated ∧ a.2.aggregateId ∉ s.tables.orders
        then Function.update s.createdAt a.2.aggregateId a.1 else s.createdAt := by
  simp only [step, Option.bind_eq_bind, Option.bind_eq_some_iff, Option.guard_eq_some'] at h
  obtain ⟨_, hnow, tables, htables, h⟩ := h
  obtain rfl := Option.some.inj h
  exact ⟨hnow, rfl, htables, rfl⟩

/-- **The dates of the rows are passed, and different.** -/
structure DatedInv (s : DatedModel) : Prop where
  passed : ∀ o ∈ s.tables.orders, s.createdAt o ≤ s.now
  injective : ∀ o ∈ s.tables.orders, ∀ o' ∈ s.tables.orders, s.createdAt o = s.createdAt o' → o = o'

/-- A row that is new has just been inserted. -/
lemma DatedModel.mem_cases [Btree] (h : s.step a = some t) (ho : o ∈ t.tables.orders) :
    o ∈ s.tables.orders ∧ t.createdAt o = s.createdAt o ∨
      o = a.2.aggregateId ∧ o ∉ s.tables.orders ∧ t.createdAt o = a.1 := by
  obtain ⟨_, _, hproject, hdates⟩ := step_cases h
  by_cases hold : o ∈ s.tables.orders
  · refine Or.inl ⟨hold, ?_⟩
    rw [hdates]
    split_ifs with hinserts
    · refine Function.update_of_ne ?_ _ _
      rintro rfl
      exact hinserts.2 hold
    · rfl
  · have heq : o = a.2.aggregateId := by
      by_contra hne
      exact hold ((ReadModel.mem_orders_congr (project_frame hproject hne)).mp ho)
    subst heq
    refine Or.inr ⟨rfl, hold, ?_⟩
    have hcreated : a.2.eventType = .orderCreated := by
      by_contra hne
      have hc : ∀ c, a.2.payload ≠ .orderCreated c := by
        intro c hc
        exact hne (by rw [Event.eventType, hc]; rfl)
      obtain ⟨htables, _⟩ := project_absent hproject hold hc
      exact hold (htables ▸ ho)
    rw [hdates, if_pos ⟨hcreated, hold⟩, Function.update_self]

lemma datedInv_init : DatedInv .init where
  passed := fun _ ho => absurd ho Finmap.notMem_empty
  injective := fun _ ho => absurd ho Finmap.notMem_empty

/-- **A transaction keeps the dates different.** -/
lemma datedInv_step [Btree] (hs : DatedInv s) (h : s.step a = some t) : DatedInv t := by
  obtain ⟨hlater, hnow, _, _⟩ := DatedModel.step_cases h
  have hold : ∀ {o}, o ∈ s.tables.orders → s.createdAt o < a.1 := fun ho =>
    (hs.passed _ ho).trans_lt hlater
  refine ⟨fun o ho => ?_, fun o ho o' ho' heq => ?_⟩
  · rw [hnow]
    rcases DatedModel.mem_cases h ho with ⟨hmem, hdate⟩ | ⟨_, _, hdate⟩
    · exact hdate ▸ (hold hmem).le
    · exact hdate.le
  · rcases DatedModel.mem_cases h ho with ⟨hmem, hdate⟩ | ⟨hid, _, hdate⟩
    · rcases DatedModel.mem_cases h ho' with ⟨hmem', hdate'⟩ | ⟨_, _, hdate'⟩
      · exact hs.injective o hmem o' hmem' (by rw [← hdate, ← hdate', heq])
      · have hlt := hold hmem
        omega
    · rcases DatedModel.mem_cases h ho' with ⟨hmem', hdate'⟩ | ⟨hid', _, _⟩
      · have hlt := hold hmem'
        omega
      · exact hid.trans hid'.symm

/-- A row keeps its date and its customer. -/
lemma dates_kept [Btree] (h : s.step a = some t) {row : OrderRow}
    (hrow : s.tables.orders.lookup o = some row) : t.createdAt o = s.createdAt o ∧
      ∃ row', t.tables.orders.lookup o = some row' ∧ row'.customerId = row.customerId := by
  obtain ⟨_, _, hproject, _⟩ := DatedModel.step_cases h
  have hmem : o ∈ s.tables.orders := Finmap.mem_of_lookup_eq_some hrow
  refine ⟨?_, ?_⟩
  · rcases DatedModel.mem_cases h (project_mem hproject hmem) with ⟨_, hdate⟩ | ⟨_, hnew, _⟩
    · exact hdate
    · exact absurd hmem hnew
  · by_cases ho : o = a.2.aggregateId
    · subst ho
      obtain ⟨row', hrow', hstate, _⟩ := project_row hproject hrow
      refine ⟨row', hrow', Text.ext ?_⟩
      have hcustomer := (foldl_apply_customer row.state [a.2]).1
      rw [List.foldl_cons, List.foldl_nil, ← hstate] at hcustomer
      exact hcustomer
    · have hframe := congrArg OrderView.row (project_frame hproject ho)
      exact ⟨row, hframe.trans hrow, rfl⟩

/-- Along a run, too. -/
lemma dates_kept_run [Btree] {as : List (ℕ × Event)} (h : run DatedModel.step s as = some t)
    {row : OrderRow} (hrow : s.tables.orders.lookup o = some row) :
    t.createdAt o = s.createdAt o ∧
      ∃ row', t.tables.orders.lookup o = some row' ∧ row'.customerId = row.customerId := by
  induction as generalizing s row with
  | nil =>
      obtain rfl := Option.some.inj h
      exact ⟨rfl, row, hrow, rfl⟩
  | cons a as ih =>
      obtain ⟨u, hu, h⟩ := (run_cons_eq_some _).mp h
      obtain ⟨hdate, row₁, hrow₁, hcustomer₁⟩ := dates_kept hu hrow
      obtain ⟨hdates, row₂, hrow₂, hcustomer₂⟩ := ih h hrow₁
      exact ⟨hdates.trans hdate, row₂, hrow₂, hcustomer₂.trans hcustomer₁⟩

end Dated

/-! ### Requests -/

/-- The parameters of `list_orders`. -/
structure ListOrders where
  status : Option String
  customerId : Option String
  limit : ℤ
  offset : ℤ

namespace ListOrders

/-- A filter that is given and not empty. -/
def given (filter : Option String) : Option String := filter.filter (· ≠ "")

/-- The condition of the query.  `upper` is `str.upper`. -/
def Matches (upper : String → String) (q : ListOrders) (row : OrderRow) : Prop :=
  (∀ status ∈ given q.status, row.status.val = upper status) ∧
    ∀ customerId ∈ given q.customerId, row.customerId.val = customerId

/-- The orders of the query, the latest first; which of two orders of one date comes first is left
to Postgres. -/
structure Ordered (upper : String → String) (q : ListOrders) (s : DatedModel)
    (orders : List String) : Prop where
  nodup : orders.Nodup
  mem : ∀ o, o ∈ orders ↔ ∃ row, s.tables.orders.lookup o = some row ∧ q.Matches upper row
  sorted : orders.Pairwise fun o o' => s.createdAt o' ≤ s.createdAt o

/-- **What the query may answer**: a page of the orders.  It raises on a parameter that Postgres
refuses: a text with a character of code 0, a negative limit or offset, or one that is no
`BIGINT`. -/
structure Answer (upper : String → String) (q : ListOrders) (s : DatedModel)
    (answer : List (String × OrderView)) : Prop where
  status : ∀ status ∈ given q.status, (Text.ofString (upper status)).isSome
  customerId : ∀ customerId ∈ given q.customerId, (Text.ofString customerId).isSome
  limit : 0 ≤ q.limit ∧ q.limit < 2 ^ 63
  offset : 0 ≤ q.offset ∧ q.offset < 2 ^ 63
  rows : ∃ orders, q.Ordered upper s orders ∧ answer =
    ((orders.drop q.offset.toNat).take q.limit.toNat).map fun o => (o, s.tables.view o)

/-- The request for a page of the orders. -/
def nth (q : ListOrders) (limit i : ℕ) : ListOrders :=
  { q with limit := limit, offset := (i * limit : ℕ) }

end ListOrders

section Walk

variable {upper : String → String} {q : ListOrders} {s : DatedModel} {orders orders' : List String}
  {answer : List (String × OrderView)} {limit i : ℕ}

/-- With different dates the order is strict. -/
lemma ListOrders.Ordered.strict (h : q.Ordered upper s orders) (hs : DatedInv s) :
    orders.Pairwise fun o o' => s.createdAt o' < s.createdAt o := by
  refine (h.sorted.and h.nodup).imp_of_mem fun ho ho' hboth => ?_
  obtain ⟨row, hrow, _⟩ := (h.mem _).mp ho
  obtain ⟨row', hrow', _⟩ := (h.mem _).mp ho'
  refine lt_of_le_of_ne hboth.1 fun heq => hboth.2 ?_
  exact (hs.injective _ (Finmap.mem_of_lookup_eq_some hrow') _
    (Finmap.mem_of_lookup_eq_some hrow) heq).symm

/-- The answer for a page is the page. -/
lemma answer_nth (h : (q.nth limit i).Answer upper s answer) :
    ∃ orders, q.Ordered upper s orders ∧
      answer = (page limit i orders).map fun o => (o, s.tables.view o) := by
  obtain ⟨orders, hordered, heq⟩ := h.rows
  refine ⟨orders, ⟨hordered.nodup, hordered.mem, hordered.sorted⟩, ?_⟩
  rw [heq, page, ListOrders.nth, Int.toNat_natCast, Int.toNat_natCast]

/-- What a request without a status matches, it goes on to match, at the same date. -/
lemma ListOrders.Matches.run [Btree] {t : DatedModel} {bs : List (ℕ × Event)} {o : String}
    {row : OrderRow}
    (hmatches : q.Matches upper row) (hstatus : ListOrders.given q.status = none)
    (hrun : run DatedModel.step s bs = some t) (hrow : s.tables.orders.lookup o = some row) :
    t.createdAt o = s.createdAt o ∧
      ∃ row', t.tables.orders.lookup o = some row' ∧ q.Matches upper row' := by
  obtain ⟨hdate, row', hrow', hcustomer⟩ := dates_kept_run hrun hrow
  refine ⟨hdate, row', hrow', fun status hgiven => ?_, fun customerId hgiven => ?_⟩
  · rw [hstatus] at hgiven
    exact absurd hgiven (Option.not_mem_none status)
  · rw [hcustomer]
    exact hmatches.2 customerId hgiven

/-- The place of an order does not fall while events are projected. -/
lemma ListOrders.Ordered.place_le [Btree] {t : DatedModel} {bs : List (ℕ × Event)} {o : String}
    {k k' : ℕ}
    (h : q.Ordered upper s orders) (h' : q.Ordered upper t orders') (hs : DatedInv s)
    (ht : DatedInv t) (hstatus : ListOrders.given q.status = none)
    (hrun : run DatedModel.step s bs = some t) (hk : orders[k]? = some o)
    (hk' : orders'[k']? = some o) : k ≤ k' := by
  have hsub : orders ⊆ orders' := by
    intro o' ho'
    obtain ⟨row, hrow, hmatches⟩ := (h.mem o').mp ho'
    exact (h'.mem o').mpr (hmatches.run hstatus hrun hrow).2
  have hsorted : orders.Pairwise fun a b => t.createdAt b < t.createdAt a := by
    refine (h.strict hs).imp_of_mem fun ha hb hlt => ?_
    obtain ⟨_, hrowa, hmatchesa⟩ := (h.mem _).mp ha
    obtain ⟨_, hrowb, hmatchesb⟩ := (h.mem _).mp hb
    rw [(hmatchesa.run hstatus hrun hrowa).1, (hmatchesb.run hstatus hrun hrowb).1]
    exact hlt
  exact Paging.place_le hsorted (h'.strict ht) hsub hk hk'

end Walk

/-- **A walk over the pages misses no order.**  The pages of a request without a status are read one
after the other up to an empty one, and the consumer projects any events between them, each at a
later `NOW()` than those before it: every order that the request matches at the first page is on one
of them. -/
theorem walk_misses_nothing [Btree] {upper : String → String} {q : ListOrders} {limit m : ℕ}
    {as : List (ℕ × Event)} {states : ℕ → DatedModel} {answers : ℕ → List (String × OrderView)}
    (hlimit : 0 < limit) (hstatus : ListOrders.given q.status = none)
    (hstart : run DatedModel.step .init as = some (states 0))
    (hnext : ∀ i < m, ∃ bs, run DatedModel.step (states i) bs = some (states (i + 1)))
    (hanswers : ∀ i ≤ m, (q.nth limit i).Answer upper (states i) (answers i))
    (hend : answers m = []) {o : String} {row : OrderRow}
    (hrow : (states 0).tables.orders.lookup o = some row) (hmatches : q.Matches upper row) :
    ∃ i < m, ∃ view, (o, view) ∈ answers i := by
  have hinv : ∀ i ≤ m, DatedInv (states i) := by
    intro i
    induction i with
    | zero => exact fun _ => run_preserves (fun hs h => datedInv_step hs h) datedInv_init hstart
    | succ i ih =>
        intro hi
        obtain ⟨bs, hbs⟩ := hnext i hi
        exact run_preserves (fun hs h => datedInv_step hs h) (ih (Nat.le_of_succ_le hi)) hbs
  have hshown : ∀ i ≤ m, ∃ row, (states i).tables.orders.lookup o = some row ∧
      q.Matches upper row := by
    intro i
    induction i with
    | zero => exact fun _ => ⟨row, hrow, hmatches⟩
    | succ i ih =>
        intro hi
        obtain ⟨row, hrow, hmatches⟩ := ih (Nat.le_of_succ_le hi)
        obtain ⟨bs, hbs⟩ := hnext i hi
        exact (hmatches.run hstatus hbs hrow).2
  choose! orders hordered hpages using fun i (hi : i ≤ m) => answer_nth (hanswers i hi)
  have hmem : ∀ i ≤ m, o ∈ orders i := fun i hi => ((hordered i hi).mem o).mpr (hshown i hi)
  choose! place hplace using fun i (hi : i ≤ m) => List.mem_iff_getElem?.mp (hmem i hi)
  have hmono : ∀ i < m, place i ≤ place (i + 1) := by
    intro i hi
    have hle : i ≤ m := Nat.le_of_lt hi
    obtain ⟨bs, hbs⟩ := hnext i hi
    exact (hordered i hle).place_le (hordered (i + 1) hi) (hinv i hle) (hinv (i + 1) hi) hstatus
      hbs (hplace i hle) (hplace (i + 1) hi)
  have hempty : page limit m (orders m) = [] := by
    have heq := hpages m le_rfl
    rw [hend] at heq
    exact List.map_eq_nil_iff.mp heq.symm
  obtain ⟨i, hi, hpage⟩ := exists_page hlimit hplace hmono hempty
  refine ⟨i, hi, (states i).tables.view o, ?_⟩
  rw [hpages i (Nat.le_of_lt hi)]
  exact List.mem_map_of_mem hpage

/-- The tables after one order, and after two. -/
def listedModel [Btree] : ℕ → DatedModel
  | 0 => (DatedModel.step .init
      (1, orderCreatedEvent (.nth 0) "order-0" "cust-1" "a@test.com")).getD .init
  | _ + 1 => ((DatedModel.step .init
      (1, orderCreatedEvent (.nth 0) "order-0" "cust-1" "a@test.com")).bind fun s =>
        s.step (2, orderCreatedEvent (.nth 1) "order-1" "cust-2" "b@test.com")).getD .init

lemma listedModel_start : run DatedModel.step .init
    [(1, orderCreatedEvent (.nth 0) "order-0" "cust-1" "a@test.com")] = some (listedModel 0) := rfl

lemma listedModel_next : run DatedModel.step (listedModel 0)
    [(2, orderCreatedEvent (.nth 1) "order-1" "cust-2" "b@test.com")] = some (listedModel 1) := rfl

/-- A request for all orders. -/
def allOrders : ListOrders where
  status := none
  customerId := none
  limit := 20
  offset := 0

/-- The orders of a table with known keys, if they are sorted. -/
lemma answer_allOrders {s : DatedModel} (orders : List String)
    (hkeys : s.tables.orders.keys = orders.toFinset) (hnodup : orders.Nodup)
    (hsorted : orders.Pairwise fun o o' => s.createdAt o' ≤ s.createdAt o) {limit i : ℕ}
    (hlimit : limit < 2 ^ 63) (hoffset : i * limit < 2 ^ 63) :
    (allOrders.nth limit i).Answer id s
      ((page limit i orders).map fun o => (o, s.tables.view o)) where
  status := by simp [ListOrders.nth, allOrders, ListOrders.given]
  customerId := by simp [ListOrders.nth, allOrders, ListOrders.given]
  limit := by
    show (0 : ℤ) ≤ (limit : ℤ) ∧ (limit : ℤ) < 2 ^ 63
    omega
  offset := by
    show (0 : ℤ) ≤ ((i * limit : ℕ) : ℤ) ∧ ((i * limit : ℕ) : ℤ) < 2 ^ 63
    generalize i * limit = offset at hoffset
    omega
  rows := by
    refine ⟨orders, ⟨hnodup, fun o => ?_, hsorted⟩, ?_⟩
    · rw [← List.mem_toFinset, ← hkeys, Finmap.mem_keys, ← Finmap.lookup_isSome,
        Option.isSome_iff_exists]
      simp [ListOrders.Matches, ListOrders.nth, allOrders, ListOrders.given]
    · rw [page, ListOrders.nth, Int.toNat_natCast, Int.toNat_natCast]

/-- What the two tables list. -/
def listedOrders : ℕ → List String
  | 0 => ["order-0"]
  | _ + 1 => ["order-1", "order-0"]

/-- An order is created between the two pages, of one order each. -/
theorem listedModel_walk : ∃ i < 2, ∃ view, ("order-0", view) ∈
    (page 1 i (listedOrders i)).map fun o => (o, (listedModel i).tables.view o) := by
  have hanswers : ∀ i ≤ 2, (allOrders.nth 1 i).Answer id (listedModel i)
      ((page 1 i (listedOrders i)).map fun o => (o, (listedModel i).tables.view o)) := by
    intro i hi
    refine answer_allOrders _ ?_ ?_ ?_ (by norm_num) (by omega) <;>
      interval_cases i <;> decide +kernel
  have hnext : ∀ i < 2, ∃ bs,
      run DatedModel.step (listedModel i) bs = some (listedModel (i + 1)) := by
    intro i hi
    interval_cases i
    · exact ⟨_, listedModel_next⟩
    · exact ⟨[], rfl⟩
  obtain ⟨row, hrow⟩ : ∃ row, (listedModel 0).tables.orders.lookup "order-0" = some row :=
    Option.isSome_iff_exists.mp (by decide +kernel)
  exact walk_misses_nothing Nat.one_pos rfl listedModel_start hnext hanswers rfl hrow
    (by simp [ListOrders.Matches, allOrders, ListOrders.given])

/-- As many orders as rows that match. -/
lemma ListOrders.Ordered.length_eq {upper : String → String} {q : ListOrders} {s : DatedModel}
    {orders : List String} (h : q.Ordered upper s orders) (matching : OrderRow → Prop)
    [DecidablePred matching] (hmatching : ∀ row, q.Matches upper row ↔ matching row) :
    orders.length = ((rows s.tables.orders).filter fun r => matching r.2).card := by
  rw [← List.toFinset_card_of_nodup h.nodup]
  refine (card_filter_rows fun o => ?_).symm
  rw [List.mem_toFinset, h.mem o]
  exact exists_congr fun row => and_congr_right fun _ => hmatching row

/-- **The pages of unchanged tables list every order once**, where no two rows have the same
`created_at`, and together as many as `get_stats` counts: of a status, if one is asked for, and
otherwise all of them. -/
theorem walk_exact [Btree] {upper : String → String} {q : ListOrders} {limit m : ℕ}
    {as : List (ℕ × Event)} {s : DatedModel} {answers : ℕ → List (String × OrderView)}
    (hlimit : 0 < limit) (hrun : run DatedModel.step .init as = some s)
    (hanswers : ∀ i ≤ m, (q.nth limit i).Answer upper s (answers i)) (hend : answers m = []) :
    let listed := (List.range m).flatMap answers
    (listed.map Prod.fst).Nodup ∧
      (∀ o view, (o, view) ∈ listed ↔ view = s.tables.view o ∧
        ∃ row, s.tables.orders.lookup o = some row ∧ q.Matches upper row) ∧
      (ListOrders.given q.customerId = none →
        (∀ status, ListOrders.given q.status = some status →
          listed.length = s.tables.countStatus (upper status)) ∧
        (ListOrders.given q.status = none →
          listed.length = (getStats s.tables).totalOrders)) := by
  have hs : DatedInv s := run_preserves (fun hs h => datedInv_step hs h) datedInv_init hrun
  obtain ⟨orders, hordered, hlast⟩ := answer_nth (hanswers m le_rfl)
  -- the order is determined by the dates, so that all pages are of one list
  have hpages : ∀ i ≤ m, answers i = (page limit i orders).map fun o => (o, s.tables.view o) := by
    intro i hi
    obtain ⟨orders', hordered', heq⟩ := answer_nth (hanswers i hi)
    rw [heq, Paging.eq_of_pairwise (hordered'.strict hs) (hordered.strict hs) fun o =>
      (hordered'.mem o).trans (hordered.mem o).symm]
  have hlisted : (List.range m).flatMap answers = orders.map fun o => (o, s.tables.view o) := by
    have hlength : orders.length ≤ m * limit := by
      rw [hend] at hlast
      exact (page_eq_nil hlimit).mp (List.map_eq_nil_iff.mp hlast.symm)
    calc (List.range m).flatMap answers
        = (List.range m).flatMap fun i =>
            (page limit i orders).map fun o => (o, s.tables.view o) :=
          List.flatMap_congr fun i hi => hpages i (List.mem_range.mp hi).le
      _ = ((List.range m).flatMap fun i => page limit i orders).map fun o =>
            (o, s.tables.view o) := List.map_flatMap.symm
      _ = orders.map fun o => (o, s.tables.view o) := by
          rw [flatMap_page, List.take_of_length_le hlength]
  intro listed
  have heq : listed = orders.map fun o => (o, s.tables.view o) := hlisted
  rw [heq]
  refine ⟨?_, fun o view => ?_, fun hcustomer => ⟨fun status hstatus => ?_, fun hstatus => ?_⟩⟩
  · rw [List.map_map]
    exact (List.map_id orders).symm ▸ hordered.nodup
  · rw [List.mem_map, ← hordered.mem o]
    constructor
    · rintro ⟨o', ho', hpair⟩
      obtain ⟨rfl, rfl⟩ := Prod.mk.inj hpair
      exact ⟨rfl, ho'⟩
    · rintro ⟨rfl, ho⟩
      exact ⟨o, ho, rfl⟩
  · rw [List.length_map, ReadModel.countStatus, ReadModel.withStatus]
    exact hordered.length_eq (fun row => row.status.val = upper status) fun row => by
      simp [ListOrders.Matches, hstatus, hcustomer]
  · have hall := hordered.length_eq (fun _ => True) fun row => by
      simp [ListOrders.Matches, hstatus, hcustomer]
    rw [Finset.filter_true] at hall
    rw [List.length_map, hall]
    rfl

theorem listedModel_listed :
    ((List.range 2).flatMap fun i =>
      (page 1 i (listedOrders 1)).map fun o => (o, (listedModel 1).tables.view o)).length =
        (getStats (listedModel 1).tables).totalOrders := by
  have hanswers : ∀ i ≤ 2, (allOrders.nth 1 i).Answer id (listedModel 1)
      ((page 1 i (listedOrders 1)).map fun o => (o, (listedModel 1).tables.view o)) :=
    fun i hi => answer_allOrders _ (by decide +kernel) (by decide) (by decide +kernel) (by norm_num)
      (by omega)
  have hrun : run DatedModel.step .init
      [(1, orderCreatedEvent (.nth 0) "order-0" "cust-1" "a@test.com"),
        (2, orderCreatedEvent (.nth 1) "order-1" "cust-2" "b@test.com")] = some (listedModel 1) :=
    rfl
  exact ((walk_exact Nat.one_pos hrun hanswers rfl).2.2 rfl).2 rfl

end OrderCqrs
