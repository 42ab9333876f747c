import OrderCqrs.Logic.LastWriter
import OrderCqrs.Projection.Effects

/-!
What projecting a whole list of events of one order leaves in the tables: a last-writer image of the
list.

* `OrderState.step`, `orderState`: the columns of the row; what comes before `ORDER_CREATED` is
  lost.
* `itemImage`: the item row of a product, and `itemImage_eq`: name and unit price of the first
  addition, quantity and line total of the last.
* `runningTotal`: the sum of the lines a list of events leaves.
* `run_state`, `run_item`, `run_total`: the tables show this image; `run_eq_iff` compares two runs
  by their images.
* `run_isSome`: a run goes through when the values and the running totals fit their columns and the
  indexes take the keys; `run_itemsIndexed`: they have taken those of a run that went through.
-/

namespace OrderCqrs

open Runs LastWriter

/-! ### The image of a list of events -/

/-- What an event does to an order that may not exist yet. -/
def OrderState.step : Option OrderState → Event → Option OrderState
  | none, e =>
      match e.payload with
      | .orderCreated c => some (.created c e.aggregateVersion)
      | _ => none
  | some st, e => some (st.apply e)

/-- The columns a list of events leaves in the row of its order. -/
def orderState (evs : List Event) : Option OrderState := evs.foldl OrderState.step none

/-- What an event does to the item row of a product. -/
def ItemRow.step (p : String) (cell : Option ItemRow) (e : Event) : Option ItemRow :=
  (e.itemRow? p).elim cell fun new => some (cell.elim new (·.merge new))

/-- The item row a list of events leaves for a product. -/
def itemImage (evs : List Event) (p : String) : Option ItemRow := evs.foldl (ItemRow.step p) none

/-- The products a list of events adds. -/
def productIds (evs : List Event) : List String :=
  evs.filterMap fun e => e.payload.item?.map (·.productId)

/-- The sum of the lines a list of events leaves, in cents. -/
def runningTotal (evs : List Event) : ℤ :=
  ∑ p ∈ (productIds evs).toFinset, (itemImage evs p).elim 0 (·.lineTotal.cents)

/-- The values of the events, running totals included, fit their columns, and the indexes take the
keys among them. -/
structure FitsColumns [Btree] (evs : List Event) : Prop where
  events : ∀ e ∈ evs, e.Fits
  indexed : ∀ e ∈ evs, e.Indexed
  totals : ∀ k, |runningTotal (evs.take k)| < 10 ^ 12

lemma fitsColumns_iff [Btree] {evs : List Event} : FitsColumns evs ↔ (∀ e ∈ evs, e.Fits) ∧
    (∀ e ∈ evs, e.Indexed) ∧ ∀ k < evs.length + 1, |runningTotal (evs.take k)| < 10 ^ 12 := by
  refine ⟨fun h => ⟨h.events, h.indexed, fun k _ => h.totals k⟩,
    fun h => ⟨h.1, h.2.1, fun k => ?_⟩⟩
  by_cases hk : k < evs.length + 1
  · exact h.2.2 k hk
  · have hall := h.2.2 evs.length (by omega)
    rw [List.take_length] at hall
    rwa [List.take_of_length_le (by omega)]

instance [Btree] (evs : List Event) : Decidable (FitsColumns evs) :=
  decidable_of_iff _ fitsColumns_iff.symm

section Image

variable {evs es : List Event} {e : Event} {p : String}

lemma itemImage_concat : itemImage (evs ++ [e]) p = ItemRow.step p (itemImage evs p) e := by
  simp [itemImage]

/-- **The item row of a product**: the first addition merged with the last. -/
theorem itemImage_eq (evs : List Event) (p : String) : itemImage evs p =
    Option.map₂ ItemRow.merge (firstWrite (Event.itemRow? p) evs)
      (lastWrite (Event.itemRow? p) evs) :=
  foldl_merge _ ItemRow.merge_self ItemRow.merge_merge evs

/-- A product that is not added has no row. -/
lemma itemImage_eq_none (h : p ∉ productIds evs) : itemImage evs p = none := by
  have hnone : lastWrite (Event.itemRow? p) evs = none := by
    rw [lastWrite_eq_none]
    intro e he
    rw [Event.itemRow?, Option.bind_eq_none_iff]
    intro item hitem
    refine if_neg fun hp => h ?_
    exact List.mem_filterMap.mpr ⟨e, he, by rw [hitem, Option.map_some, hp]⟩
  rw [itemImage_eq, hnone, Option.map₂_none_right]

/-- Tables that show the item image of a list have its running total as the sum of the lines. -/
lemma sumLineTotal_eq_runningTotal {rm : ReadModel} {o : String}
    (h : ∀ p, (rm.view o).items p = itemImage evs p) : rm.sumLineTotal o = runningTotal evs := by
  rw [ReadModel.sumLineTotal_eq (productIds evs).toFinset, runningTotal]
  · exact Finset.sum_congr rfl fun p _ => congrArg (fun r => Option.elim r 0 _) (h p)
  · intro p hp
    by_contra hnot
    rw [List.mem_toFinset] at hnot
    exact hp ((h p).trans (itemImage_eq_none hnot))

/-- A prefix of events that fit fits. -/
lemma FitsColumns.of_append [Btree] {fs : List Event} (h : FitsColumns (evs ++ fs)) :
    FitsColumns evs where
  events := fun e he => h.events e (List.mem_append_left _ he)
  indexed := fun e he => h.indexed e (List.mem_append_left _ he)
  totals := by
    intro k
    have htake := h.totals (min k evs.length)
    rw [List.take_append_of_le_length (Nat.min_le_right _ _)] at htake
    by_cases hk : k ≤ evs.length
    · rwa [Nat.min_eq_left hk] at htake
    · rw [Nat.min_eq_right (by omega), List.take_length] at htake
      rwa [List.take_of_length_le (by omega)]

/-- The running total of the whole list fits. -/
lemma FitsColumns.total [Btree] (h : FitsColumns evs) : |runningTotal evs| < 10 ^ 12 := by
  have htake := h.totals evs.length
  rwa [List.take_length] at htake

/-- An order that exists goes through its events. -/
lemma foldl_step_some (st : OrderState) :
    es.foldl OrderState.step (some st) = some (es.foldl OrderState.apply st) := by
  induction es generalizing st with
  | nil => rfl
  | cons e es ih => exact ih (st.apply e)

/-- The columns of an order whose events begin with its creation. -/
lemma orderState_cons {c : Created} (hc : e.payload = .orderCreated c) :
    orderState (e :: es) = some (es.foldl OrderState.apply (.created c e.aggregateVersion)) := by
  rw [orderState, List.foldl_cons, ← foldl_step_some]
  simp only [OrderState.step, hc]

/-- Events before the creation are lost. -/
lemma orderState_append_cons {pre : List Event} {c : Created}
    (hpre : ∀ e' ∈ pre, ∀ c', e'.payload ≠ .orderCreated c') (hc : e.payload = .orderCreated c) :
    orderState (pre ++ e :: es) =
      some (es.foldl OrderState.apply (.created c e.aggregateVersion)) := by
  have hnone : ∀ l : List Event, (∀ e' ∈ l, ∀ c', e'.payload ≠ .orderCreated c') →
      l.foldl OrderState.step none = none := by
    intro l hl
    induction l with
    | nil => rfl
    | cons d ds ih =>
        have hd : OrderState.step none d = none := by
          cases hp : d.payload with
          | orderCreated c' => exact absurd hp (hl d List.mem_cons_self c')
          | _ => simp only [OrderState.step, hp]
        rw [List.foldl_cons, hd]
        exact ih fun e' he' => hl e' (List.mem_cons_of_mem _ he')
  rw [orderState, List.foldl_append, hnone pre hpre]
  exact orderState_cons hc

end Image

/-! ### The tables show the image -/

/-- The index has taken the keys of the item rows of an order. -/
def ReadModel.ItemsIndexed [Btree] (rm : ReadModel) (o : String) : Prop :=
  ∀ p, (rm.view o).items p ≠ none → Btree.takes [o, p]

section Run

variable [Btree] {rm₀ rm rm' : ReadModel} {o : String} {evs evs' : List Event}

/-- One projection, on the columns of the row. -/
lemma project_state {e : Event} (h : projectToPostgres rm e = some rm') :
    (rm'.view e.aggregateId).row.map (·.state) =
      OrderState.step ((rm.view e.aggregateId).row.map (·.state)) e := by
  cases hrow : (rm.view e.aggregateId).row with
  | some row =>
      obtain ⟨r, hr, hstate, _⟩ := project_row h hrow
      rw [hr, Option.map_some, Option.map_some, hstate]
      rfl
  | none =>
      have hnew : e.aggregateId ∉ rm.orders := Finmap.lookup_eq_none.mp hrow
      cases hp : e.payload with
      | orderCreated c =>
          obtain ⟨r, hr, hstate, _⟩ := project_created h hnew hp
          rw [hr, Option.map_some, hstate]
          simp only [Option.map_none, OrderState.step, hp]
      | _ =>
          obtain ⟨rfl, _⟩ := project_absent h hnew (by simp [hp])
          rw [hrow]
          simp only [Option.map_none, OrderState.step, hp]

/-- A run over events of one order, on the columns of its row. -/
theorem run_state (hevs : ∀ e ∈ evs, e.aggregateId = o)
    (hrun : run projectToPostgres rm₀ evs = some rm) :
    (rm.view o).row.map (·.state) =
      evs.foldl OrderState.step ((rm₀.view o).row.map (·.state)) := by
  refine run_foldl (fun rm => (rm.view o).row.map (·.state)) OrderState.step ?_ hrun
  intro e he rm rm' h
  obtain rfl := hevs e he
  exact project_state h

/-- A run over events of one order, on its item rows. -/
theorem run_item (hevs : ∀ e ∈ evs, e.aggregateId = o)
    (hrun : run projectToPostgres rm₀ evs = some rm) (p : String) :
    (rm.view o).items p = evs.foldl (ItemRow.step p) ((rm₀.view o).items p) := by
  refine run_foldl (fun rm => (rm.view o).items p) (ItemRow.step p) ?_ hrun
  intro e he rm rm' h
  obtain rfl := hevs e he
  exact project_item h p

/-- A run over events of one order leaves the others alone. -/
lemma run_frame (hevs : ∀ e ∈ evs, e.aggregateId = o)
    (hrun : run projectToPostgres rm₀ evs = some rm) {o' : String} (ho : o' ≠ o) :
    rm.view o' = rm₀.view o' := by
  have hnil : evs.filter (fun e => e.aggregateId = o') = [] := by
    rw [List.filter_eq_nil_iff]
    intro e he heq
    rw [decide_eq_true_eq, hevs e he] at heq
    exact ho heq.symm
  obtain ⟨rm₁, h₁, hview⟩ := projection_local.run_filter (k := o') rfl hrun
  rw [hnil, run_nil, Option.some.injEq] at h₁
  rw [hview, h₁]

/-- Totals stay in step with the items along a run over events of one order. -/
lemma run_totalled (hevs : ∀ e ∈ evs, e.aggregateId = o) (h₀ : rm₀.Totalled o)
    (hrun : run projectToPostgres rm₀ evs = some rm) : rm.Totalled o := by
  have horder : Along projectToPostgres (fun _ e => e.aggregateId = o) rm₀ evs :=
    along_of_forall (fun e he _ => hevs e he) rm₀
  refine preserves_along (P := fun rm : ReadModel => rm.Totalled o) (fun ht ho h => ?_) h₀ horder
    hrun
  subst ho
  exact project_totalled h ht

/-- One projection, on the keys of the item rows. -/
lemma project_itemsIndexed {e : Event} (h : projectToPostgres rm e = some rm')
    (hi : rm.ItemsIndexed e.aggregateId) :
    rm'.ItemsIndexed e.aggregateId ∧ (e.payload.item?.isSome → e.Indexed) := by
  cases project_cases h with
  | again hp | create hp =>
      refine ⟨?_, by simp [hp, Payload.item?]⟩
      simpa only [ReadModel.ItemsIndexed, ReadModel.view_putOrder_self] using hi
  | update _ hnone | noRow _ hnone =>
      refine ⟨?_, by simp [hnone]⟩
      simpa only [ReadModel.ItemsIndexed, ReadModel.view_putOrder_self] using hi
  | @addItem item _ _ _ _ _ hp _ hrm₁ hindexed =>
      have htakes : Btree.takes [e.aggregateId, item.productId] := by
        by_cases hrow : (rm.view e.aggregateId).items item.productId = none
        · have hkey := hindexed hrow
          rwa [Event.Indexed, hp] at hkey
        · exact hi _ hrow
      refine ⟨fun p hp' => ?_, fun _ => by rw [Event.Indexed, hp]; exact htakes⟩
      rw [ReadModel.view_putOrder_self, hrm₁, ReadModel.view_putItem_self] at hp'
      dsimp only at hp'
      by_cases hpid : p = item.productId
      · exact hpid ▸ htakes
      · exact hi p (by rwa [Function.update_of_ne hpid] at hp')

/-- **The keys of the items that a run adds have been taken.** -/
lemma run_itemsIndexed (hevs : ∀ e ∈ evs, e.aggregateId = o) (h₀ : rm₀.ItemsIndexed o)
    (hrun : run projectToPostgres rm₀ evs = some rm) :
    rm.ItemsIndexed o ∧ ∀ e ∈ evs, e.payload.item?.isSome → e.Indexed := by
  induction evs generalizing rm₀ with
  | nil =>
      obtain rfl := Option.some.inj hrun
      exact ⟨h₀, by simp⟩
  | cons e es ih =>
      obtain ⟨rm₁, h, hrun⟩ := (run_cons_eq_some _).mp hrun
      obtain rfl := hevs e List.mem_cons_self
      obtain ⟨h₁, hindexed⟩ := project_itemsIndexed h h₀
      obtain ⟨hend, hrest⟩ := ih (fun e' he' => hevs e' (List.mem_cons_of_mem _ he')) h₁ hrun
      exact ⟨hend, List.forall_mem_cons.mpr ⟨hindexed, hrest⟩⟩

/-! ### Runs from tables without the order -/

variable (hnew : o ∉ rm₀.orders)
include hnew

omit [Btree] in
lemma totalled_of_notMem : rm₀.Totalled o := fun _ hrow =>
  absurd (Finmap.mem_of_lookup_eq_some hrow) hnew

lemma itemsIndexed_of_notMem : rm₀.ItemsIndexed o := fun _ hrow =>
  absurd (ReadModel.lookup_item_eq_none hnew) hrow

lemma run_orderState (hevs : ∀ e ∈ evs, e.aggregateId = o)
    (hrun : run projectToPostgres rm₀ evs = some rm) :
    (rm.view o).row.map (·.state) = orderState evs := by
  have hnone : (rm₀.view o).row = none := Finmap.lookup_eq_none.mpr hnew
  rw [run_state hevs hrun, hnone]
  rfl

lemma run_itemImage (hevs : ∀ e ∈ evs, e.aggregateId = o)
    (hrun : run projectToPostgres rm₀ evs = some rm) (p : String) :
    (rm.view o).items p = itemImage evs p := by
  have hnone : (rm₀.view o).items p = none := ReadModel.lookup_item_eq_none hnew
  rw [run_item hevs hrun, hnone]
  rfl

/-- The sum of the lines is the running total of the events. -/
lemma run_total (hevs : ∀ e ∈ evs, e.aggregateId = o)
    (hrun : run projectToPostgres rm₀ evs = some rm) : rm.sumLineTotal o = runningTotal evs :=
  sumLineTotal_eq_runningTotal (run_itemImage hnew hevs hrun)

/-- **Two runs over events of one order compare by their images.** -/
theorem run_eq_iff (hevs : ∀ e ∈ evs, e.aggregateId = o) (hevs' : ∀ e ∈ evs', e.aggregateId = o)
    (hrun : run projectToPostgres rm₀ evs = some rm)
    (hrun' : run projectToPostgres rm₀ evs' = some rm') :
    rm = rm' ↔ orderState evs = orderState evs' ∧ ∀ p, itemImage evs p = itemImage evs' p := by
  have hstate := run_orderState hnew hevs hrun
  have hstate' := run_orderState hnew hevs' hrun'
  have hitem := run_itemImage hnew hevs hrun
  have hitem' := run_itemImage hnew hevs' hrun'
  constructor
  · rintro rfl
    exact ⟨hstate.symm.trans hstate', fun p => (hitem p).symm.trans (hitem' p)⟩
  · rintro ⟨hst, hit⟩
    have hitems : (rm.view o).items = (rm'.view o).items :=
      funext fun p => by rw [hitem, hitem', hit]
    refine ReadModel.ext_view fun o' => ?_
    by_cases ho : o' = o
    · subst ho
      refine OrderView.ext ?_ hitems
      have htot := run_totalled hevs (totalled_of_notMem hnew) hrun
      have htot' := run_totalled hevs' (totalled_of_notMem hnew) hrun'
      have hmap : (rm.view o').row.map (·.state) = (rm'.view o').row.map (·.state) := by
        rw [hstate, hstate', hst]
      cases hrow : (rm.view o').row with
      | none =>
          rw [hrow, Option.map_none, eq_comm, Option.map_eq_none_iff] at hmap
          rw [hmap]
      | some row =>
          rw [hrow, Option.map_some, eq_comm, Option.map_eq_some_iff] at hmap
          obtain ⟨row', hrow', heq⟩ := hmap
          rw [hrow', OrderRow.ext_state heq]
          rw [htot row hrow, htot' row' hrow', ReadModel.sumLineTotal_congr hitems]
    · rw [run_frame hevs hrun ho, run_frame hevs' hrun' ho]

/-- A run goes one event further when the values of the event and the new total fit, and the indexes
take its keys. -/
lemma run_concat_isSome {e : Event} (hevs : ∀ e' ∈ evs ++ [e], e'.aggregateId = o)
    (hrun : run projectToPostgres rm₀ evs = some rm) (hfits : e.Fits)
    (hindexed : o ∉ rm.orders ∨ e.payload.item?.isSome → e.Indexed)
    (hitem : e.payload.item?.isSome → o ∈ rm.orders)
    (htotal : |runningTotal (evs ++ [e])| < 10 ^ 12) : (projectToPostgres rm e).isSome := by
  have hprefix : ∀ e' ∈ evs, e'.aggregateId = o := fun e' he' =>
    hevs e' (List.mem_append_left _ he')
  obtain rfl := hevs e (List.mem_append_right _ (List.mem_singleton_self _))
  refine project_isSome.mpr ⟨hfits, fun _ _ hnot => hindexed (Or.inl hnot), fun item hadd => ?_⟩
  have hpayload := hfits.payload
  have hkey := hindexed (Or.inr (by rw [hadd]; rfl))
  rw [hadd] at hpayload
  rw [Event.Indexed, hadd] at hkey
  obtain ⟨rm₁, hrm₁⟩ := Option.isSome_iff_exists.mp (ReadModel.upsertItem_isSome.mpr
    ⟨hfits.aggregateId, hpayload, hitem (by rw [hadd]; rfl), fun _ => hkey⟩)
  refine ⟨rm₁, hrm₁, ?_⟩
  obtain ⟨new, ho, hnewRow, rfl, _⟩ := ReadModel.upsertItem_eq_some hrm₁
  -- the items after the upsert are the image of the longer list
  have himage : ∀ p, ((rm.putItem e.aggregateId item.productId
      (((rm.view e.aggregateId).items item.productId).elim new (·.merge new)) ho).view
        e.aggregateId).items p = itemImage (evs ++ [e]) p := by
    intro p
    rw [ReadModel.view_putItem_self, itemImage_concat, ItemRow.step, Event.itemRow?, hadd,
      ← run_itemImage hnew hprefix hrun, Payload.item?, Option.bind_some]
    by_cases hp : item.productId = p
    · subst hp
      simp [hnewRow]
    · simp [hp, Function.update_of_ne (Ne.symm hp)]
  rw [sumLineTotal_eq_runningTotal himage]
  exact htotal

/-- **A run goes through** when its events begin with `ORDER_CREATED` and fit their columns. -/
theorem run_isSome {e : Event} {es : List Event} {c : Created}
    (hevs : ∀ e' ∈ e :: es, e'.aggregateId = o) (hc : e.payload = .orderCreated c)
    (hfits : FitsColumns (e :: es)) : (run projectToPostgres rm₀ (e :: es)).isSome := by
  induction es using List.reverseRecOn with
  | nil =>
      have hone : (projectToPostgres rm₀ e).isSome :=
        project_isSome.mpr ⟨hfits.events e List.mem_cons_self,
          fun _ _ _ => hfits.indexed e List.mem_cons_self, fun item hitem => by simp [hc] at hitem⟩
      obtain ⟨rm, h⟩ := Option.isSome_iff_exists.mp hone
      exact Option.isSome_iff_exists.mpr ⟨rm, (run_cons_eq_some _).mpr ⟨rm, h, rfl⟩⟩
  | append_singleton es d ih =>
      rw [← List.cons_append] at hevs hfits ⊢
      obtain ⟨rm, hrun⟩ := Option.isSome_iff_exists.mp
        (ih (fun e' he' => hevs e' (List.mem_append_left _ he')) hfits.of_append)
      -- the row is there since the first event
      have hmem : o ∈ rm.orders := by
        have hrow := run_orderState hnew (fun e' he' => hevs e' (List.mem_append_left _ he')) hrun
        rw [orderState_cons hc, Option.map_eq_some_iff] at hrow
        obtain ⟨row, hrow, _⟩ := hrow
        exact Finmap.mem_of_lookup_eq_some hrow
      have hlast : d ∈ (e :: es) ++ [d] := List.mem_append_right _ (List.mem_singleton_self _)
      obtain ⟨rm', h⟩ := Option.isSome_iff_exists.mp
        (run_concat_isSome hnew hevs hrun (hfits.events d hlast)
          (fun _ => hfits.indexed d hlast) (fun _ => hmem) hfits.total)
      exact Option.isSome_iff_exists.mpr ⟨rm', (run_concat_eq_some _).mpr ⟨rm, hrun, h⟩⟩

end Run

end OrderCqrs
