import OrderCqrs.Logic.Rewinds
import OrderCqrs.Projection.Replay

/-!
Projections by a reader that goes back, any number of times and to any place, and reads on to the
end: of an offset that is rewound, or of an archive that holds some stretches of the topic twice.

* `Opens`: the log of an order begins with its creation; it may hold events twice and late.
* `image_of_reads`: the image of what was read of an order is the image of its log.
* `ReadsOrders`: what was read of every order.
* `tables_of_reads`: **the tables are those of reading the topic once**.
-/

namespace OrderCqrs

open Runs LastWriter Rewinds

/-- The columns of a row depend on the last writes only. -/
lemma foldl_apply_congr {evs evs' : List Event} (st : OrderState)
    (h : ∀ {β : Type} (w : Event → Option β), lastWrite w evs = lastWrite w evs') :
    evs.foldl OrderState.apply st = evs'.foldl OrderState.apply st := by
  have hcust := foldl_apply_customer st evs
  have hcust' := foldl_apply_customer st evs'
  refine OrderState.ext (hcust.1.trans hcust'.1.symm) (hcust.2.trans hcust'.2.symm) ?_ ?_ ?_ ?_
  · rw [foldl_apply_status, foldl_apply_status, h]
  · rw [foldl_apply_version, foldl_apply_version, h]
  · rw [foldl_apply_paymentId, foldl_apply_paymentId, h]
  · rw [foldl_apply_trackingId, foldl_apply_trackingId, h]

/-- The log begins with the creation of its order. -/
def Opens (log : List Event) : Prop := ∃ e c es, log = e :: es ∧ e.payload = .orderCreated c

/-- **What a reader that goes back has read of an order has the image of its log.** -/
theorem image_of_reads {log l : List Event} (hlog : Opens log)
    (h : Reads log l log.length) :
    orderState l = orderState log ∧ ∀ p, itemImage l p = itemImage log p := by
  refine ⟨?_, fun p => ?_⟩
  · obtain ⟨e, c, es, rfl, hc⟩ := hlog
    have hne : l ≠ [] := by
      rintro rfl
      have hsub := h.take_subset
      rw [List.take_length] at hsub
      exact List.not_mem_nil (hsub List.mem_cons_self)
    obtain ⟨es', rfl⟩ : ∃ es', l = e :: es' := by
      cases l with
      | nil => exact absurd rfl hne
      | cons d ds =>
          have hhead := h.head?_eq hne
          rw [List.head?_cons, List.head?_cons, Option.some.injEq] at hhead
          exact ⟨ds, by rw [hhead]⟩
    have hfirst : ∀ st : OrderState, st.apply e = st := fun st => by rw [OrderState.apply, hc]
    have hcons : ∀ l, orderState (e :: l) =
        some ((e :: l).foldl OrderState.apply (.created c e.aggregateVersion)) := fun l => by
      rw [orderState_cons hc, List.foldl_cons, hfirst]
    rw [hcons, hcons, foldl_apply_congr _ fun w => h.lastWrite_eq w]
  · rw [itemImage_eq, itemImage_eq, h.lastWrite_eq, h.firstWrite_eq]

/-- Of every order, a reader of its events has read to their end. -/
def ReadsOrders (evs l : List Event) : Prop :=
  ∀ o, Reads (evs.filter fun e => e.aggregateId = o) (l.filter fun e => e.aggregateId = o)
    (evs.filter fun e => e.aggregateId = o).length

/-- **The tables after a reader that went back are those of reading once.** -/
theorem tables_of_reads [Btree] {rm₀ rm rm' : ReadModel} {evs l : List Event}
    (hnew : ∀ e ∈ evs, e.aggregateId ∉ rm₀.orders)
    (hevs : ∀ e ∈ evs, Opens (evs.filter fun d => d.aggregateId = e.aggregateId))
    (h : ReadsOrders evs l) (hrun : run projectToPostgres rm₀ l = some rm)
    (hrun' : run projectToPostgres rm₀ evs = some rm') : rm = rm' := by
  refine ReadModel.ext_view fun o => ?_
  obtain ⟨t, ht, hview⟩ := projection_local.run_filter (k := o) rfl hrun
  obtain ⟨t', ht', hview'⟩ := projection_local.run_filter (k := o) rfl hrun'
  suffices heq : t = t' by rw [hview, hview', heq]
  rcases (evs.filter fun e => e.aggregateId = o).eq_nil_or_concat with hnil | ⟨_, e, hmem⟩
  · -- nothing of the order was read
    have hnone : l.filter (fun e => e.aggregateId = o) = [] := by
      have hsub := (h o).subset
      rw [hnil] at hsub
      exact List.subset_nil.mp hsub
    rw [hnone, run_nil, Option.some.injEq] at ht
    rw [hnil, run_nil, Option.some.injEq] at ht'
    rw [← ht, ht']
  · have he : e ∈ evs.filter fun e => e.aggregateId = o := by
      rw [hmem]
      simp
    obtain ⟨hin, ho⟩ := List.mem_filter.mp he
    obtain rfl : e.aggregateId = o := by simpa using ho
    have horder : ∀ {ds : List Event}, ∀ d ∈ ds.filter fun d => d.aggregateId = e.aggregateId,
        d.aggregateId = e.aggregateId := fun d hd => by simpa using (List.mem_filter.mp hd).2
    exact (run_eq_iff (hnew e hin) horder horder ht ht').mpr
      (image_of_reads (hevs e hin) (h e.aggregateId))

end OrderCqrs
