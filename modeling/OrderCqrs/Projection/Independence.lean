import OrderCqrs.Projection.Replay

/-!
The projections of different orders.

* `Attempt`, `projectAll`: a series of attempts to project, each of which may fail and roll back.
* `attempt_local`: an attempt concerns the order of its event only.
* `Interleaves`, `projections_independent`: **the interleaving of the orders does not matter**: only
  the sequence of each order does, and the rows of an order depend on its own rows and sequence.
* `partitions_independent`: so it does not matter in which order the consumer works through the
  partitions, as long as the partitioner keeps an order in one of them.
-/

namespace OrderCqrs

open Runs

/-! ### Series of attempts -/

/-- An attempt to project an event, which the database may refuse whatever the event is. -/
structure Attempt where
  event : Event
  raises : Bool

/-- The order an attempt concerns. -/
def Attempt.orderId (a : Attempt) : String := a.event.aggregateId

/-- The tables after an attempt; a failed one leaves them unchanged. -/
def ReadModel.attempt [Btree] (rm : ReadModel) (a : Attempt) : ReadModel :=
  if a.raises then rm else rm.after a.event

/-- The tables after a series of attempts. -/
def projectAll [Btree] (rm : ReadModel) (as : List Attempt) : ReadModel :=
  as.foldl ReadModel.attempt rm

/-- An attempt changes nothing of another order. -/
lemma view_attempt_of_ne [Btree] {rm : ReadModel} {a : Attempt} {o : String} (ho : o ≠ a.orderId) :
    (rm.attempt a).view o = rm.view o := by
  rw [ReadModel.attempt, ReadModel.after]
  split_ifs
  · rfl
  · cases h : projectToPostgres rm a.event with
    | none => rfl
    | some rm' => exact project_frame h ho

/-- What an attempt does to its order depends on the rows of this order. -/
lemma view_attempt_congr [Btree] {rm rm' : ReadModel} {a : Attempt}
    (hv : rm.view a.orderId = rm'.view a.orderId) :
    (rm.attempt a).view a.orderId = (rm'.attempt a).view a.orderId := by
  have hmap := projection_local.here hv
  rw [ReadModel.attempt, ReadModel.attempt, ReadModel.after, ReadModel.after]
  split_ifs
  · exact hv
  · cases h : projectToPostgres rm a.event with
    | none =>
        rw [h, Option.map_none, eq_comm, Option.map_eq_none_iff] at hmap
        rw [hmap]
        exact hv
    | some rm₁ =>
        rw [h, Option.map_some, eq_comm, Option.map_eq_some_iff] at hmap
        obtain ⟨rm₂, h₂, hview⟩ := hmap
        rw [h₂]
        exact hview.symm

/-- **An attempt is local to the order of its event.** -/
theorem attempt_local [Btree] :
    Keyed.Local (fun rm a => some (ReadModel.attempt rm a)) Attempt.orderId ReadModel.view where
  frame := by
    intro rm rm' a o h ho
    obtain rfl := Option.some.inj h
    exact view_attempt_of_ne ho
  here := fun hv => congrArg some (view_attempt_congr hv)
  ext := ReadModel.ext_view

/-! ### Interleavings -/

/-- The series is an interleaving of the sequences of the orders, each kept as it is. -/
def Interleaves (as : List Attempt) (seqs : String → List Attempt) : Prop :=
  ∀ o, (as.filter fun a => a.orderId = o) = seqs o

/-- **Projections of different orders are independent**: any two interleavings of the sequences of
the orders lead to the same tables, and the rows of an order after either of them are those that its
own sequence leads to from its own rows. -/
theorem projections_independent [Btree] (rm : ReadModel) (seqs : String → List Attempt) :
    (∀ as bs, Interleaves as seqs → Interleaves bs seqs → projectAll rm as = projectAll rm bs) ∧
    ∀ (rm' : ReadModel) (o : String) as, Interleaves as seqs → rm.view o = rm'.view o →
      (projectAll rm as).view o = (projectAll rm' (seqs o)).view o := by
  have hown : ∀ (rm' : ReadModel) (o : String) as, Interleaves as seqs → rm.view o = rm'.view o →
      (projectAll rm as).view o = (projectAll rm' (seqs o)).view o := by
    intro rm' o as has hv
    rw [← has o]
    exact attempt_local.foldl_view hv as
  refine ⟨fun as bs has hbs => ReadModel.ext_view fun o => ?_, hown⟩
  rw [hown rm o as has rfl, hown rm o bs hbs rfl]

/-- **Partitions are independent**: two series that take the records of each partition in their
order lead to the same tables, since the records of an order share a partition. -/
theorem partitions_independent [Btree] (rm : ReadModel) (partitioner : String → ℕ)
    {as bs : List Attempt}
    (h : ∀ p, (as.filter fun a => partitioner a.orderId = p) =
      bs.filter fun a => partitioner a.orderId = p) :
    projectAll rm as = projectAll rm bs := by
  refine ReadModel.ext_view fun o => ?_
  -- the records of an order are among those of its partition
  have hsub : ∀ l : List Attempt, (l.filter fun a => a.orderId = o) =
      (l.filter fun a => partitioner a.orderId = partitioner o).filter fun a => a.orderId = o := by
    intro l
    rw [List.filter_filter]
    refine List.filter_congr fun a _ => ?_
    by_cases ha : a.orderId = o <;> simp [ha]
  calc (projectAll rm as).view o
      = (projectAll rm (as.filter fun a => a.orderId = o)).view o := attempt_local.foldl_view rfl as
    _ = (projectAll rm (bs.filter fun a => a.orderId = o)).view o := by rw [hsub as, hsub bs, h]
    _ = (projectAll rm bs).view o := (attempt_local.foldl_view rfl bs).symm

end OrderCqrs
