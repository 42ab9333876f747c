import Mathlib.Data.List.Sort
import OrderCqrs.Delivery.Consumer
import OrderCqrs.Logic.Stutter
import OrderCqrs.Projection.Effects

/-!
Crashes and duplicate records against the three stores of the consumer: the processed keys, the
tables and the offsets.

* `OrderedTopic`: the topics considered, with every order in one partition, first copies in version
  order and further copies anywhere behind them.
* `PipelineAction.Quiet`: the consumer takes records, its calls complete, and it crashes.
* `OnceInv`: **how the stores are related at every point**: what is committed is marked, what is
  marked is projected, and the projections of a partition stutter over the first copies of its
  records, up to the committed offset or one record further.
* `exactly_once`: the tables reached are those of projecting every distinct event once.
-/

namespace OrderCqrs

open Runs Stutter

/-! ### Topics and runs -/

/-- The order of the versions. -/
def Event.Earlier (a b : Event) : Prop := a.aggregateVersion < b.aggregateVersion

instance : Std.Irrefl Event.Earlier := ⟨fun a => lt_irrefl a.aggregateVersion⟩

instance : Std.Antisymm Event.Earlier := ⟨fun _ _ h h' => (lt_asymm h h').elim⟩

/-- Events of one order stand in version order. -/
def Event.Precedes (a b : Event) : Prop := a.aggregateId = b.aggregateId → a.Earlier b

instance (a b : Event) : Decidable (a.Precedes b) :=
  inferInstanceAs
    (Decidable (a.aggregateId = b.aggregateId → a.aggregateVersion < b.aggregateVersion))

/-- The events of one order, in version order. -/
lemma pairwise_filter {evs : List Event} (h : evs.Pairwise Event.Precedes) (o : String) :
    (evs.filter (·.aggregateId = o)).Pairwise Event.Earlier := by
  refine (h.filter _).imp_of_mem fun {a b} ha hb hab => hab ?_
  rw [List.mem_filter, decide_eq_true_iff] at ha hb
  exact ha.2.trans hb.2.symm

/-- **The topics considered**: identified events, each order in the partition it is assigned to, its
first copies in version order. -/
structure OrderedTopic (partitions : ℕ) (topic : ℕ → List Delivery) (partitioner : String → ℕ) :
    Prop where
  named : ∀ p, ∀ e ∈ eventsOf topic p, e.eventId ≠ ""
  identified : ∀ p q, ∀ e ∈ eventsOf topic p, ∀ e' ∈ eventsOf topic q,
    e.eventId = e'.eventId → e = e'
  assigned : ∀ p, ∀ e ∈ eventsOf topic p, partitioner e.aggregateId = p
  inOrder : ∀ p, (eventsOf topic p).eraseDups.Pairwise Event.Precedes
  bounded : ∀ p, partitions ≤ p → topic p = []

/-- A list that holds every distinct event of the topic, each order's strictly in version order, and
therefore once. -/
structure EachOnce (topic : ℕ → List Delivery) (evs : List Event) : Prop where
  mem : ∀ e, e ∈ evs ↔ ∃ p, e ∈ eventsOf topic p
  inOrder : evs.Pairwise Event.Precedes

/-- The consumer takes records, its calls complete, and it crashes. -/
def PipelineAction.Quiet : PipelineAction → Prop
  | .poll _ | .complete | .crash => True
  | .raise _ _ | .expire _ | .retry _ _ _ => False

instance : (a : PipelineAction) → Decidable a.Quiet
  | .poll _ | .complete | .crash => .isTrue trivial
  | .raise _ _ | .expire _ | .retry _ _ _ => .isFalse id

/-- Every record is committed. -/
def Pipeline.AllCommitted (s : Pipeline) : Prop :=
  ∀ p < s.partitions, s.committed p = (s.topic p).length

instance (s : Pipeline) : Decidable s.AllCommitted :=
  inferInstanceAs (Decidable (∀ p < s.partitions, s.committed p = (s.topic p).length))

/-! ### The invariant -/

/-- What is known of the record in the consumer's hands at each call. -/
def InFlight.Known (s : Pipeline) (c : InFlight) : Prop :=
  match c.pc with
  | .redisExists => True
  | .project => c.event.eventId ∉ s.processed
  | .invalidateCache | .setProcessed => c.event ∈ s.transactions
  | .commitSkipped | .setExpiry | .commit => c.event.eventId ∈ s.processed
  | .sendToDlq _ | .commitFailed => False

/-- The projections of events of a partition, in the order of their commits. -/
def projectionsOf (partitioner : String → ℕ) (evs : List Event) (p : ℕ) : List Event :=
  evs.filter fun e => partitioner e.aggregateId = p

/-- **The invariant of the three stores.** -/
structure OnceInv (partitions : ℕ) (topic : ℕ → List Delivery) (partitioner : String → ℕ)
    (s : Pipeline) : Prop where
  partitions_eq : s.partitions = partitions
  topic_eq : s.topic = topic
  /-- Partitions whose record is not in the consumer's hands stand at their committed offset. -/
  idle : ∀ p, (∀ c, s.current = some c → c.partition ≠ p) → s.position p = s.committed p
  /-- The record in the consumer's hands is the one at the committed offset. -/
  inFlight : ∀ c, s.current = some c →
    s.position c.partition = s.committed c.partition + 1 ∧
      (topic c.partition)[s.committed c.partition]? = some c.delivery ∧ c.Known s
  /-- A marked event has been projected. -/
  marked : ∀ id ∈ s.processed, ∃ e ∈ s.transactions, e.eventId = id
  /-- A committed record's event is marked. -/
  committed : ∀ p, ∀ e ∈ (eventsOf topic p).take (s.committed p), e.eventId ∈ s.processed
  /-- The projections of a partition stutter over the first copies of its records. -/
  history : ∀ p, ∃ m, (m = s.committed p ∨ m = s.committed p + 1) ∧
    Stutters (projectionsOf partitioner s.transactions p) ((eventsOf topic p).take m).eraseDups

section Invariant

variable {partitioner : String → ℕ} {topic : ℕ → List Delivery} {n : ℕ} {s t : Pipeline}

lemma onceInv_init (rm₀ : ReadModel) : OnceInv n topic partitioner (.init n topic rm₀) where
  partitions_eq := rfl
  topic_eq := rfl
  idle := fun _ _ => rfl
  inFlight := by simp [Pipeline.init]
  marked := by simp [Pipeline.init]
  committed := by simp [Pipeline.init]
  history := fun p => ⟨0, Or.inl rfl, by simpa [projectionsOf, Pipeline.init] using Stutters.nil⟩

namespace OnceInv

/-- A projected event is one of the topic. -/
lemma origin (hs : OnceInv n topic partitioner s) {e : Event} (he : e ∈ s.transactions) :
    e ∈ eventsOf topic (partitioner e.aggregateId) := by
  obtain ⟨m, _, hst⟩ := hs.history (partitioner e.aggregateId)
  have hmem : e ∈ projectionsOf partitioner s.transactions (partitioner e.aggregateId) :=
    List.mem_filter.mpr ⟨he, by simp⟩
  exact List.mem_of_mem_take (List.mem_eraseDups.mp (hst.mem_iff.mp hmem))

/-- The records up to one further than the committed offset. -/
lemma take_succ {c : InFlight} (hs : OnceInv n topic partitioner s) (hc : s.current = some c) :
    (eventsOf topic c.partition).take (s.committed c.partition + 1) =
      (eventsOf topic c.partition).take (s.committed c.partition) ++ [c.event] := by
  rw [List.take_add_one, eventsOf, List.getElem?_map, (hs.inFlight c hc).2.1]
  rfl

lemma idle_of_ne {c : InFlight} {p : ℕ} (hs : OnceInv n topic partitioner s)
    (hc : s.current = some c) (hp : c.partition ≠ p) : s.position p = s.committed p :=
  hs.idle p fun c' hc' => by
    rw [hc, Option.some.injEq] at hc'
    exact hc' ▸ hp

/-- The event in the consumer's hands is one of its partition. -/
lemma mem_eventsOf {c : InFlight} (hs : OnceInv n topic partitioner s) (hc : s.current = some c) :
    c.event ∈ eventsOf topic c.partition :=
  List.mem_map.mpr ⟨_, List.mem_of_getElem? (hs.inFlight c hc).2.1, rfl⟩

/-- The consumer's next call changes neither what is projected nor an offset. -/
lemma goto {c : InFlight} (hs : OnceInv n topic partitioner s) (hc : s.current = some c)
    {pc : ConsumerPc} {processed cache expiring : List String} (hsub : s.processed ⊆ processed)
    (hmarked : ∀ id ∈ processed, ∃ e ∈ s.transactions, e.eventId = id)
    (hknown : InFlight.Known { s with processed } { c with pc }) :
    OnceInv n topic partitioner
      (Pipeline.goto { s with processed, cache, expiring } c pc) where
  partitions_eq := hs.partitions_eq
  topic_eq := hs.topic_eq
  idle := fun p hp => hs.idle_of_ne hc (hp { c with pc } rfl)
  inFlight := by
    intro c' hc'
    obtain rfl := Option.some.inj hc'
    obtain ⟨hpos, hrec, _⟩ := hs.inFlight c hc
    exact ⟨hpos, hrec, hknown⟩
  marked := hmarked
  committed := fun p e he => hsub (hs.committed p e he)
  history := hs.history

/-- A projection: its partition's history goes one record further, or repeats that record. -/
lemma project {c : InFlight} (hT : OrderedTopic n topic partitioner)
    (hs : OnceInv n topic partitioner s) (hc : s.current = some c)
    (hnew : c.event.eventId ∉ s.processed) (rm : ReadModel) :
    OnceInv n topic partitioner (Pipeline.goto { s with
      readModel := rm
      transactions := s.transactions ++ [c.event] } c .invalidateCache) where
  partitions_eq := hs.partitions_eq
  topic_eq := hs.topic_eq
  idle := fun p hp => hs.idle_of_ne hc (hp { c with pc := .invalidateCache } rfl)
  inFlight := by
    intro c' hc'
    obtain rfl := Option.some.inj hc'
    obtain ⟨hpos, hrec, _⟩ := hs.inFlight c hc
    exact ⟨hpos, hrec, List.mem_append_right _ (List.mem_singleton_self _)⟩
  marked := by
    intro id hid
    obtain ⟨e, he, heid⟩ := hs.marked id hid
    exact ⟨e, List.mem_append_left _ he, heid⟩
  committed := hs.committed
  history := by
    intro p
    obtain ⟨m, hm, hst⟩ := hs.history p
    have hpart := hT.assigned _ _ (hs.mem_eventsOf hc)
    show ∃ m, (m = s.committed p ∨ m = s.committed p + 1) ∧ Stutters
      (projectionsOf partitioner (s.transactions ++ [c.event]) p)
        ((eventsOf topic p).take m).eraseDups
    by_cases hp : c.partition = p
    · subst hp
      have happ : projectionsOf partitioner (s.transactions ++ [c.event]) c.partition =
          projectionsOf partitioner s.transactions c.partition ++ [c.event] := by
        simp [projectionsOf, List.filter_append, hpart]
      -- the event is not among the committed ones, for those are marked
      have hfirst : ((eventsOf topic c.partition).take (s.committed c.partition + 1)).eraseDups =
          ((eventsOf topic c.partition).take (s.committed c.partition)).eraseDups ++ [c.event] := by
        rw [hs.take_succ hc, firstCopies_concat_of_notMem]
        exact fun hmem => hnew (hs.committed _ _ hmem)
      refine ⟨_, Or.inr rfl, ?_⟩
      rw [happ, hfirst]
      obtain rfl | rfl := hm
      · exact hst.next _
      · rw [hfirst] at hst
        exact hst.again
    · refine ⟨m, hm, ?_⟩
      have happ : projectionsOf partitioner (s.transactions ++ [c.event]) p =
          projectionsOf partitioner s.transactions p := by
        simp [projectionsOf, List.filter_append, hpart, hp]
      rw [happ]
      exact hst

/-- A commit of a marked event: the committed offset goes one record further. -/
lemma commit {c : InFlight} (hT : OrderedTopic n topic partitioner)
    (hs : OnceInv n topic partitioner s) (hc : s.current = some c)
    (hmark : c.event.eventId ∈ s.processed) : OnceInv n topic partitioner s.commit := by
  have hpos := (hs.inFlight c hc).1
  have hidle : ∀ p, p ≠ c.partition → s.position p = s.committed p := fun p hp =>
    hs.idle_of_ne hc (Ne.symm hp)
  refine ⟨hs.partitions_eq, hs.topic_eq, fun p _ => rfl,
    fun c' hc' => by simp [Pipeline.commit] at hc', hs.marked, fun p e he => ?_, fun p => ?_⟩
  · show e.eventId ∈ s.processed
    have hmem : e ∈ (eventsOf topic p).take (s.position p) := he
    by_cases hp : p = c.partition
    · subst hp
      rw [hpos, hs.take_succ hc, List.mem_append, List.mem_singleton] at hmem
      exact hmem.elim (hs.committed _ _) fun heq => heq ▸ hmark
    · rw [hidle p hp] at hmem
      exact hs.committed p e hmem
  · show ∃ m, (m = s.position p ∨ m = s.position p + 1) ∧ Stutters
      (projectionsOf partitioner s.transactions p) ((eventsOf topic p).take m).eraseDups
    obtain ⟨m, hm, hst⟩ := hs.history p
    by_cases hp : p = c.partition
    · subst hp
      rw [hpos]
      refine ⟨_, Or.inl rfl, ?_⟩
      obtain rfl | rfl := hm
      · -- a marked event has been projected, so it is a copy of a committed one
        have hmem : c.event ∈ (eventsOf topic c.partition).take (s.committed c.partition) := by
          obtain ⟨e, he, heid⟩ := hs.marked _ hmark
          have heq := hT.identified _ _ e (hs.origin he) c.event (hs.mem_eventsOf hc) heid
          subst heq
          have hpart := hT.assigned _ _ (hs.mem_eventsOf hc)
          have hin : c.event ∈ projectionsOf partitioner s.transactions c.partition :=
            List.mem_filter.mpr ⟨he, by simpa using hpart⟩
          exact List.mem_eraseDups.mp (hst.mem_iff.mp hin)
        rw [hs.take_succ hc, firstCopies_concat_of_mem hmem]
        exact hst
      · exact hst
    · rw [hidle p hp]
      exact ⟨m, hm, hst⟩

/-- A crash loses the record in the consumer's hands. -/
lemma restart (hs : OnceInv n topic partitioner s) : OnceInv n topic partitioner s.restart where
  partitions_eq := hs.partitions_eq
  topic_eq := hs.topic_eq
  idle := fun _ _ => rfl
  inFlight := by simp [Pipeline.restart]
  marked := hs.marked
  committed := hs.committed
  history := hs.history

/-- The consumer takes the next record of a partition. -/
lemma poll {p : ℕ} {d : Delivery} (hT : OrderedTopic n topic partitioner)
    (hs : OnceInv n topic partitioner s) (hnone : s.current = none)
    (hd : (s.topic p)[s.position p]? = some d) :
    OnceInv n topic partitioner { s with
      position := Function.update s.position p (s.position p + 1)
      current := some ⟨p, d, d.event.firstCall⟩ } := by
  have hpos : ∀ q, s.position q = s.committed q := fun q => hs.idle q (by simp [hnone])
  rw [hs.topic_eq, hpos] at hd
  refine ⟨hs.partitions_eq, hs.topic_eq, fun q hq => ?_, fun c hc => ?_, hs.marked, hs.committed,
    hs.history⟩
  · have hqp : q ≠ p := fun heq => hq _ rfl heq.symm
    show Function.update s.position p (s.position p + 1) q = s.committed q
    rw [Function.update_of_ne hqp]
    exact hpos q
  · obtain rfl : (⟨p, d, d.event.firstCall⟩ : InFlight) = c := Option.some.inj hc
    have hid := hT.named p d.event (List.mem_map.mpr ⟨d, List.mem_of_getElem? hd, rfl⟩)
    refine ⟨?_, hd, ?_⟩
    · show Function.update s.position p (s.position p + 1) p = s.committed p + 1
      rw [Function.update_self, hpos]
    · rw [InFlight.Known, Event.firstCall, if_pos hid]
      trivial

/-- A call that completes keeps the invariant. -/
lemma complete [Btree] {c : InFlight} (hT : OrderedTopic n topic partitioner)
    (hs : OnceInv n topic partitioner s) (hc : s.current = some c) (h : s.complete c = some t) :
    OnceInv n topic partitioner t := by
  have hknown := (hs.inFlight c hc).2.2
  have hid := hT.named _ _ (hs.mem_eventsOf hc)
  obtain ⟨p, d, pc⟩ := c
  cases pc with
  | redisExists =>
      obtain rfl := Option.some.inj h
      refine hs.goto hc (List.Subset.refl _) hs.marked ?_
      by_cases hmem : d.event.eventId ∈ s.processed
      · rw [if_pos hmem]
        exact hmem
      · rw [if_neg hmem]
        exact hmem
  | project =>
      obtain ⟨rm, _, h⟩ := Option.bind_eq_some_iff.mp h
      obtain rfl := Option.some.inj h
      exact hs.project hT hc hknown rm
  | invalidateCache =>
      obtain rfl := Option.some.inj h
      refine hs.goto hc (List.Subset.refl _) hs.marked ?_
      rw [Event.afterInvalidate, if_pos hid]
      exact hknown
  | setProcessed =>
      obtain rfl := Option.some.inj h
      refine hs.goto hc (List.subset_cons_self _ _) ?_ ?_
      · intro id hmem
        obtain rfl | hmem := List.mem_cons.mp hmem
        · exact ⟨_, hknown, rfl⟩
        · exact hs.marked id hmem
      · rw [Event.afterProcessed]
        split
        · exact List.mem_cons_self
        · exact List.mem_cons_self
  | setExpiry =>
      obtain rfl := Option.some.inj h
      exact hs.goto hc (List.Subset.refl _) hs.marked hknown
  | commitSkipped | commit =>
      obtain rfl := Option.some.inj h
      exact hs.commit hT hc hknown
  | sendToDlq _ | commitFailed => exact hknown.elim

/-- **Every quiet move keeps the invariant.** -/
theorem step [Btree] {a : PipelineAction} (hT : OrderedTopic n topic partitioner)
    (hs : OnceInv n topic partitioner s) (ha : a.Quiet) (h : s.step a = some t) :
    OnceInv n topic partitioner t := by
  cases a with
  | poll p =>
      obtain ⟨_, hnone, d, hd, rfl⟩ := Pipeline.poll_cases h
      exact hs.poll hT hnone hd
  | complete =>
      obtain ⟨c, hc, hcomp⟩ := Pipeline.complete_cases h
      exact hs.complete hT hc hcomp
  | crash =>
      obtain rfl := Option.some.inj h
      exact hs.restart
  | raise _ _ | expire _ | retry _ _ _ => exact ha.elim

/-! ### The whole run -/

/-- When all is committed, the projections of a partition stutter over the first copies of its
records. -/
lemma stutters (hT : OrderedTopic n topic partitioner) (hs : OnceInv n topic partitioner s)
    (hall : s.AllCommitted) (p : ℕ) :
    Stutters (projectionsOf partitioner s.transactions p) (eventsOf topic p).eraseDups := by
  obtain ⟨m, hm, hst⟩ := hs.history p
  have hlen : (eventsOf topic p).length ≤ m := by
    rw [eventsOf, List.length_map]
    by_cases hp : p < n
    · have hcommitted := hall p (hs.partitions_eq.symm ▸ hp)
      rw [hs.topic_eq] at hcommitted
      omega
    · rw [hT.bounded p (not_lt.mp hp)]
      exact Nat.zero_le _
  rwa [List.take_of_length_le hlen] at hst

end OnceInv

/-- The events of an order: its first copies in its partition. -/
lemma EachOnce.filter_eq {evs : List Event} (hT : OrderedTopic n topic partitioner)
    (hevs : EachOnce topic evs) (o : String) :
    evs.filter (·.aggregateId = o) =
      (eventsOf topic (partitioner o)).eraseDups.filter (·.aggregateId = o) := by
  have hpair := pairwise_filter hevs.inOrder o
  refine hpair.eq_of_mem_iff (pairwise_filter (hT.inOrder _) o) fun e => ?_
  rw [List.mem_filter, List.mem_filter, List.mem_eraseDups, hevs.mem, decide_eq_true_iff]
  refine and_congr_left fun ho => ⟨fun ⟨p, hp⟩ => ?_, fun h => ⟨_, h⟩⟩
  rwa [← ho, hT.assigned p e hp]

/-- The projections of an order are among those of its partition. -/
lemma filter_projectionsOf (partitioner : String → ℕ) (evs : List Event) (o : String) :
    (projectionsOf partitioner evs (partitioner o)).filter (·.aggregateId = o) =
      evs.filter (·.aggregateId = o) := by
  rw [projectionsOf, List.filter_filter]
  refine List.filter_congr fun e _ => ?_
  by_cases ho : e.aggregateId = o
  · simp [ho]
  · simp [ho]

/-- **Exactly once.**  Of quiet runs over an ordered topic: a marked event has been projected and
committed; the tables are those of the projections committed so far; and when every record is
committed they are the tables of projecting each distinct event once, in version order. -/
theorem exactly_once [Btree] {rm₀ : ReadModel} {as : List PipelineAction}
    (hT : OrderedTopic n topic partitioner)
    (hrun : run Pipeline.step (.init n topic rm₀) as = some s) (hquiet : ∀ a ∈ as, a.Quiet) :
    (∀ id ∈ s.processed, ∃ e ∈ s.transactions, e.eventId = id) ∧
      run projectToPostgres rm₀ s.transactions = some s.readModel ∧
      (s.AllCommitted → ∀ evs, EachOnce topic evs →
        run projectToPostgres rm₀ evs = some s.readModel) := by
  have hs : OnceInv n topic partitioner s :=
    preserves_along (C := fun _ a => a.Quiet) (fun hs ha h => hs.step hT ha h) (onceInv_init rm₀)
      (along_of_forall (fun a ha _ => hquiet a ha) _) hrun
  have hproj : s.Projected rm₀ :=
    run_preserves Pipeline.projected_step Pipeline.projected_init hrun
  refine ⟨hs.marked, hproj, fun hall evs hevs => projection_local.run_congr hproj fun o => ?_⟩
  have hstutter : Stutters (s.transactions.filter (·.aggregateId = o))
      (evs.filter (·.aggregateId = o)) := by
    rw [hevs.filter_eq hT o, ← filter_projectionsOf partitioner]
    exact (hs.stutters hT hall (partitioner o)).filter _
  rw [hstutter.run_eq projectToPostgres project_idem]

end Invariant

/-- Two orders in two partitions; the first order's creation is in the topic twice. -/
def copiedTopic : ℕ → List Delivery
  | 0 => [⟨orderCreatedEvent (.nth 0) "order-0" "cust-1" "a@test.com", none⟩,
      ⟨orderItemAddedEvent (.nth 1) "order-0" 2 "prod-1" "Polish" 3 150, none⟩,
      ⟨orderCreatedEvent (.nth 0) "order-0" "cust-1" "a@test.com", none⟩]
  | 1 => [⟨orderCreatedEvent (.nth 2) "order-1" "cust-2" "b@test.com", none⟩]
  | _ => []

/-- The partition of an order in it. -/
def copiedPartitioner (o : String) : ℕ := if o = "order-1" then 1 else 0

lemma copiedTopic_ordered : OrderedTopic 2 copiedTopic copiedPartitioner where
  named := by
    rintro (_ | _ | p)
    · decide +kernel
    · decide +kernel
    · exact fun e he => absurd he List.not_mem_nil
  identified := by
    rintro (_ | _ | p) (_ | _ | q)
    iterate 2
      · decide +kernel
      · decide +kernel
      · exact fun e _ e' he' => absurd he' List.not_mem_nil
    iterate 3 exact fun e he => absurd he List.not_mem_nil
  assigned := by
    rintro (_ | _ | p)
    · decide +kernel
    · decide +kernel
    · exact fun e he => absurd he List.not_mem_nil
  inOrder := by
    rintro (_ | _ | p)
    · decide +kernel
    · decide +kernel
    · exact List.Pairwise.nil
  bounded := by
    rintro (_ | _ | p) hp
    · omega
    · omega
    · rfl

/-- The consumer crashes before it has marked the first event, projects it again, and skips the
copy. -/
def crashedRun : List PipelineAction :=
  [.poll 0, .complete, .complete, .crash] ++
    (.poll 1 :: List.replicate 5 .complete) ++ (.poll 0 :: List.replicate 5 .complete) ++
    (.poll 0 :: List.replicate 5 .complete) ++ (.poll 0 :: List.replicate 2 .complete)

/-- Its events once each. -/
def copiedOnce : List Event :=
  [orderCreatedEvent (.nth 0) "order-0" "cust-1" "a@test.com",
    orderCreatedEvent (.nth 2) "order-1" "cust-2" "b@test.com",
    orderItemAddedEvent (.nth 1) "order-0" 2 "prod-1" "Polish" 3 150]

lemma copiedOnce_each : EachOnce copiedTopic copiedOnce where
  mem := by
    refine fun e => ⟨fun he => ?_, fun ⟨p, hp⟩ => ?_⟩
    · have hall : ∀ e ∈ copiedOnce, e ∈ eventsOf copiedTopic (copiedPartitioner e.aggregateId) := by
        decide +kernel
      exact ⟨_, hall e he⟩
    · have hall : ∀ p < 2, ∀ e ∈ eventsOf copiedTopic p, e ∈ copiedOnce := by decide +kernel
      by_cases hlt : p < 2
      · exact hall p hlt e hp
      · rw [eventsOf, copiedTopic_ordered.bounded p (not_lt.mp hlt)] at hp
        exact absurd hp List.not_mem_nil
  inOrder := by decide +kernel

theorem crashedRun_once : ∃ s,
    run Pipeline.step (.init 2 copiedTopic .empty) crashedRun = some s ∧
      (∀ id ∈ s.processed, ∃ e ∈ s.transactions, e.eventId = id) ∧
      run projectToPostgres .empty copiedOnce = some s.readModel := by
  have hend : ((run Pipeline.step (.init 2 copiedTopic .empty) crashedRun).any fun s =>
      decide s.AllCommitted) = true := by
    decide +kernel
  obtain ⟨s, hrun, hall⟩ := exists_run_of_eval hend
  obtain ⟨hmarked, _, honce⟩ :=
    exactly_once copiedTopic_ordered hrun (by decide +kernel)
  exact ⟨s, hrun, hmarked, honce hall _ copiedOnce_each⟩

end OrderCqrs
