import OrderCqrs.Command.Answers
import OrderCqrs.Delivery.ExactlyOnce
import OrderCqrs.Logic.Lists
import OrderCqrs.Platform.Finished
import OrderCqrs.Projection.Simulation

/-!
How the read side follows the write side, while commands go on and the consumer crashes.

* `Calm`: the runs considered, in which no append, no call of `publish` and no call of the consumer
  raises, and no event overtakes an earlier one of its order.
* `Pipeline.over`, `calm_over`: a consumer that reads the topic while it grows might have read the
  topic that it has grown to.
* `CalmInv`: the topic of the consumer is the one that the handlers have written, with the events of
  every order in sequence; `CalmInv.ordered`: **the consumer finds it as exactly-once needs it**.
* `follows_writes`: **the tables show of every order what its log was at some moment**, and the
  aggregate that a command would have loaded then; `never_goes_back`: no read goes back behind it.
* `catches_up`: **in the end they show what its log is**: the tables are those of projecting the
  store.
-/

namespace OrderCqrs

open Runs Stutter

/-! ### A topic that grows under its consumer -/

/-- The pipeline over another topic. -/
def Pipeline.over (s : Pipeline) (topic : ℕ → List Delivery) : Pipeline := { s with topic }

section Over

variable {s t : Pipeline} {c : InFlight} {a : PipelineAction} {topic : ℕ → List Delivery}

/-- No call looks at the topic. -/
lemma complete_over [Btree] (topic : ℕ → List Delivery) (h : s.complete c = some t) :
    (s.over topic).complete c = some (t.over topic) ∧ t.topic = s.topic ∧
      t.partitions = s.partitions := by
  obtain ⟨p, d, pc⟩ := c
  cases pc with
  | project =>
      obtain ⟨rm, hrm, h⟩ := Option.bind_eq_some_iff.mp h
      obtain rfl := Option.some.inj h
      exact ⟨Option.bind_eq_some_iff.mpr ⟨rm, hrm, rfl⟩, rfl, rfl⟩
  | redisExists | commitSkipped | invalidateCache | setProcessed | setExpiry | commit
  | sendToDlq _ | commitFailed =>
      obtain rfl := Option.some.inj h
      exact ⟨rfl, rfl, rfl⟩

/-- **A quiet move over a topic is one over every longer topic.** -/
lemma quiet_over [Btree] (ha : a.Quiet) (h : s.step a = some t)
    (hlonger : ∀ p, s.topic p <+: topic p) :
    (s.over topic).step a = some (t.over topic) ∧ t.topic = s.topic ∧
      t.partitions = s.partitions := by
  cases a with
  | poll p =>
      obtain ⟨hp, hnone, d, hd, rfl⟩ := Pipeline.poll_cases h
      refine ⟨?_, rfl, rfl⟩
      simp only [Pipeline.step, Option.bind_eq_bind, Option.bind_eq_some_iff,
        Option.guard_eq_some']
      exact ⟨(), ⟨hp, hnone⟩, d, ListTables.getElem?_of_isPrefix (hlonger p) hd, rfl⟩
  | complete =>
      obtain ⟨c, hc, hcomplete⟩ := Pipeline.complete_cases h
      obtain ⟨hover, hrest⟩ := complete_over topic hcomplete
      exact ⟨Option.bind_eq_some_iff.mpr ⟨c, hc, hover⟩, hrest⟩
  | crash =>
      obtain rfl := Option.some.inj h
      exact ⟨rfl, rfl, rfl⟩
  | raise _ _ | expire _ | retry _ _ _ => exact ha.elim

/-- What is projected stays projected. -/
lemma quiet_transactions [Btree] (ha : a.Quiet) (h : s.step a = some t) :
    s.transactions <+: t.transactions := by
  cases a with
  | poll p =>
      obtain ⟨_, _, d, _, rfl⟩ := Pipeline.poll_cases h
      exact List.prefix_rfl
  | complete =>
      obtain ⟨c, _, hcomplete⟩ := Pipeline.complete_cases h
      by_cases hpc : c.pc = .project
      · obtain ⟨rm, _, rfl⟩ := Pipeline.complete_project hpc hcomplete
        exact List.prefix_append _ _
      · rw [(Pipeline.complete_of_ne_project hpc hcomplete).2]
  | crash =>
      obtain rfl := Option.some.inj h
      exact List.prefix_rfl
  | raise _ _ | expire _ | retry _ _ _ => exact ha.elim

end Over

/-! ### Calm runs -/

/-- `uuid4` returns no empty identifier. -/
def Action.Named : Action → Prop
  | .await _ _ d => d.orderId ≠ "" ∧ d.stamp.eventId ≠ ""
  | .request _ | .expire _ => True

instance : (a : Action) → Decidable a.Named
  | .await _ _ d => inferInstanceAs (Decidable (d.orderId ≠ "" ∧ _))
  | .request _ | .expire _ => .isTrue trivial

/-- **The moves considered**: of handlers whose writes succeed and do not overtake, and of a
consumer that may crash, but whose calls complete.  No processed key expires, and no document is
deleted. -/
def Calm (s : Platform) : PlatformAction → Prop
  | .command a => FirstAttempt s.write a ∧ NoOvertaking s.write a ∧ a.Named
  | .deliver (.consume a) => a.Quiet
  | .deliver _ => False

/-- What the handler appends or publishes. -/
def Pc.writing : Pc → Option Built
  | .append b | .publish b _ _ => some b
  | _ => none

/-- What the handler sends. -/
def Pc.sending : Pc → Option Built
  | .publish b _ .sendAndWait => some b
  | _ => none

lemma Pc.writing_eq_some {pc : Pc} {b : Built} :
    pc.writing = some b ↔ pc = .append b ∨ ∃ n call, pc = .publish b n call := by
  cases pc <;> simp [writing]

lemma Pc.sending_eq_some {pc : Pc} {b : Built} :
    pc.sending = some b ↔ ∃ n, pc = .publish b n .sendAndWait := by
  cases pc with
  | publish b' n call => cases call <;> simp [sending]
  | _ => simp [sending]

instance (s : State) : (a : Action) → Decidable (FirstAttempt s a)
  | .await i oc _ => decidable_of_iff
      (∀ h ∈ s.handlers[i]?, ∀ b ∈ h.pc.writing, oc = .completes) <| by
    simp only [Option.mem_def, Pc.writing_eq_some, FirstAttempt]
    exact ⟨fun hall h b hget => hall h hget b, fun hall h hget b => hall h b hget⟩
  | .request _ | .expire _ => .isTrue trivial

instance (s : State) : (a : Action) → Decidable (NoOvertaking s a)
  | .await i _ _ => decidable_of_iff
      (∀ h ∈ s.handlers[i]?, ∀ b ∈ h.pc.sending, ∀ g ∈ s.handlers, ∀ b' ∈ g.pc.toSend,
        b'.event.aggregateId = b.event.aggregateId →
        b.event.aggregateVersion ≤ b'.event.aggregateVersion) <| by
    simp only [Option.mem_def, Pc.sending_eq_some, NoOvertaking]
    exact ⟨fun hall h b n hget hpc => hall h hget b ⟨n, hpc⟩,
      fun hall h hget b ⟨n, hpc⟩ => hall h b n hget hpc⟩
  | .request _ | .expire _ => .isTrue trivial

instance (s : Platform) : (a : PlatformAction) → Decidable (Calm s a)
  | .command a => inferInstanceAs
      (Decidable (FirstAttempt s.write a ∧ NoOvertaking s.write a ∧ a.Named))
  | .deliver (.consume a) => inferInstanceAs (Decidable a.Quiet)
  | .deliver (.produce _ _) | .deliver (.receive _) | .deliver (.handOver _ _ _)
  | .deliver (.delete _ _) | .deliver (.stop _) => .isFalse id

/-- What the records of the publisher are to the consumer. -/
def delivered (records : List Record) : List Delivery := records.map fun r => { event := r.value }

section Sends

variable {partitioner : String → ℕ}

/-- The sends of a command lengthen the topic, and change nothing else. -/
lemma sends_run [Btree] {records : List Record} {l l' : RetryLoop}
    (h : run RetryLoop.step l (Platform.sends partitioner records) = some l') :
    (∀ p, l'.pipeline.topic p =
        l.pipeline.topic p ++ delivered (partitionOf partitioner records p)) ∧
      (∀ r ∈ records, partitioner r.key < l.pipeline.partitions) ∧
      ∀ topic, l'.pipeline.over topic = l.pipeline.over topic := by
  induction records generalizing l with
  | nil =>
      obtain rfl := Option.some.inj h
      exact ⟨fun p => (List.append_nil _).symm, fun r hr => absurd hr List.not_mem_nil,
        fun _ => rfl⟩
  | cons r records ih =>
      obtain ⟨u, hu, h⟩ := (run_cons_eq_some _).mp h
      obtain ⟨hp, rfl⟩ := RetryLoop.produce_cases hu
      obtain ⟨htopic, hassigned, hover⟩ := ih h
      refine ⟨fun p => ?_, List.forall_mem_cons.mpr ⟨hp, hassigned⟩, hover⟩
      rw [htopic p, partitionOf, partitionOf, List.filter_cons]
      by_cases heq : partitioner r.key = p
      · subst heq
        simp [Pipeline.produce, delivered]
      · simp [Pipeline.produce, heq, Function.update_of_ne (Ne.symm heq)]

end Sends

namespace Platform

variable {partitioner : String → ℕ} {s t : Platform} {rm₀ : ReadModel} {partitions : ℕ}
  {as : List PlatformAction}

/-- What a calm run does to the pipeline: quiet moves over what the topic has grown to. -/
lemma calm_over [Btree] (hcalm : Along (step partitioner) Calm s as)
    (h : run (step partitioner) s as = some t) {topic : ℕ → List Delivery}
    (htopic : ∀ p, t.loop.pipeline.topic p <+: topic p) :
    (∀ p, s.loop.pipeline.topic p <+: t.loop.pipeline.topic p) ∧
      ∃ bs, (∀ b ∈ bs, b.Quiet) ∧
        run Pipeline.step (s.loop.pipeline.over topic) bs = some (t.loop.pipeline.over topic) := by
  induction as generalizing s with
  | nil =>
      obtain rfl := Option.some.inj h
      exact ⟨fun p => List.prefix_rfl, [], fun b hb => absurd hb List.not_mem_nil, rfl⟩
  | cons a as ih =>
      obtain ⟨u, hu, h⟩ := (run_cons_eq_some _).mp h
      obtain ⟨hgrown, bs, hbs, hrun⟩ := ih (hcalm.2 u hu) h
      have ha := hcalm.1
      cases a with
      | command a =>
          obtain ⟨_, _, hsends⟩ := command_cases hu
          obtain ⟨happend, _, hover⟩ := sends_run hsends
          refine ⟨fun p => List.IsPrefix.trans ?_ (hgrown p), bs, hbs, ?_⟩
          · rw [happend p]
            exact List.prefix_append _ _
          · rw [← hover topic]
            exact hrun
      | deliver b =>
          cases b with
          | consume b =>
              obtain ⟨_, hloop, _⟩ := deliver_cases hu
              obtain ⟨_, hpipeline, _⟩ := RetryLoop.consume_cases hloop
              have hsame : u.loop.pipeline.topic = s.loop.pipeline.topic :=
                (quiet_over ha hpipeline fun p => List.prefix_rfl).2.1
              have hstep := (quiet_over ha hpipeline fun p =>
                (hsame ▸ hgrown p).trans (htopic p)).1
              exact ⟨fun p => hsame ▸ hgrown p, b :: bs, List.forall_mem_cons.mpr ⟨ha, hbs⟩,
                (run_cons_eq_some _).mpr ⟨_, hstep, hrun⟩⟩
          | produce _ _ | receive _ | handOver _ _ _ | delete _ _ | stop _ => exact ha.elim

/-! ### The invariant -/

/-- **The invariant of a calm run.** -/
structure CalmInv (partitioner : String → ℕ) (partitions : ℕ) (s : Platform) : Prop where
  write : CompleteInv s.write
  sequence : TopicInSequence partitioner s.write
  named : "" ∉ s.write.drawn
  partitions_eq : s.loop.pipeline.partitions = partitions
  /-- The consumer reads what the handlers have sent. -/
  records : ∀ p, s.loop.pipeline.topic p = delivered (partitionOf partitioner s.write.topic p)
  assigned : ∀ r ∈ s.write.topic, partitioner r.key < partitions

lemma calmInv_init (partitioner : String → ℕ) (partitions : ℕ) (rm₀ : ReadModel) :
    CalmInv partitioner partitions (.init partitions rm₀) where
  write := completeInv_init
  sequence := fun _ => .nil
  named := List.not_mem_nil
  partitions_eq := rfl
  records := fun _ => rfl
  assigned := fun _ hr => absurd hr List.not_mem_nil

/-- No empty identifier is drawn. -/
lemma named_step {s t : State} {a : Action} (hs : "" ∉ s.drawn) (ha : a.Named)
    (h : OrderCqrs.step s a = some t) : "" ∉ t.drawn := by
  cases a with
  | request cmd =>
      obtain rfl := Option.some.inj h
      exact hs
  | expire key =>
      obtain rfl := Option.some.inj h
      exact hs
  | await i oc d =>
      obtain ⟨_, _, _, _, _, _, rfl⟩ := step_await h
      simp only [List.mem_cons, not_or]
      exact ⟨ha.1.symm, ha.2.symm, hs⟩

/-- A calm move keeps the invariant. -/
lemma calmInv_step [Btree] {a : PlatformAction} (hs : CalmInv partitioner partitions s)
    (ha : Calm s a)
    (h : s.step partitioner a = some t) : CalmInv partitioner partitions t := by
  cases a with
  | command a =>
      obtain ⟨hfirst, hovertakes, hnamed⟩ := ha
      obtain ⟨hwrite, _, hsends⟩ := command_cases h
      obtain ⟨happend, hbelow, hover⟩ := sends_run hsends
      have hprefix : s.write.topic <+: t.write.topic := by
        rcases topic_step hfirst hwrite with hsame | ⟨_, _, _, _, b, _, _, _, _, hnew⟩
        · rw [hsame]
        · rw [hnew]
          exact List.prefix_append _ _
      have hsplit : t.write.topic = s.write.topic ++ t.write.topic.drop s.write.topic.length :=
        List.prefix_iff_eq_append.mp hprefix |>.symm
      refine ⟨completeInv_step hs.write hfirst hwrite,
        topicInSequence_keep hs.write.write hs.write.topic hs.write.send hs.sequence hfirst
          hovertakes hwrite, named_step hs.named hnamed hwrite, ?_, fun p => ?_, fun r hr => ?_⟩
      · exact (congrArg Pipeline.partitions (hover fun _ => [])).trans hs.partitions_eq
      · rw [happend p, hs.records p, delivered, delivered, ← List.map_append, partitionOf,
          partitionOf, ← List.filter_append, ← hsplit]
        rfl
      · rw [hsplit] at hr
        rcases List.mem_append.mp hr with hold | hnew
        · exact hs.assigned r hold
        · exact hs.partitions_eq ▸ hbelow r hnew
  | deliver b =>
      cases b with
      | consume b =>
          obtain ⟨_, hloop, hwrite, _⟩ := deliver_cases h
          obtain ⟨_, hpipeline, _⟩ := RetryLoop.consume_cases hloop
          obtain ⟨_, htopic, hpartitions⟩ := quiet_over ha hpipeline fun p => List.prefix_rfl
          obtain ⟨hw, hseq, hnamed, heq, hrecords, hassigned⟩ := hs
          rw [← hwrite] at hw hseq hnamed hrecords hassigned
          rw [← hpartitions] at heq
          rw [← htopic] at hrecords
          exact ⟨hw, hseq, hnamed, heq, hrecords, hassigned⟩
      | produce _ _ | receive _ | handOver _ _ _ | delete _ _ | stop _ => exact ha.elim

namespace CalmInv

/-- The events of a partition. -/
lemma eventsOf_eq (hs : CalmInv partitioner partitions s) (p : ℕ) :
    eventsOf s.loop.pipeline.topic p = (partitionOf partitioner s.write.topic p).map (·.value) := by
  rw [eventsOf, hs.records p, delivered, List.map_map]
  rfl

/-- An event of a partition is stored, and the partition is that of its order. -/
lemma mem_eventsOf (hs : CalmInv partitioner partitions s) {p : ℕ} {e : Event} :
    e ∈ eventsOf s.loop.pipeline.topic p ↔
      (∃ r ∈ s.write.topic, r.value = e) ∧ partitioner e.aggregateId = p := by
  rw [hs.eventsOf_eq, List.mem_map]
  constructor
  · rintro ⟨r, hr, rfl⟩
    obtain ⟨hin, hp⟩ := List.mem_filter.mp hr
    exact ⟨⟨r, hin, rfl⟩, hs.write.send.keyed r hin ▸ of_decide_eq_true hp⟩
  · rintro ⟨⟨r, hr, rfl⟩, hp⟩
    refine ⟨r, List.mem_filter.mpr ⟨hr, decide_eq_true ?_⟩, rfl⟩
    rw [hs.write.send.keyed r hr, hp]

/-- The events of an order, in its partition. -/
lemma eventsOf_order (hs : CalmInv partitioner partitions s) (o : String) :
    (eventsOf s.loop.pipeline.topic (partitioner o)).filter (·.aggregateId = o) =
      ((partitionOf partitioner s.write.topic (partitioner o)).filter fun r => r.key = o).map
        (·.value) := by
  rw [hs.eventsOf_eq, List.filter_map]
  refine congrArg _ (List.filter_congr fun r hr => ?_)
  rw [hs.write.send.keyed r (List.mem_of_mem_filter hr)]
  rfl

/-- They are in version order. -/
lemma order_increasing (hs : CalmInv partitioner partitions s) (o : String) :
    ((eventsOf s.loop.pipeline.topic (partitioner o)).filter (·.aggregateId = o)).Pairwise
      Event.Earlier := by
  have hinc := (hs.sequence o).increasing
  rw [topicVersions, List.pairwise_map] at hinc
  rw [hs.eventsOf_order o, List.pairwise_map]
  exact hinc

/-- The events of a partition precede one another. -/
lemma precedes (hs : CalmInv partitioner partitions s) (p : ℕ) :
    (eventsOf s.loop.pipeline.topic p).Pairwise Event.Precedes := by
  refine ListTables.pairwise_of_filter fun o => ?_
  by_cases hp : partitioner o = p
  · exact hp ▸ hs.order_increasing o
  · have hnone : (eventsOf s.loop.pipeline.topic p).filter (·.aggregateId = o) = [] := by
      refine List.filter_eq_nil_iff.mpr fun e he ho => hp ?_
      rw [← of_decide_eq_true ho]
      exact (hs.mem_eventsOf.mp he).2
    rw [hnone]
    exact List.Pairwise.nil

lemma nodup (hs : CalmInv partitioner partitions s) (p : ℕ) :
    (eventsOf s.loop.pipeline.topic p).Nodup := by
  refine (hs.precedes p).imp ?_
  rintro a _ hprec rfl
  exact absurd (hprec rfl) (lt_irrefl a.aggregateVersion)

/-- **The topic is one that the consumer reads exactly once.** -/
lemma ordered (hs : CalmInv partitioner partitions s) :
    OrderedTopic partitions s.loop.pipeline.topic partitioner where
  named := by
    intro p e he hid
    obtain ⟨⟨r, hr, rfl⟩, _⟩ := hs.mem_eventsOf.mp he
    obtain ⟨h, hh, b, hb, heq⟩ := hs.write.write.stored _ (hs.write.topic.stored r hr)
    refine hs.named ?_
    rw [← hid, ← heq]
    exact (hs.write.write.drawnBuilt h hh b hb).1
  identified := by
    intro p q e he e' he' hid
    obtain ⟨⟨r, hr, rfl⟩, _⟩ := hs.mem_eventsOf.mp he
    obtain ⟨⟨r', hr', rfl⟩, _⟩ := hs.mem_eventsOf.mp he'
    exact hs.write.write.eq_of_eventId_eq (hs.write.topic.stored r hr)
      (hs.write.topic.stored r' hr') hid
  assigned := fun p e he => (hs.mem_eventsOf.mp he).2
  inOrder := by
    intro p
    rw [firstCopies_eq_self (hs.nodup p)]
    exact hs.precedes p
  bounded := by
    intro p hp
    rw [hs.records p, delivered, partitionOf, List.map_eq_nil_iff, List.filter_eq_nil_iff]
    intro r hr heq
    have hlt := hs.assigned r hr
    rw [of_decide_eq_true heq] at hlt
    omega

/-- **What is sent of an order is the beginning of its log.** -/
lemma events_prefix (hs : CalmInv partitioner partitions s) (o : String) :
    (eventsOf s.loop.pipeline.topic (partitioner o)).filter (·.aggregateId = o) <+:
      orderLog s.write.store o := by
  have hw := hs.write.write
  have hlog : (orderLog s.write.store o).Pairwise Event.Earlier := by
    rcases hw.legal o with hnil | hlegal
    · rw [hnil]
      exact List.Pairwise.nil
    · exact hlegal.versions_lt
  refine ListTables.prefix_of_closed (hs.order_increasing o) hlog (fun e he => ?_)
    fun e he d hd hlt => ?_
  · obtain ⟨hin, ho⟩ := List.mem_filter.mp he
    obtain ⟨⟨r, hr, rfl⟩, _⟩ := hs.mem_eventsOf.mp hin
    exact mem_orderLog.mpr ⟨hs.write.topic.stored r hr, of_decide_eq_true ho⟩
  · -- no smaller version is missing in the topic
    obtain ⟨hstored, ho⟩ := mem_orderLog.mp hd
    have hversions : ∀ v, v ∈ topicVersions partitioner s.write.topic o ↔
        ∃ e ∈ (eventsOf s.loop.pipeline.topic (partitioner o)).filter (·.aggregateId = o),
          e.aggregateVersion = v := by
      intro v
      rw [hs.eventsOf_order o, topicVersions]
      simp
    obtain ⟨d', hd', hv⟩ := (hversions _).mp ((hs.sequence o).complete _
      ((hversions _).mpr ⟨e, he, rfl⟩) d.aggregateVersion (hw.one_le_version hstored) hlt)
    obtain ⟨hin', ho'⟩ := List.mem_filter.mp hd'
    obtain ⟨⟨r, hr, rfl⟩, _⟩ := hs.mem_eventsOf.mp hin'
    have heq := hw.eq_of_version_eq (hs.write.topic.stored r hr) hstored
      ((of_decide_eq_true ho').trans ho.symm) hv
    exact heq ▸ hd'

/-- With no handler in flight, all of it is sent. -/
lemma events_eq (hs : CalmInv partitioner partitions s) (hquiescent : s.write.Quiescent)
    (o : String) : (eventsOf s.loop.pipeline.topic (partitioner o)).filter (·.aggregateId = o) =
      orderLog s.write.store o := by
  refine (hs.events_prefix o).eq_of_length_le (List.Subperm.length_le ?_)
  have hnodup : (orderLog s.write.store o).Nodup := hs.write.write.orderLog_nodup o
  refine hnodup.subperm fun e he => ?_
  obtain ⟨hin, ho⟩ := mem_orderLog.mp he
  have hsent : ∃ r ∈ s.write.topic, r.value = e := by
    refine (hs.write.send.accounted e hin).resolve_right ?_
    rintro ⟨h, hh, b, hb, _⟩
    have hended := hquiescent h hh
    cases hpc : h.pc <;> simp_all [Pc.toSend, Pc.Ended]
  exact List.mem_filter.mpr ⟨hs.mem_eventsOf.mpr ⟨hsent, congrArg partitioner ho⟩,
    decide_eq_true ho⟩

/-- **What is projected of an order is the beginning of its log**, every event once or several
times in a row; and all of it, when everything is sent and committed. -/
lemma stutters (hs : CalmInv partitioner partitions s)
    (honce : OnceInv partitions s.loop.pipeline.topic partitioner s.loop.pipeline) (o : String) :
    ∃ k ≤ (orderLog s.write.store o).length,
      Stutters (s.loop.pipeline.transactions.filter (·.aggregateId = o))
        ((orderLog s.write.store o).take k) ∧
      (s.write.Quiescent → s.loop.pipeline.AllCommitted →
        k = (orderLog s.write.store o).length) := by
  have hfilter := filter_projectionsOf partitioner s.loop.pipeline.transactions o
  by_cases hend : s.write.Quiescent ∧ s.loop.pipeline.AllCommitted
  · refine ⟨_, le_rfl, ?_, fun _ _ => rfl⟩
    have hall := (honce.stutters hs.ordered hend.2 (partitioner o)).filter (·.aggregateId = o)
    rw [hfilter, firstCopies_eq_self (hs.nodup _), hs.events_eq hend.1 o] at hall
    rw [List.take_length]
    exact hall
  · obtain ⟨m, _, hst⟩ := honce.history (partitioner o)
    rw [firstCopies_eq_self ((hs.nodup _).sublist (List.take_sublist _ _))] at hst
    have hbegin : ((eventsOf s.loop.pipeline.topic (partitioner o)).take m).filter
        (·.aggregateId = o) <+: orderLog s.write.store o :=
      ((List.take_prefix _ _).filter _).trans (hs.events_prefix o)
    refine ⟨_, hbegin.length_le, ?_, fun hq hc => absurd ⟨hq, hc⟩ hend⟩
    rw [← List.prefix_iff_eq_take.mp hbegin, ← hfilter]
    exact hst.filter _

end CalmInv

/-- What is known of the end of a calm run. -/
lemma calm_run [Btree] (hrun : run (step partitioner) (.init partitions rm₀) as = some s)
    (hcalm : Along (step partitioner) Calm (.init partitions rm₀) as) :
    CalmInv partitioner partitions s ∧
      OnceInv partitions s.loop.pipeline.topic partitioner s.loop.pipeline ∧
      s.loop.pipeline.Projected rm₀ := by
  have hs : CalmInv partitioner partitions s :=
    preserves_along (fun hs ha h => calmInv_step hs ha h) (calmInv_init partitioner partitions rm₀)
      hcalm hrun
  obtain ⟨_, bs, hbs, hover⟩ := calm_over hcalm hrun
    (fun p => List.prefix_rfl : ∀ p, s.loop.pipeline.topic p <+: s.loop.pipeline.topic p)
  -- the run of the consumer over the topic at the end
  have hrun' : run Pipeline.step (.init partitions s.loop.pipeline.topic rm₀) bs =
      some s.loop.pipeline := hover
  refine ⟨hs, ?_, run_preserves Pipeline.projected_step Pipeline.projected_init hrun'⟩
  exact preserves_along (C := fun _ a => a.Quiet) (fun hu ha h => hu.step hs.ordered ha h)
    (onceInv_init rm₀) (along_of_forall (fun a ha _ => hbs a ha) _) hrun'

end Platform

/-! ### What the tables show -/

/-- **The tables show a log of an order**: its rows are those of projecting the log, and the columns
of its row are those of the aggregate that is rebuilt from it. -/
structure Shows [Btree] (rm₀ rm : ReadModel) (o : String) (log : List Event) : Prop where
  rows : ∃ rm', run projectToPostgres rm₀ log = some rm' ∧ rm.view o = rm'.view o
  columns : (rm.orders.lookup o).map OrderRow.state =
    (rebuildFromEvents log).toOption.map OrderAggregate.state

/-- An order is created, and the consumer crashes after it has projected the creation. -/
def crashedStart : List PlatformAction :=
  (cancelSchedule.take 7).map .command ++
    [.deliver (.consume (.poll 0)), .deliver (.consume .complete), .deliver (.consume .complete),
      .deliver (.consume .crash)]

/-- The order is cancelled, and the consumer handles both its events. -/
def caughtUp : List PlatformAction :=
  (cancelSchedule.drop 7).map .command ++ consumes 5 ++ consumes 6

section Reads

variable {partitioner : String → ℕ} {partitions : ℕ} {rm₀ : ReadModel} {o : String}

/-- The first events of a stored log rebuild to what they project to. -/
lemma columns_take [Btree] {w : State} (hw : WriteInv w) (hnew : o ∉ rm₀.orders) {k : ℕ}
    {rm : ReadModel}
    (hrun : run projectToPostgres rm₀ ((orderLog w.store o).take k) = some rm) :
    (rm.orders.lookup o).map OrderRow.state =
      (rebuildFromEvents ((orderLog w.store o).take k)).toOption.map OrderAggregate.state := by
  rcases Nat.eq_zero_or_pos k with rfl | hk
  · obtain rfl := Option.some.inj hrun
    rw [Finmap.lookup_eq_none.mpr hnew]
    rfl
  rcases hw.legal o with hnil | hlegal
  · rw [hnil, List.take_nil] at hrun ⊢
    obtain rfl := Option.some.inj hrun
    rw [Finmap.lookup_eq_none.mpr hnew]
    rfl
  · have hevents := (hlegal.take hk).orderEvents
    have hrow := run_orderState hnew hevents.order hrun
    rw [hevents.rebuild_eq]
    exact hrow.trans (replay_state hevents).symm

/-- **The read side follows the write side.**  At every moment of a calm run, and whatever the
consumer has lost in crashes, the tables show of every order the first events of its log. -/
theorem follows_writes [Btree] {as : List PlatformAction} {s : Platform}
    (hrun : run (Platform.step partitioner) (.init partitions rm₀) as = some s)
    (hcalm : Along (Platform.step partitioner) Calm (.init partitions rm₀) as)
    (hnew : o ∉ rm₀.orders) :
    ∃ k ≤ (getEvents s.write.store o).length,
      Shows rm₀ s.loop.pipeline.readModel o ((getEvents s.write.store o).take k) := by
  obtain ⟨hs, honce, hproj⟩ := Platform.calm_run hrun hcalm
  obtain ⟨k, hk, hst, _⟩ := hs.stutters honce o
  obtain ⟨rm, hrm, hview⟩ := projection_local.run_filter (k := o) rfl hproj
  rw [hst.run_eq projectToPostgres project_idem] at hrm
  rw [hs.write.write.getEvents_eq o]
  refine ⟨k, hk, ⟨rm, hrm, hview⟩, ?_⟩
  have hrow : s.loop.pipeline.readModel.orders.lookup o = rm.orders.lookup o :=
    congrArg OrderView.row hview
  rw [hrow]
  exact columns_take hs.write.write hnew hrm

theorem crashedStart_shown : ∃ s : Platform, ∃ k,
    run (Platform.step fun _ => 0) (.init 1 .empty) crashedStart = some s ∧
      Shows .empty s.loop.pipeline.readModel "order-0"
        ((getEvents s.write.store "order-0").take k) := by
  obtain ⟨s, hrun⟩ := Option.isSome_iff_exists.mp
    (by decide +kernel :
      (run (Platform.step fun _ => 0) (.init 1 .empty) crashedStart).isSome = true)
  have hcalm : Along (Platform.step fun _ => 0) Calm (.init 1 .empty) crashedStart := by
    decide +kernel
  obtain ⟨k, _, hshows⟩ := follows_writes hrun hcalm Finmap.notMem_empty
  exact ⟨s, k, hrun, hshows⟩

/-- When all is sent and committed, every order is projected to the end of its log. -/
lemma stutters_store {s : Platform} (hs : Platform.CalmInv partitioner partitions s)
    (honce : OnceInv partitions s.loop.pipeline.topic partitioner s.loop.pipeline)
    (hquiescent : s.write.Quiescent) (hall : s.loop.pipeline.AllCommitted) (o : String) :
    Stutters (s.loop.pipeline.transactions.filter (·.aggregateId = o))
      (orderLog s.write.store o) := by
  obtain ⟨k, _, hst, hk⟩ := hs.stutters honce o
  rw [hk hquiescent hall, List.take_length] at hst
  exact hst

/-- The tables are then those of projecting the store. -/
lemma run_store [Btree] {s : Platform} (hs : Platform.CalmInv partitioner partitions s)
    (honce : OnceInv partitions s.loop.pipeline.topic partitioner s.loop.pipeline)
    (hproj : s.loop.pipeline.Projected rm₀) (hquiescent : s.write.Quiescent)
    (hall : s.loop.pipeline.AllCommitted) :
    run projectToPostgres rm₀ s.write.store = some s.loop.pipeline.readModel := by
  refine projection_local.run_congr hproj fun o => ?_
  rw [(stutters_store hs honce hquiescent hall o).run_eq projectToPostgres project_idem]
  rfl

/-- **The read side catches up.**  When no handler is in flight and every record is committed, the
tables are those of projecting the store, and the row of every order has the customer, the status,
the version, the payment and the tracking number that a command loads. -/
theorem catches_up [Btree] {as : List PlatformAction} {s : Platform}
    (hrun : run (Platform.step partitioner) (.init partitions rm₀) as = some s)
    (hcalm : Along (Platform.step partitioner) Calm (.init partitions rm₀) as)
    (hquiescent : s.write.Quiescent) (hall : s.loop.pipeline.AllCommitted) :
    run projectToPostgres rm₀ s.write.store = some s.loop.pipeline.readModel ∧
      ∀ o, o ∉ rm₀.orders → (s.loop.pipeline.readModel.orders.lookup o).map OrderRow.state =
        (loadAggregate s.write.store o).toOption.map OrderAggregate.state := by
  obtain ⟨hs, honce, hproj⟩ := Platform.calm_run hrun hcalm
  refine ⟨run_store hs honce hproj hquiescent hall, fun o hnew => ?_⟩
  obtain ⟨rm, hrm, hview⟩ := projection_local.run_filter (k := o) rfl hproj
  rw [(stutters_store hs honce hquiescent hall o).run_eq projectToPostgres project_idem,
    ← List.take_length (l := orderLog _ o)] at hrm
  have hrow : s.loop.pipeline.readModel.orders.lookup o = rm.orders.lookup o :=
    congrArg OrderView.row hview
  rw [hrow, columns_take hs.write.write hnew hrm, List.take_length]
  cases hlog : orderLog s.write.store o with
  | nil =>
      rw [loadAggregate_of_nil hlog]
      rfl
  | cons e es =>
      have hlegal := (hs.write.write.legal o).resolve_left (hlog ▸ List.cons_ne_nil e es)
      rw [← hlog, loadAggregate_of_legal hlegal, hlegal.rebuild_eq]

theorem caughtUp_shown : ∃ s : Platform,
    run (Platform.step fun _ => 0) (.init 1 .empty) (crashedStart ++ caughtUp) = some s ∧
      run projectToPostgres .empty s.write.store = some s.loop.pipeline.readModel ∧
      s.write.store.map (·.eventType) = [.orderCreated, .orderCancelled] := by
  obtain ⟨s, hrun, hquiescent, hall, hstore⟩ := exists_run_of_eval
    (by decide +kernel : ((run (Platform.step fun _ => 0) (.init 1 .empty)
      (crashedStart ++ caughtUp)).any fun s => decide (s.write.Quiescent ∧
        s.loop.pipeline.AllCommitted ∧
        s.write.store.map (·.eventType) = [.orderCreated, .orderCancelled])) = true)
  have hcalm : Along (Platform.step fun _ => 0) Calm (.init 1 .empty)
      (crashedStart ++ caughtUp) := by
    decide +kernel
  exact ⟨s, hrun, (catches_up hrun hcalm hquiescent hall).1, hstore⟩

/-- The version that is shown of an order is the number of its events that are projected. -/
lemma version_shown [Btree] {s : Platform} (hs : Platform.CalmInv partitioner partitions s)
    (honce : OnceInv partitions s.loop.pipeline.topic partitioner s.loop.pipeline)
    (hproj : s.loop.pipeline.Projected rm₀) (hnew : o ∉ rm₀.orders) :
    ∃ k ≤ (orderLog s.write.store o).length,
      (∀ e, e ∈ s.loop.pipeline.transactions ∧ e.aggregateId = o ↔
        e ∈ (orderLog s.write.store o).take k) ∧
      (s.loop.pipeline.readModel.orders.lookup o).map (·.version.val) =
        if k = 0 then none else some (k : ℤ) := by
  obtain ⟨k, hk, hst, _⟩ := hs.stutters honce o
  refine ⟨k, hk, fun e => ?_, ?_⟩
  · rw [← hst.mem_iff, List.mem_filter, decide_eq_true_iff]
  obtain ⟨rm, hrm, hview⟩ := projection_local.run_filter (k := o) rfl hproj
  rw [hst.run_eq projectToPostgres project_idem] at hrm
  have hrow : s.loop.pipeline.readModel.orders.lookup o = rm.orders.lookup o :=
    congrArg OrderView.row hview
  have hcolumns := congrArg (Option.map OrderState.version) (columns_take hs.write.write hnew hrm)
  rw [Option.map_map, Option.map_map] at hcolumns
  rw [hrow]
  refine (hcolumns : (rm.orders.lookup o).map (·.version.val) = _).trans ?_
  rcases Nat.eq_zero_or_pos k with rfl | hpos
  · rfl
  · have hne : orderLog s.write.store o ≠ [] := List.ne_nil_of_length_pos (hpos.trans_le hk)
    have hlegal := (hs.write.write.legal o).resolve_left hne
    rw [(hlegal.take hpos).rebuild_eq, if_neg hpos.ne']
    exact congrArg some (hlegal.take_version hpos hk)

/-- The latest version of an order is the number of its events. -/
lemma WriteInv.latestVersion_eq {w : State} (hw : WriteInv w) (o : String) :
    getLatestVersion w.store o = (orderLog w.store o).length := by
  rw [getLatestVersion, hw.getEvents_eq o, ← List.getLast?_map]
  rcases hw.legal o with hnil | hlegal
  · rw [hnil]
    rfl
  · obtain ⟨n, hn⟩ := Nat.exists_eq_succ_of_ne_zero hlegal.length_pos.ne'
    rw [hlegal.versions_eq, hn, versionsUpTo_succ, List.getLast?_concat, Option.getD_some,
      Nat.cast_succ]

/-- **Reads never go back.**  In a calm run the version that is shown of an order does not fall,
and it is never ahead of the stored events. -/
theorem never_goes_back [Btree] {as bs : List PlatformAction} {s t : Platform} {row : OrderRow}
    (hrun : run (Platform.step partitioner) (.init partitions rm₀) as = some s)
    (hnext : run (Platform.step partitioner) s bs = some t)
    (hcalm : Along (Platform.step partitioner) Calm (.init partitions rm₀) (as ++ bs))
    (hnew : o ∉ rm₀.orders) (hrow : s.loop.pipeline.readModel.orders.lookup o = some row) :
    ∃ row', t.loop.pipeline.readModel.orders.lookup o = some row' ∧
      row.version.val ≤ row'.version.val ∧
      row'.version.val ≤ getLatestVersion t.write.store o := by
  obtain ⟨hcalm₁, hcalm₂⟩ := (along_append hrun).mp hcalm
  obtain ⟨hs, honce, hproj⟩ := Platform.calm_run hrun hcalm₁
  obtain ⟨ht, honce', hproj'⟩ :=
    Platform.calm_run ((run_append_eq_some _).mpr ⟨s, hrun, hnext⟩) hcalm
  obtain ⟨k, hk, hmem, hversion⟩ := version_shown hs honce hproj hnew
  obtain ⟨k', hk', hmem', hversion'⟩ := version_shown ht honce' hproj' hnew
  have hgrown : s.loop.pipeline.transactions ⊆ t.loop.pipeline.transactions := by
    obtain ⟨_, qs, hqs, hover⟩ := Platform.calm_over hcalm₂ hnext
      (fun p => List.prefix_rfl : ∀ p, t.loop.pipeline.topic p <+: t.loop.pipeline.topic p)
    exact preserves_along (P := fun u => s.loop.pipeline.transactions ⊆ u.transactions)
      (C := fun _ q => q.Quiet)
      (fun hu hq h => List.Subset.trans hu (quiet_transactions hq h).subset)
      (List.Subset.refl _) (along_of_forall (fun q hq _ => hqs q hq) _) hover
  rw [hrow, Option.map_some] at hversion
  have hpos : k ≠ 0 := by
    rintro rfl
    cases hversion
  rw [if_neg hpos, Option.some.injEq] at hversion
  -- the last event that the first state shows is projected in the second
  have hle : k ≤ k' := by
    have hlegal := (hs.write.write.legal o).resolve_left
      (List.ne_nil_of_length_pos ((Nat.pos_of_ne_zero hpos).trans_le hk))
    obtain ⟨e, he⟩ : ∃ e, (orderLog s.write.store o)[k - 1]? = some e :=
      ⟨_, List.getElem?_eq_getElem (by omega)⟩
    have hshown : e ∈ (orderLog s.write.store o).take k :=
      List.mem_of_getElem? (i := k - 1) (by rw [List.getElem?_take_of_lt (by omega), he])
    obtain ⟨hin, ho⟩ := (hmem e).mpr hshown
    have hlater := (hmem' e).mp ⟨hgrown hin, ho⟩
    have hlegal' := (ht.write.write.legal o).resolve_left
      (List.ne_nil_of_mem (List.mem_of_mem_take hlater))
    have hpos' : 0 < k' := by
      rw [Nat.pos_iff_ne_zero]
      rintro rfl
      exact absurd hlater List.not_mem_nil
    have hbound := List.mem_map_of_mem (f := (·.aggregateVersion)) hlater
    rw [(hlegal'.take hpos').versions_eq, mem_versionsUpTo, List.length_take] at hbound
    have hindex := hlegal.version_getElem? he
    omega
  obtain ⟨row', hrow', hnum⟩ := Option.map_eq_some_iff.mp
    (hversion'.trans (if_neg (by omega : k' ≠ 0)))
  refine ⟨row', hrow', ?_, ?_⟩
  · rw [hversion, hnum]
    exact_mod_cast hle
  · rw [hnum, ht.write.write.latestVersion_eq o]
    exact_mod_cast hk'

theorem caughtUp_later : ∃ s t : Platform, ∃ row row' : OrderRow,
    run (Platform.step fun _ => 0) (.init 1 .empty) crashedStart = some s ∧
      run (Platform.step fun _ => 0) s caughtUp = some t ∧
      s.loop.pipeline.readModel.orders.lookup "order-0" = some row ∧
      t.loop.pipeline.readModel.orders.lookup "order-0" = some row' ∧
      row.version.val ≤ row'.version.val := by
  obtain ⟨s, hrun, hnext, hrow⟩ := exists_run_of_eval
    (by decide +kernel : ((run (Platform.step fun _ => 0) (.init 1 .empty) crashedStart).any
      fun s => decide ((run (Platform.step fun _ => 0) s caughtUp).isSome ∧
        (s.loop.pipeline.readModel.orders.lookup "order-0").isSome)) = true)
  obtain ⟨t, hnext⟩ := Option.isSome_iff_exists.mp hnext
  obtain ⟨row, hrow⟩ := Option.isSome_iff_exists.mp hrow
  have hcalm : Along (Platform.step fun _ => 0) Calm (.init 1 .empty)
      (crashedStart ++ caughtUp) := by
    decide +kernel
  obtain ⟨row', hrow', hle, _⟩ := never_goes_back hrun hnext hcalm Finmap.notMem_empty hrow
  exact ⟨s, t, row, row', hrun, hnext, hrow, hrow', hle⟩

end Reads

end OrderCqrs
