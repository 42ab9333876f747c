import OrderCqrs.Delivery.RetryLoop

/-!
The offsets of the consumer over the whole loop, whatever fails, and the loop at rest.

* `Pipeline.Offsets`: the record in the consumer's hands is all that is received and not committed;
  `Pipeline.Offsets.consume` is the step lemma.
* `RetryLoop.Sound`: the offsets are in order, nothing is sent outside the partitions, and the
  Lambda knows only messages that have been sent; `sound_step` says that every move keeps that.
* `RetryLoop.AtRest`: nothing is left to be done.
-/

namespace OrderCqrs

open Runs ListTables Partitions

/-- How often the Lambda has published a record again. -/
def Delivery.count (d : Delivery) : ℕ := d.retryCount.getD 0

/-- A record is appended to a partition. -/
def Pipeline.send (s : Pipeline) (p : ℕ) (d : Delivery) : Pipeline :=
  { s with topic := Function.update s.topic p (s.topic p ++ [d]) }

namespace Pipeline

variable {s : Pipeline} {p : ℕ} {m : DlqMessage}

@[simp] lemma handOver_committed : (s.handOver p m).committed = s.committed := by
  unfold handOver
  split <;> rfl

@[simp] lemma handOver_dlq : (s.handOver p m).dlq = s.dlq := by
  unfold handOver
  split <;> rfl

end Pipeline

/-! ### Offsets -/

/-- The offsets, and the record in the consumer's hands: it is all that is received and not
committed. -/
structure Pipeline.Offsets (s : Pipeline) : Prop where
  holds : s.Holds
  bound : ∀ p, s.position p ≤ (s.topic p).length
  behind : ∀ p, s.committed p = s.position p ∨
    ∃ c, s.current = some c ∧ c.partition = p ∧ s.position p = s.committed p + 1

lemma Pipeline.Offsets.le {s : Pipeline} (hs : s.Offsets) (p : ℕ) :
    s.committed p ≤ s.position p := by
  rcases hs.behind p with heq | ⟨_, _, _, heq⟩ <;> omega

/-- The other partitions are committed as far as they are received. -/
lemma Pipeline.Offsets.committed_of_ne {s : Pipeline} (hs : s.Offsets) {c : InFlight}
    (hc : s.current = some c) {p : ℕ} (hp : p ≠ c.partition) : s.committed p = s.position p := by
  rcases hs.behind p with heq | ⟨c', hc', rfl, _⟩
  · exact heq
  · obtain rfl := Option.some.inj (hc.symm.trans hc')
    exact absurd rfl hp

/-- A call that completes leaves the committed offsets alone and goes on with its record, or commits
the positions. -/
lemma Pipeline.complete_committed [Btree] {s t : Pipeline} {c : InFlight}
    (h : s.complete c = some t) :
    t.committed = s.committed ∧ (∃ pc, t.current = some { c with pc }) ∨ t = s.commit := by
  obtain ⟨p, d, pc⟩ := c
  cases pc with
  | project =>
      obtain ⟨rm, _, rfl⟩ := complete_project rfl h
      exact Or.inl ⟨rfl, _, rfl⟩
  | commitSkipped | commit | commitFailed => exact Or.inr (Option.some.inj h).symm
  | redisExists | invalidateCache | setProcessed | setExpiry | sendToDlq error =>
      obtain rfl := Option.some.inj h
      exact Or.inl ⟨rfl, _, rfl⟩

namespace Pipeline.Offsets

variable {s t : Pipeline} {c : InFlight}

lemma commit (hs : s.Offsets) : s.commit.Offsets where
  holds := by simp [Holds, Pipeline.commit]
  bound := hs.bound
  behind := fun _ => Or.inl rfl

lemma complete [Btree] (hs : s.Offsets) (hc : s.current = some c) (h : s.complete c = some t) :
    t.Offsets := by
  have hholds : t.Holds := holds_consume (a := .complete) trivial hs.holds (by
    rw [step, hc]
    exact h)
  rcases complete_committed h with ⟨hcommitted, pc, hcur⟩ | rfl
  · obtain ⟨hpos, htopic, _⟩ := complete_goto h
    refine ⟨hholds, fun p => ?_, fun p => ?_⟩
    · rw [hpos, htopic]
      exact hs.bound p
    · rw [hpos, hcommitted]
      refine (hs.behind p).imp_right ?_
      rintro ⟨c', hc', hp, heq⟩
      obtain rfl := Option.some.inj (hc.symm.trans hc')
      exact ⟨_, hcur, hp, heq⟩
  · exact hs.commit

/-- The record in hand goes to another call, or is read again. -/
lemma raise (hs : s.Offsets) (error : String)
    (hheld : ∃ k, s.position c.partition = k + 1 ∧ (s.topic c.partition)[k]? = some c.delivery)
    (hcur : ∀ c', s.current = some c' → c'.partition = c.partition) :
    (s.raise c error).Offsets := by
  rcases s.raise_eq c error with ⟨pc, _, heq⟩ | heq <;> rw [heq]
  · refine ⟨?_, hs.bound, fun p => (hs.behind p).imp_right ?_⟩
    · intro c' hc'
      obtain rfl := Option.some.inj hc'
      exact hheld
    · rintro ⟨c', hc', hp, hpos⟩
      exact ⟨_, rfl, (hcur c' hc').symm.trans hp, hpos⟩
  · exact ⟨by simp [Holds, restart], fun p => (hs.le p).trans (hs.bound p), fun _ => Or.inl rfl⟩

/-- **The consumer's moves keep its offsets in order.** -/
theorem consume [Btree] (hs : s.Offsets) {a : PipelineAction} (ha : a.Consumes)
    (h : s.step a = some t) :
    t.Offsets := by
  cases a with
  | poll p =>
      have hholds := holds_consume ha hs.holds h
      obtain ⟨_, hnone, d, hd, rfl⟩ := poll_cases h
      refine ⟨hholds, advance_le hs.bound hd, fun q => ?_⟩
      have hcaught : s.committed q = s.position q := by
        rcases hs.behind q with heq | ⟨c, hc, _⟩
        · exact heq
        · simp [hnone] at hc
      by_cases hq : q = p
      · subst hq
        exact Or.inr ⟨_, rfl, rfl, by simp [hcaught]⟩
      · exact Or.inl (hcaught.trans (Function.update_of_ne hq ..).symm)
  | complete =>
      obtain ⟨c, hc, hcomp⟩ := complete_cases h
      exact hs.complete hc hcomp
  | raise afterEffect error =>
      cases afterEffect with
      | true =>
          obtain ⟨c, u, hc, hu, rfl⟩ := raise_after_cases h
          obtain ⟨hpos, htopic, hcur⟩ := complete_goto hu
          refine (hs.complete hc hu).raise error ?_ fun c' hc' => ?_
          · rw [hpos, htopic]
            exact hs.holds c hc
          · rcases hcur with ⟨pc, heq⟩ | heq
            · obtain rfl := Option.some.inj (heq.symm.trans hc')
              rfl
            · simp [heq] at hc'
      | false =>
          obtain ⟨c, hc, rfl⟩ := raise_cases h
          refine hs.raise error (hs.holds c hc) fun c' hc' => ?_
          obtain rfl := Option.some.inj (hc.symm.trans hc')
          rfl
  | crash =>
      obtain rfl := Option.some.inj h
      exact ⟨by simp [Holds, restart], fun p => (hs.le p).trans (hs.bound p), fun _ => Or.inl rfl⟩
  | expire eventId =>
      obtain rfl := Option.some.inj h
      exact ⟨hs.holds, hs.bound, hs.behind⟩
  | retry i p outcome => exact ha.elim

lemma send (hs : s.Offsets) (p : ℕ) (d : Delivery) : (s.send p d).Offsets where
  holds := holds_send hs.holds p d
  bound := fun q => (hs.bound q).trans (isPrefix_send s.topic p d q).length_le
  behind := hs.behind

lemma handOver (hs : s.Offsets) (p : ℕ) (m : DlqMessage) : (s.handOver p m).Offsets := by
  rcases s.handOver_cases p m with ⟨_, d, _, _, heq⟩ | ⟨_, letter, _, heq⟩ <;> rw [heq]
  · exact hs.send p d
  · exact ⟨hs.holds, hs.bound, hs.behind⟩

end Pipeline.Offsets

/-- Nothing is sent outside the partitions. -/
def Pipeline.Inside (s : Pipeline) : Prop := ∀ p, s.partitions ≤ p → s.topic p = []

namespace Pipeline.Inside

variable {s : Pipeline} {p : ℕ}

lemma send (hs : s.Inside) (hp : p < s.partitions) (d : Delivery) : (s.send p d).Inside := by
  intro q hq
  have hne : q ≠ p := by
    rintro rfl
    exact absurd hp (not_lt.mpr hq)
  exact (Function.update_of_ne hne ..).trans (hs q hq)

lemma handOver (hs : s.Inside) (hp : p < s.partitions) (m : DlqMessage) :
    (s.handOver p m).Inside := by
  unfold Pipeline.handOver
  split
  · exact hs.send hp _
  · exact hs

end Pipeline.Inside

/-- The offsets are in order, nothing is sent outside the partitions, and consumer and Lambda only
know messages that have been sent. -/
structure RetryLoop.Sound (s : RetryLoop) : Prop where
  offsets : s.pipeline.Offsets
  inside : s.pipeline.Inside
  received : ∀ v ∈ s.invocations, v.message < s.pipeline.dlq.length
  deleted : ∀ i ∈ s.deleted, i < s.pipeline.dlq.length

lemma sound_init (partitions : ℕ) (rm : ReadModel) : (RetryLoop.init partitions rm).Sound where
  offsets :=
    { holds := by simp [RetryLoop.init, Pipeline.init, Pipeline.Holds]
      bound := fun _ => le_rfl
      behind := fun _ => Or.inl rfl }
  inside := fun _ _ => rfl
  received := by simp [RetryLoop.init]
  deleted := by simp [RetryLoop.init]

/-- **Every move keeps the loop sound.** -/
theorem sound_step [Btree] {s t : RetryLoop} {a : LoopAction} (hs : s.Sound)
    (h : s.step a = some t) :
    t.Sound := by
  have herase : ∀ j, ∀ v ∈ s.invocations.eraseIdx j, v.message < s.pipeline.dlq.length :=
    fun j v hv => hs.received v (List.mem_of_mem_eraseIdx hv)
  cases a with
  | produce p e =>
      obtain ⟨hp, rfl⟩ := RetryLoop.produce_cases h
      exact ⟨hs.offsets.send p { event := e }, hs.inside.send hp { event := e }, hs.received,
        hs.deleted⟩
  | consume a =>
      obtain ⟨ha, hu, hdeleted, hinvocations⟩ := RetryLoop.consume_cases h
      have hcons := Pipeline.consume_cases ha hu
      have hle : s.pipeline.dlq.length ≤ t.pipeline.dlq.length := by
        rcases hcons.dlq with heq | ⟨c, error, _, _, heq⟩ <;> simp [heq]
      refine ⟨hs.offsets.consume ha hu, fun p hp => ?_, fun v hv => ?_, fun i hi => ?_⟩
      · rw [hcons.topic]
        exact hs.inside p (hcons.partitions ▸ hp)
      · exact (hs.received v (hinvocations ▸ hv)).trans_le hle
      · exact (hs.deleted i (hdeleted ▸ hi)).trans_le hle
  | receive i =>
      obtain ⟨⟨hlt, _⟩, rfl⟩ := RetryLoop.receive_cases h
      refine ⟨hs.offsets, hs.inside, fun v hv => ?_, hs.deleted⟩
      rcases List.mem_append.mp hv with hv | hv
      · exact hs.received v hv
      · obtain rfl := List.mem_singleton.mp hv
        exact hlt
  | handOver j p outcome =>
      obtain ⟨hp, v, m, hv, _, _, hdeleted, hcases⟩ := RetryLoop.handOver_cases h
      have hmessage : v.message < s.pipeline.dlq.length := hs.received v (List.mem_of_getElem? hv)
      rcases hcases with ⟨_, hpipe, hinv⟩ | ⟨_, hpipe, hinv⟩ | ⟨_, hpipe, hinv⟩
      · refine ⟨hpipe ▸ hs.offsets.handOver p m, hpipe ▸ hs.inside.handOver hp m, fun w hw => ?_, ?_⟩
        · rw [hpipe, Pipeline.handOver_dlq]
          rcases List.mem_or_eq_of_mem_set (hinv ▸ hw) with hw | rfl
          · exact hs.received w hw
          · exact hmessage
        · rw [hdeleted, hpipe, Pipeline.handOver_dlq]
          exact hs.deleted
      · refine ⟨hpipe ▸ hs.offsets, hpipe ▸ hs.inside, ?_, ?_⟩
        · rw [hpipe, hinv]
          exact herase j
        · rw [hdeleted, hpipe]
          exact hs.deleted
      · refine ⟨hpipe ▸ hs.offsets.handOver p m, hpipe ▸ hs.inside.handOver hp m, ?_, ?_⟩
        · rw [hpipe, hinv, Pipeline.handOver_dlq]
          exact herase j
        · rw [hdeleted, hpipe, Pipeline.handOver_dlq]
          exact hs.deleted
  | delete j outcome =>
      obtain ⟨v, hv, _, rfl⟩ := RetryLoop.delete_cases h
      refine ⟨hs.offsets, hs.inside, herase j, fun i hi => ?_⟩
      dsimp only at hi
      split_ifs at hi
      · exact hs.deleted i hi
      · rcases List.mem_cons.mp hi with rfl | hi
        · exact hs.received v (List.mem_of_getElem? hv)
        · exact hs.deleted i hi
  | stop j =>
      obtain rfl := RetryLoop.stop_cases h
      exact ⟨hs.offsets, hs.inside, herase j, hs.deleted⟩

/-! ### The loop at rest -/

/-- Everything sent is committed, everything queued is deleted, and no call is awaited. -/
structure RetryLoop.AtRest (s : RetryLoop) : Prop where
  idle : s.pipeline.current = none
  committed : ∀ p < s.pipeline.partitions,
    s.pipeline.committed p = (s.pipeline.topic p).length
  deleted : ∀ i < s.pipeline.dlq.length, i ∈ s.deleted
  answered : s.invocations = []

lemma RetryLoop.atRest_iff {s : RetryLoop} : s.AtRest ↔
    s.pipeline.current = none ∧
      (∀ p < s.pipeline.partitions, s.pipeline.committed p = (s.pipeline.topic p).length) ∧
      (∀ i < s.pipeline.dlq.length, i ∈ s.deleted) ∧ s.invocations = [] :=
  ⟨fun h => ⟨h.idle, h.committed, h.deleted, h.answered⟩, fun ⟨h, h', h'', h'''⟩ =>
    ⟨h, h', h'', h'''⟩⟩

instance (s : RetryLoop) : Decidable s.AtRest := decidable_of_iff _ RetryLoop.atRest_iff.symm

end OrderCqrs
