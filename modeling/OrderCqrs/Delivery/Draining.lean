import OrderCqrs.Delivery.Offsets
import OrderCqrs.Delivery.Lineage
import OrderCqrs.Logic.Bags

/-!
That the loop of consumer, dead letter queue and Lambda comes to rest.

* `messageWork`, `recordWork`, `InFlight.work`, `Invocation.work`: the moves that are left for a
  message, a record, the record in the consumer's hands and an invocation of the Lambda, if nothing
  goes wrong but the projection.
* `RetryLoop.workLeft`: all of them; `work_step` says that a move is paid for by what is left, or it
  is one of those that bring in work (`RetryLoop.Disturbs`): something is sent or goes wrong.
* `exists_move`: as long as the loop is not at rest, some move that brings in nothing is enabled.
* `comes_to_rest`: **the loop comes to rest**, after 44 moves at most for each event sent and each
  failure.
-/

namespace OrderCqrs

open Runs ListTables Partitions Bags

/-! ### Moves that work and moves that disturb -/

/-- A move that brings a record or a message nearer to its end, or tries to. -/
def LoopAction.works : LoopAction → Bool
  | .consume (.poll _) | .consume .complete | .consume (.raise _ _) | .receive _
  | .handOver _ _ _ | .delete _ _ => true
  | .produce _ _ | .consume .crash | .consume (.expire _) | .consume (.retry _ _ _) | .stop _ =>
      false

/-- The consumer cannot project its record. -/
def Pipeline.Stuck [Btree] (s : Pipeline) : Prop :=
  ∃ c ∈ s.current, c.pc = .project ∧ projectToPostgres s.readModel c.event = none

instance [Btree] (s : Pipeline) : Decidable s.Stuck :=
  inferInstanceAs (Decidable (∃ c ∈ s.current, c.pc = .project ∧
    projectToPostgres s.readModel c.event = none))

/-- **What brings in work**: an event is sent, a call raises that could have completed, the consumer
or an invocation stops, or a message is received by a second invocation. -/
def RetryLoop.Disturbs [Btree] (s : RetryLoop) : LoopAction → Prop
  | .consume (.raise afterEffect _) => afterEffect = true ∨ ¬ s.pipeline.Stuck
  | .receive i => ∃ v ∈ s.invocations, v.message = i
  | .handOver _ _ outcome | .delete _ outcome => outcome ≠ .completes
  | .produce _ _ | .consume .crash | .stop _ => True
  | .consume (.poll _) | .consume .complete | .consume (.expire _) | .consume (.retry _ _ _) =>
      False

instance [Btree] (s : RetryLoop) : (a : LoopAction) → Decidable (s.Disturbs a)
  | .consume (.raise afterEffect _) =>
      inferInstanceAs (Decidable (afterEffect = true ∨ ¬ s.pipeline.Stuck))
  | .receive i => inferInstanceAs (Decidable (∃ v ∈ s.invocations, v.message = i))
  | .handOver _ _ outcome | .delete _ outcome =>
      inferInstanceAs (Decidable (outcome ≠ .completes))
  | .produce _ _ | .consume .crash | .stop _ => .isTrue trivial
  | .consume (.poll _) | .consume .complete | .consume (.expire _) | .consume (.retry _ _ _) =>
      .isFalse id

/-- The move, counted if it brings in work. -/
def RetryLoop.disturbance [Btree] (s : RetryLoop) (a : LoopAction) : ℕ :=
  if s.Disturbs a then 1 else 0

/-! ### The work that is left -/

/-- The moves left for a message that has been retried `n` times: it is received, handed on and
deleted, and as long as it has retries left its record is taken and queued again. -/
def messageWork (n : ℕ) : ℕ := 11 * (maxRetries - n) + 3

/-- The moves left for a record that has been retried `n` times. -/
def recordWork (n : ℕ) : ℕ := messageWork n + 8

lemma recordWork_le (n : ℕ) : recordWork n ≤ 44 := by
  simp only [recordWork, messageWork, maxRetries]
  omega

/-- The moves left for the record in the consumer's hands. -/
def InFlight.work (c : InFlight) : ℕ :=
  match c.pc with
  | .redisExists => messageWork c.delivery.count + 7
  | .project => messageWork c.delivery.count + 6
  | .sendToDlq _ => messageWork c.delivery.count + 2
  | .invalidateCache => 4
  | .setProcessed => 3
  | .setExpiry => 2
  | .commitSkipped | .commit | .commitFailed => 1

lemma InFlight.work_pos (c : InFlight) : 1 ≤ c.work := by
  rw [work]
  split <;> omega

namespace Pipeline

/-- The moves left for the records behind the offsets. -/
def unreadWork (s : Pipeline) (offset : ℕ → ℕ) : ℕ :=
  ∑ p ∈ Finset.range s.partitions,
    (((s.topic p).drop (offset p)).map fun d => recordWork d.count).sum

/-- The moves left for the topic, and for what they send to the queue. -/
def work (s : Pipeline) : ℕ := s.unreadWork s.position + s.current.elim 0 InFlight.work

end Pipeline

/-- The moves left for some messages. -/
def queueWork (ms : List DlqMessage) : ℕ := (ms.map fun m => messageWork m.retryCount).sum

@[simp] lemma queueWork_nil : queueWork [] = 0 := rfl

@[simp] lemma queueWork_singleton (m : DlqMessage) :
    queueWork [m] = messageWork m.retryCount := rfl

/-- How often the message with an id has been retried. -/
def retriesOf (dlq : List DlqMessage) (i : ℕ) : ℕ := dlq[i]?.elim 0 (·.retryCount)

/-- The moves left for an invocation of the Lambda. -/
def Invocation.work (dlq : List DlqMessage) (v : Invocation) : ℕ :=
  match v.pc with
  | .handOver => 11 * (maxRetries - retriesOf dlq v.message) + 2
  | .delete => 1

namespace RetryLoop

/-- The messages that are neither deleted nor in the hands of the Lambda. -/
def waiting (s : RetryLoop) : Finset ℕ :=
  (Finset.range s.pipeline.dlq.length).filter fun i =>
    i ∉ s.deleted ∧ ∀ v ∈ s.invocations, v.message ≠ i

end RetryLoop

/-! ### The work of the consumer -/

namespace Pipeline

variable {s t u : Pipeline} {c : InFlight} {offset : ℕ → ℕ} {p : ℕ} {d : Delivery}

/-- A record is taken. -/
lemma unreadWork_take (hp : p < s.partitions) (hd : (s.topic p)[offset p]? = some d) :
    s.unreadWork offset =
      recordWork d.count + s.unreadWork (Function.update offset p (offset p + 1)) := by
  refine sum_range_eq_add hp ?_ fun q hq => by rw [Function.update_of_ne hq]
  obtain ⟨hlt, rfl⟩ := List.getElem?_eq_some_iff.mp hd
  rw [Function.update_self, List.drop_eq_getElem_cons hlt, List.map_cons, List.sum_cons]

/-- A record is sent. -/
lemma unreadWork_send (hp : p < s.partitions) (hle : offset p ≤ (s.topic p).length) :
    (s.send p d).unreadWork offset = recordWork d.count + s.unreadWork offset := by
  refine sum_range_eq_add hp ?_ fun q hq => by simp only [send, Function.update_of_ne hq]
  simp only [send, Function.update_self, List.drop_append_of_le_length hle]
  simp [Nat.add_comm]

/-- Going back to the committed offsets, the consumer reads one record again. -/
lemma unreadWork_committed (hs : s.Offsets) :
    s.unreadWork s.committed ≤ s.unreadWork s.position + 44 := by
  by_cases hall : ∀ p, s.committed p = s.position p
  · rw [funext hall]
    omega
  · push Not at hall
    obtain ⟨p, hne⟩ := hall
    obtain ⟨c, hc, hcp, hpos⟩ := (hs.behind p).resolve_left hne
    -- the other partitions are committed
    have hposition : s.position = Function.update s.committed p (s.committed p + 1) := by
      funext q
      by_cases hq : q = p
      · subst hq
        rw [Function.update_self, hpos]
      · rw [Function.update_of_ne hq]
        rcases hs.behind q with heq | ⟨c', hc', hcq, _⟩
        · exact heq.symm
        · obtain rfl := Option.some.inj (hc.symm.trans hc')
          exact absurd (hcq.symm.trans hcp) hq
    by_cases hp : p < s.partitions
    · obtain ⟨k, hk, hd⟩ := hs.holds c hc
      rw [hcp] at hk hd
      obtain rfl : k = s.committed p := by omega
      rw [unreadWork_take hp hd, ← hposition]
      have := recordWork_le c.delivery.count
      omega
    · refine (Finset.sum_congr rfl fun q hq => ?_).trans_le (Nat.le_add_right _ _)
      have hq : q ≠ p := fun heq => hp (heq ▸ Finset.mem_range.mp hq)
      rw [hposition, Function.update_of_ne hq]

lemma work_of_current (hc : s.current = some c) : s.work = s.unreadWork s.position + c.work := by
  rw [work, hc, Option.elim_some]

lemma work_goto (s : Pipeline) (c : InFlight) (pc : ConsumerPc) :
    (s.goto c pc).work = s.unreadWork s.position + InFlight.work { c with pc } := rfl

/-- **A call that completes is paid for**, and so is the message that it may send. -/
lemma complete_work [Btree] (hc : s.current = some c) (h : s.complete c = some u) :
    ∃ ms, u.dlq = s.dlq ++ ms ∧ 1 + u.work + queueWork ms ≤ s.work := by
  rw [work_of_current hc]
  -- a call that only goes on to another one
  have hgoto : ∀ {v : Pipeline} {pc : ConsumerPc},
      v.unreadWork v.position = s.unreadWork s.position → v.dlq = s.dlq →
      InFlight.work { c with pc } < c.work →
      ∃ ms, (v.goto c pc).dlq = s.dlq ++ ms ∧
        1 + (v.goto c pc).work + queueWork ms ≤ s.unreadWork s.position + c.work := by
    intro v pc hunread hdlq hlt
    refine ⟨[], hdlq.trans (List.append_nil _).symm, ?_⟩
    rw [work_goto, hunread, queueWork_nil]
    omega
  obtain ⟨p, d, pc⟩ := c
  cases pc with
  | project =>
      obtain ⟨rm, _, rfl⟩ := complete_project rfl h
      exact hgoto rfl rfl (by simp only [InFlight.work]; omega)
  | redisExists =>
      obtain rfl := Option.some.inj h
      refine hgoto rfl rfl ?_
      split_ifs <;> simp only [InFlight.work] <;> omega
  | invalidateCache =>
      obtain rfl := Option.some.inj h
      refine hgoto rfl rfl ?_
      unfold Event.afterInvalidate Event.afterProcessed
      split_ifs <;> simp only [InFlight.work] <;> omega
  | setProcessed =>
      obtain rfl := Option.some.inj h
      refine hgoto rfl rfl ?_
      unfold Event.afterProcessed
      split_ifs <;> simp only [InFlight.work] <;> omega
  | setExpiry =>
      obtain rfl := Option.some.inj h
      exact hgoto rfl rfl (by simp only [InFlight.work]; omega)
  | sendToDlq error =>
      obtain rfl := Option.some.inj h
      refine ⟨[dlqMessage d error], rfl, ?_⟩
      have hcount : (dlqMessage d error).retryCount = d.count := rfl
      rw [work_goto, queueWork_singleton, hcount]
      simp only [unreadWork, InFlight.work]
      omega
  | commitSkipped | commit | commitFailed =>
      obtain rfl := Option.some.inj h
      refine ⟨[], (List.append_nil _).symm, ?_⟩
      simp only [work, Pipeline.commit, unreadWork, Option.elim_none, InFlight.work, queueWork_nil]
      omega

/-- **What a call that raises brings in**, at most: its record is read again, or queued. -/
lemma raise_work (hs : s.Offsets) (c : InFlight) (error : String) :
    (s.raise c error).work ≤ s.unreadWork s.position + 44 := by
  rcases s.raise_eq c error with ⟨pc, hpc, heq⟩ | heq <;> rw [heq]
  · have hle := recordWork_le c.delivery.count
    rw [recordWork] at hle
    rw [work_goto]
    rcases hpc with rfl | rfl <;> simp only [InFlight.work] <;> omega
  · exact unreadWork_committed hs

lemma raise_dlq (s : Pipeline) (c : InFlight) (error : String) : (s.raise c error).dlq = s.dlq := by
  rcases s.raise_eq c error with ⟨pc, _, heq⟩ | heq <;> rw [heq] <;> rfl

/-- **The consumer's moves are paid for**, those that bring in work with 44 moves. -/
theorem consume_work [Btree] (hs : s.Offsets) {a : PipelineAction} (ha : a.Consumes) {l : RetryLoop}
    (hl : l.pipeline = s) (h : s.step a = some u) :
    ∃ ms, u.dlq = s.dlq ++ ms ∧
      (LoopAction.consume a).works.toNat + u.work + queueWork ms ≤
        44 * l.disturbance (.consume a) + s.work := by
  subst hl
  cases a with
  | poll p =>
      obtain ⟨hp, hnone, d, hd, rfl⟩ := poll_cases h
      refine ⟨[], (List.append_nil _).symm, ?_⟩
      have hfirst : InFlight.work ⟨p, d, d.event.firstCall⟩ ≤ messageWork d.count + 7 := by
        unfold Event.firstCall
        split_ifs <;> simp only [InFlight.work] <;> omega
      have htake := unreadWork_take hp hd
      have hnext : Pipeline.work { l.pipeline with
          position := Function.update l.pipeline.position p (l.pipeline.position p + 1)
          current := some ⟨p, d, d.event.firstCall⟩ } =
          l.pipeline.unreadWork
            (Function.update l.pipeline.position p (l.pipeline.position p + 1)) +
            InFlight.work ⟨p, d, d.event.firstCall⟩ := rfl
      rw [hnext, work, hnone, Option.elim_none, queueWork_nil, htake, recordWork,
        LoopAction.works, Bool.toNat_true]
      omega
  | complete =>
      obtain ⟨c, hc, hcomp⟩ := complete_cases h
      obtain ⟨ms, hms, hle⟩ := complete_work hc hcomp
      exact ⟨ms, hms, hle.trans (Nat.le_add_left _ _)⟩
  | raise afterEffect error =>
      cases afterEffect with
      | true =>
          obtain ⟨c, w, hc, hw, rfl⟩ := raise_after_cases h
          obtain ⟨ms, hms, hle⟩ := complete_work hc hw
          have hraise := raise_work (hs.complete hc hw) c error
          have hdisturbs : l.disturbance (.consume (.raise true error)) = 1 :=
            if_pos (Or.inl rfl)
          refine ⟨ms, (raise_dlq w c error).trans hms, ?_⟩
          rw [hdisturbs, LoopAction.works, Bool.toNat_true]
          rw [work] at hle
          omega
      | false =>
          obtain ⟨c, hc, rfl⟩ := raise_cases h
          refine ⟨[], (raise_dlq _ c error).trans (List.append_nil _).symm, ?_⟩
          rw [queueWork_nil, work_of_current hc, LoopAction.works, Bool.toNat_true]
          by_cases hstuck : l.pipeline.Stuck
          · -- the projection fails, and the record goes to the queue
            obtain ⟨c', hc', hpc, _⟩ := hstuck
            obtain rfl := Option.some.inj (hc.symm.trans hc')
            have heq : l.pipeline.raise c error = l.pipeline.goto c (.sendToDlq error) := by
              rw [raise, hpc]
            have hwork : c.work = messageWork c.delivery.count + 6 := by rw [InFlight.work, hpc]
            rw [heq, work_goto, hwork]
            simp only [InFlight.work]
            omega
          · have hdisturbs : l.disturbance (.consume (.raise false error)) = 1 :=
              if_pos (Or.inr hstuck)
            have hraise := raise_work hs c error
            have hpos := c.work_pos
            rw [hdisturbs]
            omega
  | crash =>
      obtain rfl := Option.some.inj h
      have hdisturbs : l.disturbance (.consume .crash) = 1 := if_pos trivial
      have hle := unreadWork_committed hs
      refine ⟨[], (List.append_nil _).symm, ?_⟩
      rw [hdisturbs, queueWork_nil, LoopAction.works, Bool.toNat_false]
      simp only [work, restart, unreadWork, Option.elim_none] at hle ⊢
      omega
  | expire eventId =>
      obtain rfl := Option.some.inj h
      refine ⟨[], (List.append_nil _).symm, ?_⟩
      rw [queueWork_nil, LoopAction.works, Bool.toNat_false]
      simp only [work, unreadWork]
      omega
  | retry i p outcome => exact ha.elim

/-- **What a handover brings in**: the record it sends, if retries are left. -/
lemma handOver_work (hs : s.Offsets) (hp : p < s.partitions) (m : DlqMessage) :
    (s.handOver p m).work = s.work + 11 * (maxRetries - m.retryCount) := by
  rcases s.handOver_cases p m with ⟨hlt, d, _, hd, heq⟩ | ⟨hmax, letter, _, heq⟩
  · have hsend := unreadWork_send (d := d) hp (hs.bound p)
    have hcount : d.count = m.retryCount + 1 := by rw [Delivery.count, hd, Option.getD_some]
    have hwork : (s.handOver p m).work = (s.send p d).unreadWork s.position +
        s.current.elim 0 InFlight.work := by
      rw [heq]
      rfl
    rw [hwork, hsend, work, hcount, recordWork, messageWork]
    omega
  · have hwork : (s.handOver p m).work = s.work := by
      rw [heq]
      rfl
    rw [hwork]
    omega

end Pipeline

/-! ### The work of the Lambda -/

section Queue

variable {dlq ms : List DlqMessage} {m : DlqMessage} {i : ℕ} {v : Invocation}

lemma retriesOf_eq (hm : dlq[i]? = some m) : retriesOf dlq i = m.retryCount := by
  rw [retriesOf, hm, Option.elim_some]

/-- A message keeps its count while the queue grows. -/
lemma retriesOf_append (hi : i < dlq.length) : retriesOf (dlq ++ ms) i = retriesOf dlq i := by
  rw [retriesOf, retriesOf, List.getElem?_append_left hi]

lemma Invocation.work_append (hv : v.message < dlq.length) :
    v.work (dlq ++ ms) = v.work dlq := by
  rw [work, work, retriesOf_append hv]

/-- What is left for the new messages of the queue. -/
lemma sum_range_append (dlq ms : List DlqMessage) :
    ∑ i ∈ Finset.range ms.length, messageWork (retriesOf (dlq ++ ms) (dlq.length + i)) =
      queueWork ms := by
  induction ms generalizing dlq with
  | nil => rfl
  | cons m ms ih =>
      have hnext := ih (dlq ++ [m])
      have hfirst : retriesOf (dlq ++ m :: ms) (dlq.length + 0) = m.retryCount :=
        retriesOf_eq (by simp)
      simp only [List.append_assoc, List.singleton_append, List.length_append,
        List.length_singleton] at hnext
      simp only [List.length_cons, Finset.sum_range_succ', hfirst, queueWork, List.map_cons,
        List.sum_cons]
      rw [← queueWork, ← hnext, Nat.add_comm]
      simp only [Nat.add_assoc, Nat.add_comm 1]

end Queue

namespace RetryLoop

variable {s t : RetryLoop} {i j p : ℕ} {v w : Invocation}

/-- What is left for the messages that wait. -/
def waitingWork (s : RetryLoop) : ℕ :=
  ∑ i ∈ s.waiting, messageWork (retriesOf s.pipeline.dlq i)

/-- What is left for the invocations. -/
def invokedWork (s : RetryLoop) : ℕ :=
  (s.invocations.map (Invocation.work s.pipeline.dlq)).sum

/-- **The moves that are left.** -/
def workLeft (s : RetryLoop) : ℕ := s.pipeline.work + s.waitingWork + s.invokedWork

lemma mem_waiting : i ∈ s.waiting ↔
    i < s.pipeline.dlq.length ∧ i ∉ s.deleted ∧ ∀ v ∈ s.invocations, v.message ≠ i := by
  rw [waiting, Finset.mem_filter, Finset.mem_range]

/-- Fewer messages wait. -/
lemma waitingWork_le (hdlq : t.pipeline.dlq = s.pipeline.dlq) (hsub : t.waiting ⊆ s.waiting) :
    t.waitingWork ≤ s.waitingWork := by
  rw [waitingWork, waitingWork, hdlq]
  exact Finset.sum_le_sum_of_subset hsub

/-- One more message waits. -/
lemma waitingWork_insert (hdlq : t.pipeline.dlq = s.pipeline.dlq)
    (hsub : t.waiting ⊆ insert j s.waiting) :
    t.waitingWork ≤ messageWork (retriesOf s.pipeline.dlq j) + s.waitingWork := by
  by_cases hj : j ∈ s.waiting
  · rw [Finset.insert_eq_of_mem hj] at hsub
    exact (waitingWork_le hdlq hsub).trans (Nat.le_add_left _ _)
  · rw [waitingWork, hdlq]
    calc ∑ i ∈ t.waiting, messageWork (retriesOf s.pipeline.dlq i)
        ≤ ∑ i ∈ insert j s.waiting, messageWork (retriesOf s.pipeline.dlq i) :=
          Finset.sum_le_sum_of_subset hsub
      _ = messageWork (retriesOf s.pipeline.dlq j) + s.waitingWork := Finset.sum_insert hj

/-- One message less waits. -/
lemma waitingWork_remove (hdlq : t.pipeline.dlq = s.pipeline.dlq) (hsub : t.waiting ⊆ s.waiting)
    (hj : j ∈ s.waiting) (hnot : j ∉ t.waiting) :
    messageWork (retriesOf s.pipeline.dlq j) + t.waitingWork ≤ s.waitingWork := by
  rw [waitingWork, hdlq]
  calc messageWork (retriesOf s.pipeline.dlq j) +
        ∑ i ∈ t.waiting, messageWork (retriesOf s.pipeline.dlq i)
      = ∑ i ∈ insert j t.waiting, messageWork (retriesOf s.pipeline.dlq i) :=
        by rw [Finset.sum_insert hnot]
    _ ≤ s.waitingWork := Finset.sum_le_sum_of_subset (Finset.insert_subset hj hsub)

/-- New messages wait. -/
lemma waitingWork_append {ms : List DlqMessage} (hdlq : t.pipeline.dlq = s.pipeline.dlq ++ ms)
    (hdeleted : t.deleted = s.deleted) (hinvocations : t.invocations = s.invocations) :
    t.waitingWork ≤ s.waitingWork + queueWork ms := by
  let new := (Finset.range ms.length).map (addLeftEmbedding s.pipeline.dlq.length)
  have hsub : t.waiting ⊆ s.waiting ∪ new := by
    intro i hi
    rw [mem_waiting, hdlq, hdeleted, hinvocations, List.length_append] at hi
    rw [Finset.mem_union, mem_waiting]
    by_cases hlt : i < s.pipeline.dlq.length
    · exact Or.inl ⟨hlt, hi.2⟩
    · refine Or.inr (Finset.mem_map.mpr ⟨i - s.pipeline.dlq.length, ?_, ?_⟩)
      · exact Finset.mem_range.mpr (by omega)
      · exact Nat.add_sub_cancel' (not_lt.mp hlt)
  have hdisjoint : Disjoint s.waiting new := by
    refine Finset.disjoint_left.mpr fun i hi hnew => ?_
    obtain ⟨k, _, rfl⟩ := Finset.mem_map.mp hnew
    have hlt := (mem_waiting.mp hi).1
    simp [addLeftEmbedding] at hlt
  have hold : ∑ i ∈ s.waiting, messageWork (retriesOf t.pipeline.dlq i) = s.waitingWork :=
    Finset.sum_congr rfl fun i hi => by rw [hdlq, retriesOf_append (mem_waiting.mp hi).1]
  have hnew : ∑ i ∈ new, messageWork (retriesOf t.pipeline.dlq i) = queueWork ms := by
    rw [Finset.sum_map, hdlq]
    exact sum_range_append _ _
  calc t.waitingWork
      ≤ ∑ i ∈ s.waiting ∪ new, messageWork (retriesOf t.pipeline.dlq i) :=
        Finset.sum_le_sum_of_subset hsub
    _ = s.waitingWork + queueWork ms := by rw [Finset.sum_union hdisjoint, hold, hnew]

/-- An invocation begins. -/
lemma invokedWork_append (hdlq : t.pipeline.dlq = s.pipeline.dlq)
    (hinv : t.invocations = s.invocations ++ [v]) :
    t.invokedWork = s.invokedWork + v.work s.pipeline.dlq := by
  simp [invokedWork, hdlq, hinv]

/-- An invocation goes on. -/
lemma invokedWork_set (hdlq : t.pipeline.dlq = s.pipeline.dlq) (hv : s.invocations[j]? = some v)
    (hinv : t.invocations = s.invocations.set j w) :
    t.invokedWork + v.work s.pipeline.dlq = s.invokedWork + w.work s.pipeline.dlq := by
  obtain ⟨before, after, hsplit, hset⟩ := exists_split_set hv w
  rw [invokedWork, invokedWork, hinv, hset, hdlq, hsplit]
  simp only [List.map_append, List.map_cons, List.sum_append, List.sum_cons]
  omega

/-- An invocation is over. -/
lemma invokedWork_erase (hdlq : t.pipeline.dlq = s.pipeline.dlq) (hv : s.invocations[j]? = some v)
    (hinv : t.invocations = s.invocations.eraseIdx j) :
    t.invokedWork + v.work s.pipeline.dlq = s.invokedWork := by
  obtain ⟨hlt, rfl⟩ := List.getElem?_eq_some_iff.mp hv
  have hperm := (List.getElem_cons_eraseIdx_perm hlt).map (Invocation.work s.pipeline.dlq)
  rw [invokedWork, invokedWork, hinv, hdlq, ← hperm.sum_eq, List.map_cons, List.sum_cons,
    Nat.add_comm]

/-- The invocations do not depend on new messages. -/
lemma invokedWork_grow (hs : s.Sound) {ms : List DlqMessage}
    (hdlq : t.pipeline.dlq = s.pipeline.dlq ++ ms) (hinvocations : t.invocations = s.invocations) :
    t.invokedWork = s.invokedWork := by
  rw [invokedWork, invokedWork, hinvocations, hdlq]
  congr 1
  exact List.map_congr_left fun v hv => Invocation.work_append (hs.received v hv)

/-- A message that an invocation gives up waits again. -/
lemma waiting_erase (hdlq : t.pipeline.dlq = s.pipeline.dlq) (hdeleted : s.deleted ⊆ t.deleted)
    (hv : s.invocations[j]? = some v) (hinv : t.invocations = s.invocations.eraseIdx j) :
    t.waiting ⊆ insert v.message s.waiting := by
  intro i hi
  obtain ⟨hlt, hnot, hfree⟩ := mem_waiting.mp hi
  rw [Finset.mem_insert, mem_waiting]
  by_cases hiv : i = v.message
  · exact Or.inl hiv
  · refine Or.inr ⟨hdlq ▸ hlt, fun hmem => hnot (hdeleted hmem), fun w hw => ?_⟩
    have hperm : w ∈ v :: s.invocations.eraseIdx j := by
      obtain ⟨hlt, rfl⟩ := List.getElem?_eq_some_iff.mp hv
      exact (List.getElem_cons_eraseIdx_perm hlt).mem_iff.mpr hw
    rcases List.mem_cons.mp hperm with rfl | hw
    · exact fun heq => hiv heq.symm
    · exact hfree w (hinv ▸ hw)

/-- An invocation that is over for its message costs no more than the message does again. -/
lemma workLeft_erase (hdlq : t.pipeline.dlq = s.pipeline.dlq) (hdeleted : s.deleted ⊆ t.deleted)
    (hv : s.invocations[j]? = some v) (hinv : t.invocations = s.invocations.eraseIdx j) :
    t.waitingWork + t.invokedWork + v.work s.pipeline.dlq ≤
      messageWork (retriesOf s.pipeline.dlq v.message) + s.waitingWork + s.invokedWork := by
  have hwait := waitingWork_insert hdlq (waiting_erase hdlq hdeleted hv hinv)
  have herase := invokedWork_erase hdlq hv hinv
  omega

/-- An invocation begins, and its message waits no more. -/
lemma waiting_append (hdlq : t.pipeline.dlq = s.pipeline.dlq) (hdeleted : t.deleted = s.deleted)
    (hinv : t.invocations = s.invocations ++ [v]) : t.waiting ⊆ s.waiting := by
  intro i hi
  obtain ⟨hlt, hnot, hfree⟩ := mem_waiting.mp hi
  rw [hdlq] at hlt
  rw [hdeleted] at hnot
  rw [hinv] at hfree
  exact mem_waiting.mpr ⟨hlt, hnot, fun w hw => hfree w (List.mem_append_left _ hw)⟩

/-- An invocation that goes on keeps its message. -/
lemma waiting_set (hdlq : t.pipeline.dlq = s.pipeline.dlq) (hdeleted : t.deleted = s.deleted)
    (hv : s.invocations[j]? = some v) (hw : w.message = v.message)
    (hinv : t.invocations = s.invocations.set j w) : t.waiting ⊆ s.waiting := by
  intro i hi
  obtain ⟨hlt, hnot, hfree⟩ := mem_waiting.mp hi
  refine mem_waiting.mpr ⟨hdlq ▸ hlt, hdeleted ▸ hnot, fun u hu => ?_⟩
  obtain ⟨before, after, hsplit, hafter⟩ := exists_split_set hv w
  rw [hinv, hafter] at hfree
  rw [hsplit] at hu
  simp only [List.mem_append, List.mem_cons] at hu hfree
  rcases hu with hu | rfl | hu
  · exact hfree u (Or.inl hu)
  · exact hw ▸ hfree w (Or.inr (Or.inl rfl))
  · exact hfree u (Or.inr (Or.inr hu))

/-- Only an invocation that runs can be stopped. -/
lemma stop_lt [Btree] (h : s.step (.stop j) = some t) : j < s.invocations.length := by
  simp only [step, Option.bind_eq_bind, Option.bind_eq_some_iff, Option.guard_eq_some'] at h
  exact h.choose_spec.1

/-! ### Every move is paid for -/

/-- An event that is sent. -/
lemma produce_workLeft [Btree] {e : Event} (hs : s.Sound) (h : s.step (.produce p e) = some t) :
    t.workLeft ≤ 44 * s.disturbance (.produce p e) + s.workLeft := by
  obtain ⟨hp, rfl⟩ := produce_cases h
  have hsend := Pipeline.unreadWork_send (d := { event := e }) hp (hs.offsets.bound p)
  have hle := recordWork_le (Delivery.count { event := e })
  have hwork : (s.pipeline.produce p e).work =
      (s.pipeline.send p { event := e }).unreadWork s.pipeline.position +
        s.pipeline.current.elim 0 InFlight.work := rfl
  have hwait : RetryLoop.waitingWork { s with pipeline := s.pipeline.produce p e } =
      s.waitingWork := rfl
  have hinv : RetryLoop.invokedWork { s with pipeline := s.pipeline.produce p e } =
      s.invokedWork := rfl
  have hdisturbs : s.disturbance (.produce p e) = 1 := if_pos trivial
  rw [workLeft, workLeft, hwork, hwait, hinv, hsend, hdisturbs, Pipeline.work]
  omega

/-- A message that is received, by a first or by another invocation. -/
lemma receive_workLeft [Btree] (h : s.step (.receive i) = some t) :
    1 + t.workLeft ≤ 44 * s.disturbance (.receive i) + s.workLeft := by
  obtain ⟨⟨hlt, hnot⟩, ht⟩ := receive_cases h
  have hpipe : t.pipeline = s.pipeline := by rw [ht]
  have hinvocations : t.invocations = s.invocations ++ [⟨i, .handOver⟩] := by rw [ht]
  have hdlq := congrArg Pipeline.dlq hpipe
  have hsub : t.waiting ⊆ s.waiting := waiting_append hdlq (by rw [ht]) hinvocations
  have hinv := invokedWork_append hdlq hinvocations
  simp only [Invocation.work] at hinv
  rw [workLeft, workLeft, hpipe, hinv]
  by_cases hheld : ∃ v ∈ s.invocations, v.message = i
  · have hdisturbs : s.disturbance (.receive i) = 1 := if_pos hheld
    have hle := waitingWork_le hdlq hsub
    have hbound := recordWork_le (retriesOf s.pipeline.dlq i)
    simp only [recordWork, messageWork] at hbound
    rw [hdisturbs]
    omega
  · have hfree : i ∈ s.waiting :=
      mem_waiting.mpr ⟨hlt, hnot, fun v hv heq => hheld ⟨v, hv, heq⟩⟩
    have hnot' : i ∉ t.waiting := fun hi =>
      (mem_waiting.mp hi).2.2 ⟨i, .handOver⟩ (by simp [hinvocations]) rfl
    have hle := waitingWork_remove hdlq hsub hfree hnot'
    rw [messageWork] at hle
    omega

/-- A message that is handed on, or not. -/
lemma handOver_workLeft [Btree] {outcome : Outcome} (hs : s.Sound)
    (h : s.step (.handOver j p outcome) = some t) :
    1 + t.workLeft ≤ 44 * s.disturbance (.handOver j p outcome) + s.workLeft := by
  obtain ⟨hp, v, m, hv, hpc, hm, hdeleted, hcases⟩ := handOver_cases h
  have hcount := retriesOf_eq hm
  have hwork : v.work s.pipeline.dlq = 11 * (maxRetries - m.retryCount) + 2 := by
    rw [Invocation.work, hpc, hcount]
  have hhand := Pipeline.handOver_work hs.offsets hp m
  have hmax : maxRetries - m.retryCount ≤ 3 := Nat.sub_le _ _
  rw [workLeft, workLeft]
  rcases hcases with ⟨_, hpipe, hinv⟩ | ⟨rfl, hpipe, hinv⟩ | ⟨rfl, hpipe, hinv⟩
  · have hdlq : t.pipeline.dlq = s.pipeline.dlq := by rw [hpipe, Pipeline.handOver_dlq]
    have hset := invokedWork_set hdlq hv hinv
    have hdelete : Invocation.work s.pipeline.dlq { v with pc := .delete } = 1 := rfl
    have hsub : t.waiting ⊆ s.waiting :=
      waiting_set (w := { v with pc := .delete }) hdlq hdeleted hv rfl hinv
    have hle := waitingWork_le hdlq hsub
    rw [hpipe, hhand]
    omega
  · have hdisturbs : s.disturbance (.handOver j p .raises) = 1 := if_pos nofun
    have hle := workLeft_erase (congrArg Pipeline.dlq hpipe) (hdeleted ▸ List.Subset.refl _) hv hinv
    rw [hcount, messageWork] at hle
    rw [hpipe, hdisturbs]
    omega
  · have hdisturbs : s.disturbance (.handOver j p .raisesAfterEffect) = 1 := if_pos nofun
    have hdlq : t.pipeline.dlq = s.pipeline.dlq := by rw [hpipe, Pipeline.handOver_dlq]
    have hle := workLeft_erase hdlq (hdeleted ▸ List.Subset.refl _) hv hinv
    rw [hcount, messageWork] at hle
    rw [hpipe, hhand, hdisturbs]
    omega

/-- A message that is deleted, or not. -/
lemma delete_workLeft [Btree] {outcome : Outcome} (h : s.step (.delete j outcome) = some t) :
    1 + t.workLeft ≤ 44 * s.disturbance (.delete j outcome) + s.workLeft := by
  obtain ⟨v, hv, hpc, ht⟩ := delete_cases h
  have hpipe : t.pipeline = s.pipeline := by rw [ht]
  have hinv : t.invocations = s.invocations.eraseIdx j := by rw [ht]
  have hdlq := congrArg Pipeline.dlq hpipe
  have hwork : v.work s.pipeline.dlq = 1 := by rw [Invocation.work, hpc]
  have hdeleted : s.deleted ⊆ t.deleted := by
    rw [ht]
    dsimp only
    split_ifs
    · exact List.Subset.refl _
    · exact List.subset_cons_self _ _
  rw [workLeft, workLeft, hpipe]
  by_cases hcompletes : outcome = .completes
  · have hgone : v.message ∈ t.deleted := by simp [ht, hcompletes]
    have hsub : t.waiting ⊆ s.waiting := by
      intro i hi
      refine (Finset.mem_insert.mp (waiting_erase hdlq hdeleted hv hinv hi)).resolve_left ?_
      rintro rfl
      exact (mem_waiting.mp hi).2.1 hgone
    have hle := waitingWork_le hdlq hsub
    have herase := invokedWork_erase hdlq hv hinv
    omega
  · have hdisturbs : s.disturbance (.delete j outcome) = 1 := if_pos hcompletes
    have hbound := recordWork_le (retriesOf s.pipeline.dlq v.message)
    have hle := workLeft_erase hdlq hdeleted hv hinv
    rw [recordWork] at hbound
    rw [hdisturbs]
    omega

/-- An invocation that stops, its message being queued again. -/
lemma stop_workLeft [Btree] (h : s.step (.stop j) = some t) :
    t.workLeft ≤ 44 * s.disturbance (.stop j) + s.workLeft := by
  have hlt := stop_lt h
  have hv : s.invocations[j]? = some s.invocations[j] := List.getElem?_eq_getElem hlt
  have ht := stop_cases h
  have hpipe : t.pipeline = s.pipeline := by rw [ht]
  have hdeleted : t.deleted = s.deleted := by rw [ht]
  have hdisturbs : s.disturbance (.stop j) = 1 := if_pos trivial
  have hbound := recordWork_le (retriesOf s.pipeline.dlq s.invocations[j].message)
  have hle := workLeft_erase (congrArg Pipeline.dlq hpipe) (hdeleted ▸ List.Subset.refl _) hv
    (by rw [ht])
  rw [recordWork] at hbound
  rw [workLeft, workLeft, hpipe, hdisturbs]
  omega

/-- **Every move is paid for** by the work that is left, or it brings in 44 moves. -/
theorem work_step [Btree] {a : LoopAction} (hs : s.Sound) (h : s.step a = some t) :
    a.works.toNat + t.workLeft ≤ 44 * s.disturbance a + s.workLeft := by
  cases a with
  | produce p e =>
      rw [LoopAction.works, Bool.toNat_false, Nat.zero_add]
      exact produce_workLeft hs h
  | consume a =>
      obtain ⟨ha, hu, hdeleted, hinvocations⟩ := consume_cases h
      obtain ⟨ms, hms, hle⟩ := Pipeline.consume_work hs.offsets ha (l := s) rfl hu
      have hwait := waitingWork_append hms hdeleted hinvocations
      have hinv := invokedWork_grow hs hms hinvocations
      rw [workLeft, workLeft]
      omega
  | receive i => exact receive_workLeft h
  | handOver j p outcome => exact handOver_workLeft hs h
  | delete j outcome => exact delete_workLeft h
  | stop j =>
      rw [LoopAction.works, Bool.toNat_false, Nat.zero_add]
      exact stop_workLeft h

/-! ### Coming to rest -/

lemma partitions_step [Btree] {a : LoopAction} (h : s.step a = some t) :
    t.pipeline.partitions = s.pipeline.partitions := by
  cases a with
  | produce p e =>
      obtain ⟨_, rfl⟩ := produce_cases h
      rfl
  | consume a =>
      obtain ⟨ha, hu, _⟩ := consume_cases h
      exact (Pipeline.consume_cases ha hu).partitions
  | receive i =>
      obtain ⟨_, rfl⟩ := receive_cases h
      rfl
  | handOver j p outcome =>
      obtain ⟨_, v, m, _, _, _, _, hcases⟩ := handOver_cases h
      have hhand : (s.pipeline.handOver p m).partitions = s.pipeline.partitions := by
        rcases s.pipeline.handOver_cases p m with ⟨_, d, _, _, heq⟩ | ⟨_, letter, _, heq⟩ <;>
          rw [heq]
      rcases hcases with ⟨_, hpipe, _⟩ | ⟨_, hpipe, _⟩ | ⟨_, hpipe, _⟩ <;> rw [hpipe]
      · exact hhand
      · exact hhand
  | delete j outcome =>
      obtain ⟨v, _, _, rfl⟩ := delete_cases h
      rfl
  | stop j =>
      obtain rfl := stop_cases h
      rfl

/-- **The consumer can go on with its record.** -/
lemma exists_consume [Btree] {c : InFlight} (hc : s.pipeline.current = some c) :
    ∃ a t, a.works = true ∧ ¬ s.Disturbs a ∧ s.step a = some t := by
  have hcomplete : (s.pipeline.complete c).isSome →
      ∃ a t, a.works = true ∧ ¬ s.Disturbs a ∧ s.step a = some t := by
    intro hsome
    obtain ⟨u, hu⟩ := Option.isSome_iff_exists.mp hsome
    refine ⟨.consume .complete, { s with pipeline := u }, rfl, id, ?_⟩
    simp [step, Pipeline.step, hc, hu, PipelineAction.Consumes, guard]
  by_cases hstuck : s.pipeline.Stuck
  · refine ⟨.consume (.raise false ""), { s with pipeline := s.pipeline.raise c "" }, rfl, ?_, ?_⟩
    · rintro (h | h)
      · cases h
      · exact h hstuck
    · simp [step, Pipeline.step, hc, PipelineAction.Consumes, guard]
  · refine hcomplete ?_
    rw [Pipeline.complete]
    split
    · rfl
    · rename_i hpc
      cases hproj : projectToPostgres s.pipeline.readModel c.event with
      | none => exact absurd ⟨c, hc, hpc, hproj⟩ hstuck
      | some rm => rfl
    all_goals rfl

/-- **Until the loop is at rest, some move that brings in nothing is enabled.** -/
theorem exists_move [Btree] (hs : s.Sound) (hp : 0 < s.pipeline.partitions) (hrest : ¬ s.AtRest) :
    ∃ a t, a.works = true ∧ ¬ s.Disturbs a ∧ s.step a = some t := by
  cases hc : s.pipeline.current with
  | some c => exact exists_consume hc
  | none =>
      have hcaught : ∀ q, s.pipeline.committed q = s.pipeline.position q := by
        intro q
        rcases hs.offsets.behind q with heq | ⟨c, hc', _⟩
        · exact heq
        · simp [hc] at hc'
      by_cases hread : ∀ p < s.pipeline.partitions,
          s.pipeline.committed p = (s.pipeline.topic p).length
      · cases hinv : s.invocations with
        | cons v vs =>
            -- the first invocation goes on
            have hv : s.invocations[0]? = some v := by simp [hinv]
            cases hpc : v.pc with
            | handOver =>
                have hlt := hs.received v (List.mem_of_getElem? hv)
                have hm : s.pipeline.dlq[v.message]? = some s.pipeline.dlq[v.message] :=
                  List.getElem?_eq_getElem hlt
                refine ⟨.handOver 0 0 .completes, { s with
                  pipeline := s.pipeline.handOver 0 s.pipeline.dlq[v.message]
                  invocations := s.invocations.set 0 { v with pc := .delete } }, rfl,
                  by simp [Disturbs], ?_⟩
                simp [step, hp, hv, hpc, hm, guard]
            | delete =>
                refine ⟨.delete 0 .completes, { s with
                  deleted := v.message :: s.deleted
                  invocations := s.invocations.eraseIdx 0 }, rfl, by simp [Disturbs], ?_⟩
                simp [step, hv, hpc, guard]
        | nil =>
            -- a message waits
            have hwaits : ∃ i < s.pipeline.dlq.length, i ∉ s.deleted := by
              by_contra hnone
              push Not at hnone
              exact hrest ⟨hc, hread, hnone, hinv⟩
            obtain ⟨i, hi, hnot⟩ := hwaits
            refine ⟨.receive i, { s with invocations := s.invocations ++ [⟨i, .handOver⟩] }, rfl,
              by simp [Disturbs, hinv], ?_⟩
            simp [step, hi, hnot, guard]
      · -- a record is unread
        push Not at hread
        obtain ⟨p, hp, hne⟩ := hread
        have hlt : s.pipeline.position p < (s.pipeline.topic p).length := by
          have hle := hs.offsets.bound p
          have heq := hcaught p
          omega
        obtain ⟨d, hd⟩ : ∃ d, (s.pipeline.topic p)[s.pipeline.position p]? = some d :=
          ⟨_, List.getElem?_eq_getElem hlt⟩
        refine ⟨.consume (.poll p), { s with pipeline := { s.pipeline with
          position := Function.update s.pipeline.position p (s.pipeline.position p + 1)
          current := some ⟨p, d, d.event.firstCall⟩ } }, rfl, id, ?_⟩
        simp [step, Pipeline.step, hp, hc, hd, guard, PipelineAction.Consumes]

end RetryLoop

/-- **The loop comes to rest.**  In every run there are at most 44 moves for each event sent and for
each failure of a call that could have completed, crash, stop or repeated receipt; as long as the
loop is not at rest, some move that is none of these is enabled; and such moves lead from every
state reached to one at rest, also when some events can never be projected. -/
theorem comes_to_rest [Btree] {partitions : ℕ} {rm : ReadModel} {as : List LoopAction}
    {s : RetryLoop}
    (hp : 0 < partitions) (hrun : run RetryLoop.step (.init partitions rm) as = some s) :
    as.countP LoopAction.works ≤
        44 * cost RetryLoop.step RetryLoop.disturbance (.init partitions rm) as ∧
      (¬ s.AtRest → ∃ a t, a.works = true ∧ ¬ s.Disturbs a ∧ s.step a = some t) ∧
      ∃ bs t, Along RetryLoop.step (fun s a => ¬ s.Disturbs a) s bs ∧
        run RetryLoop.step s bs = some t ∧ t.AtRest := by
  have hsound : s.Sound ∧ 0 < s.pipeline.partitions :=
    run_preserves (P := fun s => s.Sound ∧ 0 < s.pipeline.partitions)
      (fun hs h => ⟨sound_step hs.1 h, RetryLoop.partitions_step h ▸ hs.2⟩)
      ⟨sound_init partitions rm, hp⟩ hrun
  refine ⟨?_, RetryLoop.exists_move hsound.1 hsound.2, ?_⟩
  · have hle : cost RetryLoop.step (fun _ a => a.works.toNat) (.init partitions rm) as +
        s.workLeft ≤
          cost RetryLoop.step (fun s a => 44 * s.disturbance a) (.init partitions rm) as +
            (RetryLoop.init partitions rm).workLeft := by
      refine cost_le (P := RetryLoop.Sound) ?_ ?_ (sound_init partitions rm) hrun
      · exact fun hs h => sound_step hs h
      · exact fun hs h => RetryLoop.work_step hs h
    rw [cost_count hrun, cost_mul] at hle
    have hstart : (RetryLoop.init partitions rm).workLeft = 0 := by
      simp [RetryLoop.workLeft, Pipeline.work, Pipeline.unreadWork, RetryLoop.waitingWork,
        RetryLoop.waiting, RetryLoop.invokedWork, RetryLoop.init, Pipeline.init]
    omega
  · refine exists_run_along (P := fun s => s.Sound ∧ 0 < s.pipeline.partitions)
      RetryLoop.workLeft (fun {s} hs hrest => ?_) hsound
    obtain ⟨a, t, hworks, hcalm, hstep⟩ := RetryLoop.exists_move hs.1 hs.2 hrest
    have hpaid := RetryLoop.work_step hs.1 hstep
    have hnothing : s.disturbance a = 0 := if_neg hcalm
    rw [hworks, hnothing, Bool.toNat_true] at hpaid
    exact ⟨a, t, hcalm, hstep, ⟨sound_step hs.1 hstep, RetryLoop.partitions_step hstep ▸ hs.2⟩,
      by omega⟩

/-- The poison pill, up to its third retry. -/
def retriedRun : List LoopAction := poisonRun.take 20

theorem retriedRun_rests : ∃ s, run RetryLoop.step (.init 1 .empty) retriedRun = some s ∧
    ¬ s.AtRest ∧ s.deleted = [1, 0] ∧
    (∃ a t, a.works = true ∧ ¬ s.Disturbs a ∧ s.step a = some t) ∧
    ∃ bs t, Along RetryLoop.step (fun s a => ¬ s.Disturbs a) s bs ∧
      run RetryLoop.step s bs = some t ∧ t.AtRest := by
  have heval : ((run RetryLoop.step (.init 1 .empty) retriedRun).any fun s =>
      decide (¬ s.AtRest ∧ s.deleted = [1, 0])) = true := by
    decide +kernel
  obtain ⟨s, hrun, hrest, hdeleted⟩ := exists_run_of_eval heval
  obtain ⟨_, hmove, hend⟩ := comes_to_rest (by decide) hrun
  exact ⟨s, hrun, hrest, hdeleted, hmove hrest, hend⟩

end OrderCqrs
