import OrderCqrs.Delivery.RetryLoop
import OrderCqrs.Logic.Lists

/-!
How often an event is retried.

* `Lineage`: the messages on the chain that led to a record or a message, by their ids.
* `TracedLoop`: the loop with the lineages of all records and messages; `traced_run` says that the
  lineages only observe it.
* `RetriesBounded`: the retry counts are the lengths of the lineages and at most three, a message
  with count three is on no lineage, and one that is deleted has its dead letter stored.
* `retries_bounded`: **in every state reached the retries are bounded**.
-/

namespace OrderCqrs

open Runs ListTables

/-! ### Lineages -/

/-- The chain that led to a record or a message: the messages the Lambda has published again on it,
the last one first. -/
abbrev Lineage := List ℕ

/-- The loop with the lineage of every record and of every message. -/
structure TracedLoop where
  loop : RetryLoop
  records : ℕ → List Lineage
  messages : List Lineage

namespace TracedLoop

/-- Nothing sent, nothing received. -/
def init (partitions : ℕ) (rm : ReadModel) : TracedLoop where
  loop := .init partitions rm
  records := fun _ => []
  messages := []

/-- The lineage of the record in the consumer's hands. -/
def currentLineage (s : TracedLoop) : Lineage :=
  s.loop.pipeline.current.elim [] fun c =>
    (s.records c.partition)[s.loop.pipeline.position c.partition - 1]?.getD []

/-- The lineage of what a move sends to the topic: that of the message, with the message on top,
when the Lambda publishes it, and the empty one when the publisher does. -/
def sentLineage (s : TracedLoop) : LoopAction → Lineage
  | .handOver j _ _ =>
      s.loop.invocations[j]?.elim [] fun v => v.message :: s.messages[v.message]?.getD []
  | _ => []

end TracedLoop

/-- A list that keeps up with the length of another. -/
def keepUp {α : Type*} (l : List α) (n : ℕ) (x : α) : List α := if l.length < n then l ++ [x] else l

namespace TracedLoop

/-- The loop after a move, the records sent in it with the lineage `sent`, the message sent in it
with that of the consumer's record. -/
def after (s : TracedLoop) (sent : Lineage) (loop : RetryLoop) : TracedLoop where
  loop := loop
  records := fun p => keepUp (s.records p) (loop.pipeline.topic p).length sent
  messages := keepUp s.messages loop.pipeline.dlq.length s.currentLineage

/-- A move of the loop; what it adds to the topic or to the queue has the lineage of what it was
made from. -/
def step [Btree] (s : TracedLoop) (a : LoopAction) : Option TracedLoop :=
  (s.loop.step a).map (s.after (s.sentLineage a))

end TracedLoop

/-- **The lineages only observe the loop**: every run of it has its lineages. -/
theorem traced_run [Btree] {s : TracedLoop} {as : List LoopAction} {u : RetryLoop}
    (h : run RetryLoop.step s.loop as = some u) :
    ∃ t, run TracedLoop.step s as = some t ∧ t.loop = u := by
  induction as generalizing s with
  | nil => exact ⟨s, rfl, Option.some.inj h⟩
  | cons a as ih =>
      obtain ⟨v, hv, h⟩ := (run_cons_eq_some _).mp h
      have ht : s.step a = some (s.after (s.sentLineage a) v) := by
        rw [TracedLoop.step, hv, Option.map_some]
      obtain ⟨w, hw, hwu⟩ := ih (s := s.after (s.sentLineage a) v) h
      exact ⟨w, (run_cons_eq_some _).mpr ⟨_, ht, hw⟩, hwu⟩

/-! ### Bounded retries -/

/-- A count that is the length of a lineage, and within the bound. -/
def Counts (count : ℕ) (l : Lineage) : Prop := count = l.length ∧ l.length ≤ maxRetries

/-- The message had not used up its retries. -/
def RetryLoop.Retryable (s : RetryLoop) (i : ℕ) : Prop :=
  ∃ m, s.pipeline.dlq[i]? = some m ∧ m.retryCount < maxRetries

/-- If the message had used up its retries, a dead letter of its event is stored. -/
def RetryLoop.DeadLettered (s : RetryLoop) (i : ℕ) : Prop :=
  ∃ m, s.pipeline.dlq[i]? = some m ∧
    (m.retryCount = maxRetries → ∃ letter ∈ s.pipeline.deadLetters, letter.event = m.event)

/-- **The retries are bounded.** -/
structure RetriesBounded (s : TracedLoop) : Prop where
  /-- The count of a record, 0 when absent, is the number of publications again on its chain. -/
  record : ∀ p, List.Forall₂ (fun d l => Counts (d.retryCount.getD 0) l)
    (s.loop.pipeline.topic p) (s.records p)
  /-- So is the count of a message. -/
  message : List.Forall₂ (fun m l => Counts m.retryCount l) s.loop.pipeline.dlq s.messages
  /-- A message that has been published again had not used up its retries. -/
  republished : ∀ p, ∀ l ∈ s.records p, ∀ i ∈ l, s.loop.Retryable i
  /-- A message that had used them up is deleted only after its dead letter was stored. -/
  deleted : ∀ i ∈ s.loop.deleted, s.loop.DeadLettered i

section Lists

variable {α : Type*} {l : List α} {x : α} {n : ℕ}

lemma keepUp_eq (h : l.length = n) : keepUp l n x = l := if_neg (by omega)

lemma keepUp_grow (h : n = l.length + 1) : keepUp l n x = l ++ [x] := if_pos (by omega)

end Lists

/-- What a move makes of a list and of the lineages of its entries: nothing, or one entry more with
its lineage. -/
inductive Grown {α : Type*} (ok : α → Lineage → Prop) (xs : List α) (ls : List Lineage) :
    List α → List Lineage → Prop where
  | same : Grown ok xs ls xs ls
  | one {x : α} {l : Lineage} : ok x l → Grown ok xs ls (xs ++ [x]) (ls ++ [l])

namespace Grown

variable {α : Type*} {ok R : α → Lineage → Prop} {xs xs' : List α} {ls ls' : List Lineage}
  {l : Lineage} {x : α}

lemma keepUp_same (h : xs.length = ls.length) :
    Grown ok xs ls xs (keepUp ls xs.length l) := by
  rw [keepUp_eq h.symm]
  exact .same

lemma keepUp_one (h : xs.length = ls.length) (hok : ok x l) :
    Grown ok xs ls (xs ++ [x]) (keepUp ls (xs ++ [x]).length l) := by
  rw [keepUp_grow (by rw [List.length_append, List.length_singleton, h])]
  exact .one hok

lemma isPrefix (h : Grown ok xs ls xs' ls') : xs <+: xs' := by
  cases h with
  | same => exact List.prefix_refl _
  | one => exact List.prefix_append _ _

lemma forall₂ (h : Grown ok xs ls xs' ls') (hR : ∀ x l, ok x l → R x l)
    (hall : List.Forall₂ R xs ls) : List.Forall₂ R xs' ls' := by
  cases h with
  | same => exact hall
  | one hok => exact List.rel_append hall (.cons (hR _ _ hok) .nil)

lemma mem (h : Grown ok xs ls xs' ls') (hl : l ∈ ls') : l ∈ ls ∨ ∃ x, ok x l := by
  cases h with
  | same => exact Or.inl hl
  | one hok =>
      rcases List.mem_append.mp hl with hl | hl
      · exact Or.inl hl
      · obtain rfl := List.mem_singleton.mp hl
        exact Or.inr ⟨_, hok⟩

end Grown

/-- A step that keeps the queue's messages keeps what is known of them. -/
lemma RetryLoop.Retryable.mono {s t : RetryLoop} {i : ℕ} (h : s.Retryable i)
    (hdlq : s.pipeline.dlq <+: t.pipeline.dlq) : t.Retryable i := by
  obtain ⟨m, hm, hlt⟩ := h
  exact ⟨m, getElem?_of_isPrefix hdlq hm, hlt⟩

lemma RetryLoop.DeadLettered.mono {s t : RetryLoop} {i : ℕ} (h : s.DeadLettered i)
    (hdlq : s.pipeline.dlq <+: t.pipeline.dlq)
    (hletters : s.pipeline.deadLetters ⊆ t.pipeline.deadLetters) : t.DeadLettered i := by
  obtain ⟨m, hm, hmax⟩ := h
  refine ⟨m, getElem?_of_isPrefix hdlq hm, fun hcount => ?_⟩
  obtain ⟨letter, hmem, heq⟩ := hmax hcount
  exact ⟨letter, hletters hmem, heq⟩

/-! ### The invariant -/

namespace TracedLoop

variable {s t : TracedLoop}

/-- An entry that may be added: counted by its lineage, which leads over messages that had not used
up their retries. -/
def Allowed (s : TracedLoop) (count : ℕ) (l : Lineage) : Prop :=
  Counts count l ∧ ∀ i ∈ l, s.loop.Retryable i

/-- The part of a move that concerns records and messages. -/
structure Extends (s t : TracedLoop) : Prop where
  records : ∀ p, Grown (fun d l => s.Allowed (d.retryCount.getD 0) l) (s.loop.pipeline.topic p)
    (s.records p) (t.loop.pipeline.topic p) (t.records p)
  messages : Grown (fun m l => s.Allowed m.retryCount l) s.loop.pipeline.dlq s.messages
    t.loop.pipeline.dlq t.messages
  letters : s.loop.pipeline.deadLetters ⊆ t.loop.pipeline.deadLetters

end TracedLoop

/-- The invariant: the bounds, and what they rest on in the queue and in the hands of consumer and
Lambda. -/
structure LineageInv (s : TracedLoop) : Prop where
  bounded : RetriesBounded s
  holds : s.loop.pipeline.Holds
  ancestors : ∀ l ∈ s.messages, ∀ i ∈ l, s.loop.Retryable i
  received : ∀ v ∈ s.loop.invocations, v.message < s.loop.pipeline.dlq.length
  deleting : ∀ v ∈ s.loop.invocations, v.pc = .delete → s.loop.DeadLettered v.message

namespace LineageInv

variable {s t : TracedLoop}

lemma init (partitions : ℕ) (rm : ReadModel) : LineageInv (.init partitions rm) where
  bounded :=
    { record := fun _ => .nil
      message := .nil
      republished := by simp [TracedLoop.init]
      deleted := by simp [TracedLoop.init, RetryLoop.init] }
  holds := by simp [TracedLoop.init, RetryLoop.init, Pipeline.init, Pipeline.Holds]
  ancestors := by simp [TracedLoop.init]
  received := by simp [TracedLoop.init, RetryLoop.init]
  deleting := by simp [TracedLoop.init, RetryLoop.init]

/-- A move that adds what is allowed keeps the invariant, provided the consumer and the Lambda keep
their part of it. -/
lemma extend (hs : LineageInv s) (hext : s.Extends t) (hholds : t.loop.pipeline.Holds)
    (hdeleted : ∀ i ∈ t.loop.deleted, i ∈ s.loop.deleted ∨ t.loop.DeadLettered i)
    (hinvocations : ∀ v ∈ t.loop.invocations, v ∈ s.loop.invocations ∨
      v.message < t.loop.pipeline.dlq.length ∧ (v.pc = .delete → t.loop.DeadLettered v.message)) :
    LineageInv t := by
  have hdlq := hext.messages.isPrefix
  have hletter : ∀ {i}, s.loop.DeadLettered i → t.loop.DeadLettered i :=
    fun h => h.mono hdlq hext.letters
  refine ⟨⟨fun p => ?_, ?_, fun p l hl i hi => ?_, fun i hi => ?_⟩, hholds, fun l hl i hi => ?_,
    fun v hv => ?_, fun v hv hpc => ?_⟩
  · exact (hext.records p).forall₂ (fun _ _ h => h.1) (hs.bounded.record p)
  · exact hext.messages.forall₂ (fun _ _ h => h.1) hs.bounded.message
  · rcases (hext.records p).mem hl with hl | ⟨_, _, hl⟩
    · exact (hs.bounded.republished p l hl i hi).mono hdlq
    · exact (hl i hi).mono hdlq
  · rcases hdeleted i hi with hi | hi
    · exact hletter (hs.bounded.deleted i hi)
    · exact hi
  · rcases hext.messages.mem hl with hl | ⟨_, _, hl⟩
    · exact (hs.ancestors l hl i hi).mono hdlq
    · exact (hl i hi).mono hdlq
  · rcases hinvocations v hv with hv | ⟨hlt, _⟩
    · exact (hs.received v hv).trans_le hdlq.length_le
    · exact hlt
  · rcases hinvocations v hv with hv | ⟨_, hletter'⟩
    · exact hletter (hs.deleting v hv hpc)
    · exact hletter' hpc

/-- The lineage of a message, counted. -/
lemma message_lineage (hs : LineageInv s) {i : ℕ} {m : DlqMessage}
    (hm : s.loop.pipeline.dlq[i]? = some m) :
    Counts m.retryCount (s.messages[i]?.getD []) ∧
      ∀ j ∈ s.messages[i]?.getD [], s.loop.Retryable j := by
  obtain ⟨l, hl, hcount⟩ := forall₂_getElem? hs.bounded.message hm
  rw [hl]
  exact ⟨hcount, hs.ancestors l (List.mem_of_getElem? hl)⟩

/-- The lineage of the record in the consumer's hands, counted. -/
lemma current_lineage (hs : LineageInv s) {c : InFlight}
    (hc : s.loop.pipeline.current = some c) :
    s.Allowed (c.delivery.retryCount.getD 0) s.currentLineage := by
  obtain ⟨k, hk, hd⟩ := hs.holds c hc
  obtain ⟨l, hl, hcount⟩ := forall₂_getElem? (hs.bounded.record c.partition) hd
  rw [TracedLoop.currentLineage, hc, Option.elim_some, hk, Nat.add_sub_cancel, hl]
  exact ⟨hcount, hs.bounded.republished c.partition l (List.mem_of_getElem? hl)⟩

/-- A record that is sent, with an allowed lineage. -/
lemma grown_send (hs : LineageInv s) (p : ℕ) {d : Delivery} {l : Lineage}
    (hok : s.Allowed (d.retryCount.getD 0) l) (q : ℕ) :
    Grown (fun d l => s.Allowed (d.retryCount.getD 0) l) (s.loop.pipeline.topic q) (s.records q)
      (Function.update s.loop.pipeline.topic p (s.loop.pipeline.topic p ++ [d]) q)
      (keepUp (s.records q)
        (Function.update s.loop.pipeline.topic p (s.loop.pipeline.topic p ++ [d]) q).length l) := by
  by_cases hq : q = p
  · subst hq
    rw [Function.update_self]
    exact .keepUp_one (hs.bounded.record q).length_eq hok
  · rw [Function.update_of_ne hq]
    exact .keepUp_same (hs.bounded.record q).length_eq

/-- What the handover of a message adds, and what it leaves to be deleted. -/
lemma handOver (hs : LineageInv s) (p : ℕ) {i : ℕ} {m : DlqMessage} {loop : RetryLoop}
    (hm : s.loop.pipeline.dlq[i]? = some m)
    (hloop : loop.pipeline = s.loop.pipeline.handOver p m) :
    s.Extends (s.after (i :: s.messages[i]?.getD []) loop) ∧ loop.pipeline.Holds ∧
      loop.DeadLettered i := by
  obtain ⟨_, deleted, invocations⟩ := loop
  subst hloop
  rcases s.loop.pipeline.handOver_cases p m with
    ⟨hlt, d, _, hd, heq⟩ | ⟨hmax, letter, hletter, heq⟩
  · obtain ⟨hcount, hback⟩ := hs.message_lineage hm
    have hok : s.Allowed (d.retryCount.getD 0) (i :: s.messages[i]?.getD []) := by
      rw [hd, Option.getD_some]
      refine ⟨⟨by rw [hcount.1, List.length_cons], ?_⟩, fun j hj => ?_⟩
      · rw [List.length_cons, ← hcount.1]
        exact hlt
      · rcases List.mem_cons.mp hj with rfl | hj
        · exact ⟨m, hm, hlt⟩
        · exact hback j hj
    rw [heq]
    exact ⟨⟨hs.grown_send p hok, .keepUp_same hs.bounded.message.length_eq, List.Subset.refl _⟩,
      Pipeline.holds_send hs.holds p d, m, hm, fun hcon => absurd hcon hlt.ne⟩
  · rw [heq]
    exact ⟨⟨fun q => .keepUp_same (hs.bounded.record q).length_eq,
      .keepUp_same hs.bounded.message.length_eq, List.subset_append_left _ _⟩, hs.holds, m, hm,
      fun _ => ⟨letter, by simp, hletter⟩⟩

/-- A move that leaves the pipeline alone adds nothing. -/
lemma extends_same (hs : LineageInv s) (sent : Lineage) {loop : RetryLoop}
    (hloop : loop.pipeline = s.loop.pipeline) : s.Extends (s.after sent loop) := by
  obtain ⟨_, deleted, invocations⟩ := loop
  subst hloop
  exact ⟨fun q => .keepUp_same (hs.bounded.record q).length_eq,
    .keepUp_same hs.bounded.message.length_eq, List.Subset.refl _⟩

/-- **Every move keeps the invariant.** -/
theorem step [Btree] {a : LoopAction} (hs : LineageInv s) (h : s.step a = some t) :
    LineageInv t := by
  obtain ⟨loop, hloop, rfl⟩ := Option.map_eq_some_iff.mp h
  cases a with
  | produce p e =>
      obtain ⟨_, rfl⟩ := RetryLoop.produce_cases hloop
      exact hs.extend ⟨hs.grown_send p ⟨⟨rfl, Nat.zero_le _⟩, by simp [TracedLoop.sentLineage]⟩,
        .keepUp_same hs.bounded.message.length_eq, List.Subset.refl _⟩
        (Pipeline.holds_send hs.holds p _) (fun i hi => Or.inl hi) fun v hv => Or.inl hv
  | consume a =>
      obtain ⟨ha, hu, hdeleted, hinvocations⟩ := RetryLoop.consume_cases hloop
      have hcons := Pipeline.consume_cases ha hu
      refine hs.extend ⟨fun q => ?_, ?_, ?_⟩ (Pipeline.holds_consume ha hs.holds hu)
        (fun i hi => Or.inl (hdeleted ▸ hi)) fun v hv => Or.inl (hinvocations ▸ hv)
      · simp only [TracedLoop.after, hcons.topic]
        exact .keepUp_same (hs.bounded.record q).length_eq
      · simp only [TracedLoop.after]
        rcases hcons.dlq with hdlq | ⟨c, error, hc, _, hdlq⟩
        · rw [hdlq]
          exact .keepUp_same hs.bounded.message.length_eq
        · rw [hdlq]
          exact .keepUp_one hs.bounded.message.length_eq (hs.current_lineage hc)
      · simp only [TracedLoop.after, hcons.deadLetters]
        exact List.Subset.refl _
  | receive i =>
      obtain ⟨⟨hlt, _⟩, rfl⟩ := RetryLoop.receive_cases hloop
      refine hs.extend (hs.extends_same _ (by rfl)) hs.holds (fun i hi => Or.inl hi)
        fun v hv => ?_
      rcases List.mem_append.mp hv with hv | hv
      · exact Or.inl hv
      · obtain rfl := List.mem_singleton.mp hv
        exact Or.inr ⟨hlt, by simp⟩
  | handOver j p outcome =>
      obtain ⟨_, v, m, hv, _, hm, hdeleted, hcases⟩ := RetryLoop.handOver_cases hloop
      have hsent : s.sentLineage (.handOver j p outcome) =
          v.message :: s.messages[v.message]?.getD [] := by
        rw [TracedLoop.sentLineage, hv, Option.elim_some]
      have herase : ∀ w ∈ s.loop.invocations.eraseIdx j, w ∈ s.loop.invocations :=
        fun w hw => List.mem_of_mem_eraseIdx hw
      rw [hsent]
      rcases hcases with ⟨_, hpipe, hinv⟩ | ⟨_, hpipe, hinv⟩ | ⟨_, hpipe, hinv⟩
      · obtain ⟨hext, hholds, hletter⟩ := hs.handOver p hm hpipe
        refine hs.extend hext hholds (fun i hi => Or.inl (hdeleted ▸ hi)) fun w hw => ?_
        rcases List.mem_or_eq_of_mem_set (hinv ▸ hw) with hw | rfl
        · exact Or.inl hw
        · exact Or.inr ⟨(hs.received v (List.mem_of_getElem? hv)).trans_le
            hext.messages.isPrefix.length_le, fun _ => hletter⟩
      · refine hs.extend (hs.extends_same _ hpipe) ?_ (fun i hi => Or.inl (hdeleted ▸ hi))
          fun w hw => Or.inl (herase w (hinv ▸ hw))
        rw [TracedLoop.after, hpipe]
        exact hs.holds
      · obtain ⟨hext, hholds, _⟩ := hs.handOver p hm hpipe
        exact hs.extend hext hholds (fun i hi => Or.inl (hdeleted ▸ hi))
          fun w hw => Or.inl (herase w (hinv ▸ hw))
  | delete j outcome =>
      obtain ⟨v, hv, hpc, rfl⟩ := RetryLoop.delete_cases hloop
      refine hs.extend (hs.extends_same _ (by rfl)) hs.holds (fun i hi => ?_)
        fun w hw => Or.inl (List.mem_of_mem_eraseIdx hw)
      dsimp only [TracedLoop.after] at hi
      split_ifs at hi
      · exact Or.inl hi
      · rcases List.mem_cons.mp hi with rfl | hi
        · exact Or.inr (hs.deleting v (List.mem_of_getElem? hv) hpc)
        · exact Or.inl hi
  | stop j =>
      obtain rfl := RetryLoop.stop_cases hloop
      exact hs.extend (hs.extends_same _ (by rfl)) hs.holds (fun i hi => Or.inl hi)
        fun w hw => Or.inl (List.mem_of_mem_eraseIdx hw)

end LineageInv

/-- **Retries are bounded along every lineage**: in every state that publisher, consumer and Lambda
can reach, with any crashes, failing calls and repeated deliveries, the retry count of a record or a
message is the number of publications again on its chain and at most three, a message that has used
them up has never been published again, and its deletion comes after its dead letter. -/
theorem retries_bounded [Btree] {partitions : ℕ} {rm : ReadModel} {as : List LoopAction}
    {s : TracedLoop}
    (hrun : run TracedLoop.step (.init partitions rm) as = some s) : RetriesBounded s :=
  (run_preserves (fun hs h => LineageInv.step hs h) (LineageInv.init partitions rm) hrun).bounded

/-- The consumer takes a record and fails to project it, and the Lambda handles message `i`. -/
def poisonRound (i : ℕ) : List LoopAction :=
  [.consume (.poll 0), .consume .complete, .consume (.raise false "out of range"),
    .consume .complete, .consume .complete, .receive i, .handOver 0 0 .completes,
    .delete 0 .completes]

/-- An event that can never be projected, until the Lambda puts it away. -/
def poisonRun : List LoopAction :=
  .produce 0 (orderConfirmedEvent (.nth 1) "order-0" 2) :: (List.range 4).flatMap poisonRound

theorem poisonRun_bounded : ∃ s, run TracedLoop.step (.init 1 .empty) poisonRun = some s ∧
    s.records 0 = [[], [0], [1, 0], [2, 1, 0]] ∧ s.loop.deleted = [3, 2, 1, 0] ∧
    s.loop.pipeline.deadLetters.length = 1 ∧ RetriesBounded s := by
  have heval : ((run TracedLoop.step (.init 1 .empty) poisonRun).any fun s =>
      decide (s.records 0 = [[], [0], [1, 0], [2, 1, 0]] ∧ s.loop.deleted = [3, 2, 1, 0] ∧
        s.loop.pipeline.deadLetters.length = 1)) = true := by
    decide +kernel
  obtain ⟨s, hrun, hrecords, hdeleted, hletters⟩ := exists_run_of_eval heval
  exact ⟨s, hrun, hrecords, hdeleted, hletters, retries_bounded hrun⟩

end OrderCqrs
