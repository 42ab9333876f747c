import OrderCqrs.Delivery.Offsets

/-!
What becomes of an event that has been sent, over the whole loop of consumer, dead letter queue and
Lambda.

* `Pipeline.InTables`, `Pipeline.WasPut`: the two ends of an event.  It is put away with its
  retries used up; `Pipeline.PutAway` says that it is there, under its key, since a later put of the
  same key replaces what is stored.
* `RetryLoop.Tracked`: an event has come to one of its ends, or a copy of it that has been retried
  often enough is unread or queued.
* `RetryLoop.Queues`: no failing send to the queue drops an event that is not in the tables.
* `FateInv`: **every event sent is tracked**.  A message that is about to be deleted has been handed
  on, and the copy that tracks its event has a higher count, so that no two messages vouch for each
  other.
* `Lettered`: what has been put is an event that was sent, under its own key.
* `settled_at_rest`: **when the loop is at rest, every event is in the tables or put away**, if no
  two events share a key.
-/

namespace OrderCqrs

open Runs ListTables Partitions

/-! ### The ends of an event -/

/-- The event has been projected, or another one under its id. -/
def Pipeline.InTables (s : Pipeline) (e : Event) : Prop :=
  e ∈ s.transactions ∨ e.eventId ≠ "" ∧ ∃ e' ∈ s.transactions, e'.eventId = e.eventId

instance (s : Pipeline) (e : Event) : Decidable (s.InTables e) :=
  inferInstanceAs (Decidable
    (e ∈ s.transactions ∨ e.eventId ≠ "" ∧ ∃ e' ∈ s.transactions, e'.eventId = e.eventId))

lemma Pipeline.InTables.exists_id {s : Pipeline} {e : Event} (h : s.InTables e) :
    ∃ e' ∈ s.transactions, e'.eventId = e.eventId := by
  rcases h with h | ⟨_, h⟩
  · exact ⟨e, h, rfl⟩
  · exact h

/-- The event was put into the dead letter storage, after all its retries. -/
def Pipeline.WasPut (s : Pipeline) (e : Event) : Prop :=
  ∃ letter ∈ s.deadLetters, letter.event.event = e ∧ maxRetries ≤ letter.retryCount

/-- The object under a key of the dead letter storage: that of the last put. -/
def Pipeline.storedLetter? (s : Pipeline) (key : String) : Option DeadLetter :=
  (s.deadLetters.filter (·.key = key)).getLast?

/-- The event is in the dead letter storage under its key, with its retries used up. -/
def Pipeline.PutAway (s : Pipeline) (e : Event) : Prop :=
  ∃ letter ∈ s.storedLetter? (deadLetterKey e),
    letter.event.event = e ∧ maxRetries ≤ letter.retryCount

/-- The consumer sends its record to the queue. -/
def ConsumerPc.Sends : ConsumerPc → Prop
  | .sendToDlq _ => True
  | _ => False

instance : (pc : ConsumerPc) → Decidable pc.Sends
  | .sendToDlq _ => .isTrue trivial
  | .redisExists | .commitSkipped | .project | .invalidateCache | .setProcessed | .setExpiry
  | .commit | .commitFailed => .isFalse id

/-- **The send to the queue drops no event** that is not in the tables: it may raise, but only after
its effect or for an event projected before. -/
def RetryLoop.Queues (s : RetryLoop) : LoopAction → Prop
  | .consume (.raise afterEffect _) => ∀ c ∈ s.pipeline.current, c.pc.Sends →
      afterEffect = true ∨ s.pipeline.InTables c.event
  | _ => True

instance (s : RetryLoop) : (a : LoopAction) → Decidable (s.Queues a)
  | .consume (.raise afterEffect _) =>
      inferInstanceAs (Decidable (∀ c ∈ s.pipeline.current, c.pc.Sends →
        afterEffect = true ∨ s.pipeline.InTables c.event))
  | .consume (.poll _) | .consume .complete | .consume .crash | .consume (.expire _)
  | .consume (.retry _ _ _) | .produce _ _ | .receive _ | .handOver _ _ _ | .delete _ _
  | .stop _ => .isTrue trivial

/-! ### Where an event is -/

namespace RetryLoop

/-- A record of the event behind the offsets that has been retried `n` times at least. -/
def Unread (s : RetryLoop) (offset : ℕ → ℕ) (n : ℕ) (e : Event) : Prop :=
  ∃ p < s.pipeline.partitions, ∃ k d, offset p ≤ k ∧ (s.pipeline.topic p)[k]? = some d ∧
    d.event = e ∧ n ≤ d.count

/-- A message of the event that has been retried `n` times at least and is not deleted. -/
def Queued (s : RetryLoop) (n : ℕ) (e : Event) : Prop :=
  ∃ i m, s.pipeline.dlq[i]? = some m ∧ i ∉ s.deleted ∧ m.event.event = e ∧ n ≤ m.retryCount

/-- **The event is tracked** from the `n`-th retry on. -/
inductive Tracked (s : RetryLoop) (offset : ℕ → ℕ) (n : ℕ) (e : Event) : Prop where
  | inTables : s.pipeline.InTables e → Tracked s offset n e
  | wasPut : s.pipeline.WasPut e → Tracked s offset n e
  | unread : s.Unread offset n e → Tracked s offset n e
  | queued : s.Queued n e → Tracked s offset n e

/-- What is known of the record in the consumer's hands at each call. -/
def Knows (s : RetryLoop) (c : InFlight) : Prop :=
  match c.pc with
  | .redisExists => c.event.eventId ≠ ""
  | .project | .sendToDlq _ => True
  | .commitSkipped | .invalidateCache | .setProcessed | .setExpiry | .commit =>
      s.pipeline.InTables c.event
  | .commitFailed => s.Tracked s.pipeline.position c.delivery.count c.event

/-- A move takes nothing back but what it deletes. -/
structure Grows (s t : RetryLoop) : Prop where
  partitions : t.pipeline.partitions = s.pipeline.partitions
  topic : ∀ p, s.pipeline.topic p <+: t.pipeline.topic p
  transactions : s.pipeline.transactions ⊆ t.pipeline.transactions
  deadLetters : s.pipeline.deadLetters ⊆ t.pipeline.deadLetters
  dlq : s.pipeline.dlq <+: t.pipeline.dlq
  deleted : t.deleted ⊆ s.deleted

end RetryLoop

section Tracking

variable {s t : RetryLoop} {offset offset' : ℕ → ℕ} {m n : ℕ} {e : Event} {c : InFlight}

lemma Pipeline.InTables.mono {s t : Pipeline} (h : s.InTables e)
    (hsub : s.transactions ⊆ t.transactions) : t.InTables e := by
  rcases h with h | ⟨hne, e', he', hid⟩
  · exact Or.inl (hsub h)
  · exact Or.inr ⟨hne, e', hsub he', hid⟩

namespace RetryLoop

/-- A move of the offsets takes nothing back. -/
lemma Grows.same (hparts : t.pipeline.partitions = s.pipeline.partitions)
    (htopic : t.pipeline.topic = s.pipeline.topic)
    (htransactions : t.pipeline.transactions = s.pipeline.transactions)
    (hletters : t.pipeline.deadLetters = s.pipeline.deadLetters)
    (hdlq : t.pipeline.dlq = s.pipeline.dlq) (hdeleted : t.deleted = s.deleted) : s.Grows t where
  partitions := hparts
  topic := fun p => by rw [htopic]
  transactions := htransactions ▸ List.Subset.refl _
  deadLetters := hletters ▸ List.Subset.refl _
  dlq := hdlq ▸ List.prefix_refl _
  deleted := hdeleted ▸ List.Subset.refl _

lemma Unread.mono (h : s.Unread offset n e)
    (hparts : t.pipeline.partitions = s.pipeline.partitions)
    (htopic : ∀ p, s.pipeline.topic p <+: t.pipeline.topic p) (hle : ∀ p, offset' p ≤ offset p) :
    t.Unread offset' n e := by
  obtain ⟨p, hp, k, d, hk, hd, hde, hn⟩ := h
  exact ⟨p, hparts ▸ hp, k, d, (hle p).trans hk, getElem?_of_isPrefix (htopic p) hd, hde, hn⟩

lemma Queued.mono (h : s.Queued n e) (hdlq : s.pipeline.dlq <+: t.pipeline.dlq)
    (hdeleted : t.deleted ⊆ s.deleted) : t.Queued n e := by
  obtain ⟨i, m, hm, hi, hme, hn⟩ := h
  exact ⟨i, m, getElem?_of_isPrefix hdlq hm, fun hmem => hi (hdeleted hmem), hme, hn⟩

/-- **An event stays tracked.** -/
lemma Tracked.mono (h : s.Tracked offset n e) (hgrow : s.Grows t)
    (hle : ∀ p, offset' p ≤ offset p) : t.Tracked offset' n e := by
  cases h with
  | inTables h => exact .inTables (h.mono hgrow.transactions)
  | wasPut h =>
      obtain ⟨letter, hmem, hletter⟩ := h
      exact .wasPut ⟨letter, hgrow.deadLetters hmem, hletter⟩
  | unread h => exact .unread (h.mono hgrow.partitions hgrow.topic hle)
  | queued h => exact .queued (h.mono hgrow.dlq hgrow.deleted)

/-- A copy with a higher count tracks the event at a lower one. -/
lemma Tracked.weaken (h : s.Tracked offset n e) (hle : m ≤ n) : s.Tracked offset m e := by
  cases h with
  | inTables h => exact .inTables h
  | wasPut h => exact .wasPut h
  | unread h =>
      obtain ⟨p, hp, k, d, hk, hd, hde, hn⟩ := h
      exact .unread ⟨p, hp, k, d, hk, hd, hde, hle.trans hn⟩
  | queued h =>
      obtain ⟨i, m', hm, hi, hme, hn⟩ := h
      exact .queued ⟨i, m', hm, hi, hme, hle.trans hn⟩

lemma Knows.imp (h : s.Knows c)
    (htables : s.pipeline.InTables c.event → t.pipeline.InTables c.event)
    (htracked : s.Tracked s.pipeline.position c.delivery.count c.event →
      t.Tracked t.pipeline.position c.delivery.count c.event) : t.Knows c := by
  obtain ⟨p, d, pc⟩ := c
  cases pc with
  | redisExists => exact h
  | project | sendToDlq _ => exact trivial
  | commitFailed => exact htracked h
  | commitSkipped | invalidateCache | setProcessed | setExpiry | commit => exact htables h

lemma Knows.mono (h : s.Knows c) (hgrow : s.Grows t)
    (hpos : t.pipeline.position = s.pipeline.position) : t.Knows c :=
  h.imp (fun htables => htables.mono hgrow.transactions)
    fun htracked => htracked.mono hgrow fun p => (congrFun hpos p).le

/-- What is tracked behind the committed offsets is tracked behind the positions, or it is the
record in the consumer's hands. -/
lemma Tracked.received (h : s.Tracked s.pipeline.committed n e) (hoff : s.pipeline.Offsets) :
    s.Tracked s.pipeline.position n e ∨
      ∃ c, s.pipeline.current = some c ∧ c.event = e ∧ n ≤ c.delivery.count := by
  cases h with
  | inTables h => exact Or.inl (.inTables h)
  | wasPut h => exact Or.inl (.wasPut h)
  | queued h => exact Or.inl (.queued h)
  | unread h =>
      obtain ⟨p, hp, k, d, hk, hd, hde, hn⟩ := h
      by_cases hpos : s.pipeline.position p ≤ k
      · exact Or.inl (.unread ⟨p, hp, k, d, hpos, hd, hde, hn⟩)
      · rcases hoff.behind p with heq | ⟨c, hc, rfl, heq⟩
        · omega
        · obtain ⟨k', hk', hd'⟩ := hoff.holds c hc
          obtain rfl : k = k' := by omega
          obtain rfl := Option.some.inj (hd'.symm.trans hd)
          exact Or.inr ⟨c, hc, hde, hn⟩

end RetryLoop

end Tracking

/-! ### The invariant -/

/-- **The invariant of the fates.** -/
structure FateInv (s : RetryLoop) : Prop where
  processed : ∀ id ∈ s.pipeline.processed, ∃ e ∈ s.pipeline.transactions, e.eventId = id
  knows : ∀ c, s.pipeline.current = some c → s.Knows c
  /-- A message that is about to be deleted has been handed on. -/
  deleting : ∀ v ∈ s.invocations, v.pc = .delete → ∃ m, s.pipeline.dlq[v.message]? = some m ∧
    s.Tracked s.pipeline.committed (m.retryCount + 1) m.event.event
  sent : ∀ p < s.pipeline.partitions, ∀ d ∈ s.pipeline.topic p,
    s.Tracked s.pipeline.committed 0 d.event

/-- What a call of the consumer leaves alone, and what it adds. -/
structure Pipeline.Effects (s u : Pipeline) : Prop where
  partitions : u.partitions = s.partitions
  topic : u.topic = s.topic
  position : u.position = s.position
  committed : u.committed = s.committed
  deadLetters : u.deadLetters = s.deadLetters
  transactions : s.transactions ⊆ u.transactions
  dlq : s.dlq <+: u.dlq
  processed : ∀ id ∈ u.processed, id ∈ s.processed ∨ ∃ e ∈ u.transactions, e.eventId = id

lemma Pipeline.Effects.refl (s : Pipeline) : s.Effects s :=
  ⟨rfl, rfl, rfl, rfl, rfl, List.Subset.refl _, List.prefix_refl _, fun _ => Or.inl⟩

namespace FateInv

variable {s t : RetryLoop} {c : InFlight} {u : Pipeline}

lemma init (partitions : ℕ) (rm : ReadModel) : FateInv (.init partitions rm) where
  processed := by simp [RetryLoop.init, Pipeline.init]
  knows := by simp [RetryLoop.init, Pipeline.init]
  deleting := by simp [RetryLoop.init]
  sent := by simp [RetryLoop.init, Pipeline.init]

/-- A move that sends and commits nothing, and goes on to delete nothing. -/
lemma mono (hs : FateInv s) (hgrow : s.Grows t)
    (hcommitted : t.pipeline.committed = s.pipeline.committed)
    (htopic : t.pipeline.topic = s.pipeline.topic)
    (hprocessed : ∀ id ∈ t.pipeline.processed, ∃ e ∈ t.pipeline.transactions, e.eventId = id)
    (hknows : ∀ c, t.pipeline.current = some c → t.Knows c)
    (hinvocations : ∀ v ∈ t.invocations, v.pc = .delete → v ∈ s.invocations) : FateInv t where
  processed := hprocessed
  knows := hknows
  deleting := by
    intro v hv hpc
    obtain ⟨m, hm, htracked⟩ := hs.deleting v (hinvocations v hv hpc) hpc
    exact ⟨m, getElem?_of_isPrefix hgrow.dlq hm,
      htracked.mono hgrow fun p => (congrFun hcommitted p).le⟩
  sent := by
    intro p hp d hd
    rw [htopic] at hd
    rw [hgrow.partitions] at hp
    exact (hs.sent p hp d hd).mono hgrow fun p => (congrFun hcommitted p).le

/-- **The consumer goes on with its record.** -/
lemma goto (hs : FateInv s) {pc : ConsumerPc}
    (hknows : RetryLoop.Knows { s with pipeline := u } { c with pc })
    (heff : s.pipeline.Effects u) : FateInv { s with pipeline := u.goto c pc } := by
  have hgrow : s.Grows { s with pipeline := u.goto c pc } :=
    ⟨heff.partitions, fun p => by rw [← congrFun heff.topic p]; exact List.prefix_refl _,
      heff.transactions, heff.deadLetters ▸ List.Subset.refl _, heff.dlq, List.Subset.refl _⟩
  refine hs.mono hgrow heff.committed heff.topic (fun id hid => ?_) (fun c' hc' => ?_)
    fun v hv _ => hv
  · rcases heff.processed id hid with hold | hnew
    · obtain ⟨e, he, hid⟩ := hs.processed id hold
      exact ⟨e, heff.transactions he, hid⟩
    · exact hnew
  · obtain rfl := Option.some.inj hc'
    exact hknows.mono (.same rfl rfl rfl rfl rfl rfl) rfl

/-- **The consumer commits.**  The record in its hands has come to its end or is in the queue. -/
lemma commit (hs : FateInv s) (hoff : s.pipeline.Offsets) (hc : s.pipeline.current = some c)
    (hdone : s.Tracked s.pipeline.position c.delivery.count c.event) :
    FateInv { s with pipeline := s.pipeline.commit } := by
  have hgrow : s.Grows { s with pipeline := s.pipeline.commit } := .same rfl rfl rfl rfl rfl rfl
  -- nothing is left between the committed offsets and the positions
  have hkeep : ∀ {n e}, s.Tracked s.pipeline.committed n e →
      RetryLoop.Tracked { s with pipeline := s.pipeline.commit } s.pipeline.position n e := by
    intro n e htracked
    refine RetryLoop.Tracked.mono ?_ hgrow fun p => le_rfl
    rcases htracked.received hoff with h | ⟨c', hc', rfl, hn⟩
    · exact h
    · obtain rfl := Option.some.inj (hc.symm.trans hc')
      exact hdone.weaken hn
  refine
    { processed := hs.processed
      knows := by simp [Pipeline.commit]
      deleting := fun v hv hpc => ?_
      sent := fun p hp d hd => hkeep (hs.sent p hp d hd) }
  obtain ⟨m, hm, htracked⟩ := hs.deleting v hv hpc
  exact ⟨m, hm, hkeep htracked⟩

/-- **The consumer starts again** at the committed offsets. -/
lemma restart (hs : FateInv s) : FateInv { s with pipeline := s.pipeline.restart } :=
  hs.mono (.same rfl rfl rfl rfl rfl rfl) rfl rfl hs.processed (by simp [Pipeline.restart])
    fun v hv _ => hv

/-- **A call completes.** -/
lemma complete [Btree] (hs : FateInv s) (hsound : s.Sound) (hc : s.pipeline.current = some c)
    (h : s.pipeline.complete c = some u) : FateInv { s with pipeline := u } := by
  have hknows := hs.knows c hc
  obtain ⟨p, d, pc⟩ := c
  cases pc with
  | redisExists =>
      obtain rfl := Option.some.inj h
      split_ifs with hid
      · exact hs.goto (Or.inr ⟨hknows, hs.processed _ hid⟩) (.refl _)
      · exact hs.goto trivial (.refl _)
  | project =>
      obtain ⟨rm, _, rfl⟩ := Pipeline.complete_project rfl h
      refine hs.goto (Or.inl (by simp)) ?_
      exact { Pipeline.Effects.refl s.pipeline with
        transactions := List.subset_append_left _ _, processed := fun _ => Or.inl }
  | invalidateCache =>
      obtain rfl := Option.some.inj h
      refine hs.goto ?_ { Pipeline.Effects.refl s.pipeline with }
      unfold Event.afterInvalidate Event.afterProcessed
      split_ifs <;> exact hknows
  | setProcessed =>
      obtain rfl := Option.some.inj h
      refine hs.goto ?_ { Pipeline.Effects.refl s.pipeline with processed := fun id hid => ?_ }
      · unfold Event.afterProcessed
        split_ifs <;> exact hknows
      · rcases List.mem_cons.mp hid with rfl | hid
        · exact Or.inr (Pipeline.InTables.exists_id hknows)
        · exact Or.inl hid
  | setExpiry =>
      obtain rfl := Option.some.inj h
      exact hs.goto hknows { Pipeline.Effects.refl s.pipeline with }
  | sendToDlq error =>
      obtain rfl := Option.some.inj h
      have hnot : s.pipeline.dlq.length ∉ s.deleted := fun hi =>
        absurd (hsound.deleted _ hi) (lt_irrefl _)
      exact hs.goto (.queued ⟨_, dlqMessage d error, by simp, hnot, rfl, le_rfl⟩)
        { Pipeline.Effects.refl s.pipeline with dlq := List.prefix_append _ _ }
  | commitSkipped | commit =>
      obtain rfl := Option.some.inj h
      exact hs.commit hsound.offsets hc (.inTables hknows)
  | commitFailed =>
      obtain rfl := Option.some.inj h
      exact hs.commit hsound.offsets hc hknows

/-- **A call raises**: the record goes to the queue and past it, or is read again. -/
lemma raise (hs : FateInv s) (error : String)
    (hsent : c.pc.Sends → s.Tracked s.pipeline.position c.delivery.count c.event) :
    FateInv { s with pipeline := s.pipeline.raise c error } := by
  obtain ⟨p, d, pc⟩ := c
  cases pc with
  | project | invalidateCache | setProcessed | setExpiry | commit =>
      exact hs.goto trivial (.refl _)
  | sendToDlq error => exact hs.goto (hsent trivial) (.refl _)
  | redisExists | commitSkipped | commitFailed => exact hs.restart

/-- **The consumer's moves keep the invariant** if they drop no event. -/
theorem consume [Btree] (hs : FateInv s) (hsound : s.Sound) {a : PipelineAction} (ha : a.Consumes)
    (hqueues : s.Queues (.consume a)) (h : s.pipeline.step a = some u) :
    FateInv { s with pipeline := u } := by
  cases a with
  | poll p =>
      obtain ⟨_, _, d, _, rfl⟩ := Pipeline.poll_cases h
      refine hs.mono (.same rfl rfl rfl rfl rfl rfl) rfl rfl hs.processed (fun c hc => ?_)
        fun v hv _ => hv
      obtain rfl := Option.some.inj hc
      rw [RetryLoop.Knows, Event.firstCall]
      split_ifs with hid
      · exact hid
      · trivial
  | complete =>
      obtain ⟨c, hc, hcomp⟩ := Pipeline.complete_cases h
      exact hs.complete hsound hc hcomp
  | raise afterEffect error =>
      cases afterEffect with
      | true =>
          obtain ⟨c, w, hc, hw, rfl⟩ := Pipeline.raise_after_cases h
          have hnext := hs.complete hsound hc hw
          refine hnext.raise error fun hsends => ?_
          -- the message has been sent, and the consumer goes on to the commit
          obtain ⟨p, d, pc⟩ := c
          cases pc with
          | sendToDlq error' =>
              obtain rfl := Option.some.inj hw
              exact hnext.knows _ rfl
          | _ => exact hsends.elim
      | false =>
          obtain ⟨c, hc, rfl⟩ := Pipeline.raise_cases h
          exact hs.raise error fun hsends =>
            .inTables ((hqueues c hc hsends).resolve_left Bool.false_ne_true)
  | crash =>
      obtain rfl := Option.some.inj h
      exact hs.restart
  | expire eventId =>
      obtain rfl := Option.some.inj h
      have hgrow : s.Grows { s with pipeline :=
          { s.pipeline with processed := s.pipeline.processed.filter (· ≠ eventId) } } :=
        .same rfl rfl rfl rfl rfl rfl
      exact hs.mono hgrow rfl rfl (fun id hid => hs.processed id (List.mem_of_mem_filter hid))
        (fun c hc => (hs.knows c hc).mono hgrow rfl) fun v hv _ => hv
  | retry i p outcome => exact ha.elim

/-- **A record is sent**, by the publisher or again by the Lambda. -/
lemma send (hs : FateInv s) (hoff : s.pipeline.Offsets) {p : ℕ} (hp : p < s.pipeline.partitions)
    (d : Delivery) :
    FateInv { s with pipeline := s.pipeline.send p d } ∧
      RetryLoop.Unread { s with pipeline := s.pipeline.send p d } s.pipeline.committed d.count
        d.event := by
  have hgrow : s.Grows { s with pipeline := s.pipeline.send p d } :=
    ⟨rfl, isPrefix_send s.pipeline.topic p d, List.Subset.refl _, List.Subset.refl _,
      List.prefix_refl _, List.Subset.refl _⟩
  have hlast : ((s.pipeline.send p d).topic p)[(s.pipeline.topic p).length]? = some d := by
    simp [Pipeline.send]
  have hunread : RetryLoop.Unread { s with pipeline := s.pipeline.send p d } s.pipeline.committed
      d.count d.event :=
    ⟨p, hp, _, d, (hoff.le p).trans (hoff.bound p), hlast, rfl, le_rfl⟩
  refine ⟨?_, hunread⟩
  refine
    { processed := hs.processed
      knows := fun c hc => (hs.knows c hc).mono hgrow rfl
      deleting := fun v hv hpc => ?_
      sent := fun q hq x hx => ?_ }
  · obtain ⟨m, hm, htracked⟩ := hs.deleting v hv hpc
    exact ⟨m, hm, htracked.mono hgrow fun _ => le_rfl⟩
  · rcases mem_send hx with hx | rfl
    · exact (hs.sent q hq x hx).mono hgrow fun _ => le_rfl
    · exact RetryLoop.Tracked.weaken (.unread hunread) (Nat.zero_le _)

/-- **A message is handed on**: its event is tracked from the next count on. -/
lemma handOver (hs : FateInv s) (hoff : s.pipeline.Offsets) {p : ℕ}
    (hp : p < s.pipeline.partitions) (m : DlqMessage) :
    FateInv { s with pipeline := s.pipeline.handOver p m } ∧
      RetryLoop.Tracked { s with pipeline := s.pipeline.handOver p m } s.pipeline.committed
        (m.retryCount + 1) m.event.event := by
  rw [Pipeline.handOver, retryMessage]
  split_ifs with hmax
  · -- the retries are used up
    have hgrow : ∀ letter : DeadLetter, s.Grows { s with pipeline :=
        { s.pipeline with deadLetters := s.pipeline.deadLetters ++ [letter] } } := fun letter =>
      ⟨rfl, fun _ => List.prefix_refl _, List.Subset.refl _, List.subset_append_left _ _,
        List.prefix_refl _, List.Subset.refl _⟩
    refine ⟨hs.mono (hgrow _) rfl rfl hs.processed (fun c hc => (hs.knows c hc).mono (hgrow _) rfl)
      fun v hv _ => hv, .wasPut ?_⟩
    exact ⟨_, List.mem_append_right _ (List.mem_singleton_self _), rfl, hmax⟩
  · obtain ⟨hnext, hunread⟩ :=
      hs.send hoff hp { m.event with retryCount := some (m.retryCount + 1) }
    exact ⟨hnext, .unread hunread⟩

/-- The invocations of the Lambda change; those that go on to delete a message have handed it on. -/
lemma invoke (hs : FateInv s) {invocations : List Invocation}
    (hinvocations : ∀ v ∈ invocations, v.pc = .delete → v ∈ s.invocations ∨
      ∃ m, s.pipeline.dlq[v.message]? = some m ∧
        s.Tracked s.pipeline.committed (m.retryCount + 1) m.event.event) :
    FateInv { s with invocations } := by
  have hgrow : s.Grows { s with invocations } := .same rfl rfl rfl rfl rfl rfl
  refine
    { processed := hs.processed
      knows := fun c hc => (hs.knows c hc).mono hgrow rfl
      deleting := fun v hv hpc => ?_
      sent := fun p hp d hd => (hs.sent p hp d hd).mono hgrow fun _ => le_rfl }
  have htracked : ∃ m, s.pipeline.dlq[v.message]? = some m ∧
      s.Tracked s.pipeline.committed (m.retryCount + 1) m.event.event := by
    rcases hinvocations v hv hpc with hold | hnew
    · exact hs.deleting v hold hpc
    · exact hnew
  obtain ⟨m, hm, h⟩ := htracked
  exact ⟨m, hm, h.mono hgrow fun _ => le_rfl⟩

/-- **A message is deleted.**  The copy that tracks its event has a higher count, so it is another
one. -/
lemma remove (hs : FateInv s) (hoff : s.pipeline.Offsets) {v : Invocation}
    (hv : v ∈ s.invocations) (hpc : v.pc = .delete) :
    FateInv { s with deleted := v.message :: s.deleted } := by
  obtain ⟨m, hm, hnext⟩ := hs.deleting v hv hpc
  let t : RetryLoop := { s with deleted := v.message :: s.deleted }
  -- another message stays in the queue
  have hother : ∀ {offset n e}, s.Tracked offset n e →
      (m.event.event = e → n ≤ m.retryCount → t.Tracked offset n e) → t.Tracked offset n e := by
    intro offset n e h hself
    cases h with
    | inTables h => exact .inTables h
    | wasPut h => exact .wasPut h
    | unread h => exact .unread h
    | queued h =>
        obtain ⟨i, m', hm', hi, hme, hn⟩ := h
        by_cases hiv : i = v.message
        · subst hiv
          obtain rfl := Option.some.inj (hm.symm.trans hm')
          exact hself hme hn
        · exact .queued ⟨i, m', hm', by simp [t, hiv, hi], hme, hn⟩
  have hnext' : t.Tracked s.pipeline.committed (m.retryCount + 1) m.event.event :=
    hother hnext fun _ hn => absurd hn (by omega)
  have hkeep : ∀ {n e}, s.Tracked s.pipeline.committed n e → t.Tracked s.pipeline.committed n e :=
    fun h => hother h fun hme hn => hme ▸ hnext'.weaken (by omega)
  refine
    { processed := hs.processed
      knows := fun c hc => (hs.knows c hc).imp id fun h => hother h fun hme hn => ?_
      deleting := fun w hw hwpc => ?_
      sent := fun p hp d hd => hkeep (hs.sent p hp d hd) }
  · -- the copy behind the committed offsets is not the record in hand, whose count is lower
    rw [hme] at hnext'
    rcases hnext'.received hoff with h | ⟨c', hc', _, hn'⟩
    · exact h.weaken (by omega)
    · obtain rfl := Option.some.inj (hc.symm.trans hc')
      omega
  · obtain ⟨m', hm', h⟩ := hs.deleting w hw hwpc
    exact ⟨m', hm', hkeep h⟩

/-- **Every move that drops no event keeps the invariant.** -/
theorem step [Btree] {a : LoopAction} (hs : FateInv s) (hsound : s.Sound) (hqueues : s.Queues a)
    (h : s.step a = some t) : FateInv t := by
  have hoff := hsound.offsets
  have herase : ∀ j, ∀ v ∈ s.invocations.eraseIdx j, v ∈ s.invocations := fun j v hv =>
    List.mem_of_mem_eraseIdx hv
  cases a with
  | produce p e =>
      obtain ⟨hp, rfl⟩ := RetryLoop.produce_cases h
      exact (hs.send hoff hp { event := e }).1
  | consume a =>
      obtain ⟨ha, hu, hdeleted, hinvocations⟩ := RetryLoop.consume_cases h
      obtain ⟨u, deleted, invocations⟩ := t
      obtain rfl : deleted = s.deleted := hdeleted
      obtain rfl : invocations = s.invocations := hinvocations
      exact hs.consume hsound ha hqueues hu
  | receive i =>
      obtain ⟨_, rfl⟩ := RetryLoop.receive_cases h
      refine hs.invoke fun v hv hpc => ?_
      rcases List.mem_append.mp hv with hv | hv
      · exact Or.inl hv
      · obtain rfl := List.mem_singleton.mp hv
        cases hpc
  | handOver j p outcome =>
      obtain ⟨hp, v, m, hv, _, hm, hdeleted, hcases⟩ := RetryLoop.handOver_cases h
      obtain ⟨u, deleted, invocations⟩ := t
      obtain rfl : deleted = s.deleted := hdeleted
      obtain ⟨hnext, htracked⟩ := hs.handOver hoff hp m
      rcases hcases with ⟨_, hpipe, hinv⟩ | ⟨_, hpipe, hinv⟩ | ⟨_, hpipe, hinv⟩
      · obtain rfl : u = s.pipeline.handOver p m := hpipe
        obtain rfl : invocations = _ := hinv
        refine hnext.invoke fun w hw hpc => ?_
        rcases List.mem_or_eq_of_mem_set hw with hw | rfl
        · exact Or.inl hw
        · refine Or.inr ⟨m, ?_, ?_⟩
          · rw [Pipeline.handOver_dlq]
            exact hm
          · rw [Pipeline.handOver_committed]
            exact htracked
      · obtain rfl : u = s.pipeline := hpipe
        obtain rfl : invocations = _ := hinv
        exact hs.invoke fun w hw _ => Or.inl (herase j w hw)
      · obtain rfl : u = s.pipeline.handOver p m := hpipe
        obtain rfl : invocations = _ := hinv
        exact hnext.invoke fun w hw _ => Or.inl (herase j w hw)
  | delete j outcome =>
      obtain ⟨v, hv, hpc, rfl⟩ := RetryLoop.delete_cases h
      split_ifs
      · exact hs.invoke fun w hw _ => Or.inl (herase j w hw)
      · exact (hs.remove hoff (List.mem_of_getElem? hv) hpc).invoke
          fun w hw _ => Or.inl (herase j w hw)
  | stop j =>
      obtain rfl := RetryLoop.stop_cases h
      exact hs.invoke fun w hw _ => Or.inl (herase j w hw)

/-- **At rest nothing is left to track an event by** but the tables and the dead letters. -/
lemma settled (hs : FateInv s) (hrest : s.AtRest) {p : ℕ} (hp : p < s.pipeline.partitions)
    {d : Delivery} (hd : d ∈ s.pipeline.topic p) :
    s.pipeline.InTables d.event ∨ s.pipeline.WasPut d.event := by
  cases hs.sent p hp d hd with
  | inTables h => exact Or.inl h
  | wasPut h => exact Or.inr h
  | unread h =>
      obtain ⟨q, hq, k, x, hk, hx, _⟩ := h
      have hlt := (List.getElem?_eq_some_iff.mp hx).1
      rw [hrest.committed q hq] at hk
      omega
  | queued h =>
      obtain ⟨i, m, hm, hi, _⟩ := h
      exact absurd (hrest.deleted i (List.getElem?_eq_some_iff.mp hm).1) hi

end FateInv

/-! ### What is stored under a key -/

/-- A record of the event has been sent. -/
def RetryLoop.Sent (s : RetryLoop) (e : Event) : Prop :=
  ∃ p, ∃ d ∈ s.pipeline.topic p, d.event = e

/-- **The dead letters are of events that were sent**, each under the key of its event and with the
retries used up; and so are the messages of the queue. -/
structure Lettered (s : RetryLoop) : Prop where
  messages : ∀ m ∈ s.pipeline.dlq, s.Sent m.event.event
  letters : ∀ letter ∈ s.pipeline.deadLetters, s.Sent letter.event.event ∧
    letter.key = deadLetterKey letter.event.event ∧ maxRetries ≤ letter.retryCount

namespace Lettered

variable {s t : RetryLoop}

lemma init (partitions : ℕ) (rm : ReadModel) : Lettered (.init partitions rm) :=
  ⟨by simp [RetryLoop.init, Pipeline.init], by simp [RetryLoop.init, Pipeline.init]⟩

/-- The queue and the storage get nothing but what was sent. -/
lemma grow (hs : Lettered s)
    (htopic : ∀ p, s.pipeline.topic p ⊆ t.pipeline.topic p)
    (hmessages : ∀ m ∈ t.pipeline.dlq, m ∈ s.pipeline.dlq ∨ t.Sent m.event.event)
    (hletters : ∀ letter ∈ t.pipeline.deadLetters, letter ∈ s.pipeline.deadLetters ∨
      t.Sent letter.event.event ∧ letter.key = deadLetterKey letter.event.event ∧
        maxRetries ≤ letter.retryCount) : Lettered t := by
  have hsent : ∀ {e}, s.Sent e → t.Sent e := fun ⟨p, d, hd, he⟩ => ⟨p, d, htopic p hd, he⟩
  refine ⟨fun m hm => ?_, fun letter hl => ?_⟩
  · exact (hmessages m hm).elim (fun hold => hsent (hs.messages m hold)) id
  · exact (hletters letter hl).elim
      (fun hold => ⟨hsent (hs.letters letter hold).1, (hs.letters letter hold).2⟩) id

/-- A handover publishes the event again or stores it under its key. -/
lemma handOver (hs : Lettered s) {u : RetryLoop} {p : ℕ} {m : DlqMessage}
    (hm : m ∈ s.pipeline.dlq) (hu : u.pipeline = s.pipeline.handOver p m) : Lettered u := by
  have hevent := hs.messages m hm
  rw [Pipeline.handOver, retryMessage] at hu
  split_ifs at hu with hmax
  · have htopic : u.pipeline.topic = s.pipeline.topic := by rw [hu]
    refine hs.grow (fun q => htopic ▸ List.Subset.refl _) (fun m' hm' => Or.inl ?_)
      fun letter hl => ?_
    · rw [hu] at hm'
      exact hm'
    · rw [hu] at hl
      rcases List.mem_append.mp hl with hold | hnew
      · exact Or.inl hold
      · obtain rfl := List.mem_singleton.mp hnew
        obtain ⟨q, d, hd, he⟩ := hevent
        exact Or.inr ⟨⟨q, d, htopic ▸ hd, he⟩, rfl, hmax⟩
  · refine hs.grow (fun q => ?_) (fun m' hm' => Or.inl ?_) fun letter hl => Or.inl ?_
    · rw [hu]
      exact (isPrefix_send s.pipeline.topic p _ q).subset
    · rw [hu] at hm'
      exact hm'
    · rw [hu] at hl
      exact hl

/-- **Every move keeps it.** -/
theorem step [Btree] {a : LoopAction} (hs : Lettered s) (hsound : s.Sound) (h : s.step a = some t) :
    Lettered t := by
  have hsame : ∀ {u : RetryLoop}, u.pipeline = s.pipeline → Lettered u := fun hu =>
    hs.grow (fun p => hu ▸ List.Subset.refl _) (fun m hm => Or.inl (hu ▸ hm))
      fun letter hl => Or.inl (hu ▸ hl)
  cases a with
  | produce p e =>
      obtain ⟨_, rfl⟩ := RetryLoop.produce_cases h
      exact hs.grow (fun q => (isPrefix_send s.pipeline.topic p _ q).subset)
        (fun m hm => Or.inl hm) fun letter hl => Or.inl hl
  | consume a =>
      obtain ⟨ha, hu, _⟩ := RetryLoop.consume_cases h
      have hcons := Pipeline.consume_cases ha hu
      refine hs.grow (fun p => hcons.topic ▸ List.Subset.refl _) (fun m hm => ?_)
        fun letter hl => Or.inl (hcons.deadLetters ▸ hl)
      rcases hcons.dlq with heq | ⟨c, error, hc, _, heq⟩
      · exact Or.inl (heq ▸ hm)
      · rw [heq, List.mem_append, List.mem_singleton] at hm
        refine hm.imp_right ?_
        rintro rfl
        obtain ⟨k, _, hk⟩ := hsound.offsets.holds c hc
        exact ⟨c.partition, c.delivery, hcons.topic ▸ List.mem_of_getElem? hk, rfl⟩
  | handOver j p outcome =>
      obtain ⟨_, v, m, _, _, hm, _, ⟨_, hu, _⟩ | ⟨_, hu, _⟩ | ⟨_, hu, _⟩⟩ :=
        RetryLoop.handOver_cases h
      · exact hs.handOver (List.mem_of_getElem? hm) hu
      · exact hsame hu
      · exact hs.handOver (List.mem_of_getElem? hm) hu
  | receive i =>
      obtain ⟨_, rfl⟩ := RetryLoop.receive_cases h
      exact hsame rfl
  | delete j outcome =>
      obtain ⟨v, _, _, rfl⟩ := RetryLoop.delete_cases h
      exact hsame rfl
  | stop j =>
      obtain rfl := RetryLoop.stop_cases h
      exact hsame rfl

/-- What was put is there, if no other event has its key. -/
lemma putAway (hs : Lettered s) {e : Event} (hput : s.pipeline.WasPut e)
    (hkey : ∀ e', s.Sent e' → deadLetterKey e' = deadLetterKey e → e' = e) :
    s.pipeline.PutAway e := by
  obtain ⟨letter, hletter, rfl, _⟩ := hput
  have hne : (s.pipeline.deadLetters.filter
      (·.key = deadLetterKey letter.event.event)) ≠ [] := by
    refine List.ne_nil_of_mem (List.mem_filter.mpr ⟨hletter, decide_eq_true ?_⟩)
    exact (hs.letters letter hletter).2.1
  refine ⟨_, List.getLast?_eq_some_getLast hne, ?_⟩
  obtain ⟨hin, hlast⟩ := List.mem_filter.mp (List.getLast_mem hne)
  obtain ⟨hsent, heq, hmax⟩ := hs.letters _ hin
  exact ⟨hkey _ hsent (heq.symm.trans (of_decide_eq_true hlast)), hmax⟩

end Lettered

/-- No two events that were sent share the key of their dead letters. -/
def RetryLoop.OwnKeys (s : RetryLoop) : Prop :=
  ∀ p < s.pipeline.partitions, ∀ d ∈ s.pipeline.topic p, ∀ q < s.pipeline.partitions,
    ∀ d' ∈ s.pipeline.topic q, deadLetterKey d'.event = deadLetterKey d.event → d'.event = d.event

instance (s : RetryLoop) : Decidable s.OwnKeys :=
  inferInstanceAs (Decidable (∀ p < s.pipeline.partitions, ∀ d ∈ s.pipeline.topic p, _))

/-- **No event gets lost in the loop.**  Whatever the publisher sends, and however consumer and
Lambda crash, fail, repeat and overlap, as long as no failing send to the queue drops an event and
no two events share a key: once the loop is at rest, every event is in the tables or, with its
retries used up, in the dead letter storage. -/
theorem settled_at_rest [Btree] {partitions : ℕ} {rm : ReadModel} {as : List LoopAction}
    {s : RetryLoop} (hrun : run RetryLoop.step (.init partitions rm) as = some s)
    (hqueues : Along RetryLoop.step RetryLoop.Queues (.init partitions rm) as)
    (hrest : s.AtRest) (hkeys : s.OwnKeys) :
    ∀ p < s.pipeline.partitions, ∀ d ∈ s.pipeline.topic p,
      s.pipeline.InTables d.event ∨ s.pipeline.PutAway d.event := by
  obtain ⟨hsound, hlettered, hfate⟩ : s.Sound ∧ Lettered s ∧ FateInv s :=
    preserves_along (P := fun s => s.Sound ∧ Lettered s ∧ FateInv s)
      (fun hs hC h => ⟨sound_step hs.1 h, hs.2.1.step hs.1 h, hs.2.2.step hs.1 hC h⟩)
      ⟨sound_init partitions rm, Lettered.init partitions rm, FateInv.init partitions rm⟩ hqueues
      hrun
  refine fun p hp d hd => (hfate.settled hrest hp hd).imp_right fun hput => ?_
  refine hlettered.putAway hput fun e' ⟨q, d', hd', he'⟩ heq => ?_
  have hq : q < s.pipeline.partitions := by
    by_contra hq
    rw [hsound.inside q (not_lt.mp hq)] at hd'
    exact absurd hd' List.not_mem_nil
  subst he'
  exact hkeys p hp d hd q hq d' hd' heq

/-- Message `i` is received twice; one of the invocations stops, the other deletes it. -/
def overlapping (i : ℕ) : List LoopAction :=
  [.receive i, .receive i, .handOver 0 0 .completes, .stop 1, .delete 0 .completes]

/-- The consumer takes a record and fails to project it. -/
def failing : List LoopAction :=
  [.consume (.poll 0), .consume .complete, .consume (.raise false "out of range"),
    .consume .complete, .consume .complete]

/-- A creation that is projected after a crash, and a confirmation that is put away. -/
def restRun : List LoopAction :=
  [.produce 0 (orderCreatedEvent (.nth 0) "order-0" "cust-1" "a@test.com"),
    .produce 0 (orderConfirmedEvent (.nth 1) "order-0" 2),
    .consume (.poll 0), .consume .complete, .consume .crash, .consume (.poll 0)] ++
  List.replicate 5 (.consume .complete) ++
  (List.range 4).flatMap fun i => failing ++ overlapping i

theorem restRun_settled : ∃ s, run RetryLoop.step (.init 1 .empty) restRun = some s ∧
    s.AtRest ∧ (s.pipeline.topic 0).length = 5 ∧
    ∀ p < s.pipeline.partitions, ∀ d ∈ s.pipeline.topic p,
      s.pipeline.InTables d.event ∨ s.pipeline.PutAway d.event := by
  have heval : ((run RetryLoop.step (.init 1 .empty) restRun).any fun s =>
      decide (s.AtRest ∧ (s.pipeline.topic 0).length = 5 ∧ s.OwnKeys)) = true := by
    decide +kernel
  obtain ⟨s, hrun, hrest, hlength, hkeys⟩ := exists_run_of_eval heval
  have hqueues : Along RetryLoop.step RetryLoop.Queues (.init 1 .empty) restRun := by
    decide +kernel
  exact ⟨s, hrun, hrest, hlength, settled_at_rest hrun hqueues hrest hkeys⟩

end OrderCqrs
