import OrderCqrs.Delivery.Offsets
import OrderCqrs.Platform.Finished

/-!
The expiry of ended orders.

* `Flagged`: the events stored for the order of an event when it was appended carry `expires_at`.
* `Settled`: the records of an event are committed and no copy of it is pending.
* `Waiting`: a copy of an event is still to be handled: unread, queued, put away, or in the
  consumer's hands.
* `ExpiryFollows`: the consumer does not stop between the marking of a terminal event and its
  expiry, and does not fail to queue one.
* `Platform.HoldsLast`: the consumer holds the last copy of a terminal event; `loses_of_violation`:
  a step outside the condition then has a continuation that loses the event.
* `ExpiryInv`, `terminal_flagged`: **along every run that meets the condition a settled terminal
  event is flagged**.
* `unscheduled_cancellation`: a crash between the two writes leaves the order unscheduled for good.
-/

namespace OrderCqrs

open Runs ListTables Partitions

/-! ### What is to hold, and when -/

/-- The events stored for the order of `e` when it was appended, `e` included. -/
def storedWith (store : List Event) (e : Event) : List Event :=
  orderLog (store.take (store.idxOf e + 1)) e.aggregateId

/-- They all carry `expires_at`. -/
def Platform.Flagged (s : Platform) (e : Event) : Prop :=
  ∀ d ∈ storedWith s.write.store e, d.eventId ∈ s.expiresAt

instance (s : Platform) (e : Event) : Decidable (s.Flagged e) :=
  inferInstanceAs (Decidable (∀ d ∈ storedWith s.write.store e, d.eventId ∈ s.expiresAt))

/-- **The event is settled.** -/
structure RetryLoop.Settled (l : RetryLoop) (e : Event) : Prop where
  /-- It has been sent. -/
  recorded : ∃ p < l.pipeline.partitions, ∃ d ∈ l.pipeline.topic p, d.event = e
  /-- All its records are committed. -/
  committed : ∀ p < l.pipeline.partitions,
    ∀ d ∈ (l.pipeline.topic p).drop (l.pipeline.committed p), d.event ≠ e
  /-- The queue holds no message of it. -/
  queue : ∀ i < l.pipeline.dlq.length, i ∉ l.deleted →
    ∀ m ∈ l.pipeline.dlq[i]?, m.event.event ≠ e
  /-- The dead letters hold none of it. -/
  letters : ∀ letter ∈ l.pipeline.deadLetters, letter.event.event ≠ e

lemma RetryLoop.settled_iff {l : RetryLoop} {e : Event} : l.Settled e ↔
    (∃ p < l.pipeline.partitions, ∃ d ∈ l.pipeline.topic p, d.event = e) ∧
      (∀ p < l.pipeline.partitions,
        ∀ d ∈ (l.pipeline.topic p).drop (l.pipeline.committed p), d.event ≠ e) ∧
      (∀ i < l.pipeline.dlq.length, i ∉ l.deleted →
        ∀ m ∈ l.pipeline.dlq[i]?, m.event.event ≠ e) ∧
      ∀ letter ∈ l.pipeline.deadLetters, letter.event.event ≠ e :=
  ⟨fun h => ⟨h.recorded, h.committed, h.queue, h.letters⟩, fun h => ⟨h.1, h.2.1, h.2.2.1, h.2.2.2⟩⟩

instance (l : RetryLoop) (e : Event) : Decidable (l.Settled e) :=
  decidable_of_iff _ RetryLoop.settled_iff.symm

/-- The moves that leave an event marked without its expiry, or drop it: the marking takes effect
and raises, the consumer stops before the expiry is set, or the send to the queue fails. -/
def ConsumerPc.loses : ConsumerPc → PipelineAction → Bool
  | .setProcessed, .raise true _ | .setExpiry, .crash | .setExpiry, .raise false _
  | .sendToDlq _, .raise false _ => true
  | _, _ => false

/-- The awaited call takes effect. -/
def PipelineAction.takesEffect : PipelineAction → Bool
  | .complete | .raise true _ => true
  | _ => false

/-- **No terminal event is lost**: while the consumer handles a terminal event that is not flagged
yet, its moves do not lose it. -/
def ExpiryFollows (s : Platform) : PlatformAction → Prop
  | .deliver (.consume a) => ∀ c ∈ s.loop.pipeline.current, c.event.Terminal →
      ¬ s.Flagged c.event → ¬ c.pc.loses a
  | _ => True

instance (s : Platform) : (a : PlatformAction) → Decidable (ExpiryFollows s a)
  | .deliver (.consume a) =>
      inferInstanceAs (Decidable (∀ c ∈ s.loop.pipeline.current, c.event.Terminal →
        ¬ s.Flagged c.event → ¬ c.pc.loses a))
  | .deliver (.produce _ _) | .deliver (.receive _) | .deliver (.handOver _ _ _)
  | .deliver (.delete _ _) | .deliver (.stop _) | .command _ => .isTrue trivial

/-! ### Copies still to be handled -/

/-- The call that ends the handling of a record comes next. -/
def ConsumerPc.Final : ConsumerPc → Prop
  | .commitSkipped | .commit | .commitFailed => True
  | _ => False

/-- **A copy of the event is still to be handled.** -/
inductive Waiting (l : RetryLoop) (e : Event) : Prop where
  /-- A record of it is unread. -/
  | unread {p k : ℕ} {d : Delivery} : l.pipeline.position p ≤ k →
      (l.pipeline.topic p)[k]? = some d → d.event = e → Waiting l e
  /-- A message of it is in the queue, and the Lambda has not handed it on. -/
  | queued {i : ℕ} {m : DlqMessage} : l.pipeline.dlq[i]? = some m → m.event.event = e →
      i ∉ l.deleted → (∀ v ∈ l.invocations, v.message = i → v.pc = .handOver) → Waiting l e
  /-- It has been put away. -/
  | lettered {letter : DeadLetter} : letter ∈ l.pipeline.deadLetters → letter.event.event = e →
      Waiting l e
  /-- It is in the consumer's hands. -/
  | inHand {c : InFlight} : l.pipeline.current = some c → c.event = e → ¬ c.pc.Final →
      l.pipeline.committed c.partition < l.pipeline.position c.partition → Waiting l e

/-- **The invariant of the expiry**, for the events that are flagged. -/
structure Expiry (store : List Event) (flagged : Event → Prop) (l : RetryLoop) : Prop where
  travels : Platform.Travels store l
  le : ∀ p, l.pipeline.committed p ≤ l.pipeline.position p
  bound : ∀ p, l.pipeline.position p ≤ (l.pipeline.topic p).length
  outside : ∀ p, l.pipeline.partitions ≤ p → l.pipeline.topic p = []
  known : (∀ i ∈ l.deleted, i < l.pipeline.dlq.length) ∧
    ∀ v ∈ l.invocations, v.message < l.pipeline.dlq.length
  /-- A terminal event that has been sent is flagged, or a copy of it is still to be handled. -/
  scheduled : ∀ p, ∀ d ∈ l.pipeline.topic p, d.event.Terminal →
    flagged d.event ∨ Waiting l d.event
  /-- A terminal event that is marked is flagged, or about to be. -/
  marked : ∀ id ∈ l.pipeline.processed, ∃ e ∈ store, e.eventId = id ∧
    (e.Terminal → flagged e ∨
      ∃ c, l.pipeline.current = some c ∧ c.event = e ∧ c.pc = .setExpiry)

namespace Expiry

variable {store : List Event} {flagged flagged' : Event → Prop} {l l' : RetryLoop}

lemma init (partitions : ℕ) (rm : ReadModel) : Expiry store flagged (.init partitions rm) where
  travels := .init partitions rm
  le := fun _ => le_rfl
  bound := fun _ => le_rfl
  outside := fun _ _ => rfl
  known := by simp [RetryLoop.init]
  scheduled := by simp [RetryLoop.init, Pipeline.init]
  marked := by simp [RetryLoop.init, Pipeline.init]

/-- Flags and stored events stay. -/
lemma mono {store' : List Event} (h : Expiry store flagged l) (hsub : store ⊆ store')
    (hflag : ∀ e ∈ store, flagged e → flagged' e) : Expiry store' flagged' l where
  travels := h.travels.mono hsub
  le := h.le
  bound := h.bound
  outside := h.outside
  known := h.known
  scheduled := fun p d hd hterm =>
    (h.scheduled p d hd hterm).imp_left (hflag _ (h.travels.records p d hd))
  marked := by
    intro id hid
    obtain ⟨e, he, heid, hmark⟩ := h.marked id hid
    exact ⟨e, hsub he, heid, fun hterm => (hmark hterm).imp_left (hflag e he)⟩

/-- **What the publisher and the Lambda do**: records and dead letters are added, and a message that
is no longer to be handed on has been handed on. -/
lemma grow (h : Expiry store flagged l) (htravels : Platform.Travels store l')
    (hpipe : l'.pipeline = { l.pipeline with
      topic := l'.pipeline.topic, deadLetters := l'.pipeline.deadLetters })
    (htopic : ∀ p, l.pipeline.topic p <+: l'.pipeline.topic p)
    (houtside : ∀ p, l.pipeline.partitions ≤ p → l'.pipeline.topic p = [])
    (hletters : l.pipeline.deadLetters ⊆ l'.pipeline.deadLetters)
    (hnew : ∀ p, ∀ d ∈ l'.pipeline.topic p, d ∈ l.pipeline.topic p ∨ Waiting l' d.event)
    (hknown : (∀ i ∈ l'.deleted, i < l.pipeline.dlq.length) ∧
      ∀ v ∈ l'.invocations, v.message < l.pipeline.dlq.length)
    (hqueued : ∀ i m, l.pipeline.dlq[i]? = some m → i ∉ l.deleted →
      (∀ v ∈ l.invocations, v.message = i → v.pc = .handOver) →
      (i ∉ l'.deleted ∧ ∀ v ∈ l'.invocations, v.message = i → v.pc = .handOver) ∨
        Waiting l' m.event.event) : Expiry store flagged l' := by
  have hpartitions : l'.pipeline.partitions = l.pipeline.partitions := by rw [hpipe]
  have hposition : l'.pipeline.position = l.pipeline.position := by rw [hpipe]
  have hcommitted : l'.pipeline.committed = l.pipeline.committed := by rw [hpipe]
  have hcurrent : l'.pipeline.current = l.pipeline.current := by rw [hpipe]
  have hprocessed : l'.pipeline.processed = l.pipeline.processed := by rw [hpipe]
  have hdlq : l'.pipeline.dlq = l.pipeline.dlq := by rw [hpipe]
  have hwait : ∀ {e : Event}, Waiting l e → Waiting l' e := by
    intro e hw
    cases hw with
    | unread hk hd hde =>
        refine .unread (hposition ▸ hk) ?_ hde
        exact getElem?_of_isPrefix (htopic _) hd
    | queued hm hme hnot hinv =>
        rcases hqueued _ _ hm hnot hinv with ⟨hnot', hinv'⟩ | hw
        · exact .queued (hdlq ▸ hm) hme hnot' hinv'
        · exact hme ▸ hw
    | lettered hin heq => exact .lettered (hletters hin) heq
    | inHand hc hce hpc hlt =>
        exact .inHand (hcurrent ▸ hc) hce hpc (by rw [hcommitted, hposition]; exact hlt)
  refine ⟨htravels, ?_, fun p => ?_, ?_, ?_, fun p d hd hterm => ?_, ?_⟩
  · rw [hcommitted, hposition]
    exact h.le
  · rw [hposition]
    exact (h.bound p).trans (htopic p).length_le
  · rw [hpartitions]
    exact houtside
  · rw [hdlq]
    exact hknown
  · rcases hnew p d hd with hd | hw
    · exact (h.scheduled p d hd hterm).imp_right hwait
    · exact Or.inr hw
  · rw [hprocessed, hcurrent]
    exact h.marked

/-! #### The consumer -/

/-- The consumer goes on with its record.  Where it comes to the end of it, the event must be
flagged or another copy of it must wait. -/
lemma goto (h : Expiry store flagged l) (hflag : ∀ e, flagged e → flagged' e) {c : InFlight}
    (hc : l.pipeline.current = some c) (htravels : Platform.Travels store l') {pc : ConsumerPc}
    (hrest : l'.deleted = l.deleted ∧ l'.invocations = l.invocations)
    (hsame : l'.pipeline.partitions = l.pipeline.partitions ∧
      l'.pipeline.topic = l.pipeline.topic ∧ l'.pipeline.position = l.pipeline.position ∧
      l'.pipeline.deadLetters = l.pipeline.deadLetters)
    (hcommitted : l'.pipeline.committed = l.pipeline.committed ∨
      c.pc.Final ∧ l'.pipeline.committed = l.pipeline.position)
    (hdlq : l.pipeline.dlq <+: l'.pipeline.dlq)
    (hcurrent : l'.pipeline.current = some { c with pc })
    (hfinal : pc.Final → c.event.Terminal → flagged' c.event ∨ Waiting l' c.event)
    (hmarked : ∀ id ∈ l'.pipeline.processed, ∃ e ∈ store, e.eventId = id ∧
      (e.Terminal → flagged' e ∨ c.event = e ∧ pc = .setExpiry)) : Expiry store flagged' l' := by
  obtain ⟨hdeleted, hinv⟩ := hrest
  obtain ⟨hpartitions, htopic, hposition, hletters⟩ := hsame
  have hwait : ∀ {e : Event}, e.Terminal → Waiting l e → flagged' e ∨ Waiting l' e := by
    intro e hterm hw
    cases hw with
    | unread hk hd hde => exact Or.inr (.unread (hposition ▸ hk) (htopic ▸ hd) hde)
    | queued hm hme hnot hhand =>
        exact Or.inr (.queued (getElem?_of_isPrefix hdlq hm) hme (hdeleted ▸ hnot) (hinv ▸ hhand))
    | lettered hin heq => exact Or.inr (.lettered (hletters ▸ hin) heq)
    | inHand hc' hce hpc hlt =>
        obtain rfl := Option.some.inj (hc.symm.trans hc')
        subst hce
        by_cases hnew : pc.Final
        · exact hfinal hnew hterm
        · refine Or.inr (.inHand hcurrent rfl hnew ?_)
          rcases hcommitted with heq | ⟨hend, _⟩
          · rw [heq, hposition]
            exact hlt
          · exact absurd hend hpc
  refine ⟨htravels, fun p => ?_, ?_, ?_, ?_, fun p d hd hterm => ?_, ?_⟩
  · rw [hposition]
    rcases hcommitted with heq | ⟨_, heq⟩
    · rw [heq]
      exact h.le p
    · rw [heq]
  · rw [hposition, htopic]
    exact h.bound
  · rw [hpartitions, htopic]
    exact h.outside
  · rw [hdeleted, hinv]
    exact ⟨fun i hi => (h.known.1 i hi).trans_le hdlq.length_le,
      fun v hv => (h.known.2 v hv).trans_le hdlq.length_le⟩
  · rw [htopic] at hd
    rcases h.scheduled p d hd hterm with hf | hw
    · exact Or.inl (hflag _ hf)
    · exact hwait hterm hw
  · intro id hid
    obtain ⟨e, he, heid, hmark⟩ := hmarked id hid
    refine ⟨e, he, heid, fun hterm => ?_⟩
    rcases hmark hterm with hf | ⟨hce, rfl⟩
    · exact Or.inl hf
    · exact Or.inr ⟨_, hcurrent, hce, rfl⟩

/-- The consumer has handled its record and commits. -/
lemma commit (h : Expiry store flagged l) {c : InFlight} (hc : l.pipeline.current = some c)
    (hfinal : c.pc.Final) (htravels : Platform.Travels store l')
    (hrest : l'.deleted = l.deleted ∧ l'.invocations = l.invocations)
    (hpipe : l'.pipeline = l.pipeline.commit) : Expiry store flagged l' := by
  obtain ⟨pipeline, deleted, invocations⟩ := l'
  obtain ⟨rfl, rfl⟩ := hrest
  subst hpipe
  have hwait : ∀ {e : Event}, Waiting l e → Waiting { l with pipeline := l.pipeline.commit } e := by
    intro e hw
    cases hw with
    | unread hk hd hde => exact .unread hk hd hde
    | queued hm hme hnot hhand => exact .queued hm hme hnot hhand
    | lettered hin heq => exact .lettered hin heq
    | inHand hc' _ hpc _ =>
        obtain rfl := Option.some.inj (hc.symm.trans hc')
        exact absurd hfinal hpc
  refine ⟨htravels, fun _ => le_rfl, h.bound, h.outside, h.known,
    fun p d hd hterm => (h.scheduled p d hd hterm).imp_right hwait, fun id hid => ?_⟩
  obtain ⟨e, he, heid, hmark⟩ := h.marked id hid
  refine ⟨e, he, heid, fun hterm => (hmark hterm).imp_right ?_⟩
  rintro ⟨c', hc', _, hpc⟩
  obtain rfl := Option.some.inj (hc.symm.trans hc')
  rw [hpc] at hfinal
  exact hfinal.elim

/-- The consumer starts again at the committed offsets: what it held is unread once more. -/
lemma restart (h : Expiry store flagged l) (htravels : Platform.Travels store l')
    (hexpiry : ∀ c, l.pipeline.current = some c → c.pc = .setExpiry → c.event.Terminal →
      flagged c.event)
    (hrest : l'.deleted = l.deleted ∧ l'.invocations = l.invocations)
    (hpipe : l'.pipeline = l.pipeline.restart) : Expiry store flagged l' := by
  obtain ⟨pipeline, deleted, invocations⟩ := l'
  obtain ⟨rfl, rfl⟩ := hrest
  subst hpipe
  have hwait : ∀ {e : Event},
      Waiting l e → Waiting { l with pipeline := l.pipeline.restart } e := by
    intro e hw
    cases hw with
    | unread hk hd hde => exact .unread ((h.le _).trans hk) hd hde
    | queued hm hme hnot hhand => exact .queued hm hme hnot hhand
    | lettered hin heq => exact .lettered hin heq
    | @inHand c hc hce _ hlt =>
        obtain ⟨k, hk, hd⟩ := h.travels.holds c hc
        refine .unread (p := c.partition) (k := k) ?_ hd hce
        rw [hk] at hlt
        exact Nat.lt_succ_iff.mp hlt
  refine ⟨htravels, fun _ => le_rfl, fun p => (h.le p).trans (h.bound p), h.outside, h.known,
    fun p d hd hterm => (h.scheduled p d hd hterm).imp_right hwait, fun id hid => ?_⟩
  obtain ⟨e, he, heid, hmark⟩ := h.marked id hid
  refine ⟨e, he, heid, fun hterm => (hmark hterm).elim Or.inl ?_⟩
  rintro ⟨c, hc, rfl, hpc⟩
  exact Or.inl (hexpiry c hc hpc hterm)

/-- The consumer takes an unread record into its hands. -/
lemma poll (h : Expiry store flagged l) (htravels : Platform.Travels store l') {p : ℕ}
    {d : Delivery} (hnone : l.pipeline.current = none)
    (hd : (l.pipeline.topic p)[l.pipeline.position p]? = some d)
    (hrest : l'.deleted = l.deleted ∧ l'.invocations = l.invocations)
    (hpipe : l'.pipeline = { l.pipeline with
      position := Function.update l.pipeline.position p (l.pipeline.position p + 1)
      current := some ⟨p, d, d.event.firstCall⟩ }) : Expiry store flagged l' := by
  obtain ⟨pipeline, deleted, invocations⟩ := l'
  obtain ⟨rfl, rfl⟩ := hrest
  subst hpipe
  have hfirst : ¬ d.event.firstCall.Final := by
    rw [Event.firstCall]
    split_ifs <;> exact id
  refine ⟨htravels, fun q => (h.le q).trans (le_advance l.pipeline.position p q),
    advance_le h.bound hd, h.outside, h.known,
    fun q d' hd' hterm => (h.scheduled q d' hd' hterm).imp_right fun hw => ?_, fun id hid => ?_⟩
  · cases hw with
    | @unread q k d₁ hk hd₁ hde =>
        by_cases hq : q = p ∧ k = l.pipeline.position p
        · obtain ⟨rfl, rfl⟩ := hq
          obtain rfl := Option.some.inj (hd.symm.trans hd₁)
          refine .inHand rfl hde hfirst ?_
          show l.pipeline.committed q < Function.update l.pipeline.position q _ q
          rw [Function.update_self]
          exact Nat.lt_succ_of_le (h.le q)
        · refine .unread (p := q) (k := k) (not_lt.mp fun hlt => ?_) hd₁ hde
          rcases lt_advance hlt with hold | hread
          · exact (not_lt.mpr hk) hold
          · exact hq hread
    | queued hm hme hnot hhand => exact .queued hm hme hnot hhand
    | lettered hin heq => exact .lettered hin heq
    | inHand hc => simp [hnone] at hc
  · obtain ⟨e, he, heid, hmark⟩ := h.marked id hid
    refine ⟨e, he, heid, fun hterm => (hmark hterm).elim Or.inl ?_⟩
    rintro ⟨c, hc, _⟩
    simp [hnone] at hc

/-- A marking expires. -/
lemma expire (h : Expiry store flagged l) (htravels : Platform.Travels store l')
    (hrest : l'.deleted = l.deleted ∧ l'.invocations = l.invocations) {eventId : String}
    (hpipe : l'.pipeline = { l.pipeline with
      processed := l.pipeline.processed.filter (· ≠ eventId) }) : Expiry store flagged l' := by
  obtain ⟨pipeline, deleted, invocations⟩ := l'
  obtain ⟨rfl, rfl⟩ := hrest
  subst hpipe
  refine ⟨htravels, h.le, h.bound, h.outside, h.known,
    fun p d hd hterm => (h.scheduled p d hd hterm).imp_right fun hw => ?_,
    fun id hid => h.marked id (List.mem_of_mem_filter hid)⟩
  cases hw with
  | unread hk hd hde => exact .unread hk hd hde
  | queued hm hme hnot hhand => exact .queued hm hme hnot hhand
  | lettered hin heq => exact .lettered hin heq
  | inHand hc hce hpc hlt => exact .inHand hc hce hpc hlt

/-- What is marked is flagged, unless the consumer is about to set the expiry. -/
lemma marked_of_ne (h : Expiry store flagged l) (hflag : ∀ e, flagged e → flagged' e) {c : InFlight}
    (hc : l.pipeline.current = some c) (hpc : c.pc ≠ .setExpiry) (pc : ConsumerPc) :
    ∀ id ∈ l.pipeline.processed, ∃ e ∈ store, e.eventId = id ∧
      (e.Terminal → flagged' e ∨ c.event = e ∧ pc = .setExpiry) := by
  intro id hid
  obtain ⟨e, he, heid, hmark⟩ := h.marked id hid
  refine ⟨e, he, heid, fun hterm => (hmark hterm).imp (hflag e) ?_⟩
  rintro ⟨c', hc', _, hpc'⟩
  obtain rfl := Option.some.inj (hc.symm.trans hc')
  exact absurd hpc' hpc

/-- What is marked is flagged when the event in the consumer's hands is. -/
lemma marked_of_flagged (h : Expiry store flagged l) (hflag : ∀ e, flagged e → flagged' e)
    {c : InFlight} (hc : l.pipeline.current = some c)
    (heffect : c.event.Terminal → flagged' c.event) {pc : ConsumerPc} :
    ∀ id ∈ l.pipeline.processed, ∃ e ∈ store, e.eventId = id ∧
      (e.Terminal → flagged' e ∨ c.event = e ∧ pc = .setExpiry) := by
  intro id hid
  obtain ⟨e, he, heid, hmark⟩ := h.marked id hid
  refine ⟨e, he, heid, fun hterm => Or.inl ?_⟩
  rcases hmark hterm with hf | ⟨c', hc', rfl, _⟩
  · exact hflag e hf
  · obtain rfl := Option.some.inj (hc.symm.trans hc')
    exact heffect hterm

/-- An event that is looked up and found is flagged. -/
lemma flagged_of_processed (h : Expiry store flagged l)
    (huniq : ∀ e ∈ store, ∀ e' ∈ store, e.eventId = e'.eventId → e = e') {c : InFlight}
    (hc : l.pipeline.current = some c) (hpc : c.pc ≠ .setExpiry)
    (hid : c.event.eventId ∈ l.pipeline.processed) (hterm : c.event.Terminal) :
    flagged c.event := by
  obtain ⟨e, he, heid, hmark⟩ := h.marked_of_ne (fun _ => id) hc hpc .commit _ hid
  obtain rfl := huniq e he c.event (h.travels.current hc) heid
  rcases hmark hterm with hf | ⟨_, hne⟩
  · exact hf
  · simp at hne

/-- The event has been sent to the queue. -/
lemma waiting_sent (h : Expiry store flagged l) {c : InFlight} {error : String}
    (hdlq : l'.pipeline.dlq = l.pipeline.dlq ++ [dlqMessage c.delivery error])
    (hrest : l'.deleted = l.deleted ∧ l'.invocations = l.invocations) : Waiting l' c.event := by
  refine .queued (i := l.pipeline.dlq.length) (m := dlqMessage c.delivery error) ?_ rfl ?_ ?_
  · rw [hdlq, List.getElem?_concat_length]
  · rw [hrest.1]
    exact fun hin => (h.known.1 _ hin).false
  · rw [hrest.2]
    exact fun v hv hmsg => absurd hmsg (h.known.2 v hv).ne

/-- **A call that completes keeps the invariant.** -/
lemma complete [Btree] (h : Expiry store flagged l)
    (huniq : ∀ e ∈ store, ∀ e' ∈ store, e.eventId = e'.eventId → e = e')
    (hflag : ∀ e, flagged e → flagged' e) {c : InFlight} (hc : l.pipeline.current = some c)
    (heffect : c.pc = .setExpiry → flagged' c.event) (htravels : Platform.Travels store l')
    (hrest : l'.deleted = l.deleted ∧ l'.invocations = l.invocations)
    (hcomp : l.pipeline.complete c = some l'.pipeline) : Expiry store flagged' l' := by
  obtain ⟨pipeline, deleted, invocations⟩ := l'
  obtain ⟨p, d, pc⟩ := c
  have hcommit : ConsumerPc.Final pc → pipeline = l.pipeline.commit →
      Expiry store flagged' ⟨pipeline, deleted, invocations⟩ := fun hfinal hpipe =>
    (h.commit hc hfinal htravels hrest hpipe).mono (List.Subset.refl store) fun e _ => hflag e
  cases pc with
  | redisExists =>
      obtain rfl := Option.some.inj hcomp
      refine h.goto hflag hc htravels hrest ⟨rfl, rfl, rfl, rfl⟩ (Or.inl rfl) List.prefix_rfl rfl
        (fun hfinal hterm => Or.inl ?_) (h.marked_of_ne hflag hc (by simp) _)
      by_cases hid : d.event.eventId ∈ l.pipeline.processed
      · exact hflag _ (h.flagged_of_processed huniq hc (by simp) hid hterm)
      · dsimp only [InFlight.event] at hfinal
        rw [if_neg hid] at hfinal
        exact hfinal.elim
  | project =>
      obtain ⟨rm, _, rfl⟩ := Pipeline.complete_project rfl hcomp
      exact h.goto hflag hc htravels hrest ⟨rfl, rfl, rfl, rfl⟩ (Or.inl rfl) List.prefix_rfl rfl
        (fun hfinal => hfinal.elim) (h.marked_of_ne hflag hc (by simp) _)
  | invalidateCache =>
      obtain rfl := Option.some.inj hcomp
      refine h.goto hflag hc htravels hrest ⟨rfl, rfl, rfl, rfl⟩ (Or.inl rfl) List.prefix_rfl rfl
        (fun hfinal hterm => absurd hfinal ?_) (h.marked_of_ne hflag hc (by simp) _)
      dsimp only [InFlight.event, Event.afterInvalidate, Event.afterProcessed]
      split_ifs with _ hend
      · exact id
      · exact id
      · exact absurd hterm hend
  | setProcessed =>
      obtain rfl := Option.some.inj hcomp
      have hafter : d.event.Terminal → d.event.afterProcessed = .setExpiry :=
        fun hterm => if_pos hterm
      refine h.goto hflag hc htravels hrest ⟨rfl, rfl, rfl, rfl⟩ (Or.inl rfl) List.prefix_rfl rfl
        (fun hfinal hterm => ?_) fun id hid => ?_
      · dsimp only [InFlight.event] at hfinal hterm
        rw [hafter hterm] at hfinal
        exact hfinal.elim
      · rcases List.mem_cons.mp hid with rfl | hid
        · exact ⟨d.event, h.travels.current hc, rfl, fun hterm => Or.inr ⟨rfl, hafter hterm⟩⟩
        · exact h.marked_of_ne hflag hc (by simp) _ id hid
  | setExpiry =>
      obtain rfl := Option.some.inj hcomp
      exact h.goto hflag hc htravels hrest ⟨rfl, rfl, rfl, rfl⟩ (Or.inl rfl) List.prefix_rfl rfl
        (fun _ _ => Or.inl (heffect rfl)) (h.marked_of_flagged hflag hc fun _ => heffect rfl)
  | sendToDlq error =>
      obtain rfl := Option.some.inj hcomp
      exact h.goto hflag hc htravels hrest ⟨rfl, rfl, rfl, rfl⟩ (Or.inl rfl)
        (List.prefix_append _ _) rfl
        (fun _ _ => Or.inr (h.waiting_sent (c := ⟨p, d, .sendToDlq error⟩) rfl hrest))
        (h.marked_of_ne hflag hc (by simp) _)
  | commitSkipped | commit | commitFailed =>
      exact hcommit trivial (Option.some.inj hcomp).symm

/-- **A call that raises without its effect keeps the invariant**, unless it loses the event. -/
lemma raise_false (h : Expiry store flagged l) (hflag : ∀ e, flagged e → flagged' e) {c : InFlight}
    (hc : l.pipeline.current = some c) {error : String}
    (hlost : c.pc.loses (.raise false error) → c.event.Terminal → flagged c.event)
    (htravels : Platform.Travels store l')
    (hrest : l'.deleted = l.deleted ∧ l'.invocations = l.invocations)
    (hpipe : l'.pipeline = l.pipeline.raise c error) : Expiry store flagged' l' := by
  obtain ⟨pipeline, deleted, invocations⟩ := l'
  obtain ⟨p, d, pc⟩ := c
  obtain rfl := hpipe
  have hrestart : pc ≠ .setExpiry → l.pipeline.raise ⟨p, d, pc⟩ error = l.pipeline.restart →
      Expiry store flagged' ⟨l.pipeline.raise ⟨p, d, pc⟩ error, deleted, invocations⟩ := by
    intro hne hpipe
    refine (h.restart htravels (fun c' hc' hpc' => ?_) hrest hpipe).mono
      (List.Subset.refl store) fun e _ => hflag e
    obtain rfl := Option.some.inj (hc.symm.trans hc')
    exact absurd hpc' hne
  cases pc with
  | redisExists | commitSkipped | commitFailed => exact hrestart (by simp) rfl
  | project | invalidateCache | setProcessed | commit =>
      exact h.goto hflag hc htravels hrest ⟨rfl, rfl, rfl, rfl⟩ (Or.inl rfl) List.prefix_rfl rfl
        (fun hfinal => hfinal.elim) (h.marked_of_ne hflag hc (by simp) _)
  | setExpiry =>
      exact h.goto hflag hc htravels hrest ⟨rfl, rfl, rfl, rfl⟩ (Or.inl rfl) List.prefix_rfl rfl
        (fun hfinal => hfinal.elim)
        (h.marked_of_flagged hflag hc fun hterm => hflag _ (hlost rfl hterm))
  | sendToDlq _ =>
      exact h.goto hflag hc htravels hrest ⟨rfl, rfl, rfl, rfl⟩ (Or.inl rfl) List.prefix_rfl rfl
        (fun _ hterm => Or.inl (hflag _ (hlost rfl hterm))) (h.marked_of_ne hflag hc (by simp) _)

/-- **A call that raises after its effect keeps the invariant**, unless it is the marking of a
terminal event. -/
lemma raise_true [Btree] (h : Expiry store flagged l) (hflag : ∀ e, flagged e → flagged' e)
    {c : InFlight}
    (hc : l.pipeline.current = some c) {error : String}
    (hlost : c.pc.loses (.raise true error) → c.event.Terminal → flagged c.event)
    (heffect : c.pc = .setExpiry → flagged' c.event) (htravels : Platform.Travels store l')
    (hrest : l'.deleted = l.deleted ∧ l'.invocations = l.invocations) {u : Pipeline}
    (hcomp : l.pipeline.complete c = some u) (hpipe : l'.pipeline = u.raise c error) :
    Expiry store flagged' l' := by
  obtain ⟨pipeline, deleted, invocations⟩ := l'
  obtain ⟨p, d, pc⟩ := c
  obtain rfl := hpipe
  have hsub : store ⊆ store := List.Subset.refl store
  cases pc with
  | redisExists =>
      obtain rfl := Option.some.inj hcomp
      refine (h.restart htravels (fun c' hc' hpc' => ?_) hrest rfl).mono hsub fun e _ => hflag e
      obtain rfl := Option.some.inj (hc.symm.trans hc')
      simp at hpc'
  | commitSkipped | commitFailed =>
      obtain rfl := Option.some.inj hcomp
      exact (h.commit hc trivial htravels hrest rfl).mono hsub fun e _ => hflag e
  | project =>
      obtain ⟨rm, _, rfl⟩ := Pipeline.complete_project rfl hcomp
      exact h.goto hflag hc htravels hrest ⟨rfl, rfl, rfl, rfl⟩ (Or.inl rfl) List.prefix_rfl rfl
        (fun hfinal => hfinal.elim) (h.marked_of_ne hflag hc (by simp) _)
  | invalidateCache =>
      obtain rfl := Option.some.inj hcomp
      exact h.goto hflag hc htravels hrest ⟨rfl, rfl, rfl, rfl⟩ (Or.inl rfl) List.prefix_rfl rfl
        (fun hfinal => hfinal.elim) (h.marked_of_ne hflag hc (by simp) _)
  | setProcessed =>
      obtain rfl := Option.some.inj hcomp
      refine h.goto hflag hc htravels hrest ⟨rfl, rfl, rfl, rfl⟩ (Or.inl rfl) List.prefix_rfl rfl
        (fun hfinal => hfinal.elim) fun id hid => ?_
      rcases List.mem_cons.mp hid with rfl | hid
      · exact ⟨d.event, h.travels.current hc, rfl, fun hterm =>
          Or.inl (hflag _ (hlost rfl hterm))⟩
      · exact h.marked_of_ne hflag hc (by simp) _ id hid
  | setExpiry =>
      obtain rfl := Option.some.inj hcomp
      exact h.goto hflag hc htravels hrest ⟨rfl, rfl, rfl, rfl⟩ (Or.inl rfl) List.prefix_rfl rfl
        (fun hfinal => hfinal.elim) (h.marked_of_flagged hflag hc fun _ => heffect rfl)
  | commit =>
      obtain rfl := Option.some.inj hcomp
      exact h.goto hflag hc htravels hrest ⟨rfl, rfl, rfl, rfl⟩ (Or.inr ⟨trivial, rfl⟩)
        List.prefix_rfl rfl (fun hfinal => hfinal.elim) (h.marked_of_ne hflag hc (by simp) _)
  | sendToDlq error' =>
      obtain rfl := Option.some.inj hcomp
      exact h.goto hflag hc htravels hrest ⟨rfl, rfl, rfl, rfl⟩ (Or.inl rfl)
        (List.prefix_append _ _) rfl
        (fun _ _ => Or.inr (h.waiting_sent (c := ⟨p, d, .sendToDlq error'⟩) rfl hrest))
        (h.marked_of_ne hflag hc (by simp) _)

/-- **Every move of the consumer keeps the invariant**, unless it loses the event. -/
theorem consume [Btree] (h : Expiry store flagged l)
    (huniq : ∀ e ∈ store, ∀ e' ∈ store, e.eventId = e'.eventId → e = e')
    (hflag : ∀ e, flagged e → flagged' e) {a : PipelineAction}
    (heffect : ∀ c, l.pipeline.current = some c → c.pc = .setExpiry →
      a.takesEffect → flagged' c.event)
    (hkeep : ∀ c, l.pipeline.current = some c → c.event.Terminal → ¬ flagged c.event →
      ¬ c.pc.loses a)
    (hstep : l.step (.consume a) = some l') : Expiry store flagged' l' := by
  have htravels : Platform.Travels store l' := h.travels.step (by simp) hstep
  obtain ⟨ha, hu, hrest⟩ := RetryLoop.consume_cases hstep
  have hlost : ∀ c, l.pipeline.current = some c → c.pc.loses a → c.event.Terminal →
      flagged c.event := by
    intro c hc hloses hterm
    by_contra hnot
    exact hkeep c hc hterm hnot hloses
  have hmono : Expiry store flagged l' → Expiry store flagged' l' := fun h' =>
    h'.mono (List.Subset.refl store) fun e _ => hflag e
  cases a with
  | poll p =>
      obtain ⟨_, hnone, d, hd, hpipe⟩ := Pipeline.poll_cases hu
      exact hmono (h.poll htravels hnone hd hrest hpipe)
  | complete =>
      obtain ⟨c, hc, hcomp⟩ := Pipeline.complete_cases hu
      exact h.complete huniq hflag hc (fun hpc => heffect c hc hpc rfl) htravels hrest hcomp
  | raise afterEffect error =>
      cases afterEffect with
      | true =>
          obtain ⟨c, u, hc, hcomp, hpipe⟩ := Pipeline.raise_after_cases hu
          exact h.raise_true hflag hc (hlost c hc) (fun hpc => heffect c hc hpc rfl) htravels hrest
            hcomp hpipe
      | false =>
          obtain ⟨c, hc, hpipe⟩ := Pipeline.raise_cases hu
          exact h.raise_false hflag hc (hlost c hc) htravels hrest hpipe
  | crash =>
      refine hmono (h.restart htravels (fun c hc hpc hterm => hlost c hc ?_ hterm) hrest
        (Option.some.inj hu).symm)
      rw [hpc]
      rfl
  | expire eventId => exact hmono (h.expire htravels hrest (Option.some.inj hu).symm)
  | retry i p outcome => exact ha.elim

/-! #### The publisher and the Lambda -/

/-- A record is sent, whether the publisher or the Lambda sends it. -/
lemma send (h : Expiry store flagged l) (htravels : Platform.Travels store l') {p : ℕ}
    {d : Delivery} (hp : p < l.pipeline.partitions)
    (hpipe : l'.pipeline = { l.pipeline with
      topic := Function.update l.pipeline.topic p (l.pipeline.topic p ++ [d]) })
    (hknown : (∀ i ∈ l'.deleted, i < l.pipeline.dlq.length) ∧
      ∀ v ∈ l'.invocations, v.message < l.pipeline.dlq.length)
    (hqueued : ∀ i m, l.pipeline.dlq[i]? = some m → i ∉ l.deleted →
      (∀ v ∈ l.invocations, v.message = i → v.pc = .handOver) →
      (i ∉ l'.deleted ∧ ∀ v ∈ l'.invocations, v.message = i → v.pc = .handOver) ∨
        m.event.event = d.event) : Expiry store flagged l' := by
  have htopic : l'.pipeline.topic =
      Function.update l.pipeline.topic p (l.pipeline.topic p ++ [d]) := by rw [hpipe]
  have hposition : l'.pipeline.position = l.pipeline.position := by rw [hpipe]
  have hwait : Waiting l' d.event := by
    refine .unread (p := p) (k := (l.pipeline.topic p).length) ?_ ?_ rfl
    · rw [hposition]
      exact h.bound p
    · rw [htopic, Function.update_self, List.getElem?_concat_length]
  refine h.grow htravels (by rw [hpipe]) (fun q => ?_) (fun q hq => ?_) ?_ (fun q d' hd' => ?_)
    hknown fun i m hm hnot hhand => (hqueued i m hm hnot hhand).imp_right fun heq => ?_
  · rw [htopic]
    exact isPrefix_send l.pipeline.topic p d q
  · rw [htopic, Function.update_of_ne (by omega)]
    exact h.outside q hq
  · rw [hpipe]
    exact List.Subset.refl _
  · rw [htopic] at hd'
    rcases mem_send hd' with hold | rfl
    · exact Or.inl hold
    · exact Or.inr hwait
  · rw [heq]
    exact hwait

/-- The Lambda's bookkeeping changes, and nothing else. -/
lemma bookkeep (h : Expiry store flagged l) (hpipe : l'.pipeline = l.pipeline)
    (hknown : (∀ i ∈ l'.deleted, i < l.pipeline.dlq.length) ∧
      ∀ v ∈ l'.invocations, v.message < l.pipeline.dlq.length)
    (hqueued : ∀ i, i ∉ l.deleted → (∀ v ∈ l.invocations, v.message = i → v.pc = .handOver) →
      i ∉ l'.deleted ∧ ∀ v ∈ l'.invocations, v.message = i → v.pc = .handOver) :
    Expiry store flagged l' := by
  refine h.grow (h.travels.of_pipeline hpipe) (by rw [hpipe]) ?_ ?_ ?_ ?_ hknown
    fun i m _ hnot hhand => Or.inl (hqueued i hnot hhand)
  · rw [hpipe]
    exact fun _ => List.prefix_rfl
  · rw [hpipe]
    exact h.outside
  · rw [hpipe]
    exact List.Subset.refl _
  · rw [hpipe]
    exact fun _ _ hd => Or.inl hd

/-- A message is handed on: a record is sent, or a dead letter stored. -/
lemma handOver (h : Expiry store flagged l) (htravels : Platform.Travels store l') {p : ℕ}
    (hp : p < l.pipeline.partitions) {v : Invocation} (hv : v ∈ l.invocations) {m : DlqMessage}
    (hm : l.pipeline.dlq[v.message]? = some m)
    (hpipe : l'.pipeline = l.pipeline.handOver p m) (hdeleted : l'.deleted = l.deleted)
    (hinv : ∀ w ∈ l'.invocations, w ∈ l.invocations ∨ w = { v with pc := .delete }) :
    Expiry store flagged l' := by
  have hknown : (∀ i ∈ l'.deleted, i < l.pipeline.dlq.length) ∧
      ∀ w ∈ l'.invocations, w.message < l.pipeline.dlq.length := by
    rw [hdeleted]
    refine ⟨h.known.1, fun w hw => ?_⟩
    rcases hinv w hw with hw | rfl
    · exact h.known.2 w hw
    · exact h.known.2 v hv
  have hqueued : ∀ i m', l.pipeline.dlq[i]? = some m' → i ∉ l.deleted →
      (∀ w ∈ l.invocations, w.message = i → w.pc = .handOver) →
      (i ∉ l'.deleted ∧ ∀ w ∈ l'.invocations, w.message = i → w.pc = .handOver) ∨ m' = m := by
    intro i m' hm' hnot hhand
    by_cases hi : v.message = i
    · rw [← hi, hm] at hm'
      exact Or.inr (Option.some.inj hm').symm
    · refine Or.inl ⟨hdeleted ▸ hnot, fun w hw hwi => ?_⟩
      rcases hinv w hw with hw | rfl
      · exact hhand w hw hwi
      · exact absurd hwi hi
  rcases l.pipeline.handOver_cases p m with ⟨_, d, hd, _, heq⟩ | ⟨_, letter, hletter, heq⟩
  · refine h.send htravels hp (hpipe.trans heq) hknown fun i m' hm' hnot hhand => ?_
    refine (hqueued i m' hm' hnot hhand).imp_right ?_
    rintro rfl
    exact hd.symm
  · rw [heq] at hpipe
    have hletters : l'.pipeline.deadLetters = l.pipeline.deadLetters ++ [letter] := by rw [hpipe]
    refine h.grow htravels (by rw [hpipe]) ?_ ?_ ?_ ?_ hknown fun i m' hm' hnot hhand => ?_
    · rw [hpipe]
      exact fun _ => List.prefix_rfl
    · rw [hpipe]
      exact h.outside
    · rw [hletters]
      exact List.subset_append_left _ _
    · rw [hpipe]
      exact fun _ _ hd => Or.inl hd
    · refine (hqueued i m' hm' hnot hhand).imp_right ?_
      rintro rfl
      have hin : letter ∈ l'.pipeline.deadLetters := by
        rw [hletters]
        exact List.mem_append_right _ (List.mem_singleton_self _)
      exact .lettered hin (by rw [hletter])

/-- **Every other move of the loop keeps the invariant.** -/
theorem other [Btree] (h : Expiry store flagged l) {a : LoopAction} (ha : ∀ b, a ≠ .consume b)
    (hsend : ∀ p e, a = .produce p e → e ∈ store) (hstep : l.step a = some l') :
    Expiry store flagged l' := by
  have htravels : Platform.Travels store l' := h.travels.step hsend hstep
  have herase : ∀ j, (∀ v ∈ l.invocations.eraseIdx j, v.message < l.pipeline.dlq.length) ∧
      ∀ i, (∀ v ∈ l.invocations, v.message = i → v.pc = .handOver) →
        ∀ v ∈ l.invocations.eraseIdx j, v.message = i → v.pc = .handOver := fun j =>
    ⟨fun v hv => h.known.2 v (List.mem_of_mem_eraseIdx hv),
      fun i hhand v hv => hhand v (List.mem_of_mem_eraseIdx hv)⟩
  cases a with
  | produce p e =>
      obtain ⟨hp, rfl⟩ := RetryLoop.produce_cases hstep
      exact h.send htravels (d := { event := e }) hp rfl h.known
        fun i m _ hnot hhand => Or.inl ⟨hnot, hhand⟩
  | consume b => exact absurd rfl (ha b)
  | receive i =>
      obtain ⟨⟨hi, _⟩, rfl⟩ := RetryLoop.receive_cases hstep
      refine h.bookkeep rfl ⟨h.known.1, fun v hv => ?_⟩
        fun i' hnot hhand => ⟨hnot, fun v hv hvi => ?_⟩
      · rcases List.mem_append.mp hv with hv | hv
        · exact h.known.2 v hv
        · rw [List.mem_singleton.mp hv]
          exact hi
      · rcases List.mem_append.mp hv with hv | hv
        · exact hhand v hv hvi
        · rw [List.mem_singleton.mp hv]
  | handOver j p outcome =>
      obtain ⟨hp, v, m, hv, hpc, hm, hdeleted, hcases⟩ := RetryLoop.handOver_cases hstep
      rcases hcases with ⟨_, hpipe, hinv⟩ | ⟨_, hpipe, hinv⟩ | ⟨_, hpipe, hinv⟩
      · refine h.handOver htravels hp (List.mem_of_getElem? hv) hm hpipe hdeleted fun w hw => ?_
        rw [hinv] at hw
        exact List.mem_or_eq_of_mem_set hw
      · refine h.bookkeep hpipe ?_ ?_ <;> rw [hdeleted, hinv]
        · exact ⟨h.known.1, (herase j).1⟩
        · exact fun i hnot hhand => ⟨hnot, (herase j).2 i hhand⟩
      · refine h.handOver htravels hp (List.mem_of_getElem? hv) hm hpipe hdeleted fun w hw => ?_
        rw [hinv] at hw
        exact Or.inl (List.mem_of_mem_eraseIdx hw)
  | delete j outcome =>
      obtain ⟨v, hv, hpc, rfl⟩ := RetryLoop.delete_cases hstep
      have hdeleted : ∀ i ∈ (if outcome = .raises then l.deleted else v.message :: l.deleted),
          i ∈ l.deleted ∨ i = v.message := by
        intro i hi
        split_ifs at hi
        · exact Or.inl hi
        · exact (List.mem_cons.mp hi).symm
      refine h.bookkeep rfl ⟨fun i hi => ?_, (herase j).1⟩ fun i hnot hhand =>
        ⟨fun hi => ?_, (herase j).2 i hhand⟩
      · rcases hdeleted i hi with hi | rfl
        · exact h.known.1 i hi
        · exact h.known.2 v (List.mem_of_getElem? hv)
      · rcases hdeleted i hi with hi | rfl
        · exact hnot hi
        · have hpc' := hhand v (List.mem_of_getElem? hv) rfl
          simp [hpc] at hpc'
  | stop j =>
      obtain rfl := RetryLoop.stop_cases hstep
      exact h.bookkeep rfl ⟨h.known.1, (herase j).1⟩
        fun i hnot hhand => ⟨hnot, (herase j).2 i hhand⟩

/-! #### Settled events -/

/-- **No copy of a settled event is still to be handled.** -/
lemma not_waiting (h : Expiry store flagged l) {e : Event} (hs : l.Settled e) : ¬ Waiting l e := by
  have hcommitted : ∀ p k d, l.pipeline.committed p ≤ k → (l.pipeline.topic p)[k]? = some d →
      d.event ≠ e := by
    intro p k d hk hd
    have hp : p < l.pipeline.partitions := by
      by_contra hp
      rw [h.outside p (not_lt.mp hp)] at hd
      simp at hd
    refine hs.committed p hp d ?_
    refine List.mem_of_getElem? (i := k - l.pipeline.committed p) ?_
    rw [List.getElem?_drop, Nat.add_sub_cancel' hk]
    exact hd
  intro hw
  cases hw with
  | unread hk hd hde => exact hcommitted _ _ _ ((h.le _).trans hk) hd hde
  | @queued i m hm hme hnot _ =>
      exact hs.queue i (List.getElem?_eq_some_iff.mp hm).1 hnot m hm hme
  | lettered hin heq => exact hs.letters _ hin heq
  | @inHand c hc hce _ hlt =>
      obtain ⟨k, hk, hd⟩ := h.travels.holds c hc
      exact hcommitted c.partition k _ (by omega) hd hce

/-- **A settled terminal event is flagged.** -/
theorem flagged_of_settled (h : Expiry store flagged l) {e : Event} (hs : l.Settled e)
    (hterm : e.Terminal) : flagged e := by
  obtain ⟨p, _, d, hd, rfl⟩ := hs.recorded
  exact (h.scheduled p d hd hterm).resolve_right (h.not_waiting hs)

end Expiry

/-! ### The invariant of the platform -/

section Platform

variable {partitioner : String → ℕ} {s t : Platform}

/-- What is stored later was not stored with the event. -/
lemma storedWith_append {store : List Event} {e : Event} (he : e ∈ store) (later : List Event) :
    storedWith (store ++ later) e = storedWith store e := by
  rw [storedWith, storedWith, List.idxOf_append_of_mem he,
    List.take_append_of_le_length (List.idxOf_lt_length_of_mem he)]

lemma Platform.Flagged.mono {e : Event} (h : s.Flagged e) (he : e ∈ s.write.store)
    (hstore : ∃ later, t.write.store = s.write.store ++ later) (hsub : s.expiresAt ⊆ t.expiresAt) :
    t.Flagged e := by
  obtain ⟨later, hstore⟩ := hstore
  intro d hd
  rw [hstore, storedWith_append he] at hd
  exact hsub (h d hd)

/-- Setting the expiry of an order flags all its stored events. -/
lemma flagged_of_expiring {c : InFlight} (hwrite : t.write = s.write)
    (hexpires : t.expiresAt =
      s.expiresAt ++ idsOfOrders s.write.store [c.event.aggregateId]) : t.Flagged c.event := by
  intro d hd
  obtain ⟨hin, hagg⟩ := mem_orderLog.mp hd
  rw [hexpires]
  refine List.mem_append_right _ (Platform.mem_idsOfOrders.mpr ⟨d, ?_, ?_, rfl⟩)
  · rw [← hwrite]
    exact List.mem_of_mem_take hin
  · rw [hagg]
    exact List.mem_singleton_self _

/-- The call for the expiry takes effect. -/
lemma newlyExpiring_of_effect [Btree] {a : PipelineAction} {c : InFlight}
    (hc : s.loop.pipeline.current = some c) (hpc : c.pc = .setExpiry) (ha : a.takesEffect)
    {loop : RetryLoop} (hstep : s.loop.step (.consume a) = some loop) :
    s.newlyExpiring loop = [c.event.aggregateId] := by
  have hone : loop.pipeline.expiring = c.event.aggregateId :: s.loop.pipeline.expiring →
      s.newlyExpiring loop = [c.event.aggregateId] := by
    intro heq
    rw [Platform.newlyExpiring, heq, List.length_cons, Nat.add_sub_cancel_left]
    rfl
  obtain ⟨_, hu, _⟩ := RetryLoop.consume_cases hstep
  refine hone ?_
  obtain ⟨p, d, pc⟩ := c
  subst hpc
  cases a with
  | complete =>
      obtain ⟨c', hc', hcomp⟩ := Pipeline.complete_cases hu
      obtain rfl := Option.some.inj (hc.symm.trans hc')
      rw [← Option.some.inj hcomp]
      rfl
  | raise afterEffect error =>
      cases afterEffect with
      | true =>
          obtain ⟨c', u, hc', hcomp, hpipe⟩ := Pipeline.raise_after_cases hu
          obtain rfl := Option.some.inj (hc.symm.trans hc')
          obtain rfl := Option.some.inj hcomp
          rw [hpipe]
          rfl
      | false => simp [PipelineAction.takesEffect] at ha
  | poll _ | crash | expire _ | retry _ _ _ => simp [PipelineAction.takesEffect] at ha

/-- **The invariant.** -/
structure ExpiryInv (s : Platform) : Prop where
  platform : Platform.Inv s
  expiry : Expiry s.write.store s.Flagged s.loop

lemma expiryInv_init (partitions : ℕ) (rm : ReadModel) : ExpiryInv (.init partitions rm) :=
  ⟨Platform.inv_init partitions rm, .init partitions rm⟩

/-- **Every move that meets the condition keeps the invariant.** -/
theorem expiryInv_step [Btree] {a : PlatformAction} (hs : ExpiryInv s) (ha : ExpiryFollows s a)
    (h : s.step partitioner a = some t) : ExpiryInv t := by
  have ht := Platform.inv_step hs.platform h
  refine ⟨ht, ?_⟩
  cases a with
  | command a =>
      obtain ⟨hwrite, hexpires, hloop⟩ := Platform.command_cases h
      have hstore : ∃ later, t.write.store = s.write.store ++ later := by
        rcases store_step hwrite with heq | ⟨_, _, b, _, _, heq⟩
        · exact ⟨[], by rw [heq, List.append_nil]⟩
        · exact ⟨_, heq⟩
      have hstart : Expiry t.write.store t.Flagged s.loop :=
        hs.expiry.mono (store_subset hwrite) fun e he hf =>
          hf.mono he hstore (by rw [hexpires]; exact List.Subset.refl _)
      refine Platform.sends_preserve (P := Expiry t.write.store t.Flagged)
        (fun hl he hstep => hl.other (by simp) (fun p e' heq => ?_) hstep)
        (fun r hr => ht.topic.stored r (List.mem_of_mem_drop hr)) hstart hloop
      obtain ⟨_, rfl⟩ := LoopAction.produce.inj heq
      exact he
  | deliver a =>
      obtain ⟨hdelivers, hloop, hwrite, hexpires⟩ := Platform.deliver_cases h
      have hflag : ∀ e, s.Flagged e → t.Flagged e := by
        intro e hf d hd
        rw [hwrite] at hd
        rw [hexpires]
        exact List.mem_append_left _ (hf d hd)
      rw [hwrite]
      by_cases hconsume : ∃ b, a = .consume b
      · obtain ⟨b, rfl⟩ := hconsume
        refine hs.expiry.consume
          (fun e he e' he' => hs.platform.write.eq_of_eventId_eq he he') hflag
          (fun c hc hpc heffect => flagged_of_expiring hwrite ?_) ha hloop
        rw [hexpires, newlyExpiring_of_effect hc hpc heffect hloop]
      · push Not at hconsume
        refine (hs.expiry.other hconsume (fun p e heq => ?_) hloop).mono (List.Subset.refl _)
          fun e _ => hflag e
        rw [heq] at hdelivers
        exact hdelivers.elim

end Platform

/-! ### What a lost event leads to -/

/-- Nothing is left of an event but the record in the consumer's hands. -/
structure RetryLoop.LastCopy (l : RetryLoop) (e : Event) : Prop where
  unread : ∀ p < l.pipeline.partitions,
    ∀ d ∈ (l.pipeline.topic p).drop (l.pipeline.position p), d.event ≠ e
  queue : ∀ i < l.pipeline.dlq.length, i ∉ l.deleted →
    ∀ m ∈ l.pipeline.dlq[i]?, m.event.event ≠ e
  letters : ∀ letter ∈ l.pipeline.deadLetters, letter.event.event ≠ e

/-- **Some continuation leaves a terminal event settled and not flagged.** -/
def Platform.Loses [Btree] (partitioner : String → ℕ) (s : Platform) : Prop :=
  ∃ bs u, run (Platform.step partitioner) s bs = some u ∧
    ∃ e ∈ u.write.store, e.Terminal ∧ u.loop.Settled e ∧ ¬ u.Flagged e

/-- The record is taken again. -/
def InFlight.again (c : InFlight) : InFlight := { c with pc := c.event.firstCall }

/-- The consumer holds the last copy of a terminal event that is not flagged. -/
structure Platform.HoldsLast (s : Platform) (c : InFlight) : Prop where
  current : s.loop.pipeline.current = some c
  recorded : c.partition < s.loop.pipeline.partitions ∧
    c.delivery ∈ s.loop.pipeline.topic c.partition
  last : s.loop.LastCopy c.event
  stored : c.event ∈ s.write.store
  terminal : c.event.Terminal
  unflagged : ¬ s.Flagged c.event

section Losing

variable [Btree] {partitioner : String → ℕ} {s t : Platform} {c : InFlight}

/-- A call of the consumer that lets nothing expire. -/
lemma Platform.step_consume {b : PipelineAction} {u : Pipeline}
    (h : s.loop.pipeline.step b = some u) (hb : b.Consumes)
    (hexpiring : u.expiring = s.loop.pipeline.expiring) :
    s.step partitioner (.deliver (.consume b)) =
      some { s with loop := { s.loop with pipeline := u } } := by
  simp [Platform.step, RetryLoop.step, LoopAction.Delivers, guard, hb, h, Platform.newlyExpiring,
    hexpiring, idsOfOrders]

lemma Platform.Loses.of_step {a : PlatformAction} (h : s.step partitioner a = some t)
    (ht : t.Loses partitioner) : s.Loses partitioner := by
  obtain ⟨bs, u, hrun, hlost⟩ := ht
  exact ⟨a :: bs, u, (run_cons_eq_some _).mpr ⟨t, h, hrun⟩, hlost⟩

namespace Platform.HoldsLast

omit [Btree] in
/-- The consumer goes on with the record. -/
lemma goto (h : s.HoldsLast c) (pc : ConsumerPc) :
    HoldsLast { s with loop := { s.loop with pipeline := s.loop.pipeline.goto c pc } }
      { c with pc } :=
  ⟨rfl, h.recorded, ⟨h.last.unread, h.last.queue, h.last.letters⟩, h.stored, h.terminal,
    h.unflagged⟩

omit [Btree] in
/-- Its keys in Redis change. -/
lemma mark (h : s.HoldsLast c) (processed : List String) :
    HoldsLast { s with loop := { s.loop with pipeline := { s.loop.pipeline with processed } } } c :=
  ⟨h.current, h.recorded, ⟨h.last.unread, h.last.queue, h.last.letters⟩, h.stored, h.terminal,
    h.unflagged⟩

/-- It commits, and nothing of the event is left. -/
lemma loses_of_final (h : s.HoldsLast c) (hpc : c.pc.Final) : s.Loses partitioner := by
  have hcomplete : s.loop.pipeline.step .complete = some s.loop.pipeline.commit := by
    rw [Pipeline.step, h.current]
    obtain ⟨p, d, pc⟩ := c
    cases pc <;> first | rfl | exact hpc.elim
  refine .of_step (step_consume hcomplete trivial rfl) ⟨[], _, rfl, c.event, h.stored, h.terminal,
    ⟨⟨c.partition, h.recorded.1, c.delivery, h.recorded.2, rfl⟩, h.last.unread, h.last.queue,
      h.last.letters⟩, h.unflagged⟩

/-- The send to the queue fails. -/
lemma loses_of_sendToDlq (h : s.HoldsLast c) {error : String} (hpc : c.pc = .sendToDlq error) :
    s.Loses partitioner := by
  have hraise : s.loop.pipeline.step (.raise false error) =
      some (s.loop.pipeline.goto c .commitFailed) := by
    simp [Pipeline.step, h.current, Pipeline.raise, hpc]
  exact .of_step (step_consume hraise trivial rfl) ((h.goto .commitFailed).loses_of_final trivial)

/-- The projection fails, too. -/
lemma loses_of_project (h : s.HoldsLast c) (hpc : c.pc = .project) : s.Loses partitioner := by
  have hraise : s.loop.pipeline.step (.raise false "connection refused") =
      some (s.loop.pipeline.goto c (.sendToDlq "connection refused")) := by
    simp [Pipeline.step, h.current, Pipeline.raise, hpc]
  exact .of_step (step_consume hraise trivial rfl) ((h.goto _).loses_of_sendToDlq rfl)

/-- The record is skipped if the event is marked, and fails otherwise. -/
lemma loses_of_firstCall (h : s.HoldsLast c) (hpc : c.pc = c.event.firstCall) :
    s.Loses partitioner := by
  rw [Event.firstCall] at hpc
  split_ifs at hpc with hid
  · have hcomplete : s.loop.pipeline.step .complete = some (s.loop.pipeline.goto c
        (if c.event.eventId ∈ s.loop.pipeline.processed then .commitSkipped else .project)) := by
      simp [Pipeline.step, h.current, Pipeline.complete, hpc]
    refine .of_step (step_consume hcomplete trivial rfl) ?_
    split_ifs
    · exact (h.goto .commitSkipped).loses_of_final trivial
    · exact (h.goto .project).loses_of_project rfl
  · exact h.loses_of_project hpc

/-- **The consumer crashes**: it takes the record again. -/
lemma loses_of_crash (h : s.HoldsLast c) (hoff : s.loop.pipeline.Offsets) :
    Loses partitioner { s with loop := { s.loop with pipeline := s.loop.pipeline.restart } } := by
  obtain ⟨k, hk, hd⟩ := hoff.holds c h.current
  rcases hoff.behind c.partition with heq | ⟨_, _, _, hpos⟩
  · -- its record is committed
    have hall : s.loop.pipeline.committed = s.loop.pipeline.position := by
      funext q
      by_cases hq : q = c.partition
      · rw [hq, heq]
      · exact hoff.committed_of_ne h.current hq
    refine ⟨[], _, rfl, c.event, h.stored, h.terminal,
      ⟨⟨c.partition, h.recorded.1, c.delivery, h.recorded.2, rfl⟩, fun q hq => ?_, h.last.queue,
        h.last.letters⟩, h.unflagged⟩
    change ∀ d ∈ (s.loop.pipeline.topic q).drop (s.loop.pipeline.committed q), d.event ≠ c.event
    rw [hall]
    exact h.last.unread q hq
  · obtain rfl : k = s.loop.pipeline.committed c.partition := by omega
    have hpoll : s.loop.pipeline.restart.step (.poll c.partition) = some
        { s.loop.pipeline.restart with
          position := Function.update s.loop.pipeline.committed c.partition
            (s.loop.pipeline.committed c.partition + 1)
          current := some c.again } := by
      simp [Pipeline.step, Pipeline.restart, h.recorded.1, hd, InFlight.again]
    have hposition : Function.update s.loop.pipeline.committed c.partition
        (s.loop.pipeline.committed c.partition + 1) = s.loop.pipeline.position := by
      funext q
      by_cases hq : q = c.partition
      · rw [hq, Function.update_self, hpos]
      · rw [Function.update_of_ne hq, hoff.committed_of_ne h.current hq]
    refine .of_step (step_consume hpoll trivial rfl) (loses_of_firstCall (c := c.again) ?_ rfl)
    refine ⟨rfl, h.recorded, ⟨fun q hq => ?_, h.last.queue, h.last.letters⟩, h.stored, h.terminal,
      h.unflagged⟩
    rw [hposition]
    exact h.last.unread q hq

end Platform.HoldsLast

/-- The loop of the platform stays sound. -/
lemma Platform.sound_step {a : PlatformAction} (hs : s.loop.Sound)
    (h : s.step partitioner a = some t) : t.loop.Sound := by
  cases a with
  | command a =>
      obtain ⟨_, _, hloop⟩ := command_cases h
      exact sends_preserve (P := RetryLoop.Sound)
        (fun hl _ hstep => OrderCqrs.sound_step hl hstep)
        (fun r hr => List.mem_map_of_mem (f := Record.value) hr) hs hloop
  | deliver a =>
      obtain ⟨_, hloop, _⟩ := deliver_cases h
      exact OrderCqrs.sound_step hs hloop

/-- **A step outside the condition**, on the last copy of its event, has a continuation that loses
it. -/
lemma Platform.loses_of_violation {a : PlatformAction} (hs : Platform.Inv s)
    (hsound : s.loop.Sound) (ha : ¬ ExpiryFollows s a)
    (hlast : ∀ c ∈ s.loop.pipeline.current, s.loop.LastCopy c.event)
    (h : s.step partitioner a = some t) : t.Loses partitioner := by
  have hconsume : ∃ b c, a = .deliver (.consume b) ∧ s.loop.pipeline.current = some c ∧
      c.event.Terminal ∧ ¬ s.Flagged c.event ∧ c.pc.loses b = true := by
    cases a with
    | command a => exact absurd trivial ha
    | deliver a =>
        cases a with
        | consume b =>
            simp only [ExpiryFollows] at ha
            push Not at ha
            obtain ⟨c, hc, hterm, hflag, hloses⟩ := ha
            exact ⟨b, c, rfl, hc, hterm, hflag, hloses⟩
        | produce _ _ | receive _ | handOver _ _ _ | delete _ _ | stop _ => exact absurd trivial ha
  obtain ⟨b, c, rfl, hc, hterm, hflag, hloses⟩ := hconsume
  have hheld : s.HoldsLast c := by
    obtain ⟨k, _, hd⟩ := hsound.offsets.holds c hc
    have hmem := List.mem_of_getElem? hd
    refine ⟨hc, ⟨?_, hmem⟩, hlast c hc, hs.travels.current hc, hterm, hflag⟩
    by_contra hp
    rw [hsound.inside _ (not_lt.mp hp)] at hmem
    exact absurd hmem List.not_mem_nil
  obtain ⟨p, d, pc⟩ := c
  dsimp only [ConsumerPc.loses] at hloses
  split at hloses
  next error =>
    have hstep : s.loop.pipeline.step (.raise true error) = some
        ({ s.loop.pipeline with
          processed := d.event.eventId :: s.loop.pipeline.processed }.goto ⟨p, d, .setProcessed⟩
            (.sendToDlq error)) := by
      simp [Pipeline.step, hc, Pipeline.complete, Pipeline.raise, Pipeline.goto]
    obtain rfl := Option.some.inj (h.symm.trans (step_consume hstep trivial rfl))
    exact ((hheld.mark (d.event.eventId :: s.loop.pipeline.processed)).goto
      (.sendToDlq error)).loses_of_sendToDlq rfl
  next =>
    obtain rfl := Option.some.inj (h.symm.trans (step_consume rfl trivial rfl))
    exact hheld.loses_of_crash hsound.offsets
  next error =>
    have hstep : s.loop.pipeline.step (.raise false error) =
        some (s.loop.pipeline.goto ⟨p, d, .setExpiry⟩ (.sendToDlq error)) := by
      simp [Pipeline.step, hc, Pipeline.raise]
    obtain rfl := Option.some.inj (h.symm.trans (step_consume hstep trivial rfl))
    exact (hheld.goto (.sendToDlq error)).loses_of_sendToDlq rfl
  next error' error =>
    have hstep : s.loop.pipeline.step (.raise false error) =
        some (s.loop.pipeline.goto ⟨p, d, .sendToDlq error'⟩ .commitFailed) := by
      simp [Pipeline.step, hc, Pipeline.raise]
    obtain rfl := Option.some.inj (h.symm.trans (step_consume hstep trivial rfl))
    exact (hheld.goto .commitFailed).loses_of_final trivial
  next => cases hloses

end Losing

/-- **Ended orders are scheduled for pruning**, as long as no terminal event is lost: along every
run of handlers, consumer and Lambda that meets the condition, in any interleaving, the events
stored for the order of a settled terminal event when that was appended carry `expires_at`; and a
step outside the condition, wherever it happens, loses an event of which it has the last copy. -/
theorem terminal_flagged [Btree] {partitioner : String → ℕ} {partitions : ℕ} {rm : ReadModel}
    {as : List PlatformAction} {s : Platform}
    (hrun : run (Platform.step partitioner) (.init partitions rm) as = some s) :
    (Along (Platform.step partitioner) ExpiryFollows (.init partitions rm) as →
      ∀ e ∈ s.write.store, e.Terminal → s.loop.Settled e → s.Flagged e) ∧
    ∀ a t, ¬ ExpiryFollows s a → s.step partitioner a = some t →
      (∀ c ∈ s.loop.pipeline.current, s.loop.LastCopy c.event) →
        ∃ bs u, run (Platform.step partitioner) t bs = some u ∧
          ∃ e ∈ u.write.store, e.Terminal ∧ u.loop.Settled e ∧ ¬ u.Flagged e := by
  refine ⟨fun halong e _ hterm hsettled => ?_, fun a t ha hstep hlast => ?_⟩
  · have hs : ExpiryInv s := preserves_along (fun hs ha hstep => expiryInv_step hs ha hstep)
      (expiryInv_init partitions rm) halong hrun
    exact hs.expiry.flagged_of_settled hsettled hterm
  · have hsound : s.loop.Sound :=
      run_preserves (P := fun s : Platform => s.loop.Sound)
        (fun hs hstep => Platform.sound_step hs hstep) (sound_init partitions rm) hrun
    exact Platform.loses_of_violation (Platform.inv_run hrun) hsound ha hlast hstep

theorem cancelledRun_flagged : ∃ s e,
    run (Platform.step fun _ => 0) (.init 1 .empty) cancelledRun = some s ∧ e ∈ s.write.store ∧
      e.Terminal ∧ s.loop.Settled e ∧ s.Flagged e := by
  have heval : ((run (Platform.step fun _ => 0) (.init 1 .empty) cancelledRun).any fun s =>
      decide (∃ e ∈ s.write.store, e.Terminal ∧ s.loop.Settled e)) = true := by
    decide +kernel
  obtain ⟨s, hrun, e, he, hterm, hsettled⟩ := exists_run_of_eval heval
  have halong : Along (Platform.step fun _ => 0) ExpiryFollows (.init 1 .empty) cancelledRun := by
    decide +kernel
  exact ⟨s, e, hrun, he, hterm, hsettled, (terminal_flagged hrun).1 halong e he hterm hsettled⟩

/-- The consumer crashes when it has marked the cancellation and not set the expiry; after the
restart it skips the record. -/
def interruptedRun : List PlatformAction :=
  cancelSchedule.map .command ++ consumes 5 ++ consumes 4 ++ [.deliver (.consume .crash)] ++
    consumes 2

/-- **An order that is never scheduled**: its cancellation is settled, and none of its events
carries `expires_at`. -/
theorem unscheduled_cancellation : ∃ s e,
    run (Platform.step fun _ => 0) (.init 1 .empty) interruptedRun = some s ∧
      e ∈ s.write.store ∧ e.eventType = .orderCancelled ∧ s.loop.Settled e ∧ ¬ s.Flagged e ∧
      s.expiresAt = [] := by
  have heval : ((run (Platform.step fun _ => 0) (.init 1 .empty) interruptedRun).any fun s =>
      decide (∃ e ∈ s.write.store, e.eventType = .orderCancelled ∧ s.loop.Settled e ∧
        ¬ s.Flagged e ∧ s.expiresAt = [])) = true := by
    decide +kernel
  obtain ⟨s, hrun, e, he⟩ := exists_run_of_eval heval
  exact ⟨s, e, hrun, he⟩

end OrderCqrs
