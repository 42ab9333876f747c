import OrderCqrs.Delivery.Consumer
import OrderCqrs.Domain.Json
import OrderCqrs.Logic.Partitions

/-!
The projection consumer (`consumers/main.py`) over records that are any JSON objects, and the loss
of events.

* `RawEvent`: an object with any members; `RawEvent.eventId?`, `RawEvent.hasFields`,
  `RawEvent.sendable`: what the loop, the projection and the client of the queue read of it.
* `RawPipeline`: topic, offsets, processed keys, and the histories of the committed projections and
  of the messages sent to the queue.
* `SameEvent`: two records of one event, that is, with one id, or without an id and equal.
* `RawPipeline.NothingLost`: every record below the committed offsets is handled, that is, projected
  or sent to the queue.
* `DropsHandled`: a record is skipped, or its send to the queue fails, only if it is handled
  already.
* `nothing_lost`: **along every run that meets the condition nothing is lost**, and where it is not
  met the next commit loses an event.
* `lost_event`: a failed projection whose send to the queue fails, too.
-/

namespace OrderCqrs

open Runs Partitions

/-! ### Records -/

/-- The value counts as true: it is neither `None`, `False`, zero nor empty. -/
def Json.truthy : Json → Bool
  | .null => false
  | .bool b => b
  | .number n => n.text ∉ ["0", "0.0", "-0.0"]
  | .string s => s ≠ []
  | .array items => items ≠ .nil
  | .object members => members ≠ .nil

/-- The JSON object of a record. -/
abbrev RawEvent := JsonMembers

namespace RawEvent

/-- `event.get`. -/
def get (event : RawEvent) (key : String) : Option Json := event.get? (Str.ofString key)

/-- A member, or `"unknown"`. -/
def getUnknown (event : RawEvent) (key : String) : Json :=
  (event.get key).getD (.string (.ofString "unknown"))

/-- The `event_id`, if it counts as one. -/
def eventId? (event : RawEvent) : Option Json := (event.get "event_id").filter (·.truthy)

/-- `project_to_postgres` finds the members it reads. -/
def hasFields (event : RawEvent) : Bool :=
  ["event_type", "aggregate_id", "payload", "aggregate_version"].all fun key =>
    (event.get key).isSome

/-- The value of a message attribute is a string; the client refuses others. -/
def stringAttribute (event : RawEvent) (key : String) : Bool :=
  match (event.get key).getD (.string (Str.ofString "unknown")) with
  | .string _ => true
  | _ => false

/-- The attributes of the message that `send_to_dlq` sends are strings. -/
def sendable (event : RawEvent) : Bool :=
  event.stringAttribute "aggregate_id" && event.stringAttribute "event_type"

/-- The event is one of the terminal types. -/
def terminal (event : RawEvent) : Bool :=
  event.get "event_type" = some (.string (Str.ofString "ORDER_DELIVERED")) ∨
    event.get "event_type" = some (.string (Str.ofString "ORDER_CANCELLED"))

/-- Where the loop begins with a record: one without an id is not looked up. -/
def firstCall (event : RawEvent) : ConsumerPc :=
  if event.eventId?.isSome then .redisExists else .project

/-- Where the loop goes when the record is marked as processed. -/
def afterProcessed (event : RawEvent) : ConsumerPc := if event.terminal then .setExpiry else .commit

/-- Where the loop goes when the cache is invalidated: a record without an id is not marked. -/
def afterInvalidate (event : RawEvent) : ConsumerPc :=
  if event.eventId?.isSome then .setProcessed else event.afterProcessed

end RawEvent

/-- **Two records of one event.** -/
def SameEvent (a b : RawEvent) : Prop := a = b ∨ a.eventId?.isSome ∧ a.eventId? = b.eventId?

instance (a b : RawEvent) : Decidable (SameEvent a b) := inferInstanceAs (Decidable (_ ∨ _ ∧ _))

/-! ### The transition system -/

/-- The record in the consumer's hands. -/
structure RawInFlight where
  partition : ℕ
  event : RawEvent
  pc : ConsumerPc
  deriving DecidableEq

/-- The topic, the consumer and its histories. -/
structure RawPipeline where
  topic : ℕ → List RawEvent
  committed : ℕ → ℕ
  position : ℕ → ℕ
  current : Option RawInFlight
  processed : List Str
  projected : List RawEvent
  sent : List RawEvent

/-- The moves of topic and consumer. -/
inductive RawAction where
  | produce (p : ℕ) (event : RawEvent)
  | poll (p : ℕ)
  | complete
  | raise (afterEffect : Bool) (error : String)
  | crash
  | expire (key : Str)

/-- `processed:{event_id}`, for the ids that there are.  `format` is what an f-string writes for a
value. -/
def RawEvent.processedKey? (format : Json → Str) (event : RawEvent) : Option Str :=
  event.eventId?.map fun id => Str.ofString "processed:" ++ format id

namespace RawPipeline

/-- A consumer group that has committed nothing yet. -/
def init (topic : ℕ → List RawEvent) : RawPipeline where
  topic := topic
  committed := fun _ => 0
  position := fun _ => 0
  current := none
  processed := []
  projected := []
  sent := []

/-- The consumer goes on to another call for its record. -/
def goto (s : RawPipeline) (c : RawInFlight) (pc : ConsumerPc) : RawPipeline :=
  { s with current := some { c with pc } }

/-- `consumer.commit()`. -/
def commit (s : RawPipeline) : RawPipeline := { s with committed := s.position, current := none }

/-- The consumer starts again at the committed offsets. -/
def restart (s : RawPipeline) : RawPipeline := { s with position := s.committed, current := none }

/-- The record in the consumer's hands has been marked as processed. -/
def Marked (format : Json → Str) (s : RawPipeline) (event : RawEvent) : Prop :=
  ∃ key ∈ event.processedKey? format, key ∈ s.processed

instance (format : Json → Str) (s : RawPipeline) (event : RawEvent) :
    Decidable (s.Marked format event) :=
  inferInstanceAs (Decidable (∃ key ∈ event.processedKey? format, key ∈ s.processed))

/-- The awaited call completes.  A projection can do so when it finds its members, a send when its
attributes are strings; whether they do is up to the run. -/
def complete (format : Json → Str) (s : RawPipeline) (c : RawInFlight) : Option RawPipeline :=
  match c.pc with
  | .redisExists => some (s.goto c (if s.Marked format c.event then .commitSkipped else .project))
  | .project => do
      guard c.event.hasFields
      return { s with projected := s.projected ++ [c.event] }.goto c .invalidateCache
  | .invalidateCache => some (s.goto c c.event.afterInvalidate)
  | .setProcessed =>
      some ({ s with
        processed := (c.event.processedKey? format).toList ++ s.processed }.goto c
          c.event.afterProcessed)
  | .setExpiry => some (s.goto c .commit)
  | .sendToDlq _ => do
      guard c.event.sendable
      return { s with sent := s.sent ++ [c.event] }.goto c .commitFailed
  | .commitSkipped | .commit | .commitFailed => some s.commit

/-- The awaited call raises. -/
def raise (s : RawPipeline) (c : RawInFlight) (error : String) : RawPipeline :=
  match c.pc with
  | .project | .invalidateCache | .setProcessed | .setExpiry | .commit => s.goto c (.sendToDlq error)
  | .sendToDlq _ => s.goto c .commitFailed
  | .redisExists | .commitSkipped | .commitFailed => s.restart

/-- One move. -/
def step (format : Json → Str) (s : RawPipeline) : RawAction → Option RawPipeline
  | .produce p event =>
      some { s with topic := Function.update s.topic p (s.topic p ++ [event]) }
  | .poll p => do
      guard s.current.isNone
      let event ← (s.topic p)[s.position p]?
      return { s with
        position := Function.update s.position p (s.position p + 1)
        current := some ⟨p, event, event.firstCall⟩ }
  | .complete => do
      let c ← s.current
      s.complete format c
  | .raise afterEffect error => do
      let c ← s.current
      if afterEffect then
        let t ← s.complete format c
        return t.raise c error
      else
        return s.raise c error
  | .crash => some s.restart
  | .expire key => some { s with processed := s.processed.filter (· ≠ key) }

/-! ### What is to hold, and when -/

/-- A record of the event has been projected or sent to the queue. -/
def Handled (s : RawPipeline) (event : RawEvent) : Prop :=
  ∃ e ∈ s.projected ++ s.sent, SameEvent event e

instance (s : RawPipeline) (event : RawEvent) : Decidable (s.Handled event) :=
  inferInstanceAs (Decidable (∃ e ∈ s.projected ++ s.sent, SameEvent event e))

/-- **Nothing is lost**: the records below the committed offsets are handled. -/
def NothingLost (s : RawPipeline) : Prop :=
  ∀ p, ∀ event ∈ (s.topic p).take (s.committed p), s.Handled event

/-- The move takes the record to a commit although nothing has been done with it: the look-up finds
its key, or the send to the queue fails. -/
def drops (format : Json → Str) (s : RawPipeline) (c : RawInFlight) : RawAction → Bool
  | .complete => c.pc = .redisExists ∧ s.Marked format c.event
  | .raise false _ => match c.pc with
      | .sendToDlq _ => true
      | _ => false
  | _ => false

end RawPipeline

/-- **Only handled records are dropped**: when the key of a record is found, the record is one of an
event that has been handled, and the send of a failed record to the queue does not fail, unless its
event has been handled. -/
def DropsHandled (format : Json → Str) (s : RawPipeline) (a : RawAction) : Prop :=
  ∀ c ∈ s.current, s.drops format c a → s.Handled c.event

instance (format : Json → Str) (s : RawPipeline) (a : RawAction) :
    Decidable (DropsHandled format s a) :=
  inferInstanceAs (Decidable (∀ c ∈ s.current, s.drops format c a → s.Handled c.event))

/-! ### The invariant -/

/-- The calls after which the consumer commits without the queue: the record has been projected,
sent or skipped. -/
def ConsumerPc.Passed : ConsumerPc → Prop
  | .redisExists | .project | .sendToDlq _ => False
  | _ => True

namespace RawPipeline

variable {format : Json → Str} {s t : RawPipeline} {c : RawInFlight} {a : RawAction}

lemma Handled.mono {event : RawEvent} (h : s.Handled event) (hproj : s.projected ⊆ t.projected)
    (hsent : s.sent ⊆ t.sent) : t.Handled event := by
  obtain ⟨e, he, hsame⟩ := h
  refine ⟨e, ?_, hsame⟩
  rcases List.mem_append.mp he with he | he
  · exact List.mem_append_left _ (hproj he)
  · exact List.mem_append_right _ (hsent he)

/-- The offsets, and the record in the consumer's hands. -/
structure Inv (s : RawPipeline) : Prop where
  le : ∀ p, s.committed p ≤ s.position p
  bound : ∀ p, s.position p ≤ (s.topic p).length
  holds : ∀ c, s.current = some c →
    ∃ k, s.position c.partition = k + 1 ∧ (s.topic c.partition)[k]? = some c.event

/-- **What has been received is handled or in the consumer's hands.** -/
structure Kept (s : RawPipeline) : Prop where
  below : ∀ p, ∀ k < s.committed p, ∀ event, (s.topic p)[k]? = some event → s.Handled event
  received : ∀ p, ∀ k < s.position p, ∀ event, (s.topic p)[k]? = some event →
    s.Handled event ∨ ∃ c, s.current = some c ∧ c.event = event
  inHand : ∀ c, s.current = some c → c.pc.Passed → s.Handled c.event

lemma inv_init (topic : ℕ → List RawEvent) : Inv (init topic) where
  le := fun _ => le_rfl
  bound := fun _ => Nat.zero_le _
  holds := by simp [init]

lemma kept_init (topic : ℕ → List RawEvent) : Kept (init topic) where
  below := fun _ k hk => absurd hk (Nat.not_lt_zero k)
  received := fun _ k hk => absurd hk (Nat.not_lt_zero k)
  inHand := by simp [init]

/-! #### The record in hand -/

/-- The consumer goes on with its record, after it has committed it or not. -/
structure Goes (s t : RawPipeline) (c : RawInFlight) (pc : ConsumerPc) : Prop where
  topic : t.topic = s.topic
  position : t.position = s.position
  committed : t.committed = s.committed ∨ c.pc.Passed ∧ t.committed = s.position
  current : t.current = some { c with pc }
  projected : s.projected ⊆ t.projected
  sent : s.sent ⊆ t.sent

lemma Inv.goes {pc : ConsumerPc} (hs : Inv s) (hc : s.current = some c) (h : Goes s t c pc) :
    Inv t where
  le := by
    intro p
    rw [h.position]
    rcases h.committed with heq | ⟨_, heq⟩
    · rw [heq]
      exact hs.le p
    · rw [heq]
  bound := by
    rw [h.position, h.topic]
    exact hs.bound
  holds := by
    intro c' hc'
    rw [h.current] at hc'
    obtain rfl := Option.some.inj hc'
    rw [h.position, h.topic]
    exact hs.holds c hc

lemma Kept.goes {pc : ConsumerPc} (hk : Kept s) (hc : s.current = some c)
    (h : Goes s t c pc) (hpc : pc.Passed → t.Handled c.event) : Kept t where
  below := by
    intro p k hlt event he
    rw [h.topic] at he
    rcases h.committed with heq | ⟨hpassed, heq⟩
    · rw [heq] at hlt
      exact (hk.below p k hlt event he).mono h.projected h.sent
    · rw [heq] at hlt
      rcases hk.received p k hlt event he with hh | ⟨c', hc', rfl⟩
      · exact hh.mono h.projected h.sent
      · obtain rfl := Option.some.inj (hc.symm.trans hc')
        exact (hk.inHand c hc hpassed).mono h.projected h.sent
  received := by
    intro p k hlt event he
    rw [h.topic] at he
    rw [h.position] at hlt
    refine (hk.received p k hlt event he).imp (fun hh => hh.mono h.projected h.sent) ?_
    rintro ⟨c', hc', rfl⟩
    obtain rfl := Option.some.inj (hc.symm.trans hc')
    exact ⟨_, h.current, rfl⟩
  inHand := by
    intro c' hc' hpassed
    rw [h.current] at hc'
    obtain rfl := Option.some.inj hc'
    exact hpc hpassed

lemma Inv.commit (hs : Inv s) : Inv s.commit :=
  ⟨fun _ => le_rfl, hs.bound, by simp [RawPipeline.commit]⟩

/-- The commit of a handled record. -/
lemma Kept.commit (hk : Kept s) (hc : s.current = some c) (hpassed : c.pc.Passed) :
    Kept s.commit := by
  have hall : ∀ p, ∀ k < s.position p, ∀ event, (s.topic p)[k]? = some event →
      s.Handled event := by
    intro p k hlt event he
    rcases hk.received p k hlt event he with hh | ⟨c', hc', rfl⟩
    · exact hh
    · obtain rfl := Option.some.inj (hc.symm.trans hc')
      exact hk.inHand c hc hpassed
  exact ⟨hall, fun p k hlt event he => Or.inl (hall p k hlt event he),
    by simp [RawPipeline.commit]⟩

lemma Inv.restart (hs : Inv s) : Inv s.restart :=
  ⟨fun _ => le_rfl, fun p => (hs.le p).trans (hs.bound p), by simp [RawPipeline.restart]⟩

lemma Kept.restart (hk : Kept s) : Kept s.restart :=
  ⟨hk.below, fun p k hlt event he => Or.inl (hk.below p k hlt event he),
    by simp [RawPipeline.restart]⟩

/-! #### What a call does -/

/-- What a call of the consumer leads to: another call for the record, which has been handled or is
dropped if a commit is to follow, a start from the committed offsets, or a commit. -/
def Calls (format : Json → Str) (s t : RawPipeline) (c : RawInFlight) (a : RawAction) : Prop :=
  (∃ pc, Goes s t c pc ∧ (pc.Passed → c.pc.Passed ∨ t.Handled c.event ∨ s.drops format c a)) ∨
    t = s.restart ∨ c.pc.Passed ∧ t = s.commit

lemma goes_goto (s : RawPipeline) (c : RawInFlight) (pc : ConsumerPc) : Goes s (s.goto c pc) c pc :=
  ⟨rfl, rfl, Or.inl rfl, rfl, List.Subset.refl _, List.Subset.refl _⟩

lemma handled_of_mem {event : RawEvent} (h : event ∈ s.projected ++ s.sent) : s.Handled event :=
  ⟨event, h, Or.inl rfl⟩

lemma calls_complete (h : s.complete format c = some t) : Calls format s t c .complete := by
  obtain ⟨p, event, pc⟩ := c
  cases pc with
  | redisExists =>
      obtain rfl := Option.some.inj h
      refine Or.inl ⟨_, goes_goto s _ _, fun hpassed => Or.inr (Or.inr ?_)⟩
      by_cases hmarked : s.Marked format event
      · exact decide_eq_true ⟨rfl, hmarked⟩
      · dsimp only at hpassed
        rw [if_neg hmarked] at hpassed
        exact hpassed.elim
  | project =>
      obtain ⟨_, _, h⟩ := Option.bind_eq_some_iff.mp h
      obtain rfl := Option.some.inj h
      refine Or.inl ⟨_, ⟨rfl, rfl, Or.inl rfl, rfl, List.subset_append_left _ _,
        List.Subset.refl _⟩, fun _ => Or.inr (Or.inl (handled_of_mem ?_))⟩
      exact List.mem_append_left _ (List.mem_append_right _ (List.mem_singleton_self _))
  | invalidateCache | setExpiry =>
      obtain rfl := Option.some.inj h
      exact Or.inl ⟨_, goes_goto s _ _, fun _ => Or.inl trivial⟩
  | setProcessed =>
      obtain rfl := Option.some.inj h
      exact Or.inl ⟨_, ⟨rfl, rfl, Or.inl rfl, rfl, List.Subset.refl _, List.Subset.refl _⟩,
        fun _ => Or.inl trivial⟩
  | sendToDlq error =>
      obtain ⟨_, _, h⟩ := Option.bind_eq_some_iff.mp h
      obtain rfl := Option.some.inj h
      refine Or.inl ⟨_, ⟨rfl, rfl, Or.inl rfl, rfl, List.Subset.refl _,
        List.subset_append_left _ _⟩, fun _ => Or.inr (Or.inl (handled_of_mem ?_))⟩
      exact List.mem_append_right _ (List.mem_append_right _ (List.mem_singleton_self _))
  | commitSkipped | commit | commitFailed =>
      exact Or.inr (Or.inr ⟨trivial, (Option.some.inj h).symm⟩)

lemma calls_raise (error : String) :
    Calls format s (s.raise c error) c (.raise false error) := by
  obtain ⟨p, event, pc⟩ := c
  cases pc with
  | redisExists | commitSkipped | commitFailed => exact Or.inr (Or.inl rfl)
  | project | invalidateCache | setProcessed | setExpiry | commit =>
      exact Or.inl ⟨_, goes_goto s _ _, fun hpassed => hpassed.elim⟩
  | sendToDlq _ => exact Or.inl ⟨_, goes_goto s _ _, fun _ => Or.inr (Or.inr rfl)⟩

/-- A call that raises after its effect. -/
lemma calls_raise_after {u : RawPipeline} (h : s.complete format c = some u) (error : String) :
    Calls format s (u.raise c error) c (.raise true error) := by
  obtain ⟨p, event, pc⟩ := c
  cases pc with
  | redisExists =>
      obtain rfl := Option.some.inj h
      exact Or.inr (Or.inl rfl)
  | project =>
      obtain ⟨_, _, h⟩ := Option.bind_eq_some_iff.mp h
      obtain rfl := Option.some.inj h
      exact Or.inl ⟨_, ⟨rfl, rfl, Or.inl rfl, rfl, List.subset_append_left _ _,
        List.Subset.refl _⟩, fun hpassed => hpassed.elim⟩
  | invalidateCache | setProcessed | setExpiry =>
      obtain rfl := Option.some.inj h
      exact Or.inl ⟨_, ⟨rfl, rfl, Or.inl rfl, rfl, List.Subset.refl _, List.Subset.refl _⟩,
        fun hpassed => hpassed.elim⟩
  | commit =>
      obtain rfl := Option.some.inj h
      exact Or.inl ⟨_, ⟨rfl, rfl, Or.inr ⟨trivial, rfl⟩, rfl, List.Subset.refl _,
        List.Subset.refl _⟩, fun hpassed => hpassed.elim⟩
  | sendToDlq error' =>
      obtain ⟨_, _, h⟩ := Option.bind_eq_some_iff.mp h
      obtain rfl := Option.some.inj h
      refine Or.inl ⟨_, ⟨rfl, rfl, Or.inl rfl, rfl, List.Subset.refl _,
        List.subset_append_left _ _⟩, fun _ => Or.inr (Or.inl (handled_of_mem ?_))⟩
      exact List.mem_append_right _ (List.mem_append_right _ (List.mem_singleton_self _))
  | commitSkipped | commitFailed =>
      obtain rfl := Option.some.inj h
      exact Or.inr (Or.inr ⟨trivial, rfl⟩)

/-- **The moves**: a record arrives or is taken, a call of the consumer, a crash, the expiry of a
key. -/
lemma step_cases (h : s.step format a = some t) :
    (∃ p event, t = { s with topic := Function.update s.topic p (s.topic p ++ [event]) }) ∨
    (∃ p event, s.current = none ∧ (s.topic p)[s.position p]? = some event ∧ t = { s with
      position := Function.update s.position p (s.position p + 1)
      current := some ⟨p, event, event.firstCall⟩ }) ∨
    (∃ c, s.current = some c ∧ Calls format s t c a) ∨ t = s.restart ∨
    ∃ key, t = { s with processed := s.processed.filter (· ≠ key) } := by
  cases a with
  | produce p event => exact Or.inl ⟨p, event, (Option.some.inj h).symm⟩
  | poll p =>
      simp only [step, Option.bind_eq_bind, Option.bind_eq_some_iff, Option.guard_eq_some'] at h
      obtain ⟨_, hnone, event, he, h⟩ := h
      exact Or.inr (Or.inl ⟨p, event, Option.isNone_iff_eq_none.mp hnone, he,
        (Option.some.inj h).symm⟩)
  | complete =>
      obtain ⟨c, hc, h⟩ := Option.bind_eq_some_iff.mp h
      exact Or.inr (Or.inr (Or.inl ⟨c, hc, calls_complete h⟩))
  | raise afterEffect error =>
      obtain ⟨c, hc, h⟩ := Option.bind_eq_some_iff.mp h
      refine Or.inr (Or.inr (Or.inl ⟨c, hc, ?_⟩))
      cases afterEffect with
      | true =>
          obtain ⟨u, hu, h⟩ := Option.bind_eq_some_iff.mp h
          obtain rfl := Option.some.inj h
          exact calls_raise_after hu error
      | false =>
          obtain rfl := Option.some.inj h
          exact calls_raise error
  | crash => exact Or.inr (Or.inr (Or.inr (Or.inl (Option.some.inj h).symm)))
  | expire key => exact Or.inr (Or.inr (Or.inr (Or.inr ⟨key, (Option.some.inj h).symm⟩)))

/-- **Every move keeps the first part.** -/
theorem inv_step (hs : Inv s) (h : s.step format a = some t) : Inv t := by
  rcases step_cases h with ⟨p, event, rfl⟩ | ⟨p, event, hnone, he, rfl⟩ | ⟨c, hc, hcalls⟩ | rfl |
    ⟨key, rfl⟩
  · refine ⟨hs.le, fun q => (hs.bound q).trans (isPrefix_send s.topic p event q).length_le,
      fun c hc => ?_⟩
    obtain ⟨k, hk, hd⟩ := hs.holds c hc
    exact ⟨k, hk, getElem?_send hd p event⟩
  · refine ⟨fun q => (hs.le q).trans (le_advance s.position p q), advance_le hs.bound he,
      fun c hc => ?_⟩
    obtain rfl := Option.some.inj hc
    exact ⟨s.position p, Function.update_self .., he⟩
  · rcases hcalls with ⟨pc, hgoes, _⟩ | rfl | ⟨_, rfl⟩
    · exact hs.goes hc hgoes
    · exact hs.restart
    · exact hs.commit
  · exact hs.restart
  · exact ⟨hs.le, hs.bound, hs.holds⟩

/-- **Every move that meets the condition keeps the second part.** -/
theorem kept_step (hs : Inv s) (hk : Kept s) (ha : DropsHandled format s a)
    (h : s.step format a = some t) : Kept t := by
  rcases step_cases h with ⟨p, event, rfl⟩ | ⟨p, event, hnone, he, rfl⟩ | ⟨c, hc, hcalls⟩ | rfl |
    ⟨key, rfl⟩
  · exact ⟨fun q k hlt e he => hk.below q k hlt e
        (getElem?_send_inv (hlt.trans_le ((hs.le q).trans (hs.bound q))) he),
      fun q k hlt e he => hk.received q k hlt e
        (getElem?_send_inv (hlt.trans_le (hs.bound q)) he), hk.inHand⟩
  · refine ⟨hk.below, fun q k hlt e hq => ?_, fun c hc hpassed => ?_⟩
    · rcases lt_advance hlt with hold | ⟨rfl, rfl⟩
      · refine Or.inl ((hk.received q k hold e hq).resolve_right ?_)
        rintro ⟨c, hc, _⟩
        simp [hnone] at hc
      · exact Or.inr ⟨_, rfl, Option.some.inj (he.symm.trans hq)⟩
    · obtain rfl := Option.some.inj hc
      simp only [RawEvent.firstCall] at hpassed
      split_ifs at hpassed
      · exact hpassed.elim
      · exact hpassed.elim
  · rcases hcalls with ⟨pc, hgoes, hpc⟩ | rfl | ⟨hpassed, rfl⟩
    · refine hk.goes hc hgoes fun hpassed => ?_
      rcases hpc hpassed with hold | hnew | hdrops
      · exact (hk.inHand c hc hold).mono hgoes.projected hgoes.sent
      · exact hnew
      · exact (ha c hc hdrops).mono hgoes.projected hgoes.sent
    · exact hk.restart
    · exact hk.commit hc hpassed
  · exact hk.restart
  · exact ⟨hk.below, hk.received, hk.inHand⟩

lemma Kept.nothingLost (hk : Kept s) : s.NothingLost := by
  intro p event hin
  obtain ⟨k, hlt, he⟩ := List.getElem_of_mem hin
  rw [List.length_take] at hlt
  refine hk.below p k (by omega) event ?_
  rw [← he, List.getElem_take]
  exact List.getElem?_eq_getElem (by omega)

/-! ### Dropped records -/

/-- **A record that is dropped and not handled is lost with the next commit.** -/
lemma lost_of_drop (hs : Inv s) (ha : ¬ DropsHandled format s a) (h : s.step format a = some t) :
    ∃ bs u, run (step format) t bs = some u ∧ ¬ u.NothingLost := by
  simp only [DropsHandled] at ha
  push Not at ha
  obtain ⟨c, hc, hdrops, hnot⟩ := ha
  obtain ⟨k, hk, he⟩ := hs.holds c hc
  have hgoto : ∃ pc, (pc = .commitSkipped ∨ pc = .commitFailed) ∧ t = s.goto c pc := by
    obtain ⟨p, event, pc⟩ := c
    cases a with
    | complete =>
        obtain ⟨rfl, hmarked⟩ := of_decide_eq_true hdrops
        obtain ⟨c', hc', h⟩ := Option.bind_eq_some_iff.mp h
        obtain rfl := Option.some.inj (hc.symm.trans hc')
        obtain rfl := Option.some.inj h
        exact ⟨_, Or.inl (if_pos hmarked), rfl⟩
    | raise afterEffect error =>
        cases afterEffect with
        | true => simp [drops] at hdrops
        | false =>
            obtain ⟨c', hc', h⟩ := Option.bind_eq_some_iff.mp h
            obtain rfl := Option.some.inj (hc.symm.trans hc')
            obtain rfl := Option.some.inj h
            cases pc with
            | sendToDlq _ => exact ⟨_, Or.inr rfl, rfl⟩
            | _ => simp [drops] at hdrops
    | _ => simp [drops] at hdrops
  obtain ⟨pc, hpc, rfl⟩ := hgoto
  have hcommit : (s.goto c pc).step format .complete = some s.commit := by
    rcases hpc with rfl | rfl <;> rfl
  refine ⟨[.complete], s.commit, (run_cons_eq_some _).mpr ⟨_, hcommit, rfl⟩, fun hgood => ?_⟩
  refine hnot (hgood c.partition c.event ?_)
  show c.event ∈ (s.topic c.partition).take (s.position c.partition)
  rw [hk]
  refine List.mem_of_getElem? (i := k) ?_
  rw [List.getElem?_take_of_lt (Nat.lt_succ_self k)]
  exact he

end RawPipeline

/-- **When nothing is lost**: over any topic of JSON objects and whatever fails, along every run in
which only handled records are dropped; and a record that is dropped otherwise, wherever it happens,
is lost with the next commit. -/
theorem nothing_lost {format : Json → Str} {topic : ℕ → List RawEvent} {as : List RawAction}
    {s : RawPipeline} (hrun : run (RawPipeline.step format) (.init topic) as = some s) :
    (Along (RawPipeline.step format) (DropsHandled format) (.init topic) as → s.NothingLost) ∧
      ∀ a t, ¬ DropsHandled format s a → s.step format a = some t →
        ∃ bs u, run (RawPipeline.step format) t bs = some u ∧ ¬ u.NothingLost := by
  have hs : RawPipeline.Inv s := run_preserves (fun hs hstep => RawPipeline.inv_step hs hstep)
    (RawPipeline.inv_init topic) hrun
  refine ⟨fun halong => ?_, fun a t ha hstep => RawPipeline.lost_of_drop hs ha hstep⟩
  have hboth : RawPipeline.Inv s ∧ s.Kept :=
    preserves_along (P := fun s => RawPipeline.Inv s ∧ s.Kept)
      (fun hs ha hstep =>
        ⟨RawPipeline.inv_step hs.1 hstep, RawPipeline.kept_step hs.1 hs.2 ha hstep⟩)
      ⟨RawPipeline.inv_init topic, RawPipeline.kept_init topic⟩ halong hrun
  exact hboth.2.nothingLost

/-- What an f-string writes for a string; other values do not occur below. -/
def formatString : Json → Str
  | .string s => s
  | _ => []

/-- A cancellation, as a record of the topic. -/
def cancelledRecord : RawEvent :=
  .cons (.ofString "event_id") (.string (.ofString "event-1"))
    (.cons (.ofString "aggregate_id") (.string (.ofString "order-0"))
      (.cons (.ofString "event_type") (.string (.ofString "ORDER_CANCELLED"))
        (.cons (.ofString "aggregate_version") (.number ⟨"2", rfl⟩)
          (.cons (.ofString "payload") (.object .nil) .nil))))

/-- A topic of one record. -/
def cancelledTopic (p : ℕ) : List RawEvent := if p = 0 then [cancelledRecord] else []

/-- The projection fails, and the record goes to the queue. -/
def queuedRun : List RawAction :=
  [.poll 0, .complete, .raise false "connection refused", .complete, .complete]

theorem queuedRun_kept : ∃ s,
    run (RawPipeline.step formatString) (.init cancelledTopic) queuedRun = some s ∧
      s.committed 0 = 1 ∧ s.projected = [] ∧ s.NothingLost := by
  have heval : ((run (RawPipeline.step formatString) (.init cancelledTopic) queuedRun).any fun s =>
      decide (s.committed 0 = 1 ∧ s.projected = [])) = true := by
    decide +kernel
  obtain ⟨s, hrun, hcommitted, hprojected⟩ := exists_run_of_eval heval
  have halong : Along (RawPipeline.step formatString) (DropsHandled formatString)
      (.init cancelledTopic) queuedRun := by
    decide +kernel
  exact ⟨s, hrun, hcommitted, hprojected, (nothing_lost hrun).1 halong⟩

/-- The projection fails, and the send to the queue fails, too. -/
def droppedRun : List RawAction :=
  [.poll 0, .complete, .raise false "connection refused", .raise false "queue unreachable",
    .complete]

/-- **A lost event**: its offset is committed, and it has neither been projected nor sent. -/
theorem lost_event : ∃ s,
    run (RawPipeline.step formatString) (.init cancelledTopic) droppedRun = some s ∧
      (s.topic 0)[0]? = some cancelledRecord ∧ s.committed 0 = 1 ∧ s.projected = [] ∧ s.sent = [] ∧
      ¬ s.NothingLost := by
  have heval : ((run (RawPipeline.step formatString) (.init cancelledTopic) droppedRun).any fun s =>
      decide ((s.topic 0)[0]? = some cancelledRecord ∧ s.committed 0 = 1 ∧ s.projected = [] ∧
        s.sent = [])) = true := by
    decide +kernel
  obtain ⟨s, hrun, htopic, hcommitted, hprojected, hsent⟩ := exists_run_of_eval heval
  refine ⟨s, hrun, htopic, hcommitted, hprojected, hsent, fun hgood => ?_⟩
  have hin : cancelledRecord ∈ (s.topic 0).take (s.committed 0) := by
    rw [hcommitted]
    refine List.mem_of_getElem? (i := 0) ?_
    rw [List.getElem?_take_of_lt Nat.one_pos]
    exact htopic
  obtain ⟨e, he, _⟩ := hgood 0 _ hin
  simp [hprojected, hsent] at he

end OrderCqrs
