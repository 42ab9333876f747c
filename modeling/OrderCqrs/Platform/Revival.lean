import OrderCqrs.Platform.Cancelled
import OrderCqrs.Platform.Versions

/-!
What the pruning of cancelled orders does to them.

* `KeepsCancelled`, `replay_cancelled`: events that rebuild to a cancelled order.
* `LeavesCancelled`: the condition on a deletion: what is left of the order is nothing or rebuilds to
  a cancelled order, and no handler is about to use the version that becomes free.
* `Closed`: after its cancellation an order keeps it, and handlers claim taken versions,
  cancellations apart.
* `NeverRevived`: no event that continues an order was appended after its cancellation.
* `revivalInv_step`: every move that meets the condition keeps it so.
-/

namespace OrderCqrs

open Runs Slots

/-! ### Events that rebuild to a cancelled order -/

/-- A cancellation comes, in version order, after every event that would change the status. -/
def KeepsCancelled (events : List Event) : Prop :=
  ∃ e ∈ events, e.eventType = .orderCancelled ∧ ∀ d ∈ events, d.eventType ≠ .orderCancelled →
    d.eventType ≠ .orderItemAdded → d.aggregateVersion < e.aggregateVersion

instance (events : List Event) : Decidable (KeepsCancelled events) :=
  inferInstanceAs (Decidable (∃ e ∈ events, _ ∧ ∀ d ∈ events, _ → _ → _))

/-- Items and cancellations leave a cancelled order cancelled. -/
lemma foldl_cancelled {events : List Event} {agg : OrderAggregate} (hagg : agg.status = .cancelled)
    (hevents : ∀ d ∈ events, d.eventType = .orderCancelled ∨ d.eventType = .orderItemAdded) :
    (events.foldl OrderAggregate.apply agg).status = .cancelled := by
  induction events generalizing agg with
  | nil => exact hagg
  | cons d events ih =>
      rw [List.foldl_cons]
      refine ih ?_ fun d' hd' => hevents d' (List.mem_cons_of_mem _ hd')
      have htype := hevents d List.mem_cons_self
      rw [Event.eventType] at htype
      rw [OrderAggregate.apply]
      cases hp : d.payload <;>
        simp_all [Payload.eventType, OrderAggregate.applyPayload]

/-- **Such events rebuild to a cancelled order.** -/
lemma replay_cancelled {o : String} {log : List Event} (hsorted : VersionSorted log)
    (hkeeps : KeepsCancelled log) : (replay o log).status = .cancelled := by
  obtain ⟨e, he, htype, hlast⟩ := hkeeps
  obtain ⟨pre, post, rfl⟩ := List.append_of_mem he
  have hafter : ∀ d ∈ post, e.aggregateVersion ≤ d.aggregateVersion :=
    (List.pairwise_cons.mp (List.pairwise_append.mp hsorted).2.1).1
  rw [replay, List.foldl_append, List.foldl_cons]
  refine foldl_cancelled ?_ fun d hd => ?_
  · rw [Event.eventType] at htype
    rw [OrderAggregate.apply]
    cases hp : e.payload <;> simp_all [Payload.eventType, OrderAggregate.applyPayload]
  · by_contra hother
    push Not at hother
    have hlt := hlast d (by simp [hd]) hother.1 hother.2
    have hle := hafter d hd
    omega

lemma KeepsCancelled.congr {events events' : List Event} (h : KeepsCancelled events)
    (hiff : ∀ e, e ∈ events' ↔ e ∈ events) : KeepsCancelled events' := by
  obtain ⟨e, he, htype, hlast⟩ := h
  exact ⟨e, (hiff e).mpr he, htype, fun d hd => hlast d ((hiff d).mp hd)⟩

/-- One more cancellation does not matter. -/
lemma KeepsCancelled.concat {events : List Event} (h : KeepsCancelled events) {d : Event}
    (hd : d.eventType = .orderCancelled) : KeepsCancelled (events ++ [d]) := by
  obtain ⟨e, he, htype, hlast⟩ := h
  refine ⟨e, List.mem_append_left _ he, htype, fun d' hd' hne => ?_⟩
  rcases List.mem_append.mp hd' with hold | hnew
  · exact hlast d' hold hne
  · rw [List.mem_singleton.mp hnew] at hne
    exact absurd hd hne

/-- An order that keeps its cancellation is loaded as a cancelled order. -/
lemma KeepsCancelled.load {store : List Event} {o : String} {agg : OrderAggregate}
    (h : KeepsCancelled (orderLog store o)) (hload : loadAggregate store o = .ok agg) :
    agg.status = .cancelled := by
  obtain ⟨o', log, rfl, _, hsorted, hlog⟩ := exists_replay_of_load hload
  exact replay_cancelled hsorted (h.congr hlog)

/-! ### The condition -/

/-- **The condition on a deletion**: the last `ORDER_CANCELLED` of an order is deleted only with the
last of its events, or when only events are left that do not change the status after it; and no
handler goes on to append, at the version that becomes free, anything but a cancellation. -/
def Retention.Deletable (s : Retention) (e : Event) : Prop :=
  (orderLog (s.delete e).store e.aggregateId = [] ∨
    KeepsCancelled (orderLog (s.delete e).store e.aggregateId)) ∧
  ∀ h ∈ s.handlers, h.slot? = some (e.aggregateId, e.aggregateVersion) → ¬ h.Continues

instance (s : Retention) (e : Event) : Decidable (s.Deletable e) :=
  inferInstanceAs (Decidable ((_ ∨ _) ∧ ∀ h ∈ s.handlers, _ → ¬ _))

/-- What is deleted may be deleted. -/
def LeavesCancelled (s : Retention) : RetentionAction → Prop
  | .prune id => ∀ e ∈ s.store.find? (·.eventId = id), s.Deletable e
  | _ => True

instance (s : Retention) : (a : RetentionAction) → Decidable (LeavesCancelled s a)
  | .prune id => inferInstanceAs (Decidable (∀ e ∈ s.store.find? (·.eventId = id), s.Deletable e))
  | .command _ | .deliver _ | .tick _ => .isTrue trivial

/-! ### Cancelled orders -/

/-- **The invariant of a cancelled order**: nothing is left of it or it keeps its cancellation, and
every claim is taken, unless it is for a cancellation. -/
structure Closed (store : List Event) (handlers : List Handler) (o : String) : Prop where
  kept : orderLog store o = [] ∨ KeepsCancelled (orderLog store o)
  taken : ∀ h ∈ handlers, ∀ v, h.slot? = some (o, v) → h.Continues → v ∈ versions store o

namespace Closed

variable {store : List Event} {handlers handlers' : List Handler} {o : String} {h : Handler}
  {b : Built}

/-- The claims after a command. -/
lemma taken_step {s t : State} {a : Action} (hs : Closed s.store s.handlers o)
    (hdrawn : o ∈ s.drawn) (hstep : step s a = some t) :
    ∀ g ∈ t.handlers, ∀ v, g.slot? = some (o, v) → g.Continues → v ∈ versions s.store o := by
  intro g hg v hslot hcontinues
  obtain ⟨j, hget⟩ := List.mem_iff_getElem?.mp hg
  rcases slot_cases hstep hget hslot with ⟨h, hh, hslot', hbefore⟩ | ⟨_, hfresh, _⟩ |
    ⟨agg, hload, _, hlive, _⟩
  · exact hs.taken h (List.mem_of_getElem? hh) v hslot' (hbefore hcontinues)
  · exact absurd hdrawn hfresh
  · -- the load of a cancelled order finds it cancelled
    rcases hs.kept with hnil | hkeeps
    · rw [loadAggregate_of_nil hnil] at hload
      cases hload
    · exact absurd (hkeeps.load hload) (hlive hcontinues)

/-- A free claim of a cancelled order is for a cancellation. -/
lemma cancels_of_free (hs : Closed store handlers b.event.aggregateId) (hmem : h ∈ handlers)
    (hpc : h.pc = .append b) (hfree : ∀ d ∈ store, ¬ DuplicateKey b.event d) :
    b.event.eventType = .orderCancelled := by
  by_contra htype
  have hcontinues : h.Continues := by
    rw [Handler.Continues, hpc]
    exact htype
  exact not_mem_versions hfree (hs.taken h hmem _ (Handler.slot?_append hpc) hcontinues)

/-- **An append** keeps the invariant: nothing but a cancellation gets through. -/
lemma append (hs : Closed store handlers o)
    (htaken : ∀ g ∈ handlers', ∀ v, g.slot? = some (o, v) → g.Continues → v ∈ versions store o)
    (hmem : h ∈ handlers) (hpc : h.pc = .append b)
    (hfree : ∀ d ∈ store, ¬ DuplicateKey b.event d) :
    Closed (store ++ [b.event]) handlers' o := by
  by_cases ho : b.event.aggregateId = o
  · subst ho
    have htype := hs.cancels_of_free hmem hpc hfree
    refine ⟨Or.inr ?_, fun g hg v hslot hcontinues => ?_⟩
    · rw [orderLog_concat_self rfl]
      rcases hs.kept with hnil | hkeeps
      · rw [hnil]
        refine ⟨b.event, by simp, htype, fun d hd hne => ?_⟩
        rw [List.nil_append, List.mem_singleton] at hd
        exact absurd htype (hd ▸ hne)
      · exact hkeeps.concat htype
    · rw [versions_concat_self rfl]
      exact Set.mem_insert_of_mem _ (htaken g hg v hslot hcontinues)
  · -- another order
    refine ⟨?_, ?_⟩
    · rw [orderLog_concat_of_ne ho]
      exact hs.kept
    · rw [versions_concat_of_ne ho]
      exact htaken

/-- **A deletion** that meets the condition keeps the invariant. -/
lemma prune {s : Retention} {e : Event} (hs : Closed s.store s.handlers o) (hC : s.Deletable e) :
    Closed (s.delete e).store s.handlers o := by
  by_cases ho : e.aggregateId = o
  · subst ho
    refine ⟨hC.1, fun h hh v hslot hcontinues => ?_⟩
    -- the claim is taken by another event than the one that is deleted
    obtain ⟨d, hd, rfl⟩ := hs.taken h hh v hslot hcontinues
    have hne : d ≠ e := by
      rintro rfl
      exact hC.2 h hh hslot hcontinues
    obtain ⟨hin, horder⟩ := mem_orderLog.mp hd
    have hleft : d ∈ (s.delete e).store :=
      List.mem_filter.mpr ⟨hin, decide_eq_true hne⟩
    exact ⟨d, mem_orderLog.mpr ⟨hleft, horder⟩, rfl⟩
  · -- another order
    have hlog := Retention.orderLog_delete_of_ne (s := s) ho
    refine ⟨?_, ?_⟩
    · rw [hlog]
      exact hs.kept
    · rw [versions, hlog]
      exact hs.taken

end Closed

/-- **The cancellation** takes the next version, and no claim is left. -/
lemma Open.append_cancelling {history store : List Event} {handlers handlers' : List Handler}
    {h : Handler} {b : Built} (hs : Open history store handlers b.event.aggregateId)
    (hclaims : ∀ g ∈ handlers', ∀ v, g.slot? = some (b.event.aggregateId, v) →
      Claimable (versions store b.event.aggregateId) v)
    (hmem : h ∈ handlers) (hpc : h.pc = .append b)
    (hfree : ∀ d ∈ store, ¬ DuplicateKey b.event d)
    (htype : b.event.eventType = .orderCancelled) :
    Closed (store ++ [b.event]) handlers' b.event.aggregateId := by
  have hnew := not_mem_versions hfree
  have hclaim := hs.claims h hmem _ (Handler.slot?_append hpc)
  refine ⟨Or.inr ?_, fun g hg v hslot _ => ?_⟩
  · rw [orderLog_concat_self rfl]
    refine ⟨b.event, by simp, htype, fun d hd hne _ => ?_⟩
    rcases List.mem_append.mp hd with hold | hlast
    · exact hs.gapless.lt_of_free hclaim.1 hnew ⟨d, hold, rfl⟩
    · exact absurd htype (List.mem_singleton.mp hlast ▸ hne)
  · rw [versions_concat_self rfl]
    exact hs.gapless.mem_insert hclaim hnew (hclaims g hg v hslot)

/-! ### The invariant of the system -/

/-- An event of one of the commands that continue an order. -/
def EventType.Continues : EventType → Prop
  | orderItemAdded | orderConfirmed | orderPaymentProcessed | orderShipped => True
  | orderCreated | orderDelivered | orderCancelled => False

instance : (type : EventType) → Decidable type.Continues
  | .orderItemAdded | .orderConfirmed | .orderPaymentProcessed | .orderShipped => .isTrue trivial
  | .orderCreated | .orderDelivered | .orderCancelled => .isFalse not_false

/-- **No order is revived**: after an `ORDER_CANCELLED` no event that continues its order is
appended. -/
def NeverRevived (history : List Event) : Prop :=
  history.Pairwise fun e d => e.eventType = .orderCancelled → d.aggregateId = e.aggregateId →
    ¬ d.eventType.Continues

instance (history : List Event) : Decidable (NeverRevived history) :=
  inferInstanceAs (Decidable (List.Pairwise _ history))

lemma NeverRevived.concat {history : List Event} (h : NeverRevived history) {d : Event}
    (hd : CancelledIn history d.aggregateId → ¬ d.eventType.Continues) :
    NeverRevived (history ++ [d]) := by
  refine List.pairwise_append.mpr ⟨h, List.pairwise_singleton _ _, fun e he d' hd' htype ho => ?_⟩
  obtain rfl := List.mem_singleton.mp hd'
  exact hd ⟨e, he, ho.symm, htype⟩

/-- The append of an event that continues a cancelled order revives it. -/
lemma NeverRevived.not_concat {history : List Event} {e : Event}
    (hc : CancelledIn history e.aggregateId) (htype : e.eventType.Continues) :
    ¬ NeverRevived (history ++ [e]) := by
  intro halive
  obtain ⟨d, hd, ho, hcancel⟩ := hc
  have hlast := (List.pairwise_append.mp halive).2.2 d hd e (List.mem_singleton_self _)
  exact hlast hcancel ho.symm htype

/-- **The invariant**: of every run, of the cancelled orders, and what they are for. -/
structure RevivalInv (s : Retention) : Prop where
  base : s.VersionsInv
  closed : ∀ o, CancelledIn s.history o → Closed s.store s.handlers o
  alive : NeverRevived s.history

section Steps

variable {partitioner : String → ℕ} {s t : Retention}

lemma revivalInv_init (partitions : ℕ) (rm : ReadModel) : RevivalInv (.init partitions rm) where
  base := Retention.versionsInv_init partitions rm
  closed := by
    rintro o ⟨e, he, _⟩
    cases he
  alive := List.Pairwise.nil

/-- A command keeps the invariant. -/
lemma RevivalInv.command [Btree] (hs : RevivalInv s) {a : Action}
    (h : s.step partitioner (.command a) = some t) : RevivalInv t := by
  obtain ⟨hplatform, _, _⟩ := Retention.command_cases h
  obtain ⟨hwrite, _, _⟩ := Platform.command_cases hplatform
  have htaken : ∀ o, CancelledIn s.history o → ∀ g ∈ t.handlers, ∀ v, g.slot? = some (o, v) →
      g.Continues → v ∈ versions s.store o := by
    intro o hc
    have hdrawn : o ∈ s.platform.write.drawn := by
      obtain ⟨e, he, rfl, _⟩ := hc
      exact hs.base.hist.drawn e he
    exact (hs.closed o hc).taken_step hdrawn hwrite
  rcases Retention.append_cases h with
    ⟨hstore, hhistory⟩ | ⟨g, hg, b, hpc, hfree, hstore, hhistory⟩
  · refine ⟨hs.base.command h, fun o hc => ?_, hhistory ▸ hs.alive⟩
    rw [hhistory] at hc
    rw [hstore]
    exact ⟨(hs.closed o hc).kept, htaken o hc⟩
  · refine ⟨hs.base.command h, fun o hc => ?_, ?_⟩
    · rw [hhistory] at hc
      rw [hstore]
      by_cases hbefore : CancelledIn s.history o
      · exact (hs.closed o hbefore).append (htaken o hbefore) hg hpc hfree
      · -- the order is cancelled by this event
        obtain ⟨rfl, htype⟩ := (cancelledIn_concat.mp hc).resolve_left hbefore
        have hopen := hs.base.opened _ hbefore
        exact hopen.append_cancelling (hopen.claims_step hwrite) hg hpc hfree htype
    · rw [hhistory]
      refine hs.alive.concat fun hc => ?_
      rw [(hs.closed _ hc).cancels_of_free hg hpc hfree]
      exact not_false

/-- **Every move that meets the condition keeps the invariant.** -/
theorem revivalInv_step [Btree] (hs : RevivalInv s) {a : RetentionAction} (hC : LeavesCancelled s a)
    (h : s.step partitioner a = some t) : RevivalInv t := by
  have hbase := Retention.versionsInv_step hs.base h
  cases a with
  | command a => exact hs.command h
  | deliver a =>
      -- the loop neither appends nor answers
      obtain ⟨hplatform, hhistory, _⟩ := Retention.deliver_cases h
      obtain ⟨_, _, hwrite, _⟩ := Platform.deliver_cases hplatform
      refine ⟨hbase, ?_, hhistory ▸ hs.alive⟩
      rw [hhistory, Retention.store, Retention.handlers, hwrite]
      exact hs.closed
  | tick seconds =>
      obtain rfl := Option.some.inj h
      exact ⟨hbase, hs.closed, hs.alive⟩
  | prune id =>
      obtain ⟨e, hfind, _, rfl⟩ := Retention.prune_cases h
      exact ⟨hbase, fun o hc => (hs.closed o hc).prune (hC e hfind), hs.alive⟩

end Steps

end OrderCqrs
