import OrderCqrs.Domain.Rebuild
import OrderCqrs.Logic.Slots
import OrderCqrs.Platform.Retention

/-!
The versions of an order while the TTL monitor deletes, up to the cancellation of the order.

* `versions`: the versions of the stored events of an order.
* `UniqueKeys`: the unique indexes hold; what is loaded then shows the set of the stored events
  (`UniqueKeys.load`).
* `EndsShipped`: events that rebuild to a shipped order.
* `Open`: **the invariant of an order that is not cancelled**: its versions have no gap, handlers
  claim the next one or one that is taken, and when the order is shipped all claims are taken.
* `versionsInv_step`: every move keeps it, whatever is deleted.
-/

namespace OrderCqrs

open Runs Slots SortedFolds

/-! ### The versions of an order -/

/-- The versions of the stored events of an order. -/
def versions (store : List Event) (o : String) : Set ℤ :=
  {v | ∃ e ∈ orderLog store o, e.aggregateVersion = v}

lemma versions_concat_self {store : List Event} {e : Event} {o : String} (h : e.aggregateId = o) :
    versions (store ++ [e]) o = insert e.aggregateVersion (versions store o) := by
  ext v
  simp only [versions, orderLog_concat_self h, Set.mem_ofPred_eq, Set.mem_insert_iff,
    List.mem_append, List.mem_singleton]
  constructor
  · rintro ⟨d, hd | rfl, rfl⟩
    · exact Or.inr ⟨d, hd, rfl⟩
    · exact Or.inl rfl
  · rintro (rfl | ⟨d, hd, rfl⟩)
    · exact ⟨e, Or.inr rfl, rfl⟩
    · exact ⟨d, Or.inl hd, rfl⟩

lemma versions_concat_of_ne {store : List Event} {e : Event} {o : String} (h : e.aggregateId ≠ o) :
    versions (store ++ [e]) o = versions store o := by
  rw [versions, orderLog_concat_of_ne h, versions]

/-- An event whose key is free has a free version. -/
lemma not_mem_versions {store : List Event} {e : Event}
    (hfree : ∀ d ∈ store, ¬ DuplicateKey e d) :
    e.aggregateVersion ∉ versions store e.aggregateId := by
  rintro ⟨d, hd, hv⟩
  obtain ⟨hin, ho⟩ := mem_orderLog.mp hd
  exact hfree d hin (Or.inl ⟨ho, hv⟩)

/-- The version of a loaded order is taken. -/
lemma version_mem_of_load {store : List Event} {o : String} {agg : OrderAggregate}
    (hload : loadAggregate store o = .ok agg) : agg.version ∈ versions store o := by
  obtain ⟨o', log, rfl, hne, _, hlog⟩ := exists_replay_of_load hload
  obtain ⟨e, he, hv⟩ := exists_version_replay o' hne
  exact ⟨e, (hlog e).mp he, hv.symm⟩

/-- A deletion leaves the other orders alone. -/
lemma Retention.orderLog_delete_of_ne {s : Retention} {e : Event} {o : String}
    (h : e.aggregateId ≠ o) : orderLog (s.delete e).store o = orderLog s.store o := by
  rw [orderLog, orderLog, Retention.delete, List.filter_filter]
  refine List.filter_congr fun d _ => ?_
  by_cases hd : d = e <;> simp [hd, h]

/-! ### Unique indexes -/

/-- No two stored events share a key of a unique index. -/
def UniqueKeys (store : List Event) : Prop := store.Pairwise fun d e => ¬ DuplicateKey e d

namespace UniqueKeys

variable {store : List Event} {o : String}

/-- An append keeps the keys unique. -/
lemma concat (h : UniqueKeys store) {e : Event} (hfree : ∀ d ∈ store, ¬ DuplicateKey e d) :
    UniqueKeys (store ++ [e]) :=
  List.pairwise_append.mpr ⟨h, List.pairwise_singleton _ _, fun d hd _ he =>
    List.mem_singleton.mp he ▸ hfree d hd⟩

/-- The events of an order have distinct versions. -/
lemma nodup (h : UniqueKeys store) (o : String) :
    ((orderLog store o).map (·.aggregateVersion)).Nodup := by
  refine List.pairwise_map.mpr (List.Pairwise.imp_of_mem (fun {d e} hd he hkey heq => ?_)
    (h.filter _))
  exact hkey (Or.inl ⟨(mem_orderLog.mp hd).2.trans (mem_orderLog.mp he).2.symm, heq⟩)

/-- The version of a deleted event is free. -/
lemma not_mem_delete {s : Retention} (h : UniqueKeys s.store) {e : Event} (he : e ∈ s.store) :
    e.aggregateVersion ∉ versions (s.delete e).store e.aggregateId := by
  rintro ⟨d, hd, hv⟩
  obtain ⟨hin, ho⟩ := mem_orderLog.mp hd
  obtain ⟨hin, hne⟩ := List.mem_filter.mp hin
  refine of_decide_eq_true hne (List.inj_on_of_nodup_map (h.nodup e.aggregateId) ?_ ?_ hv)
  · exact mem_orderLog.mpr ⟨hin, ho⟩
  · exact mem_orderLog.mpr ⟨he, rfl⟩

/-- **An order with events is loaded**, and the aggregate shows their set. -/
lemma load (h : UniqueKeys store) (hne : orderLog store o ≠ []) :
    ∃ agg, loadAggregate store o = .ok agg ∧ RebuiltFrom o (orderLog store o) agg := by
  refine ⟨_, ?_, replay_rebuiltFrom hne (h.nodup o)⟩
  have hperm : (getEvents store o).Perm (orderLog store o) := sortOn_perm _ _
  have hrebuild := rebuild_of_perm hne (fun e he => (mem_orderLog.mp he).2) (h.nodup o) hperm
  rw [loadAggregate]
  cases hevents : getEvents store o with
  | nil =>
      rw [hevents] at hperm
      exact absurd (List.nil_perm.mp hperm) hne
  | cons e es =>
      rw [hevents] at hrebuild
      exact hrebuild

end UniqueKeys

/-! ### Shipped orders -/

/-- An `ORDER_SHIPPED` of the order is among the events. -/
def ShippedIn (events : List Event) (o : String) : Prop :=
  ∃ e ∈ events, e.aggregateId = o ∧ e.eventType = .orderShipped

lemma shippedIn_concat {events : List Event} {e : Event} {o : String} :
    ShippedIn (events ++ [e]) o ↔
      ShippedIn events o ∨ e.aggregateId = o ∧ e.eventType = .orderShipped := by
  simp only [ShippedIn, List.mem_append, List.mem_singleton, or_and_right, exists_or,
    exists_eq_left]

lemma cancelledIn_concat {events : List Event} {e : Event} {o : String} :
    CancelledIn (events ++ [e]) o ↔
      CancelledIn events o ∨ e.aggregateId = o ∧ e.eventType = .orderCancelled := by
  simp only [CancelledIn, List.mem_append, List.mem_singleton, or_and_right, exists_or,
    exists_eq_left]

/-- The last event of the order, in version order, is an `ORDER_SHIPPED`. -/
def EndsShipped (events : List Event) : Prop :=
  ∃ e ∈ events, e.eventType = .orderShipped ∧
    ∀ d ∈ events, d ≠ e → d.aggregateVersion < e.aggregateVersion

/-- Such an order is loaded as a shipped one. -/
lemma EndsShipped.load {store : List Event} {o : String} {agg : OrderAggregate}
    (h : EndsShipped (orderLog store o)) (hload : loadAggregate store o = .ok agg) :
    agg.status = .shipped := by
  obtain ⟨o', log, rfl, hne, hsorted, hlog⟩ := exists_replay_of_load hload
  obtain ⟨e, he, htype, hlast⟩ := h
  obtain ⟨pre, last, rfl⟩ := (List.eq_nil_or_concat' log).resolve_left hne
  -- it is the last one in version order
  have heq : last = e := by
    by_contra hother
    have hlt := hlast last ((hlog last).mp (by simp)) hother
    rcases List.mem_append.mp ((hlog e).mpr he) with hpre | hsame
    · have hle := (List.pairwise_append.mp hsorted).2.2 e hpre last (List.mem_singleton_self _)
      omega
    · exact hother (List.mem_singleton.mp hsame).symm
  rw [heq, replay_concat, OrderAggregate.apply]
  rw [Event.eventType] at htype
  cases hp : e.payload <;> simp_all [Payload.eventType, OrderAggregate.applyPayload]

/-! ### Orders that are not cancelled -/

/-- **The invariant of an order that is not cancelled.** -/
structure Open (history store : List Event) (handlers : List Handler) (o : String) : Prop where
  gapless : Gapless (versions store o)
  claims : ∀ h ∈ handlers, ∀ v, h.slot? = some (o, v) → Claimable (versions store o) v
  /-- A shipped order is loaded as one, and no claim is left. -/
  closed : ShippedIn history o → EndsShipped (orderLog store o) ∧
    ∀ h ∈ handlers, ∀ v, h.slot? = some (o, v) → v ∈ versions store o

namespace Open

variable {history : List Event} {s t : State} {a : Action} {o : String}

/-- The claims after a command. -/
lemma claims_step (hs : Open history s.store s.handlers o) (hstep : step s a = some t) :
    ∀ g ∈ t.handlers, ∀ v, g.slot? = some (o, v) → Claimable (versions s.store o) v := by
  intro g hg v hslot
  obtain ⟨j, hget⟩ := List.mem_iff_getElem?.mp hg
  rcases slot_cases hstep hget hslot with ⟨h, hh, hslot', _⟩ | ⟨rfl, _⟩ | ⟨agg, hload, rfl, _⟩
  · exact hs.claims h (List.mem_of_getElem? hh) v hslot'
  · exact ⟨le_rfl, Or.inl rfl⟩
  · exact hs.gapless.claimable_succ (version_mem_of_load hload)

/-- A command claims nothing of a shipped order. -/
lemma closed_step (hs : Open history s.store s.handlers o) (hdrawn : o ∈ s.drawn)
    (hstep : step s a = some t) (hshipped : ShippedIn history o) :
    ∀ g ∈ t.handlers, ∀ v, g.slot? = some (o, v) → v ∈ versions s.store o := by
  intro g hg v hslot
  obtain ⟨hends, htaken⟩ := hs.closed hshipped
  obtain ⟨j, hget⟩ := List.mem_iff_getElem?.mp hg
  rcases slot_cases hstep hget hslot with ⟨h, hh, hslot', _⟩ | ⟨_, hfresh, _⟩ |
    ⟨agg, hload, _, _, hstatus⟩
  · exact htaken h (List.mem_of_getElem? hh) v hslot'
  · exact absurd hdrawn hfresh
  · exact absurd (hends.load hload) hstatus

variable {store : List Event} {handlers handlers' : List Handler} {h : Handler} {b : Built}

/-- No claim of a shipped order is free. -/
lemma not_shipped (hs : Open history store handlers b.event.aggregateId) (hmem : h ∈ handlers)
    (hpc : h.pc = .append b) (hfree : ∀ d ∈ store, ¬ DuplicateKey b.event d) :
    ¬ ShippedIn history b.event.aggregateId := fun hshipped =>
  not_mem_versions hfree ((hs.closed hshipped).2 h hmem _ (Handler.slot?_append hpc))

/-- An append for the order. -/
lemma append_self (hs : Open history store handlers b.event.aggregateId)
    (hclaims : ∀ g ∈ handlers', ∀ v, g.slot? = some (b.event.aggregateId, v) →
      Claimable (versions store b.event.aggregateId) v)
    (hmem : h ∈ handlers) (hpc : h.pc = .append b)
    (hfree : ∀ d ∈ store, ¬ DuplicateKey b.event d) :
    Open (history ++ [b.event]) (store ++ [b.event]) handlers' b.event.aggregateId := by
  have hclaim := hs.claims h hmem _ (Handler.slot?_append hpc)
  have hnew := not_mem_versions hfree
  have hversions : versions (store ++ [b.event]) b.event.aggregateId =
      insert b.event.aggregateVersion (versions store b.event.aggregateId) :=
    versions_concat_self rfl
  refine ⟨?_, fun g hg v hslot => ?_, fun hshipped => ⟨?_, fun g hg v hslot => ?_⟩⟩
  · rw [hversions]
    exact hs.gapless.insert hclaim
  · rw [hversions]
    exact (hclaims g hg v hslot).mono (Set.subset_insert _ _)
  · -- it is shipped by this event, which takes the next version
    obtain ⟨_, htype⟩ := (shippedIn_concat.mp hshipped).resolve_left (hs.not_shipped hmem hpc hfree)
    rw [orderLog_concat_self rfl]
    refine ⟨b.event, by simp, htype, fun d hd hne => ?_⟩
    have hold := (List.mem_append.mp hd).resolve_right fun hlast =>
      hne (List.mem_singleton.mp hlast)
    exact hs.gapless.lt_of_free hclaim.1 hnew ⟨d, hold, rfl⟩
  · rw [hversions]
    exact hs.gapless.mem_insert hclaim hnew (hclaims g hg v hslot)

/-- **An append** keeps the invariant. -/
lemma append (hs : Open history store handlers o)
    (hclaims : ∀ g ∈ handlers', ∀ v, g.slot? = some (o, v) → Claimable (versions store o) v)
    (hclosed : ShippedIn history o →
      ∀ g ∈ handlers', ∀ v, g.slot? = some (o, v) → v ∈ versions store o)
    (hmem : h ∈ handlers) (hpc : h.pc = .append b)
    (hfree : ∀ d ∈ store, ¬ DuplicateKey b.event d) :
    Open (history ++ [b.event]) (store ++ [b.event]) handlers' o := by
  by_cases ho : b.event.aggregateId = o
  · subst ho
    exact hs.append_self hclaims hmem hpc hfree
  · -- another order
    have hshipped : ShippedIn (history ++ [b.event]) o → ShippedIn history o := fun h =>
      (shippedIn_concat.mp h).resolve_right fun hnew => ho hnew.1
    refine ⟨?_, ?_, fun h => ?_⟩
    · rw [versions_concat_of_ne ho]
      exact hs.gapless
    · rw [versions_concat_of_ne ho]
      exact hclaims
    · rw [orderLog_concat_of_ne ho, versions_concat_of_ne ho]
      exact ⟨(hs.closed (hshipped h)).1, hclosed (hshipped h)⟩

end Open

namespace Retention

variable {partitioner : String → ℕ} {s t : Retention}

/-- **The invariant of every run**, whatever is deleted. -/
structure VersionsInv (s : Retention) : Prop where
  hist : s.HistoryInv
  keys : UniqueKeys s.store
  opened : ∀ o, ¬ CancelledIn s.history o → Open s.history s.store s.handlers o

lemma versionsInv_init (partitions : ℕ) (rm : ReadModel) : VersionsInv (init partitions rm) where
  hist := historyInv_init partitions rm
  keys := List.Pairwise.nil
  opened := fun o _ => by
    have hnone : versions [] o = ∅ := by simp [versions, orderLog]
    refine ⟨?_, by simp [handlers, init, Platform.init, State.init], ?_⟩
    · rw [show (init partitions rm).store = [] from rfl, hnone]
      exact gapless_empty
    · rintro ⟨e, he, _⟩
      cases he

/-- A command keeps the invariant. -/
lemma VersionsInv.command [Btree] (hs : VersionsInv s) {a : Action}
    (h : s.step partitioner (.command a) = some t) : VersionsInv t := by
  obtain ⟨hplatform, _, _⟩ := command_cases h
  obtain ⟨hwrite, _, _⟩ := Platform.command_cases hplatform
  -- what the handlers claim after it
  have hclaims := fun o hopen => (hs.opened o hopen).claims_step hwrite
  have hclosed : ∀ o, ¬ CancelledIn s.history o → ShippedIn s.history o → ∀ g ∈ t.handlers, ∀ v,
      g.slot? = some (o, v) → v ∈ versions s.store o := by
    intro o hopen hshipped
    have hdrawn : o ∈ s.platform.write.drawn := by
      obtain ⟨e, he, rfl, _⟩ := hshipped
      exact hs.hist.drawn e he
    exact (hs.opened o hopen).closed_step hdrawn hwrite hshipped
  rcases append_cases h with ⟨hstore, hhistory⟩ | ⟨g, hg, b, hpc, hfree, hstore, hhistory⟩
  · refine ⟨hs.hist.command h, hstore ▸ hs.keys, fun o hopen => ?_⟩
    rw [hhistory] at hopen ⊢
    rw [hstore]
    exact ⟨(hs.opened o hopen).gapless, hclaims o hopen, fun hshipped =>
      ⟨((hs.opened o hopen).closed hshipped).1, hclosed o hopen hshipped⟩⟩
  · refine ⟨hs.hist.command h, hstore ▸ hs.keys.concat hfree, fun o hopen => ?_⟩
    rw [hhistory] at hopen ⊢
    rw [hstore]
    have hbefore : ¬ CancelledIn s.history o := fun hc =>
      hopen (hc.mono (List.subset_append_left _ _))
    exact (hs.opened o hbefore).append (hclaims o hbefore) (hclosed o hbefore) hg hpc hfree

/-- **Every move keeps the invariant.** -/
theorem versionsInv_step [Btree] (hs : VersionsInv s) {a : RetentionAction}
    (h : s.step partitioner a = some t) : VersionsInv t := by
  have hhist := historyInv_step hs.hist h
  cases a with
  | command a => exact hs.command h
  | deliver a =>
      -- the loop neither appends nor claims
      obtain ⟨hplatform, hhistory, _⟩ := deliver_cases h
      obtain ⟨_, _, hwrite, _⟩ := Platform.deliver_cases hplatform
      refine ⟨hhist, ?_, ?_⟩
      · rw [store, hwrite]
        exact hs.keys
      · rw [hhistory, store, handlers, hwrite]
        exact hs.opened
  | tick seconds =>
      obtain rfl := Option.some.inj h
      exact ⟨hhist, hs.keys, hs.opened⟩
  | prune id =>
      obtain ⟨e, hfind, ⟨date, hdate⟩, rfl⟩ := prune_cases h
      refine ⟨hhist, hs.keys.filter _, fun o hopen => ?_⟩
      -- what has a date is of a cancelled order
      have hother : e.aggregateId ≠ o := fun ho => hopen (ho ▸ hs.hist.flagged _ hdate)
      have hold := hs.opened o hopen
      have hversions : versions (s.delete e).store o = versions s.store o := by
        rw [versions, orderLog_delete_of_ne hother, versions]
      refine ⟨?_, ?_, ?_⟩
      · rw [hversions]
        exact hold.gapless
      · rw [hversions]
        exact hold.claims
      · rw [hversions, orderLog_delete_of_ne hother]
        exact hold.closed

end Retention

end OrderCqrs
