import OrderCqrs.Command.Lifecycle
import OrderCqrs.Platform.Finished

/-!
The platform with MongoDB's TTL index (`setup_indexes` in `api/services/event_store.py`): an event
whose `expires_at` has passed is deleted, one event at a time and in any order, while commands go on.

* `Retention`, `Retention.step`: the platform, the clock, the dates that the consumer has set, and
  the history of the events that were ever appended.
* `Handler.slot?`: the order and the version a handler is going to append at; `slot_cases`: where it
  comes from.
* `CancelledIn`: an `ORDER_CANCELLED` of the order was appended.
* `HistoryInv`, `historyInv_step`: what is stored, sent or under way was appended, no delivery was
  ever recorded, and **only events of cancelled orders have a date**.
-/

namespace OrderCqrs

open Runs Partitions

/-! ### The transition system -/

/-- `retention_seconds`. -/
def retentionSeconds : ℕ := 2592000

/-- The platform, the clock, and the dates of the events that carry `expires_at`, the latest first.
`history` are the events in the order of their appends, those that are deleted by now among them. -/
structure Retention where
  platform : Platform
  history : List Event
  now : ℕ
  dates : List (Event × ℕ)

/-- The moves: of the handlers, of the loop, of the clock, and of the TTL monitor, which deletes the
event with an id. -/
inductive RetentionAction where
  | command (a : Action)
  | deliver (a : LoopAction)
  | tick (seconds : ℕ)
  | prune (id : String)

/-- A move of the platform. -/
def PlatformAction.retained : PlatformAction → RetentionAction
  | command a => .command a
  | deliver a => .deliver a

namespace Retention

/-- The stored events. -/
abbrev store (s : Retention) : List Event := s.platform.write.store

/-- The command handlers. -/
abbrev handlers (s : Retention) : List Handler := s.platform.write.handlers

/-- Nothing stored, nothing sent. -/
def init (partitions : ℕ) (rm : ReadModel) : Retention where
  platform := .init partitions rm
  history := []
  now := 0
  dates := []

/-- `expires_at` of a stored event. -/
def expiresAt? (s : Retention) (e : Event) : Option ℕ := (s.dates.find? (·.1 = e)).map (·.2)

/-- The deletion of an event. -/
def delete (s : Retention) (e : Event) : Retention :=
  { s with
    platform := { s.platform with
      write := { s.platform.write with store := s.store.filter (· ≠ e) }
      expiresAt := s.platform.expiresAt.filter (· ≠ e.eventId) } }

/-- One move. -/
def step [Btree] (partitioner : String → ℕ) (s : Retention) : RetentionAction → Option Retention
  | .command a => do
      let platform ← s.platform.step partitioner (.command a)
      return { s with
        platform
        history := s.history ++ platform.write.store.drop s.store.length }
  | .deliver a => do
      let platform ← s.platform.step partitioner (.deliver a)
      let expiring := s.store.filter (·.aggregateId ∈ s.platform.newlyExpiring platform.loop)
      return { s with
        platform
        dates := expiring.map (·, s.now + retentionSeconds) ++ s.dates }
  | .tick seconds => some { s with now := s.now + seconds }
  | .prune id => do
      let e ← s.store.find? (·.eventId = id)
      let date ← s.expiresAt? e
      guard (date ≤ s.now)
      return s.delete e

section Cases

variable {partitioner : String → ℕ} {s t : Retention}

lemma command_cases [Btree] {a : Action} (h : s.step partitioner (.command a) = some t) :
    s.platform.step partitioner (.command a) = some t.platform ∧ t.dates = s.dates ∧
      t.history = s.history ++ t.store.drop s.store.length := by
  obtain ⟨platform, hplatform, h⟩ := Option.bind_eq_some_iff.mp h
  obtain rfl := Option.some.inj h
  exact ⟨hplatform, rfl, rfl⟩

lemma deliver_cases [Btree] {a : LoopAction} (h : s.step partitioner (.deliver a) = some t) :
    s.platform.step partitioner (.deliver a) = some t.platform ∧ t.history = s.history ∧
      ∀ x ∈ t.dates, x ∈ s.dates ∨
        x.1.aggregateId ∈ s.platform.newlyExpiring t.platform.loop := by
  obtain ⟨platform, hplatform, h⟩ := Option.bind_eq_some_iff.mp h
  obtain rfl := Option.some.inj h
  refine ⟨hplatform, rfl, fun x hx => ?_⟩
  rcases List.mem_append.mp hx with hx | hx
  · obtain ⟨e, he, rfl⟩ := List.mem_map.mp hx
    exact Or.inr (of_decide_eq_true (List.mem_filter.mp he).2)
  · exact Or.inl hx

/-- What is deleted is stored and has a date. -/
lemma prune_cases [Btree] {id : String} (h : s.step partitioner (.prune id) = some t) :
    ∃ e, s.store.find? (·.eventId = id) = some e ∧ (∃ date, (e, date) ∈ s.dates) ∧
      t = s.delete e := by
  simp only [step, Option.bind_eq_bind, Option.bind_eq_some_iff, Option.guard_eq_some'] at h
  obtain ⟨e, he, date, hdate, _, _, h⟩ := h
  obtain rfl := Option.some.inj h
  obtain ⟨⟨d, date'⟩, hfind, rfl⟩ := Option.map_eq_some_iff.mp hdate
  obtain rfl : d = e := by simpa using List.find?_some hfind
  exact ⟨d, he, ⟨date', List.mem_of_find?_eq_some hfind⟩, rfl⟩

end Cases

end Retention

/-! ### Where handlers are going to append -/

/-- The order and the version at which the handler is going to append its event. -/
def Handler.slot? (h : Handler) : Option (String × ℤ) :=
  match h.pc, h.command with
  | .append b, _ => some (b.event.aggregateId, b.event.aggregateVersion)
  | .charge agg, .processPayment o req =>
      match OrderCqrs.charge req.paymentId req.amount req.method with
      | .success _ => some (o, agg.version + 1)
      | .failure _ => none
  | _, _ => none

/-- What it is going to append is no cancellation. -/
def Handler.Continues (h : Handler) : Prop :=
  match h.pc with
  | .append b => b.event.eventType ≠ .orderCancelled
  | _ => True

instance : (h : Handler) → Decidable h.Continues
  | ⟨_, .append b⟩ => inferInstanceAs (Decidable (b.event.eventType ≠ .orderCancelled))
  | ⟨_, .start⟩ | ⟨_, .latestVersion _⟩ | ⟨_, .charge _⟩ | ⟨_, .publish _ _ _⟩ | ⟨_, .setex _⟩
  | ⟨_, .done _ _⟩ | ⟨_, .failed _ _⟩ => .isTrue trivial

lemma Handler.slot?_append {h : Handler} {b : Built} (hpc : h.pc = .append b) :
    h.slot? = some (b.event.aggregateId, b.event.aggregateVersion) := by
  obtain ⟨cmd, pc⟩ := h
  obtain rfl : pc = .append b := hpc
  cases cmd <;> rfl

/-- Only a handler that is about to append, or to charge, has a slot. -/
lemma Handler.slot?_eq_none {h : Handler} (happend : ∀ b, h.pc ≠ .append b)
    (hcharge : ∀ agg, h.pc ≠ .charge agg) : h.slot? = none := by
  obtain ⟨cmd, pc⟩ := h
  cases pc with
  | append b => exact absurd rfl (happend b)
  | charge agg => exact absurd rfl (hcharge agg)
  | _ => cases cmd <;> rfl

/-- Nothing is built on a shipped order. -/
lemma Begins.status_ne_shipped {sh : Shared} {d : Draw} {cmd : Command} {b : Built}
    (h : Begins sh d cmd b) {agg : OrderAggregate} (hagg : b.agg = some agg) :
    agg.status ≠ .shipped := by
  intro hstatus
  cases h with
  | createOrder => cases hagg
  | addItem _ hok =>
      rw [Option.some.inj hagg, OrderAggregate.assertCanAddItem_eq_ok] at hok
      exact absurd (hok.symm.trans hstatus) (by decide)
  | confirmOrder _ hok =>
      rw [Option.some.inj hagg, OrderAggregate.assertCanConfirm_eq_ok] at hok
      exact absurd (hok.2.symm.trans hstatus) (by decide)
  | shipOrder _ hok =>
      rw [Option.some.inj hagg, OrderAggregate.assertCanShip_eq_ok] at hok
      exact absurd (hok.symm.trans hstatus) (by decide)
  | cancelOrder _ hok =>
      rw [Option.some.inj hagg, OrderAggregate.assertCanCancel, if_pos (Or.inl hstatus)] at hok
      cases hok

/-- **Where a slot comes from**: the handler had it, or it has drawn a fresh order, or it has loaded
its order and goes on after what it has read. -/
lemma slot_cases {s t : State} {a : Action} (hstep : step s a = some t) {j : ℕ} {g : Handler}
    (hg : t.handlers[j]? = some g) {o : String} {v : ℤ} (hslot : g.slot? = some (o, v)) :
    (∃ h, s.handlers[j]? = some h ∧ h.slot? = some (o, v) ∧ (g.Continues → h.Continues)) ∨
      (v = 1 ∧ o ∉ s.drawn ∧ o ∈ t.drawn) ∨
      ∃ agg, loadAggregate s.store o = .ok agg ∧ v = agg.version + 1 ∧
        (g.Continues → agg.status ≠ .cancelled) ∧ agg.status ≠ .shipped := by
  have hold : s.handlers[j]? = some g → ∃ h, s.handlers[j]? = some h ∧ h.slot? = some (o, v) ∧
      (g.Continues → h.Continues) := fun hget => ⟨g, hget, hslot, id⟩
  cases a with
  | request cmd =>
      obtain rfl := Option.some.inj hstep
      rcases ListTables.getElem?_concat_cases hg with hget | rfl
      · exact Or.inl (hold hget)
      · rw [Handler.slot?_eq_none (by simp) (by simp)] at hslot
        cases hslot
  | expire key =>
      obtain rfl := Option.some.inj hstep
      exact Or.inl (hold hg)
  | await i oc d =>
      obtain ⟨hfresh, h, sh, pc, hget, hawait, rfl⟩ := step_await_eq hstep
      rcases getElem?_set_cases hg with ⟨rfl, rfl⟩ | ⟨_, hget'⟩
      swap
      · exact Or.inl (hold hget')
      have hmove := await_move hawait
      -- the moves that lead to no slot
      have hnone : (∀ b, pc ≠ .append b) → (∀ agg, pc ≠ .charge agg) → False := by
        intro happend hcharge
        rw [Handler.slot?_eq_none happend hcharge] at hslot
        cases hslot
      cases hmove with
      | idle _ _ hbuilt hcharge =>
          exact (hnone (fun b hb => by simp [hb, Pc.built] at hbuilt) hcharge).elim
      | @toCharge o' req agg hpc hcmd hload hpay =>
          simp only [Handler.slot?, hcmd] at hslot
          cases hcharge : OrderCqrs.charge req.paymentId req.amount req.method with
          | failure err => simp [hcharge] at hslot
          | success ref =>
              simp only [hcharge, Option.some.injEq, Prod.mk.injEq] at hslot
              obtain ⟨rfl, rfl⟩ := hslot
              refine Or.inr (Or.inr ⟨agg, hload, rfl, ?_⟩)
              rw [OrderAggregate.assertCanPay_eq_ok.mp hpay]
              exact ⟨fun _ => by decide, by decide⟩
      | create hpc hcmd =>
          rw [Handler.slot?_append rfl, Option.some.injEq, Prod.mk.injEq] at hslot
          obtain ⟨rfl, rfl⟩ := hslot
          exact Or.inr (Or.inl ⟨rfl, hfresh.1, List.mem_cons_self⟩)
      | @build o' agg payload hpc hload hallow =>
          rw [Handler.slot?_append rfl, Option.some.injEq, Prod.mk.injEq] at hslot
          obtain ⟨rfl, rfl⟩ := hslot
          refine Or.inr (Or.inr ⟨agg, hload, rfl, fun hcontinues hstatus => hcontinues ?_, ?_⟩)
          · exact cancelled_of_allows (Or.inl hstatus) hallow
          · have hbegins : Begins s.toShared d h.command
                ⟨some agg, d.stamp.event o' (agg.version + 1) payload⟩ := by
              rcases await_built hawait rfl with hbuilt | ⟨_, _, hbegins⟩ | ⟨_, _, _, hpc', _⟩
              · simp [hpc, Pc.built] at hbuilt
              · exact hbegins
              · simp [hpc] at hpc'
            exact hbegins.status_ne_shipped rfl
      | @charge o' req agg hpc hcmd =>
          refine Or.inl ⟨h, hget, ?_, fun _ => ?_⟩
          · cases hcharge : OrderCqrs.charge req.paymentId req.amount req.method with
            | failure err =>
                simp [Handler.await, Handler.complete, hpc, hcmd, hcharge] at hawait
            | success ref =>
                rw [Handler.slot?_append rfl] at hslot
                rw [← hslot]
                simp only [Handler.slot?, hpc, hcmd, hcharge]
                rfl
          · simp [Handler.Continues, hpc]
      | insert _ _ hend =>
          rcases hend with ⟨_, rfl⟩ | ⟨_, rfl⟩ <;> exact (hnone (by simp) (by simp)).elim
      | @skip b n hpc | @mark b n hpc =>
          rcases h.command.published_cases b with heq | heq <;>
            exact (hnone (by simp [heq]) (by simp [heq])).elim
      | finish _ _ _ _ _ hend =>
          rcases hend with ⟨_, rfl⟩ | ⟨_, rfl⟩ <;> exact (hnone (by simp) (by simp)).elim
      | reject | proceed | send | retry | giveUp => exact (hnone (by simp) (by simp)).elim

/-! ### What was appended -/

/-- An `ORDER_CANCELLED` of the order is among the events. -/
def CancelledIn (events : List Event) (o : String) : Prop :=
  ∃ e ∈ events, e.aggregateId = o ∧ e.eventType = .orderCancelled

instance (events : List Event) (o : String) : Decidable (CancelledIn events o) :=
  inferInstanceAs (Decidable (∃ e ∈ events, e.aggregateId = o ∧ _))

lemma CancelledIn.mono {events events' : List Event} {o : String} (h : CancelledIn events o)
    (hsub : events ⊆ events') : CancelledIn events' o := by
  obtain ⟨e, he, horder⟩ := h
  exact ⟨e, hsub he, horder⟩

section Write

variable {s t : State} {a : Action}

/-- Identifiers stay drawn. -/
lemma drawn_subset (hstep : step s a = some t) : s.drawn ⊆ t.drawn := by
  cases a with
  | request cmd =>
      obtain rfl := Option.some.inj hstep
      exact List.Subset.refl _
  | expire key =>
      obtain rfl := Option.some.inj hstep
      exact List.Subset.refl _
  | await i oc d =>
      obtain ⟨_, _, _, _, _, _, rfl⟩ := step_await hstep
      exact fun id hid => List.mem_cons_of_mem _ (List.mem_cons_of_mem _ hid)

/-- What is past its append after a step was so before, or is stored by the step. -/
lemma inserted_cases (hstep : step s a = some t) {g : Handler} (hg : g ∈ t.handlers)
    (hins : g.pc.Inserted) {b : Built} (hb : g.pc.built = some b) :
    (∃ h ∈ s.handlers, h.pc.Inserted ∧ h.pc.built = some b) ∨ b.event ∈ t.store := by
  rcases mem_handlers_cases hstep hg with
    hold | hstart | ⟨i, oc, d, h, sh, pc, rfl, hget, hawait, hshared, rfl⟩
  · exact Or.inl ⟨g, hold, hins, hb⟩
  · simp [hstart, Pc.built] at hb
  · have hbefore : h.pc.Inserted → h.pc.built = some b →
        ∃ h ∈ s.handlers, h.pc.Inserted ∧ h.pc.built = some b := fun hins hb =>
      ⟨h, List.mem_of_getElem? hget, hins, hb⟩
    cases await_move hawait with
    | idle _ _ hnone => simp [hnone] at hb
    | toCharge | create | build | charge | reject | giveUp => exact hins.elim
    | @insert _ b' _ hpc _ hend =>
        rcases hend with ⟨_, rfl⟩ | ⟨_, rfl⟩
        · obtain rfl := Option.some.inj hb
          have hstore : t.store = s.store ++ [b'.event] := congrArg Shared.store hshared
          rw [hstore]
          exact Or.inr (List.mem_append_right _ (List.mem_singleton_self _))
        · exact hins.elim
    | @skip b' n hpc | @mark b' n hpc =>
        refine Or.inl (hbefore (by rw [hpc]; trivial) ?_)
        rcases h.command.published_cases b' with heq | heq <;>
          (rw [heq] at hb; rw [hpc]; exact hb)
    | proceed hpc | send hpc | retry hpc =>
        exact Or.inl (hbefore (by rw [hpc]; trivial) (by rw [hpc]; exact hb))
    | finish hpc _ _ _ _ hend =>
        rcases hend with ⟨_, rfl⟩ | ⟨_, rfl⟩
        · exact Or.inl (hbefore (by rw [hpc]; trivial) (by rw [hpc]; exact hb))
        · exact hins.elim

/-- What is sent after a step was sent before, or is what a handler holds that is past its append. -/
lemma sent_cases (hstep : step s a = some t) {r : Record} (hr : r ∈ t.topic) :
    r ∈ s.topic ∨ ∃ h ∈ s.handlers, ∃ b, h.pc.Inserted ∧ h.pc.built = some b ∧
      r.value = b.event := by
  cases a with
  | request cmd =>
      obtain rfl := Option.some.inj hstep
      exact Or.inl hr
  | expire key =>
      obtain rfl := Option.some.inj hstep
      exact Or.inl hr
  | await i oc d =>
      obtain ⟨_, h, sh, pc, hget, hmove, rfl⟩ := step_await hstep
      have hsend : ∀ {b : Built} {n : ℕ} {call : PublishCall}, h.pc = .publish b n call →
          r ∈ s.topic ++ [recordOf b.event] → r ∈ s.topic ∨ ∃ h ∈ s.handlers, ∃ b,
            h.pc.Inserted ∧ h.pc.built = some b ∧ r.value = b.event := by
        intro b n call hpc hr
        refine (List.mem_append.mp hr).imp_right fun hnew => ?_
        rw [List.mem_singleton.mp hnew]
        exact ⟨h, List.mem_of_getElem? hget, b, by rw [hpc]; trivial, by rw [hpc]; rfl, rfl⟩
      cases hmove with
      | send hpc => exact hsend hpc hr
      | retry hpc _ _ heff | giveUp hpc _ _ heff =>
          rcases heff.topic with htopic | ⟨_, htopic⟩
          · exact Or.inl (htopic ▸ hr)
          · exact hsend hpc (htopic ▸ hr)
      | finish _ _ _ htopic => exact Or.inl (htopic ▸ hr)
      | _ => exact Or.inl hr

end Write

namespace Retention

variable {partitioner : String → ℕ} {s t : Retention}

/-- **The invariant of the history.** -/
structure HistoryInv (s : Retention) : Prop where
  stored : s.store ⊆ s.history
  /-- What a handler past its append has built was appended. -/
  inserted : ∀ h ∈ s.handlers, ∀ b, h.pc.Inserted → h.pc.built = some b → b.event ∈ s.history
  topic : ∀ r ∈ s.platform.write.topic, r.value ∈ s.history
  travels : Platform.Travels s.history s.platform.loop
  /-- Nobody records a delivery. -/
  noDelivery : NoDelivery s.platform.write
  undelivered : ∀ e ∈ s.history, e.payload ≠ .orderDelivered
  /-- Orders have drawn identifiers. -/
  drawn : ∀ e ∈ s.history, e.aggregateId ∈ s.platform.write.drawn
  drawnSlots : ∀ h ∈ s.handlers, ∀ o v, h.slot? = some (o, v) → o ∈ s.platform.write.drawn
  /-- Only events of cancelled orders have a date. -/
  flagged : ∀ x ∈ s.dates, CancelledIn s.history x.1.aggregateId

lemma historyInv_init (partitions : ℕ) (rm : ReadModel) : HistoryInv (init partitions rm) where
  stored := List.Subset.refl _
  inserted := by simp [handlers, init, Platform.init, State.init]
  topic := by simp [init, Platform.init, State.init]
  travels := .init partitions rm
  noDelivery := by simp [NoDelivery, init, Platform.init, State.init]
  undelivered := by simp [init]
  drawn := by simp [init]
  drawnSlots := by simp [handlers, init, Platform.init, State.init]
  flagged := by simp [init]

/-- **What a command appends**: nothing, or what a handler holds whose key is free. -/
lemma append_cases [Btree] {a : Action} (h : s.step partitioner (.command a) = some t) :
    t.store = s.store ∧ t.history = s.history ∨
      ∃ h ∈ s.handlers, ∃ b, h.pc = .append b ∧ (∀ d ∈ s.store, ¬ DuplicateKey b.event d) ∧
        t.store = s.store ++ [b.event] ∧ t.history = s.history ++ [b.event] := by
  obtain ⟨hplatform, _, hhistory⟩ := command_cases h
  obtain ⟨hwrite, _, _⟩ := Platform.command_cases hplatform
  rcases store_step hwrite with hstore | ⟨h, hmem, b, hpc, hfree, hstore⟩
  · have hsame : t.store = s.store := hstore
    refine Or.inl ⟨hsame, ?_⟩
    rw [hhistory, hsame, List.drop_length, List.append_nil]
  · have hnew : t.store = s.store ++ [b.event] := hstore
    refine Or.inr ⟨h, hmem, b, hpc, hfree, hnew, ?_⟩
    rw [hhistory, hnew, List.drop_left]

/-- The history only grows. -/
lemma history_subset [Btree] {a : Action} (h : s.step partitioner (.command a) = some t) :
    s.history ⊆ t.history := by
  rw [(command_cases h).2.2]
  exact List.subset_append_left _ _

/-- A command keeps the invariant. -/
lemma HistoryInv.command [Btree] (hs : HistoryInv s) {a : Action}
    (h : s.step partitioner (.command a) = some t) : HistoryInv t := by
  obtain ⟨hplatform, hdates, _⟩ := command_cases h
  obtain ⟨hwrite, _, hloop⟩ := Platform.command_cases hplatform
  have hsub := history_subset h
  have hstored : t.store ⊆ t.history := by
    rcases append_cases h with ⟨hstore, hhistory⟩ | ⟨_, _, b, _, _, hstore, hhistory⟩
    · rw [hstore, hhistory]
      exact hs.stored
    · rw [hstore, hhistory]
      exact List.append_subset.mpr ⟨List.Subset.trans hs.stored (List.subset_append_left _ _),
        List.subset_append_right _ _⟩
  have htopic : ∀ r ∈ t.platform.write.topic, r.value ∈ t.history := by
    intro r hr
    rcases sent_cases hwrite hr with hold | ⟨g, hg, b, hins, hb, heq⟩
    · exact hsub (hs.topic r hold)
    · exact hsub (heq ▸ hs.inserted g hg b hins hb)
  refine ⟨hstored, fun g hg b hins hb => ?_, htopic, ?_, noDelivery_step hs.noDelivery hwrite,
    fun e he => ?_, fun e he => ?_, fun g hg o v hslot => ?_, ?_⟩
  · rcases inserted_cases hwrite hg hins hb with ⟨g', hg', hins', hb'⟩ | hnew
    · exact hsub (hs.inserted g' hg' b hins' hb')
    · exact hstored hnew
  · exact Platform.sends_preserve (P := Platform.Travels t.history)
      (fun hl he hstep => hl.step (fun p e' heq => by
        obtain ⟨_, rfl⟩ := LoopAction.produce.inj heq
        exact he) hstep)
      (fun r hr => htopic r (List.mem_of_mem_drop hr)) (hs.travels.mono hsub) hloop
  · rcases append_cases h with ⟨_, hhistory⟩ | ⟨g, hg, b, hpc, _, _, hhistory⟩
    · exact hs.undelivered e (hhistory ▸ he)
    · rw [hhistory] at he
      rcases List.mem_append.mp he with hold | hnew
      · exact hs.undelivered e hold
      · rw [List.mem_singleton.mp hnew]
        exact hs.noDelivery g hg b (by rw [hpc]; rfl)
  · refine drawn_subset hwrite ?_
    rcases append_cases h with ⟨_, hhistory⟩ | ⟨g, hg, b, hpc, _, _, hhistory⟩
    · exact hs.drawn e (hhistory ▸ he)
    · rw [hhistory] at he
      rcases List.mem_append.mp he with hold | hnew
      · exact hs.drawn e hold
      · rw [List.mem_singleton.mp hnew]
        refine hs.drawnSlots g hg _ b.event.aggregateVersion ?_
        exact Handler.slot?_append hpc
  · obtain ⟨j, hget⟩ := List.mem_iff_getElem?.mp hg
    rcases slot_cases hwrite hget hslot with ⟨g', hg', hslot', _⟩ | ⟨_, _, hdrawn⟩ |
      ⟨agg, hload, _⟩
    · exact drawn_subset hwrite (hs.drawnSlots g' (List.mem_of_getElem? hg') o v hslot')
    · exact hdrawn
    · obtain ⟨_, log, _, hne, _, hlog⟩ := exists_replay_of_load hload
      obtain ⟨e, he⟩ := List.exists_mem_of_ne_nil log hne
      obtain ⟨hin, ho⟩ := mem_orderLog.mp ((hlog e).mp he)
      exact drawn_subset hwrite (ho ▸ hs.drawn e (hs.stored hin))
  · rw [hdates]
    exact fun x hx => (hs.flagged x hx).mono hsub

/-- A move of the loop keeps the invariant. -/
lemma HistoryInv.deliver [Btree] (hs : HistoryInv s) {a : LoopAction}
    (h : s.step partitioner (.deliver a) = some t) : HistoryInv t := by
  obtain ⟨hplatform, hhistory, hdates⟩ := deliver_cases h
  obtain ⟨hdelivers, hloop, hwrite, _⟩ := Platform.deliver_cases hplatform
  obtain ⟨hstored, hinserted, htopic, htravels, hno, hundelivered, hdrawn, hslots, hflagged⟩ := hs
  have htravels' : Platform.Travels s.history t.platform.loop := by
    refine htravels.step (fun p e heq => ?_) hloop
    rw [heq] at hdelivers
    exact hdelivers.elim
  have hflagged' : ∀ x ∈ t.dates, CancelledIn s.history x.1.aggregateId := by
    intro x hx
    rcases hdates x hx with hold | hnew
    · exact hflagged x hold
    · rcases Platform.newlyExpiring_cases hloop with hnil | ⟨c, hc, hpc, hone⟩
      · simp [hnil] at hnew
      · -- the terminal event in the consumer's hands is no delivery
        rw [hone, List.mem_singleton] at hnew
        have hin := htravels.current hc
        refine ⟨c.event, hin, hnew.symm, (htravels.expiry c hc hpc).resolve_left fun htype => ?_⟩
        refine hundelivered c.event hin ?_
        rw [Event.eventType] at htype
        cases hp : c.event.payload <;> simp_all [Payload.eventType]
  rw [← hhistory] at hstored hinserted htopic htravels' hundelivered hdrawn hflagged'
  refine ⟨?_, ?_, ?_, htravels', ?_, hundelivered, ?_, ?_, hflagged'⟩
  · rw [store, hwrite]
    exact hstored
  · rw [handlers, hwrite]
    exact hinserted
  · rw [hwrite]
    exact htopic
  · rw [hwrite]
    exact hno
  · rw [hwrite]
    exact hdrawn
  · rw [handlers, hwrite]
    exact hslots

/-- **Every move keeps the invariant.** -/
theorem historyInv_step [Btree] (hs : HistoryInv s) {a : RetentionAction}
    (h : s.step partitioner a = some t) : HistoryInv t := by
  cases a with
  | command a => exact hs.command h
  | deliver a => exact hs.deliver h
  | tick seconds =>
      obtain rfl := Option.some.inj h
      exact ⟨hs.stored, hs.inserted, hs.topic, hs.travels, hs.noDelivery, hs.undelivered, hs.drawn,
        hs.drawnSlots, hs.flagged⟩
  | prune id =>
      obtain ⟨e, _, _, rfl⟩ := prune_cases h
      exact ⟨fun d hd => hs.stored (List.mem_of_mem_filter hd), hs.inserted, hs.topic, hs.travels,
        hs.noDelivery, hs.undelivered, hs.drawn, hs.drawnSlots, hs.flagged⟩

end Retention

end OrderCqrs
