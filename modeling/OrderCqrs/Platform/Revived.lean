import OrderCqrs.Platform.Revival

/-!
When cancelled orders are revived.

* `NewIds`: what a handler is about to append is new: no event that was ever appended has its id,
  and no event that is a creation's has its order.
* `Reviving`: the moves may go on so that a cancelled order is continued; `reviving_of_append`,
  `reviving_of_charge`, `reviving_of_load`: a handler with a free claim does, and so does a request
  for an order that is loaded as one that goes on.
* `reviving_of_delete`: every deletion outside the condition may be followed so.
* `pruning_never_revives`: **no command continues a cancelled order** along the runs whose deletions
  meet the condition, and where one does not, a command may.
* `revived_order`: the cancellation is deleted first, and an item is added to what is left.
-/

namespace OrderCqrs

open Runs

/-! ### What is about to be appended -/

/-- The handler is about to append what it has built. -/
def State.Appends (s : State) (i : ℕ) (b : Built) : Prop :=
  ∃ h, s.handlers[i]? = some h ∧ h.pc = .append b

section Write

variable {s t : State} {a : Action} {i : ℕ} {b : Built}

/-- What is built is given the identifiers that are drawn. -/
lemma Move.new_ids {sh sh' : Shared} {d : Draw} {h : Handler} {oc : Outcome}
    (hmove : Move sh d h oc sh' (.append b)) :
    b.event.eventId = d.stamp.eventId ∧ sh'.store = sh.store ∧
      (b.event.eventType = .orderCreated → b.event.aggregateId = d.orderId) := by
  generalize hpc : Pc.append b = pc at hmove
  cases hmove with
  | idle _ _ hnone => simp [← hpc, Pc.built] at hnone
  | create =>
      obtain rfl := Pc.append.inj hpc
      exact ⟨rfl, rfl, fun _ => rfl⟩
  | build _ _ hallow =>
      obtain rfl := Pc.append.inj hpc
      refine ⟨rfl, rfl, fun htype => ?_⟩
      cases hallow.ne_created htype
  | charge =>
      obtain rfl := Pc.append.inj hpc
      refine ⟨rfl, rfl, fun htype => ?_⟩
      cases htype
  | insert _ _ hend => rcases hend with ⟨_, rfl⟩ | ⟨_, rfl⟩ <;> cases hpc
  | @skip b' n | @mark b' n =>
      rcases h.command.published_cases b' with heq | heq <;> (rw [heq] at hpc; cases hpc)
  | finish _ _ _ _ _ hend => rcases hend with ⟨_, rfl⟩ | ⟨_, rfl⟩ <;> cases hpc
  | _ => cases hpc

/-- What a handler is about to append it was before, without having moved, or has just built. -/
lemma appends_cases (hstep : step s a = some t) (h : t.Appends i b) :
    (s.Appends i b ∧ ∀ oc d, a ≠ .await i oc d) ∨
      ∃ oc d, a = .await i oc d ∧ d.Fresh s.drawn ∧ t.store = s.store ∧
        d.stamp.eventId ∈ t.drawn ∧ b.event.eventId = d.stamp.eventId ∧
        (b.event.eventType = .orderCreated → b.event.aggregateId = d.orderId) := by
  obtain ⟨g, hget, hpc⟩ := h
  cases a with
  | request cmd =>
      obtain rfl := Option.some.inj hstep
      rcases ListTables.getElem?_concat_cases hget with hget | rfl
      · exact Or.inl ⟨⟨g, hget, hpc⟩, by simp⟩
      · cases hpc
  | expire key =>
      obtain rfl := Option.some.inj hstep
      exact Or.inl ⟨⟨g, hget, hpc⟩, by simp⟩
  | await j oc d =>
      obtain ⟨hfresh, h, sh, pc, _, hmove, rfl⟩ := step_await hstep
      rcases getElem?_set_cases hget with ⟨rfl, rfl⟩ | ⟨hne, hget⟩
      · obtain rfl : pc = .append b := hpc
        obtain ⟨hid, hstore, horder⟩ := hmove.new_ids
        exact Or.inr ⟨oc, d, rfl, hfresh, hstore, by simp, hid, horder⟩
      · refine Or.inl ⟨⟨g, hget, hpc⟩, fun oc' d' heq => hne ?_⟩
        exact (Action.await.inj heq).1.symm

end Write

namespace Retention

variable {partitioner : String → ℕ} {s t : Retention}

/-- **What is about to be appended is new.** -/
structure NewIds (s : Retention) : Prop where
  drawn : ∀ e ∈ s.history, e.eventId ∈ s.platform.write.drawn
  /-- No event that was appended has the id of one that is about to be. -/
  event : ∀ i b, s.platform.write.Appends i b → b.event.eventId ∈ s.platform.write.drawn ∧
    ∀ e ∈ s.history, e.eventId ≠ b.event.eventId
  /-- No event that was appended has the order of a creation that is about to be. -/
  order : ∀ i b, s.platform.write.Appends i b → b.event.eventType = .orderCreated →
    ∀ e ∈ s.history, e.aggregateId ≠ b.event.aggregateId
  /-- No two handlers are about to append events of one id. -/
  distinct : ∀ i j b b', s.platform.write.Appends i b → s.platform.write.Appends j b' → i ≠ j →
    b.event.eventId ≠ b'.event.eventId
  /-- No other handler claims a version of an order that is about to be created. -/
  alone : ∀ (i j : ℕ) b h v, s.platform.write.Appends i b → b.event.eventType = .orderCreated →
    s.handlers[j]? = some h → i ≠ j → h.slot? ≠ some (b.event.aggregateId, v)

lemma newIds_init (partitions : ℕ) (rm : ReadModel) : NewIds (init partitions rm) where
  drawn := by simp [init]
  event := by simp [State.Appends, init, Platform.init, State.init]
  order := by simp [init]
  distinct := by simp [State.Appends, init, Platform.init, State.init]
  alone := by simp [handlers, init, Platform.init, State.init]

section Command

variable [Btree] (hs : NewIds s) (hh : HistoryInv s) {a : Action}
  (h : s.step partitioner (.command a) = some t) {i : ℕ} {b : Built}

include h

/-- A command is a step of the write side. -/
lemma write_step : OrderCqrs.step s.platform.write a = some t.platform.write :=
  (Platform.command_cases (command_cases h).1).1

/-- The events of the history after a command. -/
lemma mem_history_cases {e : Event} (he : e ∈ t.history) : e ∈ s.history ∨
    t.store ≠ s.store ∧ ∃ i oc d b, a = .await i oc d ∧ s.platform.write.Appends i b ∧
      e = b.event := by
  rw [(command_cases h).2.2] at he
  rcases store_await (write_step h) with
    hstore | ⟨i, oc, d, g, b, rfl, hget, hpc, _, hstore⟩
  · have hsame : t.store = s.store := hstore
    rw [hsame, List.drop_length, List.append_nil] at he
    exact Or.inl he
  · have hnew : t.store = s.store ++ [b.event] := hstore
    rw [hnew, List.drop_left] at he
    refine (List.mem_append.mp he).imp_right fun hlast => ?_
    refine ⟨?_, i, oc, d, b, rfl, ⟨g, hget, hpc⟩, List.mem_singleton.mp hlast⟩
    rw [hnew]
    simp

/-- What a command appends is not what a handler that did not move is about to append. -/
lemma mem_history_of_stays (hstays : ∀ oc d, a ≠ .await i oc d) {e : Event} (he : e ∈ t.history) :
    e ∈ s.history ∨ ∃ j b', s.platform.write.Appends j b' ∧ j ≠ i ∧ e = b'.event := by
  refine (mem_history_cases h he).imp_right ?_
  rintro ⟨_, j, oc, d, b', rfl, happends, rfl⟩
  exact ⟨j, b', happends, fun hji => hstays oc d (hji ▸ rfl), rfl⟩

include hs

/-- What is about to be appended after a command has a drawn id, and no event has it. -/
lemma NewIds.event_step (hb : t.platform.write.Appends i b) :
    b.event.eventId ∈ t.platform.write.drawn ∧ ∀ e ∈ t.history, e.eventId ≠ b.event.eventId := by
  rcases appends_cases (write_step h) hb with
    ⟨hb, hstays⟩ | ⟨oc, d, _, hfresh, hstore, hdrawn, hid, _⟩
  · obtain ⟨hdrawn, hnew⟩ := hs.event i b hb
    refine ⟨drawn_subset (write_step h) hdrawn, fun e he => ?_⟩
    rcases mem_history_of_stays h hstays he with hbefore | ⟨j, b', hb', hji, rfl⟩
    · exact hnew e hbefore
    · exact hs.distinct j i b' b hb' hb hji
  · rw [hid]
    refine ⟨hdrawn, fun e he heq => hfresh.2 ?_⟩
    have hbefore := (mem_history_cases h he).resolve_right fun hne => hne.1 hstore
    exact heq ▸ hs.drawn e hbefore

/-- Two handlers are about to append different events. -/
lemma NewIds.distinct_step {j : ℕ} {b' : Built} (hb : t.platform.write.Appends i b)
    (hb' : t.platform.write.Appends j b') (hij : i ≠ j) : b.event.eventId ≠ b'.event.eventId := by
  have hstep := write_step h
  rcases appends_cases hstep hb with ⟨hb, _⟩ | ⟨oc, d, rfl, hfresh, _, _, hid, _⟩
  · rcases appends_cases hstep hb' with ⟨hb', _⟩ | ⟨_, d, _, hfresh, _, _, hid, _⟩
    · exact hs.distinct i j b b' hb hb' hij
    · rw [hid]
      exact fun heq => hfresh.2 (heq ▸ (hs.event i b hb).1)
  · rcases appends_cases hstep hb' with ⟨hb', _⟩ | ⟨_, _, heq, _⟩
    · rw [hid]
      exact fun heq => hfresh.2 (heq ▸ (hs.event j b' hb').1)
    · exact absurd (Action.await.inj heq).1 hij

include hh

/-- No event has the order of a creation that is about to be appended after a command. -/
lemma NewIds.order_step (hb : t.platform.write.Appends i b)
    (htype : b.event.eventType = .orderCreated) :
    ∀ e ∈ t.history, e.aggregateId ≠ b.event.aggregateId := by
  intro e he heq
  rcases appends_cases (write_step h) hb with
    ⟨hb, hstays⟩ | ⟨oc, d, _, hfresh, hstore, _, _, horder⟩
  · rcases mem_history_of_stays h hstays he with hbefore | ⟨j, b', hb', hji, rfl⟩
    · exact hs.order i b hb htype e hbefore heq
    · obtain ⟨g, hget, hpc⟩ := hb'
      exact hs.alone i j b g _ hb htype hget hji.symm (heq ▸ Handler.slot?_append hpc)
  · have hbefore := (mem_history_cases h he).resolve_right fun hne => hne.1 hstore
    exact hfresh.1 (horder htype ▸ heq ▸ hh.drawn e hbefore)

/-- No other handler claims a version of an order that is about to be created. -/
lemma NewIds.alone_step {j : ℕ} {g : Handler} {v : ℤ} (hb : t.platform.write.Appends i b)
    (htype : b.event.eventType = .orderCreated) (hget : t.handlers[j]? = some g) (hij : i ≠ j) :
    g.slot? ≠ some (b.event.aggregateId, v) := by
  intro hslot
  have hstep := write_step h
  rcases appends_cases hstep hb with ⟨hb, _⟩ | ⟨oc, d, rfl, hfresh, _, _, _, horder⟩
  · rcases slot_cases hstep hget hslot with ⟨g', hget', hslot', _⟩ | ⟨_, hfresh, _⟩ |
      ⟨agg, hload, _⟩
    · exact hs.alone i j b g' v hb htype hget' hij hslot'
    · obtain ⟨g', hget', hpc⟩ := hb
      exact hfresh (hh.drawnSlots g' (List.mem_of_getElem? hget') _ _ (Handler.slot?_append hpc))
    · -- what is loaded has events
      obtain ⟨_, log, _, hne, _, hlog⟩ := exists_replay_of_load hload
      obtain ⟨e, he⟩ := List.exists_mem_of_ne_nil log hne
      obtain ⟨hin, ho⟩ := mem_orderLog.mp ((hlog e).mp he)
      exact hs.order i b hb htype e (hh.stored hin) ho
  · -- the order is drawn by this step
    obtain ⟨_, g', sh, pc, _, _, ht⟩ := step_await hstep
    have hget' : s.handlers[j]? = some g := by
      rw [← List.getElem?_set_ne hij, ← hget]
      exact congrArg (·.handlers[j]?) ht.symm
    rw [horder htype] at hslot
    exact hfresh.1 (hh.drawnSlots g (List.mem_of_getElem? hget') _ v hslot)

/-- A command keeps it so. -/
lemma NewIds.command : NewIds t where
  drawn := fun e he => by
    refine drawn_subset (write_step h) ?_
    rcases mem_history_cases h he with hbefore | ⟨_, j, _, _, b', _, happends, rfl⟩
    · exact hs.drawn e hbefore
    · exact (hs.event j b' happends).1
  event := fun _ _ hb => hs.event_step h hb
  order := fun _ _ hb htype => hs.order_step hh h hb htype
  distinct := fun _ _ _ _ hb hb' hij => hs.distinct_step h hb hb' hij
  alone := fun _ _ _ _ _ hb htype hget hij => hs.alone_step hh h hb htype hget hij

end Command

/-! ### Every run -/

/-- **What holds in every run**, whatever is deleted: no order is both shipped and cancelled, unless
it was revived. -/
structure RunInv (s : Retention) : Prop where
  base : s.VersionsInv
  ids : s.NewIds
  exclusive : ∀ o, ShippedIn s.history o → CancelledIn s.history o → ¬ NeverRevived s.history

lemma runInv_init (partitions : ℕ) (rm : ReadModel) : RunInv (init partitions rm) where
  base := versionsInv_init partitions rm
  ids := newIds_init partitions rm
  exclusive := by
    rintro o ⟨e, he, _⟩
    cases he

/-- After an append no order is shipped and cancelled that was not before, unless it is revived. -/
lemma RunInv.exclusive_concat (hs : RunInv s) {h : Handler} {b : Built} (hmem : h ∈ s.handlers)
    (hpc : h.pc = .append b) (hfree : ∀ d ∈ s.store, ¬ DuplicateKey b.event d) {o : String}
    (hshipped : ShippedIn (s.history ++ [b.event]) o)
    (hcancelled : CancelledIn (s.history ++ [b.event]) o) :
    ¬ NeverRevived (s.history ++ [b.event]) := by
  intro halive
  obtain ⟨hbefore, _, hlast⟩ := List.pairwise_append.mp halive
  rcases shippedIn_concat.mp hshipped with hs₁ | ⟨rfl, hship⟩
  · rcases cancelledIn_concat.mp hcancelled with hc | ⟨rfl, hcancel⟩
    · exact hs.exclusive o hs₁ hc hbefore
    · -- it is shipped, and no claim is free
      by_cases hc : CancelledIn s.history b.event.aggregateId
      · exact hs.exclusive _ hs₁ hc hbefore
      · exact (hs.base.opened _ hc).not_shipped hmem hpc hfree hs₁
  · rcases cancelledIn_concat.mp hcancelled with ⟨e, he, ho, hcancel⟩ | ⟨_, hcancel⟩
    · refine hlast e he b.event (List.mem_singleton_self _) hcancel ho.symm ?_
      rw [hship]
      trivial
    · cases hship.symm.trans hcancel

/-- **Every move keeps it so.** -/
theorem runInv_step [Btree] (hs : RunInv s) {a : RetentionAction}
    (h : s.step partitioner a = some t) : RunInv t := by
  have hbase := versionsInv_step hs.base h
  cases a with
  | command a =>
      refine ⟨hbase, hs.ids.command hs.base.hist h, fun o => ?_⟩
      rcases append_cases h with ⟨_, hhistory⟩ | ⟨g, hg, b, hpc, hfree, _, hhistory⟩
      · rw [hhistory]
        exact hs.exclusive o
      · rw [hhistory]
        exact hs.exclusive_concat hg hpc hfree
  | deliver a =>
      -- the loop neither appends nor claims
      obtain ⟨hplatform, hhistory, _⟩ := deliver_cases h
      obtain ⟨_, _, hwrite, _⟩ := Platform.deliver_cases hplatform
      obtain ⟨hdrawn, hevent, horder, hdistinct, halone⟩ := hs.ids
      refine ⟨hbase, ⟨?_, ?_, ?_, ?_, ?_⟩, hhistory ▸ hs.exclusive⟩
      · rw [hhistory, hwrite]
        exact hdrawn
      · rw [hhistory, hwrite]
        exact hevent
      · rw [hhistory, hwrite]
        exact horder
      · rw [hwrite]
        exact hdistinct
      · rw [handlers, hwrite]
        exact halone
  | tick seconds =>
      obtain rfl := Option.some.inj h
      obtain ⟨hdrawn, hevent, horder, hdistinct, halone⟩ := hs.ids
      exact ⟨hbase, ⟨hdrawn, hevent, horder, hdistinct, halone⟩, hs.exclusive⟩
  | prune id =>
      obtain ⟨e, _, _, rfl⟩ := prune_cases h
      obtain ⟨hdrawn, hevent, horder, hdistinct, halone⟩ := hs.ids
      exact ⟨hbase, ⟨hdrawn, hevent, horder, hdistinct, halone⟩, hs.exclusive⟩

end Retention

/-! ### What is left of an order -/

/-- The events that set a late status. -/
lemma Payload.eventType_of_status {p : Payload} :
    (p.status? = some .shipped → p.eventType = .orderShipped) ∧
    (p.status? = some .delivered → p.eventType = .orderDelivered) ∧
    (p.status? = some .cancelled → p.eventType = .orderCancelled) := by
  cases p <;> simp [Payload.status?, Payload.eventType]

/-- Only the addition of an item leaves the status as it is. -/
lemma Payload.status_isSome {p : Payload} (h : p.eventType ≠ .orderItemAdded) :
    p.status?.isSome := by
  cases p with
  | orderItemAdded item => exact absurd rfl h
  | _ => rfl

namespace RebuiltFrom

variable {o : String} {evs : List Event} {agg : OrderAggregate}

/-- A status that is not the first one was set by the newest event that sets one. -/
lemma exists_status (h : RebuiltFrom o evs agg) (hne : agg.status ≠ .pending) :
    ∃ e ∈ evs, e.payload.status? = some agg.status ∧
      ∀ d ∈ evs, d.payload.status?.isSome → d.aggregateVersion ≤ e.aggregateVersion :=
  h.status.resolve_right fun hbefore => hne hbefore.2

/-- **What rebuilds to a cancelled order keeps its cancellation.** -/
lemma keepsCancelled (h : RebuiltFrom o evs agg)
    (hdistinct : (evs.map (·.aggregateVersion)).Nodup) (hstatus : agg.status = .cancelled) :
    KeepsCancelled evs := by
  obtain ⟨e, he, hset, hlast⟩ := h.exists_status (by rw [hstatus]; decide)
  rw [hstatus] at hset
  have htype : e.eventType = .orderCancelled := Payload.eventType_of_status.2.2 hset
  refine ⟨e, he, htype, fun d hd hcancel hitem => ?_⟩
  refine lt_of_le_of_ne (hlast d hd (Payload.status_isSome hitem)) fun hv => hcancel ?_
  rw [List.inj_on_of_nodup_map hdistinct hd he hv]
  exact htype

end RebuiltFrom

/-! ### How an order is revived -/

/-- Where a claim stands: at the append, or before the charge of a payment that succeeds. -/
lemma Handler.slot?_cases {h : Handler} {o : String} {v : ℤ} (hslot : h.slot? = some (o, v)) :
    (∃ b, h.pc = .append b ∧ b.event.aggregateId = o ∧ b.event.aggregateVersion = v) ∨
      ∃ agg req ref, h.pc = .charge agg ∧ h.command = .processPayment o req ∧
        charge req.paymentId req.amount req.method = .success ref ∧ agg.version + 1 = v := by
  cases hpc : h.pc with
  | append b =>
      rw [Handler.slot?_append hpc, Option.some.injEq, Prod.mk.injEq] at hslot
      exact Or.inl ⟨b, rfl, hslot⟩
  | charge agg =>
      cases hcmd : h.command with
      | processPayment o' req =>
          simp only [Handler.slot?, hpc, hcmd] at hslot
          cases hcharge : charge req.paymentId req.amount req.method with
          | failure err => simp [hcharge] at hslot
          | success ref =>
              simp only [hcharge, Option.some.injEq, Prod.mk.injEq] at hslot
              obtain ⟨rfl, rfl⟩ := hslot
              exact Or.inr ⟨agg, req, ref, rfl, rfl, hcharge, rfl⟩
      | _ => simp [Handler.slot?, hpc, hcmd] at hslot
  | _ =>
      rw [Handler.slot?_eq_none (by simp [hpc]) (by simp [hpc])] at hslot
      cases hslot

section Reviving

variable [Btree] {partitioner : String → ℕ} {s t : Retention} {i : ℕ} {h : Handler} {o : String}
  {agg : OrderAggregate}

/-- **The moves may go on so that a cancelled order is continued.** -/
def Reviving (partitioner : String → ℕ) (s : Retention) : Prop :=
  ∃ bs u, run (Retention.step partitioner) s bs = some u ∧ ¬ NeverRevived u.history

lemma Reviving.of_step {a : RetentionAction} (h : s.step partitioner a = some t)
    (ht : Reviving partitioner t) : Reviving partitioner s := by
  obtain ⟨bs, u, hrun, hrevived⟩ := ht
  exact ⟨a :: bs, u, (run_cons_eq_some _).mpr ⟨t, h, hrun⟩, hrevived⟩

/-- A command that sends nothing does not meet the loop. -/
lemma exists_command (partitioner : String → ℕ) {a : Action} {w : State}
    (hstep : step s.platform.write a = some w) (htopic : w.topic = s.platform.write.topic) :
    ∃ t, s.step partitioner (.command a) = some t ∧ t.platform.write = w ∧
      t.history = s.history ++ w.store.drop s.store.length := by
  refine ⟨{ s with
    platform := { s.platform with write := w }
    history := s.history ++ w.store.drop s.store.length }, ?_, rfl, rfl⟩
  have hnone : Platform.sends partitioner (w.topic.drop s.platform.write.topic.length) = [] := by
    rw [htopic, List.drop_length]
    rfl
  simp [Retention.step, Platform.step, hstep, hnone]

/-- A call of a handler that can complete may do so, with a fresh draw. -/
lemma Reviving.of_complete {sh : Shared} {pc : Draw → Pc} (hget : s.handlers[i]? = some h)
    (hcomplete : ∀ d, h.complete s.platform.write.toShared d = some (sh, pc d))
    (htopic : sh.topic = s.platform.write.topic)
    (hnext : ∀ (d : Draw) (t : Retention), d.Fresh s.platform.write.drawn →
      s.platform.write.drawn ⊆ t.platform.write.drawn → t.store = sh.store →
      t.handlers[i]? = some { h with pc := pc d } →
      t.history = s.history ++ sh.store.drop s.store.length → Reviving partitioner t) :
    Reviving partitioner s := by
  obtain ⟨d, hfresh⟩ := exists_fresh s.platform.write.drawn
  have hstep : step s.platform.write (.await i .completes d) = some
      { toShared := sh
        drawn := d.orderId :: d.stamp.eventId :: s.platform.write.drawn
        handlers := s.handlers.set i { h with pc := pc d } } := by
    have hget' : s.platform.write.handlers[i]? = some h := hget
    simp [step, Handler.await, hget', hcomplete d, guard, hfresh]
  obtain ⟨t, ht, hwrite, hhistory⟩ := exists_command partitioner hstep htopic
  refine .of_step ht (hnext d t hfresh ?_ ?_ ?_ hhistory)
  · rw [hwrite]
    exact drawn_subset hstep
  · rw [Retention.store, hwrite]
  · rw [Retention.handlers, hwrite]
    exact List.getElem?_set_self (List.getElem?_eq_some_iff.mp hget).1

/-- **A handler with a free claim on a cancelled order revives it.** -/
lemma reviving_of_append {b : Built} (hget : s.handlers[i]? = some h) (hpc : h.pc = .append b)
    (hid : ∀ e ∈ s.store, e.eventId ≠ b.event.eventId)
    (hversion : b.event.aggregateVersion ∉ versions s.store b.event.aggregateId)
    (hc : CancelledIn s.history b.event.aggregateId) (htype : b.event.eventType.Continues) :
    Reviving partitioner s := by
  have hfree : ∀ d ∈ s.store, ¬ DuplicateKey b.event d := by
    rintro d hd (⟨ho, hv⟩ | hsame)
    · exact hversion ⟨d, mem_orderLog.mpr ⟨hd, ho⟩, hv⟩
    · exact hid d hd hsame
  have hcomplete : ∀ d, h.complete s.platform.write.toShared d = some
      ({ s.platform.write.toShared with store := s.store ++ [b.event] },
        .publish b 1 .redisExists) := by
    intro d
    have happend := EventStore.append_eq_ok.mpr ⟨hfree, rfl⟩
    simp [Handler.complete, hpc, happend]
  refine .of_complete hget hcomplete rfl fun d t _ _ _ _ hhistory => ⟨[], t, rfl, ?_⟩
  rw [hhistory, List.drop_left]
  exact NeverRevived.not_concat hc htype

/-- And so does one that is about to charge a payment. -/
lemma reviving_of_charge {req : ProcessPaymentRequest} {ref : String}
    (hget : s.handlers[i]? = some h) (hpc : h.pc = .charge agg)
    (hcmd : h.command = .processPayment o req)
    (hcharge : OrderCqrs.charge req.paymentId req.amount req.method = .success ref)
    (hids : ∀ e ∈ s.store, e.eventId ∈ s.platform.write.drawn)
    (hversion : agg.version + 1 ∉ versions s.store o) (hc : CancelledIn s.history o) :
    Reviving partitioner s := by
  have hcomplete : ∀ d, h.complete s.platform.write.toShared d = some
      ({ s.platform.write.toShared with
          charges := s.platform.write.charges ++ [⟨o, req.paymentId, req.amount⟩] },
        .append ⟨some agg, orderPaymentProcessedEvent d.stamp o (agg.version + 1) req.paymentId
          req.amount req.method⟩) := by
    intro d
    simp [Handler.complete, hpc, hcmd, hcharge]
  refine .of_complete hget hcomplete rfl fun d t hfresh _ hstore hget' hhistory => ?_
  have hsame : t.store = s.store := hstore
  refine reviving_of_append hget' rfl (fun e he heq => hfresh.2 ?_) ?_ ?_ trivial
  · rw [hsame] at he
    have hid : e.eventId = d.stamp.eventId := heq
    exact hid ▸ hids e he
  · rw [hsame]
    exact hversion
  · exact hc.mono (hhistory ▸ List.subset_append_left _ _)

/-- A request may be made, and its handler loads the order. -/
lemma Reviving.of_begin {cmd : Command} {pc : Draw → Pc}
    (hbegin : ∀ d, cmd.begin s.platform.write.toShared d = pc d)
    (hnext : ∀ (d : Draw) (t : Retention) (i : ℕ), d.Fresh s.platform.write.drawn →
      s.platform.write.drawn ⊆ t.platform.write.drawn → t.store = s.store →
      t.handlers[i]? = some ⟨cmd, pc d⟩ → t.history = s.history → Reviving partitioner t) :
    Reviving partitioner s := by
  have hstep : step s.platform.write (.request cmd) = some
      { s.platform.write with handlers := s.handlers ++ [⟨cmd, .start⟩] } := rfl
  obtain ⟨r, hr, hwrite, hhistory⟩ := exists_command partitioner hstep rfl
  have hget : r.handlers[s.handlers.length]? = some ⟨cmd, .start⟩ := by
    rw [Retention.handlers, hwrite]
    exact List.getElem?_concat_length
  have hcomplete : ∀ d, Handler.complete r.platform.write.toShared d ⟨cmd, .start⟩ = some
      (r.platform.write.toShared, pc d) := by
    intro d
    rw [hwrite, ← hbegin d]
    rfl
  refine .of_step hr (.of_complete hget hcomplete rfl fun d t hfresh hsub hstore hget' hlast => ?_)
  rw [hwrite] at hfresh hsub hstore
  refine hnext d t _ hfresh hsub hstore hget' ?_
  simp [hlast, hhistory, Retention.store, hwrite]

section Load

variable (hids : ∀ e ∈ s.store, e.eventId ∈ s.platform.write.drawn)
  (hversion : agg.version + 1 ∉ versions s.store o) (hc : CancelledIn s.history o)

include hids hversion hc

/-- A request whose handler goes on from its load to an append. -/
lemma reviving_of_build {cmd : Command} (payload : Stamp → Payload)
    (hbegin : ∀ d, cmd.begin s.platform.write.toShared d =
      .append ⟨some agg, d.stamp.event o (agg.version + 1) (payload d.stamp)⟩)
    (htype : ∀ st, (payload st).eventType.Continues) : Reviving partitioner s := by
  refine .of_begin hbegin fun d t i hfresh _ hstore hget hhistory => ?_
  refine reviving_of_append hget rfl (fun e he heq => hfresh.2 ?_) ?_ ?_ (htype d.stamp)
  · rw [hstore] at he
    have hid : e.eventId = d.stamp.eventId := heq
    exact hid ▸ hids e he
  · rw [hstore]
    exact hversion
  · rw [hhistory]
    exact hc

/-- **A request for a cancelled order that is loaded as one that goes on revives it.** -/
lemma reviving_of_load (hload : loadAggregate s.store o = .ok agg)
    (hgoes : agg.status = .pending ∨ agg.status = .confirmed ∨ agg.status = .paid) :
    Reviving partitioner s := by
  have hload' : loadAggregate s.platform.write.store o = .ok agg := hload
  rcases hgoes with hstatus | hstatus | hstatus
  · have hbegin : ∀ d, Command.begin s.platform.write.toShared d (.addItem o oneItem) =
        .append ⟨some agg, orderItemAddedEvent d.stamp o (agg.version + 1) oneItem.productId
          oneItem.productName oneItem.quantity oneItem.unitPrice⟩ := by
      intro d
      have hok := OrderAggregate.assertCanAddItem_eq_ok.mpr hstatus
      simp [Command.begin, hload', addItem, hok, orFailed, bind, Except.bind, pure, Except.pure]
    exact reviving_of_build hids hversion hc (fun _ => .orderItemAdded _) hbegin fun _ => trivial
  · have hbegin : ∀ d, Command.begin s.platform.write.toShared d (.processPayment o payment) =
        .charge agg := by
      intro d
      have hok := OrderAggregate.assertCanPay_eq_ok.mpr hstatus
      simp [Command.begin, hload', processPayment, hok, orFailed, bind, Except.bind, pure,
        Except.pure]
    have hcharge : charge payment.paymentId payment.amount payment.method =
        .success s!"TXN_{payment.paymentId}" := by
      rw [charge, if_neg (by decide +kernel)]
    refine .of_begin hbegin fun d t i _ hsub hstore hget hhistory => ?_
    refine reviving_of_charge hget rfl rfl hcharge (fun e he => hsub ?_) ?_ ?_
    · rw [hstore] at he
      exact hids e he
    · rw [hstore]
      exact hversion
    · rw [hhistory]
      exact hc
  · have hbegin : ∀ d, Command.begin s.platform.write.toShared d (.shipOrder o ⟨"", ""⟩) =
        .append ⟨some agg, orderShippedEvent d.stamp o (agg.version + 1) "" ""⟩ := by
      intro d
      have hok := OrderAggregate.assertCanShip_eq_ok.mpr hstatus
      simp [Command.begin, hload', shipOrder, hok, orFailed, bind, Except.bind, pure, Except.pure]
    exact reviving_of_build hids hversion hc (fun st => .orderShipped ⟨"", "", st.now⟩)
      hbegin fun _ => trivial

end Load

/-- A free claim on a cancelled order that is not for a cancellation revives it. -/
lemma reviving_of_slot (hs : s.RunInv) (hget : s.handlers[i]? = some h) {v : ℤ}
    (hslot : h.slot? = some (o, v)) (hcontinues : h.Continues) (hfree : v ∉ versions s.store o)
    (hc : CancelledIn s.history o) : Reviving partitioner s := by
  have hstored := hs.base.hist.stored
  rcases Handler.slot?_cases hslot with
    ⟨b, hpc, rfl, rfl⟩ | ⟨agg, req, ref, hpc, hcmd, hcharge, rfl⟩
  · have happends : s.platform.write.Appends i b := ⟨h, hget, hpc⟩
    refine reviving_of_append hget hpc (fun e he => (hs.ids.event i b happends).2 e (hstored he))
      hfree hc ?_
    cases htype : b.event.eventType with
    | orderCreated =>
        obtain ⟨e, he, ho, _⟩ := hc
        exact absurd ho (hs.ids.order i b happends htype e he)
    | orderDelivered =>
        have hno := hs.base.hist.noDelivery h (List.mem_of_getElem? hget) b (by rw [hpc]; rfl)
        rw [Event.eventType] at htype
        cases hp : b.event.payload <;> simp_all [Payload.eventType]
    | orderCancelled =>
        rw [Handler.Continues, hpc] at hcontinues
        exact absurd htype hcontinues
    | _ => trivial
  · have hids : ∀ e ∈ s.store, e.eventId ∈ s.platform.write.drawn := fun e he =>
      hs.ids.drawn e (hstored he)
    exact reviving_of_charge hget hpc hcmd hcharge hids hfree hc

/-- A cancelled order with events left that no longer keep its cancellation may be revived. -/
lemma reviving_of_left (hs : s.RunInv) (halive : NeverRevived s.history)
    (hc : CancelledIn s.history o) (hne : orderLog s.store o ≠ [])
    (hkeeps : ¬ KeepsCancelled (orderLog s.store o)) : Reviving partitioner s := by
  have hstored := hs.base.hist.stored
  obtain ⟨agg, hload, hshows⟩ := hs.base.keys.load hne
  have hnext : agg.version + 1 ∉ versions s.store o := by
    rintro ⟨d, hd, hv⟩
    obtain ⟨_, _, _, hmax⟩ := hshows.version
    have hle := hmax d hd
    omega
  refine reviving_of_load (fun e he => hs.ids.drawn e (hstored he)) hnext hc hload ?_
  cases hstatus : agg.status with
  | pending | confirmed | paid => simp
  | cancelled => exact absurd (hshows.keepsCancelled (hs.base.keys.nodup o) hstatus) hkeeps
  | shipped =>
      obtain ⟨e, he, hset, _⟩ := hshows.exists_status (by rw [hstatus]; decide)
      obtain ⟨hin, ho⟩ := mem_orderLog.mp he
      have htype := Payload.eventType_of_status.1 (hstatus ▸ hset)
      exact absurd halive (hs.exclusive o ⟨e, hstored hin, ho, htype⟩ hc)
  | delivered =>
      obtain ⟨e, he, hset, _⟩ := hshows.exists_status (by rw [hstatus]; decide)
      have htype := Payload.eventType_of_status.2.1 (hstatus ▸ hset)
      have hno := hs.base.hist.undelivered e (hstored (mem_orderLog.mp he).1)
      cases hp : e.payload <;> simp_all [Payload.eventType]

/-- **Every deletion outside the condition may be followed by a revival.** -/
theorem reviving_of_delete (hs : s.RunInv) {id : String} (hbad : ¬ LeavesCancelled s (.prune id))
    (h : s.step partitioner (.prune id) = some t) : Reviving partitioner t := by
  by_cases halive : NeverRevived t.history
  swap
  · exact ⟨[], t, rfl, halive⟩
  have ht := Retention.runInv_step hs h
  obtain ⟨e, hfind, ⟨date, hdate⟩, rfl⟩ := Retention.prune_cases h
  have hc : CancelledIn s.history e.aggregateId := hs.base.hist.flagged _ hdate
  have hnot : ¬ s.Deletable e := fun hdel =>
    hbad fun e' he' => Option.some.inj (hfind.symm.trans he') ▸ hdel
  rw [Retention.Deletable, not_and_or, not_or] at hnot
  rcases hnot with ⟨hne, hkeeps⟩ | hslots
  · exact reviving_of_left ht halive hc hne hkeeps
  · push Not at hslots
    obtain ⟨h, hmem, hslot, hcontinues⟩ := hslots
    obtain ⟨i, hget⟩ := List.mem_iff_getElem?.mp hmem
    have hfree := hs.base.keys.not_mem_delete (List.mem_of_find?_eq_some hfind)
    exact reviving_of_slot ht hget hslot hcontinues hfree hc

end Reviving

/-! ### The theorem -/

/-- **Pruning never revives a cancelled order** along the runs whose deletions meet the condition:
no event that continues an order was appended after its cancellation, and what is answered with
success was appended.  A deletion outside the condition, wherever it happens, may be followed by
moves after which one was. -/
theorem pruning_never_revives [Btree] {partitioner : String → ℕ} {partitions : ℕ} {rm : ReadModel}
    {as : List RetentionAction} {s : Retention}
    (hrun : run (Retention.step partitioner) (.init partitions rm) as = some s) :
    (Along (Retention.step partitioner) LeavesCancelled (.init partitions rm) as →
      NeverRevived s.history ∧ ∀ h ∈ s.handlers, ∀ b response, h.pc = .done (some b) response →
        b.event ∈ s.history) ∧
    ∀ a t, ¬ LeavesCancelled s a → s.step partitioner a = some t →
      ∃ bs u, run (Retention.step partitioner) t bs = some u ∧ ¬ NeverRevived u.history := by
  refine ⟨fun halong => ?_, fun a t hbad hstep => ?_⟩
  · have hs : RevivalInv s :=
      preserves_along (fun hs hC hstep => revivalInv_step hs hC hstep)
        (revivalInv_init partitions rm) halong hrun
    refine ⟨hs.alive, fun h hh b response hpc => hs.base.hist.inserted h hh b ?_ ?_⟩
    · rw [hpc]
      trivial
    · rw [hpc]
      rfl
  · have hs : s.RunInv := run_preserves (fun hs hstep => Retention.runInv_step hs hstep)
      (Retention.runInv_init partitions rm) hrun
    cases a with
    | prune id => exact reviving_of_delete hs hbad hstep
    | command _ | deliver _ | tick _ => exact absurd trivial hbad

/-! ### Orders whose time has passed -/

/-- An order is cancelled, the consumer handles its events, and 30 days pass. -/
def expiredRun : List RetentionAction :=
  cancelledRun.map PlatformAction.retained ++ [.tick retentionSeconds]

/-- An item for the order. -/
def addLater : List RetentionAction :=
  .command (.request (.addItem "order-0" oneItem)) :: (returns 2 11 5).map .command

/-- The creation is deleted before the cancellation, and the order is gone. -/
theorem expiredRun_neverRevived : ∃ s,
    run (Retention.step fun _ => 0) (.init 1 .empty)
      (expiredRun ++ [.prune "event-0", .prune "event-6"] ++ addLater.take 2) = some s ∧
    CancelledIn s.history "order-0" ∧ orderLog s.store "order-0" = [] ∧
    (s.handlers[2]?.map (·.pc)) =
      some (.failed none (.httpException 404 "Order order-0 not found")) ∧
    NeverRevived s.history ∧ ∀ h ∈ s.handlers, ∀ b response, h.pc = .done (some b) response →
      b.event ∈ s.history := by
  obtain ⟨s, hrun, hc, hnil, hpc⟩ := exists_run_of_eval
    (by decide +kernel : ((run (Retention.step fun _ => 0) (.init 1 .empty)
      (expiredRun ++ [.prune "event-0", .prune "event-6"] ++ addLater.take 2)).any fun s =>
        decide (CancelledIn s.history "order-0" ∧ orderLog s.store "order-0" = [] ∧
          (s.handlers[2]?.map (·.pc)) =
            some (.failed none (.httpException 404 "Order order-0 not found")))) = true)
  have halong : Along (Retention.step fun _ => 0) LeavesCancelled (.init 1 .empty)
      (expiredRun ++ [.prune "event-0", .prune "event-6"] ++ addLater.take 2) := by
    decide +kernel
  exact ⟨s, hrun, hc, hnil, hpc, (pruning_never_revives hrun).1 halong⟩

/-- **A revived order**: its cancellation is deleted before its creation, what is left of it rebuilds
to a pending order, and an item is added at the version of the cancellation. -/
theorem revived_order : ∃ s t,
    run (Retention.step fun _ => 0) (.init 1 .empty) (expiredRun ++ [.prune "event-6"]) = some s ∧
    CancelledIn s.history "order-0" ∧
    (orderLog s.store "order-0").map (·.eventType) = [.orderCreated] ∧
    run (Retention.step fun _ => 0) s addLater = some t ∧
    (t.handlers[2]?.bind fun h => h.pc.response?) =
      some ⟨"event-11", "order-0", 2, "Item Polish added"⟩ ∧
    t.history.map (·.eventType) = [.orderCreated, .orderCancelled, .orderItemAdded] ∧
    ¬ NeverRevived t.history := by
  obtain ⟨s, hrun, hc, hlog, hlater⟩ := exists_run_of_eval
    (by decide +kernel : ((run (Retention.step fun _ => 0) (.init 1 .empty)
      (expiredRun ++ [.prune "event-6"])).any fun s =>
        decide (CancelledIn s.history "order-0" ∧
          (orderLog s.store "order-0").map (·.eventType) = [.orderCreated] ∧
          (run (Retention.step fun _ => 0) s addLater).any fun t => decide
            ((t.handlers[2]?.bind fun h => h.pc.response?) =
                some ⟨"event-11", "order-0", 2, "Item Polish added"⟩ ∧
              t.history.map (·.eventType) = [.orderCreated, .orderCancelled, .orderItemAdded] ∧
              ¬ NeverRevived t.history))) = true)
  obtain ⟨t, hrun', hresponse, hhistory, hrevived⟩ := exists_run_of_eval hlater
  exact ⟨s, t, hrun, hc, hlog, hrun', hresponse, hhistory, hrevived⟩

end OrderCqrs
