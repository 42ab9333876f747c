import OrderCqrs.Command.Invariant

/-!
Per-order serializability of the command handlers.

* `serialStep`: the serial system, in which a command is one indivisible step that appends a legal
  event to the log of its order.
* `write_side_refines_serial`: **every interleaving of the handlers is a serial run**, the handlers
  refining the serial system through the stored logs.
* `SerializedOrder`, `perOrder_serializability`: what this means for one order in any reachable
  state, down to the aggregate each stored event was validated against and the fate of a handler
  whose snapshot is stale.
-/

namespace OrderCqrs

open Runs

/-! ### The serial system -/

open Classical in
/-- One command as an indivisible step: the log of an order grows by a legal event. -/
noncomputable def serialStep (logs : String → List Event) (e : Event) :
    Option (String → List Event) :=
  if LegalLog e.aggregateId (logs e.aggregateId ++ [e]) then
    some (Function.update logs e.aggregateId (logs e.aggregateId ++ [e]))
  else none

/-- The stored logs after an insert. -/
lemma orderLog_concat (store : List Event) (e : Event) :
    orderLog (store ++ [e]) =
      Function.update (orderLog store) e.aggregateId (orderLog store e.aggregateId ++ [e]) := by
  funext o
  by_cases ho : e.aggregateId = o
  · subst ho
    rw [Function.update_self, orderLog_concat_self rfl]
  · rw [Function.update_of_ne (Ne.symm ho), orderLog_concat_of_ne ho]

/-- **Refinement**: the stored logs of any reachable state are those of a serial run of legal
commands. -/
theorem write_side_refines_serial {s : State} {as : List Action}
    (h : run step State.init as = some s) :
    ∃ es, run serialStep (fun _ => []) es = some (orderLog s.store) := by
  have hsim : ∀ {s : State} {a : Action} {t : State} {logs : String → List Event},
      WriteInv s ∧ logs = orderLog s.store → step s a = some t →
      (WriteInv t ∧ logs = orderLog t.store) ∨
        ∃ e logs', serialStep logs e = some logs' ∧ WriteInv t ∧ logs' = orderLog t.store := by
    rintro s a t logs ⟨hs, rfl⟩ hstep
    have ht := writeInv_step hs hstep
    rcases store_step hstep with hstore | ⟨h, hmem, b, hpc, hfree, hstore⟩
    · exact Or.inl ⟨ht, by rw [hstore]⟩
    · refine Or.inr ⟨b.event, _, ?_, ht, rfl⟩
      rw [serialStep, if_pos (hs.legal_concat hmem hpc hfree), hstore, orderLog_concat]
  obtain ⟨es, logs, hes, _, rfl⟩ := run_simulates (R := fun s logs =>
    WriteInv s ∧ logs = orderLog s.store) hsim ⟨writeInv_init, rfl⟩ h
  exact ⟨es, hes⟩

/-! ### One order in a reachable state -/

/-- **What serializability means for an order `o` in a state `s`.** -/
structure SerializedOrder (s : State) (o : String) : Prop where
  /-- The stored versions are `1, …, n`. -/
  contiguous : (getEvents s.store o).map (·.aggregateVersion) =
    versionsUpTo (getEvents s.store o).length
  /-- The event at version 1 is the only `ORDER_CREATED`. -/
  created : ∀ e ∈ getEvents s.store o, e.eventType = .orderCreated ↔ e.aggregateVersion = 1
  /-- The event at version `k + 1` was validated against the rebuild of the events `1, …, k`. -/
  validated : ∀ k e, 0 < k → (getEvents s.store o)[k]? = some e →
    ∃ agg, rebuildFromEvents ((getEvents s.store o).take k) = .ok agg ∧
      (∃ h ∈ s.handlers, h.pc.built = some ⟨some agg, e⟩) ∧
      ∀ h ∈ s.handlers, ∀ b, h.pc.built = some b → b.event = e → b.agg = some agg
  /-- A handler whose snapshot is stale fails at its append and leaves the store unchanged. -/
  stale : ∀ (i : ℕ) (h : Handler) (b : Built) (agg : OrderAggregate),
    s.handlers[i]? = some h → h.pc = .append b → b.agg = some agg → b.event.aggregateId = o →
    rebuildFromEvents (getEvents s.store o) ≠ .ok agg →
    ∀ oc d t, step s (.await i oc d) = some t →
      t.store = s.store ∧ ∃ err, t.handlers[i]? = some { h with pc := .failed (some b) err } ∧
        (oc = .completes → err = versionConflict b.event)

/-- The aggregate a stored event was validated against. -/
lemma WriteInv.agg_of_stored {s : State} (hs : WriteInv s) {o : String} {k : ℕ} {e : Event}
    (hk : 0 < k) (he : (orderLog s.store o)[k]? = some e) {h : Handler} (hmem : h ∈ s.handlers)
    {b : Built} (hb : h.pc.built = some b) (hbe : b.event = e) :
    b.agg = some (replay o ((orderLog s.store o).take k)) := by
  have hin := mem_orderLog.mp (List.mem_of_getElem? he)
  have hlegal := (hs.legal o).resolve_left fun hnil => by simp [hnil] at he
  have hver := hlegal.version_getElem? he
  have hvalid := hs.valid h hmem b hb
  rw [Built.Valid] at hvalid
  cases hagg : b.agg with
  | none =>
      rw [hagg, hbe] at hvalid
      omega
  | some agg =>
      rw [hagg, hbe, hin.2] at hvalid
      obtain ⟨⟨j, hj, hle, rfl⟩, hvj, _⟩ := hvalid
      rw [hlegal.take_version hj hle] at hvj
      have hjk : j = k := by omega
      rw [hjk]

/-- **Per-order serializability**: in every state any number of handlers can reach, in any
interleaving and with any failures, every order is serialized. -/
theorem perOrder_serializability {s : State} {as : List Action}
    (hrun : run step State.init as = some s) (o : String) : SerializedOrder s o := by
  have hs := writeInv_run hrun
  rcases hs.legal o with hnil | hlegal
  · have hget : getEvents s.store o = [] := by simp [getEvents, hnil, sortByVersion]
    refine ⟨by simp [hget, versionsUpTo], by simp [hget], by simp [hget], ?_⟩
    intro i h b agg hi hpc hagg ho
    have hvalid := hs.valid h (List.mem_of_getElem? hi) b (by rw [hpc]; rfl)
    exact absurd (ho ▸ hnil) (hvalid.ne_nil hagg)
  · have hget := getEvents_eq_orderLog hlegal.versionSorted
    refine ⟨?_, ?_, ?_, ?_⟩
    · rw [hget]
      exact hlegal.versions_eq
    · rw [hget]
      exact fun e he => hlegal.eventType_eq_created_iff he
    · rw [hget]
      intro k e hk he
      refine ⟨_, (hlegal.take hk).rebuild_eq, ?_, fun h hmem b hb hbe =>
        hs.agg_of_stored hk he hmem hb hbe⟩
      obtain ⟨h, hmem, b, hb, hbe⟩ := hs.stored e (mem_orderLog.mp (List.mem_of_getElem? he)).1
      refine ⟨h, hmem, ?_⟩
      rw [hb, ← hs.agg_of_stored hk he hmem hb hbe, ← hbe]
    · intro i h b agg hi hpc hagg ho hstale oc d t hstep
      have hmem := List.mem_of_getElem? hi
      obtain ⟨_, h', sh, pc, hi', hmove, rfl⟩ := step_await hstep
      rw [hi, Option.some.injEq] at hi'
      subst hi'
      have hlt := (List.getElem?_eq_some_iff.mp hi).1
      cases hmove with
      | @insert _ b' _ hb' hfree _ =>
          -- an insert that goes through was validated against the whole log
          rw [hpc, Pc.append.injEq] at hb'
          subst hb'
          have hfull := (hs.eq_of_pending (hs.valid h hmem b (by rw [hpc]; rfl)) hagg hfree).2
          rw [ho] at hfull
          rw [hget, hlegal.rebuild_eq, hfull] at hstale
          exact absurd rfl hstale
      | @reject _ b' err hb' _ hconf _ =>
          rw [hpc, Pc.append.injEq] at hb'
          subst hb'
          exact ⟨rfl, err, by rw [List.getElem?_set_self hlt], hconf⟩
      | idle hb => simp [hpc, Pc.built] at hb
      | _ => simp_all

/-- A purchase of one item, for the concrete schedules. -/
def oneItem : AddItemRequest where
  productId := "prod-1"
  productName := "Polish"
  quantity := 1
  unitPrice := 450
  quantity_pos := by decide
  unitPrice_pos := by decide +kernel

/-- Two handlers load the same order before either of them appends. -/
def staleSchedule : List Action :=
  [.request (.createOrder ⟨"cust-1", "a@test.com", "key-1"⟩)] ++ returns 0 0 2 ++
    [.request (.addItem "order-0" oneItem), .request (.addItem "order-0" oneItem)] ++
    returns 1 2 1 ++ returns 2 3 1 ++ returns 1 4 1

theorem staleSchedule_serialized : ∃ s, run step State.init staleSchedule = some s ∧
    SerializedOrder s "order-0" := by
  obtain ⟨s, hrun⟩ := Option.isSome_iff_exists.mp
    (by decide +kernel : (run step State.init staleSchedule).isSome)
  exact ⟨s, hrun, perOrder_serializability hrun "order-0"⟩

end OrderCqrs
