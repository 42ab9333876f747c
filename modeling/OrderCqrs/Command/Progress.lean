import OrderCqrs.Command.Answers

/-!
That the command handlers come to an end (`api/routers/command_router.py`, and the retries of
`api/services/publisher.py`).

* `Handler.callsLeft`: how many calls a handler still awaits at most, whatever their outcomes;
  `await_callsLeft` is its decrease.
* `Handler.Placed`: a handler only stands where its command can go on.
* `requests_end`: **every request is answered**: after twelve calls at most, and no handler ever
  gets stuck.
* `CopiesInv`, `sent_at_most_thrice`: **an event is sent three times at most**, once in every
  attempt.
-/

namespace OrderCqrs

open Runs

/-! ### How far a handler is from its end -/

/-- The calls of an attempt of `publish` from this one on. -/
def PublishCall.left : PublishCall → ℕ
  | redisExists => 3
  | sendAndWait => 2
  | redisSetex => 1

/-- The calls of a handler after `publish`. -/
def Command.callsAfter : Command → ℕ
  | createOrder _ => 1
  | _ => 0

/-- The calls a handler still awaits at most. -/
def Handler.callsLeft (h : Handler) : ℕ :=
  match h.pc with
  | .start => 12
  | .latestVersion _ => 1
  | .charge _ => 11
  | .append _ => 10 + h.command.callsAfter
  | .publish _ n call => 3 * (3 - n) + call.left + h.command.callsAfter
  | .setex _ => 1
  | .done _ _ | .failed _ _ => 0

section Calls

variable {sh sh' : Shared} {d : Draw} {h : Handler} {pc : Pc} {oc : Outcome}

lemma Handler.callsLeft_pos : 0 < h.callsLeft ↔ ¬ h.pc.Ended := by
  rw [Handler.callsLeft]
  cases h.pc with
  | publish b n call => cases call <;> simp [PublishCall.left, Pc.Ended]
  | _ => simp [Pc.Ended]

/-- Behind `publish` a handler awaits the calls after it. -/
lemma callsLeft_published (b : Built) :
    Handler.callsLeft { h with pc := h.command.published b } = h.command.callsAfter := by
  cases hc : h.command <;> simp [Handler.callsLeft, Command.published, Command.callsAfter]

lemma Command.callsAfter_le (cmd : Command) : cmd.callsAfter ≤ 1 := by
  cases cmd <;> simp [Command.callsAfter]

/-- **Every call brings its handler nearer to its end**, however it ends itself. -/
lemma await_callsLeft (hstep : h.await sh d oc = some (sh', pc)) :
    Handler.callsLeft { h with pc } < h.callsLeft := by
  have hmove := await_move hstep
  have hlive : 0 < h.callsLeft := Handler.callsLeft_pos.mpr hmove.not_ended
  have hafter := h.command.callsAfter_le
  cases hmove with
  | idle _ _ hnone hnot =>
      cases (await_idle hstep hnone).2 with
      | found hpc => simp [Handler.callsLeft, hpc]
      | validated => exact absurd rfl (hnot _)
      | refused | served | declined | interrupted => exact hlive
  | toCharge hpc => simp [Handler.callsLeft, hpc]
  | create hpc | build hpc =>
      simp only [Handler.callsLeft, hpc]
      omega
  | charge hpc hcmd => simp [Handler.callsLeft, hpc, hcmd, Command.callsAfter]
  | insert hpc _ hpc' =>
      rcases hpc' with ⟨_, rfl⟩ | ⟨_, rfl⟩
      · simp [Handler.callsLeft, hpc, PublishCall.left]
      · exact hlive
  | reject | giveUp => exact hlive
  | skip hpc | mark hpc =>
      rw [callsLeft_published]
      simp [Handler.callsLeft, hpc, PublishCall.left]
  | proceed hpc | send hpc => simp [Handler.callsLeft, hpc, PublishCall.left]
  | @retry _ b n call _ hpc _ hn _ =>
      simp only [Handler.callsLeft, hpc]
      cases call <;> simp only [PublishCall.left] <;> omega
  | finish _ _ _ _ _ hpc' =>
      rcases hpc' with ⟨_, rfl⟩ | ⟨_, rfl⟩ <;> exact hlive

/-! ### No handler gets stuck -/

/-- The handler stands where its command can go on. -/
structure Handler.Placed (h : Handler) : Prop where
  charge : ∀ agg, h.pc = .charge agg → ∃ o req, h.command = .processPayment o req
  setex : ∀ b, h.pc = .setex b → ∃ req, h.command = .createOrder req

lemma Handler.Placed.of_not (hcharge : ∀ agg, h.pc ≠ .charge agg) (hsetex : ∀ b, h.pc ≠ .setex b) :
    h.Placed :=
  ⟨fun agg hpc => absurd hpc (hcharge agg), fun b hpc => absurd hpc (hsetex b)⟩

/-- Only `create_order` goes on after `publish`. -/
lemma placed_published (b : Built) : Handler.Placed { h with pc := h.command.published b } := by
  refine ⟨fun agg hpc => ?_, fun b' hpc => ?_⟩ <;> cases hc : h.command <;>
    simp_all [Command.published]

lemma Move.placed (hmove : Move sh d h oc sh' pc) : Handler.Placed { h with pc } := by
  cases hmove with
  | idle _ _ hnone hnot =>
      refine .of_not hnot fun b hpc => ?_
      obtain rfl : pc = .setex b := hpc
      simp [Pc.built] at hnone
  | toCharge _ hcmd => exact ⟨fun _ _ => ⟨_, _, hcmd⟩, by simp⟩
  | skip | mark => exact placed_published _
  | insert _ _ hpc' | finish _ _ _ _ _ hpc' =>
      rcases hpc' with ⟨_, rfl⟩ | ⟨_, rfl⟩ <;> exact .of_not (by simp) (by simp)
  | _ => exact .of_not (by simp) (by simp)

/-- The call of a handler that stands where its command can go on can complete. -/
lemma exists_complete (hplaced : h.Placed) (hlive : ¬ h.pc.Ended) (sh : Shared) (d : Draw) :
    (h.complete sh d).isSome := by
  rw [Handler.complete]
  cases hpc : h.pc with
  | start | latestVersion o => rfl
  | charge agg =>
      obtain ⟨o, req, hcmd⟩ := hplaced.charge agg hpc
      simp only [hcmd]
      split <;> rfl
  | append b =>
      simp only
      split <;> rfl
  | publish b n call =>
      cases call with
      | redisExists =>
          simp only
          split_ifs <;> rfl
      | sendAndWait | redisSetex => rfl
  | setex b =>
      obtain ⟨req, hcmd⟩ := hplaced.setex b hpc
      simp only [hcmd]
      rfl
  | done bo r | failed bo err => exact absurd (by rw [hpc]; trivial) hlive

end Calls

/-- All handlers stand where their commands can go on. -/
def State.Placed (s : State) : Prop := ∀ h ∈ s.handlers, h.Placed

section Runs

variable {s t : State} {a : Action} {as : List Action}

lemma placed_step (hs : s.Placed) (hstep : step s a = some t) : t.Placed := by
  intro h hh
  rcases mem_handlers_cases hstep hh with
    hold | hstart | ⟨i, oc, d, g, sh, pc, rfl, hget, hawait, _, rfl⟩
  · exact hs h hold
  · exact .of_not (by simp [hstart]) (by simp [hstart])
  · exact (await_move hawait).placed

/-- **No handler gets stuck**: the call of every handler that has not ended can complete. -/
lemma State.Placed.exists_step (hs : s.Placed) {i : ℕ} {h : Handler}
    (hget : s.handlers[i]? = some h) (hlive : ¬ h.pc.Ended) {d : Draw} (hfresh : d.Fresh s.drawn) :
    ∃ t, step s (.await i .completes d) = some t := by
  obtain ⟨⟨sh, pc⟩, hcomplete⟩ := Option.isSome_iff_exists.mp
    (exists_complete (hs h (List.mem_of_getElem? hget)) hlive s.toShared d)
  have hawait : h.await s.toShared d .completes = some (sh, pc) := hcomplete
  let t : State :=
    { toShared := sh
      drawn := d.orderId :: d.stamp.eventId :: s.drawn
      handlers := s.handlers.set i { h with pc } }
  exact ⟨t, by simp [step, hget, hawait, guard, hfresh, t]⟩

/-- The calls that all handlers together still await at most. -/
def State.callsLeft (s : State) : ℕ := (s.handlers.map Handler.callsLeft).sum

/-- An awaited call ends. -/
def Action.isCall : Action → Bool
  | .await _ _ _ => true
  | .request _ | .expire _ => false

/-- A request arrives. -/
def Action.isRequest : Action → Bool
  | .request _ => true
  | .await _ _ _ | .expire _ => false

/-- A call is paid for by the request of its handler. -/
lemma callsLeft_step (hstep : step s a = some t) :
    a.isCall.toNat + t.callsLeft ≤ 12 * a.isRequest.toNat + s.callsLeft := by
  cases a with
  | request cmd =>
      obtain rfl := Option.some.inj hstep
      simp [State.callsLeft, Action.isCall, Action.isRequest, Handler.callsLeft, Nat.add_comm]
  | expire key =>
      obtain rfl := Option.some.inj hstep
      exact le_rfl
  | await i oc d =>
      obtain ⟨_, h, sh, pc, hget, hawait, rfl⟩ := step_await_eq hstep
      have hlt := await_callsLeft hawait
      obtain ⟨before, after, hsplit, hset⟩ := ListTables.exists_split_set hget { h with pc }
      rw [State.callsLeft, State.callsLeft, hset, hsplit]
      simp only [Action.isCall, Action.isRequest, Bool.toNat_true, Bool.toNat_false,
        List.map_append, List.map_cons, List.sum_append, List.sum_cons]
      omega

end Runs

/-- **Every request is answered.**  However the calls of the handlers end and interleave, no request
takes more than twelve of them; the call of a handler that has not ended can always end; and from
every reachable state calls that end lead to one with no handler in flight. -/
theorem requests_end {s : State} {as : List Action} (hrun : run step State.init as = some s) :
    as.countP Action.isCall ≤ 12 * as.countP Action.isRequest ∧
      (∀ i h d, s.handlers[i]? = some h → ¬ h.pc.Ended → d.Fresh s.drawn →
        ∃ t, step s (.await i .completes d) = some t) ∧
      ∃ bs t, (∀ a ∈ bs, ∃ i d, a = .await i .completes d) ∧ run step s bs = some t ∧
        t.Quiescent := by
  have hplaced : s.Placed :=
    run_preserves (fun hs hstep => placed_step hs hstep) (by simp [State.Placed, State.init]) hrun
  refine ⟨?_, fun i h d hget hlive hfresh => hplaced.exists_step hget hlive hfresh, ?_⟩
  · have hcount := run_count_le (fun hstep => callsLeft_step hstep) hrun
    exact (Nat.le_add_right _ _).trans hcount
  · refine exists_run_to (P := State.Placed) State.callsLeft (fun {s} hs hnot => ?_) hplaced
    rw [State.Quiescent] at hnot
    push Not at hnot
    obtain ⟨h, hh, hlive⟩ := hnot
    obtain ⟨i, hget⟩ := List.mem_iff_getElem?.mp hh
    obtain ⟨d, hfresh⟩ := exists_fresh s.drawn
    obtain ⟨t, hstep⟩ := hs.exists_step hget hlive hfresh
    have hless := callsLeft_step hstep
    simp only [Action.isCall, Action.isRequest, Bool.toNat_true, Bool.toNat_false] at hless
    exact ⟨_, t, ⟨i, d, rfl⟩, hstep, placed_step hs hstep, by omega⟩

theorem paidSchedule_ends : ∃ s, run step State.init paidSchedule = some s ∧
    paidSchedule.countP Action.isCall ≤ 12 * paidSchedule.countP Action.isRequest ∧
    ∃ bs t, (∀ a ∈ bs, ∃ i d, a = .await i .completes d) ∧ run step s bs = some t ∧
      t.Quiescent := by
  obtain ⟨s, hrun⟩ := Option.isSome_iff_exists.mp
    (by decide +kernel : (run step State.init paidSchedule).isSome)
  obtain ⟨hle, _, hend⟩ := requests_end hrun
  exact ⟨s, hrun, hle, hend⟩

/-! ### How often an event is sent -/

/-- How often the event of a handler has been sent at most. -/
def Pc.sends : Pc → ℕ
  | start | latestVersion _ | charge _ | append _ => 0
  | publish _ n .redisExists | publish _ n .sendAndWait => n - 1
  | publish _ n .redisSetex => n
  | setex _ | done _ _ | failed _ _ => 3

/-- The attempts of `publish` are counted from one to three. -/
def Pc.Counted : Pc → Prop
  | publish _ n _ => 1 ≤ n ∧ n ≤ 3
  | _ => True

lemma Pc.Counted.sends_le {pc : Pc} (h : pc.Counted) : pc.sends ≤ 3 := by
  cases pc with
  | publish b n call =>
      obtain ⟨_, hle⟩ := h
      cases call <;> simp only [Pc.sends] <;> omega
  | _ => simp [Pc.sends]

/-- The records of an event in the topic. -/
def Shared.copies (sh : Shared) (eventId : String) : ℕ :=
  sh.topic.countP fun r => r.value.eventId = eventId

/-- **The invariant of the copies.** -/
structure CopiesInv (s : State) : Prop where
  write : WriteInv s
  topic : TopicInv s
  counted : ∀ h ∈ s.handlers, h.pc.Counted
  copies : ∀ h ∈ s.handlers, ∀ b, h.pc.built = some b → s.copies b.event.eventId ≤ h.pc.sends

section Copies

variable {s t : State} {a : Action} {sh sh' : Shared} {d : Draw} {h : Handler} {pc : Pc}
  {oc : Outcome}

lemma copiesInv_init : CopiesInv State.init where
  write := writeInv_init
  topic := topicInv_init
  counted := by simp [State.init]
  copies := by simp [State.init]

lemma Move.counted (hmove : Move sh d h oc sh' pc) (hold : h.pc.Counted) : pc.Counted := by
  cases hmove with
  | idle _ _ hnone =>
      cases pc with
      | publish b n call => simp [Pc.built] at hnone
      | _ => trivial
  | skip | mark => rcases h.command.published_cases _ with heq | heq <;> rw [heq] <;> trivial
  | proceed hpc | send hpc =>
      rw [hpc] at hold
      exact hold
  | retry _ _ hn => exact ⟨Nat.le_add_left 1 _, hn⟩
  | insert _ _ hpc' =>
      rcases hpc' with ⟨_, rfl⟩ | ⟨_, rfl⟩
      · exact ⟨le_rfl, by norm_num⟩
      · trivial
  | finish _ _ _ _ _ hpc' => rcases hpc' with ⟨_, rfl⟩ | ⟨_, rfl⟩ <;> trivial
  | _ => trivial

lemma sends_published (cmd : Command) (b : Built) : (cmd.published b).sends = 3 := by
  rcases cmd.published_cases b with heq | heq <;> rw [heq] <;> rfl

/-- **A call sends nothing, or the event of its handler**, and that is counted. -/
lemma Move.sends_le (hmove : Move sh d h oc sh' pc) (hold : h.pc.Counted) :
    sh'.topic = sh.topic ∧ h.pc.sends ≤ pc.sends ∨
      ∃ b, h.pc.built = some b ∧ sh'.topic = sh.topic ++ [recordOf b.event] ∧
        h.pc.sends + 1 ≤ pc.sends := by
  cases hmove with
  | idle hnone hlive =>
      refine Or.inl ⟨rfl, ?_⟩
      cases hpc : h.pc with
      | start | latestVersion o | charge agg => exact Nat.zero_le _
      | done bo r | failed bo err => exact absurd (by rw [hpc]; trivial) hlive
      | append b | publish b n call | setex b => simp [hpc, Pc.built] at hnone
  | toCharge hpc | create hpc | build hpc | charge hpc | insert hpc | reject hpc =>
      exact Or.inl ⟨rfl, by simp [hpc, Pc.sends]⟩
  | skip hpc | mark hpc =>
      rw [hpc] at hold
      obtain ⟨_, hle⟩ := hold
      rw [hpc, sends_published]
      exact Or.inl ⟨rfl, by simp only [Pc.sends]; omega⟩
  | proceed hpc => exact Or.inl ⟨rfl, by simp [hpc, Pc.sends]⟩
  | send hpc =>
      rw [hpc] at hold
      exact Or.inr ⟨_, by rw [hpc]; rfl, rfl, by rw [hpc]; exact (Nat.sub_add_cancel hold.1).le⟩
  | @retry _ b n call _ hpc _ _ heff | @giveUp _ b n call _ hpc _ _ heff =>
      rw [hpc] at hold ⊢
      obtain ⟨hpos, hle⟩ := hold
      rcases heff.topic with htopic | ⟨rfl, htopic⟩
      · refine Or.inl ⟨htopic, ?_⟩
        cases call <;> simp only [Pc.sends] <;> omega
      · exact Or.inr ⟨b, rfl, htopic, by simp only [Pc.sends]; omega⟩
  | finish hpc _ _ htopic _ hpc' =>
      refine Or.inl ⟨htopic, ?_⟩
      rcases hpc' with ⟨_, rfl⟩ | ⟨_, rfl⟩ <;> simp [hpc, Pc.sends]

/-- What a handler has just built it is about to append. -/
lemma Move.append_of_new (hmove : Move sh d h oc sh' pc) (hnone : h.pc.built = none) {b : Built}
    (hb : pc.built = some b) : pc = .append b := by
  cases hmove with
  | idle _ _ hnone' => simp [hnone'] at hb
  | toCharge => simp [Pc.built] at hb
  | create | build | charge => rw [Option.some.inj hb]
  | insert hpc | reject hpc | skip hpc | proceed hpc | send hpc | mark hpc | retry hpc
  | giveUp hpc | finish hpc => simp [hpc, Pc.built] at hnone

lemma copies_concat (sh : Shared) (e : Event) (id : String) :
    (sh.topic ++ [recordOf e]).countP (fun r => r.value.eventId = id) =
      sh.copies id + if e.eventId = id then 1 else 0 := by
  rw [List.countP_append, List.countP_singleton]
  by_cases hid : e.eventId = id <;> simp [Shared.copies, recordOf, hid]

lemma copiesInv_step (hs : CopiesInv s) (hstep : step s a = some t) : CopiesInv t where
  write := writeInv_step hs.write hstep
  topic := topicInv_step hs.write hs.topic hstep
  counted := by
    intro h hh
    rcases mem_handlers_cases hstep hh with
      hold | hstart | ⟨i, oc, d, g, sh, pc, rfl, hget, hawait, _, rfl⟩
    · exact hs.counted h hold
    · rw [hstart]
      trivial
    · exact (await_move hawait).counted (hs.counted g (List.mem_of_getElem? hget))
  copies := by
    have hw := writeInv_step hs.write hstep
    have ht := topicInv_step hs.write hs.topic hstep
    intro h hh b hb
    cases a with
    | request cmd =>
        obtain rfl := Option.some.inj hstep
        rcases mem_request hh with hold | hstart
        · exact hs.copies h hold b hb
        · simp [hstart, Pc.built] at hb
    | expire key =>
        obtain rfl := Option.some.inj hstep
        exact hs.copies h hh b hb
    | await i oc d =>
        obtain ⟨_, g, sh, pc, hget, hmove, rfl⟩ := step_await hstep
        have hin := List.mem_of_getElem? hget
        have hsends := hmove.sends_le (hs.counted g hin)
        obtain ⟨j, hj⟩ := List.mem_iff_getElem?.mp hh
        rcases getElem?_set_cases hj with ⟨rfl, rfl⟩ | ⟨hji, hold⟩
        · cases hbuilt : g.pc.built with
          | none =>
              -- a new event is not stored, so it is not sent
              have happend := (hw.pending _ hh b (hmove.append_of_new hbuilt hb)).1
              refine (List.countP_eq_zero.mpr fun r hr => ?_).trans_le (Nat.zero_le _)
              simpa using happend r.value (ht.stored r hr)
          | some b' =>
              obtain rfl : b' = b := Option.some.inj ((hmove.built_eq hbuilt).symm.trans hb)
              have hcopies := hs.copies g hin b' hbuilt
              rw [Shared.copies]
              rcases hsends with ⟨htopic, hle⟩ | ⟨c, hc, htopic, hlt⟩
              · rw [htopic]
                exact hcopies.trans hle
              · obtain rfl : c = b' := Option.some.inj (hc.symm.trans hbuilt)
                rw [htopic, copies_concat, if_pos rfl]
                exact (Nat.add_le_add_right hcopies 1).trans hlt
        · have hcopies := hs.copies h (List.mem_of_getElem? hold) b hb
          rw [Shared.copies]
          rcases hsends with ⟨htopic, _⟩ | ⟨c, hc, htopic, _⟩
          · rw [htopic]
            exact hcopies
          · have hne := (hs.write.distinct i j g h c b hget hold (Ne.symm hji) hc hb).1
            rw [htopic, copies_concat, if_neg hne]
            exact hcopies

end Copies

/-- **An event is sent at most three times**: whatever fails and however the handlers interleave,
the topic never holds more than three records with one event id. -/
theorem sent_at_most_thrice {s : State} {as : List Action} (hrun : run step State.init as = some s)
    (eventId : String) : s.copies eventId ≤ 3 := by
  have hs : CopiesInv s :=
    run_preserves (fun hs hstep => copiesInv_step hs hstep) copiesInv_init hrun
  by_cases hnone : ∃ r ∈ s.topic, r.value.eventId = eventId
  · obtain ⟨r, hr, rfl⟩ := hnone
    obtain ⟨h, hh, b, hb, heq⟩ := hs.write.stored r.value (hs.topic.stored r hr)
    rw [← heq]
    exact (hs.copies h hh b hb).trans (hs.counted h hh).sends_le
  · refine (List.countP_eq_zero.mpr fun r hr heq => hnone ⟨r, hr, ?_⟩).trans_le (Nat.zero_le _)
    simpa using heq

/-- The keys of all three attempts to publish are lost. -/
def threeCopiesSchedule : List Action :=
  [.request (.createOrder ⟨"cust-1", "a@test.com", "key-1"⟩)] ++ returns 0 0 4 ++
    [.await 0 .raises (.nth 4)] ++ returns 0 5 2 ++ [.await 0 .raises (.nth 7)] ++ returns 0 8 2 ++
    [.await 0 .raises (.nth 10)]

theorem threeCopies_sent : ∃ s, run step State.init threeCopiesSchedule = some s ∧ s.Quiescent ∧
    s.topic.map (·.value.eventId) = ["event-0", "event-0", "event-0"] ∧
    s.copies "event-0" ≤ 3 := by
  have heval : ((run step State.init threeCopiesSchedule).any fun s =>
      decide (s.Quiescent ∧
        s.topic.map (·.value.eventId) = ["event-0", "event-0", "event-0"])) = true := by
    decide +kernel
  obtain ⟨s, hrun, hend, htopic⟩ := exists_run_of_eval heval
  exact ⟨s, hrun, hend, htopic, sent_at_most_thrice hrun _⟩

end OrderCqrs
