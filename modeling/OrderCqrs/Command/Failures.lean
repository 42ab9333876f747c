import OrderCqrs.Command.Answers
import OrderCqrs.Command.Serializability

/-!
Why commands fail (`api/routers/command_router.py`, `api/services/event_store.py`,
`api/services/publisher.py`).

* `Cause`: the causes a failed handler can have had: its check, the gateway, a conflict, a call that
  raised, or the third attempt to publish.
* `failures_explained`: **every failure has its cause**: in particular a handler is refused for what
  was stored at some moment, and two handlers never fail on each other: a conflict means that
  another one has stored the version.
-/

namespace OrderCqrs

open Runs

/-- **Why the handler at `j` has failed.** -/
inductive Cause (s : State) (j : ℕ) (h : Handler) : Option Built → ApiError → Prop where
  /-- A call before the append has raised. -/
  | unavailable : Cause s j h none .serviceError
  /-- What was stored at some moment did not allow the command. -/
  | refused {earlier : List Event} {err : ApiError} : earlier <+: s.store →
      h.command.check earlier = .error err → Cause s j h none err
  /-- The gateway has declined the payment. -/
  | declined {o err : String} {req : ProcessPaymentRequest} : h.command = .processPayment o req →
      OrderCqrs.charge req.paymentId req.amount req.method = .failure err →
      Cause s j h none (.httpException 402 s!"Payment failed: {err}")
  /-- Another handler has stored this version of the order, and this one has stored nothing. -/
  | overtaken {b b' : Built} {k : ℕ} {g : Handler} : k ≠ j → s.handlers[k]? = some g →
      g.pc.built = some b' → b'.event ∈ s.store → b'.event.aggregateId = b.event.aggregateId →
      b'.event.aggregateVersion = b.event.aggregateVersion → b.event ∉ s.store →
      Cause s j h (some b) (versionConflict b.event)
  /-- The append, or the call after `publish`, has raised. -/
  | lost {b : Built} : Cause s j h (some b) .serviceError
  /-- Three attempts to publish have failed, and the event is stored. -/
  | unpublished {b : Built} : b.event ∈ s.store → Cause s j h (some b) .retryError

section Steps

variable {s t : State} {a : Action} {j : ℕ} {h : Handler} {bo : Option Built} {err : ApiError}

/-- Stored events stay at their place. -/
lemma store_isPrefix (hstep : step s a = some t) : s.store <+: t.store := by
  rcases store_step hstep with hstore | ⟨_, _, b, _, _, hstore⟩
  · rw [hstore]
  · rw [hstore]
    exact List.prefix_append _ _

/-- A cause remains one. -/
lemma Cause.step (hs : WriteInv s) (hget : s.handlers[j]? = some h) (hpc : h.pc = .failed bo err)
    (hcause : Cause s j h bo err) (hstep : OrderCqrs.step s a = some t) : Cause t j h bo err := by
  cases hcause with
  | unavailable => exact .unavailable
  | refused hearlier hcheck => exact .refused (hearlier.trans (store_isPrefix hstep)) hcheck
  | declined hcmd hcharge => exact .declined hcmd hcharge
  | @overtaken b _ _ _ hkj hk hb hst ho hv hnot =>
      obtain ⟨g', hg', _, hbuilt⟩ := handler_persists hstep hk
      have hend : h.pc.Ended := by rw [hpc]; trivial
      have hbh : h.pc.built = some b := by rw [hpc]; rfl
      exact .overtaken hkj hg' (hbuilt _ hb) (store_subset hstep hst) ho hv
        (unstored_persists hs hstep (List.mem_of_getElem? hget) hend hbh hnot)
  | lost => exact .lost
  | unpublished hst => exact .unpublished (store_subset hstep hst)

/-- The event that an append conflicts with is that of another handler. -/
lemma overtaken_of_duplicate (hs : WriteInv s) (hget : s.handlers[j]? = some h) {b : Built}
    (hpc : h.pc = .append b) (hdup : ∃ d ∈ s.store, DuplicateKey b.event d) :
    ∃ k g b', k ≠ j ∧ s.handlers[k]? = some g ∧ g.pc.built = some b' ∧ b'.event ∈ s.store ∧
      b'.event.aggregateId = b.event.aggregateId ∧
      b'.event.aggregateVersion = b.event.aggregateVersion ∧ b.event ∉ s.store := by
  obtain ⟨hfresh, _⟩ := hs.pending h (List.mem_of_getElem? hget) b hpc
  obtain ⟨d, hd, hkey⟩ := hdup
  obtain ⟨ho, hv⟩ := hkey.resolve_right (hfresh d hd)
  obtain ⟨g, hg, b', hb', rfl⟩ := hs.stored d hd
  obtain ⟨k, hk⟩ := List.mem_iff_getElem?.mp hg
  refine ⟨k, g, b', ?_, hk, hb', hd, ho, hv, fun hin => hfresh b.event hin rfl⟩
  rintro rfl
  obtain rfl := Option.some.inj (hget.symm.trans hk)
  rw [hpc] at hb'
  obtain rfl := Option.some.inj hb'
  exact hfresh _ hd rfl

/-- A call that ends a handler with an error gives it a cause. -/
lemma cause_of_await {i : ℕ} {oc : Outcome} {d : Draw} {sh : Shared} {pc : Pc} {drawn : List String}
    (hs : WriteInv s) (hget : s.handlers[i]? = some h)
    (hawait : h.await s.toShared d oc = some (sh, pc)) (hpc : pc = .failed bo err)
    (ht : t = { toShared := sh, drawn, handlers := s.handlers.set i { h with pc } }) :
    Cause t i { h with pc } bo err := by
  have hstore : t.store = sh.store := by rw [ht]
  cases bo with
  | none =>
      obtain ⟨hsame, hidle⟩ := await_idle hawait (by rw [hpc]; rfl)
      subst hpc
      cases hidle with
      | refused hcheck =>
          have hearlier : sh.store <+: t.store := by rw [hstore]
          exact .refused hearlier (hsame ▸ hcheck)
      | declined hcmd hcharge => exact .declined hcmd hcharge
      | interrupted => exact .unavailable
  | some b =>
      have hin := List.mem_of_getElem? hget
      cases await_move hawait with
      | idle _ _ hnone => simp [hpc, Pc.built] at hnone
      | insert _ _ hend =>
          rcases hend with ⟨_, rfl⟩ | ⟨_, rfl⟩
          · simp at hpc
          · obtain ⟨_, rfl⟩ := Pc.failed.inj hpc
            exact .lost
      | reject happ hwhy hconflict herror =>
          obtain ⟨hb, rfl⟩ := Pc.failed.inj hpc
          obtain rfl := Option.some.inj hb
          by_cases hoc : oc = .completes
          · rw [hconflict hoc]
            obtain ⟨k, g, b', hki, hk, hb', hst, ho, hv, hnot⟩ :=
              overtaken_of_duplicate hs hget happ (hwhy.resolve_left (by simp [hoc]))
            have hk' : t.handlers[k]? = some g := by
              rw [ht]
              exact (List.getElem?_set_ne (Ne.symm hki)).trans hk
            exact .overtaken hki hk' hb' (hstore ▸ hst) ho hv (hstore ▸ hnot)
          · rw [herror hoc]
            exact .lost
      | skip | mark =>
          rcases h.command.published_cases _ with heq | heq <;> rw [heq] at hpc <;> simp at hpc
      | giveUp hpub _ hn heff =>
          obtain ⟨hb, rfl⟩ := Pc.failed.inj hpc
          obtain rfl := Option.some.inj hb
          have hst := hs.stored_of_later hin (Or.inl ⟨_, _, hpub, hn⟩)
          exact .unpublished (hstore ▸ heff.store ▸ hst)
      | finish _ _ _ _ _ hend =>
          rcases hend with ⟨_, rfl⟩ | ⟨_, rfl⟩
          · simp at hpc
          · obtain ⟨_, rfl⟩ := Pc.failed.inj hpc
            exact .lost
      | _ => simp at hpc

end Steps

/-- Every failed handler has a cause. -/
def Explained (s : State) : Prop :=
  ∀ (j : ℕ) (h : Handler) (bo : Option Built) (err : ApiError), s.handlers[j]? = some h →
    h.pc = .failed bo err → Cause s j h bo err

lemma explained_step {s t : State} {a : Action} (hs : WriteInv s) (he : Explained s)
    (hstep : step s a = some t) : Explained t := by
  intro j h bo err hget hpc
  cases a with
  | request cmd =>
      have hold : s.handlers[j]? = some h := by
        obtain rfl := Option.some.inj hstep
        rcases ListTables.getElem?_concat_cases hget with hget | rfl
        · exact hget
        · simp at hpc
      exact (he j h bo err hold hpc).step hs hold hpc hstep
  | expire key =>
      have hold : s.handlers[j]? = some h := by
        obtain rfl := Option.some.inj hstep
        exact hget
      exact (he j h bo err hold hpc).step hs hold hpc hstep
  | await i oc d =>
      obtain ⟨_, g, sh, pc, hg, hawait, ht⟩ := step_await_eq hstep
      have hset : (s.handlers.set i { g with pc })[j]? = some h := by rw [ht] at hget; exact hget
      rcases getElem?_set_cases hset with ⟨rfl, rfl⟩ | ⟨_, hold⟩
      · exact cause_of_await hs hg hawait hpc ht
      · exact (he j h bo err hold hpc).step hs hold hpc hstep

/-- **Every failure has its cause**, in every reachable state: a handler that has failed was refused
for what was stored at some moment, declined by the gateway, overtaken by another handler that has
stored the version, or the victim of a call that raised; and one whose publish has failed has stored
its event. -/
theorem failures_explained {s : State} {as : List Action} (hrun : run step State.init as = some s)
    {j : ℕ} {h : Handler} {bo : Option Built} {err : ApiError} (hget : s.handlers[j]? = some h)
    (hpc : h.pc = .failed bo err) : Cause s j h bo err := by
  have hs : WriteInv s ∧ Explained s :=
    run_preserves (P := fun s => WriteInv s ∧ Explained s)
      (fun hs hstep => ⟨writeInv_step hs.1 hstep, explained_step hs.1 hs.2 hstep⟩)
      ⟨writeInv_init, by simp [Explained, State.init]⟩ hrun
  exact hs.2 j h bo err hget hpc

/-- The handler that has loaded first appends last. -/
def overtakenSchedule : List Action := staleSchedule ++ returns 2 5 1

theorem overtaken_explained : ∃ s b h, run step State.init overtakenSchedule = some s ∧
    s.handlers[2]? = some h ∧ h.pc = .failed (some b) (versionConflict b.event) ∧
    Cause s 2 h (some b) (versionConflict b.event) := by
  have heval : ((run step State.init overtakenSchedule).any fun s =>
      decide (∃ h ∈ s.handlers[2]?, ∃ b ∈ h.pc.built,
        h.pc = .failed (some b) (versionConflict b.event))) = true := by
    decide +kernel
  obtain ⟨s, hrun, h, hget, b, _, hpc⟩ := exists_run_of_eval heval
  exact ⟨s, b, h, hrun, hget, hpc, failures_explained hrun hget hpc⟩

end OrderCqrs
