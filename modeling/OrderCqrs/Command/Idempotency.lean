import Mathlib.Data.Fintype.EquivFin
import OrderCqrs.Command.Invariant
import OrderCqrs.Logic.Lists

/-!
The idempotency keys of `create_order`.

* `IdempotentCreation`: what a key promises: one stored creation, and one order id in every answer.
* `LookupAlone`: no request misses the key while another request with this key may have created its
  order, or has.
* `creation_idempotent`: **when creation is idempotent**: along every run that meets the condition,
  and no longer: as soon as a step violates it, some continuation breaks the promise.
* `double_creation`: two concurrent requests with one key create two orders.
-/

namespace OrderCqrs

open Runs ListTables

/-! ### What a key promises -/

/-- The idempotency key a command carries. -/
def Command.idempotencyKey? : Command → Option String
  | createOrder req => some req.idempotencyKey
  | _ => none

/-- The handler serves a creation under the key. -/
abbrev Handler.Creates (h : Handler) (key : String) : Prop := h.command.idempotencyKey? = some key

lemma Handler.Creates.command_eq {h : Handler} {key : String} (hk : h.Creates key) :
    ∃ req, h.command = .createOrder req ∧ req.idempotencyKey = key := by
  rw [Handler.Creates] at hk
  cases hc : h.command with
  | createOrder req =>
      rw [hc] at hk
      exact ⟨req, rfl, Option.some.inj hk⟩
  | _ => simp [hc, Command.idempotencyKey?] at hk

/-- The stored events that handlers have built for creations under the key. -/
def State.createdFor (s : State) (key : String) : List Event :=
  s.store.filter fun e =>
    ∃ h ∈ s.handlers, h.Creates key ∧ h.pc.built.map (·.event) = some e

lemma mem_createdFor {s : State} {key : String} {e : Event} :
    e ∈ s.createdFor key ↔ e ∈ s.store ∧
      ∃ h ∈ s.handlers, h.Creates key ∧ ∃ b, h.pc.built = some b ∧ b.event = e := by
  simp [State.createdFor, Option.map_eq_some_iff]

/-- **Creation under a key is idempotent.** -/
structure IdempotentCreation (s : State) (key : String) : Prop where
  /-- At most one creation is stored for the key. -/
  once : (s.createdFor key).length ≤ 1
  /-- All the requests that have succeeded return the same order. -/
  agree : ∀ h ∈ s.handlers, ∀ h' ∈ s.handlers, h.Creates key → h'.Creates key →
    ∀ b r b' r', h.pc = .done b r → h'.pc = .done b' r' → r.aggregateId = r'.aggregateId

/-- **No request misses the key while another with this key has created its order or still may.**
When the lookup of a creation finds no entry, every other request with the key that has gone past
its own lookup has ended without having stored its event. -/
def LookupAlone (key : String) (s : State) : Action → Prop
  | .await i .completes _ => ∀ h, s.handlers[i]? = some h → h.Creates key → h.pc = .start →
      s.idempotent.lookup key = none → ∀ h' ∈ s.handlers, h'.Creates key →
        ∀ b, h'.pc.built = some b → h'.pc.Ended ∧ b.event ∉ s.store
  | _ => True

deriving instance DecidableEq for Built, Pc

instance (key : String) (s : State) : (a : Action) → Decidable (LookupAlone key s a)
  | .await i .completes _ =>
      inferInstanceAs (Decidable (∀ h ∈ s.handlers[i]?, h.Creates key → h.pc = .start →
        s.idempotent.lookup key = none → ∀ h' ∈ s.handlers, h'.Creates key →
          ∀ b ∈ h'.pc.built, h'.pc.Ended ∧ b.event ∉ s.store))
  | .await _ .raises _ | .await _ .raisesAfterEffect _ | .request _ | .expire _ => .isTrue trivial

/-! ### The moves of a creation -/

/-- **The moves of a handler that serves a creation.** -/
inductive CreateMove (key : String) (sh : Shared) (d : Draw) (h : Handler) :
    Outcome → Shared → Pc → Prop where
  /-- The key is found. -/
  | hit {o : String} : h.pc = .start → sh.idempotent.lookup key = some o →
      CreateMove key sh d h .completes sh (.latestVersion o)
  /-- The key is not found: the event is built. -/
  | miss {b : Built} : h.pc = .start → sh.idempotent.lookup key = none → b.agg = none →
      CreateMove key sh d h .completes sh (.append b)
  /-- The order found is returned. -/
  | serve {o : String} {r : CommandResponse} : h.pc = .latestVersion o → r.aggregateId = o →
      CreateMove key sh d h .completes sh (.done none r)
  /-- The handler fails before it has built its event. -/
  | fail {oc : Outcome} {err : ApiError} : h.pc.built = none → oc ≠ .completes →
      CreateMove key sh d h oc sh (.failed none err)
  /-- The handler goes on with its event, or fails. -/
  | goOn {oc : Outcome} {b : Built} {sh' : Shared} {pc : Pc} : h.pc.built = some b →
      ¬ h.pc.Ended → pc.built = some b → (∀ b' r, pc ≠ .done b' r) →
      sh'.idempotent = sh.idempotent → CreateMove key sh d h oc sh' pc
  /-- The key is recorded; the acknowledgement may be lost. -/
  | record {oc : Outcome} {b : Built} {sh' : Shared} {pc : Pc} : h.pc = .setex b →
      pc.built = some b → pc.Ended →
      (∀ b' r, pc = .done b' r → r.aggregateId = b.event.aggregateId) →
      sh'.idempotent = (key, b.event.aggregateId) :: sh.idempotent →
      CreateMove key sh d h oc sh' pc

section Inversion

variable {sh sh' : Shared} {d : Draw} {h : Handler} {pc : Pc} {oc : Outcome} {key : String}

/-- A call of a creation that returns. -/
lemma complete_createMove (hk : h.Creates key) (hstep : h.complete sh d = some (sh', pc)) :
    CreateMove key sh d h .completes sh' pc := by
  obtain ⟨req, hc, rfl⟩ := hk.command_eq
  rw [Handler.complete] at hstep
  cases hpc : h.pc with
  | start =>
      simp only [hpc, hc, Command.begin, Option.some.injEq, Prod.mk.injEq] at hstep
      obtain ⟨rfl, rfl⟩ := hstep
      cases hl : sh.idempotent.lookup req.idempotencyKey with
      | some o => exact .hit hpc hl
      | none => exact .miss hpc hl rfl
  | latestVersion o =>
      simp only [hpc, Option.some.injEq, Prod.mk.injEq] at hstep
      obtain ⟨rfl, rfl⟩ := hstep
      exact .serve hpc rfl
  | charge agg => simp [hpc, hc] at hstep
  | append b =>
      simp only [hpc] at hstep
      cases happ : EventStore.append sh.store b.event with
      | ok store | error err =>
          simp only [happ, Option.some.injEq, Prod.mk.injEq] at hstep
          obtain ⟨rfl, rfl⟩ := hstep
          exact .goOn (by rw [hpc]; rfl) (by rw [hpc]; exact id) rfl (by simp) rfl
  | publish b n call =>
      have hgoOn : ∀ {sh₁ : Shared} {pc₁ : Pc}, pc₁.built = some b →
          (∀ b' r, pc₁ ≠ .done b' r) → sh₁.idempotent = sh.idempotent →
          CreateMove req.idempotencyKey sh d h .completes sh₁ pc₁ := fun hb hdone hidem =>
        .goOn (by rw [hpc]; rfl) (by rw [hpc]; exact id) hb hdone hidem
      cases call with
      | redisExists =>
          simp only [hpc, hc, Command.published] at hstep
          split_ifs at hstep
          all_goals
            simp only [Option.some.injEq, Prod.mk.injEq] at hstep
            obtain ⟨rfl, rfl⟩ := hstep
            exact hgoOn rfl (by simp) rfl
      | sendAndWait | redisSetex =>
          simp only [hpc, hc, Command.published, Option.some.injEq, Prod.mk.injEq] at hstep
          obtain ⟨rfl, rfl⟩ := hstep
          exact hgoOn rfl (by simp) rfl
  | setex b =>
      simp only [hpc, hc, Option.some.injEq, Prod.mk.injEq] at hstep
      obtain ⟨rfl, rfl⟩ := hstep
      refine .record hpc rfl trivial (fun b' r hr => ?_) rfl
      rw [Pc.done.injEq] at hr
      rw [← hr.2]
      rfl
  | done b r | failed b err => simp [hpc] at hstep

/-- A call of a creation that raises, `sh'` being what it has left of its effect. -/
lemma interrupt_createMove (hoc : oc ≠ .completes) (hint : h.interrupt = some pc)
    (heff : sh' = sh ∨ ∃ pc', CreateMove key sh d h .completes sh' pc') :
    CreateMove key sh d h oc sh' pc := by
  -- until the key is recorded, what is left of the effect does not concern it
  have hkeep : (∀ b, h.pc ≠ .setex b) → sh'.idempotent = sh.idempotent := by
    intro hset
    rcases heff with rfl | ⟨pc', hm⟩
    · rfl
    · cases hm with
      | goOn _ _ _ _ hidem => exact hidem
      | record hpc => exact absurd hpc (hset _)
      | _ => rfl
  have hsame : h.pc.built = none → sh' = sh := by
    intro hnone
    rcases heff with rfl | ⟨pc', hm⟩
    · rfl
    · cases hm with
      | goOn hb => simp [hnone] at hb
      | record hpc => simp [hpc, Pc.built] at hnone
      | _ => rfl
  rw [Handler.interrupt] at hint
  cases hpc : h.pc with
  | start | latestVersion o =>
      simp only [hpc, Option.some.injEq] at hint
      subst hint
      rw [hsame (by rw [hpc]; rfl)]
      exact .fail (by rw [hpc]; rfl) hoc
  | append b =>
      simp only [hpc, Option.some.injEq] at hint
      subst hint
      exact .goOn (by rw [hpc]; rfl) (by rw [hpc]; exact id) rfl (by simp)
        (hkeep (by simp [hpc]))
  | publish b n call =>
      simp only [hpc, Option.some.injEq] at hint
      subst hint
      refine .goOn (b := b) (by rw [hpc]; rfl) (by rw [hpc]; exact id) ?_ ?_
        (hkeep (by simp [hpc])) <;> split_ifs <;> simp [Pc.built]
  | setex b =>
      simp only [hpc, Option.some.injEq] at hint
      subst hint
      rcases heff with rfl | ⟨pc', hm⟩
      · exact .goOn (by rw [hpc]; rfl) (by rw [hpc]; exact id) rfl (by simp) rfl
      · cases hm with
        | goOn _ _ _ _ hidem =>
            exact .goOn (by rw [hpc]; rfl) (by rw [hpc]; exact id) rfl (by simp) hidem
        | record hpc' _ _ _ hidem =>
            obtain rfl := Pc.setex.inj (hpc.symm.trans hpc')
            exact .record hpc rfl trivial (by simp) hidem
        | _ => simp_all [Pc.built]
  | charge agg | done b r | failed b err => simp [hpc] at hint

/-- **The inversion of a creation's step.** -/
lemma await_createMove (hk : h.Creates key) (hstep : h.await sh d oc = some (sh', pc)) :
    CreateMove key sh d h oc sh' pc := by
  cases oc with
  | completes => exact complete_createMove hk hstep
  | raises =>
      rw [Handler.await, Option.map_eq_some_iff] at hstep
      obtain ⟨pc', hint, heq⟩ := hstep
      obtain ⟨rfl, rfl⟩ := Prod.mk.inj heq
      exact interrupt_createMove (by simp) hint (Or.inl rfl)
  | raisesAfterEffect =>
      simp only [Handler.await, Option.bind_eq_bind, Option.bind_eq_some_iff] at hstep
      obtain ⟨⟨sh₁, pc₁⟩, hcomp, pc₂, hint, heq⟩ := hstep
      obtain ⟨rfl, rfl⟩ := Prod.mk.inj (Option.some.inj heq)
      exact interrupt_createMove (by simp) hint (Or.inr ⟨pc₁, complete_createMove hk hcomp⟩)

/-- The other handlers leave the keys alone. -/
lemma complete_idempotent (hk : h.command.idempotencyKey? = none)
    (hstep : h.complete sh d = some (sh', pc)) : sh'.idempotent = sh.idempotent := by
  rw [Handler.complete] at hstep
  cases hpc : h.pc with
  | charge agg =>
      simp only [hpc] at hstep
      split at hstep
      · split at hstep <;> obtain ⟨rfl, _⟩ := Prod.mk.inj (Option.some.inj hstep) <;> rfl
      · simp at hstep
  | append b =>
      simp only [hpc] at hstep
      split at hstep <;> obtain ⟨rfl, _⟩ := Prod.mk.inj (Option.some.inj hstep) <;> rfl
  | publish b n call =>
      cases call with
      | redisExists =>
          simp only [hpc] at hstep
          split_ifs at hstep <;> obtain ⟨rfl, _⟩ := Prod.mk.inj (Option.some.inj hstep) <;> rfl
      | sendAndWait | redisSetex =>
          simp only [hpc, Option.some.injEq, Prod.mk.injEq] at hstep
          rw [← hstep.1]
  | setex b =>
      simp only [hpc] at hstep
      split at hstep
      · rename_i req hc
        simp [hc, Command.idempotencyKey?] at hk
      · simp at hstep
  | start | latestVersion o =>
      simp only [hpc, Option.some.injEq, Prod.mk.injEq] at hstep
      rw [← hstep.1]
  | done b r | failed b err => simp [hpc] at hstep

lemma await_idempotent (hk : h.command.idempotencyKey? = none)
    (hstep : h.await sh d oc = some (sh', pc)) : sh'.idempotent = sh.idempotent := by
  cases oc with
  | completes => exact complete_idempotent hk hstep
  | raises =>
      rw [Handler.await, Option.map_eq_some_iff] at hstep
      obtain ⟨_, _, heq⟩ := hstep
      rw [(Prod.mk.inj heq).1]
  | raisesAfterEffect =>
      simp only [Handler.await, Option.bind_eq_bind, Option.bind_eq_some_iff] at hstep
      obtain ⟨⟨sh₁, pc₁⟩, hcomp, _, _, heq⟩ := hstep
      rw [← (Prod.mk.inj (Option.some.inj heq)).1]
      exact complete_idempotent hk hcomp

end Inversion

/-! ### The creations of a key over a step -/

/-- The handler has built the event, and stored it if it has ended. -/
def Handler.Live (s : State) (h : Handler) (b : Built) : Prop :=
  h.pc.built = some b ∧ (h.pc.Ended → b.event ∈ s.store)

/-- The order is the one a stored creation under the key has made. -/
def State.Owner (s : State) (key o : String) : Prop :=
  ∃ h ∈ s.handlers, h.Creates key ∧
    ∃ b, h.pc.built = some b ∧ b.event ∈ s.store ∧ b.event.aggregateId = o

section Steps

variable {s t : State} {a : Action} {key : String}

/-- What a handler has built it keeps. -/
lemma Move.built_eq {sh sh' : Shared} {d : Draw} {h : Handler} {oc : Outcome} {pc : Pc} {b : Built}
    (hmove : Move sh d h oc sh' pc) (hb : h.pc.built = some b) : pc.built = some b := by
  cases hmove with
  | idle hnone => simp [hnone] at hb
  | skip hpc | mark hpc =>
      rw [← hb, hpc]
      rcases h.command.published_cases _ with heq | heq <;> rw [heq] <;> rfl
  | insert hpc _ hpc' =>
      rw [← hb, hpc]
      rcases hpc' with ⟨_, rfl⟩ | ⟨_, rfl⟩ <;> rfl
  | finish hpc _ _ _ _ hpc' =>
      rw [← hb, hpc]
      rcases hpc' with ⟨_, rfl⟩ | ⟨_, rfl⟩ <;> rfl
  | toCharge hpc | create hpc | build hpc | charge hpc => simp [hpc, Pc.built] at hb
  | reject hpc | proceed hpc | send hpc | retry hpc | giveUp hpc =>
      rw [← hb, hpc]
      rfl

/-- A handler stays, with its command and what it has built. -/
lemma handler_persists (hstep : step s a = some t) {j : ℕ} {h : Handler}
    (hget : s.handlers[j]? = some h) :
    ∃ h', t.handlers[j]? = some h' ∧ h'.command = h.command ∧
      ∀ b, h.pc.built = some b → h'.pc.built = some b := by
  cases a with
  | request cmd =>
      obtain rfl := Option.some.inj hstep
      refine ⟨h, ?_, rfl, fun b hb => hb⟩
      rw [List.getElem?_append_left (List.getElem?_eq_some_iff.mp hget).1]
      exact hget
  | expire k =>
      obtain rfl := Option.some.inj hstep
      exact ⟨h, hget, rfl, fun b hb => hb⟩
  | await i oc d =>
      obtain ⟨_, h₁, sh, pc, hget₁, hmove, rfl⟩ := step_await hstep
      by_cases hij : i = j
      · subst hij
        obtain rfl := Option.some.inj (hget.symm.trans hget₁)
        exact ⟨{ h with pc }, List.getElem?_set_self (List.getElem?_eq_some_iff.mp hget).1, rfl,
          fun b hb => hmove.built_eq hb⟩
      · exact ⟨h, by rw [List.getElem?_set_ne hij]; exact hget, rfl, fun b hb => hb⟩

lemma owner_persists (hstep : step s a = some t) {o : String} (ho : s.Owner key o) :
    t.Owner key o := by
  obtain ⟨h, hmem, hk, b, hb, hstored, hagg⟩ := ho
  obtain ⟨j, hj⟩ := List.mem_iff_getElem?.mp hmem
  obtain ⟨h', hget', hcmd, hbuilt⟩ := handler_persists hstep hj
  exact ⟨h', List.mem_of_getElem? hget', by rw [Handler.Creates, hcmd]; exact hk, b, hbuilt b hb,
    store_subset hstep hstored, hagg⟩

/-- A live creation was live before the step, or its lookup has just missed. -/
lemma live_cases (hs : WriteInv s) (hstep : step s a = some t) {j : ℕ} {h' : Handler} {b : Built}
    (hget : t.handlers[j]? = some h') (hk : h'.Creates key) (hlive : h'.Live t b) :
    (∃ h, s.handlers[j]? = some h ∧ h.Creates key ∧ h.Live s b) ∨
      ∃ d h, a = .await j .completes d ∧ s.handlers[j]? = some h ∧ h.Creates key ∧
        h.pc = .start ∧ s.idempotent.lookup key = none := by
  -- a handler the step leaves alone has not stored its event in this step either
  have hsame : s.handlers[j]? = some h' →
      ∃ h, s.handlers[j]? = some h ∧ h.Creates key ∧ h.Live s b := fun hget' =>
    ⟨h', hget', hk, hlive.1, fun hend => by
      by_contra hnot
      exact unstored_persists hs hstep (List.mem_of_getElem? hget') hend hlive.1 hnot
        (hlive.2 hend)⟩
  cases a with
  | request cmd =>
      obtain rfl := Option.some.inj hstep
      refine Or.inl (hsame ?_)
      rw [List.getElem?_append] at hget
      split_ifs at hget with hlt
      · exact hget
      · obtain rfl := List.mem_singleton.mp (List.mem_of_getElem? hget)
        simp [Handler.Live, Pc.built] at hlive
  | expire k =>
      obtain rfl := Option.some.inj hstep
      exact Or.inl (hsame hget)
  | await i oc d =>
      obtain ⟨_, h, sh, pc, hget₁, hawait, rfl⟩ := step_await_eq hstep
      rcases getElem?_set_cases hget with ⟨rfl, rfl⟩ | ⟨hji, hget'⟩
      · have hbefore : h.pc.built = some b →
            ∃ h, s.handlers[j]? = some h ∧ h.Creates key ∧ h.Live s b := fun hb =>
          ⟨h, hget₁, hk, hb, fun hend => absurd hend (await_move hawait).not_ended⟩
        have hb := hlive.1
        cases await_createMove (h := h) hk hawait with
        | hit => simp [Pc.built] at hb
        | miss hpc hl => exact Or.inr ⟨d, h, rfl, hget₁, hk, hpc, hl⟩
        | serve => simp [Pc.built] at hb
        | fail => simp [Pc.built] at hb
        | goOn hb₁ _ hb₂ =>
            rw [hb₂] at hb
            exact Or.inl (hbefore (hb₁.trans hb))
        | record hpc hb₂ =>
            rw [hb₂] at hb
            exact Or.inl (hbefore (by rw [hpc]; exact hb))
      · exact Or.inl (hsame hget')

/-- A recorded key was recorded before the step, or names the order of a stored creation. -/
lemma recorded_cases (hs : WriteInv s) (hstep : step s a = some t) {o : String}
    (hmem : (key, o) ∈ t.idempotent) : (key, o) ∈ s.idempotent ∨ s.Owner key o := by
  cases a with
  | request cmd =>
      obtain rfl := Option.some.inj hstep
      exact Or.inl hmem
  | expire k =>
      obtain rfl := Option.some.inj hstep
      exact Or.inl (List.mem_filter.mp hmem).1
  | await i oc d =>
      obtain ⟨_, h, sh, pc, hget, hawait, rfl⟩ := step_await_eq hstep
      replace hmem : (key, o) ∈ sh.idempotent := hmem
      cases hkey : h.command.idempotencyKey? with
      | none =>
          rw [await_idempotent hkey hawait] at hmem
          exact Or.inl hmem
      | some k =>
          have hcreates : h.Creates k := hkey
          cases await_createMove hcreates hawait with
          | goOn _ _ _ _ hidem =>
              rw [hidem] at hmem
              exact Or.inl hmem
          | @record _ b _ _ hpc _ _ _ hidem =>
              rw [hidem, List.mem_cons, Prod.mk.injEq] at hmem
              rcases hmem with ⟨rfl, rfl⟩ | hmem
              · have hin := List.mem_of_getElem? hget
                have hb : h.pc.built = some b := by rw [hpc]; rfl
                exact Or.inr ⟨h, hin, hkey, b, hb,
                  hs.inserted h hin b (by simp [hpc, Pc.Inserted]) hb, rfl⟩
              · exact Or.inl hmem
          | _ => exact Or.inl hmem

/-- An order about to be served was found under the key. -/
lemma served_cases (hstep : step s a = some t) {h' : Handler} {o : String}
    (hmem : h' ∈ t.handlers) (hk : h'.Creates key) (hpc : h'.pc = .latestVersion o) :
    h' ∈ s.handlers ∨ (key, o) ∈ s.idempotent := by
  rcases mem_handlers_cases hstep hmem with
    hold | hstart | ⟨i, oc, d, h, sh, pc, rfl, hget, hawait, _, rfl⟩
  · exact Or.inl hold
  · simp [hstart] at hpc
  · replace hpc : pc = .latestVersion o := hpc
    cases await_createMove (h := h) hk hawait with
    | hit _ hl =>
        obtain rfl := Pc.latestVersion.inj hpc
        obtain ⟨l₁, l₂, heq, _⟩ := List.lookup_eq_some_iff.mp hl
        exact Or.inr (by rw [heq]; simp)
    | goOn _ _ hb | record _ hb => simp [hpc, Pc.built] at hb
    | _ => simp at hpc

/-- An answered request was answered before the step, or names the order it has found or the one it
has stored. -/
lemma answered_cases (hs : WriteInv s) (hstep : step s a = some t) {h' : Handler}
    {bo : Option Built} {r : CommandResponse} (hmem : h' ∈ t.handlers) (hk : h'.Creates key)
    (hpc : h'.pc = .done bo r) :
    h' ∈ s.handlers ∨ (∃ h ∈ s.handlers, h.Creates key ∧ h.pc = .latestVersion r.aggregateId) ∨
      s.Owner key r.aggregateId := by
  rcases mem_handlers_cases hstep hmem with
    hold | hstart | ⟨i, oc, d, h, sh, pc, rfl, hget, hawait, _, rfl⟩
  · exact Or.inl hold
  · simp [hstart] at hpc
  · have hin := List.mem_of_getElem? hget
    replace hpc : pc = .done bo r := hpc
    cases await_createMove (h := h) hk hawait with
    | serve hpc₁ hagg =>
        obtain ⟨_, rfl⟩ := Pc.done.inj hpc
        exact Or.inr (Or.inl ⟨h, hin, hk, by rw [hpc₁, hagg]⟩)
    | goOn _ _ _ hdone => exact absurd hpc (hdone bo r)
    | @record _ b _ _ hpc₁ _ _ hagg =>
        have hb : h.pc.built = some b := by rw [hpc₁]; rfl
        exact Or.inr (Or.inr ⟨h, hin, hk, b, hb,
          hs.inserted h hin b (by simp [hpc₁, Pc.Inserted]) hb, (hagg bo r hpc).symm⟩)
    | _ => simp at hpc

end Steps

/-! ### The invariant of a key -/

/-- **The invariant of a key** whose lookups were all alone. -/
structure CreationInv (key : String) (s : State) : Prop where
  /-- The invariant of the write side. -/
  write : WriteInv s
  /-- At most one creation under the key is live. -/
  alone : ∀ (i j : ℕ) (h h' : Handler) (b b' : Built), s.handlers[i]? = some h →
    s.handlers[j]? = some h' → h.Creates key → h'.Creates key → h.Live s b → h'.Live s b' → i = j
  /-- The key is recorded for the order of a stored creation. -/
  recorded : ∀ o, (key, o) ∈ s.idempotent → s.Owner key o
  /-- What is read under the key is the order of a stored creation. -/
  served : ∀ h ∈ s.handlers, h.Creates key → ∀ o, h.pc = .latestVersion o → s.Owner key o
  /-- What is answered is the order of a stored creation. -/
  answered : ∀ h ∈ s.handlers, h.Creates key → ∀ b r, h.pc = .done b r →
    s.Owner key r.aggregateId

namespace CreationInv

variable {s t : State} {a : Action} {key : String}

lemma init : CreationInv key State.init where
  write := writeInv_init
  alone := by simp [State.init]
  recorded := by simp [State.init]
  served := by simp [State.init]
  answered := by simp [State.init]

/-- A step that meets the condition keeps the invariant. -/
theorem step (hs : CreationInv key s) (hC : LookupAlone key s a)
    (hstep : OrderCqrs.step s a = some t) : CreationInv key t where
  write := writeInv_step hs.write hstep
  alone := by
    -- the lookup that has just missed was alone
    have hmiss : ∀ {i j : ℕ} {d : Draw} {h h' : Handler} {b : Built},
        a = .await i .completes d → s.handlers[i]? = some h → h.Creates key → h.pc = .start →
        s.idempotent.lookup key = none → s.handlers[j]? = some h' → h'.Creates key →
        h'.Live s b → False := by
      rintro i j d h h' b rfl hget hk hpc hl hget' hk' hlive
      obtain ⟨hend, hnot⟩ :=
        hC h hget hk hpc hl h' (List.mem_of_getElem? hget') hk' b hlive.1
      exact hnot (hlive.2 hend)
    intro i j h h' b b' hi hj hk hk' hlive hlive'
    rcases live_cases hs.write hstep hi hk hlive with
      ⟨h₁, hi₁, hk₁, hlive₁⟩ | ⟨d₁, h₁, ha₁, hi₁, hk₁, hpc₁, hl₁⟩
    · rcases live_cases hs.write hstep hj hk' hlive' with
        ⟨h₂, hj₂, hk₂, hlive₂⟩ | ⟨d₂, h₂, ha₂, hj₂, hk₂, hpc₂, hl₂⟩
      · exact hs.alone i j h₁ h₂ b b' hi₁ hj₂ hk₁ hk₂ hlive₁ hlive₂
      · exact (hmiss ha₂ hj₂ hk₂ hpc₂ hl₂ hi₁ hk₁ hlive₁).elim
    · rcases live_cases hs.write hstep hj hk' hlive' with
        ⟨h₂, hj₂, hk₂, hlive₂⟩ | ⟨d₂, h₂, ha₂, _⟩
      · exact (hmiss ha₁ hi₁ hk₁ hpc₁ hl₁ hj₂ hk₂ hlive₂).elim
      · rw [ha₁, Action.await.injEq] at ha₂
        exact ha₂.1
  recorded := by
    intro o ho
    rcases recorded_cases hs.write hstep ho with ho | ho
    · exact owner_persists hstep (hs.recorded o ho)
    · exact owner_persists hstep ho
  served := by
    intro h hmem hk o hpc
    rcases served_cases hstep hmem hk hpc with hmem | ho
    · exact owner_persists hstep (hs.served h hmem hk o hpc)
    · exact owner_persists hstep (hs.recorded o ho)
  answered := by
    intro h hmem hk b r hpc
    rcases answered_cases hs.write hstep hmem hk hpc with hmem | ⟨h', hmem, hk', hpc'⟩ | ho
    · exact owner_persists hstep (hs.answered h hmem hk b r hpc)
    · exact owner_persists hstep (hs.served h' hmem hk' _ hpc')
    · exact owner_persists hstep ho

/-- Two stored creations under the key are one. -/
lemma eq_of_stored (hs : CreationInv key s) {h h' : Handler} {b b' : Built}
    (hmem : h ∈ s.handlers) (hmem' : h' ∈ s.handlers) (hk : h.Creates key) (hk' : h'.Creates key)
    (hb : h.pc.built = some b) (hb' : h'.pc.built = some b') (hst : b.event ∈ s.store)
    (hst' : b'.event ∈ s.store) : b = b' := by
  obtain ⟨i, hi⟩ := List.mem_iff_getElem?.mp hmem
  obtain ⟨j, hj⟩ := List.mem_iff_getElem?.mp hmem'
  obtain rfl := hs.alone i j h h' b b' hi hj hk hk' ⟨hb, fun _ => hst⟩ ⟨hb', fun _ => hst'⟩
  obtain rfl := Option.some.inj (hi.symm.trans hj)
  exact Option.some.inj (hb.symm.trans hb')

/-- **The invariant is the promise.** -/
theorem idempotent (hs : CreationInv key s) : IdempotentCreation s key where
  once := by
    have hnodup : (s.createdFor key).Nodup := hs.write.store_nodup.filter _
    match hlist : s.createdFor key with
    | [] => exact Nat.zero_le 1
    | [e] => exact le_rfl
    | e :: e' :: es =>
        obtain ⟨hst, h, hmem, hk, b, hb, rfl⟩ :=
          mem_createdFor.mp (by rw [hlist]; simp : e ∈ s.createdFor key)
        obtain ⟨hst', h', hmem', hk', b', hb', rfl⟩ :=
          mem_createdFor.mp (by rw [hlist]; simp : e' ∈ s.createdFor key)
        have heq := hs.eq_of_stored hmem hmem' hk hk' hb hb' hst hst'
        rw [hlist, heq] at hnodup
        simp at hnodup
  agree := by
    intro h hmem h' hmem' hk hk' b r b' r' hpc hpc'
    obtain ⟨g, hg, hgk, c, hc, hst, hagg⟩ := hs.answered h hmem hk b r hpc
    obtain ⟨g', hg', hgk', c', hc', hst', hagg'⟩ := hs.answered h' hmem' hk' b' r' hpc'
    rw [← hagg, ← hagg', hs.eq_of_stored hg hg' hgk hgk' hc hc' hst hst']

end CreationInv

/-! ### What a lookup that is not alone leads to -/

/-- There is always a draw that has not come up yet. -/
lemma exists_fresh (drawn : List String) : ∃ d : Draw, d.Fresh drawn := by
  obtain ⟨x, hx⟩ := Infinite.exists_notMem_finset drawn.toFinset
  rw [List.mem_toFinset] at hx
  exact ⟨⟨x, x, x, 0, 0⟩, hx, hx⟩

/-- No creation is built on an aggregate. -/
lemma created_agg {key : String} {s : State} {as : List Action}
    (hrun : run step State.init as = some s) :
    ∀ h ∈ s.handlers, h.Creates key → ∀ b, h.pc.built = some b → b.agg = none := by
  refine run_preserves (P := fun s => ∀ h ∈ s.handlers, h.Creates key → ∀ b,
    h.pc.built = some b → b.agg = none) (fun {s a t} hs hstep => ?_) (by simp [State.init]) hrun
  intro h' hmem hk b hb
  rcases mem_handlers_cases hstep hmem with
    hold | hstart | ⟨i, oc, d, h, sh, pc, rfl, hget, hawait, _, rfl⟩
  · exact hs h' hold hk b hb
  · simp [hstart, Pc.built] at hb
  · have hbefore := hs h (List.mem_of_getElem? hget) hk
    replace hb : pc.built = some b := hb
    cases await_createMove (h := h) hk hawait with
    | miss _ _ hagg => exact (Option.some.inj hb) ▸ hagg
    | goOn hb₁ _ hb₂ => exact hbefore b (hb₁.trans (hb₂.symm.trans hb))
    | record hpc hb₂ => exact hbefore b (by rw [hpc, ← hb₂.symm.trans hb]; rfl)
    | _ => simp [Pc.built] at hb

/-- The append of a creation completes. -/
lemma append_completes {s : State} (hs : WriteInv s) {i : ℕ} {h : Handler} {b : Built}
    (hget : s.handlers[i]? = some h) (hpc : h.pc = .append b) (hagg : b.agg = none) :
    ∃ d t, step s (.await i .completes d) = some t ∧ b.event ∈ t.store ∧
      ∀ j, j ≠ i → t.handlers[j]? = s.handlers[j]? := by
  obtain ⟨hid, horder⟩ := hs.pending h (List.mem_of_getElem? hget) b hpc
  have hfree : ∀ e ∈ s.store, ¬ DuplicateKey b.event e := by
    rintro e he (⟨hsame, _⟩ | hsame)
    · have hin : e ∈ orderLog s.store b.event.aggregateId := mem_orderLog.mpr ⟨he, hsame⟩
      simp [horder hagg] at hin
    · exact hid e he hsame
  have happend := EventStore.append_eq_ok.mpr ⟨hfree, rfl⟩
  obtain ⟨d, hfresh⟩ := exists_fresh s.drawn
  let t : State :=
    { toShared := { s.toShared with store := s.store ++ [b.event] }
      drawn := d.orderId :: d.stamp.eventId :: s.drawn
      handlers := s.handlers.set i { h with pc := .publish b 1 .redisExists } }
  refine ⟨d, t, ?_, List.mem_append_right _ (List.mem_singleton_self _), fun j hji =>
    List.getElem?_set_ne (Ne.symm hji)⟩
  simp [step, Handler.await, Handler.complete, hget, hpc, happend, guard, hfresh, t]

/-- Two handlers that have stored creations under the key break the promise. -/
lemma not_idempotent {key : String} {s : State} (hs : WriteInv s) {i j : ℕ} {h h' : Handler}
    {b b' : Built} (hij : i ≠ j) (hi : s.handlers[i]? = some h) (hj : s.handlers[j]? = some h')
    (hk : h.Creates key) (hk' : h'.Creates key) (hb : h.pc.built = some b)
    (hb' : h'.pc.built = some b') (hst : b.event ∈ s.store) (hst' : b'.event ∈ s.store) :
    ¬ IdempotentCreation s key := by
  intro hidem
  have hin : b.event ∈ s.createdFor key :=
    mem_createdFor.mpr ⟨hst, h, List.mem_of_getElem? hi, hk, b, hb, rfl⟩
  have hin' : b'.event ∈ s.createdFor key :=
    mem_createdFor.mpr ⟨hst', h', List.mem_of_getElem? hj, hk', b', hb', rfl⟩
  rw [eq_singleton hin hidem.once, List.mem_singleton] at hin'
  exact (hs.distinct i j h h' b b' hi hj hij hb hb').1 (by rw [hin'])

/-- A live creation is stored or about to be. -/
lemma append_of_live {s : State} (hs : WriteInv s) {h : Handler} {b : Built}
    (hmem : h ∈ s.handlers) (hlive : h.Live s b) (hnot : b.event ∉ s.store) :
    h.pc = .append b := by
  obtain ⟨hb, hend⟩ := hlive
  have hins : ¬ h.pc.Inserted := fun hins => hnot (hs.inserted h hmem b hins hb)
  have hrun : ¬ h.pc.Ended := fun hcon => hnot (hend hcon)
  cases hpc : h.pc with
  | append b₁ =>
      rw [hpc] at hb
      rw [Option.some.inj hb]
  | start | latestVersion o | charge agg => simp [hpc, Pc.built] at hb
  | publish b₁ n call | setex b₁ => simp [hpc, Pc.Inserted] at hins
  | done b₁ r | failed b₁ err => simp [hpc, Pc.Ended] at hrun

/-- **A lookup that misses while another creation under the key is live** leads to two creations. -/
lemma second_creation {key : String} {as : List Action} {s t : State} {a : Action}
    (hrun : run step State.init as = some s) (hstep : step s a = some t)
    (hC : ¬ LookupAlone key s a) :
    ∃ bs u, run step t bs = some u ∧ ¬ IdempotentCreation u key := by
  have hrunt : run step State.init (as ++ [a]) = some t :=
    (run_concat_eq_some step).mpr ⟨s, hrun, hstep⟩
  have ht := writeInv_run hrunt
  obtain ⟨i, d, h, rfl, hget, hk, hpc, hl, h', hmem', hk', b', hlive'⟩ :
      ∃ i d h, a = .await i .completes d ∧ s.handlers[i]? = some h ∧ h.Creates key ∧
        h.pc = .start ∧ s.idempotent.lookup key = none ∧ ∃ h' ∈ s.handlers, h'.Creates key ∧
          ∃ b', h'.Live s b' := by
    cases a with
    | await i oc d =>
        cases oc with
        | completes =>
            simp only [LookupAlone] at hC
            push Not at hC
            obtain ⟨h, hget, hk, hpc, hl, h', hmem', hk', b', hb', hlive'⟩ := hC
            exact ⟨i, d, h, rfl, hget, hk, hpc, hl, h', hmem', hk', b', hb', hlive'⟩
        | _ => exact absurd trivial hC
    | _ => exact absurd trivial hC
  obtain ⟨j, hj⟩ := List.mem_iff_getElem?.mp hmem'
  have hij : j ≠ i := by
    rintro rfl
    obtain rfl := Option.some.inj (hget.symm.trans hj)
    simp [Handler.Live, hpc, Pc.built] at hlive'
  -- the handler whose lookup has missed stores its creation
  obtain ⟨b, hagg, hti⟩ : ∃ b, b.agg = none ∧
      t.handlers[i]? = some { h with pc := .append b } := by
    obtain ⟨_, h₁, sh, pc, hget₁, hawait, rfl⟩ := step_await_eq hstep
    obtain rfl := Option.some.inj (hget.symm.trans hget₁)
    cases await_createMove hk hawait with
    | hit _ hl' => simp [hl] at hl'
    | @miss b _ _ hagg =>
        exact ⟨b, hagg, List.getElem?_set_self (List.getElem?_eq_some_iff.mp hget).1⟩
    | serve hpc' => simp [hpc] at hpc'
    | fail _ hoc => exact absurd rfl hoc
    | goOn hb => simp [hpc, Pc.built] at hb
    | record hpc' => simp [hpc] at hpc'
  obtain ⟨d₁, u, hu, hstored, hothers⟩ := append_completes ht hti rfl hagg
  have hrunu : run step State.init (as ++ [.await i .completes d] ++ [.await i .completes d₁]) =
      some u := (run_concat_eq_some step).mpr ⟨t, hrunt, hu⟩
  have hu' := writeInv_run hrunu
  obtain ⟨g, hg, hgcmd, hgb⟩ := handler_persists hu hti
  have hgk : g.Creates key := by
    rw [Handler.Creates, hgcmd]
    exact hk
  -- and so does the other one, unless it has done so already
  have htj : t.handlers[j]? = some h' := by
    obtain ⟨_, h₁, sh, pc, _, _, rfl⟩ := step_await_eq hstep
    rw [List.getElem?_set_ne hij.symm]
    exact hj
  have huj : u.handlers[j]? = some h' := (hothers j hij).trans htj
  by_cases hin : b'.event ∈ u.store
  · exact ⟨[.await i .completes d₁], u, by simp [hu],
      not_idempotent hu' hij.symm hg huj hgk hk' (hgb b rfl) hlive'.1 hstored hin⟩
  · have hsub : s.store ⊆ u.store := List.Subset.trans (store_subset hstep) (store_subset hu)
    have hpend := append_of_live hu' (List.mem_of_getElem? huj)
      ⟨hlive'.1, fun hend => hsub (hlive'.2 hend)⟩ hin
    obtain ⟨d₂, v, hv, hstored', _⟩ := append_completes hu' huj hpend
      (created_agg hrunu h' (List.mem_of_getElem? huj) hk' b' hlive'.1)
    have hrunv : run step State.init (as ++ [.await i .completes d] ++ [.await i .completes d₁] ++
        [.await j .completes d₂]) = some v := (run_concat_eq_some step).mpr ⟨u, hrunu, hv⟩
    obtain ⟨g₁, hg₁, hg₁cmd, hg₁b⟩ := handler_persists hv hg
    obtain ⟨g₂, hg₂, hg₂cmd, hg₂b⟩ := handler_persists hv huj
    refine ⟨[.await i .completes d₁, .await j .completes d₂], v, by simp [hu, hv],
      not_idempotent (writeInv_run hrunv) hij.symm hg₁ hg₂ ?_ ?_ (hg₁b b (hgb b rfl))
        (hg₂b b' hlive'.1) (store_subset hv hstored) hstored'⟩
    · rw [Handler.Creates, hg₁cmd]
      exact hgk
    · rw [Handler.Creates, hg₂cmd]
      exact hk'

/-- **When creation is idempotent under a key**: along every run in which no lookup misses the key
while another request with this key has created its order or still may; and a step that violates
the condition has a continuation that breaks the promise. -/
theorem creation_idempotent (key : String) :
    (∀ as s, run step State.init as = some s → Along step (LookupAlone key) State.init as →
      IdempotentCreation s key) ∧
    ∀ as s a t, run step State.init as = some s → step s a = some t → ¬ LookupAlone key s a →
      ∃ bs u, run step t bs = some u ∧ ¬ IdempotentCreation u key := by
  refine ⟨fun as s hrun halong => ?_, fun as s a t hrun hstep hC =>
    second_creation hrun hstep hC⟩
  have hinv : CreationInv key s :=
    preserves_along (fun hs hC hstep => hs.step hC hstep) CreationInv.init halong hrun
  exact hinv.idempotent

/-- Two requests with one key, one after the other. -/
def repeatedSchedule : List Action :=
  [.request (.createOrder ⟨"cust-1", "a@test.com", "key-1"⟩)] ++ returns 0 0 6 ++
    [.request (.createOrder ⟨"cust-1", "a@test.com", "key-1"⟩)] ++ returns 1 6 2

theorem repeatedSchedule_idempotent :
    ∃ s, run step State.init repeatedSchedule = some s ∧ IdempotentCreation s "key-1" := by
  obtain ⟨s, hrun⟩ := Option.isSome_iff_exists.mp
    (by decide +kernel : (run step State.init repeatedSchedule).isSome)
  exact ⟨s, hrun, (creation_idempotent "key-1").1 repeatedSchedule s hrun (by decide +kernel)⟩

/-- Two requests with one key, whose lookups both come before the first append. -/
def twinSchedule : List Action :=
  [.request (.createOrder ⟨"cust-1", "a@test.com", "key-1"⟩),
    .request (.createOrder ⟨"cust-1", "a@test.com", "key-1"⟩)] ++
    returns 0 0 1 ++ returns 1 1 1 ++ returns 0 2 5 ++ returns 1 7 5

/-- **Two concurrent requests with one key create two orders.** -/
theorem double_creation : ∃ s, run step State.init twinSchedule = some s ∧ s.Quiescent ∧
    (s.createdFor "key-1").map (·.aggregateId) = ["order-0", "order-1"] ∧
    ¬ IdempotentCreation s "key-1" := by
  have heval : ((run step State.init twinSchedule).any fun s =>
      decide (s.Quiescent ∧
        (s.createdFor "key-1").map (·.aggregateId) = ["order-0", "order-1"])) = true := by
    decide +kernel
  obtain ⟨s, hrun, hend, hcreated⟩ := exists_run_of_eval heval
  refine ⟨s, hrun, hend, hcreated, fun hidem => ?_⟩
  have hlen := hidem.once
  rw [← List.length_map (f := (·.aggregateId)), hcreated] at hlen
  simp at hlen

end OrderCqrs
