import OrderCqrs.Command.DualWrite

/-!
The order in which the events of one order reach its partition (`api/services/publisher.py`:
ordering per order, all events of an order being in one partition, in sequence).

* `InSequence`: strictly increasing versions, none missing below the largest.
* `FirstAttempt`: the runs considered, in which no append and no call of `publish` raises.
* `SendInv`: along such a run every stored event is in the topic or about to be sent by one handler,
  which has not sent it yet.
* `topic_inSequence_iff`: **when the events of every order are in sequence**: precisely if no event
  is sent while a handler still holds an earlier one of the same order (`NoOvertaking`).
* `overtaken`: one handler loads, appends and sends between the append and the send of another.
-/

namespace OrderCqrs

open Runs

/-! ### Versions in sequence -/

/-- Versions in the order of their records: strictly increasing, and none missing below the
largest one present. -/
structure InSequence (vs : List ℤ) : Prop where
  increasing : vs.Pairwise (· < ·)
  complete : ∀ v ∈ vs, ∀ w, 1 ≤ w → w < v → w ∈ vs

lemma InSequence.nil : InSequence [] where
  increasing := List.Pairwise.nil
  complete := by simp

/-- A prefix of versions in sequence is in sequence. -/
lemma InSequence.of_concat {vs : List ℤ} {v : ℤ} (h : InSequence (vs ++ [v])) : InSequence vs := by
  obtain ⟨hinc, _, hlt⟩ := List.pairwise_append.mp h.increasing
  refine ⟨hinc, fun u hu w hw hwu => ?_⟩
  have hmem := h.complete u (List.mem_append_left _ hu) w hw hwu
  have huv : u < v := hlt u hu v (List.mem_singleton_self v)
  rw [List.mem_append, List.mem_singleton] at hmem
  exact hmem.resolve_right (by omega)

/-- The next version keeps the sequence. -/
lemma InSequence.concat {vs : List ℤ} {v : ℤ} (h : InSequence vs) (hv : 1 ≤ v) (hnew : v ∉ vs)
    (hbelow : ∀ w, 1 ≤ w → w < v → w ∈ vs) : InSequence (vs ++ [v]) := by
  have hlt : ∀ u ∈ vs, u < v := by
    intro u hu
    by_contra hge
    have huv : u ≠ v := fun heq => hnew (heq ▸ hu)
    exact hnew (h.complete u hu v hv (by omega))
  refine ⟨?_, ?_⟩
  · rw [List.pairwise_append]
    refine ⟨h.increasing, List.pairwise_singleton _ _, fun u hu w hw => ?_⟩
    rw [List.mem_singleton.mp hw]
    exact hlt u hu
  · intro u hu w hw hwu
    rw [List.mem_append, List.mem_singleton] at hu
    cases hu with
    | inl hu => exact List.mem_append_left _ (h.complete u hu w hw hwu)
    | inr hu => exact List.mem_append_left _ (hbelow w hw (hu ▸ hwu))

/-! ### The records of an order -/

/-- The versions of an order's records, in the order of its partition. -/
def topicVersions (partitioner : String → ℕ) (topic : List Record) (o : String) : List ℤ :=
  ((partitionOf partitioner topic (partitioner o)).filter fun r => r.key = o).map
    (·.value.aggregateVersion)

/-- All records of an order are in its partition. -/
lemma topicVersions_eq (partitioner : String → ℕ) (topic : List Record) (o : String) :
    topicVersions partitioner topic o =
      (topic.filter fun r => r.key = o).map (·.value.aggregateVersion) := by
  rw [topicVersions, partitionOf, List.filter_filter]
  congr 1
  refine List.filter_congr fun r _ => ?_
  by_cases hr : r.key = o <;> simp [hr]

section Versions

variable {partitioner : String → ℕ} {topic : List Record} {o : String} {e : Event}

lemma mem_topicVersions {v : ℤ} : v ∈ topicVersions partitioner topic o ↔
    ∃ r ∈ topic, r.key = o ∧ r.value.aggregateVersion = v := by
  simp [topicVersions_eq, and_assoc]

lemma topicVersions_concat_self (h : e.aggregateId = o) :
    topicVersions partitioner (topic ++ [recordOf e]) o =
      topicVersions partitioner topic o ++ [e.aggregateVersion] := by
  simp [topicVersions_eq, List.filter_append, recordOf, h]

lemma topicVersions_concat_of_ne (h : e.aggregateId ≠ o) :
    topicVersions partitioner (topic ++ [recordOf e]) o = topicVersions partitioner topic o := by
  simp [topicVersions_eq, List.filter_append, recordOf, h]

end Versions

/-! ### Runs without failures -/

/-- What the handler has stored and not sent yet. -/
def Pc.toSend : Pc → Option Built
  | .publish b _ .redisExists | .publish b _ .sendAndWait => some b
  | _ => none

/-- Every append and every call of `publish` that runs completes at its first attempt. -/
def FirstAttempt (s : State) : Action → Prop
  | .await i oc _ => ∀ h b, s.handlers[i]? = some h →
      (h.pc = .append b ∨ ∃ n call, h.pc = .publish b n call) → oc = .completes
  | _ => True

/-- **The invariant of the sends** of a run without failures. -/
structure SendInv (s : State) : Prop where
  /-- A record is keyed by the order of its event. -/
  keyed : ∀ r ∈ s.topic, r.key = r.value.aggregateId
  /-- A stored event is sent or about to be. -/
  accounted : ∀ e ∈ s.store, (∃ r ∈ s.topic, r.value = e) ∨
    ∃ h ∈ s.handlers, ∃ b, h.pc.toSend = some b ∧ b.event = e
  /-- What is about to be sent has not been sent. -/
  unsent : ∀ h ∈ s.handlers, ∀ b, h.pc.toSend = some b → ∀ r ∈ s.topic, r.value ≠ b.event

lemma sendInv_init : SendInv State.init where
  keyed := by simp [State.init]
  accounted := by simp [State.init]
  unsent := by simp [State.init]

lemma Pc.built_of_toSend {pc : Pc} {b : Built} (h : pc.toSend = some b) : pc.built = some b := by
  cases pc with
  | publish b' n call => cases call <;> simp_all [Pc.toSend, Pc.built]
  | _ => simp [Pc.toSend] at h

lemma Pc.inserted_of_toSend {pc : Pc} {b : Built} (h : pc.toSend = some b) : pc.Inserted := by
  cases pc with
  | publish b' n call => trivial
  | _ => simp [Pc.toSend] at h

lemma Command.published_toSend (cmd : Command) (b : Built) : (cmd.published b).toSend = none := by
  cases cmd <;> rfl

section Step

variable {s : State} {i : ℕ} {h : Handler} {pc : Pc} {sh : Shared} {drawn : List String}

/-- A handler that leaves store and topic alone and what it is to send as it is. -/
lemma SendInv.keep (hi : SendInv s) (hget : s.handlers[i]? = some h) (hstore : sh.store = s.store)
    (htopic : sh.topic = s.topic) (hpc : pc.toSend = h.pc.toSend) :
    SendInv { toShared := sh, drawn, handlers := s.handlers.set i { h with pc } } where
  keyed := by
    rw [htopic]
    exact hi.keyed
  accounted := by
    intro e he
    rw [hstore] at he
    rw [htopic]
    refine (hi.accounted e he).imp id ?_
    rintro ⟨g, hg, b, hb, rfl⟩
    obtain rfl | hmem := eq_or_mem_set hget hg
    · exact ⟨_, List.mem_set (List.getElem?_eq_some_iff.mp hget).1 _, b, hpc ▸ hb, rfl⟩
    · exact ⟨g, hmem, b, hb, rfl⟩
  unsent := by
    intro g hg b hb
    rw [htopic]
    cases List.mem_or_eq_of_mem_set hg with
    | inl hmem => exact hi.unsent g hmem b hb
    | inr heq =>
        subst heq
        exact hi.unsent h (List.mem_of_getElem? hget) b (hpc ▸ hb)

/-- An insert: the new event is about to be sent. -/
lemma SendInv.insert (hs : WriteInv s) (ht : TopicInv s) (hi : SendInv s) {b : Built}
    (hget : s.handlers[i]? = some h) (hpc : h.pc = .append b)
    (hstore : sh.store = s.store ++ [b.event]) (htopic : sh.topic = s.topic)
    (hnext : pc.toSend = some b) :
    SendInv { toShared := sh, drawn, handlers := s.handlers.set i { h with pc } } where
  keyed := by
    rw [htopic]
    exact hi.keyed
  accounted := by
    intro e he
    rw [hstore, List.mem_append, List.mem_singleton] at he
    rw [htopic]
    cases he with
    | inl he =>
        refine (hi.accounted e he).imp id ?_
        rintro ⟨g, hg, b', hb', rfl⟩
        obtain rfl | hmem := eq_or_mem_set hget hg
        · simp [hpc, Pc.toSend] at hb'
        · exact ⟨g, hmem, b', hb', rfl⟩
    | inr he =>
        exact Or.inr ⟨_, List.mem_set (List.getElem?_eq_some_iff.mp hget).1 _, b, hnext, he.symm⟩
  unsent := by
    intro g hg b' hb' r hr
    rw [htopic] at hr
    cases List.mem_or_eq_of_mem_set hg with
    | inl hmem => exact hi.unsent g hmem b' hb' r hr
    | inr heq =>
        subst heq
        obtain rfl : b = b' := by simpa [hnext] using hb'
        -- the topic holds only what was stored before
        intro hrb
        have hfresh := (hs.pending h (List.mem_of_getElem? hget) b hpc).1 r.value (ht.stored r hr)
        exact hfresh (by rw [hrb])

/-- A send: the event moves to the topic. -/
lemma SendInv.send (hs : WriteInv s) (hi : SendInv s) {b : Built} (hget : s.handlers[i]? = some h)
    (hpc : h.pc.toSend = some b) (hstore : sh.store = s.store)
    (htopic : sh.topic = s.topic ++ [recordOf b.event]) (hnext : pc.toSend = none) :
    SendInv { toShared := sh, drawn, handlers := s.handlers.set i { h with pc } } where
  keyed := by
    intro r hr
    rw [htopic, List.mem_append, List.mem_singleton] at hr
    cases hr with
    | inl hr => exact hi.keyed r hr
    | inr hr =>
        rw [hr]
        rfl
  accounted := by
    intro e he
    rw [hstore] at he
    rw [htopic]
    cases hi.accounted e he with
    | inl hsent =>
        obtain ⟨r, hr, hre⟩ := hsent
        exact Or.inl ⟨r, List.mem_append_left _ hr, hre⟩
    | inr hheld =>
        obtain ⟨g, hg, b', hb', rfl⟩ := hheld
        obtain rfl | hmem := eq_or_mem_set hget hg
        · obtain rfl : b = b' := by simpa [hpc] using hb'
          exact Or.inl ⟨recordOf b.event, List.mem_append_right _ (List.mem_singleton_self _), rfl⟩
        · exact Or.inr ⟨g, hmem, b', hb', rfl⟩
  unsent := by
    intro g hg b' hb' r hr
    obtain ⟨j, hj⟩ := List.mem_iff_getElem?.mp hg
    obtain ⟨_, rfl⟩ | ⟨hij, hj⟩ := getElem?_set_cases hj
    · simp [hnext] at hb'
    · rw [htopic, List.mem_append, List.mem_singleton] at hr
      cases hr with
      | inl hr => exact hi.unsent g (List.mem_of_getElem? hj) b' hb' r hr
      | inr hr =>
          -- two handlers never hold the same event
          have hdist := (hs.distinct i j h g b b' hget hj (Ne.symm hij)
            (Pc.built_of_toSend hpc) (Pc.built_of_toSend hb')).1
          rw [hr]
          intro heq
          exact hdist (congrArg Event.eventId heq)

end Step

/-- Every step of a run without failures keeps the invariant of the sends. -/
lemma sendInv_step {s t : State} {a : Action} (hs : WriteInv s) (ht : TopicInv s) (hi : SendInv s)
    (hfirst : FirstAttempt s a) (hstep : step s a = some t) : SendInv t := by
  cases a with
  | request cmd =>
      rw [step, Option.some.injEq] at hstep
      subst hstep
      refine ⟨hi.keyed, fun e he => ?_, fun h hh b hb => ?_⟩
      · refine (hi.accounted e he).imp id ?_
        rintro ⟨h, hh, hrest⟩
        exact ⟨h, List.mem_append_left _ hh, hrest⟩
      · cases mem_request hh with
        | inl hmem => exact hi.unsent h hmem b hb
        | inr hpc => simp [hpc, Pc.toSend] at hb
  | expire key =>
      rw [step, Option.some.injEq] at hstep
      subst hstep
      exact ⟨hi.keyed, hi.accounted, hi.unsent⟩
  | await i oc d =>
      obtain ⟨_, h, sh, pc, hget, hmove, rfl⟩ := step_await hstep
      have hmem := List.mem_of_getElem? hget
      cases hmove with
      | idle hb _ hb' =>
          refine hi.keep hget rfl rfl ?_
          have hnone : ∀ {p : Pc}, p.built = none → p.toSend = none := fun {p} hp => by
            by_contra hne
            obtain ⟨b, hb⟩ := Option.ne_none_iff_exists'.mp hne
            rw [Pc.built_of_toSend hb] at hp
            simp at hp
          rw [hnone hb, hnone hb']
      | toCharge hpc | create hpc | build hpc | charge hpc =>
          exact hi.keep hget rfl rfl (by simp [hpc, Pc.toSend])
      | @insert _ b _ hpc _ hend =>
          obtain rfl := hfirst h b hget (Or.inl hpc)
          obtain ⟨_, rfl⟩ | ⟨hoc, _⟩ := hend
          · exact hi.insert hs ht hget hpc rfl rfl rfl
          · simp at hoc
      | reject hpc => exact hi.keep hget rfl rfl (by simp [hpc, Pc.toSend])
      | @skip b n hpc hin =>
          -- the key stands for a sent event with this id, which is this event
          have htoSend : h.pc.toSend = some b := by rw [hpc]; rfl
          have hstored := hs.inserted h hmem b (Pc.inserted_of_toSend htoSend)
            (Pc.built_of_toSend htoSend)
          obtain ⟨r, hr, hrid⟩ := ht.published _ hin
          have hrb : r.value = b.event := hs.eq_of_eventId_eq (ht.stored r hr) hstored hrid
          exact absurd hrb (hi.unsent h hmem b htoSend r hr)
      | proceed hpc => exact hi.keep hget rfl rfl (by simp [hpc, Pc.toSend])
      | @send b n hpc =>
          have htoSend : h.pc.toSend = some b := by rw [hpc]; rfl
          exact hi.send hs hget htoSend rfl rfl rfl
      | mark hpc =>
          refine hi.keep hget rfl rfl ?_
          rw [Command.published_toSend, hpc]
          rfl
      | @retry _ b n call _ hpc hoc | @giveUp _ b n call _ hpc hoc =>
          exact absurd (hfirst h b hget (Or.inr ⟨n, call, hpc⟩)) hoc
      | finish hpc hstore _ htopic _ hend =>
          refine hi.keep hget hstore htopic ?_
          obtain ⟨_, rfl⟩ | ⟨_, rfl⟩ := hend <;> simp [hpc, Pc.toSend]

/-- All invariants of a run without failures. -/
structure CompleteInv (s : State) : Prop where
  write : WriteInv s
  topic : TopicInv s
  send : SendInv s

lemma completeInv_init : CompleteInv State.init :=
  ⟨writeInv_init, topicInv_init, sendInv_init⟩

lemma completeInv_step {s t : State} {a : Action} (hs : CompleteInv s) (hfirst : FirstAttempt s a)
    (hstep : step s a = some t) : CompleteInv t where
  write := writeInv_step hs.write hstep
  topic := topicInv_step hs.write hs.topic hstep
  send := sendInv_step hs.write hs.topic hs.send hfirst hstep

/-! ### Overtaking -/

/-- No event is sent while another handler still holds an earlier event of the same order, stored
and not sent yet. -/
def NoOvertaking (s : State) : Action → Prop
  | .await i _ _ => ∀ h b n, s.handlers[i]? = some h → h.pc = .publish b n .sendAndWait →
      ∀ g ∈ s.handlers, ∀ b', g.pc.toSend = some b' →
        b'.event.aggregateId = b.event.aggregateId →
        b.event.aggregateVersion ≤ b'.event.aggregateVersion
  | _ => True

/-- The records of every order are in sequence. -/
def TopicInSequence (partitioner : String → ℕ) (s : State) : Prop :=
  ∀ o, InSequence (topicVersions partitioner s.topic o)

/-- What a step without failures does to the topic: nothing, or the send of what its handler
holds. -/
lemma topic_step {s t : State} {a : Action} (hfirst : FirstAttempt s a)
    (hstep : step s a = some t) : t.topic = s.topic ∨
      ∃ i oc d h b n, a = .await i oc d ∧ s.handlers[i]? = some h ∧
        h.pc = .publish b n .sendAndWait ∧ t.topic = s.topic ++ [recordOf b.event] := by
  cases a with
  | request cmd =>
      rw [step, Option.some.injEq] at hstep
      exact Or.inl (hstep ▸ rfl)
  | expire key =>
      rw [step, Option.some.injEq] at hstep
      exact Or.inl (hstep ▸ rfl)
  | await i oc d =>
      obtain ⟨_, h, sh, pc, hget, hmove, rfl⟩ := step_await hstep
      cases hmove with
      | send hpc => exact Or.inr ⟨i, _, d, h, _, _, rfl, hget, hpc, rfl⟩
      | @retry _ b n call _ hpc hoc | @giveUp _ b n call _ hpc hoc =>
          exact absurd (hfirst h b hget (Or.inr ⟨n, call, hpc⟩)) hoc
      | finish _ _ _ htopic => exact Or.inl htopic
      | _ => exact Or.inl rfl

section Sequence

variable {partitioner : String → ℕ} {s t : State} {a : Action}

/-- Stored events of one order with one version are the same event. -/
lemma WriteInv.eq_of_version_eq (hs : WriteInv s) {e e' : Event} (he : e ∈ s.store)
    (he' : e' ∈ s.store) (ho : e.aggregateId = e'.aggregateId)
    (hv : e.aggregateVersion = e'.aggregateVersion) : e = e' := by
  have hmem : e ∈ orderLog s.store e'.aggregateId := mem_orderLog.mpr ⟨he, ho⟩
  have hmem' : e' ∈ orderLog s.store e'.aggregateId := mem_orderLog.mpr ⟨he', rfl⟩
  have hlegal := (hs.legal e'.aggregateId).resolve_left (List.ne_nil_of_mem hmem)
  obtain ⟨k, hk⟩ := List.mem_iff_getElem?.mp hmem
  obtain ⟨k', hk'⟩ := List.mem_iff_getElem?.mp hmem'
  have hkk : k = k' := by
    have h1 := hlegal.version_getElem? hk
    have h2 := hlegal.version_getElem? hk'
    omega
  subst hkk
  rw [hk, Option.some.injEq] at hk'
  exact hk'

/-- Below the version of a stored event, every version of its order is stored. -/
lemma WriteInv.exists_of_version_lt (hs : WriteInv s) {e : Event} (he : e ∈ s.store) {w : ℤ}
    (hw : 1 ≤ w) (hlt : w < e.aggregateVersion) :
    ∃ d ∈ s.store, d.aggregateId = e.aggregateId ∧ d.aggregateVersion = w := by
  have hmem : e ∈ orderLog s.store e.aggregateId := mem_orderLog.mpr ⟨he, rfl⟩
  have hlegal := (hs.legal e.aggregateId).resolve_left (List.ne_nil_of_mem hmem)
  obtain ⟨k, hk⟩ := List.mem_iff_getElem?.mp hmem
  have hv := hlegal.version_getElem? hk
  have hklt := (List.getElem?_eq_some_iff.mp hk).1
  have hin : w ∈ (orderLog s.store e.aggregateId).map (·.aggregateVersion) := by
    rw [hlegal.versions_eq, mem_versionsUpTo]
    omega
  obtain ⟨d, hd, rfl⟩ := List.mem_map.mp hin
  exact ⟨d, (mem_orderLog.mp hd).1, (mem_orderLog.mp hd).2, rfl⟩

/-- The version of a stored event is at least 1. -/
lemma WriteInv.one_le_version (hs : WriteInv s) {e : Event} (he : e ∈ s.store) :
    1 ≤ e.aggregateVersion := by
  have hmem : e ∈ orderLog s.store e.aggregateId := mem_orderLog.mpr ⟨he, rfl⟩
  have hlegal := (hs.legal e.aggregateId).resolve_left (List.ne_nil_of_mem hmem)
  obtain ⟨k, hk⟩ := List.mem_iff_getElem?.mp hmem
  have hv := hlegal.version_getElem? hk
  omega

/-- What is about to be sent is stored. -/
lemma WriteInv.stored_of_toSend (hs : WriteInv s) {h : Handler} (hmem : h ∈ s.handlers) {b : Built}
    (hb : h.pc.toSend = some b) : b.event ∈ s.store :=
  hs.inserted h hmem b (Pc.inserted_of_toSend hb) (Pc.built_of_toSend hb)

/-- The version of an event about to be sent is missing in the topic. -/
lemma version_not_sent (hs : WriteInv s) (ht : TopicInv s) (hi : SendInv s) {h : Handler}
    (hmem : h ∈ s.handlers) {b : Built} (hb : h.pc.toSend = some b) :
    b.event.aggregateVersion ∉ topicVersions partitioner s.topic b.event.aggregateId := by
  rw [mem_topicVersions]
  rintro ⟨r, hr, hkey, hv⟩
  have heq := hs.eq_of_version_eq (ht.stored r hr) (hs.stored_of_toSend hmem hb)
    ((hi.keyed r hr).symm.trans hkey) hv
  exact hi.unsent h hmem b hb r hr heq

lemma topicInSequence_keep (hs : WriteInv s) (ht : TopicInv s) (hi : SendInv s)
    (hgood : TopicInSequence partitioner s) (hfirst : FirstAttempt s a) (hC : NoOvertaking s a)
    (hstep : step s a = some t) : TopicInSequence partitioner t := by
  intro o
  obtain htopic | ⟨i, oc, d, h, b, n, rfl, hget, hpc, htopic⟩ := topic_step hfirst hstep
  · rw [htopic]
    exact hgood o
  · rw [htopic]
    by_cases ho : b.event.aggregateId = o
    · subst ho
      have hmem := List.mem_of_getElem? hget
      have htoSend : h.pc.toSend = some b := by rw [hpc]; rfl
      have hin := hs.stored_of_toSend hmem htoSend
      rw [topicVersions_concat_self rfl]
      refine (hgood _).concat (hs.one_le_version hin) (version_not_sent hs ht hi hmem htoSend) ?_
      -- whoever holds an earlier event would be overtaken, so all of them are sent
      intro w hw hlt
      obtain ⟨e, he, heo, rfl⟩ := hs.exists_of_version_lt hin hw hlt
      rw [mem_topicVersions]
      cases hi.accounted e he with
      | inl hsent =>
          obtain ⟨r, hr, rfl⟩ := hsent
          exact ⟨r, hr, (hi.keyed r hr).trans heo, rfl⟩
      | inr hheld =>
          obtain ⟨g, hg, b', hb', rfl⟩ := hheld
          have hle := hC h b n hget hpc g hg b' hb' heo
          omega
    · rw [topicVersions_concat_of_ne ho]
      exact hgood o

lemma topicInSequence_lose (hs : WriteInv s) (ht : TopicInv s) (hi : SendInv s)
    (hfirst : FirstAttempt s a) (hC : ¬ NoOvertaking s a) (hstep : step s a = some t) :
    ¬ TopicInSequence partitioner t := by
  cases a with
  | request cmd => exact absurd trivial hC
  | expire key => exact absurd trivial hC
  | await i oc d =>
      simp only [NoOvertaking] at hC
      push Not at hC
      obtain ⟨h, b, n, hget, hpc, g, hg, b', hb', ho, hlt⟩ := hC
      -- the step is the send of `b`, for its handler awaits it
      have hsend : t.topic = s.topic ++ [recordOf b.event] := by
        obtain rfl : oc = .completes := hfirst h b hget (Or.inr ⟨n, _, hpc⟩)
        obtain ⟨_, h', sh, pc, hget', hmove, rfl⟩ := step_await hstep
        rw [hget, Option.some.injEq] at hget'
        subst hget'
        cases hmove with
        | send hb =>
            rw [hpc] at hb
            cases hb
            rfl
        | idle hb => simp [hpc, Pc.built] at hb
        | _ => simp_all
      intro hgood
      have hseq := hgood b.event.aggregateId
      rw [hsend, topicVersions_concat_self rfl] at hseq
      have hin := hseq.complete _ (List.mem_append_right _ (List.mem_singleton_self _)) _
        (hs.one_le_version (hs.stored_of_toSend hg hb')) hlt
      rw [List.mem_append, List.mem_singleton] at hin
      have hnot : b'.event.aggregateVersion ∉
          topicVersions partitioner s.topic b.event.aggregateId :=
        ho ▸ version_not_sent hs ht hi hg hb'
      exact hin.elim hnot (by omega)

lemma topicInSequence_stay (hbad : ¬ TopicInSequence partitioner s) (hfirst : FirstAttempt s a)
    (hstep : step s a = some t) : ¬ TopicInSequence partitioner t := by
  intro hgood
  refine hbad fun o => ?_
  obtain htopic | ⟨_, _, _, _, b, _, _, _, _, htopic⟩ := topic_step hfirst hstep
  · exact htopic ▸ hgood o
  · have hseq := hgood o
    rw [htopic] at hseq
    by_cases ho : b.event.aggregateId = o
    · rw [topicVersions_concat_self ho] at hseq
      exact hseq.of_concat
    · rw [topicVersions_concat_of_ne ho] at hseq
      exact hseq

end Sequence

/-- **When the events of every order reach the topic in sequence**: after a run without failures,
precisely if no event was sent, along the run, while a handler held an earlier one. -/
theorem topic_inSequence_iff (partitioner : String → ℕ) {s : State} {as : List Action}
    (hrun : run step State.init as = some s) (hfirst : Along step FirstAttempt State.init as) :
    TopicInSequence partitioner s ↔ Along step NoOvertaking State.init as :=
  good_iff_along_within (fun hs hA hstep => completeInv_step hs hA hstep)
    (fun hs hgood hA hC hstep =>
      topicInSequence_keep hs.write hs.topic hs.send hgood hA hC hstep)
    (fun hs hA hC hstep => topicInSequence_lose hs.write hs.topic hs.send hA hC hstep)
    (fun _ hbad hA hstep => topicInSequence_stay hbad hA hstep)
    completeInv_init (fun _ => InSequence.nil) hfirst hrun

/-! ### Two schedules -/

/-- The awaited call of the action, if it has one, completes. -/
def Action.Completes : Action → Prop
  | .await _ oc _ => oc = .completes
  | _ => True

instance : (a : Action) → Decidable a.Completes
  | .await _ oc _ => inferInstanceAs (Decidable (oc = .completes))
  | .request _ | .expire _ => .isTrue trivial

lemma Action.Completes.firstAttempt {a : Action} (h : a.Completes) (s : State) :
    FirstAttempt s a := by
  cases a with
  | await i oc d => exact fun _ _ _ _ => h
  | request cmd => exact trivial
  | expire key => exact trivial

theorem paidSchedule_inSequence_iff : ∃ s, run step State.init paidSchedule = some s ∧
    (TopicInSequence String.length s ↔ Along step NoOvertaking State.init paidSchedule) := by
  obtain ⟨s, hrun⟩ := Option.isSome_iff_exists.mp
    (by decide +kernel : (run step State.init paidSchedule).isSome)
  have hall : ∀ a ∈ paidSchedule, a.Completes := by decide +kernel
  exact ⟨s, hrun, topic_inSequence_iff _ hrun
    (along_of_forall (fun a ha => (hall a ha).firstAttempt) _)⟩

/-- Two requests to add an item: the second one runs from its load to its end between the append
and the send of the first. -/
def overtakingSchedule : List Action :=
  [.request (.createOrder ⟨"cust-1", "a@test.com", "key-1"⟩)] ++ returns 0 0 6 ++
    [.request (.addItem "order-0" oneItem), .request (.addItem "order-0" oneItem)] ++
    returns 1 6 2 ++ returns 2 8 5 ++ returns 1 13 3

/-- **An overtaken event**: nothing fails, every handler returns, and the records of the order
stand in its partition as versions 1, 3, 2. -/
theorem overtaken : ∃ s, run step State.init overtakingSchedule = some s ∧ s.Quiescent ∧
    Along step FirstAttempt State.init overtakingSchedule ∧ ∀ partitioner,
      topicVersions partitioner s.topic "order-0" = [1, 3, 2] ∧
        ¬ TopicInSequence partitioner s := by
  obtain ⟨s, hrun, hq, htopic⟩ := exists_run_of_eval
    (by decide +kernel : ((run step State.init overtakingSchedule).any fun s => decide (s.Quiescent ∧
      (s.topic.filter fun r => r.key = "order-0").map (·.value.aggregateVersion) = [1, 3, 2])) =
        true)
  have hall : ∀ a ∈ overtakingSchedule, a.Completes := by decide +kernel
  refine ⟨s, hrun, hq, along_of_forall (fun a ha => (hall a ha).firstAttempt) _,
    fun partitioner => ?_⟩
  have hversions : topicVersions partitioner s.topic "order-0" = [1, 3, 2] := by
    rw [topicVersions_eq]
    exact htopic
  refine ⟨hversions, fun hgood => ?_⟩
  have hinc := (hgood "order-0").increasing
  rw [hversions] at hinc
  exact absurd hinc (by decide)

end OrderCqrs
