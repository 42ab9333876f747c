import OrderCqrs.Command.Payments

/-!
The two writes of a command: the event store and the topic.

* `TopicInv`, `topicInv_run`: what the topic holds is stored, a `published` key stands for a sent
  event, and a handler past its send has its event in the topic.
* `AtomicWrites`: an ended handler has written both or neither, with no handler in flight store and
  topic hold the same events, and an error leaves the log alone.
* `atomicWrites_iff`: **when the two writes are atomic**: precisely if no call fails after the
  insert of its handler in a way that ends the handler (`WritesThrough`).
* `lost_publish`: three failed attempts leave a stored event that is never sent.
-/

namespace OrderCqrs

open Runs

/-! ### What is sent is stored -/

/-- The record of what was built has been sent, as far as the program point tells. -/
def Pc.Sent : Pc → Prop
  | .publish _ _ .redisSetex | .setex _ | .done _ _ => True
  | _ => False

/-- **The invariant of the topic.** -/
structure TopicInv (s : State) : Prop where
  /-- What is sent is stored. -/
  stored : ∀ r ∈ s.topic, r.value ∈ s.store
  /-- A `published` key stands for a sent event. -/
  published : ∀ id ∈ s.published, ∃ r ∈ s.topic, r.value.eventId = id
  /-- What a handler past its send has built is sent. -/
  sent : ∀ h ∈ s.handlers, ∀ b, h.pc.Sent → h.pc.built = some b → ∃ r ∈ s.topic, r.value = b.event

lemma topicInv_init : TopicInv State.init where
  stored := by simp [State.init]
  published := by simp [State.init]
  sent := by simp [State.init]

/-- A step that adds to the topic at most the record of the handler that moves keeps the
invariant. -/
lemma TopicInv.extend {s : State} (ht : TopicInv s) {i : ℕ} {h : Handler} {pc : Pc} {sh : Shared}
    {drawn : List String} {new : List Record} (hstore : s.store ⊆ sh.store)
    (htopic : sh.topic = s.topic ++ new) (hnew : ∀ r ∈ new, r.value ∈ sh.store)
    (hpub : ∀ id ∈ sh.published, id ∈ s.published ∨ ∃ r ∈ sh.topic, r.value.eventId = id)
    (hsent : ∀ b, pc.Sent → pc.built = some b → ∃ r ∈ sh.topic, r.value = b.event) :
    TopicInv { toShared := sh, drawn, handlers := s.handlers.set i { h with pc } } where
  stored := by
    intro r hr
    rw [htopic] at hr
    rcases List.mem_append.mp hr with hr | hr
    · exact hstore (ht.stored r hr)
    · exact hnew r hr
  published := by
    intro id hid
    rcases hpub id hid with hold | hsend
    · obtain ⟨r, hr, hrid⟩ := ht.published id hold
      exact ⟨r, htopic ▸ List.mem_append_left _ hr, hrid⟩
    · exact hsend
  sent := by
    intro h' hh' b hs hb
    rcases List.mem_or_eq_of_mem_set hh' with hmem | rfl
    · obtain ⟨r, hr, hrv⟩ := ht.sent h' hmem b hs hb
      exact ⟨r, htopic ▸ List.mem_append_left _ hr, hrv⟩
    · exact hsent b hs hb

/-- The special case of a step that leaves the topic alone. -/
lemma TopicInv.keep {s : State} (ht : TopicInv s) {i : ℕ} {h : Handler} {pc : Pc} {sh : Shared}
    {drawn : List String} (hstore : s.store ⊆ sh.store) (htopic : sh.topic = s.topic)
    (hpub : ∀ id ∈ sh.published, id ∈ s.published ∨ ∃ r ∈ s.topic, r.value.eventId = id)
    (hsent : ∀ b, pc.Sent → pc.built = some b → ∃ r ∈ s.topic, r.value = b.event) :
    TopicInv { toShared := sh, drawn, handlers := s.handlers.set i { h with pc } } := by
  have hsame : sh.topic = s.topic ++ [] := by rw [htopic, List.append_nil]
  refine ht.extend hstore hsame (by simp) ?_ ?_
  · rw [htopic]
    exact hpub
  · rw [htopic]
    exact hsent

/-- A handler's move keeps the invariant of the topic. -/
lemma topicInv_move {s : State} (hs : WriteInv s) (ht : TopicInv s) {i : ℕ} {h : Handler}
    {oc : Outcome} {d : Draw} {sh : Shared} {pc : Pc} {drawn : List String}
    (hget : s.handlers[i]? = some h) (hmove : Move s.toShared d h oc sh pc) :
    TopicInv { toShared := sh, drawn, handlers := s.handlers.set i { h with pc } } := by
  have hmem := List.mem_of_getElem? hget
  have hsame : ∀ id ∈ s.published, id ∈ s.published ∨ ∃ r ∈ s.topic, r.value.eventId = id :=
    fun id hid => Or.inl hid
  have hrefl : s.store ⊆ s.store := List.Subset.refl _
  -- a handler in `publish` or behind it has its event stored
  have hstored : ∀ b, h.pc.Inserted → h.pc.built = some b → b.event ∈ s.store := fun b hins hb =>
    hs.inserted h hmem b hins hb
  cases hmove with
  | idle _ _ hb =>
      refine ht.keep hrefl rfl hsame fun b _ hb' => ?_
      rw [hb] at hb'
      simp at hb'
  | insert _ _ hend =>
      refine ht.keep (List.subset_append_left _ _) rfl hsame fun b hsent _ => ?_
      rcases hend with ⟨_, rfl⟩ | ⟨_, rfl⟩ <;> exact absurd hsent id
  | @skip b n hpc hin =>
      -- the key stands for a sent event with this id, which is this event
      have hbstore := hstored b (by simp [hpc, Pc.Inserted]) (by rw [hpc]; rfl)
      obtain ⟨r, hr, hrid⟩ := ht.published _ hin
      have hrb : r.value = b.event := hs.eq_of_eventId_eq (ht.stored r hr) hbstore hrid
      refine ht.keep hrefl rfl hsame fun b' _ hb' => ⟨r, hr, ?_⟩
      rcases h.command.published_cases b with heq | heq <;>
        (rw [heq, Pc.built, Option.some.injEq] at hb'; rw [hrb, hb'])
  | @send b n hpc =>
      have hbstore := hstored b (by simp [hpc, Pc.Inserted]) (by rw [hpc]; rfl)
      refine ht.extend hrefl rfl ?_ (fun id hid => Or.inl hid) ?_
      · intro r hr
        rw [List.mem_singleton.mp hr]
        exact hbstore
      · intro b' _ hb'
        rw [Pc.built, Option.some.injEq] at hb'
        exact ⟨recordOf b.event, List.mem_append_right _ (List.mem_singleton_self _), hb' ▸ rfl⟩
  | @mark b n hpc =>
      have hsent := ht.sent h hmem b (by simp [hpc, Pc.Sent]) (by rw [hpc]; rfl)
      refine ht.keep hrefl rfl ?_ fun b' _ hb' => ?_
      · intro id hid
        rcases List.mem_cons.mp hid with rfl | hid
        · obtain ⟨r, hr, hrv⟩ := hsent
          exact Or.inr ⟨r, hr, by rw [hrv]⟩
        · exact Or.inl hid
      · rcases h.command.published_cases b with heq | heq <;>
          (rw [heq, Pc.built, Option.some.injEq] at hb'; exact hb' ▸ hsent)
  | @retry _ b n call _ hpc _ _ heff | @giveUp _ b n call _ hpc _ _ heff =>
      have hbstore := hstored b (by simp [hpc, Pc.Inserted]) (by rw [hpc]; rfl)
      have hpub : ∀ id ∈ sh.published, id ∈ s.published ∨
          ∃ r ∈ sh.topic, r.value.eventId = id := by
        intro id hid
        rcases heff.published with hp | ⟨rfl, hp⟩
        · exact Or.inl (hp ▸ hid)
        · rw [hp] at hid
          rcases List.mem_cons.mp hid with rfl | hid
          · obtain ⟨r, hr, hrv⟩ := ht.sent h hmem b (by simp [hpc, Pc.Sent]) (by rw [hpc]; rfl)
            refine Or.inr ⟨r, ?_, by rw [hrv]⟩
            rcases heff.topic with htop | ⟨hcall, _⟩
            · exact htop ▸ hr
            · simp at hcall
          · exact Or.inl hid
      rcases heff.topic with htop | ⟨_, htop⟩
      · refine ht.keep (heff.store ▸ hrefl) htop (htop ▸ hpub) fun b' hsent _ => ?_
        exact absurd hsent id
      · refine ht.extend (heff.store ▸ hrefl) htop ?_ hpub fun b' hsent _ => ?_
        · intro r hr
          rw [List.mem_singleton.mp hr, heff.store]
          exact hbstore
        · exact absurd hsent id
  | @finish _ b _ _ hpc hstore _ htop hpub hend =>
      have hsent := ht.sent h hmem b (by simp [hpc, Pc.Sent]) (by rw [hpc]; rfl)
      refine ht.keep (hstore ▸ hrefl) htop (hpub ▸ hsame) fun b' _ hb' => ?_
      rcases hend with ⟨_, rfl⟩ | ⟨_, rfl⟩ <;>
        (rw [Pc.built, Option.some.injEq] at hb'; exact hb' ▸ hsent)
  | _ => exact ht.keep hrefl rfl hsame fun b hsent _ => absurd hsent id

/-- Every step keeps the invariant of the topic. -/
lemma topicInv_step {s t : State} {a : Action} (hs : WriteInv s) (ht : TopicInv s)
    (hstep : step s a = some t) : TopicInv t := by
  cases a with
  | request cmd =>
      rw [step, Option.some.injEq] at hstep
      subst hstep
      refine ⟨ht.stored, ht.published, fun h hh b hsent hb => ?_⟩
      rcases mem_request hh with hmem | hpc
      · exact ht.sent h hmem b hsent hb
      · simp [hpc, Pc.built] at hb
  | await i oc d =>
      obtain ⟨_, h, sh, pc, hget, hmove, rfl⟩ := step_await hstep
      exact topicInv_move hs ht hget hmove
  | expire key =>
      rw [step, Option.some.injEq] at hstep
      subst hstep
      exact ⟨ht.stored, fun id hid => ht.published id (List.mem_of_mem_filter hid), ht.sent⟩

/-- The invariant of the topic holds in every reachable state. -/
theorem topicInv_run {s : State} {as : List Action} (h : run step State.init as = some s) :
    TopicInv s := by
  have hboth : WriteInv s ∧ TopicInv s :=
    run_preserves (P := fun s => WriteInv s ∧ TopicInv s)
      (fun hs hstep => ⟨writeInv_step hs.1 hstep, topicInv_step hs.1 hs.2 hstep⟩)
      ⟨writeInv_init, topicInv_init⟩ h
  exact hboth.2

/-! ### Both writes or neither -/

/-- **The two writes are atomic** as far as the state `s` shows. -/
structure AtomicWrites (s : State) : Prop where
  /-- A handler that has ended has its event both stored and sent, or neither. -/
  ended : ∀ h ∈ s.handlers, h.pc.Ended → ∀ b, h.pc.built = some b →
    (b.event ∈ s.store ↔ ∃ r ∈ s.topic, r.value = b.event)
  /-- With no handler in flight, store and topic hold the same event ids. -/
  quiescent : s.Quiescent → ∀ id,
    (∃ e ∈ s.store, e.eventId = id) ↔ ∃ r ∈ s.topic, r.value.eventId = id
  /-- A command that ended in an error has left its order's log as it was. -/
  error : ∀ h ∈ s.handlers, ∀ b err, h.pc = .failed (some b) err → b.event ∉ s.store

/-- A handler whose insert takes effect gets through: the acknowledgement of the insert is not
lost, the third attempt to publish does not fail, and neither does `create_order`'s last call. -/
def WritesThrough (s : State) : Action → Prop
  | .await i oc _ => ∀ h b, s.handlers[i]? = some h →
      (h.pc = .append b → (∀ d ∈ s.store, ¬ DuplicateKey b.event d) → oc ≠ .raisesAfterEffect) ∧
      (∀ n call, h.pc = .publish b n call → 3 ≤ n → oc = .completes) ∧
      (h.pc = .setex b → oc = .completes)
  | _ => True

/-- No handler has failed with its event stored. -/
def NoStoredFailure (s : State) : Prop :=
  ∀ h ∈ s.handlers, ∀ b err, h.pc = .failed (some b) err → b.event ∉ s.store

section Steps

variable {s t : State} {a : Action}

lemma noStoredFailure_keep (hs : WriteInv s) (hgood : NoStoredFailure s)
    (hC : WritesThrough s a) (hstep : step s a = some t) : NoStoredFailure t := by
  intro g hg b err hpc
  rcases failed_after_step hstep hg hpc with hold | ⟨i, oc, d, h, rfl, hget, hfail⟩
  · exact unstored_persists hs hstep hold (by rw [hpc]; trivial) (by rw [hpc]; rfl)
      (hgood g hold b err hpc)
  · obtain ⟨hins, hpub, hset⟩ := hC h b hget
    cases hfail with
    | lostInsert happ hfree => exact absurd rfl (hins happ hfree)
    | rejected happ _ hstore =>
        rw [hstore]
        exact fun hin => (hs.pending h (List.mem_of_getElem? hget) b happ).1 _ hin rfl
    | later hpc' hoc =>
        rcases hpc' with ⟨n, call, hpc', hn⟩ | hpc'
        · exact absurd (hpub n call hpc' hn) hoc
        · exact absurd (hset hpc') hoc

lemma noStoredFailure_lose (hs : WriteInv s) (hC : ¬ WritesThrough s a)
    (hstep : step s a = some t) : ¬ NoStoredFailure t := by
  cases a with
  | request cmd => exact absurd trivial hC
  | expire key => exact absurd trivial hC
  | await i oc d =>
      have hsub := store_subset hstep
      obtain ⟨_, h, sh, pc, hget, hmove, rfl⟩ := step_await hstep
      have hmem := List.mem_of_getElem? hget
      have hlt := (List.getElem?_eq_some_iff.mp hget).1
      simp only [WritesThrough] at hC
      push Not at hC
      obtain ⟨h', b, hget', hC⟩ := hC
      rw [hget, Option.some.injEq] at hget'
      subst hget'
      -- it suffices that the handler has failed with `b` stored
      have hfail : ∀ err, pc = .failed (some b) err → b.event ∈ sh.store →
          ¬ NoStoredFailure { toShared := sh
                              drawn := d.orderId :: d.stamp.eventId :: s.drawn
                              handlers := s.handlers.set i { h with pc } } :=
        fun err hpc hin hgood => hgood _ (List.mem_set hlt _) b err hpc hin
      by_cases hins : h.pc = .append b ∧ (∀ d ∈ s.store, ¬ DuplicateKey b.event d) ∧
          oc = .raisesAfterEffect
      · obtain ⟨hpc, hfree, rfl⟩ := hins
        cases hmove with
        | @insert _ b' _ hb' _ hend =>
            obtain rfl : b = b' := by simpa [hpc] using hb'
            rcases hend with ⟨hoc, _⟩ | ⟨_, rfl⟩
            · simp at hoc
            · exact hfail _ rfl (List.mem_append_right _ (List.mem_singleton_self _))
        | @reject _ b' _ hb' hwhy =>
            obtain rfl : b = b' := by simpa [hpc] using hb'
            rcases hwhy with hraise | ⟨d', hd', hdup⟩
            · simp at hraise
            · exact absurd hdup (hfree d' hd')
        | idle hb => simp [hpc, Pc.built] at hb
        | _ => simp_all
      · by_cases hpub : ∃ n call, h.pc = .publish b n call ∧ 3 ≤ n ∧ oc ≠ .completes
        · obtain ⟨n, call, hpc, hn, hoc⟩ := hpub
          have hin := hsub (hs.stored_of_later hmem (Or.inl ⟨n, call, hpc, hn⟩))
          cases hmove with
          | @retry _ b' n' _ _ hb' _ hlt' =>
              obtain ⟨rfl, rfl, rfl⟩ : b = b' ∧ n = n' ∧ _ := by simpa [hpc] using hb'
              omega
          | @giveUp _ b' n' _ _ hb' =>
              obtain ⟨rfl, rfl, rfl⟩ : b = b' ∧ n = n' ∧ _ := by simpa [hpc] using hb'
              exact hfail _ rfl hin
          | idle hb => simp [hpc, Pc.built] at hb
          | _ => simp_all
        · push Not at hins hpub
          obtain ⟨hpc, hoc⟩ := hC (fun hpc hfree => hins hpc hfree)
            (fun n call hpc hn => hpub n call hpc hn)
          have hin := hsub (hs.stored_of_later hmem (Or.inr hpc))
          cases hmove with
          | @finish _ b' _ _ hb' _ _ _ _ hend =>
              obtain rfl : b = b' := by simpa [hpc] using hb'
              rcases hend with ⟨hoc', _⟩ | ⟨_, rfl⟩
              · exact absurd hoc' hoc
              · exact hfail _ rfl hin
          | idle hb => simp [hpc, Pc.built] at hb
          | _ => simp_all

lemma noStoredFailure_stay (hbad : ¬ NoStoredFailure s) (hstep : step s a = some t) :
    ¬ NoStoredFailure t := by
  simp only [NoStoredFailure] at hbad
  push Not at hbad
  obtain ⟨h, hmem, b, err, hpc, hin⟩ := hbad
  have hend : h.pc.Ended := by rw [hpc]; trivial
  exact fun hgood => hgood h (ended_persists hstep hmem hend) b err hpc (store_subset hstep hin)

end Steps

section Atomic

variable {s : State} {as : List Action}

/-- The writes are atomic as soon as no handler has failed with its event stored. -/
lemma atomicWrites_iff_noStoredFailure (hrun : run step State.init as = some s) :
    AtomicWrites s ↔ NoStoredFailure s := by
  have hs := writeInv_run hrun
  have ht := topicInv_run hrun
  refine ⟨fun hall => hall.error, fun hgood => ⟨?_, ?_, hgood⟩⟩
  · intro h hmem hend b hb
    cases hpc : h.pc with
    | done b' r =>
        have hin := hs.inserted h hmem b (by simp [hpc, Pc.Inserted]) hb
        have hsent := ht.sent h hmem b (by simp [hpc, Pc.Sent]) hb
        exact ⟨fun _ => hsent, fun _ => hin⟩
    | failed b' err =>
        obtain rfl : b' = some b := by simpa [hpc, Pc.built] using hb
        have hnot := hgood h hmem b err hpc
        refine ⟨fun hin => absurd hin hnot, ?_⟩
        rintro ⟨r, hr, hrv⟩
        exact hrv ▸ ht.stored r hr
    | _ => simp [hpc, Pc.Ended] at hend
  · intro hq id
    constructor
    · rintro ⟨e, he, rfl⟩
      obtain ⟨h, hmem, b, hb, rfl⟩ := hs.stored e he
      have hend := hq h hmem
      cases hpc : h.pc with
      | done b' r =>
          obtain ⟨r, hr, hrv⟩ := ht.sent h hmem b (by simp [hpc, Pc.Sent]) hb
          exact ⟨r, hr, by rw [hrv]⟩
      | failed b' err =>
          obtain rfl : b' = some b := by simpa [hpc, Pc.built] using hb
          exact absurd he (hgood h hmem b err hpc)
      | _ => simp [hpc, Pc.Ended] at hend
    · rintro ⟨r, hr, rfl⟩
      exact ⟨r.value, ht.stored r hr, rfl⟩

/-- **When the two writes are atomic**: after any run, precisely if every handler whose insert
took effect along it got through. -/
theorem atomicWrites_iff (hrun : run step State.init as = some s) :
    AtomicWrites s ↔ Along step WritesThrough State.init as := by
  rw [atomicWrites_iff_noStoredFailure hrun]
  exact good_iff_along (fun hs hstep => writeInv_step hs hstep)
    (fun hs hgood hC hstep => noStoredFailure_keep hs hgood hC hstep)
    (fun hs hC hstep => noStoredFailure_lose hs hC hstep)
    (fun _ hbad hstep => noStoredFailure_stay hbad hstep) writeInv_init
    (by simp [NoStoredFailure, State.init]) hrun

end Atomic

theorem paidSchedule_atomic_iff : ∃ s, run step State.init paidSchedule = some s ∧
    (AtomicWrites s ↔ Along step WritesThrough State.init paidSchedule) := by
  obtain ⟨s, hrun⟩ := Option.isSome_iff_exists.mp
    (by decide +kernel : (run step State.init paidSchedule).isSome)
  exact ⟨s, hrun, atomicWrites_iff hrun⟩

/-- An order is created, and the three attempts to publish its event fail at the first call. -/
def lostPublishSchedule : List Action :=
  [.request (.createOrder ⟨"cust-1", "a@test.com", "key-1"⟩)] ++ returns 0 0 2 ++
    [.await 0 .raises (.nth 2), .await 0 .raises (.nth 3), .await 0 .raises (.nth 4)]

/-- **A lost publish**: the command has ended in `RetryError`, its event is stored and the topic is
empty. -/
theorem lost_publish : ∃ s, run step State.init lostPublishSchedule = some s ∧ s.Quiescent ∧
    s.store.map (·.eventId) = ["event-0"] ∧ s.topic.map (·.value) = [] ∧ ¬ AtomicWrites s := by
  obtain ⟨s, hrun, hq, hstore, htopic⟩ := exists_run_of_eval
    (by decide +kernel : ((run step State.init lostPublishSchedule).any fun s =>
      decide (s.Quiescent ∧ s.store.map (·.eventId) = ["event-0"] ∧
        s.topic.map (·.value) = [])) = true)
  refine ⟨s, hrun, hq, hstore, htopic, fun hall => ?_⟩
  have hstored : ∃ e ∈ s.store, e.eventId = "event-0" := by
    rw [← List.mem_map, hstore]
    exact List.mem_singleton_self _
  obtain ⟨r, hr, _⟩ := (hall.quiescent hq "event-0").mp hstored
  rw [List.map_eq_nil_iff.mp htopic] at hr
  simp at hr

end OrderCqrs
