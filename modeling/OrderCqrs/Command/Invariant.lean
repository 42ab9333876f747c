import OrderCqrs.Command.Moves

/-!
The invariant of the write side.

* `Snapshot`: an aggregate some handler may have loaded, that is, the replay of a nonempty prefix
  of an order's stored log; `Snapshot.concat` is its stability under appends by others.
* `Built.Valid`: what a handler has built fits the aggregate it validated against.
* `WriteInv`: **the invariant**: every order's stored log is lifecycle-legal, every event in flight
  was built on a snapshot, every stored event was built by a handler, and no two handlers share an
  identifier.
* `WriteInv.eq_of_pending`: a handler whose insert goes through validated against the whole log.
* `writeInv_step`, `writeInv_run`: the invariant holds in every reachable state.
* `store_await`, `store_step`, `ended_persists`, `unstored_persists`: what a step does to the store, and what it
  leaves alone.
* `Failure`, `failed_after_step`: how a handler that has built an event can fail.
-/

namespace OrderCqrs

open Runs

/-! ### Snapshots -/

/-- `agg` is the aggregate of a nonempty prefix of the stored log of the order. -/
def Snapshot (store : List Event) (o : String) (agg : OrderAggregate) : Prop :=
  ∃ k, 0 < k ∧ k ≤ (orderLog store o).length ∧ agg = replay o ((orderLog store o).take k)

/-- A snapshot stays one while the store grows. -/
lemma Snapshot.concat {store : List Event} {o : String} {agg : OrderAggregate}
    (h : Snapshot store o agg) (e : Event) : Snapshot (store ++ [e]) o agg := by
  obtain ⟨k, hk, hle, rfl⟩ := h
  by_cases he : e.aggregateId = o
  · refine ⟨k, hk, ?_, ?_⟩
    · rw [orderLog_concat_self he, List.length_append]
      omega
    · rw [orderLog_concat_self he, List.take_append_of_le_length hle]
  · rw [← orderLog_concat_of_ne he] at hle ⊢
    exact ⟨k, hk, hle, rfl⟩

/-- The version of a snapshot of a legal log is the length of its prefix. -/
lemma LegalLog.take_version {o : String} {log : List Event} (h : LegalLog o log) {k : ℕ}
    (hk : 0 < k) (hle : k ≤ log.length) : (replay o (log.take k)).version = k := by
  rw [(h.take hk).replay_version, List.length_take, Nat.min_eq_left hle]

/-- What a handler has built fits the aggregate it validated against: without one it is an
`ORDER_CREATED` at version 1, with one it is an allowed event of the next version. -/
def Built.Valid (store : List Event) (b : Built) : Prop :=
  match b.agg with
  | none => b.event.aggregateVersion = 1 ∧ ∃ c, b.event.payload = .orderCreated c
  | some agg => Snapshot store b.event.aggregateId agg ∧
      b.event.aggregateVersion = agg.version + 1 ∧ agg.allows b.event.payload

lemma Built.Valid.concat {store : List Event} {b : Built} (h : b.Valid store) (e : Event) :
    b.Valid (store ++ [e]) := by
  rw [Built.Valid] at h ⊢
  cases hb : b.agg with
  | none =>
      rw [hb] at h
      exact h
  | some agg =>
      rw [hb] at h
      exact ⟨h.1.concat e, h.2⟩

/-- What was validated against an aggregate is for an order that has events. -/
lemma Built.Valid.ne_nil {store : List Event} {b : Built} {agg : OrderAggregate}
    (h : b.Valid store) (hagg : b.agg = some agg) :
    orderLog store b.event.aggregateId ≠ [] := by
  rw [Built.Valid, hagg] at h
  obtain ⟨⟨k, hk, hle, _⟩, _⟩ := h
  exact List.ne_nil_of_length_pos (by omega)

/-- Two built events of different handlers share neither their id nor, as creations, an order. -/
def Built.Distinct (b b' : Built) : Prop :=
  b.event.eventId ≠ b'.event.eventId ∧
    (b.agg = none → b'.agg = none → b.event.aggregateId ≠ b'.event.aggregateId)

lemma Built.Distinct.symm {b b' : Built} (h : b.Distinct b') : b'.Distinct b :=
  ⟨h.1.symm, fun h' hb => (h.2 hb h').symm⟩

/-- The insert of what was built has taken effect, as far as the program point tells. -/
def Pc.Inserted : Pc → Prop
  | .publish _ _ _ | .setex _ | .done _ _ => True
  | _ => False

/-! ### The invariant -/

/-- **The invariant of the write side.** -/
structure WriteInv (s : State) : Prop where
  /-- Every stored log is legal. -/
  legal : ∀ o, orderLog s.store o = [] ∨ LegalLog o (orderLog s.store o)
  /-- Every built event fits its snapshot. -/
  valid : ∀ h ∈ s.handlers, ∀ b, h.pc.built = some b → b.Valid s.store
  /-- A payment about to be charged was validated against a snapshot. -/
  charging : ∀ h ∈ s.handlers, ∀ agg o req, h.pc = .charge agg →
    h.command = .processPayment o req → Snapshot s.store o agg ∧ agg.assertCanPay = .ok ()
  /-- An event about to be inserted is new, and a creation is the first event of its order. -/
  pending : ∀ h ∈ s.handlers, ∀ b, h.pc = .append b →
    (∀ e ∈ s.store, e.eventId ≠ b.event.eventId) ∧
      (b.agg = none → orderLog s.store b.event.aggregateId = [])
  /-- Every stored event was built by some handler. -/
  stored : ∀ e ∈ s.store, ∃ h ∈ s.handlers, ∃ b, h.pc.built = some b ∧ b.event = e
  /-- What a handler past its append has built is stored. -/
  inserted : ∀ h ∈ s.handlers, ∀ b, h.pc.Inserted → h.pc.built = some b → b.event ∈ s.store
  /-- Built events carry drawn identifiers. -/
  drawnBuilt : ∀ h ∈ s.handlers, ∀ b, h.pc.built = some b →
    b.event.eventId ∈ s.drawn ∧ (b.agg = none → b.event.aggregateId ∈ s.drawn)
  /-- Stored orders have drawn identifiers. -/
  drawnStore : ∀ e ∈ s.store, e.aggregateId ∈ s.drawn
  /-- Different handlers build distinct events. -/
  distinct : ∀ (i j : ℕ) (h h' : Handler) (b b' : Built), s.handlers[i]? = some h →
    s.handlers[j]? = some h' → i ≠ j → h.pc.built = some b → h'.pc.built = some b' →
    b.Distinct b'

lemma writeInv_init : WriteInv State.init where
  legal := fun _ => Or.inl rfl
  valid := by simp [State.init]
  charging := by simp [State.init]
  pending := by simp [State.init]
  stored := by simp [State.init]
  inserted := by simp [State.init]
  drawnBuilt := by simp [State.init]
  drawnStore := by simp [State.init]
  distinct := by simp [State.init]

namespace WriteInv

variable {s : State}

/-- A loaded aggregate is the replay of the whole stored log. -/
lemma load_eq (hs : WriteInv s) {o : String} {agg : OrderAggregate}
    (hload : loadAggregate s.store o = .ok agg) :
    LegalLog o (orderLog s.store o) ∧ agg = replay o (orderLog s.store o) := by
  rcases hs.legal o with hnil | hlegal
  · rw [loadAggregate_of_nil hnil] at hload
    simp at hload
  · rw [loadAggregate_of_legal hlegal, Except.ok.injEq] at hload
    exact ⟨hlegal, hload.symm⟩

/-- A loaded aggregate is a snapshot. -/
lemma snapshot_of_load (hs : WriteInv s) {o : String} {agg : OrderAggregate}
    (hload : loadAggregate s.store o = .ok agg) : Snapshot s.store o agg := by
  obtain ⟨hlegal, rfl⟩ := hs.load_eq hload
  exact ⟨_, hlegal.length_pos, le_rfl, by rw [List.take_length]⟩

/-- **Freshness at append**: when no stored event carries the key of an event about to be
inserted, the aggregate it was validated against is the replay of the whole stored log. -/
lemma eq_of_pending (hs : WriteInv s) {b : Built} {agg : OrderAggregate} (hvalid : b.Valid s.store)
    (hagg : b.agg = some agg) (hfree : ∀ d ∈ s.store, ¬ DuplicateKey b.event d) :
    LegalLog b.event.aggregateId (orderLog s.store b.event.aggregateId) ∧
      agg = replay b.event.aggregateId (orderLog s.store b.event.aggregateId) := by
  have hlegal := (hs.legal b.event.aggregateId).resolve_left (hvalid.ne_nil hagg)
  set o := b.event.aggregateId with ho
  rw [Built.Valid, hagg] at hvalid
  obtain ⟨⟨k, hk, hle, hag⟩, hver, _⟩ := hvalid
  rw [← ho] at hle hag
  refine ⟨hlegal, ?_⟩
  -- otherwise the event after the prefix already carries this version
  have hfull : k = (orderLog s.store o).length := by
    by_contra hne
    have hlt : k < (orderLog s.store o).length := by omega
    have hget := List.getElem?_eq_getElem hlt
    set d := (orderLog s.store o)[k] with hd
    have hdv := hlegal.version_getElem? hget
    have hmem := mem_orderLog.mp (List.mem_of_getElem? hget)
    refine hfree d hmem.1 (Or.inl ⟨hmem.2, ?_⟩)
    rw [hdv, hver, hag, hlegal.take_version hk hle]
  rw [hag, hfull, List.take_length]

/-- A stored log stays legal when a handler's insert goes through. -/
lemma legal_concat (hs : WriteInv s) {h : Handler} {b : Built} (hmem : h ∈ s.handlers)
    (hpc : h.pc = .append b) (hfree : ∀ d ∈ s.store, ¬ DuplicateKey b.event d) :
    LegalLog b.event.aggregateId
      (orderLog s.store b.event.aggregateId ++ [b.event]) := by
  have hvalid := hs.valid h hmem b (by rw [hpc]; rfl)
  cases hagg : b.agg with
  | none =>
      have hnil := (hs.pending h hmem b hpc).2 hagg
      rw [Built.Valid, hagg] at hvalid
      obtain ⟨hver, c, hc⟩ := hvalid
      rw [hnil, List.nil_append]
      exact .created rfl hver hc
  | some agg =>
      obtain ⟨hlegal, hag⟩ := hs.eq_of_pending hvalid hagg hfree
      rw [Built.Valid, hagg] at hvalid
      rw [hag] at hvalid
      exact .append hlegal rfl hvalid.2.1 hvalid.2.2

/-! ### Preservation -/

/-- Every stored event is still held after a handler has moved that keeps what it has built. -/
lemma stored_set (hs : WriteInv s) {i : ℕ} {h : Handler} {pc : Pc} (hget : s.handlers[i]? = some h)
    (hbuilt : ∀ b, h.pc.built = some b → pc.built = some b) {e : Event} (he : e ∈ s.store) :
    ∃ g ∈ s.handlers.set i { h with pc }, ∃ b, g.pc.built = some b ∧ b.event = e := by
  obtain ⟨h', hmem, b, hb, hbe⟩ := hs.stored e he
  rcases eq_or_mem_set hget hmem with rfl | hset
  · have hlt := (List.getElem?_eq_some_iff.mp hget).1
    exact ⟨_, List.mem_set hlt _, b, hbuilt b hb, hbe⟩
  · exact ⟨h', hset, b, hb, hbe⟩

/-- Events stay distinct when what the moved handler has built is distinct from the others. -/
lemma distinct_set (hs : WriteInv s) {i : ℕ} {h : Handler} {pc : Pc}
    (hmoved : ∀ (j : ℕ) (h' : Handler) (b b' : Built), s.handlers[j]? = some h' → j ≠ i →
      pc.built = some b → h'.pc.built = some b' → b.Distinct b')
    {j k : ℕ} {h₁ h₂ : Handler} {b₁ b₂ : Built}
    (hj : (s.handlers.set i { h with pc })[j]? = some h₁)
    (hk : (s.handlers.set i { h with pc })[k]? = some h₂) (hjk : j ≠ k)
    (hb₁ : h₁.pc.built = some b₁) (hb₂ : h₂.pc.built = some b₂) : b₁.Distinct b₂ := by
  rcases getElem?_set_cases hj with ⟨hji, rfl⟩ | ⟨hji, hj⟩
  · rcases getElem?_set_cases hk with ⟨hki, rfl⟩ | ⟨hki, hk⟩
    · exact absurd (hji.trans hki.symm) hjk
    · exact hmoved k h₂ b₁ b₂ hk hki hb₁ hb₂
  · rcases getElem?_set_cases hk with ⟨hki, rfl⟩ | ⟨hki, hk⟩
    · exact (hmoved j h₁ b₂ b₁ hj hji hb₂ hb₁).symm
    · exact hs.distinct j k h₁ h₂ b₁ b₂ hj hk hjk hb₁ hb₂

/-- A step that leaves the store alone keeps the invariant, provided the handler that moved keeps
its part of it. -/
lemma keep (hs : WriteInv s) {i : ℕ} {h : Handler} {pc : Pc} {sh : Shared} {drawn : List String}
    (hget : s.handlers[i]? = some h) (hstore : sh.store = s.store) (hdrawn : s.drawn ⊆ drawn)
    (hvalid : ∀ b, pc.built = some b → b.Valid s.store)
    (hcharge : ∀ agg o req, pc = .charge agg → h.command = .processPayment o req →
      Snapshot s.store o agg ∧ agg.assertCanPay = .ok ())
    (hpending : ∀ b, pc = .append b → (∀ e ∈ s.store, e.eventId ≠ b.event.eventId) ∧
      (b.agg = none → orderLog s.store b.event.aggregateId = []))
    (hbuilt : ∀ b, h.pc.built = some b → pc.built = some b)
    (hinserted : ∀ b, pc.Inserted → pc.built = some b → b.event ∈ s.store)
    (hdr : ∀ b, pc.built = some b →
      b.event.eventId ∈ drawn ∧ (b.agg = none → b.event.aggregateId ∈ drawn))
    (hdistinct : ∀ (j : ℕ) (h' : Handler) (b b' : Built), s.handlers[j]? = some h' → j ≠ i →
      pc.built = some b → h'.pc.built = some b' → b.Distinct b') :
    WriteInv { toShared := sh, drawn, handlers := s.handlers.set i { h with pc } } where
  legal := by
    rw [hstore]
    exact hs.legal
  valid := by
    rw [hstore]
    intro h' hh' b hb
    rcases List.mem_or_eq_of_mem_set hh' with hmem | rfl
    · exact hs.valid h' hmem b hb
    · exact hvalid b hb
  charging := by
    rw [hstore]
    intro h' hh' agg o req hpc hcmd
    rcases List.mem_or_eq_of_mem_set hh' with hmem | rfl
    · exact hs.charging h' hmem agg o req hpc hcmd
    · exact hcharge agg o req hpc hcmd
  pending := by
    rw [hstore]
    intro h' hh' b hb
    rcases List.mem_or_eq_of_mem_set hh' with hmem | rfl
    · exact hs.pending h' hmem b hb
    · exact hpending b hb
  stored := by
    rw [hstore]
    exact fun e he => hs.stored_set hget hbuilt he
  inserted := by
    rw [hstore]
    intro h' hh' b hins hb
    rcases List.mem_or_eq_of_mem_set hh' with hmem | rfl
    · exact hs.inserted h' hmem b hins hb
    · exact hinserted b hins hb
  drawnBuilt := by
    intro h' hh' b hb
    rcases List.mem_or_eq_of_mem_set hh' with hmem | rfl
    · have hold := hs.drawnBuilt h' hmem b hb
      exact ⟨hdrawn hold.1, fun hnone => hdrawn (hold.2 hnone)⟩
    · exact hdr b hb
  drawnStore := by
    rw [hstore]
    exact fun e he => hdrawn (hs.drawnStore e he)
  distinct := fun _ _ _ _ _ _ hj hk hjk hb₁ hb₂ => hs.distinct_set hdistinct hj hk hjk hb₁ hb₂

/-- A step that neither stores nor builds an event keeps the invariant. -/
lemma quiet (hs : WriteInv s) {i : ℕ} {h : Handler} {pc : Pc} {sh : Shared}
    {drawn : List String} (hget : s.handlers[i]? = some h) (hstore : sh.store = s.store)
    (hdrawn : s.drawn ⊆ drawn) (hbuilt : pc.built = h.pc.built)
    (hnotAppend : ∀ b, pc ≠ .append b)
    (hcharge : ∀ agg o req, pc = .charge agg → h.command = .processPayment o req →
      Snapshot s.store o agg ∧ agg.assertCanPay = .ok ())
    (hinserted : ∀ b, pc.Inserted → pc.built = some b → h.pc.Inserted) :
    WriteInv { toShared := sh, drawn, handlers := s.handlers.set i { h with pc } } := by
  have hmem : h ∈ s.handlers := List.mem_of_getElem? hget
  refine hs.keep hget hstore hdrawn ?_ hcharge ?_ ?_ ?_ ?_ ?_
  · intro b hb
    exact hs.valid h hmem b (hbuilt ▸ hb)
  · intro b hb
    exact absurd hb (hnotAppend b)
  · intro b hb
    rw [hbuilt, hb]
  · intro b hins hb
    exact hs.inserted h hmem b (hinserted b hins hb) (hbuilt ▸ hb)
  · intro b hb
    have hold := hs.drawnBuilt h hmem b (hbuilt ▸ hb)
    exact ⟨hdrawn hold.1, fun hnone => hdrawn (hold.2 hnone)⟩
  · intro j h' b b' hj hji hb hb'
    exact hs.distinct i j h h' b b' hget hj (Ne.symm hji) (hbuilt ▸ hb) hb'

/-- A step that builds an event with fresh identifiers keeps the invariant. -/
lemma build (hs : WriteInv s) {i : ℕ} {h : Handler} {b : Built} {sh : Shared} {d : Draw}
    (hget : s.handlers[i]? = some h) (hfresh : d.Fresh s.drawn) (hstore : sh.store = s.store)
    (hnone : h.pc.built = none) (hvalid : b.Valid s.store)
    (hid : b.event.eventId = d.stamp.eventId)
    (horder : b.agg = none → b.event.aggregateId = d.orderId) :
    WriteInv { toShared := sh
               drawn := d.orderId :: d.stamp.eventId :: s.drawn
               handlers := s.handlers.set i { h with pc := .append b } } := by
  have heq : ∀ b', (Pc.append b).built = some b' → b' = b := fun b' hb' =>
    (Option.some.inj hb').symm
  refine hs.keep hget hstore (by intro x hx; simp [hx]) ?_ (by simp) ?_ ?_ ?_ ?_ ?_
  · intro b' hb'
    rw [heq b' hb']
    exact hvalid
  · intro b' hb'
    rw [Pc.append.injEq] at hb'
    subst hb'
    refine ⟨fun e he => ?_, fun hagg => ?_⟩
    · obtain ⟨h', hmem', b', hb', rfl⟩ := hs.stored e he
      intro hcon
      refine hfresh.2 ?_
      rw [← hid, ← hcon]
      exact (hs.drawnBuilt h' hmem' b' hb').1
    · rw [horder hagg]
      refine List.eq_nil_iff_forall_not_mem.mpr fun e he => hfresh.1 ?_
      obtain ⟨he, ho⟩ := mem_orderLog.mp he
      exact ho ▸ hs.drawnStore e he
  · intro b' hb'
    rw [hnone] at hb'
    simp at hb'
  · intro b' hins
    exact absurd hins id
  · intro b' hb'
    rw [heq b' hb']
    exact ⟨by simp [hid], fun hagg => by simp [horder hagg]⟩
  · intro j h' b₁ b' hj hji hb₁ hb'
    rw [heq b₁ hb₁]
    have hold := hs.drawnBuilt h' (List.mem_of_getElem? hj) b' hb'
    refine ⟨fun hcon => hfresh.2 ?_, fun hagg hagg' hcon => hfresh.1 ?_⟩
    · rw [← hid, hcon]
      exact hold.1
    · rw [← horder hagg, hcon]
      exact hold.2 hagg'

/-- A step whose insert goes through keeps the invariant. -/
lemma insert (hs : WriteInv s) {i : ℕ} {h : Handler} {b : Built} {pc : Pc} {sh : Shared}
    {drawn : List String} (hget : s.handlers[i]? = some h) (hpc : h.pc = .append b)
    (hfree : ∀ d ∈ s.store, ¬ DuplicateKey b.event d)
    (hstore : sh.store = s.store ++ [b.event]) (hdrawn : s.drawn ⊆ drawn)
    (hbuilt : pc.built = some b) (hnotAppend : ∀ b', pc ≠ .append b')
    (hnotCharge : ∀ agg, pc ≠ .charge agg) :
    WriteInv { toShared := sh, drawn, handlers := s.handlers.set i { h with pc } } := by
  have hmem : h ∈ s.handlers := List.mem_of_getElem? hget
  have hlt := (List.getElem?_eq_some_iff.mp hget).1
  have hb : h.pc.built = some b := by rw [hpc]; rfl
  have hvalid := hs.valid h hmem b hb
  exact
    { legal := by
        intro o
        rw [hstore]
        by_cases ho : b.event.aggregateId = o
        · subst ho
          rw [orderLog_concat_self rfl]
          exact Or.inr (hs.legal_concat hmem hpc hfree)
        · rw [orderLog_concat_of_ne ho]
          exact hs.legal o
      valid := by
        intro h' hh' b' hb'
        rw [hstore]
        rcases List.mem_or_eq_of_mem_set hh' with hmem' | rfl
        · exact (hs.valid h' hmem' b' hb').concat b.event
        · rw [hbuilt, Option.some.injEq] at hb'
          exact hb' ▸ hvalid.concat b.event
      charging := by
        intro h' hh' agg o req hpc' hcmd
        rw [hstore]
        rcases List.mem_or_eq_of_mem_set hh' with hmem' | rfl
        · have hold := hs.charging h' hmem' agg o req hpc' hcmd
          exact ⟨hold.1.concat b.event, hold.2⟩
        · exact absurd hpc' (hnotCharge agg)
      pending := by
        -- an insert by this handler disturbs no event another handler is about to insert
        intro h' hh' b' hb'
        obtain ⟨j, hj⟩ := List.mem_iff_getElem?.mp hh'
        rcases getElem?_set_cases hj with ⟨_, rfl⟩ | ⟨hji, hj⟩
        · exact absurd hb' (hnotAppend b')
        · have hold := hs.pending h' (List.mem_of_getElem? hj) b' hb'
          have hdist := hs.distinct i j h h' b b' hget hj (Ne.symm hji) hb (by rw [hb']; rfl)
          rw [hstore]
          refine ⟨fun e he => ?_, fun hnone => ?_⟩
          · rcases List.mem_append.mp he with he | he
            · exact hold.1 e he
            · rw [List.mem_singleton.mp he]
              exact hdist.1
          · have hne : b.event.aggregateId ≠ b'.event.aggregateId := by
              cases hagg : b.agg with
              | none => exact hdist.2 hagg hnone
              | some agg =>
                  intro hcon
                  exact hvalid.ne_nil hagg (hcon ▸ hold.2 hnone)
            rw [orderLog_concat_of_ne hne]
            exact hold.2 hnone
      stored := by
        intro e he
        rw [hstore] at he
        rcases List.mem_append.mp he with he | he
        · refine hs.stored_set hget (fun b' hb' => ?_) he
          rw [hbuilt, ← hb, hb']
        · rw [List.mem_singleton.mp he]
          exact ⟨_, List.mem_set hlt _, b, hbuilt, rfl⟩
      inserted := by
        intro h' hh' b' hins hb'
        rw [hstore]
        rcases List.mem_or_eq_of_mem_set hh' with hmem' | rfl
        · exact List.mem_append_left _ (hs.inserted h' hmem' b' hins hb')
        · rw [hbuilt, Option.some.injEq] at hb'
          exact hb' ▸ List.mem_append_right _ (List.mem_singleton_self _)
      drawnBuilt := by
        have hold : ∀ h' ∈ s.handlers, ∀ b', h'.pc.built = some b' → b'.event.eventId ∈ drawn ∧
            (b'.agg = none → b'.event.aggregateId ∈ drawn) := fun h' hmem' b' hb' =>
          ⟨hdrawn (hs.drawnBuilt h' hmem' b' hb').1,
            fun hnone => hdrawn ((hs.drawnBuilt h' hmem' b' hb').2 hnone)⟩
        intro h' hh' b' hb'
        rcases List.mem_or_eq_of_mem_set hh' with hmem' | rfl
        · exact hold h' hmem' b' hb'
        · rw [hbuilt, ← hb] at hb'
          exact hold h hmem b' hb'
      drawnStore := by
        intro e he
        rw [hstore] at he
        rcases List.mem_append.mp he with he | he
        · exact hdrawn (hs.drawnStore e he)
        · rw [List.mem_singleton.mp he]
          refine hdrawn ?_
          cases hagg : b.agg with
          | none => exact (hs.drawnBuilt h hmem b hb).2 hagg
          | some agg =>
              obtain ⟨d, hd⟩ := List.exists_mem_of_ne_nil _ (hvalid.ne_nil hagg)
              obtain ⟨hin, ho⟩ := mem_orderLog.mp hd
              exact ho ▸ hs.drawnStore d hin
      distinct := fun _ _ _ _ _ _ hj hk hjk hb₁ hb₂ => by
        refine hs.distinct_set (fun j h' b₁ b₂ hj hji hb₁ hb₂ => ?_) hj hk hjk hb₁ hb₂
        rw [hbuilt, ← hb] at hb₁
        exact hs.distinct i j h h' b₁ b₂ hget hj (Ne.symm hji) hb₁ hb₂ }

end WriteInv

/-- A handler's move keeps the invariant. -/
lemma writeInv_move {s : State} (hs : WriteInv s) {i : ℕ} {h : Handler} {oc : Outcome}
    {d : Draw} {sh : Shared} {pc : Pc} (hfresh : d.Fresh s.drawn)
    (hget : s.handlers[i]? = some h) (hmove : Move s.toShared d h oc sh pc) :
    WriteInv { toShared := sh
               drawn := d.orderId :: d.stamp.eventId :: s.drawn
               handlers := s.handlers.set i { h with pc } } := by
  have hdrawn : s.drawn ⊆ d.orderId :: d.stamp.eventId :: s.drawn := by
    intro x hx
    simp [hx]
  cases hmove with
  | idle hb hne hb' hnc =>
      refine hs.quiet hget rfl hdrawn (hb'.trans hb.symm) ?_ ?_ ?_
      · rintro b rfl
        simp [Pc.built] at hb'
      · exact fun agg _ _ hpc => absurd hpc (hnc agg)
      · intro b _ hsome
        rw [hb'] at hsome
        simp at hsome
  | toCharge hpc hcmd hload hpay =>
      refine hs.quiet hget rfl hdrawn (by rw [hpc]; rfl) (by simp) ?_ (by simp [Pc.built])
      intro agg' o' req' hag hcmd'
      rw [hcmd, Command.processPayment.injEq] at hcmd'
      rw [Pc.charge.injEq] at hag
      obtain ⟨rfl, rfl⟩ := hcmd'
      subst hag
      exact ⟨hs.snapshot_of_load hload, hpay⟩
  | create hpc hcmd =>
      exact hs.build hget hfresh rfl (by rw [hpc]; rfl) ⟨rfl, _, rfl⟩ rfl fun _ => rfl
  | build hpc hload hallow hpay =>
      refine hs.build hget hfresh rfl (by rw [hpc]; rfl) ?_ rfl (by simp)
      exact ⟨hs.snapshot_of_load hload, rfl, hallow⟩
  | charge hpc hcmd =>
      refine hs.build hget hfresh rfl (by rw [hpc]; rfl) ?_ rfl (by simp)
      obtain ⟨hsnap, hpay⟩ := hs.charging h (List.mem_of_getElem? hget) _ _ _ hpc hcmd
      exact ⟨hsnap, rfl, hpay⟩
  | insert hpc hfree hpc' =>
      rcases hpc' with ⟨_, rfl⟩ | ⟨_, rfl⟩
      · exact hs.insert hget hpc hfree rfl hdrawn rfl (by simp) (by simp)
      · exact hs.insert hget hpc hfree rfl hdrawn rfl (by simp) (by simp)
  | reject hpc =>
      exact hs.quiet hget rfl hdrawn (by rw [hpc]; rfl) (by simp) (by simp)
        (by simp [Pc.Inserted])
  | skip hpc =>
      have hins : h.pc.Inserted := by simp [hpc, Pc.Inserted]
      rcases h.command.published_cases _ with heq | heq <;> rw [heq]
      · exact hs.quiet hget rfl hdrawn (by rw [hpc]; rfl) (by simp) (by simp) fun _ _ _ => hins
      · exact hs.quiet hget rfl hdrawn (by rw [hpc]; rfl) (by simp) (by simp) fun _ _ _ => hins
  | proceed hpc =>
      refine hs.quiet hget rfl hdrawn (by rw [hpc]; rfl) (by simp) (by simp) ?_
      simp [hpc, Pc.Inserted]
  | send hpc =>
      refine hs.quiet hget rfl hdrawn (by rw [hpc]; rfl) (by simp) (by simp) ?_
      simp [hpc, Pc.Inserted]
  | mark hpc =>
      have hins : h.pc.Inserted := by simp [hpc, Pc.Inserted]
      rcases h.command.published_cases _ with heq | heq <;> rw [heq]
      · exact hs.quiet hget rfl hdrawn (by rw [hpc]; rfl) (by simp) (by simp) fun _ _ _ => hins
      · exact hs.quiet hget rfl hdrawn (by rw [hpc]; rfl) (by simp) (by simp) fun _ _ _ => hins
  | retry hpc _ _ heff =>
      refine hs.quiet hget heff.store hdrawn (by rw [hpc]; rfl) (by simp) (by simp) ?_
      simp [hpc, Pc.Inserted]
  | giveUp hpc _ _ heff =>
      exact hs.quiet hget heff.store hdrawn (by rw [hpc]; rfl) (by simp) (by simp)
        (by simp [Pc.Inserted])
  | finish hpc hstore _ _ _ hpc' =>
      rcases hpc' with ⟨_, rfl⟩ | ⟨_, rfl⟩
      · refine hs.quiet hget hstore hdrawn (by rw [hpc]; rfl) (by simp) (by simp) ?_
        simp [hpc, Pc.Inserted]
      · exact hs.quiet hget hstore hdrawn (by rw [hpc]; rfl) (by simp) (by simp)
          (by simp [Pc.Inserted])

/-- A request brings in a handler that has built nothing. -/
lemma mem_request {hs : List Handler} {cmd : Command} {h : Handler}
    (hmem : h ∈ hs ++ [⟨cmd, .start⟩]) : h ∈ hs ∨ h.pc = .start := by
  rcases List.mem_append.mp hmem with hmem | hmem
  · exact Or.inl hmem
  · rw [List.mem_singleton.mp hmem]
    exact Or.inr rfl

/-- A handler after a step was there before, has just started, or has moved. -/
lemma mem_handlers_cases {s t : State} {a : Action} (hstep : step s a = some t) {g : Handler}
    (hg : g ∈ t.handlers) :
    g ∈ s.handlers ∨ g.pc = .start ∨ ∃ i oc d h sh pc, a = .await i oc d ∧
      s.handlers[i]? = some h ∧ h.await s.toShared d oc = some (sh, pc) ∧ t.toShared = sh ∧
      g = { h with pc } := by
  cases a with
  | request cmd =>
      obtain rfl := Option.some.inj hstep
      exact (mem_request hg).imp_right Or.inl
  | expire key =>
      obtain rfl := Option.some.inj hstep
      exact Or.inl hg
  | await i oc d =>
      obtain ⟨_, h, sh, pc, hget, hawait, rfl⟩ := step_await_eq hstep
      exact (List.mem_or_eq_of_mem_set hg).imp_right fun heq =>
        Or.inr ⟨i, oc, d, h, sh, pc, rfl, hget, hawait, rfl, heq⟩

/-- **Every step keeps the invariant.** -/
theorem writeInv_step {s t : State} {a : Action} (hs : WriteInv s) (hstep : step s a = some t) :
    WriteInv t := by
  cases a with
  | request cmd =>
      rw [step, Option.some.injEq] at hstep
      subst hstep
      refine ⟨hs.legal, ?_, ?_, ?_, ?_, ?_, ?_, hs.drawnStore, ?_⟩
      · intro h hh b hb
        rcases mem_request hh with hmem | hpc
        · exact hs.valid h hmem b hb
        · simp [hpc, Pc.built] at hb
      · intro h hh agg o req hpc' hcmd
        rcases mem_request hh with hmem | hpc
        · exact hs.charging h hmem agg o req hpc' hcmd
        · simp [hpc] at hpc'
      · intro h hh b hb
        rcases mem_request hh with hmem | hpc
        · exact hs.pending h hmem b hb
        · simp [hpc] at hb
      · intro e he
        obtain ⟨h, hmem, hb⟩ := hs.stored e he
        exact ⟨h, List.mem_append_left _ hmem, hb⟩
      · intro h hh b hins hb
        rcases mem_request hh with hmem | hpc
        · exact hs.inserted h hmem b hins hb
        · simp [hpc, Pc.built] at hb
      · intro h hh b hb
        rcases mem_request hh with hmem | hpc
        · exact hs.drawnBuilt h hmem b hb
        · simp [hpc, Pc.built] at hb
      · intro i j h h' b b' hi hj hij hb hb'
        have hold : ∀ {k : ℕ} {g : Handler} {c : Built},
            (s.handlers ++ [⟨cmd, .start⟩])[k]? = some g → g.pc.built = some c →
            s.handlers[k]? = some g := by
          intro k g c hk hc
          rw [List.getElem?_append] at hk
          split_ifs at hk with hlt
          · exact hk
          · have hmem := List.mem_of_getElem? hk
            rw [List.mem_singleton] at hmem
            subst hmem
            simp [Pc.built] at hc
        exact hs.distinct i j h h' b b' (hold hi hb) (hold hj hb') hij hb hb'
  | await i oc d =>
      obtain ⟨hfresh, h, sh, pc, hget, hmove, rfl⟩ := step_await hstep
      exact writeInv_move hs hfresh hget hmove
  | expire key =>
      rw [step, Option.some.injEq] at hstep
      subst hstep
      exact ⟨hs.legal, hs.valid, hs.charging, hs.pending, hs.stored, hs.inserted, hs.drawnBuilt,
        hs.drawnStore, hs.distinct⟩

/-- The invariant holds in every reachable state. -/
theorem writeInv_run {s : State} {as : List Action} (h : run step State.init as = some s) :
    WriteInv s :=
  run_preserves (fun hs hstep => writeInv_step hs hstep) writeInv_init h

/-! ### What a step leaves alone -/

/-- What a step does to the store: nothing, or the insert of what the handler holds that moves. -/
lemma store_await {s t : State} {a : Action} (hstep : step s a = some t) :
    t.store = s.store ∨ ∃ i oc d h b, a = .await i oc d ∧ s.handlers[i]? = some h ∧
      h.pc = .append b ∧ (∀ d ∈ s.store, ¬ DuplicateKey b.event d) ∧
      t.store = s.store ++ [b.event] := by
  cases a with
  | request cmd =>
      rw [step, Option.some.injEq] at hstep
      exact Or.inl (hstep ▸ rfl)
  | expire key =>
      rw [step, Option.some.injEq] at hstep
      exact Or.inl (hstep ▸ rfl)
  | await i oc d =>
      obtain ⟨_, h, sh, pc, hget, hmove, rfl⟩ := step_await hstep
      cases hmove with
      | insert hpc hfree => exact Or.inr ⟨i, oc, d, h, _, rfl, hget, hpc, hfree, rfl⟩
      | retry _ _ _ heff => exact Or.inl heff.store
      | giveUp _ _ _ heff => exact Or.inl heff.store
      | finish _ hstore => exact Or.inl hstore
      | _ => exact Or.inl rfl

/-- It is the insert of an event some handler holds. -/
lemma store_step {s t : State} {a : Action} (hstep : step s a = some t) :
    t.store = s.store ∨ ∃ h ∈ s.handlers, ∃ b, h.pc = .append b ∧
      (∀ d ∈ s.store, ¬ DuplicateKey b.event d) ∧ t.store = s.store ++ [b.event] := by
  refine (store_await hstep).imp_right ?_
  rintro ⟨_, _, _, h, b, _, hget, hpc, hfree, hstore⟩
  exact ⟨h, List.mem_of_getElem? hget, b, hpc, hfree, hstore⟩

/-- Stored events stay. -/
lemma store_subset {s t : State} {a : Action} (hstep : step s a = some t) :
    s.store ⊆ t.store := by
  rcases store_step hstep with hstore | ⟨_, _, b, _, _, hstore⟩
  · rw [hstore]
    exact List.Subset.refl _
  · rw [hstore]
    exact List.subset_append_left _ _

/-- A handler that has ended makes no move. -/
lemma Move.not_ended {sh sh' : Shared} {d : Draw} {h : Handler} {oc : Outcome} {pc : Pc}
    (hmove : Move sh d h oc sh' pc) : ¬ h.pc.Ended := by
  cases hmove with
  | idle _ hne => exact hne
  | _ => simp_all [Pc.Ended]

/-- A handler that has ended stays as it is. -/
lemma ended_persists {s t : State} {a : Action} (hstep : step s a = some t) {h : Handler}
    (hmem : h ∈ s.handlers) (hend : h.pc.Ended) : h ∈ t.handlers := by
  cases a with
  | request cmd =>
      rw [step, Option.some.injEq] at hstep
      subst hstep
      exact List.mem_append_left _ hmem
  | expire key =>
      rw [step, Option.some.injEq] at hstep
      subst hstep
      exact hmem
  | await i oc d =>
      obtain ⟨_, h', sh, pc, hget, hmove, rfl⟩ := step_await hstep
      obtain ⟨j, hj⟩ := List.mem_iff_getElem?.mp hmem
      have hij : i ≠ j := by
        rintro rfl
        rw [hget, Option.some.injEq] at hj
        exact hmove.not_ended (hj ▸ hend)
      refine List.mem_iff_getElem?.mpr ⟨j, ?_⟩
      rw [List.getElem?_set_ne hij]
      exact hj

/-- Stored events with one id are one event. -/
lemma WriteInv.eq_of_eventId_eq {s : State} (hs : WriteInv s) {e e' : Event} (he : e ∈ s.store)
    (he' : e' ∈ s.store) (hid : e.eventId = e'.eventId) : e = e' := by
  obtain ⟨h, hmem, b, hb, rfl⟩ := hs.stored e he
  obtain ⟨h', hmem', b', hb', rfl⟩ := hs.stored e' he'
  obtain ⟨i, hi⟩ := List.mem_iff_getElem?.mp hmem
  obtain ⟨j, hj⟩ := List.mem_iff_getElem?.mp hmem'
  by_cases hij : i = j
  · subst hij
    rw [hi, Option.some.injEq] at hj
    subst hj
    rw [hb, Option.some.injEq] at hb'
    rw [hb']
  · exact absurd hid (hs.distinct i j h h' b b' hi hj hij hb hb').1

/-- An order's log holds no event twice. -/
lemma WriteInv.orderLog_nodup {s : State} (hs : WriteInv s) (o : String) :
    (orderLog s.store o).Nodup := by
  rcases hs.legal o with hnil | hlegal
  · rw [hnil]
    exact List.nodup_nil
  · refine hlegal.versions_lt.imp fun hlt heq => ?_
    rw [heq] at hlt
    exact lt_irrefl _ hlt

/-- The store holds no event twice. -/
lemma WriteInv.store_nodup {s : State} (hs : WriteInv s) : s.store.Nodup := by
  refine List.nodup_iff_count_le_one.mpr fun e => ?_
  have hcount := List.nodup_iff_count_le_one.mp (hs.orderLog_nodup e.aggregateId) e
  rw [orderLog, List.count_filter (by simp)] at hcount
  exact hcount

/-- An event that its handler has not stored by its end is never stored. -/
lemma unstored_persists {s t : State} {a : Action} (hs : WriteInv s)
    (hstep : step s a = some t) {h : Handler} (hmem : h ∈ s.handlers) (hend : h.pc.Ended)
    {b : Built} (hb : h.pc.built = some b) (hnot : b.event ∉ s.store) : b.event ∉ t.store := by
  rcases store_step hstep with hstore | ⟨h', hmem', b', hpc', _, hstore⟩
  · rw [hstore]
    exact hnot
  · rw [hstore]
    intro hin
    rcases List.mem_append.mp hin with hin | hin
    · exact hnot hin
    · obtain ⟨i, hi⟩ := List.mem_iff_getElem?.mp hmem
      obtain ⟨j, hj⟩ := List.mem_iff_getElem?.mp hmem'
      have hij : i ≠ j := by
        rintro rfl
        rw [hi, Option.some.injEq] at hj
        rw [hj, hpc'] at hend
        exact hend
      have hdist := hs.distinct i j h h' b b' hi hj hij hb (by rw [hpc']; rfl)
      exact hdist.1 (by rw [List.mem_singleton.mp hin])

/-! ### How a handler fails -/

/-- **The failures of a handler that has built an event**: its insert took effect and the
acknowledgement was lost, its append failed without effect, or a call after its insert raised. -/
inductive Failure (s t : State) (h : Handler) (b : Built) (err : ApiError) : Outcome → Prop where
  | lostInsert : h.pc = .append b → (∀ d ∈ s.store, ¬ DuplicateKey b.event d) →
      err = .serviceError → b.event ∈ t.store → Failure s t h b err .raisesAfterEffect
  | rejected {oc : Outcome} : h.pc = .append b →
      (oc = .raises ∨ ∃ d ∈ s.store, DuplicateKey b.event d) → t.store = s.store →
      Failure s t h b err oc
  | later {oc : Outcome} : (∃ n call, h.pc = .publish b n call ∧ 3 ≤ n) ∨ h.pc = .setex b →
      oc ≠ .completes → err = .serviceError ∨ err = .retryError → Failure s t h b err oc

/-- A handler that fails after its insert has its event stored. -/
lemma WriteInv.stored_of_later {s : State} (hs : WriteInv s) {h : Handler} (hmem : h ∈ s.handlers)
    {b : Built} (hpc : (∃ n call, h.pc = .publish b n call ∧ 3 ≤ n) ∨ h.pc = .setex b) :
    b.event ∈ s.store := by
  rcases hpc with ⟨n, call, hpc, _⟩ | hpc
  · exact hs.inserted h hmem b (by simp [hpc, Pc.Inserted]) (by rw [hpc]; rfl)
  · exact hs.inserted h hmem b (by simp [hpc, Pc.Inserted]) (by rw [hpc]; rfl)

/-- A handler found failed after a step had failed before or fails in this step. -/
lemma failed_after_step {s t : State} {a : Action} (hstep : step s a = some t) {g : Handler}
    (hg : g ∈ t.handlers) {b : Built} {err : ApiError} (hpc : g.pc = .failed (some b) err) :
    g ∈ s.handlers ∨ ∃ i oc d h, a = .await i oc d ∧ s.handlers[i]? = some h ∧
      Failure s t h b err oc := by
  rcases mem_handlers_cases hstep hg with
    hold | hstart | ⟨i, oc, d, h, sh, pc, rfl, hget, hawait, hshared, rfl⟩
  · exact Or.inl hold
  · simp [hstart] at hpc
  · refine Or.inr ⟨i, oc, d, h, rfl, hget, ?_⟩
    replace hpc : pc = .failed (some b) err := hpc
    have hstore : t.store = sh.store := congrArg Shared.store hshared
    cases await_move hawait with
    | idle _ _ hb =>
        rw [hpc] at hb
        simp [Pc.built] at hb
    | insert happ hfree hend =>
        rcases hend with ⟨_, rfl⟩ | ⟨rfl, rfl⟩
        · simp at hpc
        · simp only [Pc.failed.injEq, Option.some.injEq] at hpc
          obtain ⟨rfl, rfl⟩ := hpc
          refine .lostInsert happ hfree rfl ?_
          rw [hstore]
          exact List.mem_append_right _ (List.mem_singleton_self _)
    | reject happ hwhy =>
        simp only [Pc.failed.injEq, Option.some.injEq] at hpc
        obtain ⟨rfl, rfl⟩ := hpc
        exact .rejected happ hwhy hstore
    | @skip b' =>
        rcases h.command.published_cases b' with heq | heq <;> simp [heq] at hpc
    | @mark b' =>
        rcases h.command.published_cases b' with heq | heq <;> simp [heq] at hpc
    | giveUp hpub hoc hn =>
        simp only [Pc.failed.injEq, Option.some.injEq] at hpc
        obtain ⟨rfl, rfl⟩ := hpc
        exact .later (Or.inl ⟨_, _, hpub, hn⟩) hoc (Or.inr rfl)
    | finish hset _ _ _ _ hend =>
        rcases hend with ⟨_, rfl⟩ | ⟨hoc, rfl⟩
        · simp at hpc
        · simp only [Pc.failed.injEq, Option.some.injEq] at hpc
          obtain ⟨rfl, rfl⟩ := hpc
          exact .later (Or.inr hset) hoc (Or.inl rfl)
    | _ => simp at hpc

end OrderCqrs
