import OrderCqrs.Command.EventStore
import OrderCqrs.Command.Handlers
import OrderCqrs.Projection.Replay

/-!
The cached reads of `get_order` (`api/routers/query_router.py`) against the consumer, which projects
an event and then invalidates the cache entry of its order.

* `GetOrder`, `CacheAside`: the requests, call by call, the cache, the tables, the consumer.
* `VersionOrdered`: the events of every order come in version order.
* `CacheAside.NeverStale`: a request returns nothing older than what was invalidated before it.
* `FillUpToDate`: no event of the order was projected and invalidated between the `fetchrow` and the
  `setex` of a request.
* `never_stale`: **along every run that meets the condition no request is served a stale view**, and
  a fill outside of the condition leaves the next request one.
* `stale_fill`: a slow request fills the cache with a view the consumer has invalidated.
-/

namespace OrderCqrs

open Runs

/-! ### The transition system -/

/-- The cache key of an order. -/
def orderKey (orderId : String) : String := s!"order:{orderId}"

lemma orderKey_inj {o o' : String} : orderKey o = orderKey o' ↔ o = o' := by
  simp [orderKey, toString]

/-- The version of a view. -/
def OrderView.version? (view : OrderView) : Option ℤ := view.row.map (·.version.val)

/-- The call a request awaits, or how it has ended: with a view, with 404, or with an error. -/
inductive GetOrderPc where
  | redisGet
  | fetchrow
  | setex (view : OrderView)
  | returned (view : OrderView)
  | notFound
  | failed

/-- The request is about to fill the cache. -/
def GetOrderPc.fills : GetOrderPc → Bool
  | .setex _ => true
  | _ => false

/-- The version that has been returned. -/
def GetOrderPc.version? : GetOrderPc → Option ℤ
  | .returned view => view.version?
  | _ => none

/-- A `get_order`.  `started` counts the invalidations before it, `fetched` the projections before
its `fetchrow`. -/
structure GetOrder where
  orderId : String
  pc : GetOrderPc
  started : ℕ
  fetched : ℕ

/-- The consumer, which has `events` to handle and has projected `current`, the tables, the cache
and the requests.  `projected` and `invalidated` are the histories of the consumer's two steps. -/
structure CacheAside where
  events : List Event
  current : Option Event
  readModel : ReadModel
  cache : String → Option OrderView
  requests : List GetOrder
  projected : List Event
  invalidated : List Event

/-- The moves of consumer, requests and cache. -/
inductive CacheAction where
  | project
  | invalidate
  | request (orderId : String)
  | await (i : ℕ) (outcome : Outcome)
  | expire (orderId : String)

namespace CacheAside

/-- Nothing projected, nothing cached. -/
def init (topic : List Event) : CacheAside where
  events := topic
  current := none
  readModel := .empty
  cache := fun _ => none
  requests := []
  projected := []
  invalidated := []

/-- The awaited call of a request completes. -/
def getOrder (s : CacheAside) (r : GetOrder) : Option ((String → Option OrderView) × GetOrder) :=
  match r.pc with
  | .redisGet =>
      some (s.cache, { r with pc := (s.cache (orderKey r.orderId)).elim .fetchrow .returned })
  | .fetchrow =>
      let view := s.readModel.view r.orderId
      some (s.cache, { r with
        pc := if view.row.isSome then .setex view else .notFound
        fetched := s.projected.length })
  | .setex view =>
      some (Function.update s.cache (orderKey r.orderId) (some view), { r with pc := .returned view })
  | .returned _ | .notFound | .failed => none

/-- One move. -/
def step [Btree] (s : CacheAside) : CacheAction → Option CacheAside
  | .project => do
      guard s.current.isNone
      let e ← s.events.head?
      let readModel ← projectToPostgres s.readModel e
      return { s with
        events := s.events.tail
        current := some e
        readModel
        projected := s.projected ++ [e] }
  | .invalidate => do
      let e ← s.current
      return { s with
        current := none
        cache := Function.update s.cache (orderKey e.aggregateId) none
        invalidated := s.invalidated ++ [e] }
  | .request orderId =>
      some { s with
        requests := s.requests ++ [⟨orderId, .redisGet, s.invalidated.length, 0⟩] }
  | .await i outcome => do
      let r ← s.requests[i]?
      let (cache, r') ← s.getOrder r
      match outcome with
      | .completes => return { s with cache, requests := s.requests.set i r' }
      | .raises => return { s with requests := s.requests.set i { r with pc := .failed } }
      | .raisesAfterEffect =>
          return { s with cache, requests := s.requests.set i { r with pc := .failed } }
  | .expire orderId => some { s with cache := Function.update s.cache (orderKey orderId) none }

/-! ### What is to hold, and when -/

/-- The tables showed this view of an order after the first `k` projections. -/
def Showed [Btree] (s : CacheAside) (orderId : String) (k : ℕ) (view : OrderView) : Prop :=
  ∃ rm, run projectToPostgres .empty (s.projected.take k) = some rm ∧ rm.view orderId = view

/-- **No request is served a stale view**: a request that started after the invalidation for an
event of its order does not end with 404, and the view it returns is one of the order, of at least
the event's version. -/
def NeverStale [Btree] (s : CacheAside) : Prop :=
  ∀ r ∈ s.requests, ∀ e ∈ s.invalidated.take r.started, e.aggregateId = r.orderId →
    r.pc ≠ .notFound ∧ ∀ view, r.pc = .returned view →
      (∃ k, s.Showed r.orderId k view) ∧ ∃ v ∈ view.version?, e.aggregateVersion ≤ v

end CacheAside

/-- The events of every order come in version order, its creation first. -/
def VersionOrdered (topic : List Event) : Prop :=
  ∀ o, orderLog topic o = [] ∨ OrderEvents o (orderLog topic o)

/-- **No fill is late**: when the `setex` of a request takes effect, no event of its order has been
projected and invalidated since its `fetchrow`. -/
def FillUpToDate (s : CacheAside) : CacheAction → Prop
  | .await i outcome => outcome ≠ .raises → ∀ r ∈ s.requests[i]?, r.pc.fills →
      ∀ e ∈ s.invalidated.drop r.fetched, e.aggregateId ≠ r.orderId
  | _ => True

instance (s : CacheAside) : (a : CacheAction) → Decidable (FillUpToDate s a)
  | .await i outcome =>
      inferInstanceAs (Decidable (outcome ≠ .raises → ∀ r ∈ s.requests[i]?, r.pc.fills →
        ∀ e ∈ s.invalidated.drop r.fetched, e.aggregateId ≠ r.orderId))
  | .project | .invalidate | .request _ | .expire _ => .isTrue trivial

/-! ### The version of a view -/

section Version

variable {o : String} {evs : List Event}

/-- The version of an order is that of its last event. -/
lemma OrderEvents.version_eq (h : OrderEvents o evs) :
    ∃ st e, orderState evs = some st ∧ evs.getLast? = some e ∧ st.version = e.aggregateVersion := by
  obtain ⟨e, c, es, rfl, hc, hes⟩ := h.opening
  refine ⟨_, _, orderState_cons hc, List.getLast?_eq_some_getLast (List.cons_ne_nil e es), ?_⟩
  cases es using List.reverseRecOn with
  | nil => rfl
  | append_singleton es d =>
      have hd : ∀ c', d.payload ≠ .orderCreated c' :=
        hes d (List.mem_append_right _ (List.mem_singleton_self d))
      rw [List.foldl_append, List.foldl_cons, List.foldl_nil, OrderState.apply]
      cases hp : d.payload with
      | orderCreated c' => exact absurd hp (hd c')
      | _ => simp

/-- No event of the order has a higher version than the last one. -/
lemma OrderEvents.le_last (h : OrderEvents o evs) {d e : Event} (hd : evs.getLast? = some d)
    (he : e ∈ evs) : e.aggregateVersion ≤ d.aggregateVersion := by
  obtain ⟨es, rfl⟩ := List.getLast?_eq_some_iff.mp hd
  rcases List.mem_append.mp he with he | he
  · exact (List.pairwise_append.mp h.increasing).2.2 e he d (List.mem_singleton_self d) |>.le
  · rw [List.mem_singleton.mp he]

end Version

namespace CacheAside

variable {topic : List Event} {s t : CacheAside} {o : String} {k : ℕ} {view : OrderView}

lemma Showed.mono [Btree] (h : s.Showed o k view) (hk : k ≤ s.projected.length)
    (hgrow : s.projected <+: t.projected) : t.Showed o k view := by
  obtain ⟨rm, hrun, hview⟩ := h
  obtain ⟨later, hlater⟩ := hgrow
  refine ⟨rm, ?_, hview⟩
  rw [← hlater, List.take_append_of_le_length hk]
  exact hrun

/-- The tables show the columns that the events of the order projected so far leave. -/
lemma Showed.state [Btree] (h : s.Showed o k view) :
    view.row.map (·.state) = orderState (orderLog (s.projected.take k) o) := by
  obtain ⟨rm, hrun, rfl⟩ := h
  obtain ⟨rm', hrun', hview⟩ := projection_local.run_filter (k := o) rfl hrun
  have horder : ∀ e ∈ orderLog (s.projected.take k) o, e.aggregateId = o :=
    fun e he => (mem_orderLog.mp he).2
  rw [hview]
  exact run_orderState Finmap.notMem_empty horder hrun'

/-- **The version of a view** lies between those of the events projected before and after it. -/
lemma Showed.version [Btree] (htopic : VersionOrdered topic) (hsplit : s.projected <+: topic)
    (h : s.Showed o k view) (hk : k ≤ s.projected.length) :
    (∀ e ∈ s.projected.take k, e.aggregateId = o → ∃ v ∈ view.version?, e.aggregateVersion ≤ v) ∧
      ∀ v ∈ view.version?, ∀ e ∈ topic.drop k, e.aggregateId = o → v < e.aggregateVersion := by
  have hstate := h.state
  have htake : s.projected.take k = topic.take k := by
    obtain ⟨later, rfl⟩ := hsplit
    rw [List.take_append_of_le_length hk]
  rw [htake] at hstate ⊢
  have hlog : orderLog topic o = orderLog (topic.take k) o ++ orderLog (topic.drop k) o := by
    rw [orderLog, orderLog, orderLog, ← List.filter_append, List.take_append_drop]
  by_cases hnil : orderLog (topic.take k) o = []
  · have hnone : view.row = none := by
      rw [hnil] at hstate
      exact Option.map_eq_none_iff.mp hstate
    refine ⟨fun e he ho => ?_, fun v hv => ?_⟩
    · have hin : e ∈ orderLog (topic.take k) o := mem_orderLog.mpr ⟨he, ho⟩
      rw [hnil] at hin
      exact absurd hin List.not_mem_nil
    · rw [OrderView.version?, hnone] at hv
      exact absurd hv (by simp)
  · have hevents : OrderEvents o (orderLog topic o) := by
      refine (htopic o).resolve_left fun heq => hnil ?_
      rw [heq, eq_comm, List.append_eq_nil_iff] at hlog
      exact hlog.1
    have hearly : OrderEvents o (orderLog (topic.take k) o) := by
      have hlen := hevents.take (List.length_pos_iff.mpr hnil)
      rwa [hlog, List.take_left'  rfl] at hlen
    obtain ⟨st, d, hst, hlast, hversion⟩ := hearly.version_eq
    rw [hst, Option.map_eq_some_iff] at hstate
    obtain ⟨row, hrow, hrowst⟩ := hstate
    have hview : view.version? = some d.aggregateVersion := by
      rw [OrderView.version?, hrow, ← hversion, ← hrowst]
      rfl
    rw [hview]
    refine ⟨fun e he ho => ⟨_, rfl, hearly.le_last hlast (mem_orderLog.mpr ⟨he, ho⟩)⟩,
      fun v hv e he ho => ?_⟩
    obtain rfl := Option.some.inj hv
    have hinc := hevents.increasing
    rw [hlog] at hinc
    exact (List.pairwise_append.mp hinc).2.2 d (List.mem_of_getLast? hlast) e
      (mem_orderLog.mpr ⟨he, ho⟩)

/-! ### What a move does -/

lemma project_cases [Btree] (h : s.step .project = some t) :
    s.current = none ∧ ∃ e rm, s.events = e :: t.events ∧
      projectToPostgres s.readModel e = some rm ∧ t = { s with
        events := t.events
        current := some e
        readModel := rm
        projected := s.projected ++ [e] } := by
  simp only [step, Option.bind_eq_bind, Option.bind_eq_some_iff, Option.guard_eq_some'] at h
  obtain ⟨_, hnone, e, he, rm, hrm, h⟩ := h
  obtain rfl := Option.some.inj h
  exact ⟨Option.isNone_iff_eq_none.mp hnone, e, rm, (List.cons_head?_tail he).symm, hrm, rfl⟩

lemma invalidate_cases [Btree] (h : s.step .invalidate = some t) :
    ∃ e, s.current = some e ∧ t = { s with
      current := none
      cache := Function.update s.cache (orderKey e.aggregateId) none
      invalidated := s.invalidated ++ [e] } := by
  obtain ⟨e, he, h⟩ := Option.bind_eq_some_iff.mp h
  exact ⟨e, he, (Option.some.inj h).symm⟩

/-- What the call of a request leaves in the cache and in the request. -/
inductive Move (s : CacheAside) (r : GetOrder) (oc : Outcome) :
    (String → Option OrderView) → GetOrder → Prop where
  | hit {view : OrderView} : r.pc = .redisGet → s.cache (orderKey r.orderId) = some view →
      Move s r oc s.cache { r with pc := .returned view }
  | miss : r.pc = .redisGet → Move s r oc s.cache { r with pc := .fetchrow }
  | fetch : r.pc = .fetchrow → Move s r oc s.cache
      { r with pc := .setex (s.readModel.view r.orderId), fetched := s.projected.length }
  | notFound : r.pc = .fetchrow → (s.readModel.view r.orderId).row = none →
      Move s r oc s.cache { r with pc := .notFound, fetched := s.projected.length }
  | fill {view : OrderView} {pc : GetOrderPc} : r.pc = .setex view → oc ≠ .raises →
      pc = .returned view ∨ pc = .failed →
      Move s r oc (Function.update s.cache (orderKey r.orderId) (some view)) { r with pc }
  | fail : oc = .raises ∨ r.pc.fills = false → Move s r oc s.cache { r with pc := .failed }

lemma move_of_getOrder {r r' : GetOrder} {cache : String → Option OrderView} {oc : Outcome}
    (hoc : oc ≠ .raises) (h : s.getOrder r = some (cache, r')) :
    Move s r oc cache r' ∧ Move s r oc cache { r with pc := .failed } := by
  rw [getOrder] at h
  cases hpc : r.pc with
  | redisGet =>
      rw [hpc] at h
      obtain ⟨rfl, rfl⟩ := Prod.mk.inj (Option.some.inj h)
      refine ⟨?_, .fail (Or.inr (by rw [hpc]; rfl))⟩
      cases hcache : s.cache (orderKey r.orderId) with
      | none => exact .miss hpc
      | some view => exact .hit hpc hcache
  | fetchrow =>
      rw [hpc] at h
      obtain ⟨rfl, rfl⟩ := Prod.mk.inj (Option.some.inj h)
      refine ⟨?_, .fail (Or.inr (by rw [hpc]; rfl))⟩
      split_ifs with hrow
      · exact .fetch hpc
      · exact .notFound hpc (Option.not_isSome_iff_eq_none.mp hrow)
  | setex view =>
      rw [hpc] at h
      obtain ⟨rfl, rfl⟩ := Prod.mk.inj (Option.some.inj h)
      exact ⟨.fill hpc hoc (Or.inl rfl), .fill hpc hoc (Or.inr rfl)⟩
  | returned _ | notFound | failed =>
      rw [hpc] at h
      simp at h

lemma await_cases [Btree] {i : ℕ} {oc : Outcome} (h : s.step (.await i oc) = some t) :
    ∃ r cache r', s.requests[i]? = some r ∧ Move s r oc cache r' ∧
      t = { s with cache, requests := s.requests.set i r' } := by
  simp only [step, Option.bind_eq_bind, Option.bind_eq_some_iff] at h
  obtain ⟨r, hr, ⟨cache, r'⟩, hget, h⟩ := h
  cases oc with
  | completes =>
      obtain rfl := Option.some.inj h
      exact ⟨r, cache, r', hr, (move_of_getOrder (by simp) hget).1, rfl⟩
  | raises =>
      obtain rfl := Option.some.inj h
      exact ⟨r, s.cache, _, hr, .fail (Or.inl rfl), rfl⟩
  | raisesAfterEffect =>
      obtain rfl := Option.some.inj h
      exact ⟨r, cache, _, hr, (move_of_getOrder (by simp) hget).2, rfl⟩

/-! ### The invariant -/

/-- The part of the invariant that every run keeps. -/
structure Inv [Btree] (topic : List Event) (s : CacheAside) : Prop where
  split : topic = s.projected ++ s.events
  handled : s.projected = s.invalidated ++ s.current.toList
  tables : run projectToPostgres .empty s.projected = some s.readModel
  started : ∀ r ∈ s.requests, r.started ≤ s.invalidated.length
  /-- What a request is about to cache is a view of its order, fetched after its start. -/
  filling : ∀ r ∈ s.requests, ∀ view, r.pc = .setex view →
    s.Showed r.orderId r.fetched view ∧ r.started ≤ r.fetched ∧ r.fetched ≤ s.projected.length

/-- The view of the order is not older than the first `n` invalidations. -/
def UpTo [Btree] (s : CacheAside) (o : String) (n : ℕ) (view : OrderView) : Prop :=
  ∃ k ≤ s.projected.length, s.Showed o k view ∧
    ∀ e ∈ (s.invalidated.take n).drop k, e.aggregateId ≠ o

/-- The part that late fills break. -/
structure Fresh [Btree] (s : CacheAside) : Prop where
  cached : ∀ o view, s.cache (orderKey o) = some view → s.UpTo o s.invalidated.length view
  returned : ∀ r ∈ s.requests, ∀ view, r.pc = .returned view → s.UpTo r.orderId r.started view
  notFound : ∀ r ∈ s.requests, r.pc = .notFound →
    ∀ e ∈ s.invalidated.take r.started, e.aggregateId ≠ r.orderId

lemma inv_init [Btree] : Inv topic (init topic) where
  split := rfl
  handled := rfl
  tables := rfl
  started := by simp [init]
  filling := by simp [init]

lemma fresh_init [Btree] : Fresh (init topic) where
  cached := by simp [init]
  returned := by simp [init]
  notFound := by simp [init]

lemma Inv.invalidated_le [Btree] (hs : Inv topic s) :
    s.invalidated.length ≤ s.projected.length := by
  rw [hs.handled, List.length_append]
  exact Nat.le_add_right _ _

lemma UpTo.mono [Btree] (h : s.UpTo o k view) (hk : k ≤ s.invalidated.length)
    (hproj : s.projected <+: t.projected) (hinv : s.invalidated <+: t.invalidated) :
    t.UpTo o k view := by
  obtain ⟨n, hn, hshow, hnone⟩ := h
  refine ⟨n, hn.trans hproj.length_le, hshow.mono hn hproj, ?_⟩
  obtain ⟨later, hlater⟩ := hinv
  rw [← hlater, List.take_append_of_le_length hk]
  exact hnone

/-- A view that is not older than all invalidations is not older than the first of them. -/
lemma UpTo.of_length [Btree] (h : s.UpTo o s.invalidated.length view) (n : ℕ) :
    s.UpTo o n view := by
  obtain ⟨k, hk, hshow, hnone⟩ := h
  refine ⟨k, hk, hshow, fun e he => hnone e ?_⟩
  rw [List.take_length]
  rw [List.drop_take] at he
  exact List.mem_of_mem_take he

/-- **Every move keeps the first part.** -/
theorem inv_step [Btree] {a : CacheAction} (hs : Inv topic s) (h : s.step a = some t) :
    Inv topic t := by
  cases a with
  | project =>
      obtain ⟨hnone, e, rm, hevents, hrm, heq⟩ := project_cases h
      rw [heq]
      refine ⟨?_, ?_, ?_, hs.started, fun r hr view hpc => ?_⟩
      · rw [List.append_assoc, List.singleton_append, ← hevents]
        exact hs.split
      · rw [hs.handled, hnone]
        simp
      · show run projectToPostgres .empty (s.projected ++ [e]) = some rm
        rw [run_concat, hs.tables, Option.bind_some, hrm]
      · obtain ⟨hshow, hle, hlen⟩ := hs.filling r hr view hpc
        have hgrow : s.projected <+: s.projected ++ [e] := List.prefix_append _ _
        exact ⟨hshow.mono hlen hgrow, hle, hlen.trans hgrow.length_le⟩
  | invalidate =>
      obtain ⟨e, he, rfl⟩ := invalidate_cases h
      refine ⟨hs.split, ?_, hs.tables, fun r hr => ?_, hs.filling⟩
      · rw [hs.handled, he]
        simp
      · refine (hs.started r hr).trans ?_
        rw [List.length_append]
        exact Nat.le_add_right _ _
  | request orderId =>
      obtain rfl := Option.some.inj h
      refine ⟨hs.split, hs.handled, hs.tables, fun r hr => ?_, fun r hr view hpc => ?_⟩
      · rcases List.mem_append.mp hr with hr | hr
        · exact hs.started r hr
        · rw [List.mem_singleton.mp hr]
      · rcases List.mem_append.mp hr with hr | hr
        · exact hs.filling r hr view hpc
        · rw [List.mem_singleton.mp hr] at hpc
          simp at hpc
  | expire orderId =>
      obtain rfl := Option.some.inj h
      exact ⟨hs.split, hs.handled, hs.tables, hs.started, hs.filling⟩
  | await i oc =>
      obtain ⟨r, cache, r', hr, hmove, rfl⟩ := await_cases h
      have hrin : r ∈ s.requests := List.mem_of_getElem? hr
      have hstarted : r'.started = r.started := by cases hmove <;> rfl
      have hfill : ∀ view, r'.pc = .setex view → s.Showed r'.orderId r'.fetched view ∧
          r'.started ≤ r'.fetched ∧ r'.fetched ≤ s.projected.length := by
        intro view hpc
        cases hmove with
        | fetch =>
            obtain rfl := GetOrderPc.setex.inj hpc
            refine ⟨⟨_, ?_, rfl⟩, (hs.started r hrin).trans hs.invalidated_le, le_rfl⟩
            rw [List.take_length]
            exact hs.tables
        | fill _ _ hpc' =>
            rcases hpc' with rfl | rfl <;> simp at hpc
        | hit | miss | notFound | fail => simp at hpc
      refine ⟨hs.split, hs.handled, hs.tables, fun g hg => ?_, fun g hg view hpc => ?_⟩
      · rcases List.mem_or_eq_of_mem_set hg with hg | rfl
        · exact hs.started g hg
        · rw [hstarted]
          exact hs.started r hrin
      · rcases List.mem_or_eq_of_mem_set hg with hg | rfl
        · exact hs.filling g hg view hpc
        · exact hfill view hpc

theorem inv_run [Btree] {as : List CacheAction} (h : run step (init topic) as = some s) :
    Inv topic s :=
  run_preserves (fun hs hstep => inv_step hs hstep) inv_init h

/-- What is in the cache after a key was deleted was there under another key. -/
lemma update_none_eq_some {cache : String → Option OrderView} {key key' : String} {view : OrderView}
    (h : Function.update cache key none key' = some view) :
    key' ≠ key ∧ cache key' = some view := by
  by_cases hkey : key' = key
  · rw [hkey, Function.update_self] at h
    simp at h
  · rw [Function.update_of_ne hkey] at h
    exact ⟨hkey, h⟩

/-- An invalidation takes away what it makes stale. -/
lemma Fresh.invalidate [Btree] (hs : Inv topic s) (hf : Fresh s) (h : s.step .invalidate = some t) :
    Fresh t := by
  obtain ⟨e, _, rfl⟩ := invalidate_cases h
  have hinv : s.invalidated <+: s.invalidated ++ [e] := List.prefix_append _ _
  refine ⟨fun o view hcache => ?_, fun r hr view hpc => ?_, fun r hr hpc d hd => ?_⟩
  · obtain ⟨hkey, hcache⟩ := update_none_eq_some hcache
    have hne : e.aggregateId ≠ o := fun heq => hkey (orderKey_inj.mpr heq.symm)
    obtain ⟨k, hk, hshow, hnone⟩ := hf.cached o view hcache
    refine ⟨k, hk, hshow.mono hk List.prefix_rfl, fun d hd => ?_⟩
    replace hd : d ∈ ((s.invalidated ++ [e]).take (s.invalidated ++ [e]).length).drop k := hd
    rw [List.take_length] at hnone
    rw [List.take_length, List.drop_append] at hd
    rcases List.mem_append.mp hd with hd | hd
    · exact hnone d hd
    · rw [List.mem_singleton.mp (List.mem_of_mem_drop hd)]
      exact hne
  · exact (hf.returned r hr view hpc).mono (hs.started r hr) List.prefix_rfl hinv
  · replace hd : d ∈ (s.invalidated ++ [e]).take r.started := hd
    rw [List.take_append_of_le_length (hs.started r hr)] at hd
    exact hf.notFound r hr hpc d hd

/-- A call of a request: it caches what meets the condition, and returns what the cache or the
tables show. -/
lemma Fresh.await [Btree] (htopic : VersionOrdered topic) (hs : Inv topic s) (hf : Fresh s) {i : ℕ}
    {oc : Outcome} (ha : FillUpToDate s (.await i oc)) (h : s.step (.await i oc) = some t) :
    Fresh t := by
  obtain ⟨r, cache, r', hr, hmove, rfl⟩ := await_cases h
  have hrin : r ∈ s.requests := List.mem_of_getElem? hr
  have hcache : ∀ o view, cache (orderKey o) = some view →
      s.UpTo o s.invalidated.length view := by
    intro o view hin
    cases hmove with
    | @fill view' _ hpc hoc =>
        obtain ⟨hshow, hle, hlen⟩ := hs.filling r hrin view' hpc
        by_cases ho : o = r.orderId
        · subst ho
          rw [Function.update_self] at hin
          obtain rfl := Option.some.inj hin
          refine ⟨r.fetched, hlen, hshow, ?_⟩
          rw [List.take_length]
          exact ha hoc r hr (by rw [hpc]; rfl)
        · rw [Function.update_of_ne (fun heq => ho (orderKey_inj.mp heq))] at hin
          exact hf.cached o view hin
    | hit | miss | fetch | notFound | fail => exact hf.cached o view hin
  have hreturned : ∀ view, r'.pc = .returned view → s.UpTo r'.orderId r'.started view := by
    intro view hpc'
    cases hmove with
    | hit _ hin =>
        obtain rfl := GetOrderPc.returned.inj hpc'
        exact (hf.cached _ _ hin).of_length _
    | @fill view' _ hpc _ hor =>
        obtain ⟨hshow, hle, hlen⟩ := hs.filling r hrin view' hpc
        rcases hor with rfl | rfl
        · obtain rfl := GetOrderPc.returned.inj hpc'
          refine ⟨r.fetched, hlen, hshow, fun e he => ?_⟩
          rw [List.drop_eq_nil_of_le ((List.length_take_le _ _).trans hle)] at he
          exact absurd he List.not_mem_nil
        · simp at hpc'
    | miss | fetch | notFound | fail => simp at hpc'
  have hnotFound : r'.pc = .notFound →
      ∀ e ∈ s.invalidated.take r'.started, e.aggregateId ≠ r'.orderId := by
    intro hpc' e he ho
    cases hmove with
    | notFound _ hrow =>
        have hshow : s.Showed r.orderId s.projected.length (s.readModel.view r.orderId) :=
          ⟨_, by rw [List.take_length]; exact hs.tables, rfl⟩
        have hin : e ∈ s.projected.take s.projected.length := by
          rw [List.take_length, hs.handled]
          exact List.mem_append_left _ (List.mem_of_mem_take he)
        have hsplit : s.projected <+: topic := ⟨_, hs.split.symm⟩
        obtain ⟨v, hv, _⟩ := (hshow.version htopic hsplit le_rfl).1 e hin ho
        rw [OrderView.version?, hrow] at hv
        simp at hv
    | fill _ _ hor => rcases hor with rfl | rfl <;> simp at hpc'
    | hit | miss | fetch | fail => simp at hpc'
  refine ⟨hcache, fun g hg view hpc => ?_, fun g hg hpc => ?_⟩
  · rcases List.mem_or_eq_of_mem_set hg with hg | rfl
    · exact hf.returned g hg view hpc
    · exact hreturned view hpc
  · rcases List.mem_or_eq_of_mem_set hg with hg | rfl
    · exact hf.notFound g hg hpc
    · exact hnotFound hpc

/-- **Every move that meets the condition keeps the second part.** -/
theorem fresh_step [Btree] (htopic : VersionOrdered topic) {a : CacheAction} (hs : Inv topic s)
    (hf : Fresh s) (ha : FillUpToDate s a) (h : s.step a = some t) : Fresh t := by
  cases a with
  | project =>
      obtain ⟨_, e, rm, _, _, heq⟩ := project_cases h
      have hproj : s.projected <+: t.projected := by
        rw [heq]
        exact List.prefix_append _ _
      have hup : ∀ {o n view}, n ≤ s.invalidated.length → s.UpTo o n view → t.UpTo o n view :=
        fun hn hu => hu.mono hn hproj (by rw [heq])
      rw [heq] at hup ⊢
      exact ⟨fun o view hcache => hup le_rfl (hf.cached o view hcache),
        fun r hr view hpc => hup (hs.started r hr) (hf.returned r hr view hpc), hf.notFound⟩
  | invalidate => exact hf.invalidate hs h
  | request orderId =>
      obtain rfl := Option.some.inj h
      refine ⟨hf.cached, fun r hr view hpc => ?_, fun r hr hpc => ?_⟩
      · rcases List.mem_append.mp hr with hr | hr
        · exact hf.returned r hr view hpc
        · rw [List.mem_singleton.mp hr] at hpc
          simp at hpc
      · rcases List.mem_append.mp hr with hr | hr
        · exact hf.notFound r hr hpc
        · rw [List.mem_singleton.mp hr] at hpc
          simp at hpc
  | expire orderId =>
      obtain rfl := Option.some.inj h
      exact ⟨fun o view hcache => hf.cached o view (update_none_eq_some hcache).2, hf.returned,
        hf.notFound⟩
  | await i oc => exact hf.await htopic hs ha h

/-- The invariant says that nothing stale is returned. -/
lemma Fresh.neverStale [Btree] (htopic : VersionOrdered topic) (hs : Inv topic s) (hf : Fresh s) :
    s.NeverStale := by
  have hsplit : s.projected <+: topic := ⟨_, hs.split.symm⟩
  intro r hr e he ho
  refine ⟨fun hpc => hf.notFound r hr hpc e he ho, fun view hpc => ?_⟩
  obtain ⟨k, hk, hshow, hnone⟩ := hf.returned r hr view hpc
  refine ⟨⟨k, hshow⟩, (hshow.version htopic hsplit hk).1 e ?_ ho⟩
  have hin : e ∈ (s.invalidated.take r.started).take k := by
    rw [← List.take_append_drop k (s.invalidated.take r.started)] at he
    exact (List.mem_append.mp he).resolve_right fun hd => hnone e hd ho
  rw [hs.handled]
  have hsub :
      (s.invalidated.take r.started).take k <+: (s.invalidated ++ s.current.toList).take k :=
    ((List.take_prefix _ _).trans (List.prefix_append _ _)).take k
  exact hsub.subset hin

/-! ### Late fills -/

/-- A request is served what the cache holds. -/
lemma cached_read [Btree] (h : s.cache (orderKey o) = some view) :
    run step s [.request o, .await s.requests.length .completes] = some { s with
      requests := s.requests ++ [⟨o, .returned view, s.invalidated.length, 0⟩] } := by
  simp [step, getOrder, h]

/-- **A late fill leaves the next request a stale view.** -/
lemma stale_of_late [Btree] (htopic : VersionOrdered topic) {a : CacheAction} (hs : Inv topic s)
    (ha : ¬ FillUpToDate s a) (h : s.step a = some t) :
    ∃ bs u, run step t bs = some u ∧ ¬ u.NeverStale := by
  cases a with
  | project | invalidate | request _ | expire _ => exact absurd trivial ha
  | await i oc =>
      simp only [FillUpToDate] at ha
      push Not at ha
      obtain ⟨hoc, r, hr, hfills, e, he, ho⟩ := ha
      obtain ⟨r', cache, r'', hr', hmove, rfl⟩ := await_cases h
      obtain rfl := Option.some.inj (hr.symm.trans hr')
      have hcache : ∃ view, r.pc = .setex view ∧ cache (orderKey r.orderId) = some view := by
        cases hmove with
        | @fill view _ hpc => exact ⟨view, hpc, Function.update_self ..⟩
        | hit hpc | miss hpc | fetch hpc | notFound hpc =>
            rw [hpc] at hfills
            simp [GetOrderPc.fills] at hfills
        | fail hor =>
            rcases hor with hraises | hnot
            · exact absurd hraises hoc
            · simp [hnot] at hfills
      obtain ⟨view, hpc, hview⟩ := hcache
      obtain ⟨hshow, _, hlen⟩ := hs.filling r (List.mem_of_getElem? hr) view hpc
      refine ⟨_, _, cached_read hview, fun hgood => ?_⟩
      have hin : e ∈ s.invalidated.take s.invalidated.length := by
        rw [List.take_length]
        exact List.mem_of_mem_drop he
      obtain ⟨_, hfresh⟩ := hgood _ (List.mem_append_right _ (List.mem_singleton_self _)) e hin ho
      obtain ⟨_, v, hv, hle⟩ := hfresh view rfl
      have hsplit : s.projected <+: topic := ⟨_, hs.split.symm⟩
      have hlater : e ∈ topic.drop r.fetched := by
        rw [hs.split, hs.handled, List.append_assoc, List.drop_append]
        exact List.mem_append_left _ he
      exact absurd hle (not_le.mpr ((hshow.version htopic hsplit hlen).2 v hv e hlater ho))

end CacheAside

/-- **When the cache serves nothing stale**: along every run of the requests and the consumer, which
handles the events of every order in version order, that has no late fill; and a late fill, wherever
it happens, leaves the next request a stale view. -/
theorem never_stale [Btree] {topic : List Event} (htopic : VersionOrdered topic)
    {as : List CacheAction}
    {s : CacheAside} (hrun : run CacheAside.step (.init topic) as = some s) :
    (Along CacheAside.step FillUpToDate (.init topic) as → s.NeverStale) ∧
      ∀ a t, ¬ FillUpToDate s a → s.step a = some t →
        ∃ bs u, run CacheAside.step t bs = some u ∧ ¬ u.NeverStale := by
  have hs := CacheAside.inv_run hrun
  refine ⟨fun halong => ?_, fun a t ha hstep => CacheAside.stale_of_late htopic hs ha hstep⟩
  have hboth : CacheAside.Inv topic s ∧ s.Fresh :=
    preserves_along (P := fun s => CacheAside.Inv topic s ∧ s.Fresh)
      (fun hs ha hstep =>
        ⟨CacheAside.inv_step hs.1 hstep, CacheAside.fresh_step htopic hs.1 hs.2 ha hstep⟩)
      ⟨CacheAside.inv_init, CacheAside.fresh_init⟩ halong hrun
  exact hboth.2.neverStale htopic hs

/-- The next calls of a request complete. -/
def serves (i n : ℕ) : List CacheAction := List.replicate n (.await i .completes)

lemma shippedLog_ordered : VersionOrdered shippedLog := by
  intro o
  by_cases ho : o = "order-0"
  · have hall : orderLog shippedLog "order-0" = shippedLog := by decide +kernel
    rw [ho, hall]
    exact Or.inr shippedLog_legal.orderEvents
  · refine Or.inl (List.filter_eq_nil_iff.mpr fun e he heq => ho ?_)
    rw [← shippedLog_legal.aggregateId_eq e he]
    exact (of_decide_eq_true heq).symm

/-- The consumer handles an event; a request fetches the view and caches it, and a second one finds
it there. -/
def servedRun : List CacheAction :=
  [.project, .invalidate, .request "order-0"] ++ serves 0 3 ++ [.request "order-0"] ++ serves 1 1

theorem servedRun_fresh : ∃ s, run CacheAside.step (.init shippedLog) servedRun = some s ∧
    (∃ r ∈ s.requests, r.started = 1 ∧ r.pc.version? = some 1) ∧ s.NeverStale := by
  have heval : ((run CacheAside.step (.init shippedLog) servedRun).any fun s =>
      decide (∃ r ∈ s.requests, r.started = 1 ∧ r.pc.version? = some 1)) = true := by
    decide +kernel
  obtain ⟨s, hrun, hserved⟩ := exists_run_of_eval heval
  have halong : Along CacheAside.step FillUpToDate (.init shippedLog) servedRun := by
    decide +kernel
  exact ⟨s, hrun, hserved, (never_stale shippedLog_ordered hrun).1 halong⟩

/-- Between the `fetchrow` and the `setex` of a request the consumer handles the next event of the
order. -/
def lateFillRun : List CacheAction :=
  [.project, .invalidate, .request "order-0"] ++ serves 0 2 ++ [.project, .invalidate] ++
    serves 0 1 ++ [.request "order-0"] ++ serves 1 1

/-- **A stale fill**: the second request starts after the invalidation for version 2 and is served
version 1. -/
theorem stale_fill : VersionOrdered shippedLog ∧
    ∃ s, run CacheAside.step (.init shippedLog) lateFillRun = some s ∧
    s.invalidated = shippedLog.take 2 ∧
    (∃ r ∈ s.requests, r.orderId = "order-0" ∧ r.started = 2 ∧ r.pc.version? = some 1) ∧
      ¬ s.NeverStale := by
  have heval : ((run CacheAside.step (.init shippedLog) lateFillRun).any fun s =>
      decide (s.invalidated = shippedLog.take 2 ∧ ∃ r ∈ s.requests, r.orderId = "order-0" ∧
        r.started = 2 ∧ r.pc.version? = some 1)) = true := by
    decide +kernel
  obtain ⟨s, hrun, hinv, r, hr, ho, hstarted, hversion⟩ := exists_run_of_eval heval
  refine ⟨shippedLog_ordered, s, hrun, hinv, ⟨r, hr, ho, hstarted, hversion⟩, fun hgood => ?_⟩
  have hadded : orderItemAddedEvent (.nth 1) "order-0" 2 "prod-1" "Polish" 3 150 ∈
      s.invalidated.take r.started := by
    rw [hinv, hstarted]
    decide +kernel
  obtain ⟨_, hfresh⟩ := hgood r hr _ hadded ho.symm
  cases hpc : r.pc with
  | returned view =>
      obtain ⟨_, v, hv, hle⟩ := hfresh view hpc
      rw [hpc] at hversion
      obtain rfl := Option.some.inj (hversion.symm.trans hv)
      exact absurd hle (by decide)
  | _ => simp [hpc, GetOrderPc.version?] at hversion

end OrderCqrs
