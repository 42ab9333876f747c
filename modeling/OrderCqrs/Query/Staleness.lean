import OrderCqrs.Logic.Lists
import OrderCqrs.Query.Cache

/-!
How old a cached read can be (`get_order` in `api/routers/query_router.py`), when invalidations are
lost and fills are late.

* `TimedCache`, `TimedCache.step`: the cached reads against a clock, the cache entries with the time
  at which Redis drops them, and a consumer whose calls fail.
* `Since`: a view that lacks no projection before a given time.
* `Prompt`: a request fills the cache soon after its `fetchrow`.
* `AgeInv`, `ageInv_step`: what is cached, or about to be, is dated.
* `bounded_staleness`: **a view that is returned lacks only what was projected within the lifetime
  of a cache entry**, however many invalidations are lost.
-/

namespace OrderCqrs

open Runs

/-- `redis_cache_ttl`. -/
def redisCacheTtl : ℕ := 3600

/-- The cached reads and the clock.  `expires` are the times at which Redis drops the entries,
`projectedAt` the times of the projections, and `calledAt` the times at which the last call of every
request returned. -/
structure TimedCache where
  base : CacheAside
  now : ℕ
  expires : String → ℕ
  projectedAt : List ℕ
  calledAt : ℕ → ℕ

/-- The moves of the cache and its clients; the consumer gives an event up before its projection, or
after it, when the invalidation raises; and time passes. -/
inductive TimedAction where
  | cache (a : CacheAction)
  | skip
  | lose
  | tick (seconds : ℕ)

namespace TimedCache

/-- Nothing projected, nothing cached. -/
def init (topic : List Event) : TimedCache where
  base := .init topic
  now := 0
  expires := fun _ => 0
  projectedAt := []
  calledAt := fun _ => 0

/-- One move.  What expires by the end of a tick is dropped. -/
def step [Btree] (s : TimedCache) : TimedAction → Option TimedCache
  | .cache .project => do
      let base ← s.base.step .project
      return { s with base, projectedAt := s.projectedAt ++ [s.now] }
  | .cache (.await i outcome) => do
      let r ← s.base.requests[i]?
      let base ← s.base.step (.await i outcome)
      return { s with
        base
        expires := if r.pc.fills ∧ outcome ≠ .raises
          then Function.update s.expires (orderKey r.orderId) (s.now + redisCacheTtl)
          else s.expires
        calledAt := Function.update s.calledAt i s.now }
  | .cache a => do
      let base ← s.base.step a
      return { s with base }
  | .skip => do
      guard s.base.current.isNone
      return { s with base := { s.base with events := s.base.events.tail } }
  | .lose => do
      guard s.base.current.isSome
      return { s with base := { s.base with current := none } }
  | .tick seconds =>
      some { s with
        now := s.now + seconds
        base := { s.base with
          cache := fun key => if s.expires key ≤ s.now + seconds then none else s.base.cache key } }

/-- **Fills are prompt**: a `setex` takes effect within `limit` seconds of the `fetchrow` before
it. -/
def Prompt (limit : ℕ) (s : TimedCache) : TimedAction → Prop
  | .cache (.await i outcome) => outcome ≠ .raises → ∀ r ∈ s.base.requests[i]?, r.pc.fills →
      s.now ≤ s.calledAt i + limit
  | _ => True

instance (limit : ℕ) (s : TimedCache) : (a : TimedAction) → Decidable (Prompt limit s a)
  | .cache (.await i outcome) => inferInstanceAs
      (Decidable (outcome ≠ .raises → ∀ r ∈ s.base.requests[i]?, r.pc.fills →
        s.now ≤ s.calledAt i + limit))
  | .cache .project | .cache .invalidate | .cache (.request _) | .cache (.expire _) | .skip
  | .lose | .tick _ => .isTrue trivial

/-- **The view is at least as new as the time**: it is what the tables showed after some
projections, and all others were made at that time or later. -/
def Since [Btree] (s : TimedCache) (orderId : String) (time : ℕ) (view : OrderView) : Prop :=
  ∃ k ≤ s.base.projected.length, s.base.Showed orderId k view ∧
    ∀ j t, k ≤ j → s.projectedAt[j]? = some t → time ≤ t

/-! ### The invariant -/

/-- **The invariant of the ages.** -/
structure AgeInv [Btree] (limit : ℕ) (s : TimedCache) : Prop where
  tables : run projectToPostgres .empty s.base.projected = some s.base.readModel
  dated : s.projectedAt.length = s.base.projected.length
  called : ∀ i, s.calledAt i ≤ s.now
  /-- Entries are dropped in time. -/
  live : ∀ o view, s.base.cache (orderKey o) = some view →
    s.now < s.expires (orderKey o) ∧ ∃ time ≤ s.now, s.Since o time view ∧
      s.expires (orderKey o) ≤ time + limit + redisCacheTtl
  /-- What a request is about to cache is as new as its `fetchrow`. -/
  filling : ∀ i r view, s.base.requests[i]? = some r → r.pc = .setex view →
    s.Since r.orderId (s.calledAt i) view
  returned : ∀ i r view, s.base.requests[i]? = some r → r.pc = .returned view →
    ∃ time ≤ s.now, s.Since r.orderId time view ∧
      s.calledAt i < time + limit + redisCacheTtl

variable {topic : List Event} {limit : ℕ} {s t : TimedCache} {o : String} {time : ℕ}
  {view : OrderView}

lemma ageInv_init [Btree] : AgeInv limit (init topic) where
  tables := rfl
  dated := rfl
  called := fun _ => le_rfl
  live := fun _ _ h => by cases h
  filling := fun _ _ _ h => by cases h
  returned := fun _ _ _ h => by cases h

/-- Views do not get newer or older while nothing is projected. -/
lemma Since.congr [Btree] (h : s.Since o time view) (hproj : t.base.projected = s.base.projected)
    (hdates : t.projectedAt = s.projectedAt) : t.Since o time view := by
  obtain ⟨k, hk, hshow, hlater⟩ := h
  refine ⟨k, hproj ▸ hk, ?_, hdates ▸ hlater⟩
  obtain ⟨rm, hrun, hview⟩ := hshow
  exact ⟨rm, hproj ▸ hrun, hview⟩

/-- A projection is later than what it finds. -/
lemma Since.project [Btree] {e : Event} (h : s.Since o time view) (htime : time ≤ s.now)
    (hproj : t.base.projected = s.base.projected ++ [e])
    (hdates : t.projectedAt = s.projectedAt ++ [s.now]) : t.Since o time view := by
  obtain ⟨k, hk, hshow, hlater⟩ := h
  have hgrow : s.base.projected <+: t.base.projected := hproj ▸ List.prefix_append _ _
  refine ⟨k, hk.trans hgrow.length_le, hshow.mono hk hgrow, fun j at' hkj hat => ?_⟩
  rw [hdates] at hat
  rcases ListTables.getElem?_concat_cases hat with hat | rfl
  · exact hlater j at' hkj hat
  · exact htime

/-! ### What a move does -/

lemma project_cases [Btree] (h : s.step (.cache .project) = some t) :
    ∃ e rm, projectToPostgres s.base.readModel e = some rm ∧ t.base.readModel = rm ∧
      t.base.projected = s.base.projected ++ [e] ∧ t.base.cache = s.base.cache ∧
      t.base.requests = s.base.requests ∧ t = { s with
        base := t.base
        projectedAt := s.projectedAt ++ [s.now] } := by
  obtain ⟨base, hbase, h⟩ := Option.bind_eq_some_iff.mp h
  obtain rfl := Option.some.inj h
  obtain ⟨_, e, rm, _, hrm, heq⟩ := CacheAside.project_cases hbase
  exact ⟨e, rm, hrm, by rw [heq], by rw [heq], by rw [heq], by rw [heq], rfl⟩

lemma await_cases [Btree] {i : ℕ} {oc : Outcome} (h : s.step (.cache (.await i oc)) = some t) :
    ∃ r cache r', s.base.requests[i]? = some r ∧ CacheAside.Move s.base r oc cache r' ∧ t = { s with
      base := { s.base with cache, requests := s.base.requests.set i r' }
      expires := if r.pc.fills ∧ oc ≠ .raises
        then Function.update s.expires (orderKey r.orderId) (s.now + redisCacheTtl)
        else s.expires
      calledAt := Function.update s.calledAt i s.now } := by
  obtain ⟨r, hr, h⟩ := Option.bind_eq_some_iff.mp h
  obtain ⟨base, hbase, h⟩ := Option.bind_eq_some_iff.mp h
  obtain rfl := Option.some.inj h
  obtain ⟨r₀, cache, r', hr₀, hmove, rfl⟩ := CacheAside.await_cases hbase
  obtain rfl := Option.some.inj (hr.symm.trans hr₀)
  exact ⟨r, cache, r', hr, hmove, rfl⟩

/-! ### The invariant is kept -/

/-- A move without a projection or a call keeps the invariant if it only drops from the cache and
adds no request that is about to fill it or has returned. -/
lemma AgeInv.congr [Btree] (hs : AgeInv limit s) (hnow : s.now ≤ t.now)
    (hexpires : t.expires = s.expires)
    (hdates : t.projectedAt = s.projectedAt) (hcalled : t.calledAt = s.calledAt)
    (hproj : t.base.projected = s.base.projected) (htables : t.base.readModel = s.base.readModel)
    (hcache : ∀ o view, t.base.cache (orderKey o) = some view →
      s.base.cache (orderKey o) = some view ∧ t.now < s.expires (orderKey o))
    (hreq : ∀ (i : ℕ) (r : GetOrder) (view : OrderView), t.base.requests[i]? = some r →
      r.pc = .setex view ∨ r.pc = .returned view → s.base.requests[i]? = some r) :
    AgeInv limit t where
  tables := hproj ▸ htables ▸ hs.tables
  dated := hproj ▸ hdates ▸ hs.dated
  called := fun i => hcalled ▸ (hs.called i).trans hnow
  live := fun o view hin => by
    obtain ⟨hin, hlt⟩ := hcache o view hin
    obtain ⟨_, time, htime, hsince, hle⟩ := hs.live o view hin
    rw [hexpires]
    exact ⟨hlt, time, htime.trans hnow, hsince.congr hproj hdates, hle⟩
  filling := fun i r view hr hpc => by
    rw [hcalled]
    exact (hs.filling i r view (hreq i r view hr (Or.inl hpc)) hpc).congr hproj hdates
  returned := fun i r view hr hpc => by
    obtain ⟨time, htime, hsince, hlt⟩ :=
      hs.returned i r view (hreq i r view hr (Or.inr hpc)) hpc
    rw [hcalled]
    exact ⟨time, htime.trans hnow, hsince.congr hproj hdates, hlt⟩

/-- A projection makes all views older, but no older than it. -/
lemma AgeInv.project [Btree] (hs : AgeInv limit s) (h : s.step (.cache .project) = some t) :
    AgeInv limit t := by
  obtain ⟨e, rm, hrm, htables, hproj, hcache, hreq, heq⟩ := project_cases h
  have hdates : t.projectedAt = s.projectedAt ++ [s.now] := by rw [heq]
  have hnow : t.now = s.now := by rw [heq]
  have hexpires : t.expires = s.expires := by rw [heq]
  have hcalled : t.calledAt = s.calledAt := by rw [heq]
  refine ⟨?_, ?_, fun i => ?_, fun o view hin => ?_, fun i r view hr hpc => ?_,
    fun i r view hr hpc => ?_⟩
  · rw [hproj, htables, run_concat, hs.tables]
    exact hrm
  · rw [hproj, hdates, List.length_append, List.length_append, hs.dated]
    rfl
  · rw [hcalled, hnow]
    exact hs.called i
  · rw [hcache] at hin
    obtain ⟨hlt, time, htime, hsince, hle⟩ := hs.live o view hin
    rw [hnow, hexpires]
    exact ⟨hlt, time, htime, hsince.project htime hproj hdates, hle⟩
  · rw [hreq] at hr
    rw [hcalled]
    exact (hs.filling i r view hr hpc).project (hs.called i) hproj hdates
  · rw [hreq] at hr
    obtain ⟨time, htime, hsince, hlt⟩ := hs.returned i r view hr hpc
    rw [hnow, hcalled]
    exact ⟨time, htime, hsince.project htime hproj hdates, hlt⟩

/-- The tables show what all projections have made. -/
lemma AgeInv.since_now [Btree] (hs : AgeInv limit s) (o : String) (time : ℕ) :
    s.Since o time (s.base.readModel.view o) := by
  refine ⟨_, le_rfl, ⟨_, ?_, rfl⟩, fun j at' hj hat => ?_⟩
  · rw [List.take_length]
    exact hs.tables
  · rw [← hs.dated] at hj
    rw [List.getElem?_eq_none hj] at hat
    exact absurd hat (by simp)

section Await

variable {i : ℕ} {r r' : GetOrder} {oc : Outcome} {cache : String → Option OrderView}

/-- What a request is about to cache will be dropped in time. -/
lemma AgeInv.since_fill [Btree] (hs : AgeInv limit s) (ha : Prompt limit s (.cache (.await i oc)))
    (hr : s.base.requests[i]? = some r) (hpc : r.pc = .setex view) (hoc : oc ≠ .raises) :
    s.Since r.orderId (s.calledAt i) view ∧ s.now ≤ s.calledAt i + limit :=
  ⟨hs.filling i r view hr hpc, ha hoc r hr (by rw [hpc]; rfl)⟩

/-- What is cached after a call is dropped in time. -/
lemma AgeInv.live_move [Btree] (hs : AgeInv limit s) (ha : Prompt limit s (.cache (.await i oc)))
    (hr : s.base.requests[i]? = some r) (hmove : CacheAside.Move s.base r oc cache r')
    {expires : String → ℕ} (hexpires : expires = if r.pc.fills ∧ oc ≠ .raises
      then Function.update s.expires (orderKey r.orderId) (s.now + redisCacheTtl)
      else s.expires) (hin : cache (orderKey o) = some view) :
    s.now < expires (orderKey o) ∧ ∃ time ≤ s.now, s.Since o time view ∧
      expires (orderKey o) ≤ time + limit + redisCacheTtl := by
  have hkept : r.pc.fills = false ∨ oc = .raises → expires = s.expires := by
    intro hnot
    rw [hexpires, if_neg]
    rintro ⟨hfills, hoc⟩
    rcases hnot with hnot | hraises
    · exact absurd hfills (by simp [hnot])
    · exact hoc hraises
  cases hmove with
  | @fill view' _ hpc hoc =>
      rw [hexpires, if_pos ⟨by rw [hpc]; rfl, hoc⟩]
      by_cases ho : o = r.orderId
      · subst ho
        rw [Function.update_self] at hin ⊢
        obtain rfl := Option.some.inj hin
        obtain ⟨hsince, hprompt⟩ := hs.since_fill ha hr hpc hoc
        exact ⟨by simp [redisCacheTtl], _, hs.called i, hsince, by omega⟩
      · have hkey : orderKey o ≠ orderKey r.orderId := fun heq => ho (orderKey_inj.mp heq)
        rw [Function.update_of_ne hkey] at hin ⊢
        exact hs.live o view hin
  | hit hpc | miss hpc | fetch hpc | notFound hpc =>
      rw [hkept (Or.inl (by rw [hpc]; rfl))]
      exact hs.live o view hin
  | fail hor =>
      rw [hkept hor.symm]
      exact hs.live o view hin

/-- What a call returns is as new as the cache entry or as the `fetchrow` of the request. -/
lemma AgeInv.returned_move [Btree] (hs : AgeInv limit s)
    (ha : Prompt limit s (.cache (.await i oc)))
    (hr : s.base.requests[i]? = some r) (hmove : CacheAside.Move s.base r oc cache r')
    (hpc' : r'.pc = .returned view) :
    ∃ time ≤ s.now, s.Since r'.orderId time view ∧ s.now < time + limit + redisCacheTtl := by
  cases hmove with
  | hit _ hin =>
      obtain rfl := GetOrderPc.returned.inj hpc'
      obtain ⟨hlt, time, htime, hsince, hle⟩ := hs.live _ _ hin
      exact ⟨time, htime, hsince, hlt.trans_le hle⟩
  | fill hpc hoc hor =>
      rcases hor with rfl | rfl
      · obtain rfl := GetOrderPc.returned.inj hpc'
        obtain ⟨hsince, hprompt⟩ := hs.since_fill ha hr hpc hoc
        exact ⟨_, hs.called i, hsince, hprompt.trans_lt (by simp [redisCacheTtl])⟩
      · simp at hpc'
  | miss | fetch | notFound | fail => simp at hpc'

/-- A call of a request keeps the invariant. -/
lemma AgeInv.await [Btree] (hs : AgeInv limit s) (ha : Prompt limit s (.cache (.await i oc)))
    (h : s.step (.cache (.await i oc)) = some t) : AgeInv limit t := by
  obtain ⟨r, cache, r', hr, hmove, heq⟩ := await_cases h
  have hproj : t.base.projected = s.base.projected := by rw [heq]
  have hdates : t.projectedAt = s.projectedAt := by rw [heq]
  have hnow : t.now = s.now := by rw [heq]
  have hcache : t.base.cache = cache := by rw [heq]
  have hcalled : t.calledAt = Function.update s.calledAt i s.now := by rw [heq]
  have hreq : ∀ {j : ℕ} {g : GetOrder}, t.base.requests[j]? = some g →
      j = i ∧ g = r' ∨ t.calledAt j = s.calledAt j ∧ s.base.requests[j]? = some g := by
    intro j g hg
    replace hg : (s.base.requests.set i r')[j]? = some g := by rwa [heq] at hg
    by_cases hj : j = i
    · rw [hj, List.getElem?_set_self (List.getElem?_eq_some_iff.mp hr).1] at hg
      exact Or.inl ⟨hj, (Option.some.inj hg).symm⟩
    · rw [List.getElem?_set_ne (Ne.symm hj)] at hg
      exact Or.inr ⟨by rw [hcalled, Function.update_of_ne hj], hg⟩
  refine ⟨by rw [heq]; exact hs.tables, by rw [heq]; exact hs.dated, fun j => ?_,
    fun o view hin => ?_, fun j g view hg hpc => ?_, fun j g view hg hpc => ?_⟩
  · rw [hcalled, hnow, Function.update_apply]
    split_ifs
    · exact le_rfl
    · exact hs.called j
  · rw [hcache] at hin
    obtain ⟨hlt, time, htime, hsince, hle⟩ :=
      hs.live_move ha hr hmove (congrArg TimedCache.expires heq) hin
    rw [hnow]
    exact ⟨hlt, time, htime, hsince.congr hproj hdates, hle⟩
  · obtain ⟨rfl, rfl⟩ | ⟨hsame, hg⟩ := hreq hg
    · cases hmove with
      | fetch =>
          obtain rfl := GetOrderPc.setex.inj hpc
          exact (hs.since_now r.orderId _).congr hproj hdates
      | fill _ _ hor => rcases hor with rfl | rfl <;> simp at hpc
      | hit | miss | notFound | fail => simp at hpc
    · rw [hsame]
      exact (hs.filling j g view hg hpc).congr hproj hdates
  · obtain ⟨rfl, rfl⟩ | ⟨hsame, hg⟩ := hreq hg
    · obtain ⟨time, htime, hsince, hlt⟩ := hs.returned_move ha hr hmove hpc
      rw [hnow, hcalled, Function.update_self]
      exact ⟨time, htime, hsince.congr hproj hdates, hlt⟩
    · obtain ⟨time, htime, hsince, hlt⟩ := hs.returned j g view hg hpc
      rw [hsame, hnow]
      exact ⟨time, htime, hsince.congr hproj hdates, hlt⟩

end Await

/-- **Every move with a prompt fill keeps the invariant.** -/
theorem ageInv_step [Btree] {a : TimedAction} (hs : AgeInv limit s) (ha : Prompt limit s a)
    (h : s.step a = some t) : AgeInv limit t := by
  cases a with
  | cache a =>
      cases a with
      | project => exact hs.project h
      | await i oc => exact hs.await ha h
      | invalidate =>
          obtain ⟨base, hbase, h⟩ := Option.bind_eq_some_iff.mp h
          obtain rfl := Option.some.inj h
          obtain ⟨e, _, rfl⟩ := CacheAside.invalidate_cases hbase
          refine hs.congr le_rfl rfl rfl rfl rfl rfl (fun o view hin => ?_) fun _ _ _ hr _ => hr
          have hold := (CacheAside.update_none_eq_some hin).2
          exact ⟨hold, (hs.live o view hold).1⟩
      | expire orderId =>
          obtain rfl := Option.some.inj h
          refine hs.congr le_rfl rfl rfl rfl rfl rfl (fun o view hin => ?_) fun _ _ _ hr _ => hr
          have hold := (CacheAside.update_none_eq_some hin).2
          exact ⟨hold, (hs.live o view hold).1⟩
      | request orderId =>
          obtain rfl := Option.some.inj h
          refine hs.congr le_rfl rfl rfl rfl rfl rfl
            (fun o view hin => ⟨hin, (hs.live o view hin).1⟩) fun j r view hr hpc => ?_
          rcases ListTables.getElem?_concat_cases hr with hr | rfl
          · exact hr
          · simp at hpc
  | skip | lose =>
      obtain ⟨_, _, h⟩ := Option.bind_eq_some_iff.mp h
      obtain rfl := Option.some.inj h
      exact hs.congr le_rfl rfl rfl rfl rfl rfl
        (fun o view hin => ⟨hin, (hs.live o view hin).1⟩) fun _ _ _ hr _ => hr
  | tick seconds =>
      obtain rfl := Option.some.inj h
      refine hs.congr (Nat.le_add_right _ _) rfl rfl rfl rfl rfl (fun o view hin => ?_)
        fun _ _ _ hr _ => hr
      simp only at hin
      split_ifs at hin with hdrop
      exact ⟨hin, not_le.mp hdrop⟩

end TimedCache

/-- **How old a view can be that `get_order` returns**: however many events the consumer gives up
and however many invalidations are lost, if the `setex` of every request takes effect within `limit`
seconds of its `fetchrow`, then a view that a request returned lacks no projection made `limit`
seconds and a lifetime of a cache entry before. -/
theorem bounded_staleness [Btree] {topic : List Event} {limit : ℕ} {as : List TimedAction}
    {s : TimedCache} (halong : Along TimedCache.step (TimedCache.Prompt limit) (.init topic) as)
    (hrun : run TimedCache.step (.init topic) as = some s) {i : ℕ} {r : GetOrder}
    {view : OrderView} (hr : s.base.requests[i]? = some r) (hpc : r.pc = .returned view) :
    ∃ time, s.Since r.orderId time view ∧ s.calledAt i < time + limit + redisCacheTtl := by
  have hs : TimedCache.AgeInv limit s :=
    preserves_along (fun hs ha hstep => TimedCache.ageInv_step hs ha hstep)
      TimedCache.ageInv_init halong hrun
  obtain ⟨time, _, hsince, hlt⟩ := hs.returned i r view hr hpc
  exact ⟨time, hsince, hlt⟩

/-- A request fetches version 1 and fills the cache when version 2 has been projected, the
invalidation for which is lost; almost an hour later the next request finds it there. -/
def staleRun : List TimedAction :=
  [.cache .project, .cache .invalidate, .cache (.request "order-0")] ++
    (serves 0 2).map .cache ++ [.tick 1, .cache .project, .lose] ++ (serves 0 1).map .cache ++
    [.tick 3599, .cache (.request "order-0")] ++ (serves 1 1).map .cache

theorem staleRun_bounded :
    ∃ s, run TimedCache.step (.init shippedLog) staleRun = some s ∧
      s.base.projected = shippedLog.take 2 ∧ ∃ r view, s.base.requests[1]? = some r ∧
        r.pc = .returned view ∧ view.version? = some 1 ∧
        ∃ time, s.Since r.orderId time view ∧ 3600 < time + 1 + redisCacheTtl := by
  have heval : ((run TimedCache.step (.init shippedLog) staleRun).any fun s =>
      decide (s.base.projected = shippedLog.take 2 ∧ s.calledAt 1 = 3600 ∧
        ∃ r ∈ s.base.requests[1]?, r.pc.version? = some 1)) = true := by
    decide +kernel
  obtain ⟨s, hrun, hproj, hcalled, r, hr, hversion⟩ := exists_run_of_eval heval
  have halong : Along TimedCache.step (TimedCache.Prompt 1) (.init shippedLog) staleRun := by
    decide +kernel
  cases hpc : r.pc with
  | returned view =>
      rw [hpc] at hversion
      have hbound := bounded_staleness halong hrun hr hpc
      rw [hcalled] at hbound
      exact ⟨s, hrun, hproj, r, view, hr, hpc, hversion, hbound⟩
  | _ => simp [hpc, GetOrderPc.version?] at hversion

end OrderCqrs
