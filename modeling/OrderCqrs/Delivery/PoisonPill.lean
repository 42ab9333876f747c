import OrderCqrs.Command.Handlers
import OrderCqrs.Delivery.Batch
import OrderCqrs.Logic.Loops
import OrderCqrs.Logic.Runs

/-!
The message loop of the projection consumer (`consumers/main.py`) over records of any bytes.

* `ByteConsumer`: offsets, processed keys, the histories of what was projected, scheduled for expiry
  and sent to the queue, and whether an exception has left the loop.
* `RecordCalls`: how the calls end that the loop makes under its `try`, and the send to the queue.
  Redis is asked and the offset is committed without failure.
* `RawEvent.logged`, `RawEvent.skipLogged`: the values that the loop logs before the `try`.
* `ByteConsumer.tryCalls`, `ByteConsumer.handle`: the `try` block as a loop over its calls, and a
  turn of the message loop around it.
* `Harmless`: a record that is an object, whose logged values can be written, and whose key, if it
  has one, can be encoded.
* `never_stopped_iff`: **the loop is not left, and the offset of every record it took is committed**,
  precisely if every record it took is harmless.
* `poison_pill`: a record that is not JSON.
-/

namespace OrderCqrs

open Runs Loops

/-! ### The transition system -/

/-- The bytes of a record. -/
abbrev Bytes := List UInt8

/-- How the calls for a record end, as far as they are made. -/
structure RecordCalls where
  project : Outcome
  invalidateCache : Outcome
  setProcessed : Outcome
  setExpiry : Outcome
  sendMessage : Outcome

/-- The consumer and its histories. -/
structure ByteConsumer where
  position : ℕ → ℕ
  committed : ℕ → ℕ
  processed : List Str
  projected : List RawEvent
  expiring : List Json
  sent : List RawEvent
  stopped : Bool

/-- The moves: a turn of the message loop with the next record of a partition, and the expiry of a
key. -/
inductive ByteAction where
  | handle (p : ℕ) (calls : RecordCalls)
  | expire (key : Str)

/-- The turn takes a record of the partition. -/
def ByteAction.takes (p : ℕ) : ByteAction → Bool
  | .handle q _ => q = p
  | .expire _ => false

/-- The values that the loop logs of a record when it takes it. -/
def RawEvent.logged (event : RawEvent) : List Json :=
  [(event.get "event_type").getD .null, event.getUnknown "aggregate_id",
    (event.get "aggregate_version").getD .null]

/-- The values that the loop logs of a record it skips. -/
def RawEvent.skipLogged (event : RawEvent) : List Json :=
  [(event.get "event_id").getD .null, event.getUnknown "aggregate_id",
    (event.get "event_type").getD .null]

namespace ByteConsumer

/-- A consumer that starts at given offsets. -/
def start (offsets : ℕ → ℕ) (processed : List Str) : ByteConsumer where
  position := offsets
  committed := offsets
  processed := processed
  projected := []
  expiring := []
  sent := []
  stopped := false

/-- The next record of a partition is taken. -/
def advance (s : ByteConsumer) (p : ℕ) : ByteConsumer :=
  { s with position := Function.update s.position p (s.position p + 1) }

/-- `consumer.commit()`. -/
def commit (s : ByteConsumer) : ByteConsumer := { s with committed := s.position }

/-- An exception leaves the loop. -/
def stop (s : ByteConsumer) : ByteConsumer := { s with stopped := true }

/-- `send_to_dlq`, which swallows what it raises. -/
def sendToDlq (s : ByteConsumer) (event : RawEvent) (outcome : Outcome) : ByteConsumer :=
  if event.sendable && outcome.done then { s with sent := s.sent ++ [event] } else s

/-- A call: its effect, if it comes to it, and whether it raises. -/
def attempt (s : ByteConsumer) (call : (ByteConsumer → ByteConsumer) × Outcome) :
    ByteConsumer × Bool :=
  (if call.2.done then call.1 s else s, call.2.raised)

section Code

variable (loads : Bytes → Option Json) (format : Json → Str) (writes : Json → Bool)
  (topic : ℕ → List Bytes)

/-- The calls of the `try` block before the commit.  A record without an id is not marked, and only
a terminal one is scheduled for expiry. -/
def tryCalls (event : RawEvent) (calls : RecordCalls) :
    List ((ByteConsumer → ByteConsumer) × Outcome) :=
  [(fun s => { s with projected := s.projected ++ [event] },
      if event.hasFields then calls.project else .raises),
    (id, calls.invalidateCache)] ++
  (event.processedKey? format).toList.map (fun key =>
    (fun s => { s with processed := key :: s.processed }, calls.setProcessed)) ++
  if event.terminal then
    [(fun s => { s with expiring := event.getUnknown "aggregate_id" :: s.expiring },
      calls.setExpiry)]
  else []

/-- The `try` block and its handler. -/
def tryProject (s : ByteConsumer) (event : RawEvent) (calls : RecordCalls) : ByteConsumer :=
  let (t, raised) := loop attempt s (tryCalls format event calls)
  if raised then (t.sendToDlq event calls.sendMessage).commit else t.commit

/-- The body of the message loop.  `writes` are the values that the logger can write: a string may
have surrogates, which its stream refuses.  A value that is not JSON and one that is no object raise
before the `try`, and so do the log of a value that cannot be written and the lookup of a key that
cannot be encoded.  What is logged later is among these values, or the text of an exception. -/
def handleValue (s : ByteConsumer) (value : Bytes) (calls : RecordCalls) : ByteConsumer :=
  match loads value with
  | some (.object event) =>
      if ¬ (RawEvent.logged event).all writes then s.stop
      else match RawEvent.processedKey? format event with
        | some key =>
            if ¬ key.Encodable then s.stop
            else if key ∈ s.processed then
              if (RawEvent.skipLogged event).all writes then s.commit else s.stop
            else s.tryProject format event calls
        | none => s.tryProject format event calls
  | _ => s.stop

/-- One move. -/
def step (s : ByteConsumer) : ByteAction → Option ByteConsumer
  | .handle p calls => do
      guard (s.stopped = false)
      let value ← (topic p)[s.position p]?
      return (s.advance p).handleValue loads format writes value calls
  | .expire key => some { s with processed := s.processed.filter (· ≠ key) }

end Code

/-! ### What a turn does -/

section Turn

variable {loads : Bytes → Option Json} {format : Json → Str} {topic : ℕ → List Bytes}
  {s t : ByteConsumer} {event : RawEvent} {calls : RecordCalls}

/-- The calls of the `try` block move no position and stop nothing. -/
lemma tryCalls_keep {call : (ByteConsumer → ByteConsumer) × Outcome}
    (hcall : call ∈ tryCalls format event calls) (s : ByteConsumer) :
    (call.1 s).position = s.position ∧ (call.1 s).stopped = s.stopped := by
  rw [tryCalls, List.mem_append, List.mem_append] at hcall
  rcases hcall with (hcall | hcall) | hcall
  · rcases List.mem_pair.mp hcall with rfl | rfl <;> exact ⟨rfl, rfl⟩
  · obtain ⟨key, _, rfl⟩ := List.mem_map.mp hcall
    exact ⟨rfl, rfl⟩
  · split_ifs at hcall
    · obtain rfl := List.mem_singleton.mp hcall
      exact ⟨rfl, rfl⟩
    · exact absurd hcall List.not_mem_nil

lemma sendToDlq_keeps (s : ByteConsumer) (event : RawEvent) (outcome : Outcome) :
    (s.sendToDlq event outcome).position = s.position ∧
      (s.sendToDlq event outcome).stopped = s.stopped := by
  rw [sendToDlq]
  split_ifs <;> exact ⟨rfl, rfl⟩

/-- The turn ends with a commit of the positions, and the loop goes on. -/
def Commits (s t : ByteConsumer) : Prop :=
  t.position = s.position ∧ t.committed = s.position ∧ t.stopped = s.stopped

/-- **The `try` block and its handler** end with a commit, whatever happens in them. -/
lemma tryProject_commits (s : ByteConsumer) (event : RawEvent) (calls : RecordCalls) :
    Commits s (s.tryProject format event calls) := by
  have hloop : (loop attempt s (tryCalls format event calls)).1.position = s.position ∧
      (loop attempt s (tryCalls format event calls)).1.stopped = s.stopped := by
    refine loop_preserves (P := fun t : ByteConsumer => t.position = s.position ∧ t.stopped = s.stopped)
      (fun {t call} hcall ht => ?_) ⟨rfl, rfl⟩
    rw [attempt]
    split_ifs
    · exact ⟨(tryCalls_keep hcall t).1.trans ht.1, (tryCalls_keep hcall t).2.trans ht.2⟩
    · exact ht
  rw [tryProject]
  cases hout : loop attempt s (tryCalls format event calls) with
  | mk t raised =>
      rw [hout] at hloop
      obtain ⟨hposition, hstopped⟩ := hloop
      cases raised with
      | false => exact ⟨hposition, hposition, hstopped⟩
      | true =>
          have hsend := sendToDlq_keeps t event calls.sendMessage
          exact ⟨hsend.1.trans hposition, hsend.1.trans hposition, hsend.2.trans hstopped⟩

end Turn

end ByteConsumer

/-- **A harmless record**: an object whose logged values can be written, and whose key, if it has
one, can be encoded; if the key is found, the values logged of a skipped record can be written,
too. -/
def Harmless (loads : Bytes → Option Json) (format : Json → Str) (writes : Json → Bool)
    (processed : List Str) (value : Bytes) : Prop :=
  ∃ event : RawEvent, loads value = some (.object event) ∧ event.logged.all writes ∧
    ∀ key ∈ event.processedKey? format,
      key.Encodable ∧ (key ∈ processed → event.skipLogged.all writes)

/-- The move takes no other record. -/
def TakesHarmless (loads : Bytes → Option Json) (format : Json → Str) (writes : Json → Bool)
    (topic : ℕ → List Bytes) (s : ByteConsumer) : ByteAction → Prop
  | .handle p _ =>
      ∀ value ∈ (topic p)[s.position p]?, Harmless loads format writes s.processed value
  | .expire _ => True

namespace ByteConsumer

variable {loads : Bytes → Option Json} {format : Json → Str} {writes : Json → Bool}
  {topic : ℕ → List Bytes} {s t : ByteConsumer} {a : ByteAction}

/-- **A turn** ends with a commit if its record is harmless, and stops the loop otherwise. -/
lemma handleValue_cases (s : ByteConsumer) (value : Bytes) (calls : RecordCalls) :
    Harmless loads format writes s.processed value ∧
        Commits s (s.handleValue loads format writes value calls) ∨
      ¬ Harmless loads format writes s.processed value ∧
        s.handleValue loads format writes value calls = s.stop := by
  rw [handleValue]
  split
  next event hvalue =>
    have hiff : Harmless loads format writes s.processed value ↔
        (RawEvent.logged event).all writes ∧ ∀ key ∈ RawEvent.processedKey? format event,
          key.Encodable ∧ (key ∈ s.processed → (RawEvent.skipLogged event).all writes) := by
      rw [Harmless, hvalue]
      simp
    rw [hiff]
    by_cases hlogged : (RawEvent.logged event).all writes
    · rw [if_neg (not_not.mpr hlogged)]
      split
      next key hkey =>
        rw [hkey]
        by_cases hencodable : key.Encodable
        · rw [if_neg (not_not.mpr hencodable)]
          split_ifs with hfound hskip
          · exact Or.inl ⟨by simpa [hlogged, hencodable] using fun _ => hskip, rfl, rfl, rfl⟩
          · exact Or.inr ⟨by simpa [hlogged, hencodable, hfound] using hskip, rfl⟩
          · exact Or.inl ⟨by simp [hlogged, hencodable, hfound], tryProject_commits s event calls⟩
        · rw [if_pos hencodable]
          exact Or.inr ⟨by simp [hencodable], rfl⟩
      next hkey =>
        rw [hkey]
        exact Or.inl ⟨by simp [hlogged], tryProject_commits s event calls⟩
    · rw [if_pos hlogged]
      exact Or.inr ⟨by simp [hlogged], rfl⟩
  next hvalue =>
    refine Or.inr ⟨?_, rfl⟩
    rintro ⟨event, heq, _⟩
    exact hvalue event heq

/-- **The moves**: a harmless record is taken and committed, another one is taken and stops the loop,
a key expires. -/
lemma step_cases (h : s.step loads format writes topic a = some t) :
    (∃ p calls value, a = .handle p calls ∧ s.stopped = false ∧
      (topic p)[s.position p]? = some value ∧
      (Harmless loads format writes s.processed value ∧ Commits (s.advance p) t ∨
        ¬ Harmless loads format writes s.processed value ∧ t = (s.advance p).stop)) ∨
    ∃ key, a = .expire key ∧ t = { s with processed := s.processed.filter (· ≠ key) } := by
  cases a with
  | handle p calls =>
      simp only [step, Option.bind_eq_bind, Option.bind_eq_some_iff, Option.guard_eq_some'] at h
      obtain ⟨_, hgoing, value, hvalue, h⟩ := h
      obtain rfl := Option.some.inj h
      have hcases := @handleValue_cases loads format writes (s.advance p) value calls
      exact Or.inl ⟨p, calls, value, rfl, hgoing, hvalue, hcases⟩
  | expire key => exact Or.inr ⟨key, rfl, (Option.some.inj h).symm⟩

/-- No exception has left the loop. -/
def Going (s : ByteConsumer) : Prop := s.stopped = false

/-- As long as the loop goes on, what it has taken is committed. -/
def UpToDate (s : ByteConsumer) : Prop := s.Going → s.committed = s.position

lemma upToDate_step (hs : UpToDate s) (h : s.step loads format writes topic a = some t) :
    UpToDate t := by
  rcases step_cases h with ⟨p, calls, value, rfl, hgoing, hvalue, ⟨_, hcommits⟩ | ⟨_, rfl⟩⟩ |
    ⟨key, rfl, rfl⟩
  · exact fun _ => hcommits.2.1.trans hcommits.1.symm
  · exact fun hgoing => absurd hgoing (by simp [Going, stop])
  · exact hs

/-- A harmless record lets the loop go on. -/
lemma going_keep (hs : s.Going) (ha : TakesHarmless loads format writes topic s a)
    (h : s.step loads format writes topic a = some t) : t.Going := by
  rcases step_cases h with ⟨p, calls, value, rfl, _, hvalue, ⟨_, hcommits⟩ | ⟨hnot, _⟩⟩ |
    ⟨key, rfl, rfl⟩
  · exact hcommits.2.2.trans hs
  · exact absurd (ha value hvalue) hnot
  · exact hs

/-- Another record ends it. -/
lemma going_lose (ha : ¬ TakesHarmless loads format writes topic s a)
    (h : s.step loads format writes topic a = some t) : ¬ t.Going := by
  rcases step_cases h with ⟨p, calls, value, rfl, _, hvalue, ⟨hharmless, _⟩ | ⟨_, rfl⟩⟩ |
    ⟨key, rfl, _⟩
  · refine absurd (fun v hv => ?_) ha
    obtain rfl := Option.some.inj (hvalue.symm.trans hv)
    exact hharmless
  · simp [Going, stop]
  · exact absurd trivial ha

/-- A loop that is left takes no further record. -/
lemma going_stay (hs : ¬ s.Going) (h : s.step loads format writes topic a = some t) :
    ¬ t.Going := by
  rcases step_cases h with ⟨p, calls, value, rfl, hgoing, _⟩ | ⟨key, rfl, rfl⟩
  · exact absurd hgoing hs
  · exact hs

/-- A move takes the records that its name says. -/
lemma position_step (h : s.step loads format writes topic a = some t) (p : ℕ) :
    t.position p = s.position p + if a.takes p then 1 else 0 := by
  have hadvance : ∀ q, (s.advance q).position p = s.position p + if q = p then 1 else 0 := by
    intro q
    by_cases hq : q = p
    · rw [if_pos hq, hq]
      exact Function.update_self ..
    · rw [if_neg hq]
      exact Function.update_of_ne (Ne.symm hq) ..
  rcases step_cases h with ⟨q, calls, value, rfl, _, _, ⟨_, hcommits⟩ | ⟨_, rfl⟩⟩ | ⟨key, rfl, rfl⟩
  · rw [hcommits.1, hadvance]
    simp [ByteAction.takes]
  · simpa [stop, ByteAction.takes] using hadvance q
  · simp [ByteAction.takes]

/-- A run takes as many records of a partition as it has turns for it. -/
lemma position_run {as : List ByteAction} (h : run (step loads format writes topic) s as = some t)
    (p : ℕ) : t.position p = s.position p + as.countP (·.takes p) := by
  induction as generalizing s with
  | nil =>
      obtain rfl := Option.some.inj h
      rfl
  | cons a as ih =>
      obtain ⟨u, hu, h⟩ := (run_cons_eq_some _).mp h
      rw [ih h, position_step hu, List.countP_cons]
      omega

end ByteConsumer

/-- **When no record stops the consumer**: for any bytes in the topic, and whatever fails under the
`try`, a run of the message loop is not left by an exception and has committed every record it took,
precisely if every record it took is harmless. -/
theorem never_stopped_iff {loads : Bytes → Option Json} {format : Json → Str}
    {writes : Json → Bool} {topic : ℕ → List Bytes} {offsets : ℕ → ℕ} {processed : List Str}
    {as : List ByteAction} {s : ByteConsumer}
    (hrun : run (ByteConsumer.step loads format writes topic) (.start offsets processed) as =
      some s) :
    (s.stopped = false ∧ ∀ p, s.committed p = offsets p + as.countP (·.takes p)) ↔
      Along (ByteConsumer.step loads format writes topic) (TakesHarmless loads format writes topic)
        (.start offsets processed) as := by
  have hiff : s.Going ↔ Along (ByteConsumer.step loads format writes topic)
      (TakesHarmless loads format writes topic) (.start offsets processed) as :=
    good_iff_along (fun hs hstep => ByteConsumer.upToDate_step hs hstep)
      (fun _ hs ha hstep => ByteConsumer.going_keep hs ha hstep)
      (fun _ ha hstep => ByteConsumer.going_lose ha hstep)
      (fun _ hs hstep => ByteConsumer.going_stay hs hstep) (fun _ => rfl) rfl hrun
  have hkept : ByteConsumer.UpToDate s :=
    run_preserves (fun hs hstep => ByteConsumer.upToDate_step hs hstep) (fun _ => rfl) hrun
  rw [← hiff]
  refine ⟨fun h => h.1, fun hgoing => ⟨hgoing, fun p => ?_⟩⟩
  rw [hkept hgoing, ByteConsumer.position_run hrun]
  rfl

/-- `json.loads` on the values that occur below: the empty object, and bytes it refuses. -/
def loadsEmpty (value : Bytes) : Option Json :=
  if value = [0x7b, 0x7d] then some (.object .nil) else none

/-- Every call succeeds. -/
def smoothRecord : RecordCalls := ⟨.completes, .completes, .completes, .completes, .completes⟩

/-- A topic of one record. -/
def oneRecord (value : Bytes) (p : ℕ) : List Bytes := if p = 0 then [value] else []

/-- The values that a UTF-8 stream takes: a string is written as it is, and `repr`, which writes the
others, escapes surrogates. -/
def writesEncodable : Json → Bool
  | .string s => s.Encodable
  | _ => true

/-- An object without any member is sent to the queue, and the loop goes on. -/
theorem empty_object_survived : ∃ s,
    run (ByteConsumer.step loadsEmpty formatString writesEncodable (oneRecord [0x7b, 0x7d]))
      (.start (fun _ => 0) []) [.handle 0 smoothRecord] = some s ∧
    s.sent = [.nil] ∧ s.stopped = false ∧ s.committed 0 = 1 := by
  have heval : ((run
      (ByteConsumer.step loadsEmpty formatString writesEncodable (oneRecord [0x7b, 0x7d]))
      (.start (fun _ => 0) []) [.handle 0 smoothRecord]).any fun s =>
        decide (s.sent = [.nil])) = true := by
    decide +kernel
  obtain ⟨s, hrun, hsent⟩ := exists_run_of_eval heval
  have halong : Along
      (ByteConsumer.step loadsEmpty formatString writesEncodable (oneRecord [0x7b, 0x7d]))
      (TakesHarmless loadsEmpty formatString writesEncodable
        (oneRecord [0x7b, 0x7d])) (.start (fun _ => 0) [])
      [.handle 0 smoothRecord] := by
    refine ⟨fun value hvalue => ?_, fun _ _ => trivial⟩
    obtain rfl : [0x7b, 0x7d] = value := Option.some.inj hvalue
    exact ⟨.nil, rfl, by decide, by simp [RawEvent.processedKey?, RawEvent.eventId?, RawEvent.get,
      JsonMembers.get?]⟩
  obtain ⟨hgoing, hcommitted⟩ := (never_stopped_iff hrun).mpr halong
  exact ⟨s, hrun, hsent, hgoing, hcommitted 0⟩

/-- **A poison pill**: a record that is not JSON ends the loop, and its offset is not committed. -/
theorem poison_pill : ∃ s,
    run (ByteConsumer.step loadsEmpty formatString writesEncodable (oneRecord [0xff]))
      (.start (fun _ => 0) []) [.handle 0 smoothRecord] = some s ∧ s.stopped = true ∧
        s.committed 0 = 0 := by
  have heval : ((run (ByteConsumer.step loadsEmpty formatString writesEncodable (oneRecord [0xff]))
      (.start (fun _ => 0) []) [.handle 0 smoothRecord]).any fun s =>
        decide (s.stopped = true ∧ s.committed 0 = 0)) = true := by
    decide +kernel
  exact exists_run_of_eval heval

end OrderCqrs
