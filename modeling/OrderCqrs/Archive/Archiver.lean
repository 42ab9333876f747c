import OrderCqrs.Command.Handlers
import OrderCqrs.Domain.Json
import OrderCqrs.Logic.Decimal
import OrderCqrs.Logic.Partitions

/-!
The archiver, which copies the topic to S3 in batches (`consumers/archiver.py`).

* `Upload`: a call of `upload_batch_to_s3` with the two readings of its clock; `Upload.key` and
  `Upload.body` are what it sends.
* `Archive`: topic, offsets, the batch in memory, and the calls that returned.
* `Archive.step`: a record arrives, the loop receives it, its batch is uploaded and the offsets are
  committed, a call raises, possibly after its effect, the loop is cancelled, the process is killed
  and started again at the committed offsets.
* `ArchiveInv`: what has been received is stored or in the batch.
* `archived_stored`: **what lies below the committed offsets is stored**, whatever fails.
-/

namespace OrderCqrs

open Runs Partitions Decimal

/-! ### Uploads -/

/-- A date of the calendar. -/
structure Date where
  year : ℕ
  month : ℕ
  day : ℕ
  deriving DecidableEq

/-- The Gregorian date of a time in microseconds since 1970. -/
def utcDate (micros : ℕ) : Date :=
  -- days since March 1 of the year 0, and within their era of 400 years
  let days := micros / (86400 * 10 ^ 6) + 719468
  let era := days / 146097
  let doe := days % 146097
  let yoe := (doe - doe / 1460 + doe / 36524 - doe / 146096) / 365
  let doy := doe - (365 * yoe + yoe / 4 - yoe / 100)
  let mp := (5 * doy + 2) / 153
  let month := if mp < 10 then mp + 3 else mp - 9
  { year := yoe + era * 400 + if month ≤ 2 then 1 else 0
    month
    day := doy - (153 * mp + 2) / 5 + 1 }

example : utcDate 0 = ⟨1970, 1, 1⟩ ∧ utcDate (1709210096 * 10 ^ 6) = ⟨2024, 2, 29⟩ := by decide

/-- A call of `upload_batch_to_s3`: its arguments and the times that `utcnow` and `time` return, in
microseconds. -/
structure Upload where
  events : List Json
  lastOffset : ℕ
  now : ℕ
  time : ℕ
  deriving DecidableEq

namespace Upload

/-- The key of the object. -/
def key (u : Upload) : String :=
  let now := utcDate u.now
  s!"year={now.year}/month={padded now.month}/day={padded now.day}/" ++
    s!"batch-offset-{u.lastOffset}-ts-{u.time / 10 ^ 6}.ndjson"

/-- The body: newline-delimited JSON. -/
def body (u : Upload) : String := "\n".intercalate (u.events.map Json.dumps)

end Upload

/-- The lines of a text. -/
def lines (s : String) : List String := (s.toList.splitOn '\n').map .ofList

/-- **The lines of a body are the events of its batch.** -/
lemma Upload.lines_body (u : Upload) (h : u.events ≠ []) :
    lines u.body = u.events.map Json.dumps := by
  have hsplit : u.body.toList.splitOn '\n' = (u.events.map Json.dumps).map String.toList := by
    rw [Upload.body, String.toList_intercalate]
    refine List.splitOn_intercalate '\n' (fun l hl => ?_) (by simpa using h)
    obtain ⟨s, hs, rfl⟩ := List.mem_map.mp hl
    obtain ⟨e, _, rfl⟩ := List.mem_map.mp hs
    exact e.dumps_oneLine
  rw [lines, hsplit, List.map_map]
  exact List.map_id'' (fun s => String.ofList_toList) _

/-! ### The transition system -/

/-- Where the archiver is: in the loop, in the `finally` block, or at its end. -/
inductive ArchiverPc where
  | receive
  | upload
  | commit
  | finalUpload
  | finalCommit
  | stopped
  deriving DecidableEq

/-- The topic with its records as `json.loads` reads them, `none` for what it refuses, the offsets
of the group, and the archiver.  `uploads` is the history of the calls that returned. -/
structure Archive where
  topic : ℕ → List (Option Json)
  committed : ℕ → ℕ
  position : ℕ → ℕ
  pc : ArchiverPc
  batch : List Json
  lastOffset : ℕ
  clock : ℕ
  uploads : List Upload

/-- The moves of topic and archiver. -/
inductive ArchiveAction where
  | produce (p : ℕ) (value : Option Json)
  | receive (p : ℕ)
  | upload (now time : ℕ) (outcome : Outcome)
  | commit (outcome : Outcome)
  | cancel (afterEffect : Bool)
  | restart

namespace Archive

/-- A group that has committed nothing yet. -/
def init (topic : ℕ → List (Option Json)) : Archive where
  topic := topic
  committed := fun _ => 0
  position := fun _ => 0
  pc := .receive
  batch := []
  lastOffset := 0
  clock := 0
  uploads := []

/-- An exception leaves the loop: the `finally` block uploads what is left. -/
def finish (s : Archive) : Archive :=
  { s with pc := if s.batch = [] then .stopped else .finalUpload }

/-- The body of the loop for the next record of a partition.  `limit` is `snapshot_batch_size`. -/
def handle (limit : ℕ) (s : Archive) (p : ℕ) (value : Option Json) : Archive :=
  let received := { s with position := Function.update s.position p (s.position p + 1) }
  match value with
  | none => received.finish
  | some event =>
      { received with
        batch := s.batch ++ [event]
        lastOffset := s.position p
        pc := if s.batch.length + 1 ≥ limit then .upload else .receive }

/-- The call of `upload_batch_to_s3` at the given times. -/
def call (s : Archive) (now time : ℕ) : Upload := ⟨s.batch, s.lastOffset, now, time⟩

/-- One move.  In the loop an exception of an upload or a commit is logged, and the batch stays. -/
def step (limit : ℕ) (s : Archive) : ArchiveAction → Option Archive
  | .produce p value =>
      some { s with topic := Function.update s.topic p (s.topic p ++ [value]) }
  | .receive p => do
      guard (s.pc = .receive)
      let value ← (s.topic p)[s.position p]?
      return s.handle limit p value
  | .upload now time outcome => do
      guard ((s.pc = .upload ∨ s.pc = .finalUpload) ∧ s.clock ≤ now ∧ now ≤ time)
      match outcome with
      | .completes =>
          return { s with
            clock := time
            uploads := s.uploads ++ [s.call now time]
            pc := if s.pc = .upload then .commit else .finalCommit }
      | .raises | .raisesAfterEffect =>
          return { s with clock := time, pc := if s.pc = .upload then .receive else .stopped }
  | .commit outcome => do
      guard (s.pc = .commit ∨ s.pc = .finalCommit)
      let batch := if s.pc = .commit ∧ outcome = .completes then [] else s.batch
      let committed := if outcome = .raises then s.committed else s.position
      return { s with batch, committed, pc := if s.pc = .commit then .receive else .stopped }
  | .cancel afterEffect => do
      guard (s.pc = .receive ∨ s.pc = .commit)
      let committed := if s.pc = .commit ∧ afterEffect then s.position else s.committed
      return { s with committed }.finish
  | .restart =>
      some { s with position := s.committed, pc := .receive, batch := [], lastOffset := 0 }

end Archive

/-! ### The invariant -/

/-- The event is in the batch of an upload that returned. -/
def Archive.Stored (s : Archive) (e : Json) : Prop := ∃ u ∈ s.uploads, e ∈ u.events

/-- **Received means stored or in the batch.** -/
structure ArchiveInv (s : Archive) : Prop where
  le : ∀ p, s.committed p ≤ s.position p
  bound : ∀ p, s.position p ≤ (s.topic p).length
  committed : ∀ p, ∀ k < s.committed p, ∀ e, (s.topic p)[k]? = some (some e) → s.Stored e
  received : ∀ p, ∀ k < s.position p, ∀ e, (s.topic p)[k]? = some (some e) →
    s.Stored e ∨ e ∈ s.batch
  /-- What is about to be committed is stored. -/
  uploaded : s.pc = .commit ∨ s.pc = .finalCommit → ∀ e ∈ s.batch, s.Stored e

namespace ArchiveInv

variable {s t : Archive} {limit : ℕ}

lemma init (topic : ℕ → List (Option Json)) : ArchiveInv (.init topic) where
  le := fun _ => le_rfl
  bound := fun _ => Nat.zero_le _
  committed := fun _ k hk => absurd hk (Nat.not_lt_zero k)
  received := fun _ k hk => absurd hk (Nat.not_lt_zero k)
  uploaded := by simp [Archive.init]

/-- All that has been received is stored when the batch is. -/
lemma stored (hs : ArchiveInv s) (hbatch : ∀ e ∈ s.batch, s.Stored e) :
    ∀ p, ∀ k < s.position p, ∀ e, (s.topic p)[k]? = some (some e) → s.Stored e :=
  fun p k hk e he => (hs.received p k hk e he).elim id (hbatch e)

/-- A record arrives. -/
lemma produce (hs : ArchiveInv s) (p : ℕ) (value : Option Json) :
    ArchiveInv { s with topic := Function.update s.topic p (s.topic p ++ [value]) } := by
  have hold : ∀ q, ∀ k < s.position q, ∀ e,
      (Function.update s.topic p (s.topic p ++ [value]) q)[k]? = some (some e) →
        (s.topic q)[k]? = some (some e) :=
    fun q k hk e he => getElem?_send_inv (hk.trans_le (hs.bound q)) he
  exact ⟨hs.le, fun q => (hs.bound q).trans (isPrefix_send s.topic p value q).length_le,
    fun q k hk e he => hs.committed q k hk e (hold q k (hk.trans_le (hs.le q)) e he),
    fun q k hk e he => hs.received q k hk e (hold q k hk e he), hs.uploaded⟩

/-- The loop receives a record: a record that `json.loads` refuses is the only one that is neither
stored nor put into the batch. -/
lemma handle (hs : ArchiveInv s) {p : ℕ} {value : Option Json}
    (hvalue : (s.topic p)[s.position p]? = some value) : ArchiveInv (s.handle limit p value) := by
  have hle := le_advance s.position p
  have hbound := advance_le hs.bound hvalue
  -- what is received is what was received before, or the record itself
  have hcases : ∀ q, ∀ k < Function.update s.position p (s.position p + 1) q, ∀ e,
      (s.topic q)[k]? = some (some e) → (s.Stored e ∨ e ∈ s.batch) ∨ value = some e := by
    intro q k hk e he
    rcases lt_advance hk with hold | ⟨rfl, rfl⟩
    · exact Or.inl (hs.received q k hold e he)
    · rw [hvalue, Option.some.injEq] at he
      exact Or.inr he
  unfold Archive.handle
  cases value with
  | none =>
      refine ⟨fun q => (hs.le q).trans (hle q), hbound, hs.committed, fun q k hk e he => ?_,
        fun hpc => ?_⟩
      · exact (hcases q k hk e he).resolve_right (by simp)
      · simp only [Archive.finish] at hpc
        split_ifs at hpc <;> simp at hpc
  | some event =>
      refine ⟨fun q => (hs.le q).trans (hle q), hbound, hs.committed, fun q k hk e he => ?_,
        fun hpc => ?_⟩
      · rcases hcases q k hk e he with hold | hnew
        · exact hold.imp_right (List.mem_append_left _)
        · rw [Option.some.inj hnew]
          exact Or.inr (List.mem_append_right _ (List.mem_singleton_self e))
      · dsimp only at hpc
        split_ifs at hpc <;> simp at hpc

/-- Offsets, batch and place change, and nothing else: what is committed is stored. -/
lemma move (hs : ArchiveInv s) {committed position : ℕ → ℕ} {pc : ArchiverPc} {batch : List Json}
    {lastOffset clock : ℕ} (hle : ∀ p, committed p ≤ position p)
    (hpos : ∀ p, position p ≤ s.position p)
    (hcommitted : ∀ p, committed p ≤ s.committed p ∨ ∀ e ∈ s.batch, s.Stored e)
    (hbatch : (∀ p, position p ≤ s.committed p) ∨ (∀ e ∈ s.batch, s.Stored e) ∨ batch = s.batch)
    (hpc : pc ≠ .commit ∧ pc ≠ .finalCommit) :
    ArchiveInv { s with committed, position, pc, batch, lastOffset, clock } where
  le := hle
  bound := fun p => (hpos p).trans (hs.bound p)
  committed := by
    intro p k hk e he
    rcases hcommitted p with hc | hstored
    · exact hs.committed p k (hk.trans_le hc) e he
    · exact hs.stored hstored p k (hk.trans_le ((hle p).trans (hpos p))) e he
  received := by
    intro p k hk e he
    rcases hbatch with hc | hstored | heq
    · exact Or.inl (hs.committed p k (hk.trans_le (hc p)) e he)
    · exact Or.inl (hs.stored hstored p k (hk.trans_le (hpos p)) e he)
    · rw [heq]
      exact hs.received p k (hk.trans_le (hpos p)) e he
  uploaded := fun hor => hor.elim (fun h => absurd h hpc.1) fun h => absurd h hpc.2

/-- An upload that returns. -/
lemma upload (hs : ArchiveInv s) (now time : ℕ) (pc : ArchiverPc) :
    ArchiveInv { s with clock := time, uploads := s.uploads ++ [s.call now time], pc } := by
  have hold : ∀ {e : Json}, s.Stored e → ∃ u ∈ s.uploads ++ [s.call now time], e ∈ u.events :=
    fun ⟨u, hu, he⟩ => ⟨u, List.mem_append_left _ hu, he⟩
  exact ⟨hs.le, hs.bound, fun p k hk e he => hold (hs.committed p k hk e he),
    fun p k hk e he => (hs.received p k hk e he).imp_left hold,
    fun _ e he => ⟨_, List.mem_append_right _ (List.mem_singleton_self _), he⟩⟩

/-- **Every move keeps the invariant.** -/
theorem step {a : ArchiveAction} (hs : ArchiveInv s) (h : s.step limit a = some t) :
    ArchiveInv t := by
  cases a with
  | produce p value =>
      obtain rfl := Option.some.inj h
      exact hs.produce p value
  | receive p =>
      simp only [Archive.step, Option.bind_eq_bind, Option.bind_eq_some_iff] at h
      obtain ⟨_, _, value, hvalue, h⟩ := h
      obtain rfl := Option.some.inj h
      exact hs.handle hvalue
  | upload now time outcome =>
      simp only [Archive.step, Option.bind_eq_bind, Option.bind_eq_some_iff] at h
      obtain ⟨_, _, h⟩ := h
      cases outcome with
      | completes =>
          obtain rfl := Option.some.inj h
          exact hs.upload now time _
      | raises | raisesAfterEffect =>
          obtain rfl := Option.some.inj h
          refine hs.move hs.le (fun _ => le_rfl) (fun _ => Or.inl le_rfl) (Or.inr (Or.inr rfl)) ?_
          split_ifs <;> simp
  | commit outcome =>
      simp only [Archive.step, Option.bind_eq_bind, Option.bind_eq_some_iff,
        Option.guard_eq_some'] at h
      obtain ⟨_, hpc, h⟩ := h
      obtain rfl := Option.some.inj h
      have hstored := hs.uploaded hpc
      refine hs.move (fun p => ?_) (fun _ => le_rfl) (fun _ => Or.inr hstored)
        (Or.inr (Or.inl hstored)) ?_
      · split_ifs
        · exact hs.le p
        · exact le_rfl
      · split_ifs <;> simp
  | cancel afterEffect =>
      simp only [Archive.step, Option.bind_eq_bind, Option.bind_eq_some_iff,
        Option.guard_eq_some'] at h
      obtain ⟨_, hpc, h⟩ := h
      obtain rfl := Option.some.inj h
      refine hs.move (fun p => ?_) (fun _ => le_rfl) (fun p => ?_) (Or.inr (Or.inr rfl)) ?_
      · split_ifs
        · exact le_rfl
        · exact hs.le p
      · split_ifs with hcommit
        · exact Or.inr (hs.uploaded (Or.inl hcommit.1))
        · exact Or.inl le_rfl
      · dsimp only
        split_ifs <;> simp
  | restart =>
      obtain rfl := Option.some.inj h
      exact hs.move (fun _ => le_rfl) hs.le (fun _ => Or.inl le_rfl) (Or.inl fun _ => le_rfl)
        (by simp)

end ArchiveInv

/-- **Archived means stored**: in every state the archiver can reach over any topic, whatever the
order of the messages and whatever fails, every JSON value below a committed offset is a line of the
body of an upload that returned. -/
theorem archived_stored {limit : ℕ} {topic : ℕ → List (Option Json)} {as : List ArchiveAction}
    {s : Archive} (hrun : run (Archive.step limit) (.init topic) as = some s) :
    ∀ p, ∀ k < s.committed p, ∀ e, (s.topic p)[k]? = some (some e) →
      ∃ u ∈ s.uploads, e.dumps ∈ lines u.body := by
  have hs : ArchiveInv s :=
    run_preserves (fun hs hstep => hs.step hstep) (ArchiveInv.init topic) hrun
  intro p k hk e he
  obtain ⟨u, hu, hin⟩ := hs.committed p k hk e he
  refine ⟨u, hu, ?_⟩
  rw [u.lines_body (List.ne_nil_of_mem hin)]
  exact List.mem_map_of_mem hin

/-- A record with an event id. -/
def archivedRecord (eventId : String) : Json :=
  .object (.cons (.ofString "event_id") (.string (.ofString eventId)) .nil)

/-- Two partitions, one with a message that is not JSON. -/
def mixedTopic : ℕ → List (Option Json)
  | 0 => [some (archivedRecord "event-0"), none]
  | 1 => [some (archivedRecord "event-1")]
  | _ => []

/-- An upload fails, the message that is not JSON ends the loop, the `finally` block uploads the
batch and commits, and the process starts again. -/
def failedUploadRun : List ArchiveAction :=
  [.receive 0, .receive 1, .upload 0 0 .raises, .receive 0, .upload 1 1 .completes, .commit .completes,
    .restart]

theorem failedUploadRun_stored : ∃ s,
    run (Archive.step 2) (.init mixedTopic) failedUploadRun = some s ∧ s.committed 0 = 2 ∧
      ∃ u ∈ s.uploads, (archivedRecord "event-0").dumps ∈ lines u.body := by
  have heval : ((run (Archive.step 2) (.init mixedTopic) failedUploadRun).any fun s =>
      decide (s.committed 0 = 2 ∧ (s.topic 0)[0]? = some (some (archivedRecord "event-0")))) =
        true := by
    decide +kernel
  obtain ⟨s, hrun, hcommitted, hrecord⟩ := exists_run_of_eval heval
  exact ⟨s, hrun, hcommitted, archived_stored hrun 0 0 (by omega) _ hrecord⟩

end OrderCqrs
