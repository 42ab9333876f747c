import Mathlib.Data.List.ReduceOption
import OrderCqrs.Archive.Archiver
import OrderCqrs.Delivery.Wire
import OrderCqrs.Projection.Records
import OrderCqrs.Projection.Rewound

/-!
Replays of the archive: the cold path against the hot path.

* `recordsOf`: the records of a partition, in a list of labelled records.
* `PartitionRead`: the archive as a reader of a partition; a batch that is uploaded again takes it
  back to where the batch begins, a restart to the committed offset.
* `ReplayInv`: so it is for every partition, in every state.
* `archive_reads`: **below the committed offsets the archive has the records of every partition,
  in their order but for stretches that it repeats**.
* `Upload.records`, `Upload.records_eq`: `json.loads` reads the lines of a body.
* `objects`: what the bucket holds; `replayArchive`: the projection of its objects.
* `replayArchive_eq`: **the tables are those of the topic**.
-/

namespace OrderCqrs

open Runs Partitions Rewinds ListTables

/-! ### The archive as a reader -/

/-- The records of a partition. -/
def recordsOf (p : ℕ) (us : List (ℕ × Json)) : List Json :=
  (us.filter fun u => u.1 = p).map Prod.snd

@[simp] lemma recordsOf_append (p : ℕ) (us vs : List (ℕ × Json)) :
    recordsOf p (us ++ vs) = recordsOf p us ++ recordsOf p vs := by
  rw [recordsOf, List.filter_append, List.map_append]
  rfl

/-- **The archive as a reader of a partition.**  The uploads are what it has read up to `place`,
`batch` is what it has received from `base` on. -/
structure PartitionRead (s : Archive) (p : ℕ) (stored batch : List Json) (l : List (Option Json))
    (place base : ℕ) : Prop where
  reads : Reads (s.topic p) l place
  stored : l.reduceOption = stored
  le_place : base ≤ place
  le_position : base ≤ s.position p
  batch : (((s.topic p).take (s.position p)).drop base).reduceOption = batch
  committed : s.committed p ≤ place
  uploaded : s.pc = .commit ∨ s.pc = .finalCommit → place = s.position p

/-- **Every partition has a reader.**  `us` are the records of the uploads and `b` those of the
batch, each with its partition. -/
structure ReplayInv (s : Archive) (us b : List (ℕ × Json)) : Prop where
  uploads : us.map Prod.snd = s.uploads.flatMap Upload.events
  batch : b.map Prod.snd = s.batch
  nonempty : ∀ u ∈ s.uploads, u.events ≠ []
  calls : s.pc ≠ .receive → s.pc ≠ .stopped → s.batch ≠ []
  reads : ∀ p, ∃ l place base, PartitionRead s p (recordsOf p us) (recordsOf p b) l place base

section PartitionRead

variable {s : Archive} {p : ℕ} {stored batch : List Json} {l : List (Option Json)}
  {place base : ℕ}

/-- A record arrives. -/
lemma PartitionRead.produce (h : PartitionRead s p stored batch l place base)
    (hs : ArchiveInv s) (q : ℕ) (value : Option Json) :
    PartitionRead { s with topic := Function.update s.topic q (s.topic q ++ [value]) } p stored
      batch l place base := by
  have hprefix := isPrefix_send s.topic q value p
  have htake : (Function.update s.topic q (s.topic q ++ [value]) p).take (s.position p) =
      (s.topic p).take (s.position p) := by
    obtain ⟨t, ht⟩ := hprefix
    rw [← ht, List.take_append_of_le_length (hs.bound p)]
  exact
    { h with
      reads := h.reads.mono hprefix
      batch := by
        dsimp only
        rw [htake]
        exact h.batch }

/-- The records from `base` on, with the record at the position. -/
lemma PartitionRead.batch_succ (h : PartitionRead s p stored batch l place base)
    {value : Option Json} (hvalue : (s.topic p)[s.position p]? = some value) :
    (((s.topic p).take (s.position p + 1)).drop base).reduceOption =
      batch ++ value.toList := by
  have hlt := (List.getElem?_eq_some_iff.mp hvalue).1
  have hlen : base ≤ ((s.topic p).take (s.position p)).length := by
    rw [List.length_take, min_eq_left hlt.le]
    exact h.le_position
  rw [List.take_add_one, hvalue, List.drop_append_of_le_length hlen, Option.toList_some,
    List.reduceOption_append, List.reduceOption_singleton, h.batch]

/-- The loop receives a record of this partition or of another. -/
lemma PartitionRead.receive {limit q : ℕ} (h : PartitionRead s p stored batch l place base)
    {value : Option Json} (hvalue : (s.topic q)[s.position q]? = some value) :
    PartitionRead (s.handle limit q value) p stored
      (batch ++ if q = p then value.toList else []) l place base := by
  have hbatch : (((s.topic p).take (Function.update s.position q (s.position q + 1) p)).drop
      base).reduceOption = batch ++ if q = p then value.toList else [] := by
    by_cases hq : q = p
    · subst hq
      rw [Function.update_self, if_pos rfl]
      exact h.batch_succ hvalue
    · rw [Function.update_of_ne (Ne.symm hq), if_neg hq, List.append_nil]
      exact h.batch
  have hle := h.le_position.trans (le_advance s.position q p)
  unfold Archive.handle
  cases value with
  | none =>
      refine ⟨h.reads, h.stored, h.le_place, hle, hbatch, h.committed, fun hpc => ?_⟩
      simp only [Archive.finish] at hpc
      split_ifs at hpc <;> simp at hpc
  | some event =>
      refine ⟨h.reads, h.stored, h.le_place, hle, hbatch, h.committed, fun hpc => ?_⟩
      dsimp only at hpc
      split_ifs at hpc <;> simp at hpc

/-- An upload returns: the reader goes back to `base` and reads on to the position. -/
lemma PartitionRead.upload (h : PartitionRead s p stored batch l place base) (hs : ArchiveInv s)
    (now time : ℕ) (pc : ArchiverPc) :
    PartitionRead { s with clock := time, uploads := s.uploads ++ [s.call now time], pc } p
      (stored ++ batch) batch (l ++ ((s.topic p).take (s.position p)).drop base) (s.position p)
      base where
  reads := (h.reads.rewind h.le_place).append h.le_position (hs.bound p)
  stored := by rw [List.reduceOption_append, h.stored, h.batch]
  le_place := h.le_position
  le_position := h.le_position
  batch := h.batch
  committed := hs.le p
  uploaded := fun _ => rfl

/-- Place and clock change, and the committed offset at most to what is stored. -/
lemma PartitionRead.move (h : PartitionRead s p stored batch l place base) {committed : ℕ → ℕ}
    {pc : ArchiverPc} {clock : ℕ} (hcommitted : committed p ≤ place)
    (hpc : pc ≠ .commit ∧ pc ≠ .finalCommit) :
    PartitionRead { s with committed, pc, clock } p stored batch l place base :=
  { h with
    committed := hcommitted
    uploaded := fun hor => hor.elim (fun heq => absurd heq hpc.1) fun heq => absurd heq hpc.2 }

/-- The batch is dropped, and what comes next is read from the position on. -/
lemma PartitionRead.drop (h : PartitionRead s p stored batch l place base)
    {committed position : ℕ → ℕ} {pc : ArchiverPc} {empty : List Json} {lastOffset : ℕ}
    (hcommitted : committed p ≤ place) (hposition : position p ≤ place)
    (hpc : pc ≠ .commit ∧ pc ≠ .finalCommit) :
    PartitionRead { s with committed, position, pc, batch := empty, lastOffset } p stored [] l place
      (position p) where
  reads := h.reads
  stored := h.stored
  le_place := hposition
  le_position := le_rfl
  batch := by
    dsimp only
    rw [List.drop_take_self]
    rfl
  committed := hcommitted
  uploaded := fun hor => hor.elim (fun heq => absurd heq hpc.1) fun heq => absurd heq hpc.2

end PartitionRead

namespace ReplayInv

variable {s t : Archive} {us b : List (ℕ × Json)} {limit : ℕ}

lemma init (topic : ℕ → List (Option Json)) : ReplayInv (.init topic) [] [] where
  uploads := rfl
  batch := rfl
  nonempty := fun _ hu => absurd hu List.not_mem_nil
  calls := fun hpc => absurd rfl hpc
  reads := fun _ => ⟨[], 0, 0, .start, rfl, le_rfl, le_rfl, rfl, le_rfl, by simp [Archive.init]⟩

/-- The loop receives a record, which goes into the batch if `json.loads` accepts it. -/
lemma receive (h : ReplayInv s us b) {p : ℕ} {value : Option Json}
    (hvalue : (s.topic p)[s.position p]? = some value) :
    ReplayInv (s.handle limit p value) us (b ++ value.toList.map fun event => (p, event)) := by
  have hreads : ∀ q, ∃ l place base, PartitionRead (s.handle limit p value) q (recordsOf q us)
      (recordsOf q (b ++ value.toList.map fun event => (p, event))) l place base := by
    intro q
    obtain ⟨l, place, base, hread⟩ := h.reads q
    have hrecords : recordsOf q (value.toList.map fun event => (p, event)) =
        if p = q then value.toList else [] := by
      cases value <;> by_cases hq : p = q <;> simp [recordsOf, hq]
    rw [recordsOf_append, hrecords]
    exact ⟨l, place, base, hread.receive hvalue⟩
  cases value with
  | none =>
      refine ⟨h.uploads, ?_, h.nonempty, fun _ hpc => ?_, hreads⟩
      · rw [Option.toList_none, List.map_nil, List.append_nil]
        exact h.batch
      · simp only [Archive.handle, Archive.finish] at hpc ⊢
        split_ifs at hpc with hbatch
        · exact absurd rfl hpc
        · exact hbatch
  | some event =>
      refine ⟨h.uploads, ?_, h.nonempty, fun _ _ => ?_, hreads⟩
      · rw [List.map_append, h.batch]
        rfl
      · exact List.append_ne_nil_of_right_ne_nil _ (List.cons_ne_nil _ _)

/-- An upload returns. -/
lemma upload (h : ReplayInv s us b) (hs : ArchiveInv s) (hbatch : s.batch ≠ []) (now time : ℕ)
    (pc : ArchiverPc) :
    ReplayInv { s with clock := time, uploads := s.uploads ++ [s.call now time], pc } (us ++ b)
      b where
  uploads := by
    rw [List.map_append, List.flatMap_append, h.uploads, h.batch, List.flatMap_singleton]
    rfl
  batch := h.batch
  nonempty := by
    intro u hu
    rcases List.mem_append.mp hu with hold | hnew
    · exact h.nonempty u hold
    · rw [List.mem_singleton.mp hnew]
      exact hbatch
  calls := fun _ _ => hbatch
  reads := by
    intro p
    obtain ⟨l, place, base, hread⟩ := h.reads p
    rw [recordsOf_append]
    exact ⟨_, _, _, hread.upload hs now time pc⟩

/-- A commit returns: what is committed are the positions, and these are uploaded. -/
lemma commit {outcome : Outcome} (h : ReplayInv s us b)
    (hstep : s.step limit (.commit outcome) = some t) : ∃ us' b', ReplayInv t us' b' := by
  simp only [Archive.step, Option.bind_eq_bind, Option.bind_eq_some_iff,
    Option.guard_eq_some'] at hstep
  obtain ⟨_, hpc, hstep⟩ := hstep
  obtain rfl := Option.some.inj hstep
  have hcommitted : ∀ p l place base,
      PartitionRead s p (recordsOf p us) (recordsOf p b) l place base →
        (if outcome = .raises then s.committed else s.position) p ≤ place := by
    intro p l place base hread
    split_ifs
    · exact hread.committed
    · exact (hread.uploaded hpc).ge
  have hnext : (if s.pc = .commit then ArchiverPc.receive else .stopped) ≠ .commit ∧
      (if s.pc = .commit then ArchiverPc.receive else .stopped) ≠ .finalCommit := by
    split_ifs <;> simp
  by_cases hdrop : s.pc = .commit ∧ outcome = .completes
  · refine ⟨us, [], h.uploads, (if_pos hdrop).symm, h.nonempty,
      fun hne => absurd (if_pos hdrop.1) hne, fun p => ?_⟩
    obtain ⟨l, place, base, hread⟩ := h.reads p
    exact ⟨l, place, _, hread.drop (hcommitted p _ _ _ hread) (hread.uploaded hpc).ge hnext⟩
  · refine ⟨us, b, h.uploads, h.batch.trans (if_neg hdrop).symm, h.nonempty,
      fun hne hne' => ?_, fun p => ?_⟩
    · dsimp only at hne hne'
      split_ifs at hne hne' <;> simp at hne hne'
    · obtain ⟨l, place, base, hread⟩ := h.reads p
      rw [if_neg hdrop]
      exact ⟨l, place, base, hread.move (hcommitted p _ _ _ hread) hnext⟩

/-- The loop is cancelled. -/
lemma cancel {afterEffect : Bool} (h : ReplayInv s us b)
    (hstep : s.step limit (.cancel afterEffect) = some t) : ∃ us' b', ReplayInv t us' b' := by
  simp only [Archive.step, Option.bind_eq_bind, Option.bind_eq_some_iff,
    Option.guard_eq_some'] at hstep
  obtain ⟨_, hpc, hstep⟩ := hstep
  obtain rfl := Option.some.inj hstep
  refine ⟨us, b, h.uploads, h.batch, h.nonempty, fun _ hne => ?_, fun p => ?_⟩
  · simp only [Archive.finish] at hne ⊢
    split_ifs at hne with hbatch
    · exact absurd rfl hne
    · exact hbatch
  · obtain ⟨l, place, base, hread⟩ := h.reads p
    refine ⟨l, place, base, hread.move ?_ (by dsimp only; split_ifs <;> simp)⟩
    split_ifs with hcommit
    · exact (hread.uploaded (Or.inl hcommit.1)).ge
    · exact hread.committed

/-- **Every move keeps the readers.** -/
theorem step {a : ArchiveAction} (h : ReplayInv s us b) (hs : ArchiveInv s)
    (hstep : s.step limit a = some t) : ∃ us' b', ReplayInv t us' b' := by
  cases a with
  | produce p value =>
      obtain rfl := Option.some.inj hstep
      refine ⟨us, b, h.uploads, h.batch, h.nonempty, h.calls, fun q => ?_⟩
      obtain ⟨l, place, base, hread⟩ := h.reads q
      exact ⟨l, place, base, hread.produce hs p value⟩
  | receive p =>
      simp only [Archive.step, Option.bind_eq_bind, Option.bind_eq_some_iff] at hstep
      obtain ⟨_, _, value, hvalue, hstep⟩ := hstep
      obtain rfl := Option.some.inj hstep
      exact ⟨us, _, h.receive hvalue⟩
  | upload now time outcome =>
      simp only [Archive.step, Option.bind_eq_bind, Option.bind_eq_some_iff,
        Option.guard_eq_some'] at hstep
      obtain ⟨_, hguard, hstep⟩ := hstep
      have hbatch : s.batch ≠ [] := by
        refine h.calls ?_ ?_ <;> rcases hguard.1 with hpc | hpc <;> simp [hpc]
      cases outcome with
      | completes =>
          obtain rfl := Option.some.inj hstep
          exact ⟨us ++ b, b, h.upload hs hbatch now time _⟩
      | raises | raisesAfterEffect =>
          obtain rfl := Option.some.inj hstep
          refine ⟨us, b, h.uploads, h.batch, h.nonempty, fun _ _ => hbatch, fun p => ?_⟩
          obtain ⟨l, place, base, hread⟩ := h.reads p
          exact ⟨l, place, base, hread.move hread.committed (by split_ifs <;> simp)⟩
  | commit outcome => exact h.commit hstep
  | cancel afterEffect => exact h.cancel hstep
  | restart =>
      obtain rfl := Option.some.inj hstep
      refine ⟨us, [], h.uploads, rfl, h.nonempty, fun hne => absurd rfl hne, fun p => ?_⟩
      obtain ⟨l, place, base, hread⟩ := h.reads p
      exact ⟨l, place, _, hread.drop hread.committed hread.committed (by simp)⟩

end ReplayInv

lemma replayInv_run {limit : ℕ} {topic : ℕ → List (Option Json)} {as : List ArchiveAction}
    {s : Archive} (hrun : run (Archive.step limit) (.init topic) as = some s) :
    ∃ us b, ReplayInv s us b := by
  have hinv : ArchiveInv s ∧ ∃ us b, ReplayInv s us b :=
    run_preserves (P := fun s => ArchiveInv s ∧ ∃ us b, ReplayInv s us b)
      (fun hs hstep => by
        obtain ⟨hs, us, b, h⟩ := hs
        exact ⟨hs.step hstep, h.step hs hstep⟩)
      ⟨ArchiveInv.init topic, [], [], ReplayInv.init topic⟩ hrun
  exact hinv.2

/-- **Below the committed offsets the archive has everything, in order**: in every state the
archiver can reach, the uploads are, for every partition, what a reader of its records has read that
goes back at times, and is at or past the committed offset. -/
theorem archive_reads {limit : ℕ} {topic : ℕ → List (Option Json)} {as : List ArchiveAction}
    {s : Archive} (hrun : run (Archive.step limit) (.init topic) as = some s) :
    (∀ u ∈ s.uploads, u.events ≠ []) ∧
      ∃ us : List (ℕ × Json), us.map Prod.snd = s.uploads.flatMap Upload.events ∧
        ∀ p, ∃ l place, Reads (s.topic p) l place ∧ s.committed p ≤ place ∧
          l.reduceOption = recordsOf p us := by
  obtain ⟨us, b, h⟩ := replayInv_run hrun
  refine ⟨h.nonempty, us, h.uploads, fun p => ?_⟩
  obtain ⟨l, place, base, hread⟩ := h.reads p
  exact ⟨l, place, hread.reads, hread.committed, hread.stored⟩

/-- A creation, as the publisher writes it. -/
def openedEvent : Event := orderCreatedEvent (.nth 0) "order-0" "cust-1" "a@test.com"

/-- A topic of one record. -/
def openedTopic (p : ℕ) : List (Option Json) :=
  if p = 0 then [some (.object (openedEvent.modelDump reprTen))] else []

/-- The commit fails after the upload, the process starts again and uploads the record again. -/
def uploadedTwice : List ArchiveAction :=
  [.receive 0, .upload 0 0 .completes, .commit .raises, .restart, .receive 0,
    .upload (10 ^ 6) (10 ^ 6) .completes, .commit .completes]

/-- Its two uploads. -/
def twiceUploads : List Upload :=
  [⟨[.object (openedEvent.modelDump reprTen)], 0, 0, 0⟩,
    ⟨[.object (openedEvent.modelDump reprTen)], 0, 10 ^ 6, 10 ^ 6⟩]

lemma uploadedTwice_run : run (Archive.step 1) (.init openedTopic) uploadedTwice = some
    { topic := openedTopic
      committed := Function.update (fun _ => 0) 0 1
      position := Function.update (fun _ => 0) 0 1
      pc := .receive
      batch := []
      lastOffset := 0
      clock := 10 ^ 6
      uploads := twiceUploads } := rfl

theorem uploadedTwice_reads : ∃ us : List (ℕ × Json),
    us.map Prod.snd = twiceUploads.flatMap Upload.events ∧
      ∃ l place, Reads (openedTopic 0) l place ∧ 1 ≤ place ∧ l.reduceOption = recordsOf 0 us := by
  obtain ⟨_, us, hus, hreads⟩ := archive_reads uploadedTwice_run
  obtain ⟨l, place, hread, hplace, hl⟩ := hreads 0
  exact ⟨us, hus, l, place, hread, hplace, hl⟩

/-! ### The archive read back -/

/-- The records of an object: its lines, as `json.loads` reads them. -/
def Upload.records (float : Str → JsonNumber) (u : Upload) : Option (List Json) :=
  (lines u.body).mapM fun line => Json.loads float (.ofString line)

/-- **The lines are the records of the batch.** -/
lemma Upload.records_eq {float : Str → JsonNumber} {u : Upload} (hne : u.events ≠ [])
    (h : ∀ e ∈ u.events, e.Regular float) : u.records float = some u.events := by
  rw [Upload.records, u.lines_body hne, List.mapM_map]
  exact (mapM_eq_some fun e he => loads_dumps (h e he)).trans (congrArg some (List.map_id _))

/-- What the bucket holds, in the order of the last modifications: a put replaces the object of its
key. -/
def objects (us : List Upload) : List Upload :=
  us.foldl (fun kept u => kept.filter (fun v => v.key ≠ u.key) ++ [u]) []

/-- With different keys nothing is replaced. -/
lemma objects_eq {us : List Upload} (h : (us.map Upload.key).Nodup) : objects us = us := by
  induction us using List.reverseRecOn with
  | nil => rfl
  | append_singleton us u ih =>
      rw [List.map_append, List.nodup_append] at h
      obtain ⟨hus, _, hdisjoint⟩ := h
      rw [objects, List.foldl_concat, ← objects, ih hus, List.filter_eq_self.mpr]
      intro v hv
      exact decide_eq_true (hdisjoint _ (List.mem_map_of_mem hv) _ (by simp))

/-- The projection of a record that is an object; of any other it raises. -/
def projectJson [Btree] (codec : Codec) (rm : ReadModel) : Json → Option ReadModel
  | .object event => projectRecord codec rm event
  | _ => none

/-- **The cold path**: the lines of the objects of a bucket, projected one after the other. -/
def replayArchive [Btree] (float : Str → JsonNumber) (codec : Codec) (us : List Upload) :
    Option ReadModel := do
  let records ← (objects us).mapM (Upload.records float)
  run (projectJson codec) .empty records.flatten

/-- **A topic of events.**  Its records are read from texts and encode the events `decode` gives,
the events of an order are in the partition of the order, and the first of them creates it. -/
structure EventTopic (float : Str → JsonNumber) (codec : Codec) (decode : Json → Event)
    (part : String → ℕ) (topic : ℕ → List (Option Json)) : Prop where
  text : ∀ p j, some j ∈ topic p → ∃ text : Str, text.Encodable ∧ Json.loads float text = some j
  encodes : ∀ p j, some j ∈ topic p →
    ∃ event, j = .object event ∧ Encodes codec event (decode j)
  partition : ∀ p j, some j ∈ topic p → part (decode j).aggregateId = p
  opens : ∀ p j, some j ∈ topic p → Opens (((topic p).reduceOption.map decode).filter fun e =>
    e.aggregateId = (decode j).aggregateId)

section Replay

variable {float : Str → JsonNumber} {codec : Codec} {decode : Json → Event} {part : String → ℕ}
  {topic : ℕ → List (Option Json)}

/-- The projection of records is that of their events. -/
lemma run_projectJson [Btree] (decode : Json → Event) {js : List Json} (rm : ReadModel)
    (h : ∀ j ∈ js, ∃ event, j = .object event ∧ Encodes codec event (decode j)) :
    run (projectJson codec) rm js = run projectToPostgres rm (js.map decode) := by
  induction js generalizing rm with
  | nil => rfl
  | cons j js ih =>
      obtain ⟨event, rfl, hencodes⟩ := h _ List.mem_cons_self
      rw [List.map_cons, run_cons, run_cons, projectJson, projectRecord_eq hencodes]
      exact congrArg _ (funext fun rm' => ih rm' fun d hd => h d (List.mem_cons_of_mem _ hd))

/-- The objects are read without an error. -/
lemma replayArchive_run [Btree] {us : List Upload} (hkeys : (us.map Upload.key).Nodup)
    (hne : ∀ u ∈ us, u.events ≠ []) (h : ∀ u ∈ us, ∀ e ∈ u.events, e.Regular float) :
    replayArchive float codec us = run (projectJson codec) .empty (us.flatMap Upload.events) := by
  rw [replayArchive, objects_eq hkeys,
    mapM_eq_some fun u hu => Upload.records_eq (hne u hu) (h u hu)]
  rfl

/-- The events of an order among labelled records are those of its partition. -/
lemma filter_recordsOf {us : List (ℕ × Json)}
    (h : ∀ u ∈ us, part (decode u.2).aggregateId = u.1) (o : String) :
    ((us.map Prod.snd).map decode).filter (fun e => e.aggregateId = o) =
      ((recordsOf (part o) us).map decode).filter fun e => e.aggregateId = o := by
  induction us with
  | nil => rfl
  | cons u us ih =>
      have hu := h u List.mem_cons_self
      have htail := ih fun v hv => h v (List.mem_cons_of_mem u hv)
      rw [recordsOf, List.filter_cons]
      by_cases ho : (decode u.2).aggregateId = o
      · have hpart : u.1 = part o := by rw [← hu, ho]
        rw [if_pos (decide_eq_true hpart), List.map_cons, List.map_cons, List.map_cons,
          List.map_cons, List.filter_cons_of_pos (by simpa using ho),
          List.filter_cons_of_pos (by simpa using ho), htail]
        rfl
      · rw [List.map_cons, List.map_cons, List.filter_cons_of_neg (by simpa using ho), htail]
        split_ifs
        · rw [List.map_cons, List.map_cons, List.filter_cons_of_neg (by simpa using ho)]
          rfl
        · rfl

/-- A labelled record is one of the topic. -/
lemma mem_topic_of_recordsOf {us : List (ℕ × Json)}
    (h : ∀ p, recordsOf p us ⊆ (topic p).reduceOption) {u : ℕ × Json} (hu : u ∈ us) :
    some u.2 ∈ topic u.1 := by
  refine List.reduceOption_mem_iff.mp (h u.1 (List.mem_map_of_mem ?_))
  exact List.mem_filter.mpr ⟨hu, decide_eq_true rfl⟩

end Replay

/-- **The cold path is the hot path.**  When everything in the topic is committed and no two uploads
had the same key, the projection of the archive gives the tables of a projection of the topic, in
whichever order its partitions are read, if both go through. -/
theorem replayArchive_eq [Btree] {limit : ℕ} {topic : ℕ → List (Option Json)}
    {as : List ArchiveAction}
    {s : Archive} {float : Str → JsonNumber} {codec : Codec} {decode : Json → Event}
    {part : String → ℕ} (hfloat : ∀ x, (float x).Readable float)
    (hrun : run (Archive.step limit) (.init topic) as = some s)
    (htopic : EventTopic float codec decode part s.topic)
    (hkeys : (s.uploads.map Upload.key).Nodup)
    (hcommitted : ∀ p, s.committed p = (s.topic p).length)
    {consumed : List (ℕ × Json)} (hconsumed : ∀ p, recordsOf p consumed = (s.topic p).reduceOption)
    {rm rm' : ReadModel} (hcold : replayArchive float codec s.uploads = some rm)
    (hhot : run (projectJson codec) .empty (consumed.map Prod.snd) = some rm') : rm = rm' := by
  obtain ⟨us, b, h⟩ := replayInv_run hrun
  have hall : ∀ p, ∃ l, Reads (s.topic p) l (s.topic p).length ∧
      l.reduceOption = recordsOf p us := by
    intro p
    obtain ⟨l, place, base, hread⟩ := h.reads p
    have hplace : place = (s.topic p).length :=
      le_antisymm hread.reads.le_length ((hcommitted p).symm.le.trans hread.committed)
    exact ⟨l, hplace ▸ hread.reads, hread.stored⟩
  have hmem : ∀ u ∈ us, some u.2 ∈ s.topic u.1 := by
    refine fun u hu => mem_topic_of_recordsOf (fun p j hj => ?_) hu
    obtain ⟨l, hread, hl⟩ := hall p
    rw [← hl, List.reduceOption_mem_iff] at hj
    exact List.reduceOption_mem_iff.mpr (hread.subset hj)
  have hmem' : ∀ u ∈ consumed, some u.2 ∈ s.topic u.1 :=
    fun u hu => mem_topic_of_recordsOf (fun p _ hj => hconsumed p ▸ hj) hu
  -- the archive is read back as the uploaded records
  have hregular : ∀ u ∈ s.uploads, ∀ e ∈ u.events, e.Regular float := by
    intro u hu e he
    have hin : e ∈ us.map Prod.snd := by
      rw [h.uploads]
      exact List.mem_flatMap.mpr ⟨u, hu, he⟩
    obtain ⟨v, hv, rfl⟩ := List.mem_map.mp hin
    obtain ⟨text, hencodable, hloads⟩ := htopic.text v.1 v.2 (hmem v hv)
    exact regular_of_loads hfloat hencodable hloads
  have hlabel : ∀ u ∈ us, part (decode u.2).aggregateId = u.1 :=
    fun u hu => htopic.partition u.1 u.2 (hmem u hu)
  have hlabel' : ∀ u ∈ consumed, part (decode u.2).aggregateId = u.1 :=
    fun u hu => htopic.partition u.1 u.2 (hmem' u hu)
  rw [replayArchive_run hkeys h.nonempty hregular, ← h.uploads, run_projectJson decode] at hcold
  swap
  · intro j hj
    obtain ⟨u, hu, rfl⟩ := List.mem_map.mp hj
    exact htopic.encodes u.1 u.2 (hmem u hu)
  rw [run_projectJson decode] at hhot
  swap
  · intro j hj
    obtain ⟨u, hu, rfl⟩ := List.mem_map.mp hj
    exact htopic.encodes u.1 u.2 (hmem' u hu)
  refine tables_of_reads (fun _ _ => Finmap.notMem_empty) (fun e he => ?_) (fun o => ?_) hcold hhot
  · obtain ⟨j, hj, rfl⟩ := List.mem_map.mp he
    obtain ⟨u, hu, rfl⟩ := List.mem_map.mp hj
    rw [filter_recordsOf hlabel', hconsumed, hlabel' u hu]
    exact htopic.opens u.1 u.2 (hmem' u hu)
  · rw [filter_recordsOf hlabel, filter_recordsOf hlabel', hconsumed]
    obtain ⟨l, hread, hl⟩ := hall (part o)
    have hevents := (hread.filterMap_end id).filterMap_end (some ∘ decode)
    rw [List.filterMap_eq_map] at hevents
    rw [← hl]
    exact hevents.filter_end _

lemma openedTopic_record {p : ℕ} {j : Json} (h : some j ∈ openedTopic p) :
    p = 0 ∧ j = .object (openedEvent.modelDump reprTen) := by
  rw [openedTopic] at h
  split_ifs at h with hp
  · exact ⟨hp, Option.some.inj (List.mem_singleton.mp h)⟩
  · exact absurd h List.not_mem_nil

lemma openedTopic_events :
    EventTopic tenOrZero tenCodec (fun _ => openedEvent) (fun _ => 0) openedTopic where
  text := by
    intro p j hj
    obtain ⟨_, rfl⟩ := openedTopic_record hj
    exact ⟨_, encodable_ofString _, loads_dumps (j := .object _)
      (regular_modelDump readable_reprTen openedEvent)⟩
  encodes := by
    intro p j hj
    obtain ⟨_, rfl⟩ := openedTopic_record hj
    refine ⟨_, rfl, encodes_modelDump ⟨JsonNumber.int?_ofInt, fun item hitem => ?_⟩⟩
    exact absurd hitem (by simp [openedEvent, orderCreatedEvent, Stamp.event])
  partition := fun p j hj => (openedTopic_record hj).1.symm
  opens := by
    intro p j hj
    obtain ⟨rfl, rfl⟩ := openedTopic_record hj
    exact ⟨openedEvent, _, [], rfl, rfl⟩

theorem uploadedTwice_replayed : ∃ rm,
    run (projectJson tenCodec) .empty [.object (openedEvent.modelDump reprTen)] = some rm ∧
      replayArchive tenOrZero tenCodec twiceUploads = some rm := by
  have hkeys : (twiceUploads.map Upload.key).Nodup := by decide +kernel
  have hcommitted : ∀ p, Function.update (fun _ => 0) 0 1 p = (openedTopic p).length := by
    intro p
    by_cases hp : p = 0
    · rw [hp]
      rfl
    · rw [Function.update_of_ne hp, openedTopic, if_neg hp]
      rfl
  have hconsumed : ∀ p, recordsOf p [(0, .object (openedEvent.modelDump reprTen))] =
      (openedTopic p).reduceOption := by
    intro p
    by_cases hp : p = 0
    · rw [hp]
      rfl
    · simp [recordsOf, openedTopic, hp, Ne.symm hp]
  have hregular : ∀ u ∈ twiceUploads, ∀ e ∈ u.events, e.Regular tenOrZero := by
    have hrecord : (Json.object (openedEvent.modelDump reprTen)).Regular tenOrZero :=
      regular_modelDump readable_reprTen openedEvent
    simp [twiceUploads, hrecord]
  have hencodes : ∀ j ∈ twiceUploads.flatMap Upload.events,
      ∃ event, j = .object event ∧ Encodes tenCodec event openedEvent :=
    fun j hj => openedTopic_events.encodes 0 j (by simpa [twiceUploads, openedTopic] using hj)
  obtain ⟨rm, hcold⟩ : ∃ rm, replayArchive tenOrZero tenCodec twiceUploads = some rm := by
    rw [replayArchive_run hkeys (by simp [twiceUploads]) hregular,
      run_projectJson (fun _ => openedEvent) _ hencodes]
    exact Option.isSome_iff_exists.mp (by decide +kernel)
  obtain ⟨rm', hhot⟩ : ∃ rm', run (projectJson tenCodec) .empty
      [.object (openedEvent.modelDump reprTen)] = some rm' := by
    rw [run_projectJson (fun _ => openedEvent) _ (by simpa [twiceUploads] using hencodes)]
    exact Option.isSome_iff_exists.mp (by decide +kernel)
  obtain rfl := replayArchive_eq readable_tenOrZero uploadedTwice_run openedTopic_events hkeys
    hcommitted hconsumed hcold hhot
  exact ⟨rm, hhot, hcold⟩

end OrderCqrs
