import OrderCqrs.Archive.Archiver

/-!
The keys of the archived batches: date, last offset and whole second of an upload.

* `Upload.key_eq_iff`: **the key is exactly these three**.
* `Archive.NothingOverwritten`: two uploads with different batches have different keys.
* `SlotFree`: no upload ends at the offset, on the date and in the second of an earlier one with
  another batch.
* `nothing_overwritten_iff`: **nothing is overwritten precisely if every upload meets the
  condition**.
* `kept_of_clock_or_partition`: **nothing is** if the clock moves on by a second between uploads, or
  if a single partition is read without a restart.
* `overwritten_batch`: batches of two partitions that end at the same offset in the same second.
-/

namespace OrderCqrs

open Runs Decimal

/-! ### What a key determines -/

lemma Upload.toList_key (u : Upload) : u.key.toList =
    "year=".toList ++ (Nat.toDigits 10 (utcDate u.now).year ++ '/' :: ("month=".toList ++
      ((padded (utcDate u.now).month).toList ++ '/' :: ("day=".toList ++
        ((padded (utcDate u.now).day).toList ++ '/' :: ("batch-offset-".toList ++
          (Nat.toDigits 10 u.lastOffset ++ '-' :: ("ts-".toList ++
            (Nat.toDigits 10 (u.time / 10 ^ 6) ++ '.' :: "ndjson".toList))))))))) := by
  have hstr : ∀ s : String, toString s = s := fun _ => rfl
  have hnat : ∀ n : ℕ, (toString n).toList = Nat.toDigits 10 n := fun n => by
    rw [Nat.toString_eq_ofList_toDigits, String.toList_ofList]
  have hmonth : "/month=".toList = '/' :: "month=".toList := by decide
  have hday : "/day=".toList = '/' :: "day=".toList := by decide
  have hslash : "/".toList = ['/'] := by decide
  have hts : "-ts-".toList = '-' :: "ts-".toList := by decide
  have hend : ".ndjson".toList = '.' :: "ndjson".toList := by decide
  unfold Upload.key
  dsimp only
  generalize u.time / 10 ^ 6 = second
  generalize utcDate u.now = now
  simp only [String.toList_append, hstr, hnat, List.append_assoc, hmonth, hday, hslash, hts, hend,
    List.cons_append, List.nil_append]

/-- **The key is date, last offset and second.** -/
theorem Upload.key_eq_iff (u v : Upload) : u.key = v.key ↔
    utcDate u.now = utcDate v.now ∧ u.lastOffset = v.lastOffset ∧
      u.time / 10 ^ 6 = v.time / 10 ^ 6 := by
  constructor
  · intro h
    have hlist := congrArg String.toList h
    rw [Upload.toList_key, Upload.toList_key] at hlist
    have hslash : ¬ '/'.isDigit := by decide
    have hdash : ¬ '-'.isDigit := by decide
    have hdot : ¬ '.'.isDigit := by decide
    obtain ⟨hyear, hlist⟩ := digits_append_inj (digits_toDigits _) (digits_toDigits _) hslash hslash
      (List.append_cancel_left hlist)
    obtain ⟨hmonth, hlist⟩ := digits_append_inj (digits_padded _) (digits_padded _) hslash hslash
      (List.append_cancel_left (List.cons.inj hlist).2)
    obtain ⟨hday, hlist⟩ := digits_append_inj (digits_padded _) (digits_padded _) hslash hslash
      (List.append_cancel_left (List.cons.inj hlist).2)
    obtain ⟨hoffset, hlist⟩ := digits_append_inj (digits_toDigits _) (digits_toDigits _) hdash hdash
      (List.append_cancel_left (List.cons.inj hlist).2)
    obtain ⟨hsecond, _⟩ := digits_append_inj (digits_toDigits _) (digits_toDigits _) hdot hdot
      (List.append_cancel_left (List.cons.inj hlist).2)
    refine ⟨?_, toDigits_inj hoffset, toDigits_inj hsecond⟩
    rw [Date.mk.injEq]
    exact ⟨toDigits_inj hyear, padded_inj hmonth, padded_inj hday⟩
  · rintro ⟨hdate, hoffset, hsecond⟩
    simp only [Upload.key, hdate, hoffset, hsecond]

/-! ### What is to hold, and when -/

/-- **Nothing is overwritten**: two uploads that returned, with batches that differ, have different
keys. -/
def Archive.NothingOverwritten (s : Archive) : Prop :=
  s.uploads.Pairwise fun u v => u.events ≠ v.events → u.key ≠ v.key

instance (s : Archive) : Decidable s.NothingOverwritten :=
  inferInstanceAs (Decidable (s.uploads.Pairwise fun u v => u.events ≠ v.events → u.key ≠ v.key))

/-- **The slot of an upload is free**: an earlier upload that ended at the same offset, of whichever
partition, on the same date and in the same second had the same batch. -/
def SlotFree (s : Archive) : ArchiveAction → Prop
  | .upload now time outcome => outcome = .completes → ∀ u ∈ s.uploads,
      utcDate u.now = utcDate now → u.lastOffset = s.lastOffset →
        u.time / 10 ^ 6 = time / 10 ^ 6 → u.events = s.batch
  | _ => True

instance (s : Archive) : (a : ArchiveAction) → Decidable (SlotFree s a)
  | .upload now time outcome =>
      inferInstanceAs (Decidable (outcome = .completes → ∀ u ∈ s.uploads,
        utcDate u.now = utcDate now → u.lastOffset = s.lastOffset →
          u.time / 10 ^ 6 = time / 10 ^ 6 → u.events = s.batch))
  | .produce _ _ | .receive _ | .commit _ | .cancel _ | .restart => .isTrue trivial

/-! ### The condition is exact -/

namespace Archive

variable {limit : ℕ} {s t : Archive} {a : ArchiveAction}

/-- A move adds nothing to the history, or the call of the upload that returns. -/
lemma uploads_step (h : s.step limit a = some t) :
    t.uploads = s.uploads ∨ ∃ now time, a = .upload now time .completes ∧
      t.uploads = s.uploads ++ [s.call now time] := by
  cases a with
  | produce p value =>
      obtain rfl := Option.some.inj h
      exact Or.inl rfl
  | receive p =>
      simp only [step, Option.bind_eq_bind, Option.bind_eq_some_iff] at h
      obtain ⟨_, _, value, _, h⟩ := h
      obtain rfl := Option.some.inj h
      cases value <;> exact Or.inl rfl
  | upload now time outcome =>
      simp only [step, Option.bind_eq_bind, Option.bind_eq_some_iff] at h
      obtain ⟨_, _, h⟩ := h
      cases outcome with
      | completes =>
          obtain rfl := Option.some.inj h
          exact Or.inr ⟨now, time, rfl, rfl⟩
      | raises | raisesAfterEffect =>
          obtain rfl := Option.some.inj h
          exact Or.inl rfl
  | commit outcome =>
      simp only [step, Option.bind_eq_bind, Option.bind_eq_some_iff] at h
      obtain ⟨_, _, h⟩ := h
      obtain rfl := Option.some.inj h
      exact Or.inl rfl
  | cancel afterEffect =>
      simp only [step, Option.bind_eq_bind, Option.bind_eq_some_iff] at h
      obtain ⟨_, _, h⟩ := h
      obtain rfl := Option.some.inj h
      exact Or.inl rfl
  | restart =>
      obtain rfl := Option.some.inj h
      exact Or.inl rfl

/-- One upload more. -/
lemma pairwise_call {now time : ℕ} :
    ((s.uploads ++ [s.call now time]).Pairwise fun u v => u.events ≠ v.events → u.key ≠ v.key) ↔
      s.NothingOverwritten ∧ SlotFree s (.upload now time .completes) := by
  rw [List.pairwise_append, NothingOverwritten, SlotFree]
  refine and_congr_right fun _ => ?_
  simp only [List.pairwise_singleton, List.mem_singleton, forall_eq, true_and, forall_const]
  refine forall₂_congr fun u _ => ?_
  rw [Ne, Ne, Upload.key_eq_iff]
  constructor
  · intro h hdate hoffset hsecond
    by_contra hne
    exact h hne ⟨hdate, hoffset, hsecond⟩
  · rintro h hne ⟨hdate, hoffset, hsecond⟩
    exact hne (h hdate hoffset hsecond)

lemma overwritten_keep (hs : s.NothingOverwritten) (ha : SlotFree s a)
    (h : s.step limit a = some t) : t.NothingOverwritten := by
  rcases uploads_step h with heq | ⟨now, time, rfl, heq⟩
  · rw [NothingOverwritten, heq]
    exact hs
  · rw [NothingOverwritten, heq]
    exact pairwise_call.mpr ⟨hs, ha⟩

lemma overwritten_lose (ha : ¬ SlotFree s a) (h : s.step limit a = some t) :
    ¬ t.NothingOverwritten := by
  have hupload : ∃ now time, a = .upload now time .completes := by
    cases a with
    | upload now time outcome =>
        by_contra hnot
        refine ha fun hoc => ?_
        subst hoc
        exact absurd ⟨now, time, rfl⟩ hnot
    | _ => exact absurd trivial ha
  obtain ⟨now, time, rfl⟩ := hupload
  obtain ⟨_, _, h⟩ := Option.bind_eq_some_iff.mp h
  obtain rfl := Option.some.inj h
  exact fun hgood => ha (pairwise_call.mp hgood).2

lemma overwritten_stay (hs : ¬ s.NothingOverwritten) (h : s.step limit a = some t) :
    ¬ t.NothingOverwritten := by
  intro hgood
  rcases uploads_step h with heq | ⟨now, time, _, heq⟩
  · rw [NothingOverwritten, heq] at hgood
    exact hs hgood
  · rw [NothingOverwritten, heq] at hgood
    exact hs (pairwise_call.mp hgood).1

end Archive

/-- **When nothing is overwritten**: at the end of a run, over any number of partitions, any order
of messages and any clock, precisely if every upload of the run found its slot free. -/
theorem nothing_overwritten_iff {limit : ℕ} {topic : ℕ → List (Option Json)}
    {as : List ArchiveAction} {s : Archive}
    (hrun : run (Archive.step limit) (.init topic) as = some s) :
    s.NothingOverwritten ↔ Along (Archive.step limit) SlotFree (.init topic) as :=
  good_iff_along (fun hs hstep => ArchiveInv.step hs hstep)
    (fun _ hgood ha hstep => Archive.overwritten_keep hgood ha hstep)
    (fun _ ha hstep => Archive.overwritten_lose ha hstep)
    (fun _ hbad hstep => Archive.overwritten_stay hbad hstep) (ArchiveInv.init topic)
    (by simp [Archive.NothingOverwritten, Archive.init]) hrun

/-! ### Arrivals and clock -/

/-- An upload returns in a later second than the uploads before it. -/
def LaterSecond (s : Archive) : ArchiveAction → Prop
  | .upload _ time outcome =>
      outcome = .completes → ∀ u ∈ s.uploads, u.time / 10 ^ 6 < time / 10 ^ 6
  | _ => True

/-- A move of a reader of one partition that is not started again. -/
def ArchiveAction.ReadsOnly (p : ℕ) : ArchiveAction → Prop
  | .receive q => q = p
  | .restart => False
  | .produce _ _ | .upload _ _ _ | .commit _ | .cancel _ => True

lemma LaterSecond.slotFree {s : Archive} {a : ArchiveAction} (h : LaterSecond s a) :
    SlotFree s a := by
  cases a with
  | upload now time outcome =>
      intro hdone u hu _ _ hsecond
      exact absurd hsecond (h hdone u hu).ne
  | produce _ _ | receive _ | commit _ | cancel _ | restart => trivial

/-- **The invariant of such a reader**: the last offset of an upload tells its batch. -/
structure OneReader (p : ℕ) (s : Archive) : Prop where
  below : ∀ u ∈ s.uploads, u.lastOffset < s.position p
  last : s.batch ≠ [] → s.lastOffset < s.position p
  full : s.pc ≠ .receive → s.pc ≠ .stopped → s.batch ≠ []
  current : s.batch ≠ [] → ∀ u ∈ s.uploads, u.lastOffset = s.lastOffset → u.events = s.batch
  known : s.uploads.Pairwise fun u v => u.lastOffset = v.lastOffset → u.events = v.events

namespace OneReader

variable {p limit : ℕ} {s t : Archive}

lemma init (p : ℕ) (topic : ℕ → List (Option Json)) : OneReader p (.init topic) := by
  constructor <;> simp [Archive.init]

/-- Nothing is received and nothing uploaded; the batch stays, or it is dropped. -/
lemma move (hs : OneReader p s) {committed : ℕ → ℕ} {pc : ArchiverPc} {batch : List Json}
    {clock : ℕ} (hbatch : batch = s.batch ∨ batch = [])
    (hfull : pc ≠ .receive → pc ≠ .stopped → batch ≠ []) :
    OneReader p { s with committed, pc, batch, clock } := by
  rcases hbatch with rfl | rfl
  · exact ⟨hs.below, hs.last, hfull, hs.current, hs.known⟩
  · exact ⟨hs.below, fun hne => absurd rfl hne, hfull, fun hne => absurd rfl hne, hs.known⟩

/-- A record is received: its offset is higher than those before. -/
lemma handle (hs : OneReader p s) (value : Option Json) : OneReader p (s.handle limit p value) := by
  have hnext : s.position p < Function.update s.position p (s.position p + 1) p := by
    rw [Function.update_self]
    exact Nat.lt_succ_self _
  cases value with
  | none =>
      exact ⟨fun u hu => (hs.below u hu).trans hnext, fun hne => (hs.last hne).trans hnext,
        fun _ hstopped hnil => hstopped (if_pos hnil), hs.current, hs.known⟩
  | some event =>
      exact ⟨fun u hu => (hs.below u hu).trans hnext, fun _ => hnext,
        fun _ _ => by simp [Archive.handle], fun _ u hu heq => absurd heq (hs.below u hu).ne,
        hs.known⟩

/-- An upload that returns. -/
lemma upload (hs : OneReader p s) (hbatch : s.batch ≠ []) (now time : ℕ) (pc : ArchiverPc) :
    OneReader p { s with clock := time, uploads := s.uploads ++ [s.call now time], pc } := by
  refine ⟨fun u hu => ?_, hs.last, fun _ _ => hbatch, fun _ u hu heq => ?_, ?_⟩
  · rcases List.mem_append.mp hu with hold | hnew
    · exact hs.below u hold
    · rw [List.mem_singleton.mp hnew]
      exact hs.last hbatch
  · rcases List.mem_append.mp hu with hold | hnew
    · exact hs.current hbatch u hold heq
    · rw [List.mem_singleton.mp hnew]
      rfl
  · refine List.pairwise_append.mpr ⟨hs.known, List.pairwise_singleton _ _, fun u hu v hv => ?_⟩
    rw [List.mem_singleton.mp hv]
    exact hs.current hbatch u hu

/-- **Its moves keep the invariant.** -/
lemma step {a : ArchiveAction} (hs : OneReader p s) (ha : a.ReadsOnly p)
    (h : s.step limit a = some t) : OneReader p t := by
  cases a with
  | produce q value =>
      obtain rfl := Option.some.inj h
      exact ⟨hs.below, hs.last, hs.full, hs.current, hs.known⟩
  | receive q =>
      simp only [Archive.step, Option.bind_eq_bind, Option.bind_eq_some_iff] at h
      obtain ⟨_, _, value, _, h⟩ := h
      obtain rfl := Option.some.inj h
      obtain rfl : q = p := ha
      exact hs.handle value
  | upload now time outcome =>
      simp only [Archive.step, Option.bind_eq_bind, Option.bind_eq_some_iff,
        Option.guard_eq_some'] at h
      obtain ⟨_, ⟨hpc, _⟩, h⟩ := h
      cases outcome with
      | completes =>
          obtain rfl := Option.some.inj h
          refine hs.upload (hs.full ?_ ?_) now time _ <;> rcases hpc with hpc | hpc <;> simp [hpc]
      | raises | raisesAfterEffect =>
          obtain rfl := Option.some.inj h
          refine hs.move (Or.inl rfl) fun hreceive hstopped => ?_
          split_ifs at hreceive hstopped <;> contradiction
  | commit outcome =>
      simp only [Archive.step, Option.bind_eq_bind, Option.bind_eq_some_iff] at h
      obtain ⟨_, _, h⟩ := h
      obtain rfl := Option.some.inj h
      refine hs.move ?_ fun hreceive hstopped => ?_
      · split_ifs
        · exact Or.inr rfl
        · exact Or.inl rfl
      · split_ifs at hreceive hstopped <;> contradiction
  | cancel afterEffect =>
      simp only [Archive.step, Option.bind_eq_bind, Option.bind_eq_some_iff] at h
      obtain ⟨_, _, h⟩ := h
      obtain rfl := Option.some.inj h
      exact hs.move (Or.inl rfl) fun _ hstopped hnil => hstopped (if_pos hnil)
  | restart => exact ha.elim

end OneReader

/-- **What keeps every batch**, whatever fails: a clock that moves on by a second between uploads,
for any arrivals; and one partition that is read without a restart, for any clock. -/
theorem kept_of_clock_or_partition {limit : ℕ} {topic : ℕ → List (Option Json)}
    {as : List ArchiveAction} {s : Archive}
    (hrun : run (Archive.step limit) (.init topic) as = some s) :
    (Along (Archive.step limit) LaterSecond (.init topic) as → s.NothingOverwritten) ∧
      ∀ p, (∀ a ∈ as, a.ReadsOnly p) → s.NothingOverwritten := by
  refine ⟨fun halong => ?_, fun p hone => ?_⟩
  · exact preserves_along (fun hs ha h => Archive.overwritten_keep hs ha.slotFree h)
      (by simp [Archive.NothingOverwritten, Archive.init]) halong hrun
  · have halong : Along (Archive.step limit) (fun _ a => a.ReadsOnly p) (.init topic) as :=
      along_of_forall (fun a ha _ => hone a ha) _
    have hs : OneReader p s :=
      preserves_along (fun hs ha h => hs.step ha h) (OneReader.init p topic) halong hrun
    exact hs.known.imp fun hknown hne hkey => hne (hknown ((Upload.key_eq_iff _ _).mp hkey).2.1)

/-- Two partitions with a hundred records each. -/
def fullTopic (p : ℕ) : List (Option Json) :=
  if p < 2 then (List.range 100).map fun k => some (archivedRecord s!"event-{p}-{k}") else []

/-- The next records of a partition are received, uploaded at the given time, and committed. -/
def archives (p n time : ℕ) : List ArchiveAction :=
  List.replicate n (.receive p) ++ [.upload time time .completes, .commit .completes]

/-- Batches of two records, of the two partitions in turn, in different seconds. -/
def slowRun : List ArchiveAction :=
  archives 0 2 (1709210096 * 10 ^ 6) ++ archives 1 2 (1709210097 * 10 ^ 6)

theorem slowRun_kept : ∃ s, run (Archive.step 2) (.init fullTopic) slowRun = some s ∧
    s.uploads.length = 2 ∧ s.NothingOverwritten := by
  have heval : ((run (Archive.step 2) (.init fullTopic) slowRun).any fun s =>
      decide (s.uploads.length = 2)) = true := by
    decide +kernel
  obtain ⟨s, hrun, htwo⟩ := exists_run_of_eval heval
  have halong : Along (Archive.step 2) SlotFree (.init fullTopic) slowRun := by decide +kernel
  exact ⟨s, hrun, htwo, (nothing_overwritten_iff hrun).mpr halong⟩

/-- Batches of a hundred records, of the two partitions in turn, within a second. -/
def fastRun : List ArchiveAction :=
  archives 0 100 (1709210096 * 10 ^ 6) ++ archives 1 100 (1709210096 * 10 ^ 6 + 250000)

/-- **An overwritten batch**: nothing fails, and the batches of both partitions, which end at offset
99, get the same key. -/
theorem overwritten_batch : ∃ s u v,
    run (Archive.step 100) (.init fullTopic) fastRun = some s ∧ s.uploads = [u, v] ∧
      u.events ≠ v.events ∧ u.key = v.key ∧
      u.key = "year=2024/month=02/day=29/batch-offset-99-ts-1709210096.ndjson" := by
  have heval : ((run (Archive.step 100) (.init fullTopic) fastRun).any fun s =>
      decide (∃ u ∈ s.uploads[0]?, ∃ v ∈ s.uploads[1]?, s.uploads = [u, v] ∧ u.events ≠ v.events ∧
        u.key = v.key ∧
        u.key = "year=2024/month=02/day=29/batch-offset-99-ts-1709210096.ndjson")) = true := by
    decide +kernel
  obtain ⟨s, hrun, u, _, v, _, h⟩ := exists_run_of_eval heval
  exact ⟨s, u, v, hrun, h⟩

end OrderCqrs
