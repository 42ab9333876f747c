import Mathlib.Data.List.DropRight
import OrderCqrs.Logic.LastWriter
import OrderCqrs.Logic.Lists

/-!
Readers of a log that may go back, over any type of entries.

* `Reads log l k`: a reader that is at place `k` has read `l`; it reads on, or goes back to an
  earlier place, and skips nothing.
* `Reads.take_subset`, `Reads.subset`: what it has read are the entries before its place, and
  entries of the log only.
* `Reads.append`: it reads on to a later place; `Reads.mono`: the log grows behind it.
* `Reads.filterMap`, `Reads.filterMap_end`, `Reads.filter_end`: what it reads of the images of the
  entries, and of some of them.
* `Reads.lastWrite_eq`, `Reads.firstWrite_eq`: **at the end of the log the writes that count are
  those of the log**, however often the reader went back.
-/

namespace Rewinds

open LastWriter

variable {α β : Type*} {log l : List α} {k k' : ℕ}

/-- **A reader of a log.**  It starts at its beginning, reads the entry at its place, and may go
back. -/
inductive Reads (log : List α) : List α → ℕ → Prop where
  | start : Reads log [] 0
  | read {l : List α} {k : ℕ} {a : α} : Reads log l k → log[k]? = some a →
      Reads log (l ++ [a]) (k + 1)
  | rewind {l : List α} {k k' : ℕ} : Reads log l k → k' ≤ k → Reads log l k'

namespace Reads

lemma le_length (h : Reads log l k) : k ≤ log.length := by
  induction h with
  | start => exact Nat.zero_le _
  | read _ ha _ => exact (List.getElem?_eq_some_iff.mp ha).1
  | rewind _ hle ih => exact hle.trans ih

/-- Everything before its place has been read. -/
lemma take_subset (h : Reads log l k) : log.take k ⊆ l := by
  induction h with
  | start => simp
  | @read l k a _ ha ih =>
      rw [List.take_add_one, ha]
      exact List.append_subset.mpr ⟨List.Subset.trans ih (List.subset_append_left _ _),
        List.subset_append_right _ _⟩
  | rewind _ hle ih => exact List.Subset.trans (List.take_subset_take_left _ hle) ih

lemma subset (h : Reads log l k) : l ⊆ log := by
  induction h with
  | start => exact List.nil_subset _
  | read _ ha ih =>
      refine List.append_subset.mpr ⟨ih, fun b hb => ?_⟩
      rw [List.mem_singleton.mp hb]
      exact List.mem_of_getElem? ha
  | rewind _ _ ih => exact ih

/-- The reader reads on to a later place. -/
lemma append (h : Reads log l k) (hle : k ≤ k') (hk' : k' ≤ log.length) :
    Reads log (l ++ (log.take k').drop k) k' := by
  induction k', hle using Nat.le_induction with
  | base => simpa using h
  | succ m hkm ih =>
      have hlt : m < log.length := hk'
      have hget : log[m]? = some log[m] := List.getElem?_eq_getElem hlt
      rw [List.take_add_one, hget, List.drop_append_of_le_length (by simp; omega),
        ← List.append_assoc]
      exact (ih hlt.le).read hget

/-- The log grows behind the reader. -/
lemma mono {log' : List α} (h : Reads log l k) (hlog : log <+: log') : Reads log' l k := by
  induction h with
  | start => exact .start
  | read _ ha ih => exact ih.read (ListTables.getElem?_of_isPrefix hlog ha)
  | rewind _ hle ih => exact ih.rewind hle

/-- **What is read of the images of the entries** is read of the log of these. -/
lemma filterMap (h : Reads log l k) (f : α → Option β) :
    Reads (log.filterMap f) (l.filterMap f) ((log.take k).filterMap f).length := by
  induction h with
  | start => exact .start
  | @read l k a _ ha ih =>
      have hsplit : log.filterMap f = (log.take k).filterMap f ++ (log.drop k).filterMap f := by
        rw [← List.filterMap_append, List.take_append_drop]
      have hdrop : log.drop k = a :: log.drop (k + 1) := by
        obtain ⟨hlt, rfl⟩ := List.getElem?_eq_some_iff.mp ha
        exact List.drop_eq_getElem_cons hlt
      rw [List.take_add_one, ha, List.filterMap_append, List.filterMap_append, Option.toList_some]
      cases hf : f a with
      | none => simpa [hf] using ih
      | some b =>
          rw [List.filterMap_cons_some hf, List.filterMap_nil, List.length_append]
          refine ih.read ?_
          rw [hsplit, List.getElem?_append_right le_rfl, Nat.sub_self, hdrop,
            List.filterMap_cons_some hf]
          rfl
  | rewind _ hle ih =>
      exact ih.rewind (((List.take_sublist_take_left hle).filterMap f).length_le)

/-- The images of the entries, at the end of the log. -/
lemma filterMap_end (h : Reads log l log.length) (f : α → Option β) :
    Reads (log.filterMap f) (l.filterMap f) (log.filterMap f).length := by
  simpa only [List.take_length] using h.filterMap f

/-- Some of the entries, at the end of the log. -/
lemma filter_end (h : Reads log l log.length) (p : α → Bool) :
    Reads (log.filter p) (l.filter p) (log.filter p).length := by
  simpa only [List.filterMap_eq_filter] using h.filterMap_end (Option.guard fun a => p a)

/-- The first entry read is the first of the log. -/
lemma head?_eq (h : Reads log l k) (hl : l ≠ []) : l.head? = log.head? := by
  induction h with
  | start => exact absurd rfl hl
  | @read l k a hreads ha ih =>
      cases l with
      | nil =>
          have hzero : k = 0 := by
            have hsub := hreads.take_subset
            rw [List.subset_nil, List.take_eq_nil_iff] at hsub
            refine hsub.resolve_right fun hnil => ?_
            rw [hnil] at ha
            simp at ha
          rw [hzero] at ha
          rw [List.nil_append, List.head?_cons, List.head?_eq_getElem?, ha]
      | cons b l => exact ih (List.cons_ne_nil _ _)
  | rewind _ _ ih => exact ih hl

/-! ### The writes that count -/

variable (w : α → Option β)

/-- Reading on to the end of the log leaves the last write of the log. -/
lemma lastWrite_append_drop (h : Reads log l k) :
    lastWrite w (l ++ log.drop k) = lastWrite w log := by
  induction h with
  | start => rfl
  | @read l k a _ ha ih =>
      obtain ⟨hlt, rfl⟩ := List.getElem?_eq_some_iff.mp ha
      rwa [List.append_assoc, List.singleton_append, ← List.drop_eq_getElem_cons hlt]
  | @rewind l k k' _ hle ih =>
      -- either an entry from the earlier place on writes, or none does and nothing changes
      have hsuffix : log.drop k <:+ log.drop k' := List.drop_suffix_drop_left log hle
      have hlog : lastWrite w log = (lastWrite w (log.drop k')).or (lastWrite w (log.take k')) := by
        rw [← lastWrite_append, List.take_append_drop]
      rw [lastWrite_append] at ih ⊢
      cases hlast : lastWrite w (log.drop k') with
      | some b =>
          rw [hlog, hlast, Option.some_or, Option.some_or]
      | none =>
          have hnone : lastWrite w (log.drop k) = none :=
            (lastWrite_eq_none w).mpr fun a ha =>
              (lastWrite_eq_none w).mp hlast a (hsuffix.subset ha)
          rwa [hnone, Option.none_or] at ih

/-- Reading on to the end of the log leaves the first write of the log. -/
lemma firstWrite_append_drop (h : Reads log l k) :
    firstWrite w (l ++ log.drop k) = firstWrite w log := by
  induction h with
  | start => rfl
  | @read l k a _ ha ih =>
      obtain ⟨hlt, rfl⟩ := List.getElem?_eq_some_iff.mp ha
      rwa [List.append_assoc, List.singleton_append, ← List.drop_eq_getElem_cons hlt]
  | @rewind l k k' hreads hle ih =>
      -- what lies between the two places has been read already
      have hbetween : log.drop k' = (log.drop k').take (k - k') ++ log.drop k := by
        nth_rewrite 1 [← List.take_append_drop (k - k') (log.drop k')]
        rw [List.drop_drop, Nat.add_sub_cancel' hle]
      have hread : (log.drop k').take (k - k') ⊆ l := by
        refine List.Subset.trans ?_ hreads.take_subset
        rw [List.take_drop, Nat.add_sub_cancel' hle]
        exact List.drop_subset _ _
      rw [hbetween, ← List.append_assoc, firstWrite_append, firstWrite_append_of_subset w hread,
        ← firstWrite_append]
      exact ih

/-- **At the end of the log the last write is that of the log.** -/
theorem lastWrite_eq (h : Reads log l log.length) : lastWrite w l = lastWrite w log := by
  simpa using h.lastWrite_append_drop w

/-- **At the end of the log the first write is that of the log.** -/
theorem firstWrite_eq (h : Reads log l log.length) : firstWrite w l = firstWrite w log := by
  simpa using h.firstWrite_append_drop w

end Reads

end Rewinds
