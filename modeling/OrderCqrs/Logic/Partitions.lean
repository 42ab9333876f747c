import Mathlib.Data.List.Infix
import Mathlib.Logic.Function.Basic
import OrderCqrs.Logic.Lists

/-!
Partitioned logs and the offsets at which they are read: a log grows at its end in one partition,
and an offset goes on by one record in one partition.

* `isPrefix_send`, `mem_send`: what the log holds after an append.
* `getElem?_send`, `getElem?_send_inv`: the records that were there stay at their places, and no
  other record stands at them.
* `le_advance`, `advance_le`: an offset that goes on does not fall back and, if there was a record
  to read, does not pass the end of the log.
* `lt_advance`: what lies below the offset is what lay below it before, or the record that was read.
-/

namespace Partitions

open ListTables

variable {α : Type*} {log : ℕ → List α} {offset : ℕ → ℕ} {p q k : ℕ} {x y : α}

/-- A log only grows. -/
lemma isPrefix_send (log : ℕ → List α) (p : ℕ) (x : α) (q : ℕ) :
    log q <+: Function.update log p (log p ++ [x]) q := by
  by_cases hq : q = p
  · subst hq
    rw [Function.update_self]
    exact List.prefix_append _ _
  · rw [Function.update_of_ne hq]

/-- A record of the log was there before, or is the one that was appended. -/
lemma mem_send (h : y ∈ Function.update log p (log p ++ [x]) q) : y ∈ log q ∨ y = x := by
  by_cases hq : q = p
  · subst hq
    rw [Function.update_self] at h
    exact (List.mem_append.mp h).imp_right List.mem_singleton.mp
  · rw [Function.update_of_ne hq] at h
    exact Or.inl h

/-- A record keeps its place. -/
lemma getElem?_send (h : (log q)[k]? = some y) (p : ℕ) (x : α) :
    (Function.update log p (log p ++ [x]) q)[k]? = some y :=
  getElem?_of_isPrefix (isPrefix_send log p x q) h

/-- Below the old end of the log stand the old records. -/
lemma getElem?_send_inv (hk : k < (log q).length)
    (h : (Function.update log p (log p ++ [x]) q)[k]? = some y) : (log q)[k]? = some y := by
  have hold : (log q)[k]? = some (log q)[k] := List.getElem?_eq_getElem hk
  rw [hold, ← getElem?_send hold p x, h]

/-- An offset does not fall back. -/
lemma le_advance (offset : ℕ → ℕ) (p q : ℕ) :
    offset q ≤ Function.update offset p (offset p + 1) q := by
  by_cases hq : q = p
  · subst hq
    rw [Function.update_self]
    exact Nat.le_succ _
  · rw [Function.update_of_ne hq]

/-- An offset that reads a record stays inside the log. -/
lemma advance_le (hle : ∀ q, offset q ≤ (log q).length) (h : (log p)[offset p]? = some x) (q : ℕ) :
    Function.update offset p (offset p + 1) q ≤ (log q).length := by
  by_cases hq : q = p
  · subst hq
    rw [Function.update_self]
    exact (List.getElem?_eq_some_iff.mp h).1
  · rw [Function.update_of_ne hq]
    exact hle q

/-- What has been read is what had been read, or the record at the old offset. -/
lemma lt_advance (h : k < Function.update offset p (offset p + 1) q) :
    k < offset q ∨ q = p ∧ k = offset p := by
  by_cases hq : q = p
  · subst hq
    rw [Function.update_self] at h
    exact (Nat.lt_succ_iff_lt_or_eq.mp h).imp_right fun heq => ⟨rfl, heq⟩
  · rw [Function.update_of_ne hq] at h
    exact Or.inl h

end Partitions
