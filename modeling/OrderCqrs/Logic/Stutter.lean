import Mathlib.Data.List.Basic
import Mathlib.Data.List.Induction
import Mathlib.Data.List.Nodup
import OrderCqrs.Logic.Runs

/-!
Sequences that repeat their entries in place, over any type, and runs that do not notice it.

* `Stutters l m`: `l` is `m` with every entry repeated any number of times before the next one.
* `Stutters.filter`: a restriction of a stuttering sequence stutters.
* `Stutters.run_eq`: where a step done twice in a row is done once, a stuttering sequence leads
  where the plain one leads.
* `firstCopies_concat`: the first copies of a sequence that grows.
-/

namespace Stutter

open Runs

variable {σ α : Type*}

/-- `l` repeats the entries of `m` in place. -/
inductive Stutters : List α → List α → Prop where
  | nil : Stutters [] []
  | next {l m : List α} (a : α) : Stutters l m → Stutters (l ++ [a]) (m ++ [a])
  | again {l m : List α} {a : α} : Stutters l (m ++ [a]) → Stutters (l ++ [a]) (m ++ [a])

namespace Stutters

variable {l m : List α}

lemma mem_iff (h : Stutters l m) {a : α} : a ∈ l ↔ a ∈ m := by
  induction h with
  | nil => rfl
  | next b _ ih => rw [List.mem_append, List.mem_append, ih]
  | again _ ih =>
      rw [List.mem_append, ih, List.mem_append]
      tauto

/-- The entries that meet a condition stutter as they did. -/
lemma filter (h : Stutters l m) (q : α → Bool) : Stutters (l.filter q) (m.filter q) := by
  induction h with
  | nil => exact .nil
  | next a _ ih =>
      rw [List.filter_append, List.filter_append]
      by_cases ha : q a
      · rw [List.filter_cons_of_pos ha]
        exact ih.next a
      · rw [List.filter_cons_of_neg ha, List.filter_nil, List.append_nil, List.append_nil]
        exact ih
  | @again l m a _ ih =>
      rw [List.filter_append]
      by_cases ha : q a
      · rw [List.filter_append, List.filter_cons_of_pos ha, List.filter_nil] at ih ⊢
        exact ih.again
      · rw [List.filter_cons_of_neg ha, List.filter_nil, List.append_nil]
        exact ih

/-- **Stuttering is not noticed** by steps that done twice in a row are done once. -/
theorem run_eq (step : σ → α → Option σ)
    (hidem : ∀ {s t a}, step s a = some t → step t a = some t) (h : Stutters l m) (s : σ) :
    run step s l = run step s m := by
  induction h with
  | nil => rfl
  | next a _ ih => rw [run_concat, run_concat, ih]
  | @again l m a _ ih =>
      rw [run_concat, ih, run_concat]
      cases run step s m with
      | none => rfl
      | some t =>
          rw [Option.bind_some]
          cases hstep : step t a with
          | none => rfl
          | some u => exact hidem hstep

end Stutters

/-! ### First copies -/

section FirstCopies

variable [DecidableEq α] {l : List α} {a : α}

/-- The first copies of a sequence that goes on with an entry it has. -/
lemma firstCopies_concat_of_mem (h : a ∈ l) : (l ++ [a]).eraseDups = l.eraseDups := by
  simp [List.eraseDups_append, List.removeAll, h]

/-- The first copies of a sequence that goes on with a new entry. -/
lemma firstCopies_concat_of_notMem (h : a ∉ l) : (l ++ [a]).eraseDups = l.eraseDups ++ [a] := by
  simp [List.eraseDups_append, List.removeAll, List.eraseDups_cons, h]

/-- The first copies of a sequence without further ones. -/
lemma firstCopies_eq_self (h : l.Nodup) : l.eraseDups = l := by
  induction l using List.reverseRecOn with
  | nil => rfl
  | append_singleton l a ih =>
      obtain ⟨hl, _, hdisjoint⟩ := List.nodup_append.mp h
      have hnew : a ∉ l := fun ha => hdisjoint a ha a (List.mem_singleton_self a) rfl
      rw [firstCopies_concat_of_notMem hnew, ih hl]

end FirstCopies

end Stutter
