import Mathlib.Data.List.Basic
import Mathlib.Tactic.Common

/-!
An act that is done once by means of a mark, over any type of attempts: each attempt looks for the
mark, acts if it is not there, and then sets it, and each of the three may fail.

* `Ledger`, `Ledger.attempt`: how often the act was done and whether the mark is set; `acts a` says
  that the attempt `a` gets to the act, `marks a` that it sets the mark after it.
* `FirstSticks`: the first attempt that acts sets the mark, or no later attempt gets to the act.
* `count_le_succ_iff`: **the act is done at most once** precisely if the first act sticks.
-/

namespace Markers

variable {α : Type*}

/-- How often an act was done, and whether its mark is set. -/
structure Ledger where
  count : ℕ
  marked : Bool

/-! ### The first act -/

section First

variable (acts marks : α → Prop)

/-- The first attempt that acts sets the mark, or no later attempt acts. -/
def FirstSticks (as : List α) : Prop :=
  ∀ pre a post, as = pre ++ a :: post → (∀ b ∈ pre, ¬ acts b) → acts a →
    marks a ∨ ∀ b ∈ post, ¬ acts b

variable {acts marks} {a : α} {as : List α}

lemma firstSticks_cons_of_acts (ha : acts a) :
    FirstSticks acts marks (a :: as) ↔ marks a ∨ ∀ b ∈ as, ¬ acts b := by
  constructor
  · exact fun h => h [] a as rfl (by simp) ha
  · intro h pre c post heq hpre _
    cases pre with
    | nil =>
        obtain ⟨rfl, rfl⟩ := List.cons.inj heq
        exact h
    | cons d pre =>
        obtain ⟨rfl, _⟩ := List.cons.inj heq
        exact absurd ha (hpre a List.mem_cons_self)

lemma firstSticks_cons_of_not (ha : ¬ acts a) :
    FirstSticks acts marks (a :: as) ↔ FirstSticks acts marks as := by
  constructor
  · rintro h pre c post rfl hpre
    exact h (a :: pre) c post rfl (List.forall_mem_cons.mpr ⟨ha, hpre⟩)
  · intro h pre c post heq hpre hc
    cases pre with
    | nil =>
        obtain ⟨rfl, _⟩ := List.cons.inj heq
        exact absurd hc ha
    | cons d pre =>
        obtain ⟨rfl, rfl⟩ := List.cons.inj heq
        exact h pre c post rfl (fun b hb => hpre b (List.mem_cons_of_mem _ hb)) hc

end First

/-! ### Attempts -/

section Attempts

variable (acts marks : α → Prop) [DecidablePred acts] [DecidablePred marks]

/-- One attempt. -/
def Ledger.attempt (l : Ledger) (a : α) : Ledger :=
  if l.marked then l
  else if acts a then ⟨l.count + 1, decide (marks a)⟩
  else l

variable {acts marks} {l : Ledger} {a : α} {as : List α}

/-- Nothing is done under the mark. -/
lemma foldl_of_marked (h : l.marked = true) : as.foldl (Ledger.attempt acts marks) l = l := by
  induction as with
  | nil => rfl
  | cons a as ih => rw [List.foldl_cons, Ledger.attempt, if_pos h, ih]

/-- An attempt that does not act does nothing. -/
lemma attempt_of_not (h : ¬ acts a) : l.attempt acts marks a = l := by
  rw [Ledger.attempt]
  split_ifs <;> rfl

/-- An attempt that acts while there is no mark. -/
lemma attempt_of_acts (hl : l.marked = false) (h : acts a) :
    l.attempt acts marks a = ⟨l.count + 1, decide (marks a)⟩ := by
  rw [Ledger.attempt, if_neg (by simp [hl]), if_pos h]

/-- The count never falls. -/
lemma count_le_foldl (l : Ledger) (as : List α) :
    l.count ≤ (as.foldl (Ledger.attempt acts marks) l).count := by
  induction as generalizing l with
  | nil => exact Nat.le_refl _
  | cons a as ih =>
      have hone : l.count ≤ (l.attempt acts marks a).count := by
        rw [Ledger.attempt]
        split_ifs <;> simp
      exact Nat.le_trans hone (ih (l.attempt acts marks a))

/-- Without a mark the count stays exactly if no attempt acts. -/
lemma count_foldl_eq_iff (hl : l.marked = false) :
    (as.foldl (Ledger.attempt acts marks) l).count ≤ l.count ↔ ∀ b ∈ as, ¬ acts b := by
  induction as with
  | nil => simp
  | cons a as ih =>
      rw [List.foldl_cons, List.forall_mem_cons]
      by_cases ha : acts a
      · rw [attempt_of_acts hl ha]
        have hle : l.count + 1 ≤ (as.foldl (Ledger.attempt acts marks)
            ⟨l.count + 1, decide (marks a)⟩).count :=
          count_le_foldl ⟨l.count + 1, decide (marks a)⟩ as
        exact iff_of_false (by omega) fun h => h.1 ha
      · rw [attempt_of_not ha, ih]
        exact (and_iff_right ha).symm

/-- **The act is done at most once** precisely if the first act sticks. -/
theorem count_le_succ_iff (hl : l.marked = false) :
    (as.foldl (Ledger.attempt acts marks) l).count ≤ l.count + 1 ↔ FirstSticks acts marks as := by
  induction as with
  | nil => simp [FirstSticks]
  | cons a as ih =>
      rw [List.foldl_cons]
      by_cases ha : acts a
      · rw [attempt_of_acts hl ha, firstSticks_cons_of_acts ha]
        by_cases hm : marks a
        · rw [foldl_of_marked (by simp [hm])]
          exact iff_of_true (Nat.le_refl _) (Or.inl hm)
        · rw [or_iff_right hm]
          exact count_foldl_eq_iff (l := ⟨l.count + 1, decide (marks a)⟩) (by simp [hm])
      · rw [attempt_of_not ha, firstSticks_cons_of_not ha, ih]

/-- A mark is only set after an act. -/
lemma count_pos_of_marked (h : l.marked = true → 0 < l.count)
    (hm : (as.foldl (Ledger.attempt acts marks) l).marked = true) :
    0 < (as.foldl (Ledger.attempt acts marks) l).count := by
  induction as generalizing l with
  | nil => exact h hm
  | cons a as ih =>
      refine ih (l := l.attempt acts marks a) (fun hone => ?_) hm
      rw [Ledger.attempt] at hone ⊢
      split_ifs at hone ⊢ with hmarked
      · exact h hmarked
      · exact Nat.succ_pos _
      · exact absurd hone hmarked

end Attempts

end Markers
