import Mathlib.Data.List.Basic
import Mathlib.Tactic.Common

/-!
Numbers written in texts: digits that end where another character stands.

* `digits_append_inj`: texts that begin with digits and go on with another character split in one
  way.
* `toDigits_inj`: the digits of a number determine it; `head?_toDigits`: they begin with no zero.
* `padded`: at least two digits, as the format `02d` writes them; they determine it, too.
-/

namespace Decimal

/-- All characters are digits. -/
def Digits (ds : List Char) : Prop := ∀ c ∈ ds, c.isDigit

/-- The digits at the beginning of a text end at its first other character. -/
lemma digits_append_inj {ds ds' l l' : List Char} {c c' : Char} (hds : Digits ds)
    (hds' : Digits ds')
    (hc : ¬ c.isDigit) (hc' : ¬ c'.isDigit) (h : ds ++ c :: l = ds' ++ c' :: l') :
    ds = ds' ∧ c :: l = c' :: l' := by
  have htake : ∀ {ds l : List Char} {c : Char}, Digits ds → ¬ c.isDigit →
      (ds ++ c :: l).takeWhile (·.isDigit) = ds := by
    intro ds l c hds hc
    rw [List.takeWhile_append_of_pos hds, List.takeWhile_cons_of_neg hc, List.append_nil]
  have heq : ds = ds' := by
    rw [← htake hds hc (l := l), h, htake hds' hc']
  subst heq
  exact ⟨rfl, List.append_cancel_left h⟩

/-- The digits of a number. -/
lemma digits_toDigits (n : ℕ) : Digits (Nat.toDigits 10 n) := fun _ hc =>
  Nat.isDigit_of_mem_toDigits (by decide) (by decide) hc

/-- The digits of a positive number begin with no zero. -/
lemma head?_toDigits {n : ℕ} (hn : n ≠ 0) : (Nat.toDigits 10 n).head? ≠ some '0' := by
  induction n using Nat.strongRecOn with
  | ind n ih =>
    rcases Nat.lt_or_ge n 10 with hlt | hle
    · have hall : ∀ d < 10, d ≠ 0 → some (Nat.digitChar d) ≠ some '0' := by decide
      rw [Nat.toDigits_of_lt_base hlt]
      exact hall n hlt hn
    · rw [Nat.toDigits_of_base_le (by decide) hle, List.head?_append_of_ne_nil _ Nat.toDigits_ne_nil]
      exact ih (n / 10) (by omega) (by omega)

/-- `{n:02d}`. -/
def padded (n : ℕ) : String := if n < 10 then "0" ++ toString n else toString n

lemma digits_padded (n : ℕ) : Digits (padded n).toList := by
  intro c hc
  unfold padded at hc
  split_ifs at hc
  · rw [String.toList_append, List.mem_append] at hc
    rcases hc with hc | hc
    · rw [List.mem_singleton.mp hc]
      decide
    · exact digits_toDigits n c (by simpa using hc)
  · exact digits_toDigits n c (by simpa using hc)

/-- The value of the digits. -/
lemma value_padded (n : ℕ) : Nat.ofDigitChars 10 (padded n).toList 0 = n := by
  unfold padded
  split_ifs
  · have hzero : Nat.ofDigitChars 10 "0".toList 0 = 0 := by decide
    rw [String.toList_append, Nat.ofDigitChars_append, hzero]
    simp
  · simp

/-- **The digits of a number determine it.** -/
lemma toDigits_inj {m n : ℕ} (h : Nat.toDigits 10 m = Nat.toDigits 10 n) : m = n := by
  rw [← Nat.ofDigitChars_ten_toDigits (n := m), h, Nat.ofDigitChars_ten_toDigits]

lemma padded_inj {m n : ℕ} (h : (padded m).toList = (padded n).toList) : m = n := by
  rw [← value_padded m, h, value_padded]

end Decimal
