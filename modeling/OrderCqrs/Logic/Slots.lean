import Mathlib.Data.Set.Insert
import Mathlib.Tactic.Common
import Mathlib.Order.Basic

/-!
Numbers that are handed out one after the other, the way optimistic concurrency hands out versions:
a writer reads how far the numbers go, claims the next one, and takes it if it is still free.

* `Claimable`, `Gapless`: a number that has been the next one, and the numbers taken when all of them
  were taken so.
* `Gapless.mem_of_le`: nothing is free below a number that is taken.
* `Gapless.insert`: a claim that is taken leaves no gap.
* `Gapless.lt_of_free`, `Gapless.mem_insert`: **one claim is taken, and all claims are**: what is
  taken lies below a free claim, and when that is taken no other claim is free.
-/

namespace Slots

variable {S T : Set ℤ} {u v w : ℤ}

/-- The number is the first one, or the one below it is taken. -/
def Claimable (S : Set ℤ) (v : ℤ) : Prop := 1 ≤ v ∧ (v = 1 ∨ v - 1 ∈ S)

/-- The numbers are `1, …, n` for some `n`, or all positive numbers. -/
def Gapless (S : Set ℤ) : Prop := ∀ v ∈ S, Claimable S v

lemma Claimable.mono (hv : Claimable S v) (hsub : S ⊆ T) : Claimable T v :=
  ⟨hv.1, hv.2.imp_right fun hin => hsub hin⟩

lemma gapless_empty : Gapless ∅ := fun _ hv => hv.elim

namespace Gapless

/-- What lies below a number that is taken is taken. -/
lemma mem_of_le (hS : Gapless S) (hv : v ∈ S) (hu : 1 ≤ u) (hle : u ≤ v) : u ∈ S := by
  -- the induction is on the distance of the two
  obtain ⟨n, hn⟩ : ∃ n : ℕ, v - u = n := ⟨(v - u).toNat, by omega⟩
  induction n generalizing v with
  | zero =>
      obtain rfl : u = v := by omega
      exact hv
  | succ n ih =>
      have hbelow : v - 1 ∈ S := (hS v hv).2.resolve_left (by omega)
      exact ih hbelow (by omega) (by omega)

/-- What is taken lies below what is free. -/
lemma lt_of_free (hS : Gapless S) (hw : 1 ≤ w) (hfree : w ∉ S) (hv : v ∈ S) : v < w := by
  by_contra hle
  exact hfree (hS.mem_of_le hv hw (not_lt.mp hle))

/-- The next of a taken number is claimable. -/
lemma claimable_succ (hS : Gapless S) (hv : v ∈ S) : Claimable S (v + 1) := by
  have hpos := (hS v hv).1
  exact ⟨by omega, Or.inr (by rwa [Int.add_sub_cancel])⟩

/-- A claim that is taken leaves no gap. -/
lemma insert (hS : Gapless S) (hw : Claimable S w) : Gapless (insert w S) := by
  intro v hv
  rcases Set.mem_insert_iff.mp hv with rfl | hv
  · exact hw.mono (Set.subset_insert _ _)
  · exact (hS v hv).mono (Set.subset_insert _ _)

/-- **When a free claim is taken, every claim is taken.** -/
lemma mem_insert (hS : Gapless S) (hw : Claimable S w) (hfree : w ∉ S) (hv : Claimable S v) :
    v ∈ Insert.insert w S := by
  have hle : v ≤ w := by
    rcases hv.2 with hone | hbelow
    · rw [hone]
      exact hw.1
    · have hlt := hS.lt_of_free hw.1 hfree hbelow
      omega
  rcases eq_or_lt_of_le hle with rfl | hlt
  · exact Set.mem_insert _ _
  · have hone := hv.1
    have hbelow : w - 1 ∈ S := hw.2.resolve_left (by omega)
    exact Set.mem_insert_of_mem _ (hS.mem_of_le hbelow hone (by omega))

end Gapless

end Slots
