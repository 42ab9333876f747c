import Mathlib.Algebra.BigOperators.Group.Finset.Basic
import Mathlib.Algebra.Order.Group.Multiset
import Mathlib.Data.List.Perm.Basic

/-!
Items spread over numbered places, as multisets of any type: the accounting of items that move.

* `sum_range_eq_add`: one place holds some items more than before, the others what they held; the
  items may be counted or weighed in any commutative monoid.
* `filter_sum_range`: the items of all places that meet a condition.
* `coe_eraseIdx`: one item leaves a list.
* `notMem_of_nodup_map`: an item outside of a part, when no two items share an attribute.
-/

namespace Bags

variable {α β : Type*}

/-- One place holds `a` more, the others hold the same. -/
lemma sum_range_eq_add {M : Type*} [AddCommMonoid M] {f g : ℕ → M} {a : M} {n p : ℕ} (hp : p < n)
    (hself : f p = a + g p) (hother : ∀ q ≠ p, f q = g q) :
    ∑ q ∈ Finset.range n, f q = a + ∑ q ∈ Finset.range n, g q := by
  have hmem : p ∈ Finset.range n := Finset.mem_range.mpr hp
  calc ∑ q ∈ Finset.range n, f q
      = f p + ∑ q ∈ (Finset.range n).erase p, f q := (Finset.add_sum_erase _ f hmem).symm
    _ = a + (g p + ∑ q ∈ (Finset.range n).erase p, g q) := by
        rw [hself, add_assoc, Finset.sum_congr rfl fun q hq => hother q (Finset.ne_of_mem_erase hq)]
    _ = a + ∑ q ∈ Finset.range n, g q := by rw [Finset.add_sum_erase _ g hmem]

/-- The items of all places that meet a condition. -/
lemma filter_sum_range (c : α → Prop) [DecidablePred c] (f : ℕ → Multiset α) (n : ℕ) :
    (∑ q ∈ Finset.range n, f q).filter c = ∑ q ∈ Finset.range n, (f q).filter c := by
  induction n with
  | zero => rfl
  | succ n ih => rw [Finset.sum_range_succ, Finset.sum_range_succ, Multiset.filter_add, ih]

/-- One item leaves a list. -/
lemma coe_eraseIdx {l : List α} {i : ℕ} {a : α} (h : l[i]? = some a) :
    (l : Multiset α) = {a} + (l.eraseIdx i : Multiset α) := by
  obtain ⟨hlt, rfl⟩ := List.getElem?_eq_some_iff.mp h
  exact (Multiset.coe_eq_coe.mpr (List.getElem_cons_eraseIdx_perm hlt)).symm

/-- An item outside of a part shares no attribute with the items in it. -/
lemma notMem_of_nodup_map {f : α → β} {rest : Multiset α} {a : α} {part : List α}
    (h : ((rest + {a} + (part : Multiset α)).map f).Nodup) : f a ∉ part.map f := by
  rw [Multiset.map_add, Multiset.nodup_add, Multiset.map_add, Multiset.disjoint_left] at h
  have hin : f a ∈ rest.map f + Multiset.map f {a} := by simp
  simpa using h.2.2 hin

end Bags
