import Mathlib.Data.List.Sort
import OrderCqrs.Logic.LastWriter

/-!
Sequences put in the order of a key, and folds over them, over any type of elements and any linear
order of keys.

* `sortOn key as`: the sequence in the order of the keys, equal keys as they came.
* `eq_sortOn`: with distinct keys there is only one sequence in this order, so that
  `sortOn_congr`: **the order in which the elements come does not matter**.
* `sortOn_of_max`: **an element of a greater key comes last**, wherever it is added.
* `LastWritten`: what the writer of the greatest key leaves in a cell; `column_sortOn` is the rule
  for one column of a folded state.
-/

namespace SortedFolds

open LastWriter

variable {α β κ : Type*} [LinearOrder κ] (key : α → κ)

/-- The sequence in the order of the keys; the sort is stable. -/
def sortOn (as : List α) : List α := as.insertionSort fun a b => key a ≤ key b

section Sorted

variable {key} {as bs : List α} {a : α}

lemma sortOn_perm (key : α → κ) (as : List α) : (sortOn key as).Perm as :=
  List.perm_insertionSort _ _

@[simp] lemma mem_sortOn : a ∈ sortOn key as ↔ a ∈ as := List.mem_insertionSort _

/-- Distinct keys increase strictly. -/
lemma sortOn_increasing (h : (as.map key).Nodup) :
    (sortOn key as).Pairwise fun a b => key a < key b := by
  have hle : (sortOn key as).Pairwise fun a b => key a ≤ key b := List.pairwise_insertionSort _ _
  have hne : (sortOn key as).Pairwise fun a b => key a ≠ key b := by
    rw [← List.pairwise_map]
    exact ((sortOn_perm key as).map key).nodup_iff.mpr h
  exact (hle.and hne).imp fun h => lt_of_le_of_ne h.1 h.2

/-- **There is only one sequence in the order of the keys.** -/
theorem eq_sortOn (hbs : bs.Pairwise fun a b => key a < key b) (h : bs.Perm as) :
    bs = sortOn key as := by
  have hdistinct : (as.map key).Nodup := by
    refine (h.map key).nodup_iff.mp (List.pairwise_map.mpr (hbs.imp ?_))
    exact fun hlt => ne_of_lt hlt
  refine (h.trans (sortOn_perm key as).symm).eq_of_pairwise ?_ hbs (sortOn_increasing hdistinct)
  exact fun a b _ _ hab hba => absurd hba (lt_asymm hab)

/-- **The order in which elements of distinct keys come does not matter.** -/
theorem sortOn_congr (hdistinct : (as.map key).Nodup) (h : bs.Perm as) :
    sortOn key bs = sortOn key as := by
  have hbs : (bs.map key).Nodup := (h.map key).nodup_iff.mpr hdistinct
  exact eq_sortOn (sortOn_increasing hbs) ((sortOn_perm key bs).trans h)

/-- **An element of a greater key comes last.** -/
theorem sortOn_of_max (hdistinct : (as.map key).Nodup) (hmax : ∀ b ∈ as, key b < key a)
    (h : bs.Perm (a :: as)) : sortOn key bs = sortOn key as ++ [a] := by
  have hlast : (sortOn key as ++ [a]).Pairwise fun a b => key a < key b := by
    refine List.pairwise_append.mpr ⟨sortOn_increasing hdistinct, List.pairwise_singleton _ _, ?_⟩
    intro b hb c hc
    rw [List.mem_singleton.mp hc]
    exact hmax b (mem_sortOn.mp hb)
  have hperm : (sortOn key as ++ [a]).Perm bs := by
    refine List.Perm.trans ?_ h.symm
    exact List.perm_append_comm.trans ((sortOn_perm key as).cons a)
  exact (eq_sortOn hlast hperm).symm

end Sorted

/-! ### Columns -/

/-- **The value in a cell is what the writer of the greatest key writes**, or what was there before
when nobody writes. -/
def LastWritten (w : α → Option β) (as : List α) (before value : β) : Prop :=
  (∃ a ∈ as, w a = some value ∧ ∀ a' ∈ as, (w a').isSome → key a' ≤ key a) ∨
    (∀ a ∈ as, w a = none) ∧ value = before

/-- **A column of a state folded in the order of the keys.** -/
theorem column_sortOn {σ : Type*} {apply : σ → α → σ} {column : σ → β} {w : α → Option β}
    (hcol : ∀ s a, column (apply s a) = (w a).getD (column s)) {as : List α}
    (hdistinct : (as.map key).Nodup) (s : σ) :
    LastWritten key w as (column s) (column ((sortOn key as).foldl apply s)) := by
  rw [column_foldl w hcol]
  cases hlast : lastWrite w (sortOn key as) with
  | none =>
      have hnone := (lastWrite_eq_none w).mp hlast
      exact Or.inr ⟨fun a ha => hnone a (mem_sortOn.mpr ha), rfl⟩
  | some b =>
      obtain ⟨a, ha, hwrite, hmax⟩ :=
        (lastWrite_eq_some_iff w (sortOn_increasing hdistinct)).mp hlast
      exact Or.inl ⟨a, mem_sortOn.mp ha, hwrite, fun a' ha' => hmax a' (mem_sortOn.mpr ha')⟩

end SortedFolds
