import Mathlib.Algebra.BigOperators.Group.Finset.Basic
import Mathlib.Data.Finmap

/-!
Counting and summing over the rows of a keyed table, over any types of keys and rows.

* `rows`: the rows of a table, each with its key; `mem_rows`, `fst_injOn`, `card_rows`.
* `sum_rows`: a sum over the rows is one over the keys, and `sum_rows_insert`: **a row that replaces
  another one replaces its summand**.
* `sum_filter_rows`, `card_filter_rows`: sums and counts of the rows that meet a condition, over
  their keys.
* `card_rows_eq_sum`: **the counts of the labels add up to the number of rows** when every row has
  one of the labels.
-/

namespace Rows

open Finset

variable {κ ρ : Type*} {t : Finmap fun _ : κ => ρ} {k : κ} {old new : ρ}

/-- The rows of a table, each with its key. -/
def rows (t : Finmap fun _ : κ => ρ) : Finset (Sigma fun _ : κ => ρ) := ⟨t.entries, t.nodup_entries⟩

lemma mem_rows [DecidableEq κ] {r : Sigma fun _ : κ => ρ} :
    r ∈ rows t ↔ t.lookup r.1 = some r.2 :=
  Finmap.lookup_eq_some_iff.symm

/-- The rows have different keys. -/
lemma fst_injOn [DecidableEq κ] : Set.InjOn Sigma.fst (rows t : Set (Sigma fun _ : κ => ρ)) := by
  rintro ⟨k, row⟩ hr ⟨k', row'⟩ hr' (rfl : k = k')
  have hrow : t.lookup k = some row := mem_rows.mp hr
  have hrow' : t.lookup k = some row' := mem_rows.mp hr'
  rw [Option.some.inj (hrow.symm.trans hrow')]

/-- There are as many rows as keys. -/
lemma card_rows (t : Finmap fun _ : κ => ρ) : (rows t).card = t.keys.card := by
  show Multiset.card t.entries = Multiset.card (t.entries.map Sigma.fst)
  rw [Multiset.card_map]

section Sum

variable [DecidableEq κ] {M : Type*} [AddCommMonoid M]

/-- A sum over the rows, as one over the keys. -/
lemma sum_rows (t : Finmap fun _ : κ => ρ) (f : κ → ρ → M) :
    ∑ r ∈ rows t, f r.1 r.2 = ∑ k ∈ t.keys, (t.lookup k).elim 0 (f k) := by
  show (t.entries.map fun r => f r.1 r.2).sum =
    ((t.entries.map Sigma.fst).map fun k => (t.lookup k).elim 0 (f k)).sum
  rw [Multiset.map_map]
  refine congrArg Multiset.sum (Multiset.map_congr rfl fun r hr => ?_)
  rw [Function.comp_apply, Finmap.lookup_eq_some_iff.mpr hr, Option.elim_some]

/-- **A row that replaces another one replaces its summand.** -/
theorem sum_rows_insert (f : κ → ρ → M) (hold : t.lookup k = some old) :
    ∑ r ∈ rows (t.insert k new), f r.1 r.2 + f k old = ∑ r ∈ rows t, f r.1 r.2 + f k new := by
  have hmem : k ∈ t.keys := Finmap.mem_keys.mpr (Finmap.mem_of_lookup_eq_some hold)
  have hkeys : (t.insert k new).keys = t.keys := by
    ext j
    rw [Finmap.mem_keys, Finmap.mem_keys, Finmap.mem_insert, or_iff_right_of_imp]
    rintro rfl
    exact Finmap.mem_keys.mp hmem
  have hothers : ∑ j ∈ t.keys.erase k, ((t.insert k new).lookup j).elim 0 (f j) =
      ∑ j ∈ t.keys.erase k, (t.lookup j).elim 0 (f j) :=
    sum_congr rfl fun j hj => by rw [Finmap.lookup_insert_of_ne _ (ne_of_mem_erase hj)]
  rw [sum_rows, sum_rows, hkeys, ← add_sum_erase _ _ hmem, ← add_sum_erase _ _ hmem, hothers,
    Finmap.lookup_insert, hold, Option.elim_some, Option.elim_some]
  generalize ∑ j ∈ t.keys.erase k, (t.lookup j).elim 0 (f j) = others
  calc f k new + others + f k old
      = f k new + f k old + others := add_right_comm _ _ _
    _ = f k old + f k new + others := by rw [add_comm (f k new)]
    _ = f k old + others + f k new := add_right_comm _ _ _

/-- A sum over the rows that meet a condition, as one over their keys. -/
lemma sum_filter_rows {q : ρ → Prop} [DecidablePred q] {keys : Finset κ}
    (hkeys : ∀ k, k ∈ keys ↔ ∃ row, t.lookup k = some row ∧ q row) {f : ρ → M} {g : κ → M}
    (hfg : ∀ k row, t.lookup k = some row → q row → f row = g k) :
    ∑ r ∈ rows t with q r.2, f r.2 = ∑ k ∈ keys, g k := by
  refine sum_nbij (fun r => r.1) (fun r hr => ?_) ?_ (fun k hk => ?_) fun r hr => ?_
  · obtain ⟨hrow, hq⟩ := mem_filter.mp hr
    exact (hkeys r.1).mpr ⟨r.2, mem_rows.mp hrow, hq⟩
  · exact fst_injOn.mono (coe_subset.mpr (filter_subset _ _))
  · obtain ⟨row, hrow, hq⟩ := (hkeys k).mp hk
    exact ⟨⟨k, row⟩, mem_coe.mpr (mem_filter.mpr ⟨mem_rows.mpr hrow, hq⟩), rfl⟩
  · obtain ⟨hrow, hq⟩ := mem_filter.mp hr
    exact hfg r.1 r.2 (mem_rows.mp hrow) hq

/-- There are as many rows that meet a condition as keys of such rows. -/
lemma card_filter_rows {q : ρ → Prop} [DecidablePred q] {keys : Finset κ}
    (hkeys : ∀ k, k ∈ keys ↔ ∃ row, t.lookup k = some row ∧ q row) :
    ((rows t).filter fun r => q r.2).card = keys.card := by
  rw [card_eq_sum_ones, card_eq_sum_ones]
  exact sum_filter_rows hkeys fun _ _ _ _ => rfl

end Sum

/-- **The counts of the labels add up to the number of rows.** -/
theorem card_rows_eq_sum [DecidableEq κ] {L : Type*} [DecidableEq L] {label : ρ → L}
    {labels : Finset L} (h : ∀ k row, t.lookup k = some row → label row ∈ labels) :
    ∑ l ∈ labels, ((rows t).filter fun r => label r.2 = l).card = (rows t).card := by
  refine (card_eq_sum_card_fiberwise fun r hr => ?_).symm
  exact h r.1 r.2 (mem_rows.mp hr)

end Rows
