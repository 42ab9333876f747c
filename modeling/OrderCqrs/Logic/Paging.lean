import Mathlib.Data.List.Nodup
import Mathlib.Data.List.Perm.Subperm
import Mathlib.Order.Basic
import Mathlib.Tactic

/-!
Lists that are read page by page, over any type of entries, while they may grow.

* `page`: the page at a place, by limit and offset; `flatMap_page`: **the pages of a list are the
  list**; `page_eq_nil`: an empty page is past the end.
* `exists_page`: **a walk misses no entry whose place does not fall** between its pages.
* `place_le`: in lists sorted by a key the place of an entry does not fall when entries are added;
  `eq_of_pairwise`: such a list is determined by its entries.
-/

namespace Paging

variable {α β : Type*} {limit : ℕ} {l l' : List α}

/-- `LIMIT` and `OFFSET` of the `i`-th page. -/
def page (limit i : ℕ) (l : List α) : List α := (l.drop (i * limit)).take limit

/-- **The first pages of a list are its first entries.** -/
lemma flatMap_page (limit n : ℕ) (l : List α) :
    (List.range n).flatMap (fun i => page limit i l) = l.take (n * limit) := by
  induction n with
  | zero => simp
  | succ n ih =>
      rw [List.range_succ, List.flatMap_append, ih, List.flatMap_singleton, page, Nat.add_mul,
        Nat.one_mul, List.take_add]

/-- An empty page is past the end. -/
lemma page_eq_nil {i : ℕ} (hlimit : 0 < limit) : page limit i l = [] ↔ l.length ≤ i * limit := by
  rw [page, List.take_eq_nil_iff, List.drop_eq_nil_iff, or_iff_right hlimit.ne']

/-- An entry is on the page of its place. -/
lemma mem_page {i k : ℕ} {x : α} (hx : l[k]? = some x) (hle : i * limit ≤ k)
    (hlt : k < (i + 1) * limit) : x ∈ page limit i l := by
  rw [Nat.add_mul, Nat.one_mul] at hlt
  refine List.mem_of_getElem? (i := k - i * limit) ?_
  rw [page, List.getElem?_take_of_lt (by omega), List.getElem?_drop, Nat.add_sub_cancel' hle, hx]

/-- **A walk misses nothing whose place does not fall.**  The `i`-th page is read of the list as it
is then, up to an empty page. -/
theorem exists_page {m : ℕ} {lists : ℕ → List α} {place : ℕ → ℕ} {x : α} (hlimit : 0 < limit)
    (hx : ∀ i ≤ m, (lists i)[place i]? = some x) (hmono : ∀ i < m, place i ≤ place (i + 1))
    (hend : page limit m (lists m) = []) : ∃ i < m, x ∈ page limit i (lists i) := by
  by_contra hmiss
  push Not at hmiss
  -- a place that is before no page is behind all of them
  have hbehind : ∀ i ≤ m, i * limit ≤ place i := by
    intro i
    induction i with
    | zero => exact fun _ => by rw [Nat.zero_mul]; exact Nat.zero_le _
    | succ i ih =>
        intro hi
        have hle := ih (Nat.le_of_succ_le hi)
        have hpast : (i + 1) * limit ≤ place i := by
          by_contra hlt
          exact hmiss i hi (mem_page (hx i (Nat.le_of_succ_le hi)) hle (Nat.lt_of_not_le hlt))
        exact hpast.trans (hmono i hi)
  have hlt := (List.getElem?_eq_some_iff.mp (hx m le_rfl)).1
  have hlength := (page_eq_nil hlimit).mp hend
  exact absurd (hbehind m le_rfl) (Nat.not_le.mpr (hlt.trans_le hlength))

/-! ### Sorted lists -/

section Sorted

variable [Preorder β] {key : α → β}

/-- What stands before an entry has a greater key. -/
lemma key_lt_of_lt (hl : l.Pairwise fun a b => key b < key a) {j k : ℕ} {a x : α}
    (ha : l[j]? = some a) (hx : l[k]? = some x) (hjk : j < k) : key x < key a := by
  obtain ⟨hj, rfl⟩ := List.getElem?_eq_some_iff.mp ha
  obtain ⟨hk, rfl⟩ := List.getElem?_eq_some_iff.mp hx
  exact List.pairwise_iff_getElem.mp hl j k hj hk hjk

/-- A list with strictly falling keys has no duplicates. -/
lemma nodup_of_pairwise (hl : l.Pairwise fun a b => key b < key a) : l.Nodup := by
  refine hl.imp ?_
  rintro a _ hlt rfl
  exact lt_irrefl _ hlt

/-- **Entries that are added do not let a place fall.** -/
theorem place_le (hl : l.Pairwise fun a b => key b < key a)
    (hl' : l'.Pairwise fun a b => key b < key a) (hsub : l ⊆ l') {k k' : ℕ} {x : α}
    (hx : l[k]? = some x) (hx' : l'[k']? = some x) : k ≤ k' := by
  have hk := (List.getElem?_eq_some_iff.mp hx).1
  have hk' := (List.getElem?_eq_some_iff.mp hx').1
  have htake : l.take k ⊆ l'.take k' := by
    intro a ha
    obtain ⟨j, hj⟩ := List.mem_iff_getElem?.mp ha
    have hjk : j < k := by
      have hlt := (List.getElem?_eq_some_iff.mp hj).1
      rw [List.length_take] at hlt
      omega
    rw [List.getElem?_take_of_lt hjk] at hj
    obtain ⟨j', hj'⟩ := List.mem_iff_getElem?.mp (hsub (List.mem_of_getElem? hj))
    have hgreater := key_lt_of_lt hl hj hx hjk
    have hlt : j' < k' := by
      by_contra hge
      rcases Nat.eq_or_lt_of_le (Nat.le_of_not_lt hge) with heq | hgt
      · rw [← heq, hx', Option.some.injEq] at hj'
        exact lt_irrefl _ (hj' ▸ hgreater)
      · exact lt_asymm hgreater (key_lt_of_lt hl' hx' hj' hgt)
    refine List.mem_of_getElem? (i := j') ?_
    rw [List.getElem?_take_of_lt hlt, hj']
  have hnodup : (l.take k).Nodup := (nodup_of_pairwise hl).sublist (List.take_sublist k l)
  have hlength := (hnodup.subperm htake).length_le
  rw [List.length_take, List.length_take] at hlength
  omega

/-- Lists with the same entries, in the order of falling keys, are equal. -/
lemma eq_of_pairwise (hl : l.Pairwise fun a b => key b < key a)
    (hl' : l'.Pairwise fun a b => key b < key a) (hmem : ∀ a, a ∈ l ↔ a ∈ l') : l = l' := by
  have hperm : l.Perm l' :=
    (List.perm_ext_iff_of_nodup (nodup_of_pairwise hl) (nodup_of_pairwise hl')).mpr hmem
  exact hperm.eq_of_pairwise (fun _ _ _ _ hab hba => absurd hab (lt_asymm hba)) hl hl'

end Sorted

end Paging
