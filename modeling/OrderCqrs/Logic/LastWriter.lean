import Mathlib.Data.List.Basic
import Mathlib.Data.List.Induction
import Mathlib.Data.Option.NAry
import Mathlib.Order.Lattice
import Mathlib.Order.OrderDual
import Mathlib.Tactic.Common

/-!
Sequences of partial writes to one cell, over any type of writers and any type of values.

* `lastWrite w as`, `firstWrite w as`: what the last and the first writer of a sequence write, `w a`
  being what `a` writes, if anything.
* `foldl_lastWrite`: folding the writes over a cell leaves the last one; `column_foldl` is the form
  for one column of a state.
* `foldl_merge`: the fold of writes that keep one part of the cell and replace the other leaves the
  first write merged with the last.
* `lastWrite_append_suffix`, `firstWrite_append_of_subset`: repeating a suffix of a sequence changes
  neither.
* `lastWrite_eq_iff_of_perm`: the last write of a reordered sequence, when there is one writer.
* `lastWrite_eq_some_iff`, `firstWrite_eq_some_iff`: the writers of greatest and of smallest key, in
  a sequence whose keys increase.
-/

namespace LastWriter

variable {α β : Type*} (w : α → Option β)

/-- What the last writer of a sequence writes. -/
def lastWrite (as : List α) : Option β := (as.filterMap w).getLast?

/-- What the first writer of a sequence writes. -/
def firstWrite (as : List α) : Option β := (as.filterMap w).head?

@[simp] lemma lastWrite_nil : lastWrite w [] = none := rfl

@[simp] lemma firstWrite_nil : firstWrite w [] = none := rfl

lemma lastWrite_append (as bs : List α) :
    lastWrite w (as ++ bs) = (lastWrite w bs).or (lastWrite w as) := by
  rw [lastWrite, List.filterMap_append, List.getLast?_append]
  rfl

lemma firstWrite_append (as bs : List α) :
    firstWrite w (as ++ bs) = (firstWrite w as).or (firstWrite w bs) := by
  rw [firstWrite, List.filterMap_append, List.head?_append]
  rfl

@[simp] lemma lastWrite_concat (as : List α) (a : α) :
    lastWrite w (as ++ [a]) = (w a).or (lastWrite w as) := by
  rw [lastWrite_append]
  congr 1
  cases h : w a <;> simp [lastWrite, h]

@[simp] lemma firstWrite_cons (a : α) (as : List α) :
    firstWrite w (a :: as) = (w a).or (firstWrite w as) := by
  cases h : w a <;> simp [firstWrite, h]

@[simp] lemma firstWrite_concat (as : List α) (a : α) :
    firstWrite w (as ++ [a]) = (firstWrite w as).or (w a) := by
  rw [firstWrite_append, firstWrite_cons, firstWrite_nil, Option.or_none]

/-- A sequence without a writer. -/
lemma lastWrite_eq_none {as : List α} : lastWrite w as = none ↔ ∀ a ∈ as, w a = none := by
  rw [lastWrite, List.getLast?_eq_none_iff, List.filterMap_eq_nil_iff]

lemma firstWrite_eq_none {as : List α} : firstWrite w as = none ↔ ∀ a ∈ as, w a = none := by
  rw [firstWrite, List.head?_eq_none_iff, List.filterMap_eq_nil_iff]

/-- The first write exists where the last one does. -/
lemma firstWrite_isSome_iff (as : List α) :
    (firstWrite w as).isSome ↔ (lastWrite w as).isSome := by
  rw [← not_iff_not, Option.not_isSome_iff_eq_none, Option.not_isSome_iff_eq_none,
    firstWrite_eq_none, lastWrite_eq_none]

/-- A write of the sequence that the last writer makes. -/
lemma exists_of_lastWrite {as : List α} {b : β} (h : lastWrite w as = some b) :
    ∃ a ∈ as, w a = some b :=
  List.mem_filterMap.mp (List.mem_of_getLast? h)

/-- Folding writes over a cell leaves the last one. -/
theorem foldl_lastWrite (as : List α) (b : β) :
    as.foldl (fun b a => (w a).getD b) b = (lastWrite w as).getD b := by
  induction as using List.reverseRecOn with
  | nil => rfl
  | append_singleton as a ih =>
      rw [List.foldl_append, List.foldl_cons, List.foldl_nil, ih, lastWrite_concat]
      cases w a <;> rfl

/-- A column of a folded state: what the last action that writes the column leaves there. -/
theorem column_foldl {σ : Type*} {apply : σ → α → σ} {column : σ → β}
    (hcol : ∀ s a, column (apply s a) = (w a).getD (column s)) (as : List α) (s : σ) :
    column (as.foldl apply s) = (lastWrite w as).getD (column s) := by
  rw [← foldl_lastWrite]
  exact (List.foldl_hom column fun s a => (hcol s a).symm).symm

/-- Folding merging writes over an empty cell leaves the first write merged with the last. -/
theorem foldl_merge {merge : β → β → β} (hself : ∀ b, merge b b = b)
    (hkeep : ∀ a b c, merge (merge a b) c = merge a c) (as : List α) :
    as.foldl (fun cell a => (w a).elim cell fun new => some (cell.elim new (merge · new))) none =
      Option.map₂ merge (firstWrite w as) (lastWrite w as) := by
  induction as using List.reverseRecOn with
  | nil => rfl
  | append_singleton as a ih =>
      rw [List.foldl_append, List.foldl_cons, List.foldl_nil, ih, firstWrite_concat,
        lastWrite_concat]
      have hboth := firstWrite_isSome_iff w as
      cases w a with
      | none => rw [Option.or_none]; rfl
      | some new =>
          cases hf : firstWrite w as with
          | none => simp [hself]
          | some f =>
              obtain ⟨l, hl⟩ := Option.isSome_iff_exists.mp (hboth.mp (by rw [hf]; rfl))
              simp [hl, hkeep]

/-- Repeating a suffix of a sequence does not change its last write. -/
lemma lastWrite_append_suffix {as bs : List α} (h : bs <:+ as) :
    lastWrite w (as ++ bs) = lastWrite w as := by
  obtain ⟨cs, rfl⟩ := h
  rw [lastWrite_append, lastWrite_append]
  cases lastWrite w bs <;> rfl

/-- Repeating a part of a sequence does not change its first write. -/
lemma firstWrite_append_of_subset {as bs : List α} (h : bs ⊆ as) :
    firstWrite w (as ++ bs) = firstWrite w as := by
  rw [firstWrite_append]
  cases hf : firstWrite w as with
  | some b => rfl
  | none =>
      have hnone := (firstWrite_eq_none w).mp hf
      rw [Option.none_or, firstWrite_eq_none]
      exact fun a ha => hnone a (h ha)

/-! ### Other orders of the same writers -/

/-- The last write is known from the cell it leaves, if no writer writes what was there before. -/
lemma getD_lastWrite_inj {b : β} (hb : ∀ a, w a ≠ some b) {as bs : List α} :
    (lastWrite w as).getD b = (lastWrite w bs).getD b ↔ lastWrite w as = lastWrite w bs := by
  have hne : ∀ cs : List α, lastWrite w cs ≠ some b := fun cs h => by
    obtain ⟨a, _, ha⟩ := exists_of_lastWrite w h
    exact hb a ha
  refine ⟨fun h => ?_, fun h => by rw [h]⟩
  cases has : lastWrite w as with
  | none =>
      cases hbs : lastWrite w bs with
      | none => rfl
      | some c =>
          rw [has, hbs, Option.getD_none, Option.getD_some] at h
          exact absurd (h ▸ hbs) (hne bs)
  | some d =>
      cases hbs : lastWrite w bs with
      | none =>
          rw [has, hbs, Option.getD_none, Option.getD_some] at h
          exact absurd (h ▸ has) (hne as)
      | some c =>
          rw [has, hbs, Option.getD_some, Option.getD_some] at h
          rw [h]

/-- The only writer of a sequence is among the last ones of a reordering exactly if it is not among
the first ones. -/
lemma lastWrite_eq_iff_of_perm {pre post as : List α} (h : (pre ++ post).Perm as)
    (hone : (as.filterMap w).length ≤ 1) :
    lastWrite w post = lastWrite w as ↔ ∀ a ∈ pre, w a = none := by
  have hperm := h.filterMap w
  rw [List.filterMap_append] at hperm
  have hlen : (pre.filterMap w).length + (post.filterMap w).length = (as.filterMap w).length := by
    rw [← List.length_append]
    exact hperm.length_eq
  rw [← List.filterMap_eq_nil_iff]
  constructor
  · intro heq
    by_contra hpre
    have hpos := List.length_pos_iff.mpr hpre
    have hpost : post.filterMap w = [] := List.length_eq_zero_iff.mp (by omega)
    rw [lastWrite, hpost, List.getLast?_nil, lastWrite, eq_comm, List.getLast?_eq_none_iff] at heq
    rw [heq, List.length_nil] at hlen
    omega
  · intro hpre
    rw [hpre, List.nil_append] at hperm
    have hsame : post.filterMap w = as.filterMap w := by
      match hw : as.filterMap w with
      | [] => exact List.perm_nil.mp (hw ▸ hperm)
      | [b] => exact List.perm_singleton.mp (hw ▸ hperm)
      | b :: c :: l =>
          rw [hw, List.length_cons, List.length_cons] at hone
          omega
    rw [lastWrite, lastWrite, hsame]

/-! ### Sequences in the order of a key -/

section Keys

variable {κ : Type*} [LinearOrder κ] {key : α → κ} {as : List α} {b : β}

/-- Where the keys increase, the last write is that of the writer with the greatest key. -/
theorem lastWrite_eq_some_iff (h : as.Pairwise fun a a' => key a < key a') :
    lastWrite w as = some b ↔
      ∃ a ∈ as, w a = some b ∧ ∀ a' ∈ as, (w a').isSome → key a' ≤ key a := by
  induction as using List.reverseRecOn with
  | nil => simp
  | append_singleton as c ih =>
      obtain ⟨has, _, hlt⟩ := List.pairwise_append.mp h
      have hle : ∀ a ∈ as ++ [c], key a ≤ key c := by
        intro a ha
        cases List.mem_append.mp ha with
        | inl ha => exact le_of_lt (hlt a ha c (List.mem_singleton_self c))
        | inr ha => rw [List.mem_singleton.mp ha]
      have hc : c ∈ as ++ [c] := List.mem_append_right _ (List.mem_singleton_self c)
      rw [lastWrite_concat]
      cases hw : w c with
      | some d =>
          rw [Option.some_or]
          constructor
          · intro hd
            exact ⟨c, hc, hw.trans hd, fun a' ha' _ => hle a' ha'⟩
          · rintro ⟨a, ha, hwa, hmax⟩
            -- a writer before the last has a smaller key
            cases List.mem_append.mp ha with
            | inl ha =>
                have hlast := hmax c hc (by rw [hw]; rfl)
                exact absurd (hlt a ha c (List.mem_singleton_self c)) (not_lt.mpr hlast)
            | inr ha =>
                rw [List.mem_singleton.mp ha, hw] at hwa
                exact hwa
      | none =>
          rw [Option.none_or, ih has]
          constructor
          · rintro ⟨a, ha, hwa, hmax⟩
            refine ⟨a, List.mem_append_left _ ha, hwa, fun a' ha' hsome => ?_⟩
            cases List.mem_append.mp ha' with
            | inl ha' => exact hmax a' ha' hsome
            | inr ha' => simp [List.mem_singleton.mp ha', hw] at hsome
          · rintro ⟨a, ha, hwa, hmax⟩
            refine ⟨a, ?_, hwa, fun a' ha' => hmax a' (List.mem_append_left _ ha')⟩
            cases List.mem_append.mp ha with
            | inl ha => exact ha
            | inr ha => simp [List.mem_singleton.mp ha, hw] at hwa

/-- The first write of a sequence is the last one of its reverse. -/
lemma lastWrite_reverse (as : List α) : lastWrite w as.reverse = firstWrite w as := by
  rw [lastWrite, firstWrite, List.filterMap_reverse, List.getLast?_reverse]

/-- Where the keys increase, the first write is that of the writer with the smallest key. -/
theorem firstWrite_eq_some_iff (h : as.Pairwise fun a a' => key a < key a') :
    firstWrite w as = some b ↔
      ∃ a ∈ as, w a = some b ∧ ∀ a' ∈ as, (w a').isSome → key a ≤ key a' := by
  have hrev : as.reverse.Pairwise fun a a' => OrderDual.toDual (key a) < OrderDual.toDual (key a') :=
    List.pairwise_reverse.mpr h
  rw [← lastWrite_reverse, lastWrite_eq_some_iff w hrev]
  simp only [List.mem_reverse, OrderDual.toDual_le_toDual]

end Keys

end LastWriter
