import Mathlib.Data.List.Forall2
import Mathlib.Data.List.Perm.Basic
import Mathlib.Data.List.Perm.Subperm
import Mathlib.Tactic

/-!
Facts about lists that stand for tables of processes or rows.

* `exists_split_set`: a list around an entry that changes; `filterMap_set_of_eq`,
  `filterMap_set_of_none`: what its attributes become when the entry keeps its attribute or acquires
  one.
* `filterMap_filter_isSome`: dropping the entries without an attribute.
* `length_lt_of_missing`: a duplicate-free list that misses a member of another is shorter;
  `length_filter_ne`: what is left without a member, when attributes tell the members apart.
* `getLast?_filterMap`, `head?_filterMap`: the last and the first attribute, when every entry has
  one.
* `nodup_map_iff`: attributes without duplicates, in terms of the entries that share one;
  `eq_singleton`: a list of at most one entry.
* `getLast_eq_sum_iff`: the last of some positive numbers is their sum only if it is alone.
* `forall₂_getElem?`, `getElem?_of_isPrefix`, `getElem?_concat_cases`: entries by their place.
* `mapM_eq_some`: a partial map that is defined on every entry.
* `sum_filter_keys`: a sum over the entries, key by key.
* `pairwise_of_filter`: an order of the entries that share an attribute; `prefix_of_closed`: sorted
  entries of a sorted list that leave no smaller one out are a prefix of it.
-/

namespace ListTables

variable {α β : Type*}

/-- A list around an entry that is replaced. -/
lemma exists_split_set {l : List α} {i : ℕ} {x : α} (hx : l[i]? = some x) (y : α) :
    ∃ pre post, l = pre ++ x :: post ∧ l.set i y = pre ++ y :: post := by
  obtain ⟨hi, rfl⟩ := List.getElem?_eq_some_iff.mp hx
  refine ⟨l.take i, l.drop (i + 1), ?_, List.set_eq_take_append_cons_drop.trans (if_pos hi)⟩
  rw [← List.drop_eq_getElem_cons hi, List.take_append_drop]

/-- Changing an entry that keeps its attribute changes no attribute. -/
lemma filterMap_set_of_eq {f : α → Option β} {l : List α} {i : ℕ} {x y : α}
    (hx : l[i]? = some x) (hf : f y = f x) : (l.set i y).filterMap f = l.filterMap f := by
  obtain ⟨pre, post, hl, hset⟩ := exists_split_set hx y
  rw [hset, hl, List.filterMap_append, List.filterMap_append, List.filterMap_cons,
    List.filterMap_cons, hf]

/-- An entry that acquires an attribute adds it to the attributes. -/
lemma filterMap_set_of_none {f : α → Option β} {l : List α} {i : ℕ} {x y : α} {b : β}
    (hx : l[i]? = some x) (hfx : f x = none) (hfy : f y = some b) :
    ((l.set i y).filterMap f).Perm (b :: l.filterMap f) := by
  obtain ⟨pre, post, hl, hset⟩ := exists_split_set hx y
  rw [hset, hl, List.filterMap_append, List.filterMap_append, List.filterMap_cons_some hfy,
    List.filterMap_cons_none hfx]
  exact List.perm_middle

/-- Entries without an attribute do not matter for the attributes. -/
lemma filterMap_filter_isSome (f : α → Option β) (l : List α) :
    (l.filter fun x => (f x).isSome).filterMap f = l.filterMap f := by
  induction l with
  | nil => rfl
  | cons a l ih =>
      rw [List.filter_cons, List.filterMap_cons]
      cases hf : f a with
      | none => simpa using ih
      | some b => simpa [List.filterMap_cons, hf] using ih

/-- A duplicate-free list inside a list with one more member is shorter. -/
lemma length_lt_of_missing {l m : List α} {x : α} (hl : l.Nodup) (hlm : l ⊆ m) (hx : x ∈ m)
    (hxl : x ∉ l) : l.length < m.length := by
  have hsub : x :: l ⊆ m := List.cons_subset.mpr ⟨hx, hlm⟩
  have hle := (List.subperm_of_subset (List.nodup_cons.mpr ⟨hxl, hl⟩) hsub).length_le
  rw [List.length_cons] at hle
  omega

/-- A list whose attributes have no duplicates is one shorter without one of its members. -/
lemma length_filter_ne [DecidableEq β] {f : α → β} {l : List α} {a : α} (hnodup : (l.map f).Nodup)
    (ha : a ∈ l) : (l.filter fun b => f b ≠ f a).length + 1 = l.length := by
  have hone : l.countP (fun b => f b = f a) = 1 := by
    have hcount := List.count_eq_one_of_mem hnodup (List.mem_map_of_mem ha)
    rw [List.count, List.countP_map] at hcount
    rw [← hcount]
    exact List.countP_congr fun b _ => by simp
  have hall := List.length_eq_countP_add_countP (fun b => decide (f b = f a)) (l := l)
  rw [hone] at hall
  rw [← List.countP_eq_length_filter, hall, Nat.add_comm]
  congr 1
  exact List.countP_congr fun b _ => by simp

/-- An attribute is duplicate-free when no two entries share it. -/
lemma nodup_map_iff [DecidableEq β] {f : α → β} {l : List α} :
    (l.map f).Nodup ↔ ∀ b, (l.filter fun a => f a = b).length ≤ 1 := by
  rw [List.nodup_iff_count_le_one]
  refine forall_congr' fun b => ?_
  rw [List.count, List.countP_map, List.countP_eq_length_filter]
  refine iff_of_eq (congrArg (fun m : List α => m.length ≤ 1) ?_)
  exact List.filter_congr fun a _ => Bool.beq_eq_decide_eq _ _

/-- A list of at most one entry is the entry it has. -/
lemma eq_singleton {a : α} {l : List α} (ha : a ∈ l) (h : l.length ≤ 1) : l = [a] := by
  match l, h with
  | [b], _ => rw [List.mem_singleton.mp ha]

/-- The last attribute, when every entry has one. -/
lemma getLast?_filterMap {f : α → Option β} {l : List α} (h : ∀ a ∈ l, (f a).isSome) :
    (l.filterMap f).getLast? = l.getLast?.bind f := by
  induction l using List.reverseRecOn with
  | nil => rfl
  | append_singleton l a _ =>
      obtain ⟨b, hb⟩ := Option.isSome_iff_exists.mp
        (h a (List.mem_append_right _ (List.mem_singleton_self a)))
      simp [List.filterMap_append, hb]

/-- The first attribute, when every entry has one. -/
lemma head?_filterMap {f : α → Option β} {l : List α} (h : ∀ a ∈ l, (f a).isSome) :
    (l.filterMap f).head? = l.head?.bind f := by
  cases l with
  | nil => rfl
  | cons a l =>
      obtain ⟨b, hb⟩ := Option.isSome_iff_exists.mp (h a List.mem_cons_self)
      simp [hb]

/-- The last of some positive numbers is their sum only if there is no other. -/
lemma getLast_eq_sum_iff {l : List ℤ} (h : ∀ x ∈ l, 0 < x) :
    l.getLast?.getD 0 = l.sum ↔ l.length ≤ 1 := by
  induction l using List.reverseRecOn with
  | nil => simp
  | append_singleton l x _ =>
      have hpos : ∀ y ∈ l, 0 < y := fun y hy => h y (List.mem_append_left _ hy)
      rw [List.getLast?_concat, Option.getD_some, List.sum_append, List.sum_singleton,
        List.length_append, List.length_singleton]
      cases l with
      | nil => simp
      | cons y l =>
          have hsum : 0 ≤ l.sum := List.sum_nonneg fun z hz =>
            le_of_lt (hpos z (List.mem_cons_of_mem _ hz))
          have hy : 0 < y := hpos y List.mem_cons_self
          rw [List.sum_cons, List.length_cons]
          omega

/-- Lists that correspond entry by entry. -/
lemma forall₂_getElem? {R : α → β → Prop} {l : List α} {l' : List β} {n : ℕ} {x : α}
    (h : List.Forall₂ R l l') (hx : l[n]? = some x) : ∃ y, l'[n]? = some y ∧ R x y := by
  induction h generalizing n with
  | nil => simp at hx
  | cons hab _ ih =>
      cases n with
      | zero =>
          obtain rfl := Option.some.inj hx
          exact ⟨_, rfl, hab⟩
      | succ n => exact ih hx

/-- An entry stays where it is when the list grows. -/
lemma getElem?_of_isPrefix {l m : List α} {n : ℕ} {x : α} (h : l <+: m) (hx : l[n]? = some x) :
    m[n]? = some x := by
  obtain ⟨k, rfl⟩ := h
  rw [List.getElem?_append_left (List.getElem?_eq_some_iff.mp hx).1]
  exact hx

/-- An entry of a list with one more was there before, or is the new one. -/
lemma getElem?_concat_cases {l : List α} {n : ℕ} {x a : α} (h : (l ++ [a])[n]? = some x) :
    l[n]? = some x ∨ x = a := by
  rw [List.getElem?_append] at h
  split_ifs at h
  · exact Or.inl h
  · exact Or.inr (List.mem_singleton.mp (List.mem_of_getElem? h))

/-- A partial map that is defined on every entry. -/
lemma mapM_eq_some {f : α → Option β} {g : α → β} {l : List α} (h : ∀ a ∈ l, f a = some (g a)) :
    l.mapM f = some (l.map g) := by
  induction l with
  | nil => rfl
  | cons a l ih =>
      rw [List.mapM_cons, h a List.mem_cons_self, ih fun b hb => h b (List.mem_cons_of_mem a hb)]
      rfl

/-- What is in order among the entries of every attribute is in order where attributes agree. -/
lemma pairwise_of_filter [DecidableEq β] {f : α → β} {R : α → α → Prop} {l : List α}
    (h : ∀ b, (l.filter fun a => f a = b).Pairwise R) :
    l.Pairwise fun a b => f a = f b → R a b := by
  induction l with
  | nil => exact List.Pairwise.nil
  | cons a l ih =>
      refine List.pairwise_cons.mpr ⟨fun b hb hab => ?_, ih fun b => ?_⟩
      · have hhead := h (f a)
        rw [List.filter_cons_of_pos (by simp)] at hhead
        exact (List.pairwise_cons.mp hhead).1 b
          (List.mem_filter.mpr ⟨hb, decide_eq_true hab.symm⟩)
      · exact (h b).sublist ((List.sublist_cons_self a l).filter _)

/-- **Sorted entries that leave no smaller one out are the first ones.** -/
lemma prefix_of_closed [LinearOrder β] {key : α → β} {l m : List α}
    (hl : l.Pairwise fun a b => key a < key b) (hm : m.Pairwise fun a b => key a < key b)
    (hsub : l ⊆ m) (hclosed : ∀ a ∈ l, ∀ b ∈ m, key b < key a → b ∈ l) : l <+: m := by
  classical
  have hrest : (m.filter fun b => b ∉ l).Pairwise fun a b => key a < key b := hm.filter _
  have hcross : ∀ a ∈ l, ∀ b ∈ m.filter fun b => b ∉ l, key a < key b := by
    intro a ha b hb
    obtain ⟨hbm, hbl⟩ := List.mem_filter.mp hb
    have hnot : b ∉ l := of_decide_eq_true hbl
    rcases lt_trichotomy (key a) (key b) with hlt | heq | hgt
    · exact hlt
    · -- a sorted list has one entry of a key
      have hinj := List.inj_on_of_nodup_map
        (List.pairwise_map.mpr (hm.imp fun h => h.ne) : (m.map key).Nodup)
      exact absurd (hinj (hsub ha) hbm heq ▸ ha) hnot
    · exact absurd (hclosed a ha b hbm hgt) hnot
  have hall : (l ++ m.filter fun b => b ∉ l).Pairwise fun a b => key a < key b :=
    List.pairwise_append.mpr ⟨hl, hrest, hcross⟩
  have hperm : (l ++ m.filter fun b => b ∉ l).Perm m := by
    refine (List.perm_ext_iff_of_nodup (hall.imp fun h => ne_of_apply_ne key h.ne)
      (hm.imp fun h => ne_of_apply_ne key h.ne)).mpr fun a => ?_
    rw [List.mem_append, List.mem_filter, decide_eq_true_iff]
    exact ⟨fun h => h.elim (fun ha => hsub ha) And.left, fun ha =>
      (em (a ∈ l)).imp id fun hnot => ⟨ha, hnot⟩⟩
  have heq := hperm.eq_of_pairwise (fun _ _ _ _ hab hba => absurd hab (lt_asymm hba)) hall hm
  exact ⟨_, heq⟩

/-- A sum over the entries of a list, key by key. -/
lemma sum_filter_keys [DecidableEq β] {M : Type*} [AddCommMonoid M] {key : α → β} {f : α → M}
    {s : Finset β} {l : List α} (h : ∀ a ∈ l, key a ∈ s) :
    ∑ k ∈ s, ((l.filter (key · = k)).map f).sum = (l.map f).sum := by
  induction l with
  | nil => simp
  | cons a l ih =>
      have hsplit : ∀ k, (((a :: l).filter (key · = k)).map f).sum =
          (if key a = k then f a else 0) + ((l.filter (key · = k)).map f).sum := by
        intro k
        by_cases hk : key a = k <;> simp [hk]
      simp only [hsplit]
      rw [Finset.sum_add_distrib, Finset.sum_ite_eq, if_pos (h a List.mem_cons_self),
        ih fun b hb => h b (List.mem_cons_of_mem a hb), List.map_cons, List.sum_cons]

end ListTables
