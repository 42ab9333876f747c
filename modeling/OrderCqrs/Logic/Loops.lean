import Mathlib.Data.List.Basic
import Mathlib.Tactic.Common

/-!
Loops over a list that an exception leaves, over any type of states and any type of items: the body
gives the state after its turn and says whether it has raised.

* `loop`, `loop_append`: the turns one after the other, and a loop cut in two.
* `loop_preserves`: what every turn preserves, raising or not, the loop preserves.
* `loop_rule`: the invariant rule, with the items that are done, for a loop that ends normally.
* `loop_raises_iff`, `loop_append_of_calm`, `loop_append_of_raises`: when the item alone decides
  whether its turn raises, the loop raises precisely if one of its items does, and what comes after
  some items has its turn precisely if none of them raises.
-/

namespace Loops

variable {σ α : Type*}

section Basic

variable (body : σ → α → σ × Bool)

/-- The turns of a loop, up to the first that raises. -/
def loop : σ → List α → σ × Bool
  | s, [] => (s, false)
  | s, a :: as => if (body s a).2 then body s a else loop (body s a).1 as

@[simp] lemma loop_nil (s : σ) : loop body s [] = (s, false) := rfl

lemma loop_cons (s : σ) (a : α) (as : List α) :
    loop body s (a :: as) = if (body s a).2 then body s a else loop body (body s a).1 as := rfl

/-- A loop is left where its first part is left, and goes on with the second part otherwise. -/
lemma loop_append (s : σ) (as bs : List α) :
    loop body s (as ++ bs) =
      if (loop body s as).2 then loop body s as else loop body (loop body s as).1 bs := by
  induction as generalizing s with
  | nil => simp
  | cons a as ih =>
      rw [List.cons_append, loop_cons, loop_cons]
      by_cases hraise : (body s a).2 = true
      · rw [if_pos hraise, if_pos hraise, if_pos hraise]
      · rw [if_neg hraise, if_neg hraise, ih]

end Basic

variable {body : σ → α → σ × Bool} {s t : σ} {as : List α}

/-! ### Invariants -/

/-- **What every turn preserves**, the loop preserves, even if it is left. -/
theorem loop_preserves {P : σ → Prop} (hbody : ∀ {s a}, a ∈ as → P s → P (body s a).1)
    (hs : P s) : P (loop body s as).1 := by
  induction as generalizing s with
  | nil => exact hs
  | cons a as ih =>
      rw [loop_cons]
      split_ifs
      · exact hbody List.mem_cons_self hs
      · exact ih (fun ha => hbody (List.mem_cons_of_mem a ha)) (hbody List.mem_cons_self hs)

/-- **The invariant rule**: a loop that is not left keeps what a turn keeps that does not raise; the
invariant may speak of the items that are done. -/
theorem loop_rule {P : List α → σ → Prop}
    (hbody : ∀ {done a rest s}, as = done ++ a :: rest → P done s → (body s a).2 = false →
      P (done ++ [a]) (body s a).1)
    (hs : P [] s) (h : (loop body s as).2 = false) : P as (loop body s as).1 := by
  -- the induction is on the items that are left
  suffices hrest : ∀ rest done s, as = done ++ rest → P done s → (loop body s rest).2 = false →
      P as (loop body s rest).1 from hrest as [] s rfl hs h
  intro rest
  induction rest with
  | nil =>
      intro done s heq hP _
      rw [List.append_nil] at heq
      exact heq ▸ hP
  | cons a rest ih =>
      intro done s heq hP hloop
      rw [loop_cons] at hloop ⊢
      by_cases hraise : (body s a).2 = true
      · rw [if_pos hraise, hraise] at hloop
        exact absurd hloop (by simp)
      · rw [if_neg hraise] at hloop ⊢
        refine ih (done ++ [a]) _ (by simpa using heq) ?_ hloop
        exact hbody heq hP (Bool.not_eq_true _ ▸ hraise)

/-! ### The items that raise -/

section Raises

variable {Raises : α → Prop} (hbody : ∀ s a, (body s a).2 = true ↔ Raises a)

include hbody

/-- The loop raises precisely if one of its items does. -/
theorem loop_raises_iff : (loop body s as).2 = true ↔ ∃ a ∈ as, Raises a := by
  induction as generalizing s with
  | nil => simp
  | cons a as ih =>
      rw [loop_cons, List.exists_mem_cons_iff]
      by_cases hraise : (body s a).2 = true
      · rw [if_pos hraise]
        exact ⟨fun _ => Or.inl ((hbody s a).mp hraise), fun _ => hraise⟩
      · rw [if_neg hraise, ih]
        exact ⟨Or.inr, fun h => h.resolve_left fun ha => hraise ((hbody s a).mpr ha)⟩

/-- What comes after items that do not raise has its turn. -/
lemma loop_append_of_calm {bs : List α} (hcalm : ∀ a ∈ as, ¬ Raises a) :
    loop body s (as ++ bs) = loop body (loop body s as).1 bs := by
  rw [loop_append, if_neg]
  rw [loop_raises_iff hbody]
  rintro ⟨a, ha, hraises⟩
  exact hcalm a ha hraises

/-- What comes after an item that raises has no turn. -/
lemma loop_append_of_raises {a : α} {bs : List α} (ha : a ∈ as) (hraises : Raises a) :
    loop body s (as ++ bs) = loop body s as := by
  rw [loop_append, if_pos ((loop_raises_iff hbody).mpr ⟨a, ha, hraises⟩)]

end Raises

end Loops
