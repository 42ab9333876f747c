import Mathlib.Data.List.Induction
import OrderCqrs.Logic.Runs

/-!
Systems whose actions each concern one key, over any types of states, keys and actions.

* `Local`: an action changes the view of its own key only, and what it does there depends on that
  view only.
* `Local.run_filter`: the view of a key after a run is the one its own actions lead to.
* `Local.run_congr`: **runs are compared key by key**.  Two lists of actions whose restrictions to
  every key lead to the same view of it lead to the same state.
* `Local.foldl_view`: the same for actions that are always enabled.
-/

namespace Keyed

open Runs

variable {σ κ α V : Type*} (step : σ → α → Option σ) (key : α → κ) (view : σ → κ → V)

/-- Every action is local to its key, and the views of all keys determine the state. -/
structure Local : Prop where
  frame : ∀ {s t a k}, step s a = some t → k ≠ key a → view t k = view s k
  here : ∀ {s s' a}, view s (key a) = view s' (key a) →
    (step s a).map (view · (key a)) = (step s' a).map (view · (key a))
  ext : ∀ {s t}, (∀ k, view s k = view t k) → s = t

namespace Local

variable {step key view} (h : Local step key view) {s s' t : σ} {a : α} {as bs : List α} {k : κ}
include h

/-- The same action on the same view succeeds or fails alike. -/
lemma exists_step (hv : view s (key a) = view s' (key a)) (hstep : step s a = some t) :
    ∃ t', step s' a = some t' ∧ view t (key a) = view t' (key a) := by
  have hmap := h.here hv
  rw [hstep, Option.map_some, eq_comm, Option.map_eq_some_iff] at hmap
  obtain ⟨t', ht', hview⟩ := hmap
  exact ⟨t', ht', hview.symm⟩

variable [DecidableEq κ]

/-- **The view of one key**: after a run, the one that the actions of this key alone lead to. -/
theorem run_filter (hv : view s k = view s' k) (hrun : run step s as = some t) :
    ∃ t', run step s' (as.filter fun a => key a = k) = some t' ∧ view t k = view t' k := by
  induction as generalizing s s' with
  | nil =>
      rw [run_nil, Option.some.injEq] at hrun
      exact ⟨s', rfl, hrun ▸ hv⟩
  | cons a as ih =>
      obtain ⟨u, hu, hrun⟩ := (run_cons_eq_some step).mp hrun
      by_cases hk : key a = k
      · subst hk
        obtain ⟨u', hu', hv'⟩ := h.exists_step hv hu
        obtain ⟨t', ht', hview⟩ := ih hv' hrun
        refine ⟨t', ?_, hview⟩
        rw [List.filter_cons_of_pos (by simp)]
        exact (run_cons_eq_some step).mpr ⟨u', hu', ht'⟩
      · rw [List.filter_cons_of_neg (by simpa using hk)]
        exact ih ((h.frame hu (Ne.symm hk)).trans hv) hrun

/-- A run goes through as soon as the actions of each key do. -/
theorem run_isSome (hall : ∀ k, (run step s (as.filter fun a => key a = k)).isSome) :
    (run step s as).isSome := by
  induction as using List.reverseRecOn with
  | nil => rfl
  | append_singleton as a ih =>
      have hprefix : ∀ k, (run step s (as.filter fun a => key a = k)).isSome := by
        intro k
        obtain ⟨u, hu⟩ := Option.isSome_iff_exists.mp (hall k)
        rw [List.filter_append, run_append_eq_some] at hu
        obtain ⟨v, hv, _⟩ := hu
        exact Option.isSome_iff_exists.mpr ⟨v, hv⟩
      obtain ⟨t, ht⟩ := Option.isSome_iff_exists.mp (ih hprefix)
      -- the last action succeeds on the view its own key has
      obtain ⟨v, hv, hview⟩ := h.run_filter (k := key a) rfl ht
      obtain ⟨u, hu⟩ := Option.isSome_iff_exists.mp (hall (key a))
      rw [List.filter_append, List.filter_cons_of_pos (by simp), List.filter_nil,
        run_concat_eq_some] at hu
      obtain ⟨v', hv', hlast⟩ := hu
      rw [hv, Option.some.injEq] at hv'
      subst hv'
      obtain ⟨t', ht', _⟩ := h.exists_step hview.symm hlast
      exact Option.isSome_iff_exists.mpr ⟨t', (run_concat_eq_some step).mpr ⟨t, ht, ht'⟩⟩

/-- **Runs are compared key by key.** -/
theorem run_congr (hrun : run step s as = some t)
    (hkeys : ∀ k, (run step s (bs.filter fun a => key a = k)).map (view · k) =
      (run step s (as.filter fun a => key a = k)).map (view · k)) :
    run step s bs = some t := by
  have hone : ∀ k, ∃ u, run step s (bs.filter fun a => key a = k) = some u ∧
      view u k = view t k := by
    intro k
    obtain ⟨v, hv, hview⟩ := h.run_filter (k := k) rfl hrun
    have hmap := hkeys k
    rw [hv, Option.map_some, Option.map_eq_some_iff] at hmap
    obtain ⟨u, hu, huv⟩ := hmap
    exact ⟨u, hu, huv.trans hview.symm⟩
  have hsome : (run step s bs).isSome := h.run_isSome fun k => by
    obtain ⟨u, hu, _⟩ := hone k
    exact Option.isSome_iff_exists.mpr ⟨u, hu⟩
  obtain ⟨t', ht'⟩ := Option.isSome_iff_exists.mp hsome
  have heq : t' = t := h.ext fun k => by
    obtain ⟨u, hu, hview⟩ := hone k
    obtain ⟨v, hv, hview'⟩ := h.run_filter (k := k) rfl ht'
    rw [hu, Option.some.injEq] at hv
    exact hview'.trans (hv ▸ hview)
  rw [ht', heq]

end Local

/-- The view of one key after a fold over actions that are always enabled. -/
theorem Local.foldl_view [DecidableEq κ] {key : α → κ} {view : σ → κ → V} {f : σ → α → σ}
    (h : Local (fun s a => some (f s a)) key view) {s s' : σ} {k : κ} (hv : view s k = view s' k)
    (as : List α) :
    view (as.foldl f s) k = view ((as.filter fun a => key a = k).foldl f s') k := by
  obtain ⟨t, ht, hview⟩ := h.run_filter hv (run_total f s as)
  rw [run_total, Option.some.injEq] at ht
  rw [hview, ← ht]

end Keyed
