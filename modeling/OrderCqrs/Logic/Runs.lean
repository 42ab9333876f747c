import Mathlib.Data.List.Basic
import Mathlib.Tactic.Common

/-!
Runs of a partial step function, over any type of states and any type of actions.

* `run` follows a list of actions from a state and is `none` as soon as one of them is not
  enabled; `run_append` and `run_concat` cut it where a proof needs it, and `run_total` is the case
  of a step that is always enabled.
* `exists_run_of_eval` gets a fact about the end of a given run by evaluating it.
* `run_preserves` is the invariant rule, `preserves_along` its form for a property that only
  the steps meeting a condition preserve (`Along`); `run_foldl` is the rule for an observation.
* `good_iff_along_within` and `good_iff_along` are the exactness rule: when a step outside the
  condition spoils a property for good, the property holds at the end of a run precisely if every
  step met the condition.
* `along_append` and `exists_of_not_along` cut a condition where a proof needs it.
* `run_simulates` carries runs along a simulation whose steps may stutter.
* `cost_le` bounds what the steps of a run cost by a potential, `run_count_le` the steps of a kind;
  `exists_run_along` is the progress rule: what can always be brought nearer to a goal can be
  brought there.
-/

namespace Runs

variable {σ τ α β : Type*}

section Basic

variable (step : σ → α → Option σ)

/-- The state a list of actions leads to, `none` as soon as an action is not enabled. -/
def run (s : σ) (as : List α) : Option σ := as.foldlM step s

@[simp] lemma run_nil (s : σ) : run step s [] = some s := rfl

@[simp] lemma run_cons (s : σ) (a : α) (as : List α) :
    run step s (a :: as) = (step s a).bind fun t => run step t as := rfl

lemma run_append (s : σ) (as bs : List α) :
    run step s (as ++ bs) = (run step s as).bind fun t => run step t bs := by
  simp [run, List.foldlM_append]

lemma run_concat (s : σ) (as : List α) (a : α) :
    run step s (as ++ [a]) = (run step s as).bind fun t => step t a := by
  rw [run_append]
  congr 1
  funext t
  simp

/-- A run splits at its first step. -/
lemma run_cons_eq_some {s t : σ} {a : α} {as : List α} :
    run step s (a :: as) = some t ↔ ∃ u, step s a = some u ∧ run step u as = some t := by
  rw [run_cons, Option.bind_eq_some_iff]

/-- A run splits at its last step. -/
lemma run_concat_eq_some {s t : σ} {a : α} {as : List α} :
    run step s (as ++ [a]) = some t ↔ ∃ u, run step s as = some u ∧ step u a = some t := by
  rw [run_concat, Option.bind_eq_some_iff]

/-- A run splits where its list of actions does. -/
lemma run_append_eq_some {s t : σ} {as bs : List α} :
    run step s (as ++ bs) = some t ↔ ∃ u, run step s as = some u ∧ run step u bs = some t := by
  rw [run_append, Option.bind_eq_some_iff]

/-- A step function that is always enabled folds over the actions. -/
lemma run_total (f : σ → α → σ) (s : σ) (as : List α) :
    run (fun s a => some (f s a)) s as = some (as.foldl f s) := by
  induction as generalizing s with
  | nil => rfl
  | cons a as ih => exact ih (f s a)

/-- Every step of the run meets `C` in the state before it. -/
def Along (C : σ → α → Prop) : σ → List α → Prop
  | _, [] => True
  | s, a :: as => C s a ∧ ∀ t, step s a = some t → Along C t as

instance decidableAlong {C : σ → α → Prop} [∀ s a, Decidable (C s a)] :
    (s : σ) → (as : List α) → Decidable (Along step C s as)
  | _, [] => .isTrue trivial
  | s, a :: as =>
      match h : step s a with
      | none => decidable_of_iff (C s a) (by simp [Along, h])
      | some t =>
          have : Decidable (Along step C t as) := decidableAlong t as
          decidable_of_iff (C s a ∧ Along step C t as) (by simp [Along, h])

end Basic

variable {step : σ → α → Option σ}

/-- A run on given actions, and a decidable fact about where it ends, by evaluation. -/
lemma exists_run_of_eval {Q : σ → Prop} [DecidablePred Q] {s : σ} {as : List α}
    (h : ((run step s as).any fun t => decide (Q t)) = true) :
    ∃ t, run step s as = some t ∧ Q t := by
  cases hrun : run step s as with
  | none => simp [hrun] at h
  | some t =>
      rw [hrun, Option.any_some, decide_eq_true_eq] at h
      exact ⟨t, rfl, h⟩

/-- **The invariant rule under a condition**: what the steps meeting `C` preserve, a run all
of whose steps meet `C` preserves. -/
theorem preserves_along {P : σ → Prop} {C : σ → α → Prop}
    (hstep : ∀ {s a t}, P s → C s a → step s a = some t → P t)
    {s t : σ} {as : List α} (hs : P s) (hC : Along step C s as) (h : run step s as = some t) :
    P t := by
  induction as generalizing s with
  | nil =>
      rw [run_nil, Option.some.injEq] at h
      exact h ▸ hs
  | cons a as ih =>
      obtain ⟨u, hu, h⟩ := (run_cons_eq_some step).mp h
      exact ih (hstep hs hC.1 hu) (hC.2 u hu) h

/-- A condition on the actions alone. -/
lemma along_of_forall {C : σ → α → Prop} {as : List α} (h : ∀ a ∈ as, ∀ s, C s a) (s : σ) :
    Along step C s as := by
  induction as generalizing s with
  | nil => exact trivial
  | cons a as ih =>
      exact ⟨h a List.mem_cons_self s,
        fun t _ => ih (fun b hb => h b (List.mem_cons_of_mem _ hb)) t⟩

/-- **The invariant rule**: what every step preserves, every run preserves. -/
theorem run_preserves {P : σ → Prop} (hstep : ∀ {s a t}, P s → step s a = some t → P t)
    {s t : σ} {as : List α} (hs : P s) (h : run step s as = some t) : P t :=
  preserves_along (C := fun _ _ => True) (fun hs _ h => hstep hs h) hs
    (along_of_forall (fun _ _ _ => trivial) s) h

/-- **The fold rule**: an observation that every step of a run updates is folded by the run. -/
theorem run_foldl {V : Type*} (obs : σ → V) (upd : V → α → V) {s t : σ} {as : List α}
    (hstep : ∀ a ∈ as, ∀ s t, step s a = some t → obs t = upd (obs s) a)
    (h : run step s as = some t) : obs t = as.foldl upd (obs s) := by
  induction as generalizing s with
  | nil =>
      rw [run_nil, Option.some.injEq] at h
      rw [h]
      rfl
  | cons a as ih =>
      obtain ⟨u, hu, h⟩ := (run_cons_eq_some step).mp h
      rw [ih (fun b hb => hstep b (List.mem_cons_of_mem _ hb)) h,
        hstep a List.mem_cons_self s u hu, List.foldl_cons]

/-- A run that meets a condition meets it on both sides of a cut. -/
lemma along_append {C : σ → α → Prop} {s t : σ} {as bs : List α} (h : run step s as = some t) :
    Along step C s (as ++ bs) ↔ Along step C s as ∧ Along step C t bs := by
  induction as generalizing s with
  | nil =>
      rw [run_nil, Option.some.injEq] at h
      rw [List.nil_append, h]
      exact (and_iff_right trivial).symm
  | cons a as ih =>
      obtain ⟨u, hu, h⟩ := (run_cons_eq_some step).mp h
      have hiff : ∀ {cs : List α}, (∀ v, step s a = some v → Along step C v cs) ↔
          Along step C u cs := by
        intro cs
        rw [hu]
        simp
      rw [List.cons_append, Along, Along, hiff, hiff, ih h, and_assoc]

/-- A run that does not meet a condition has a step that does not. -/
lemma exists_of_not_along {C : σ → α → Prop} {s t : σ} {as : List α} (h : run step s as = some t)
    (hnot : ¬ Along step C s as) :
    ∃ pre a post u v, as = pre ++ a :: post ∧ run step s pre = some u ∧ ¬ C u a ∧
      step u a = some v ∧ run step v post = some t := by
  induction as generalizing s with
  | nil => exact absurd trivial hnot
  | cons a as ih =>
      obtain ⟨u, hu, h⟩ := (run_cons_eq_some step).mp h
      by_cases hC : C s a
      · have hrest : ¬ Along step C u as := by
          intro hrest
          refine hnot ⟨hC, fun v hv => ?_⟩
          rw [hu, Option.some.injEq] at hv
          exact hv ▸ hrest
        obtain ⟨pre, b, post, v, w, rfl, hpre, hb⟩ := ih h hrest
        exact ⟨a :: pre, b, post, v, w, rfl, (run_cons_eq_some step).mpr ⟨u, hu, hpre⟩, hb⟩
      · exact ⟨[], a, as, s, u, rfl, rfl, hC, hu, h⟩

/-- **The exactness rule** for runs whose steps all meet `A`: a property that the steps meeting
`C` keep, that every other step loses, and that is never regained, holds at the end of a run
precisely if every step of the run met `C`. -/
theorem good_iff_along_within {Inv Good : σ → Prop} {A C : σ → α → Prop}
    (hinv : ∀ {s a t}, Inv s → A s a → step s a = some t → Inv t)
    (hkeep : ∀ {s a t}, Inv s → Good s → A s a → C s a → step s a = some t → Good t)
    (hlose : ∀ {s a t}, Inv s → A s a → ¬ C s a → step s a = some t → ¬ Good t)
    (hstay : ∀ {s a t}, Inv s → ¬ Good s → A s a → step s a = some t → ¬ Good t)
    {s t : σ} {as : List α} (hs : Inv s) (hg : Good s) (hA : Along step A s as)
    (h : run step s as = some t) : Good t ↔ Along step C s as := by
  -- once lost, the property stays lost to the end of the run
  have hlost : ∀ {u : σ} {bs : List α}, Inv u → ¬ Good u → Along step A u bs →
      run step u bs = some t → ¬ Good t := by
    intro u bs hu hbad hAu hrun
    have hboth : Inv t ∧ ¬ Good t :=
      preserves_along (P := fun v => Inv v ∧ ¬ Good v)
        (fun hv hAv hstep => ⟨hinv hv.1 hAv hstep, hstay hv.1 hv.2 hAv hstep⟩) ⟨hu, hbad⟩ hAu hrun
    exact hboth.2
  induction as generalizing s with
  | nil =>
      rw [run_nil, Option.some.injEq] at h
      exact ⟨fun _ => trivial, fun _ => h ▸ hg⟩
  | cons a as ih =>
      obtain ⟨u, hu, h⟩ := (run_cons_eq_some step).mp h
      have hinvu := hinv hs hA.1 hu
      by_cases hC : C s a
      · have hiff := ih hinvu (hkeep hs hg hA.1 hC hu) (hA.2 u hu) h
        refine ⟨fun hgood => ⟨hC, fun v hv => ?_⟩, fun halong => hiff.mpr (halong.2 u hu)⟩
        rw [hu, Option.some.injEq] at hv
        exact hv ▸ hiff.mp hgood
      · have hbad : ¬ Good t := hlost hinvu (hlose hs hA.1 hC hu) (hA.2 u hu) h
        exact ⟨fun hgood => absurd hgood hbad, fun halong => absurd halong.1 hC⟩

/-- The exactness rule for runs without a further condition. -/
theorem good_iff_along {Inv Good : σ → Prop} {C : σ → α → Prop}
    (hinv : ∀ {s a t}, Inv s → step s a = some t → Inv t)
    (hkeep : ∀ {s a t}, Inv s → Good s → C s a → step s a = some t → Good t)
    (hlose : ∀ {s a t}, Inv s → ¬ C s a → step s a = some t → ¬ Good t)
    (hstay : ∀ {s a t}, Inv s → ¬ Good s → step s a = some t → ¬ Good t)
    {s t : σ} {as : List α} (hs : Inv s) (hg : Good s) (h : run step s as = some t) :
    Good t ↔ Along step C s as :=
  good_iff_along_within (fun hs _ hstep => hinv hs hstep)
    (fun hs hg _ hC hstep => hkeep hs hg hC hstep) (fun hs _ hC hstep => hlose hs hC hstep)
    (fun hs hg _ hstep => hstay hs hg hstep) hs hg (along_of_forall (fun _ _ _ => trivial) s) h

/-- **Stuttering simulation**: when every step of one system is matched by no step or by one
step of another, what a run reaches is related to what some run of the other reaches. -/
theorem run_simulates {step' : τ → β → Option τ} {R : σ → τ → Prop}
    (hsim : ∀ {s a t u}, R s u → step s a = some t →
      R t u ∨ ∃ b u', step' u b = some u' ∧ R t u')
    {s t : σ} {u : τ} {as : List α} (hR : R s u) (h : run step s as = some t) :
    ∃ bs u', run step' u bs = some u' ∧ R t u' := by
  induction as generalizing s u with
  | nil =>
      rw [run_nil, Option.some.injEq] at h
      exact ⟨[], u, rfl, h ▸ hR⟩
  | cons a as ih =>
      obtain ⟨v, hv, h⟩ := (run_cons_eq_some step).mp h
      rcases hsim hR hv with hstutter | ⟨b, u', hb, hR'⟩
      · exact ih hstutter h
      · obtain ⟨bs, u'', hbs, hR''⟩ := ih hR' h
        exact ⟨b :: bs, u'', (run_cons_eq_some step').mpr ⟨u', hb, hbs⟩, hR''⟩

/-- What the steps of a run cost together. -/
def cost (step : σ → α → Option σ) (f : σ → α → ℕ) : σ → List α → ℕ
  | _, [] => 0
  | s, a :: as => f s a + (step s a).elim 0 fun t => cost step f t as

/-- The same at another price. -/
lemma cost_mul (n : ℕ) (f : σ → α → ℕ) (s : σ) (as : List α) :
    cost step (fun s a => n * f s a) s as = n * cost step f s as := by
  induction as generalizing s with
  | nil => rfl
  | cons a as ih => cases hstep : step s a <;> simp [cost, hstep, ih, Nat.mul_add]

/-- The steps of a kind, whatever the states. -/
lemma cost_count {p : α → Bool} {s t : σ} {as : List α} (h : run step s as = some t) :
    cost step (fun _ a => (p a).toNat) s as = as.countP p := by
  induction as generalizing s with
  | nil => rfl
  | cons a as ih =>
      obtain ⟨u, hu, h⟩ := (run_cons_eq_some step).mp h
      rw [cost, hu, Option.elim_some, ih h, List.countP_cons]
      cases hp : p a <;> simp [Nat.add_comm]

/-- **The amortised bound**: when a potential and what a step brings in pay for what it charges, a
run charges no more than it brings in, and the potential it begins with. -/
theorem cost_le {P : σ → Prop} {charge source : σ → α → ℕ} {potential : σ → ℕ}
    (hinv : ∀ {s a t}, P s → step s a = some t → P t)
    (hstep : ∀ {s a t}, P s → step s a = some t →
      charge s a + potential t ≤ source s a + potential s)
    {s t : σ} {as : List α} (hs : P s) (h : run step s as = some t) :
    cost step charge s as + potential t ≤ cost step source s as + potential s := by
  induction as generalizing s with
  | nil =>
      rw [run_nil, Option.some.injEq] at h
      rw [h]
      exact Nat.le_refl _
  | cons a as ih =>
      obtain ⟨u, hu, h⟩ := (run_cons_eq_some step).mp h
      have hfirst := hstep hs hu
      have hrest := ih (hinv hs hu) h
      rw [cost, cost, hu, Option.elim_some, Option.elim_some]
      omega

/-- The amortised bound for steps of a kind: a run has at most `n` charges for each of its
sources. -/
theorem run_count_le {charge source : α → Bool} {n : ℕ} {potential : σ → ℕ}
    (hstep : ∀ {s a t}, step s a = some t →
      (charge a).toNat + potential t ≤ n * (source a).toNat + potential s)
    {s t : σ} {as : List α} (h : run step s as = some t) :
    as.countP charge + potential t ≤ n * as.countP source + potential s := by
  have hle : cost step (fun _ a => (charge a).toNat) s as + potential t ≤
      cost step (fun _ a => n * (source a).toNat) s as + potential s :=
    cost_le (P := fun _ => True) (fun _ _ => trivial) (fun _ hstep' => hstep hstep') trivial h
  rwa [cost_mul, cost_count h, cost_count h] at hle

/-- **The progress rule**: when some step that meets a condition brings every state that is not at
the goal nearer to it, a run of such steps leads there. -/
theorem exists_run_along {P Goal : σ → Prop} {C : σ → α → Prop} (distance : σ → ℕ)
    (hstep : ∀ {s}, P s → ¬ Goal s →
      ∃ a t, C s a ∧ step s a = some t ∧ P t ∧ distance t < distance s)
    {s : σ} (hs : P s) : ∃ as t, Along step C s as ∧ run step s as = some t ∧ Goal t := by
  induction hn : distance s using Nat.strongRecOn generalizing s with
  | ind n ih =>
      by_cases hgoal : Goal s
      · exact ⟨[], s, trivial, rfl, hgoal⟩
      · obtain ⟨a, t, ha, hat, ht, hlt⟩ := hstep hs hgoal
        obtain ⟨as, u, has, hrun, hu⟩ := ih (distance t) (hn ▸ hlt) ht rfl
        refine ⟨a :: as, u, ⟨ha, fun v hv => ?_⟩, (run_cons_eq_some step).mpr ⟨t, hat, hrun⟩, hu⟩
        obtain rfl := Option.some.inj (hat.symm.trans hv)
        exact has

/-- A condition on the actions alone, along a run. -/
lemma forall_of_along {C : α → Prop} {s t : σ} {as : List α} (h : run step s as = some t)
    (hC : Along step (fun _ a => C a) s as) : ∀ a ∈ as, C a := by
  induction as generalizing s with
  | nil => simp
  | cons a as ih =>
      obtain ⟨u, hu, h⟩ := (run_cons_eq_some step).mp h
      exact List.forall_mem_cons.mpr ⟨hC.1, ih h (hC.2 u hu)⟩

/-- The progress rule for a condition on the actions alone. -/
theorem exists_run_to {P Goal : σ → Prop} {A : α → Prop} (distance : σ → ℕ)
    (hstep : ∀ {s}, P s → ¬ Goal s →
      ∃ a t, A a ∧ step s a = some t ∧ P t ∧ distance t < distance s)
    {s : σ} (hs : P s) : ∃ as t, (∀ a ∈ as, A a) ∧ run step s as = some t ∧ Goal t := by
  obtain ⟨as, t, hA, hrun, hgoal⟩ := exists_run_along (C := fun _ a => A a) distance hstep hs
  exact ⟨as, t, forall_of_along hrun hA, hrun, hgoal⟩

end Runs
