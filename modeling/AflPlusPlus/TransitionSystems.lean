import Mathlib

/-!
# Runs of a transition system

A system takes one labelled step after another. An invariant of the steps holds in every
state that a run reaches. When a measure decreases with every step, all runs are finite, and
what the invariant says about the states that no step leaves holds at the end of each.
-/

namespace AflPlusPlus.TransitionSystems

variable {σ α : Type*} {step : σ → α → Option σ}

/-- The state after the given actions, when each of them can be taken. -/
def run (step : σ → α → Option σ) (s : σ) (actions : List α) : Option σ :=
  actions.foldlM step s

@[simp] theorem run_nil (s : σ) : run step s [] = some s := rfl

theorem run_cons (s : σ) (a : α) (actions : List α) :
    run step s (a :: actions) = (step s a).bind fun t => run step t actions := rfl

theorem run_append (s : σ) (as bs : List α) :
    run step s (as ++ bs) = (run step s as).bind fun t => run step t bs := by
  induction as generalizing s with
  | nil => rfl
  | cons a as ih =>
    rw [List.cons_append, run_cons, run_cons, Option.bind_assoc]
    exact congrArg _ (funext ih)

theorem run_concat {s t : σ} {actions : List α} (h : run step s actions = some t) (a : α) :
    run step s (actions ++ [a]) = step t a := by
  rw [run_append, h, Option.bind_some, run_cons]
  exact Option.bind_fun_some _

/-- What every step preserves, every run preserves. -/
theorem run_invariant {P : σ → Prop} (hstep : ∀ s a t, P s → step s a = some t → P t)
    {s t : σ} {actions : List α} (hs : P s) (h : run step s actions = some t) : P t := by
  induction actions generalizing s with
  | nil =>
    obtain rfl := Option.some.inj h
    exact hs
  | cons a actions ih =>
    rw [run_cons, Option.bind_eq_some_iff] at h
    obtain ⟨u, hu, h⟩ := h
    exact ih (hstep s a u hs hu) h

/-- Every step of the run meets the condition in the state that it starts from. -/
def Along (step : σ → α → Option σ) (C : σ → α → Prop) : σ → List α → Prop
  | _, [] => True
  | s, a :: actions => C s a ∧ ∀ t, step s a = some t → Along step C t actions

/-- What the steps that meet a condition preserve, a run of such steps preserves. -/
theorem run_invariant_along {P : σ → Prop} {C : σ → α → Prop}
    (hstep : ∀ s a t, P s → C s a → step s a = some t → P t)
    {s t : σ} {actions : List α} (hs : P s) (hC : Along step C s actions)
    (h : run step s actions = some t) : P t := by
  induction actions generalizing s with
  | nil =>
    obtain rfl := Option.some.inj h
    exact hs
  | cons a actions ih =>
    rw [run_cons, Option.bind_eq_some_iff] at h
    obtain ⟨u, hu, h⟩ := h
    exact ih (hstep s a u hs hC.1 hu) (hC.2 u hu) h

/-- No step leads on from the state. -/
def Stuck (step : σ → α → Option σ) (s : σ) : Prop := ∀ a, step s a = none

theorem Stuck.run_eq {s t : σ} {actions : List α} (h : Stuck step s)
    (hrun : run step s actions = some t) : t = s ∧ actions = [] := by
  cases actions with
  | nil => exact ⟨(Option.some.inj hrun).symm, rfl⟩
  | cons a actions =>
    rw [run_cons, h a] at hrun
    exact absurd hrun (by simp)

/-- A run whose steps meet `D` ends with `Q` exactly when its steps meet `C`: the last step does
exactly when it leads to `Q`, the others always do. -/
theorem run_ends_iff_along {P Q Final : σ → Prop} {C D : σ → α → Prop}
    (hstep : ∀ s a t, P s → D s a → step s a = some t →
      (Final t ∧ (Q t ↔ C s a)) ∨ (P t ∧ C s a))
    (hfinal : ∀ s, Final s → Stuck step s) (hP : ∀ s, P s → ¬Final s)
    {s t : σ} {actions : List α} (hs : P s) (hD : Along step D s actions)
    (hrun : run step s actions = some t) (ht : Final t) : Q t ↔ Along step C s actions := by
  induction actions generalizing s with
  | nil =>
    obtain rfl := Option.some.inj hrun
    exact absurd ht (hP s hs)
  | cons a actions ih =>
    rw [run_cons, Option.bind_eq_some_iff] at hrun
    obtain ⟨u, hu, hrun⟩ := hrun
    rcases hstep s a u hs hD.1 hu with ⟨hend, hiff⟩ | ⟨hnext, hC⟩
    · obtain ⟨rfl, rfl⟩ := (hfinal u hend).run_eq hrun
      rw [hiff]
      exact ⟨fun hC => ⟨hC, fun _ _ => trivial⟩, fun hC => hC.1⟩
    · rw [ih hnext (hD.2 u hu) hrun]
      refine ⟨fun hC' => ⟨hC, fun v hv => ?_⟩, fun hC' => hC'.2 u hu⟩
      rw [hu] at hv
      exact Option.some.inj hv ▸ hC'

/-- Every run from the state is finite, and a run that cannot go on has ended with `Q`. -/
structure EndsIn (step : σ → α → Option σ) (Q : σ → Prop) (s : σ) : Prop where
  finite : Acc (fun t u => ∃ a, step u a = some t) s
  last : ∀ actions t, run step s actions = some t → Stuck step t → Q t

theorem EndsIn.mono {Q R : σ → Prop} {s : σ} (h : EndsIn step Q s) (hQR : ∀ t, Q t → R t) :
    EndsIn step R s :=
  ⟨h.finite, fun actions t hrun hstuck => hQR t (h.last actions t hrun hstuck)⟩

/-- A run that has ended is a counterexample to what it does not end with. -/
theorem not_endsIn {Q : σ → Prop} {s t : σ} {actions : List α}
    (hrun : run step s actions = some t) (hstuck : Stuck step t) (hQ : ¬Q t) :
    ¬EndsIn step Q s :=
  fun h => hQ (h.last actions t hrun hstuck)

section Measure
variable {P Q : σ → Prop} {β : Type*} [LT β] [WellFoundedLT β] (μ : σ → β)

/-- The runs are finite whose steps meet a condition under which the measure decreases. -/
theorem acc_of_measure_along {C : σ → α → Prop}
    (hstep : ∀ s a t, P s → C s a → step s a = some t → P t)
    (hμ : ∀ s a t, P s → C s a → step s a = some t → μ t < μ s) {s : σ} (hs : P s) :
    Acc (fun t u => ∃ a, C u a ∧ step u a = some t) s := by
  induction hn : μ s using WellFoundedLT.induction generalizing s with
  | ind n ih =>
    refine ⟨s, fun t ⟨a, hC, ht⟩ => ?_⟩
    exact ih (μ t) (hn ▸ hμ s a t hs hC ht) (hstep s a t hs hC ht) rfl

theorem acc_of_measure (hstep : ∀ s a t, P s → step s a = some t → P t)
    (hμ : ∀ s a t, P s → step s a = some t → μ t < μ s) {s : σ} (hs : P s) :
    Acc (fun t u => ∃ a, step u a = some t) s := by
  have hsub : Subrelation (fun t u => ∃ a, step u a = some t)
      (fun t u => ∃ a, True ∧ step u a = some t) := fun ⟨a, ht⟩ => ⟨a, trivial, ht⟩
  exact hsub.accessible (acc_of_measure_along μ (C := fun _ _ => True)
    (fun s a t hs _ => hstep s a t hs) (fun s a t hs _ => hμ s a t hs) hs)

theorem endsIn_of_measure (hstep : ∀ s a t, P s → step s a = some t → P t)
    (hμ : ∀ s a t, P s → step s a = some t → μ t < μ s)
    (hstuck : ∀ s, P s → Stuck step s → Q s) {s : σ} (hs : P s) : EndsIn step Q s :=
  ⟨acc_of_measure μ hstep hμ hs, fun _ t hrun => hstuck t (run_invariant hstep hs hrun)⟩

end Measure

end AflPlusPlus.TransitionSystems
