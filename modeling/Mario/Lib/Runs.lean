import Mathlib.Logic.Relation
import Mathlib.Tactic.SplitIfs

/-!
# Runs of labelled transition systems

A system is a relation `step s a t` on states, where the label `a` carries the
call that is made together with every answer of the environment. Safety claims
about a system are claims about the last state of every run, and a claim that
needs a side condition on each step is a claim about the runs of the restricted
system `Guarded`.
-/

namespace Mario.Lib

variable {σ α : Type*}

/-- A finite run, listing its labels in the order in which the steps are taken. -/
inductive Run (step : σ → α → σ → Prop) : σ → List α → σ → Prop
  | nil (s : σ) : Run step s [] s
  | snoc {s t u : σ} {as : List α} {a : α} :
      Run step s as t → step t a u → Run step s (as ++ [a]) u

/-- The steps of a system at which a condition on the state before the step and
the label holds. -/
def Guarded (good : σ → α → Prop) (step : σ → α → σ → Prop) (s : σ) (a : α) (t : σ) : Prop :=
  good s a ∧ step s a t

/-- The invariant rule: what holds initially and is kept by every step holds in
the last state of every run. -/
theorem Run.invariant {step : σ → α → σ → Prop} {P : σ → Prop} {s t : σ} {as : List α}
    (hrun : Run step s as t) (hinit : P s) (hstep : ∀ {u v : σ} {a : α}, P u → step u a v → P v) : P t := by
  induction hrun with
  | nil => exact hinit
  | snoc _ hlast ih => exact hstep ih hlast

/-- A run of a system is a run of every system that has its steps. -/
theorem Run.mono {step step' : σ → α → σ → Prop} {s t : σ} {as : List α}
    (hrun : Run step s as t) (h : ∀ u a v, step u a v → step' u a v) : Run step' s as t := by
  induction hrun with
  | nil => exact Run.nil _
  | snoc _ hlast ih => exact Run.snoc ih (h _ _ _ hlast)

/-- A run whose labels satisfy a condition in every state is a run of the restricted
system. -/
theorem Run.guarded {good : σ → α → Prop} {step : σ → α → σ → Prop} {s t : σ} {as : List α}
    (hrun : Run step s as t) (h : ∀ a ∈ as, ∀ u, good u a) : Run (Guarded good step) s as t := by
  induction hrun with
  | nil => exact Run.nil _
  | snoc _ hlast ih =>
    refine Run.snoc (ih fun a ha => h a (List.mem_append_left _ ha)) ⟨?_, hlast⟩
    exact h _ (List.mem_append_right _ List.mem_cons_self) _

/-- A run has no step with a property, or it has one. -/
theorem Run.guarded_or_exists {step : σ → α → σ → Prop} {s t : σ} {as : List α}
    (hrun : Run step s as t) (bad : σ → α → Prop) :
    Run (Guarded (fun s a => ¬ bad s a) step) s as t ∨
      ∃ as₁ a as₂ u, as = as₁ ++ a :: as₂ ∧ Run step s as₁ u ∧ bad u a := by
  induction hrun with
  | nil => exact Or.inl (Run.nil _)
  | @snoc t _ as a hfirst hlast ih =>
    rcases ih with hgood | ⟨as₁, b, as₂, u, rfl, hrun₁, hbad⟩
    · by_cases hbad : bad t a
      · exact Or.inr ⟨as, a, [], t, rfl, hfirst, hbad⟩
      · exact Or.inl (Run.snoc hgood ⟨hbad, hlast⟩)
    · exact Or.inr ⟨as₁, b, as₂ ++ [a], u, by simp, hrun₁, hbad⟩

theorem Run.cons {step : σ → α → σ → Prop} {s t u : σ} {a : α} {as : List α}
    (hfirst : step s a t) (hrest : Run step t as u) : Run step s (a :: as) u := by
  induction hrest with
  | nil => exact Run.snoc (Run.nil s) hfirst
  | snoc _ hlast ih => exact Run.snoc ih hlast

/-- The steps of a system whose successor state is a partial function of the label. -/
def Partial (legal : σ → α → Prop) (exec : σ → α → Option σ) (s : σ) (a : α) (t : σ) : Prop :=
  legal s a ∧ exec s a = some t

/-- Take the labels of a list in turn, as long as they are allowed. -/
def replay (ok : σ → α → Prop) [∀ s a, Decidable (ok s a)] (exec : σ → α → Option σ) :
    σ → List α → Option σ
  | s, [] => some s
  | s, a :: as => if ok s a then (exec s a).bind fun t => replay ok exec t as else none

theorem run_of_replay {ok : σ → α → Prop} [∀ s a, Decidable (ok s a)] {exec : σ → α → Option σ}
    {s t : σ} {as : List α} (h : replay ok exec s as = some t) : Run (Partial ok exec) s as t := by
  induction as generalizing s with
  | nil =>
    obtain rfl : s = t := Option.some.inj h
    exact Run.nil s
  | cons a as ih =>
    rw [replay] at h
    split_ifs at h with hok
    obtain ⟨u, hu, hrest⟩ := Option.bind_eq_some_iff.mp h
    exact Run.cons ⟨hok, hu⟩ (ih hrest)

/-- A replay with a test in the place of the condition on the steps: where an invariant makes the
test enough for the condition, the replay is a run of the restricted system. -/
theorem guarded_run_of_replay {P : σ → Prop} {ok good legal : σ → α → Prop} [∀ s a, Decidable (ok s a)]
    {exec : σ → α → Option σ} {s t : σ} {as : List α} (hinit : P s)
    (hok : ∀ {u a}, P u → ok u a → good u a ∧ legal u a)
    (hkept : ∀ {u a v}, P u → ok u a → exec u a = some v → P v) (h : replay ok exec s as = some t) :
    Run (Guarded good (Partial legal exec)) s as t := by
  induction as generalizing s with
  | nil =>
    obtain rfl : s = t := Option.some.inj h
    exact Run.nil s
  | cons a as ih =>
    rw [replay] at h
    split_ifs at h with htest
    obtain ⟨u, hu, hrest⟩ := Option.bind_eq_some_iff.mp h
    obtain ⟨hgood, hlegal⟩ := hok hinit htest
    exact Run.cons ⟨hgood, hlegal, hu⟩ (ih (hkept hinit htest hu) hrest)

end Mario.Lib
