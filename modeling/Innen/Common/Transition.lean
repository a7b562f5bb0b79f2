import Mathlib.Data.List.Basic

/-!
# Guarded runs of a transition system

A transition system is a partial step function on states; an action that is not enabled has no
successor. A run performs a list of actions one after the other, and a guarded run performs only
actions that meet a condition on the state they start from. An invariant needs one argument per step
(`GuardedRun.invariant`).
-/

namespace Innen.Common

variable {σ α : Type*}

/-- Performing a list of actions. -/
def runActions (step : σ → α → Option σ) (s : σ) : List α → Option σ
  | [] => some s
  | a :: rest => (step s a).bind fun s' => runActions step s' rest

/-- Performing a list of actions each of which meets a condition when it is performed. -/
inductive GuardedRun (step : σ → α → Option σ) (ok : σ → α → Prop) : σ → List α → σ → Prop
  | done (s : σ) : GuardedRun step ok s [] s
  | next {s s' s'' : σ} {a : α} {rest : List α} (hok : ok s a) (hstep : step s a = some s')
      (h : GuardedRun step ok s' rest s'') : GuardedRun step ok s (a :: rest) s''

/-- Without a condition a guarded run is a run. -/
theorem guardedRun_true_iff {step : σ → α → Option σ} {s s' : σ} {actions : List α} :
    GuardedRun step (fun _ _ => True) s actions s' ↔ runActions step s actions = some s' := by
  induction actions generalizing s with
  | nil =>
    constructor
    · rintro ⟨⟩
      rfl
    · intro h
      obtain rfl := Option.some.inj h
      exact .done s
  | cons a rest ih =>
    rw [runActions, Option.bind_eq_some_iff]
    constructor
    · rintro (_ | ⟨-, hstep, h⟩)
      exact ⟨_, hstep, ih.mp h⟩
    · rintro ⟨s₁, hstep, h⟩
      exact .next trivial hstep (ih.mpr h)

/-- One run after another. -/
theorem GuardedRun.append {step : σ → α → Option σ} {ok : σ → α → Prop} {s s' s'' : σ} {actions actions' : List α}
    (h : GuardedRun step ok s actions s') (h' : GuardedRun step ok s' actions' s'') :
    GuardedRun step ok s (actions ++ actions') s'' := by
  induction h with
  | done s => exact h'
  | next hok hstep _ ih => exact .next hok hstep (ih h')

/-- What every step keeps, a run keeps. -/
theorem GuardedRun.invariant {step : σ → α → Option σ} {ok : σ → α → Prop} {inv : σ → Prop}
    (hstep : ∀ {s a s'}, inv s → ok s a → step s a = some s' → inv s') {s s' : σ} {actions : List α}
    (h : GuardedRun step ok s actions s') (hs : inv s) : inv s' := by
  induction h with
  | done s => exact hs
  | next hok hs' _ ih => exact ih (hstep hs hok hs')

end Innen.Common
