import Mathlib.Tactic.Common

/-!
# Labelled runs

The runs of a step relation with the list of their labels, what holds along them, and the rule of
forward simulation: a system whose steps are matched has its runs matched, label by label.
-/

namespace KwHomework

/-- The runs of a step relation, with the labels of the steps. -/
inductive Trace {σ ε : Type*} (step : σ → ε → σ → Prop) : σ → List ε → σ → Prop
  | nil (s : σ) : Trace step s [] s
  | snoc {s s' s'' : σ} {events : List ε} {event : ε} : Trace step s events s' →
      step s' event s'' → Trace step s (events ++ [event]) s''

namespace Trace

variable {σ τ ε : Type*} {step : σ → ε → σ → Prop} {step' : τ → ε → τ → Prop} {s s' : σ}
  {events : List ε}

/-- An invariant of the steps holds at the end of a run. -/
theorem invariant {good : σ → Prop} (keeps : ∀ s event s', good s → step s event s' → good s')
    (first : good s) (trace : Trace step s events s') : good s' := by
  induction trace with
  | nil => exact first
  | snoc _ last induction => exact keeps _ _ _ induction last

/-- Forward simulation. -/
theorem simulates {R : σ → τ → Prop}
    (matched : ∀ s t event s', R s t → step s event s' → ∃ t', step' t event t' ∧ R s' t') {t : τ}
    (related : R s t) (trace : Trace step s events s') :
    ∃ t', Trace step' t events t' ∧ R s' t' := by
  induction trace with
  | nil => exact ⟨t, .nil t, related⟩
  | snoc _ last induction =>
      obtain ⟨t', run, related'⟩ := induction
      obtain ⟨t'', last', related''⟩ := matched _ t' _ _ related' last
      exact ⟨t'', run.snoc last', related''⟩

end Trace
end KwHomework
