import Mathlib.Tactic.Common

/-!
# Scripts

A script is code that is run on concrete states and understood on abstract ones.  `Does` says that
it succeeds on every state that stands for an abstract one, and what is known behind it.  There is a
rule for each way to put scripts together.
-/

namespace Scripts

/-- An interpreter for the code of a monad. -/
structure Interpreter (M : Type → Type) [Monad M] (σ : Type) where
  run : ∀ {α : Type}, M α → σ → Option (α × σ)
  run_pure : ∀ {α : Type} (value : α) (s : σ), run (pure value) s = some (value, s)
  run_bind : ∀ {α β : Type} (x : M α) (next : α → M β) (s : σ),
    run (x >>= next) s = (run x s).bind fun r => run (next r.1) r.2

namespace Interpreter

variable {M : Type → Type} [Monad M] {σ τ ι α β : Type} {I : Interpreter M σ} {R : σ → τ → Prop}
  {x : M α} {next : α → M β} {t : τ} {post : α → τ → Prop}

/-- On every state that stands for `t` the code succeeds, with a value and an abstract state that
are as in `post`. -/
def Does (I : Interpreter M σ) (R : σ → τ → Prop) (x : M α) (t : τ) (post : α → τ → Prop) : Prop :=
  ∀ s, R s t → ∃ r s' t', I.run x s = some (r, s') ∧ R s' t' ∧ post r t'

namespace Does

theorem pure {value : α} (holds : post value t) : I.Does R (Pure.pure value) t post :=
  fun s here => ⟨value, s, t, I.run_pure value s, here, holds⟩

theorem bind {post' : β → τ → Prop} (first : I.Does R x t post)
    (second : ∀ r t', post r t' → I.Does R (next r) t' post') : I.Does R (x >>= next) t post' := by
  intro s here
  obtain ⟨r, s₁, t₁, run₁, there₁, holds⟩ := first s here
  obtain ⟨r', s₂, t₂, run₂, there₂, holds'⟩ := second r t₁ holds s₁ there₁
  exact ⟨r', s₂, t₂, by rw [I.run_bind, run₁, Option.bind_some, run₂], there₂, holds'⟩

/-- A loop whose iterations lead from one abstract state to the next; `fine` is what is known in
front of the iterations that are left. -/
theorem forM {f : ι → M PUnit} {step : τ → ι → τ} (fine : τ → List ι → Prop)
    (each : ∀ t i rest, fine t (i :: rest) →
      I.Does R (f i) t (fun _ t' => t' = step t i) ∧ fine (step t i) rest) :
    ∀ {list : List ι} {t : τ}, fine t list →
      I.Does R (list.forM f) t fun _ t' => t' = list.foldl step t
  | [], _, _ => Does.pure rfl
  | i :: rest, t, here => by
      obtain ⟨first, there⟩ := each t i rest here
      refine Does.bind first ?_
      rintro _ _ rfl
      exact forM fine each there

end Does
end Interpreter
end Scripts
