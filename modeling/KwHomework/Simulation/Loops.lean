import Mathlib.Tactic.Common

/-!
# Loops over a list

A loop with effects, each iteration of which succeeds, succeeds with what an invariant says about
the values that it has visited.
-/

namespace Loops

theorem exists_foldlM_append {m : Type → Type} [Monad m] [LawfulMonad m] {ι σ : Type}
    {step : σ → ι → m σ} (inv : List ι → σ → Prop) : ∀ (list : List ι) {done : List ι} {s : σ},
    (∀ front i back s, done ++ list = front ++ i :: back → inv front s →
      ∃ s', step s i = pure s' ∧ inv (front ++ [i]) s') →
    inv done s → ∃ s', list.foldlM step s = pure s' ∧ inv (done ++ list) s'
  | [], done, s, _, holds => ⟨s, rfl, by rwa [List.append_nil]⟩
  | i :: list, done, s, each, holds => by
      obtain ⟨s₁, stepped, holds₁⟩ := each done i list s rfl holds
      have split : done ++ i :: list = (done ++ [i]) ++ list := by simp
      obtain ⟨s', rest, holds'⟩ := exists_foldlM_append inv list (split ▸ each) holds₁
      refine ⟨s', ?_, split ▸ holds'⟩
      rw [List.foldlM_cons, stepped, pure_bind, rest]

/-- A loop whose iterations all succeed, with an invariant about the values that are done. -/
theorem exists_foldlM {m : Type → Type} [Monad m] [LawfulMonad m] {ι σ : Type} {step : σ → ι → m σ}
    (inv : List ι → σ → Prop) {list : List ι} {s : σ} (start : inv [] s)
    (each : ∀ {front i back s}, list = front ++ i :: back → inv front s →
      ∃ s', step s i = pure s' ∧ inv (front ++ [i]) s') :
    ∃ s', list.foldlM step s = pure s' ∧ inv list s' :=
  exists_foldlM_append inv list
    (fun front i back _ (split : [] ++ list = front ++ i :: back) => each split) start

/-- A loop that collects the values of a total function. -/
theorem mapM_eq_map {ι β : Type} {value : ι → Option β} {g : ι → β}
    (each : ∀ i, value i = some (g i)) {list : List ι} : list.mapM value = some (list.map g) := by
  rw [funext each]
  exact List.mapM_pure

end Loops
