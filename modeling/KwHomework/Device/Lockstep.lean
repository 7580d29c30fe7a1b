import Mathlib.Data.Option.Basic

/-!
# Two runs in lockstep

Code is a function of the state that gives a result and the next state, or stops.  Two pieces of
code run in lockstep when, from states that are related, both stop or both end, and then with
related results and states.
-/

namespace KwHomework

variable {σ τ α β γ δ : Type}

/-- From states related by `pre` both stop, or both end as `post` says. -/
def Lockstep (pre : σ → τ → Prop) (x : σ → Option (α × σ)) (y : τ → Option (β × τ))
    (post : α → β → σ → τ → Prop) : Prop :=
  ∀ s t, pre s t → Option.Rel (fun r r' => post r.1 r'.1 r.2 r'.2) (x s) (y t)

/-- Related values that are used in related ways. -/
theorem rel_bind {R : α → β → Prop} {Q : γ → δ → Prop} {a : Option α} {b : Option β}
    {f : α → Option γ} {g : β → Option δ} (first : Option.Rel R a b)
    (second : ∀ r r', R r r' → Option.Rel Q (f r) (g r')) : Option.Rel Q (a.bind f) (b.bind g) := by
  cases first with
  | some related => exact second _ _ related
  | none => exact .none

theorem rel_mono {R Q : α → β → Prop} {a : Option α} {b : Option β} (first : Option.Rel R a b)
    (weaker : ∀ r r', R r r' → Q r r') : Option.Rel Q a b := by
  cases first with
  | some related => exact .some (weaker _ _ related)
  | none => exact .none

/-- What is known of the first value alone. -/
theorem rel_and_left {R : α → β → Prop} {Q : α → Prop} {a : Option α} {b : Option β}
    (first : Option.Rel R a b) (holds : ∀ r, a = some r → Q r) :
    Option.Rel (fun r r' => R r r' ∧ Q r) a b := by
  cases first with
  | some related => exact .some ⟨related, holds _ rfl⟩
  | none => exact .none

namespace Lockstep

variable {pre : σ → τ → Prop} {x : σ → Option (α × σ)} {y : τ → Option (β × τ)}
  {mid : α → β → σ → τ → Prop} {next : α → σ → Option (γ × σ)} {next' : β → τ → Option (δ × τ)}
  {post : γ → δ → σ → τ → Prop}

/-- Code that ends at once. -/
theorem result {r : α} {r' : β} {post : α → β → σ → τ → Prop}
    (holds : ∀ s t, pre s t → post r r' s t) :
    Lockstep pre (fun s => some (r, s)) (fun t => some (r', t)) post :=
  fun s t before => .some (holds s t before)

theorem bind (first : Lockstep pre x y mid)
    (second : ∀ r r', Lockstep (mid r r') (next r) (next' r') post) :
    Lockstep pre (fun s => (x s).bind fun r => next r.1 r.2)
      (fun t => (y t).bind fun r => next' r.1 r.2) post :=
  fun s t before => rel_bind (first s t before) fun r r' => second r.1 r'.1 r.2 r'.2

/-- What does not depend on the states can be assumed. -/
theorem of_pure {fact : Prop} (lockstep : fact → Lockstep pre x y mid) :
    Lockstep (fun s t => fact ∧ pre s t) x y mid :=
  fun s t before => lockstep before.1 s t before.2

end Lockstep
end KwHomework
