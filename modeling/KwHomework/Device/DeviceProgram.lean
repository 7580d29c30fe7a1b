import Mathlib.Logic.Function.Basic

/-!
# Programs over a block device

A `DeviceProgram` reads and writes the cells of a device without saying what the device is.  A
`Backend` runs it.  Over a backend that simulates another one every program gives the same result,
so what is proved about a program over the flat store holds over any device that implements it.
-/

namespace KwHomework

open Function

/-- A program over a device with cells `D` at addresses `A`; `fault` is undefined behaviour. -/
inductive DeviceProgram (A D : Type) (α : Type) where
  | done (result : α)
  | fault
  | read (addr : A) (next : D → DeviceProgram A D α)
  | write (addr : A) (data : D) (next : DeviceProgram A D α)
  | flush (next : DeviceProgram A D α)

/-- A device with states `σ`; `none` is a fault. -/
structure Backend (A D σ : Type) where
  /-- Contents of one cell. -/
  read : σ → A → Option (D × σ)
  /-- Overwrite one cell. -/
  write : σ → A → D → Option σ
  /-- Make earlier writes durable. -/
  flush : σ → Option σ

namespace DeviceProgram

variable {A D α β σ τ : Type}

/-- Sequential composition. -/
def bind : DeviceProgram A D α → (α → DeviceProgram A D β) → DeviceProgram A D β
  | .done result, next => next result
  | .fault, _ => .fault
  | .read addr rest, next => .read addr fun data => (rest data).bind next
  | .write addr data rest, next => .write addr data (rest.bind next)
  | .flush rest, next => .flush (rest.bind next)

instance : Monad (DeviceProgram A D) where
  pure := .done
  bind := bind

/-- Execute a program on a device. -/
def run (dev : Backend A D σ) : DeviceProgram A D α → σ → Option (α × σ)
  | .done result, s => some (result, s)
  | .fault, _ => none
  | .read addr next, s => (dev.read s addr).bind fun r => (next r.1).run dev r.2
  | .write addr data next, s => (dev.write s addr data).bind fun s' => next.run dev s'
  | .flush next, s => (dev.flush s).bind fun s' => next.run dev s'

@[simp] theorem run_pure (dev : Backend A D σ) (result : α) (s : σ) :
    (pure result : DeviceProgram A D α).run dev s = some (result, s) := rfl

@[simp] theorem run_fault (dev : Backend A D σ) (s : σ) :
    (fault : DeviceProgram A D α).run dev s = none := rfl

@[simp] theorem run_bind (dev : Backend A D σ) (p : DeviceProgram A D α)
    (next : α → DeviceProgram A D β) (s : σ) :
    (p >>= next).run dev s = (p.run dev s).bind fun r => (next r.1).run dev r.2 := by
  change (p.bind next).run dev s = _
  induction p generalizing s with
  | done result => rfl
  | fault => rfl
  | read addr rest induction =>
      cases answer : dev.read s addr with
      | none => simp [bind, run, answer]
      | some r => simp [bind, run, answer, induction]
  | write addr data rest induction =>
      cases answer : dev.write s addr data with
      | none => simp [bind, run, answer]
      | some s' => simp [bind, run, answer, induction]
  | flush rest induction =>
      cases answer : dev.flush s with
      | none => simp [bind, run, answer]
      | some s' => simp [bind, run, answer, induction]

end DeviceProgram

namespace Backend

open DeviceProgram

variable {A D α σ τ : Type}

/-- Every successful operation of `spec` is matched by `impl`. -/
structure Simulates (impl : Backend A D σ) (spec : Backend A D τ) (R : σ → τ → Prop) : Prop where
  read : ∀ {s t addr data t'}, R s t → spec.read t addr = some (data, t') →
    ∃ s', impl.read s addr = some (data, s') ∧ R s' t'
  write : ∀ {s t addr data t'}, R s t → spec.write t addr data = some t' →
    ∃ s', impl.write s addr data = some s' ∧ R s' t'
  flush : ∀ {s t t'}, R s t → spec.flush t = some t' → ∃ s', impl.flush s = some s' ∧ R s' t'

/-- A program that succeeds on the simulated device gives the same result on the other one. -/
theorem Simulates.run {impl : Backend A D σ} {spec : Backend A D τ} {R : σ → τ → Prop}
    (sim : impl.Simulates spec R) (p : DeviceProgram A D α) {s : σ} {t t' : τ} {result : α}
    (related : R s t) (success : p.run spec t = some (result, t')) :
    ∃ s', p.run impl s = some (result, s') ∧ R s' t' := by
  induction p generalizing s t with
  | done value =>
      simp only [DeviceProgram.run, Option.some.injEq, Prod.mk.injEq] at success ⊢
      exact ⟨s, ⟨success.1, rfl⟩, success.2 ▸ related⟩
  | fault => simp [DeviceProgram.run] at success
  | read addr next induction =>
      obtain ⟨⟨data, t₁⟩, step, rest⟩ := Option.bind_eq_some_iff.mp success
      obtain ⟨s₁, step', related₁⟩ := sim.read related step
      obtain ⟨s', rest', related'⟩ := induction data related₁ rest
      exact ⟨s', by simp [DeviceProgram.run, step', rest'], related'⟩
  | write addr data next induction =>
      obtain ⟨t₁, step, rest⟩ := Option.bind_eq_some_iff.mp success
      obtain ⟨s₁, step', related₁⟩ := sim.write related step
      obtain ⟨s', rest', related'⟩ := induction related₁ rest
      exact ⟨s', by simp [DeviceProgram.run, step', rest'], related'⟩
  | flush next induction =>
      obtain ⟨t₁, step, rest⟩ := Option.bind_eq_some_iff.mp success
      obtain ⟨s₁, step', related₁⟩ := sim.flush related step
      obtain ⟨s', rest', related'⟩ := induction related₁ rest
      exact ⟨s', by simp [DeviceProgram.run, step', rest'], related'⟩

/-- The flat store, in which every valid address simply holds the last cell written there. -/
def flat (A D : Type) [DecidableEq A] (valid : A → Prop) [DecidablePred valid] :
    Backend A D (A → D) where
  read store addr := if valid addr then some (store addr, store) else none
  write store addr data := if valid addr then some (update store addr data) else none
  flush store := some store

end Backend
end KwHomework
