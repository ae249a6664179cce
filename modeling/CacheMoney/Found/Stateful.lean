import CacheMoney.Found.Outcome

/-!
# Refinement of stateful computations

Two computations with errors over different states, one more detailed than the other. `Refines ρ`
says that from states related by `ρ` both return the same value or fail with the same error, and
leave related states.

* The rules peel two computations of one shape apart: `Refines.bind`, `Refines.adaptExcept`.
* `Refines.results`: a sequence of calls, each made whatever the one before it returned, has the
  same results in both.
-/

namespace CacheMoney.Found

variable {ε ε' σ τ α β : Type}

/-- The same value or the same error, and related states.
Source: none
Kind: D -/
def SameResult (ρ : σ → τ → Prop) : EStateM.Result ε σ α → EStateM.Result ε τ α → Prop
  | .ok a s, .ok b t => a = b ∧ ρ s t
  | .error e s, .error f t => e = f ∧ ρ s t
  | _, _ => False

/-- Source: none
Kind: D -/
def Refines (ρ : σ → τ → Prop) (x : EStateM ε σ α) (y : EStateM ε τ α) : Prop :=
  ∀ s t, ρ s t → SameResult ρ (x s) (y t)

variable {ρ : σ → τ → Prop}

/-- Rule for a value.
Source: none
Kind: L -/
theorem refines_pure (a : α) : Refines ρ (pure a : EStateM ε σ α) (pure a) :=
  fun _ _ h => ⟨rfl, h⟩

/-- Rule for an error.
Source: none
Kind: L -/
theorem refines_throw (e : ε) : Refines ρ (throw e : EStateM ε σ α) (throw e) :=
  fun _ _ h => ⟨rfl, h⟩

/-- Sequencing.
Source: none
Kind: L -/
theorem Refines.bind {x : EStateM ε σ α} {y : EStateM ε τ α} {f : α → EStateM ε σ β}
    {g : α → EStateM ε τ β} (h : Refines ρ x y) (hf : ∀ a, Refines ρ (f a) (g a)) :
    Refines ρ (x >>= f) (y >>= g) := by
  intro s t hst
  have hxy := h s t hst
  change SameResult ρ (EStateM.bind x f s) (EStateM.bind y g t)
  unfold EStateM.bind
  match hx : x s, hy : y t, hxy with
  | .ok a s', .ok _ t', ⟨rfl, hst'⟩ => exact hf a s' t' hst'
  | .error e s', .error _ t', ⟨rfl, hst'⟩ => exact ⟨rfl, hst'⟩

/-- Rule for a translation of the errors.
Source: none
Kind: L -/
theorem Refines.adaptExcept {x : EStateM ε σ α} {y : EStateM ε τ α} (h : Refines ρ x y)
    (f : ε → ε') : Refines ρ (EStateM.adaptExcept f x) (EStateM.adaptExcept f y) := by
  intro s t hst
  have hxy := h s t hst
  unfold EStateM.adaptExcept
  match hx : x s, hy : y t, hxy with
  | .ok a s', .ok _ t', ⟨rfl, hst'⟩ => exact ⟨rfl, hst'⟩
  | .error e s', .error _ t', ⟨rfl, hst'⟩ => exact ⟨rfl, hst'⟩

/-! ### Calls in sequence -/

/-- What a call returned, with its error if it failed, and the state after it.
Source: none
Kind: D -/
def outcomeOf (x : EStateM ε σ α) (s : σ) : Except ε α × σ :=
  match x s with
  | .ok a s' => (.ok a, s')
  | .error e s' => (.error e, s')

/-- The results of `n` calls, one after the other.
Source: none
Kind: D -/
def results (x : EStateM ε σ α) : ℕ → σ → List (Except ε α)
  | 0, _ => []
  | n + 1, s => (outcomeOf x s).1 :: results x n (outcomeOf x s).2

/-- One call: the same outcome, and related states after it.
Source: none
Kind: L -/
theorem Refines.outcomeOf {x : EStateM ε σ α} {y : EStateM ε τ α} (h : Refines ρ x y) {s : σ}
    {t : τ} (hst : ρ s t) :
    (Found.outcomeOf x s).1 = (Found.outcomeOf y t).1 ∧
      ρ (Found.outcomeOf x s).2 (Found.outcomeOf y t).2 := by
  have hxy := h s t hst
  unfold Found.outcomeOf
  match hx : x s, hy : y t, hxy with
  | .ok a s', .ok _ t', ⟨rfl, hst'⟩ => exact ⟨rfl, hst'⟩
  | .error e s', .error _ t', ⟨rfl, hst'⟩ => exact ⟨rfl, hst'⟩

/-- Calls in sequence: the same outcomes.
Source: none
Kind: L -/
theorem Refines.results {x : EStateM ε σ α} {y : EStateM ε τ α} (h : Refines ρ x y) (n : ℕ) :
    ∀ {s : σ} {t : τ}, ρ s t → Found.results x n s = Found.results y n t := by
  induction n with
  | zero => exact fun _ => rfl
  | succ n ih =>
      intro s t hst
      obtain ⟨hres, hnext⟩ := h.outcomeOf hst
      rw [Found.results, Found.results, hres, ih hnext]

end CacheMoney.Found
