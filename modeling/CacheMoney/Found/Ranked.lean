import Mathlib.Data.Nat.Basic
import Mathlib.Logic.Relation

/-!
# Runs that come to rest

A step relation on a type of states, a set of states that the steps do not leave, and a number that
every step inside the set lowers.

* `length_le_rank`: no run from such a state is longer than its rank.
* `exists_rest`: such a state has a run that ends where no step is possible.
-/

namespace CacheMoney.Found

variable {α : Type} {R : α → α → Prop} {inside : α → Prop} {rank : α → ℕ}

/-- Along a run the rank pays for the steps.
Source: none
Kind: L -/
theorem rank_add_length_le (hstep : ∀ a b, inside a → R a b → inside b ∧ rank b < rank a) (n : ℕ)
    (f : ℕ → α) (hstart : inside (f 0)) (hf : ∀ i < n, R (f i) (f (i + 1))) :
    inside (f n) ∧ rank (f n) + n ≤ rank (f 0) := by
  induction n with
  | zero => exact ⟨hstart, le_rfl⟩
  | succ n ih =>
      obtain ⟨hin, hle⟩ := ih fun i hi => hf i (Nat.lt_succ_of_lt hi)
      obtain ⟨hin', hlt⟩ := hstep _ _ hin (hf n (Nat.lt_succ_self n))
      exact ⟨hin', by omega⟩

/-- Runs are no longer than the rank of their first state.
Source: none
Kind: L -/
theorem length_le_rank (hstep : ∀ a b, inside a → R a b → inside b ∧ rank b < rank a) (n : ℕ)
    (f : ℕ → α) (hstart : inside (f 0)) (hf : ∀ i < n, R (f i) (f (i + 1))) :
    n ≤ rank (f 0) :=
  le_trans (Nat.le_add_left n _) (rank_add_length_le hstep n f hstart hf).2

/-- A state of rest can be reached.
Source: none
Kind: L -/
theorem exists_rest (hstep : ∀ a b, inside a → R a b → inside b ∧ rank b < rank a) {a : α}
    (ha : inside a) : ∃ b, Relation.ReflTransGen R a b ∧ ∀ c, ¬R b c := by
  induction hr : rank a using Nat.strong_induction_on generalizing a with
  | _ r ih =>
      by_cases hrest : ∃ b, R a b
      · obtain ⟨b, hb⟩ := hrest
        obtain ⟨hin, hlt⟩ := hstep a b ha hb
        obtain ⟨c, hc, hstop⟩ := ih (rank b) (hr ▸ hlt) hin rfl
        exact ⟨c, .head hb hc, hstop⟩
      · exact ⟨a, .refl, fun b hb => hrest ⟨b, hb⟩⟩

end CacheMoney.Found
