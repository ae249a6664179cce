import Mathlib.Algebra.BigOperators.Group.Finset.Piecewise
import Mathlib.Algebra.BigOperators.Ring.Finset
import Mathlib.Algebra.Order.BigOperators.Group.Finset
import Mathlib.Data.Finset.Fold
import Mathlib.Data.Fintype.Basic
import Mathlib.Tactic.SplitIfs

/-!
# Count-min sketches with saturating counters

A table of counters with rows `ι` and columns `κ`. `index i f` is the column of item `f` in row
`i`; the estimate of an item is the least of its counters. Two ways to count an item:

* `plain` raises all its counters;
* `conservative` raises only those that are at the minimum.

Counters stop at `cap`, and all of them can be halved.

* `Covers`: the table never underestimates a reference count. `conservative` keeps it, because an
  item that shares a counter with the one counted only sees its own counters grow.
* `Dominated`: a conservative table stays below the plain one.
* `sum_conservative_le`, `sum_halve_le`: what counting and halving do to the sum of a row.
-/

set_option linter.unusedSectionVars false

namespace CacheMoney.Found.CountMin

variable {ι κ F : Type} [Fintype ι] (index : ι → F → κ) (cap : ℕ)

/-! ### The estimate -/

/-- The least counter of an item.
Source: none
Kind: D -/
def estimate (T : ι → κ → ℕ) (f : F) : ℕ := Finset.univ.fold min cap fun i => T i (index i f)

variable {index cap} in
/-- An estimate is at least `c` if every counter it reads is, and the cap.
Source: none
Kind: L -/
theorem le_estimate_iff {T : ι → κ → ℕ} {f : F} {c : ℕ} :
    c ≤ estimate index cap T f ↔ c ≤ cap ∧ ∀ i, c ≤ T i (index i f) := by
  unfold estimate
  rw [Finset.le_fold_min]
  simp only [Finset.mem_univ, true_implies]

/-- An estimate never exceeds the cap.
Source: none
Kind: L -/
theorem estimate_le_cap (T : ι → κ → ℕ) (f : F) : estimate index cap T f ≤ cap :=
  (le_estimate_iff.mp (Nat.le_refl _)).1

/-- An estimate never exceeds a counter it reads.
Source: none
Kind: L -/
theorem estimate_le (T : ι → κ → ℕ) (f : F) (i : ι) : estimate index cap T f ≤ T i (index i f) :=
  (le_estimate_iff.mp (Nat.le_refl _)).2 i

/-! ### Counting -/

variable [DecidableEq κ]

/-- Raise the counters of `f` that are at its minimum.
Source: none
Kind: D -/
def conservative (T : ι → κ → ℕ) (f : F) (i : ι) (j : κ) : ℕ :=
  if j = index i f ∧ T i j = estimate index cap T f ∧ T i j < cap then T i j + 1 else T i j

/-- Raise every counter of `f`.
Source: none
Kind: D -/
def plain (T : ι → κ → ℕ) (f : F) (i : ι) (j : κ) : ℕ :=
  if j = index i f then min cap (T i j + 1) else T i j

/-- Halve every counter.
Source: none
Kind: D -/
def halve (T : ι → κ → ℕ) (i : ι) (j : κ) : ℕ := T i j / 2

/-- The conservative update lowers no counter.
Source: none
Kind: L -/
theorem le_conservative (T : ι → κ → ℕ) (f : F) (i : ι) (j : κ) :
    T i j ≤ conservative index cap T f i j := by
  unfold conservative
  split_ifs <;> omega

/-- Counting an item lifts its minimum.
Source: none
Kind: L -/
theorem succ_estimate_le (T : ι → κ → ℕ) (f : F) (i : ι) :
    min cap (estimate index cap T f + 1) ≤ conservative index cap T f i (index i f) := by
  have hle := estimate_le index cap T f i
  unfold conservative
  -- A counter that is not raised is above the minimum already, or full.
  split_ifs with hlow
  · omega
  · by_cases hmin : T i (index i f) = estimate index cap T f
    · have hfull : ¬ T i (index i f) < cap := fun h => hlow ⟨rfl, hmin, h⟩
      omega
    · omega

/-! ### From below: a reference count -/

section reference

variable [DecidableEq F]

/-- Count an item in a reference that keeps one saturating counter per item.
Source: none
Kind: D -/
def tally (r : F → ℕ) (f : F) : F → ℕ := Function.update r f (min cap (r f + 1))

/-- No counter of an item is below its reference count.
Source: none
Kind: D -/
def Covers (T : ι → κ → ℕ) (r : F → ℕ) : Prop := ∀ f, r f ≤ estimate index cap T f

variable {index cap} {T : ι → κ → ℕ} {r : F → ℕ}

/-- Counting an item in the table alone keeps the cover.
Source: none
Kind: L -/
theorem Covers.conservative (h : Covers index cap T r) (g : F) :
    Covers index cap (conservative index cap T g) r := by
  intro f
  obtain ⟨hcap, hcounters⟩ := le_estimate_iff.mp (h f)
  exact le_estimate_iff.mpr
    ⟨hcap, fun i => (hcounters i).trans (le_conservative index cap T g i _)⟩

/-- So does counting it in both.
Source: none
Kind: L -/
theorem Covers.tally (h : Covers index cap T r) (g : F) :
    Covers index cap (CountMin.conservative index cap T g) (tally cap r g) := by
  intro f
  unfold CountMin.tally
  by_cases hfg : f = g
  · subst hfg
    rw [Function.update_self]
    have hf := h f
    refine le_estimate_iff.mpr ⟨Nat.min_le_left _ _, fun i => ?_⟩
    exact le_trans (by omega) (succ_estimate_le index cap T f i)
  · rw [Function.update_of_ne hfg]
    exact h.conservative g f

/-- Halved counters cover halved counts.
Source: none
Kind: L -/
theorem Covers.halve (h : Covers index cap T r) :
    Covers index cap (CountMin.halve T) fun f => r f / 2 := by
  intro f
  obtain ⟨hcap, hcounters⟩ := le_estimate_iff.mp (h f)
  exact le_estimate_iff.mpr
    ⟨(Nat.div_le_self _ _).trans hcap, fun i => Nat.div_le_div_right (hcounters i)⟩

end reference

/-! ### From above: the plain sketch -/

/-- A table in range and below another.
Source: none
Kind: D -/
def Dominated (T P : ι → κ → ℕ) : Prop := ∀ i j, T i j ≤ cap ∧ T i j ≤ P i j

section dominated

variable {index cap} {T P : ι → κ → ℕ}

/-- Against a plain update, the conservative one stays below.
Source: none
Kind: L -/
theorem Dominated.conservative (h : Dominated cap T P) (f : F) :
    Dominated cap (conservative index cap T f) (plain index cap P f) := by
  intro i j
  obtain ⟨hcap, hle⟩ := h i j
  unfold CountMin.conservative plain
  split_ifs with hlow hj hj
  · omega
  · exact absurd hlow.1 hj
  · omega
  · exact ⟨hcap, hle⟩

/-- Halving keeps one table below the other.
Source: none
Kind: L -/
theorem Dominated.halve (h : Dominated cap T P) : Dominated cap (halve T) (halve P) := by
  intro i j
  obtain ⟨hcap, hle⟩ := h i j
  exact ⟨(Nat.div_le_self _ _).trans hcap, Nat.div_le_div_right hle⟩

/-- Estimates of the lower table are lower.
Source: none
Kind: L -/
theorem Dominated.estimate_le (h : Dominated cap T P) (f : F) :
    estimate index cap T f ≤ estimate index cap P f :=
  le_estimate_iff.mpr ⟨estimate_le_cap index cap T f,
    fun i => (CountMin.estimate_le index cap T f i).trans (h i (index i f)).2⟩

end dominated

/-! ### Row sums -/

/-- An item counted adds at most one to a row.
Source: none
Kind: L -/
theorem sum_conservative_le (T : ι → κ → ℕ) (f : F) (i : ι) (columns : Finset κ) :
    ∑ j ∈ columns, conservative index cap T f i j ≤ ∑ j ∈ columns, T i j + 1 := by
  have hcounter : ∀ j, conservative index cap T f i j ≤ T i j + if j = index i f then 1 else 0 := by
    intro j
    unfold conservative
    split_ifs with hlow hj hj
    · exact Nat.le_refl _
    · exact absurd hlow.1 hj
    · omega
    · exact Nat.le_refl _
  calc ∑ j ∈ columns, conservative index cap T f i j
      ≤ ∑ j ∈ columns, (T i j + if j = index i f then 1 else 0) :=
        Finset.sum_le_sum fun j _ => hcounter j
    _ = ∑ j ∈ columns, T i j + if index i f ∈ columns then 1 else 0 := by
        rw [Finset.sum_add_distrib, Finset.sum_ite_eq']
    _ ≤ ∑ j ∈ columns, T i j + 1 := by split_ifs <;> omega

/-- Halving the counters halves every row, at least.
Source: none
Kind: L -/
theorem sum_halve_le (T : ι → κ → ℕ) (i : ι) (columns : Finset κ) :
    2 * ∑ j ∈ columns, halve T i j ≤ ∑ j ∈ columns, T i j := by
  rw [Finset.mul_sum]
  exact Finset.sum_le_sum fun j _ => Nat.mul_div_le (T i j) 2

end CacheMoney.Found.CountMin
