import Mathlib.Data.Finset.Card
import Mathlib.Order.Interval.Finset.Nat
import CacheMoney.Found.RobinHood

/-!
# Robin Hood order is a canonical form

On a cycle with an empty slot, the number of entries that belong to each home determines which
slots are occupied and at which distance.

Let `height i` be `0` for an empty slot and the distance plus one otherwise. The order says that
the height grows by at most one from a slot to the next. For a slot `s`, the slots `s + k` with
`k < height (s + k)` are those whose entry belongs to `s` or to a home before it, so they are an
interval: its length `r` is the *overflow* at `s` (`exists_overflow`).

* `overflow_succ`: the overflow at the next slot is that of a queue which gains the entries of the
  next home and loses one: `r' + 1 = homeCount + max r 1`.
* `Ordered.canonical`: two such queues with equal arrivals keep their order; where the longer one
  is empty they meet, and from there on they are equal, all the way round the cycle.
-/

namespace CacheMoney.Found.RobinHood

variable {n : ℕ} {dib dib' : ℕ → Option ℕ}

/-- Zero for an empty slot, the distance plus one for an entry.
Source: none
Kind: D -/
def height (dib : ℕ → Option ℕ) (i : ℕ) : ℕ := (dib i).elim 0 (· + 1)

/-- How many entries have home `h`.
Source: none
Kind: D -/
def homeCount (n : ℕ) (dib : ℕ → Option ℕ) (h : ℕ) : ℕ :=
  ((Finset.range n).filter fun m => dib ((h + m) % n) = some m).card

/-- The height is zero at the empty slots only.
Source: none
Kind: L -/
theorem height_eq_zero_iff {i : ℕ} : height dib i = 0 ↔ dib i = none := by
  unfold height
  cases dib i <;> simp

/-- Elsewhere the height is the distance plus one.
Source: none
Kind: L -/
theorem height_eq_succ_iff {i d : ℕ} : height dib i = d + 1 ↔ dib i = some d := by
  unfold height
  cases dib i <;> simp

/-- Heights determine distances.
Source: none
Kind: L -/
theorem eq_of_height_eq {i : ℕ} (h : height dib i = height dib' i) : dib i = dib' i := by
  cases hd : dib i with
  | none => exact (height_eq_zero_iff.mp (h ▸ height_eq_zero_iff.mpr hd)).symm
  | some d => exact (height_eq_succ_iff.mp (h ▸ height_eq_succ_iff.mpr hd)).symm

/-- From a slot to the next one the height grows by at most one.
Source: none
Kind: L -/
theorem Ordered.height_succ_le (hO : Ordered n dib) {i : ℕ} (hi : i < n) :
    height dib ((i + 1) % n) ≤ height dib i + 1 := by
  by_cases hsmall : height dib ((i + 1) % n) ≤ 1
  · omega
  · obtain ⟨d, hd⟩ : ∃ d, height dib ((i + 1) % n) = d + 1 + 1 :=
      ⟨height dib ((i + 1) % n) - 2, by omega⟩
    obtain ⟨e, he, hde⟩ := hO i hi d (height_eq_succ_iff.mp hd)
    rw [hd, height_eq_succ_iff.mpr he]
    omega

/-! ### Overflow -/

/-- Beyond the overflow there is no entry of this home or an earlier one.
Source: none
Kind: L -/
theorem Ordered.clear_succ (hO : Ordered n dib) (hn : 0 < n) {s k : ℕ}
    (h : height dib ((s + k) % n) ≤ k) : height dib ((s + (k + 1)) % n) ≤ k + 1 := by
  have hstep := hO.height_succ_le (Nat.mod_lt (s + k) hn)
  rw [step_mod] at hstep
  omega

/-- The overflow at a slot.
Source: none
Kind: L -/
theorem Ordered.exists_overflow (hO : Ordered n dib) (hn : 0 < n) (hlow : ∀ i, height dib i ≤ n)
    (s : ℕ) : ∃ r, ∀ k, height dib ((s + k) % n) ≤ k ↔ r ≤ k := by
  have hex : ∃ k, height dib ((s + k) % n) ≤ k := ⟨n, hlow _⟩
  refine ⟨Nat.find hex, fun k => ⟨fun hk => Nat.find_min' hex hk, fun hk => ?_⟩⟩
  induction k, hk using Nat.le_induction with
  | base => exact Nat.find_spec hex
  | succ k _ ih => exact hO.clear_succ hn ih

/-- The queue: the overflow gains the entries of the next home and loses one.
Source: none
Kind: L -/
theorem overflow_succ (hlow : ∀ i, height dib i ≤ n) {s a b : ℕ}
    (ha : ∀ k, height dib ((s + k) % n) ≤ k ↔ a ≤ k)
    (hb : ∀ k, height dib ((s + 1 + k) % n) ≤ k ↔ b ≤ k) :
    b + 1 = homeCount n dib (s + 1) + max a 1 := by
  have hbn : b ≤ n := (hb n).mp (hlow _)
  have hab : a ≤ b + 1 := by
    refine (ha (b + 1)).mp ?_
    have hclear := (hb b).mpr le_rfl
    rw [show s + (b + 1) = s + 1 + b by omega]
    omega
  have hset : ((Finset.range n).filter fun m => dib ((s + 1 + m) % n) = some m) =
      Finset.Ico (a - 1) b := by
    ext m
    have hma := ha (m + 1)
    have hmb := hb m
    rw [show s + (m + 1) = s + 1 + m by omega] at hma
    rw [Finset.mem_filter, Finset.mem_range, Finset.mem_Ico, ← height_eq_succ_iff]
    omega
  unfold homeCount
  rw [hset, Nat.card_Ico]
  omega

/-! ### Two tables -/

/-- Queues with equal arrivals keep their order.
Source: none
Kind: L -/
theorem queue_le {arrivals r r' : ℕ → ℕ}
    (hr : ∀ s, r (s + 1) + 1 = arrivals (s + 1) + max (r s) 1)
    (hr' : ∀ s, r' (s + 1) + 1 = arrivals (s + 1) + max (r' s) 1) {s₀ : ℕ} (h : r s₀ ≤ r' s₀) :
    ∀ s, s₀ ≤ s → r s ≤ r' s := by
  intro s hs
  induction s, hs using Nat.le_induction with
  | base => exact h
  | succ s _ ih =>
      have h₁ := hr s
      have h₂ := hr' s
      omega

/-- Queues with equal arrivals on a cycle are equal, if the longer one is empty at some point.
Source: none
Kind: L -/
theorem queue_eq {arrivals r r' : ℕ → ℕ}
    (hr : ∀ s, r (s + 1) + 1 = arrivals (s + 1) + max (r s) 1)
    (hr' : ∀ s, r' (s + 1) + 1 = arrivals (s + 1) + max (r' s) 1)
    (hcycle : ∀ s, r (s + n) = r s) (hcycle' : ∀ s, r' (s + n) = r' s) {j : ℕ} (hj : j < n)
    (hempty : r' j = 0) (h : r 0 ≤ r' 0) (s : ℕ) : r s = r' s := by
  have hmeet : r j = r' j := by
    have := queue_le hr hr' h j (Nat.zero_le j)
    omega
  have hlate : ∀ s, j ≤ s → r s = r' s := fun s hs =>
    le_antisymm (queue_le hr hr' hmeet.le s hs) (queue_le hr' hr hmeet.ge s hs)
  rw [← hcycle s, ← hcycle' s]
  exact hlate (s + n) (by omega)

/-- **Robin Hood order is canonical**: with an empty slot, the home counts determine the table.
Source: none
Kind: P -/
theorem Ordered.canonical (hO : Ordered n dib) (hO' : Ordered n dib')
    (hlow : ∀ i, height dib i ≤ n) (hlow' : ∀ i, height dib' i ≤ n)
    (hempty : ∃ j < n, dib j = none) (hempty' : ∃ j < n, dib' j = none)
    (hhomes : ∀ h, homeCount n dib h = homeCount n dib' h) : ∀ i < n, dib i = dib' i := by
  obtain ⟨j, hj, hdj⟩ := hempty
  obtain ⟨j', hj', hdj'⟩ := hempty'
  have hn : 0 < n := by omega
  choose r hr using hO.exists_overflow hn hlow
  choose r' hr' using hO'.exists_overflow hn hlow'
  have hqueue : ∀ s, r (s + 1) + 1 = homeCount n dib (s + 1) + max (r s) 1 :=
    fun s => overflow_succ hlow (hr s) (hr (s + 1))
  have hqueue' : ∀ s, r' (s + 1) + 1 = homeCount n dib (s + 1) + max (r' s) 1 :=
    fun s => hhomes (s + 1) ▸ overflow_succ hlow' (hr' s) (hr' (s + 1))
  -- The overflow depends on the slot only, and is zero at an empty one.
  have hperiod : ∀ {f : ℕ → Option ℕ} {q : ℕ → ℕ},
      (∀ s k, height f ((s + k) % n) ≤ k ↔ q s ≤ k) → ∀ s, q (s + n) = q s := by
    intro f q hq s
    apply le_antisymm
    · refine (hq (s + n) _).mp ?_
      rw [show s + n + q s = s + q s + n by omega, Nat.add_mod_right]
      exact (hq s _).mpr le_rfl
    · refine (hq s _).mp ?_
      rw [← Nat.add_mod_right, show s + q (s + n) + n = s + n + q (s + n) by omega]
      exact (hq (s + n) _).mpr le_rfl
  have hzero : ∀ {f : ℕ → Option ℕ} {q : ℕ → ℕ} {i : ℕ},
      (∀ s k, height f ((s + k) % n) ≤ k ↔ q s ≤ k) → i < n → f i = none → q i = 0 := by
    intro f q i hq hi hf
    refine Nat.le_zero.mp ((hq i 0).mp ?_)
    rw [Nat.add_zero, Nat.mod_eq_of_lt hi, height_eq_zero_iff.mpr hf]
  have hsame : ∀ s, r s = r' s := by
    rcases Nat.le_total (r 0) (r' 0) with hle | hle
    · exact queue_eq hqueue hqueue' (hperiod hr) (hperiod hr') hj' (hzero hr' hj' hdj') hle
    · intro s
      exact (queue_eq hqueue' hqueue (hperiod hr') (hperiod hr) hj (hzero hr hj hdj) hle s).symm
  intro i hi
  have hle : ∀ k, height dib i ≤ k ↔ height dib' i ≤ k := by
    intro k
    obtain ⟨s, -, hs⟩ := exists_reach hi k
    rw [← hs, Nat.add_comm k s, hr s k, hr' s k, hsame s]
  exact eq_of_height_eq (le_antisymm ((hle _).mpr le_rfl) ((hle _).mp le_rfl))

end CacheMoney.Found.RobinHood
