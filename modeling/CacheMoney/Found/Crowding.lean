import Mathlib.Data.Finset.Card
import Mathlib.Data.Finset.Range
import Mathlib.Data.Multiset.Filter
import Mathlib.Order.Nat
import CacheMoney.Found.RobinHood

/-!
# How crowded a Robin Hood table can be

Values with homes on a cycle of `n` slots. `Spread n slack H` says that no stretch of the cycle is
the home of more values than it has slots, `slack` apart.

* `spread_of_nodup`, `Spread.dvd`, `Spread.mono`: distinct values below `n` are spread, and values
  that are spread stay so on a longer cycle and when some are dropped.
* `Ordered.crowded`: a probe that has gone `c` steps shows a stretch that is the home of all the
  entries from its beginning to the probe. So on values spread with slack `s` no probe goes
  farther than `s`.
-/

namespace CacheMoney.Found.RobinHood

/-! ### Spread values -/

/-- The home of `x` is one of the `L` slots from `a` on.
Source: none
Kind: D -/
def InWindow (n a L x : ℕ) : Prop := ∃ k < L, (a + k) % n = x % n

instance (n a L : ℕ) : DecidablePred (InWindow n a L) := fun x =>
  inferInstanceAs (Decidable (∃ k < L, (a + k) % n = x % n))

/-- No `L` slots in a row are the homes of more than `L + slack` values.
Source: none
Kind: D -/
def Spread (n slack : ℕ) (H : Multiset ℕ) : Prop :=
  ∀ a L, H.countP (InWindow n a L) ≤ L + slack

variable {n m slack slack' : ℕ} {H H' : Multiset ℕ}

/-- Fewer homes are as well spread.
Source: none
Kind: L -/
theorem Spread.mono (h : Spread n slack H) (hle : H' ≤ H) : Spread n slack H' := fun a L =>
  (Multiset.countP_le_of_le _ hle).trans (h a L)

/-- What is spread within a slack is spread within a larger one.
Source: none
Kind: L -/
theorem Spread.slack_mono (h : Spread n slack H) (hle : slack ≤ slack') : Spread n slack' H :=
  fun a L => (h a L).trans (Nat.add_le_add_left hle L)

/-- One more value uses one of the slack.
Source: none
Kind: L -/
theorem Spread.cons (h : Spread n slack H) (x : ℕ) : Spread n (slack + 1) (x ::ₘ H) := by
  intro a L
  have hle := h a L
  rw [Multiset.countP_cons]
  split_ifs <;> omega

/-- On a longer cycle the same values are spread at least as well.
Source: none
Kind: L -/
theorem Spread.dvd (h : Spread n slack H) (hdvd : n ∣ m) : Spread m slack H := by
  intro a L
  refine le_trans ?_ (h a L)
  rw [Multiset.countP_eq_card_filter, Multiset.countP_eq_card_filter]
  apply Multiset.card_le_card
  apply Multiset.monotone_filter_right
  rintro x ⟨k, hk, hx⟩
  refine ⟨k, hk, ?_⟩
  rw [← Nat.mod_mod_of_dvd (a + k) hdvd, hx, Nat.mod_mod_of_dvd x hdvd]

/-- Distinct values, each its own home.
Source: none
Kind: L -/
theorem spread_of_nodup (hnd : H.Nodup) (hlt : ∀ x ∈ H, x < n) : Spread n 0 H := by
  intro a L
  -- The values of the window are among its `L` slots.
  have hsub : (⟨H.filter (InWindow n a L), hnd.filter _⟩ : Finset ℕ) ⊆
      (Finset.range L).image fun k => (a + k) % n := by
    intro x hx
    obtain ⟨hmem, k, hk, heq⟩ := Multiset.mem_filter.mp hx
    refine Finset.mem_image.mpr ⟨k, Finset.mem_range.mpr hk, ?_⟩
    rw [heq, Nat.mod_eq_of_lt (hlt x hmem)]
  have hcard := (Finset.card_le_card hsub).trans Finset.card_image_le
  rw [Finset.card_range] at hcard
  rw [Multiset.countP_eq_card_filter]
  exact hcard

/-! ### Long probes -/

variable {dib : ℕ → Option ℕ}

/-- Nothing is pushed over an empty slot.
Source: none
Kind: L -/
theorem Ordered.le_of_empty (hO : Ordered n dib) {j i e : ℕ} (hj : j < n) (hempty : dib j = none)
    (he : dib ((j + 1 + i) % n) = some e) : e ≤ i := by
  by_contra hgt
  have hpos : dib ((j + (i + 1)) % n) = some e := by
    rw [show j + (i + 1) = j + 1 + i by omega]
    exact he
  obtain ⟨e', he', -⟩ := hO.chain (by omega) j hpos (by omega) 0 (by omega)
  rw [Nat.add_zero, Nat.mod_eq_of_lt hj, hempty] at he'
  cases he'

/-- The nearest empty slot before a home.
Source: none
Kind: L -/
theorem exists_nearest_empty {h j : ℕ} (hh : h < n) (hj : j < n) (hempty : dib j = none) :
    ∃ j k, j < n ∧ dib j = none ∧ (j + k) % n = h ∧
      ∀ i, 0 < i → i < k → dib ((j + i) % n) ≠ none := by
  classical
  have hex : ∃ k j, j < n ∧ dib j = none ∧ (j + k) % n = h := by
    obtain ⟨k, -, hk⟩ := exists_reach hh j
    exact ⟨k, j, hj, hempty, hk⟩
  obtain ⟨j', hj', hempty', hreach⟩ := Nat.find_spec hex
  refine ⟨j', Nat.find hex, hj', hempty', hreach, ?_⟩
  intro i hpos hi hnone
  refine Nat.find_min hex (m := Nat.find hex - i) (by omega) ⟨(j' + i) % n, ?_, hnone, ?_⟩
  · exact Nat.mod_lt _ (by omega)
  · rw [Nat.mod_add_mod, show j' + i + (Nat.find hex - i) = j' + Nat.find hex by omega]
    exact hreach

/-- **A long probe shows a crowded stretch.** A probe has gone `c` steps from home `h`, and some
slot is empty. Then for some `l` the `l + 1` slots that end at `h` are the homes of the entries of
`l + c` different slots.
Source: none
Kind: P -/
theorem Ordered.crowded (hO : Ordered n dib) {h c j : ℕ} (hh : h < n) (hp : Pushed n dib h c)
    (hc : 0 < c) (hj : j < n) (hempty : dib j = none) :
    ∃ a l, (a + l) % n = h ∧ l + c ≤ n ∧
      ∀ i < l + c, ∃ e, dib ((a + i) % n) = some e ∧ e ≤ i ∧ i ≤ l + e := by
  obtain ⟨j, k, hj, hempty, hreach, hfull⟩ := exists_nearest_empty hh hj hempty
  have hk : k ≠ 0 := by
    rintro rfl
    obtain ⟨e, he, -⟩ := hp 0 hc
    rw [Nat.add_zero, Nat.mod_eq_of_lt hj] at hreach
    rw [Nat.add_zero, Nat.mod_eq_of_lt hh, ← hreach, hempty] at he
    cases he
  obtain ⟨l, rfl⟩ := Nat.exists_eq_succ_of_ne_zero hk
  -- Up to the home the slots are occupied by minimality, from the home on by the probe.
  have hocc : ∀ i < l + c, ∃ e, dib ((j + 1 + i) % n) = some e ∧ i ≤ l + e := by
    intro i hi
    by_cases hil : i < l
    · obtain ⟨e, he⟩ := Option.ne_none_iff_exists'.mp (hfull (1 + i) (by omega) (by omega))
      exact ⟨e, by rw [Nat.add_assoc]; exact he, by omega⟩
    · obtain ⟨e, he, hle⟩ := hp (i - l) (by omega)
      refine ⟨e, ?_, by omega⟩
      rw [← hreach, Nat.mod_add_mod, show j + l.succ + (i - l) = j + 1 + i by omega] at he
      exact he
  refine ⟨j + 1, l, ?_, ?_, ?_⟩
  · rw [← hreach]
    congr 1
    omega
  · -- One step farther the stretch would come back to the empty slot.
    by_contra hgt
    obtain ⟨e, he, -⟩ := hocc (n - 1) (by omega)
    rw [show j + 1 + (n - 1) = j + n by omega, Nat.add_mod_right, Nat.mod_eq_of_lt hj,
      hempty] at he
    cases he
  · intro i hi
    obtain ⟨e, he, hle⟩ := hocc i hi
    exact ⟨e, he, hO.le_of_empty hj hempty he, hle⟩

end CacheMoney.Found.RobinHood
