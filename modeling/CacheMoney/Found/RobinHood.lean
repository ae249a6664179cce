import Mathlib.Data.Nat.Init
import Mathlib.Data.Nat.ModEq
import Mathlib.Logic.Function.Basic

/-!
# Robin Hood order on a cyclic array

An open-addressing table, seen from outside: `n` slots on a cycle, each empty (`none`) or
holding an entry that sits `d` steps after its home bucket (`some d`, its *distance to initial
bucket*). Nothing is said about keys, values or hashes.

* `Ordered n dib`: an entry at distance `d + 1` has an occupied predecessor at distance at
  least `d`. This is the whole Robin Hood invariant.
* `Pushed n dib h c`: a probe that started at home `h` and has made `c` steps went past
  occupied slots only, none of them nearer its own home than the probe was at that point.
* `Ordered.chain`: the invariant gives the early exit. Every slot between the home of an entry
  and the entry is occupied, at a distance no smaller than the probe's.
* `Ordered.raise` (place or rob), `Ordered.pull` (one backward shift) and `Ordered.vacate`
  (empty the tail) are the three ways a table changes, and each keeps the order.
-/

namespace CacheMoney.Found.RobinHood

variable {n : ℕ} {dib : ℕ → Option ℕ}

/-! ### Positions on the cycle -/

/-- One step further round a cycle.
Source: none
Kind: L -/
theorem step_mod (h c n : ℕ) : ((h + c) % n + 1) % n = (h + (c + 1)) % n := by
  rw [Nat.mod_add_mod, Nat.add_assoc]

/-- Two slots with one successor are one slot.
Source: none
Kind: L -/
theorem eq_of_step_eq {i j : ℕ} (hi : i < n) (hj : j < n)
    (h : (i + 1) % n = (j + 1) % n) : i = j := by
  have h' : i ≡ j [MOD n] := Nat.ModEq.add_right_cancel' 1 h
  exact Nat.ModEq.eq_of_lt_of_lt h' hi hj

/-- With two slots or more, no slot is its own successor.
Source: none
Kind: L -/
theorem step_ne_self {i : ℕ} (hn : 2 ≤ n) (hi : i < n) : (i + 1) % n ≠ i := by
  by_cases hlast : i + 1 = n
  · rw [hlast, Nat.mod_self]
    omega
  · rw [Nat.mod_eq_of_lt (by omega)]
    omega

/-- Every slot is reached from any home in fewer than `n` steps.
Source: none
Kind: L -/
theorem exists_reach {j : ℕ} (hj : j < n) (h : ℕ) : ∃ k < n, (h + k) % n = j := by
  have hn : 0 < n := by omega
  have hlt : h % n < n := Nat.mod_lt h hn
  refine ⟨(j + (n - h % n)) % n, Nat.mod_lt _ hn, ?_⟩
  rw [Nat.add_mod_mod, ← Nat.mod_add_mod]
  have hsum : h % n + (j + (n - h % n)) = j + n := by omega
  rw [hsum, Nat.add_mod_right, Nat.mod_eq_of_lt hj]

/-- The steps from a home to a slot are determined below `n`.
Source: none
Kind: L -/
theorem reach_unique {h k l : ℕ} (hk : k < n) (hl : l < n)
    (heq : (h + k) % n = (h + l) % n) : k = l := by
  have h' : k ≡ l [MOD n] := Nat.ModEq.add_left_cancel' h heq
  exact Nat.ModEq.eq_of_lt_of_lt h' hk hl

/-- The number of steps from a home to a slot is the cyclic displacement between them.
Source: none
Kind: L -/
theorem displacement_eq {h c : ℕ} (hh : h < n) (hc : c < n) :
    ((h + c) % n + n - h) % n = c := by
  by_cases hlt : h + c < n
  · rw [Nat.mod_eq_of_lt hlt]
    have : h + c + n - h = c + n := by omega
    rw [this, Nat.add_mod_right, Nat.mod_eq_of_lt hc]
  · have hmod : (h + c) % n = h + c - n := by
      rw [Nat.mod_eq_sub_mod (by omega), Nat.mod_eq_of_lt (by omega)]
    rw [hmod]
    have : h + c - n + n - h = c := by omega
    rw [this, Nat.mod_eq_of_lt hc]

/-! ### The invariant and the probe -/

/-- The Robin Hood order: going back one slot loses at most one step of distance.
Source: none
Kind: D -/
def Ordered (n : ℕ) (dib : ℕ → Option ℕ) : Prop :=
  ∀ i < n, ∀ d, dib ((i + 1) % n) = some (d + 1) → ∃ e, dib i = some e ∧ d ≤ e

/-- A probe from home `h` has passed `c` slots without finding an empty or a richer one.
Source: none
Kind: D -/
def Pushed (n : ℕ) (dib : ℕ → Option ℕ) (h c : ℕ) : Prop :=
  ∀ k < c, ∃ e, dib ((h + k) % n) = some e ∧ k ≤ e

/-- An empty table is ordered.
Source: none
Kind: L -/
theorem ordered_of_empty (hnone : ∀ i, dib i = none) : Ordered n dib := by
  intro i _ d hd
  rw [hnone] at hd
  cases hd

/-- Nothing is pushed by a run of no slots.
Source: none
Kind: L -/
theorem pushed_zero (h : ℕ) : Pushed n dib h 0 := fun k hk => absurd hk (Nat.not_lt_zero k)

/-- Passing one more slot that is not richer than the probe.
Source: none
Kind: L -/
theorem Pushed.step {h c e : ℕ} (hp : Pushed n dib h c) (he : dib ((h + c) % n) = some e)
    (hce : c ≤ e) : Pushed n dib h (c + 1) := by
  intro k hk
  rcases Nat.lt_succ_iff_lt_or_eq.mp hk with hlt | rfl
  · exact hp k hlt
  · exact ⟨e, he, hce⟩

/-- The early-exit invariant: between a home and an entry at distance at least `d` there is
no empty slot, and slot `k` holds an entry at distance at least `k`.
Source: none
Kind: P -/
theorem Ordered.chain (hO : Ordered n dib) (hn : 0 < n) (h : ℕ) :
    ∀ {d e : ℕ}, dib ((h + d) % n) = some e → d ≤ e → Pushed n dib h (d + 1)
  | 0, e, he, hde => (pushed_zero h).step he hde
  | d + 1, e, he, hde => by
      -- The entry at distance `e = e' + 1 > d` has a predecessor at distance at least `d`.
      obtain ⟨e', rfl⟩ : ∃ e', e = e' + 1 := ⟨e - 1, by omega⟩
      have hpred := hO ((h + d) % n) (Nat.mod_lt _ hn) e' (by rw [step_mod]; exact he)
      obtain ⟨a, ha, hea⟩ := hpred
      have hprev : Pushed n dib h (d + 1) := Ordered.chain hO hn h ha (by omega)
      exact hprev.step he hde

/-- A probe cannot go all the way round a table that has an empty slot.
Source: none
Kind: L -/
theorem Pushed.lt_of_empty {h c j : ℕ} (hp : Pushed n dib h c) (hj : j < n)
    (hempty : dib j = none) : c < n := by
  by_contra hge
  obtain ⟨k, hk, hkj⟩ := exists_reach hj h
  obtain ⟨e, he, -⟩ := hp k (by omega)
  rw [hkj, hempty] at he
  cases he

/-- Raising distances does not disturb a probe.
Source: none
Kind: L -/
theorem Pushed.update {h c p v : ℕ} (hp : Pushed n dib h c)
    (hle : ∀ r, dib p = some r → r ≤ v) : Pushed n (Function.update dib p (some v)) h c := by
  intro k hk
  obtain ⟨e, he, hke⟩ := hp k hk
  by_cases hkp : (h + k) % n = p
  · refine ⟨v, by rw [hkp, Function.update_self], ?_⟩
    rw [hkp] at he
    exact hke.trans (hle e he)
  · exact ⟨e, by rw [Function.update_of_ne hkp]; exact he, hke⟩

/-! ### The three updates -/

/-- Writing the probing entry into the slot it has reached (an empty one, or one whose
resident is no farther from home) keeps the order.
Source: none
Kind: P -/
theorem Ordered.raise (hO : Ordered n dib) (hn : 2 ≤ n) {h c p : ℕ} (hp : Pushed n dib h c)
    (hpos : (h + c) % n = p) (hle : ∀ r, dib p = some r → r ≤ c) :
    Ordered n (Function.update dib p (some c)) := by
  intro i hi d hd
  by_cases hsucc : (i + 1) % n = p
  · -- `i` precedes the written slot: the probe passed it at step `c - 1`.
    have hip : i ≠ p := by
      intro hip
      exact step_ne_self hn hi (hsucc.trans hip.symm)
    rw [hsucc, Function.update_self] at hd
    have hcd : c = d + 1 := Option.some.inj hd
    have hid : i = (h + d) % n := by
      apply eq_of_step_eq hi (Nat.mod_lt _ (by omega))
      rw [hsucc, step_mod, ← hcd, hpos]
    obtain ⟨e, he, hde⟩ := hp d (by omega)
    exact ⟨e, by rw [Function.update_of_ne hip, hid]; exact he, hde⟩
  · rw [Function.update_of_ne hsucc] at hd
    obtain ⟨e, he, hde⟩ := hO i hi d hd
    by_cases hip : i = p
    · subst hip
      exact ⟨c, Function.update_self .., hde.trans (hle e he)⟩
    · exact ⟨e, by rw [Function.update_of_ne hip]; exact he, hde⟩

/-- One backward shift: the successor's entry, one step nearer its home, over slot `i`.
Source: none
Kind: P -/
theorem Ordered.pull (hO : Ordered n dib) (hn : 2 ≤ n) {i d : ℕ} (hi : i < n)
    (hsucc : dib ((i + 1) % n) = some (d + 1)) :
    Ordered n (Function.update dib i (some d)) := by
  obtain ⟨a, ha, hda⟩ := hO i hi d hsucc
  intro j hj c hc
  by_cases hji : j = i
  · subst hji
    have hne := step_ne_self hn hj
    rw [Function.update_of_ne hne, hsucc] at hc
    have hcd : d = c := by simpa using hc
    exact ⟨d, Function.update_self .., by omega⟩
  · by_cases hpre : (j + 1) % n = i
    · -- `j` precedes the hole, whose old distance `a` was at least the new one.
      rw [hpre, Function.update_self] at hc
      have hdc : d = c + 1 := by simpa using hc
      obtain ⟨a', rfl⟩ : ∃ a', a = a' + 1 := ⟨a - 1, by omega⟩
      obtain ⟨e, he, hae⟩ := hO j hj a' (by rw [hpre]; exact ha)
      exact ⟨e, by rw [Function.update_of_ne hji]; exact he, by omega⟩
    · rw [Function.update_of_ne hpre] at hc
      obtain ⟨e, he, hce⟩ := hO j hj c hc
      exact ⟨e, by rw [Function.update_of_ne hji]; exact he, hce⟩

/-- Emptying a slot whose successor is empty or at home.
Source: none
Kind: P -/
theorem Ordered.vacate (hO : Ordered n dib) {i : ℕ}
    (hsucc : ∀ d, dib ((i + 1) % n) ≠ some (d + 1)) :
    Ordered n (Function.update dib i none) := by
  intro j hj d hd
  by_cases hpre : (j + 1) % n = i
  · rw [hpre, Function.update_self] at hd
    cases hd
  · rw [Function.update_of_ne hpre] at hd
    have hji : j ≠ i := by
      rintro rfl
      exact hsucc d hd
    rw [Function.update_of_ne hji]
    exact hO j hj d hd

end CacheMoney.Found.RobinHood
