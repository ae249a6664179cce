import Mathlib.Algebra.Order.Ring.Nat
import Mathlib.Data.Nat.Bitwise
import Mathlib.Tactic.IntervalCases
import Mathlib.Tactic.Ring

/-!
# Sixteen counters in a word

A 64-bit word as sixteen 4-bit counters, and a vector of words as an array of counters.
`nibble w k` is counter `k` of a word, `packed v j` counter `j` of a vector.

* `nibble_read`, `packed_read`: shift and mask read a counter.
* `nibble_raise`, `packed_raise`: adding `1 <<< 4k` to a word raises its counter `k` and no other,
  if that counter is below 15.
* `nibble_halve`, `packed_halve`: shifting a word by one and clearing the top bit of each counter
  halves all sixteen at once.
-/

namespace CacheMoney.Found

/-- The value of counter `k`.
Source: none
Kind: D -/
def nibble (w : UInt64) (k : ℕ) : ℕ := w.toNat / 16 ^ k % 16

/-- A nibble is less than sixteen.
Source: none
Kind: L -/
theorem nibble_lt (w : UInt64) (k : ℕ) : nibble w k < 16 := Nat.mod_lt _ (by decide)

/-- The nibbles of zero are zero.
Source: none
Kind: L -/
@[simp] theorem nibble_zero (k : ℕ) : nibble 0 k = 0 := by
  unfold nibble
  rw [UInt64.toNat_zero, Nat.zero_div]

/-! ### Digits -/

/-- Four bits are one digit in base sixteen.
Source: none
Kind: L -/
theorem pow_four_mul (k : ℕ) : 2 ^ (k * 4) = 16 ^ k := by
  rw [Nat.mul_comm, Nat.pow_mul]

/-- Adding `16 ^ k` raises one digit, if that digit does not carry.
Source: none
Kind: L -/
theorem digit_add_pow {x k : ℕ} (hk : x / 16 ^ k % 16 < 15) (j : ℕ) :
    (x + 16 ^ k) / 16 ^ j % 16 = x / 16 ^ j % 16 + if j = k then 1 else 0 := by
  have hpos : ∀ i, 0 < 16 ^ i := fun i => Nat.pow_pos (by decide)
  rcases lt_trichotomy j k with hjk | rfl | hjk
  · -- Below the digit, a multiple of 16 is added.
    obtain ⟨d, rfl⟩ : ∃ d, k = j + d + 1 := ⟨k - j - 1, by omega⟩
    have hpow : 16 ^ (j + d + 1) = 16 ^ j * (16 * 16 ^ d) := by ring
    rw [hpow, Nat.add_mul_div_left _ _ (hpos j), Nat.add_mul_mod_self_left, if_neg (by omega),
      Nat.add_zero]
  · rw [Nat.add_div_right _ (hpos j), if_pos rfl]
    omega
  · -- Above it, the digit absorbs the increment.
    obtain ⟨d, rfl⟩ : ∃ d, j = k + (d + 1) := ⟨j - k - 1, by omega⟩
    have hsplit : ∀ y, y / 16 ^ (k + (d + 1)) = y / 16 ^ k / 16 / 16 ^ d := by
      intro y
      rw [Nat.div_div_eq_div_mul, Nat.div_div_eq_div_mul, Nat.pow_add, Nat.pow_succ]
      congr 1
      ring
    have habsorb : (x / 16 ^ k).succ / 16 = x / 16 ^ k / 16 := by omega
    rw [hsplit, hsplit, Nat.add_div_right _ (hpos k), habsorb, if_neg (by omega)]
    rfl

/-- A digit that does not carry leaves the word in range.
Source: none
Kind: L -/
theorem add_pow_lt {x k : ℕ} (hx : x < 2 ^ 64) (hk : k < 16) (hd : x / 16 ^ k % 16 < 15) :
    x + 16 ^ k < 2 ^ 64 := by
  have hpos : 0 < 16 ^ k := Nat.pow_pos (by decide)
  have hsize : 2 ^ 64 = 16 ^ k * (16 * 16 ^ (15 - k)) := by
    have hadd : 16 ^ k * 16 ^ (15 - k) = 16 ^ 15 := by
      rw [← Nat.pow_add]
      congr 1
      omega
    calc 2 ^ 64 = 16 * 16 ^ 15 := by norm_num
      _ = 16 ^ k * (16 * 16 ^ (15 - k)) := by rw [← hadd]; ring
  have hquot : x / 16 ^ k < 16 * 16 ^ (15 - k) := by
    rw [Nat.div_lt_iff_lt_mul hpos, Nat.mul_comm, ← hsize]
    exact hx
  have hroom : x / 16 ^ k + 2 ≤ 16 * 16 ^ (15 - k) := by omega
  calc x + 16 ^ k < 16 ^ k * (x / 16 ^ k + 1) + 16 ^ k := by
        have := Nat.lt_mul_div_succ x hpos
        omega
    _ = 16 ^ k * (x / 16 ^ k + 2) := by ring
    _ ≤ 16 ^ k * (16 * 16 ^ (15 - k)) := Nat.mul_le_mul_left _ hroom
    _ = 2 ^ 64 := hsize.symm

/-! ### Words -/

/-- Four times a position in the word, as a shift.
Source: none
Kind: L -/
theorem toNat_shift {k : ℕ} (hk : k < 16) : (UInt64.ofNat k * 4).toNat % 64 = k * 4 := by
  interval_cases k <;> rfl

/-- Shift and mask read a counter.
Source: none
Kind: L -/
theorem nibble_read (w : UInt64) {k : ℕ} (hk : k < 16) :
    ((w >>> (UInt64.ofNat k * 4)) &&& 15).toUInt8.toNat = nibble w k := by
  have hmask : ∀ x, x &&& 15 = x % 16 := fun x => Nat.and_two_pow_sub_one_eq_mod x 4
  have hlt := nibble_lt w k
  unfold nibble at hlt ⊢
  rw [UInt64.toNat_toUInt8, UInt64.toNat_and, UInt64.toNat_shiftRight, toNat_shift hk,
    Nat.shiftRight_eq_div_pow, pow_four_mul, show (15 : UInt64).toNat = 15 from rfl, hmask,
    Nat.mod_eq_of_lt (by omega)]

/-- The word that has a one in counter `k`.
Source: none
Kind: L -/
theorem toNat_unit {k : ℕ} (hk : k < 16) :
    ((1 : UInt64) <<< (UInt64.ofNat k * 4)).toNat = 16 ^ k := by
  interval_cases k <;> rfl

/-- Adding a one to a counter that is not full changes no other counter.
Source: none
Kind: L -/
theorem nibble_raise {w : UInt64} {k : ℕ} (hk : k < 16) (hw : nibble w k < 15) (j : ℕ) :
    nibble (w + ((1 : UInt64) <<< (UInt64.ofNat k * 4))) j =
      nibble w j + if j = k then 1 else 0 := by
  have hroom := add_pow_lt w.toNat_lt hk hw
  unfold nibble at hw ⊢
  rw [UInt64.toNat_add, toNat_unit hk, Nat.mod_eq_of_lt hroom, digit_add_pow hw]

/-- A shift of the whole word by one, with the bits that crossed a boundary cleared, halves every
counter.
Source: none
Kind: L -/
theorem nibble_halve (w : UInt64) {k : ℕ} (hk : k < 16) :
    nibble ((w >>> 1) &&& 0x7777777777777777) k = nibble w k / 2 := by
  have hdigit : 0x7777777777777777 / 16 ^ k % 2 ^ 4 = 7 := by interval_cases k <;> rfl
  have hseven : ∀ x, x &&& 7 = x % 8 := fun x => Nat.and_two_pow_sub_one_eq_mod x 3
  unfold nibble
  rw [UInt64.toNat_and, UInt64.toNat_shiftRight, ← pow_four_mul, ← Nat.shiftRight_eq_div_pow,
    Nat.shiftRight_and_distrib, show 16 = 2 ^ 4 from rfl, Nat.and_mod_two_pow]
  rw [Nat.shiftRight_eq_div_pow, Nat.shiftRight_eq_div_pow, Nat.shiftRight_eq_div_pow, pow_four_mul]
  rw [show (0x7777777777777777 : UInt64).toNat = 0x7777777777777777 from rfl, hdigit, hseven,
    show (1 : UInt64).toNat % 64 = 1 from rfl, Nat.pow_one, Nat.div_div_eq_div_mul, Nat.mul_comm,
    ← Nat.div_div_eq_div_mul]
  omega

/-! ### Vectors of words -/

section packed

variable {n : ℕ} (v : Vector UInt64 n)

/-- Counter `j` of a vector of words, zero past its end.
Source: none
Kind: D -/
def packed (j : ℕ) : ℕ := nibble (v[j / 16]?.getD 0) (j % 16)

/-- The counters of words of zero are zero.
Source: none
Kind: L -/
@[simp] theorem packed_replicate (j : ℕ) : packed (Vector.replicate n 0) j = 0 := by
  unfold packed
  rw [Vector.getElem?_replicate]
  split_ifs <;> exact nibble_zero _

/-- The word that holds a counter.
Source: none
Kind: L -/
theorem toNat_shiftRight_four (idx : UInt64) : (idx >>> 4).toNat = idx.toNat / 16 := by
  rw [UInt64.toNat_shiftRight]
  exact Nat.shiftRight_eq_div_pow _ 4

/-- The place of a counter in its word.
Source: none
Kind: L -/
theorem and_fifteen (idx : UInt64) : idx &&& 15 = UInt64.ofNat (idx.toNat % 16) := by
  apply UInt64.toNat_inj.mp
  have hmod : idx.toNat % 16 < 2 ^ 64 := by omega
  rw [UInt64.toNat_and, UInt64.toNat_ofNat_of_lt' hmod]
  exact Nat.and_two_pow_sub_one_eq_mod _ 4

variable {v} {idx : UInt64}

/-- A counter is a nibble of the word that a shift selects.
Source: none
Kind: L -/
theorem packed_eq_nibble (h : (idx >>> 4).toNat < n) :
    packed v idx.toNat = nibble (v.get ⟨(idx >>> 4).toNat, h⟩) (idx.toNat % 16) := by
  unfold packed
  rw [← toNat_shiftRight_four, Vector.getElem?_eq_getElem h]
  rfl

/-- Reading a counter by a shift and a mask.
Source: none
Kind: L -/
theorem packed_read (h : (idx >>> 4).toNat < n) :
    ((v.get ⟨(idx >>> 4).toNat, h⟩ >>> ((idx &&& 15) * 4)) &&& 15).toUInt8.toNat =
      packed v idx.toNat := by
  rw [and_fifteen idx, nibble_read _ (Nat.mod_lt _ (by decide)), packed_eq_nibble h]

/-- Adding a one to a counter that is not full changes no other counter of the vector.
Source: none
Kind: L -/
theorem packed_raise (h : (idx >>> 4).toNat < n) (hidx : packed v idx.toNat < 15) (j : ℕ) :
    packed (v.set (idx >>> 4).toNat
        (v.get ⟨(idx >>> 4).toNat, h⟩ + ((1 : UInt64) <<< ((idx &&& 15) * 4))) h) j =
      packed v j + if j = idx.toNat then 1 else 0 := by
  have hk : idx.toNat % 16 < 16 := Nat.mod_lt _ (by decide)
  rw [packed_eq_nibble h] at hidx
  by_cases hword : idx.toNat / 16 = j / 16
  · -- The word that is written: one counter of it grows.
    have hget : v[j / 16]?.getD 0 = v.get ⟨(idx >>> 4).toNat, h⟩ := by
      rw [← hword, ← toNat_shiftRight_four, Vector.getElem?_eq_getElem h]
      rfl
    unfold packed
    rw [Vector.getElem?_set, if_pos (by rw [toNat_shiftRight_four, hword]), Option.getD_some,
      and_fifteen, nibble_raise hk hidx, hget]
    have hsame : j % 16 = idx.toNat % 16 ↔ j = idx.toNat := by omega
    simp only [hsame]
  · unfold packed
    rw [Vector.getElem?_set, if_neg (by rwa [toNat_shiftRight_four]), if_neg (by omega),
      Nat.add_zero]

variable (v) in
/-- One shift and one mask halve all counters of a word.
Source: none
Kind: L -/
theorem packed_halve (j : ℕ) :
    packed (v.map fun w : UInt64 => (w >>> 1) &&& 0x7777777777777777) j = packed v j / 2 := by
  unfold packed
  rw [Vector.getElem?_map, ← nibble_halve _ (Nat.mod_lt _ (by decide))]
  cases v[j / 16]? with
  | none => rfl
  | some w => rfl

end packed

end CacheMoney.Found
