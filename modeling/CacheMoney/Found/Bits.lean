import Mathlib.Data.Nat.Bitwise
import Mathlib.Tactic.SplitIfs

/-!
# Sets of bits in a vector of words

`marked v j` is bit `j` of a vector of 64-bit words.

* `and_bit_eq_zero_iff`: testing a word against a one-bit mask reads the bit.
* `marked_set`: or-ing the mask into the word marks that bit and no other.
-/

namespace CacheMoney.Found

variable {n : ℕ} (v : Vector UInt64 n)

/-- Bit `j` of a vector of words, clear past its end.
Source: none
Kind: D -/
def marked (j : ℕ) : Bool := (v[j / 64]?.getD 0).toNat.testBit (j % 64)

/-- The word that holds a bit.
Source: none
Kind: L -/
theorem toNat_shiftRight_six (bit : UInt64) : (bit >>> 6).toNat = bit.toNat / 64 := by
  rw [UInt64.toNat_shiftRight]
  exact Nat.shiftRight_eq_div_pow _ 6

/-- The mask of one bit of a word.
Source: none
Kind: L -/
theorem toNat_bit (bit : UInt64) : ((1 : UInt64) <<< (bit &&& 63)).toNat = 2 ^ (bit.toNat % 64) := by
  have hand : (bit &&& 63).toNat = bit.toNat % 64 := by
    rw [UInt64.toNat_and]
    exact Nat.and_two_pow_sub_one_eq_mod _ 6
  have hlt : bit.toNat % 64 < 64 := Nat.mod_lt _ (by decide)
  rw [UInt64.toNat_shiftLeft, hand, Nat.mod_eq_of_lt hlt]
  change 1 <<< (bit.toNat % 64) % 2 ^ 64 = _
  rw [Nat.one_shiftLeft, Nat.mod_eq_of_lt (Nat.pow_lt_pow_right (by decide) hlt)]

variable {v} {bit : UInt64}

/-- Nothing is marked in words of zero.
Source: none
Kind: L -/
theorem marked_replicate (j : ℕ) : marked (Vector.replicate n (0 : UInt64)) j = false := by
  unfold marked
  rw [Vector.getElem?_replicate]
  split_ifs
  · exact Nat.zero_testBit _
  · exact Nat.zero_testBit _

/-- A mark is a bit of the word that a shift selects.
Source: none
Kind: L -/
theorem marked_eq_testBit (h : (bit >>> 6).toNat < n) :
    marked v bit.toNat = (v.get ⟨(bit >>> 6).toNat, h⟩).toNat.testBit (bit.toNat % 64) := by
  unfold marked
  rw [← toNat_shiftRight_six, Vector.getElem?_eq_getElem h]
  rfl

/-- A bit is clear where the word has nothing in common with its mask.
Source: none
Kind: L -/
theorem and_bit_eq_zero_iff (h : (bit >>> 6).toNat < n) :
    v.get ⟨(bit >>> 6).toNat, h⟩ &&& ((1 : UInt64) <<< (bit &&& 63)) = 0 ↔
      marked v bit.toNat = false := by
  rw [marked_eq_testBit h, ← UInt64.toNat_inj, UInt64.toNat_and, toNat_bit, Nat.and_two_pow]
  cases (v.get ⟨(bit >>> 6).toNat, h⟩).toNat.testBit (bit.toNat % 64) with
  | false => simp
  | true => simp

/-- Setting a bit of its word marks one position and keeps the others.
Source: none
Kind: L -/
theorem marked_set (h : (bit >>> 6).toNat < n) (j : ℕ) :
    marked (v.set (bit >>> 6).toNat
        (v.get ⟨(bit >>> 6).toNat, h⟩ ||| ((1 : UInt64) <<< (bit &&& 63))) h) j =
      (marked v j || decide (j = bit.toNat)) := by
  by_cases hword : bit.toNat / 64 = j / 64
  · have hget : v[j / 64]?.getD 0 = v.get ⟨(bit >>> 6).toNat, h⟩ := by
      rw [← hword, ← toNat_shiftRight_six, Vector.getElem?_eq_getElem h]
      rfl
    have hsame : bit.toNat % 64 = j % 64 ↔ j = bit.toNat := by omega
    unfold marked
    rw [Vector.getElem?_set, if_pos (by rw [toNat_shiftRight_six, hword]), Option.getD_some,
      UInt64.toNat_or, Nat.testBit_or, toNat_bit, Nat.testBit_two_pow, hget]
    simp only [hsame]
  · have hne : j ≠ bit.toNat := by
      rintro rfl
      exact hword rfl
    unfold marked
    rw [Vector.getElem?_set, if_neg (by rwa [toNat_shiftRight_six]), decide_eq_false hne,
      Bool.or_false]

end CacheMoney.Found
