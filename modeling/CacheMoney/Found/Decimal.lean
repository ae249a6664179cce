import CacheMoney.Found.Outcome
import Mathlib.Data.Nat.Digits.Lemmas

/-!
# Decimal numerals as bytes

* `numeral n` is the canonical rendering of a natural number: no sign, no leading zero.
  `signedNumeral` puts a minus sign in front of a negative one.
* `Canonical b` says lexically that `b` is such a rendering; `numeral_valueFrom` and
  `canonical_numeral` make the two the same thing.
* `atoi` is the reading of Go's `strconv.Atoi` and `strconv.ParseInt` (base ten, 64 bits), which
  also takes a plus sign and leading zeros; `Loose` is its lexical form on values that are not
  negative.
-/

namespace CacheMoney.Found

/-! ### Digits -/

/-- An ASCII digit.
Source: none
Kind: D -/
def isDigit (c : UInt8) : Bool := 48 ≤ c && c ≤ 57

/-- The value of an ASCII digit.
Source: none
Kind: D -/
def digitValue (c : UInt8) : ℕ := c.toNat - 48

/-- The digit of a value below ten.
Source: none
Kind: D -/
def digitByte (d : ℕ) : UInt8 := UInt8.ofNat (48 + d)

/-- The digits are the bytes from 48 to 57.
Source: none
Kind: L -/
theorem isDigit_iff {c : UInt8} : isDigit c = true ↔ 48 ≤ c.toNat ∧ c.toNat ≤ 57 := by
  simp [isDigit, UInt8.le_iff_toNat_le]

/-- The byte of a digit.
Source: none
Kind: L -/
theorem toNat_digitByte {d : ℕ} (h : d < 10) : (digitByte d).toNat = 48 + d := by
  simp only [digitByte, UInt8.toNat_ofNat']
  omega

/-- The byte of a digit is a digit.
Source: none
Kind: L -/
theorem isDigit_digitByte {d : ℕ} (h : d < 10) : isDigit (digitByte d) = true := by
  rw [isDigit_iff, toNat_digitByte h]
  omega

/-- The value of the byte of a digit is the digit.
Source: none
Kind: L -/
theorem digitValue_digitByte {d : ℕ} (h : d < 10) : digitValue (digitByte d) = d := by
  rw [digitValue, toNat_digitByte h, Nat.add_sub_cancel_left]

/-- The value of a digit is less than ten.
Source: none
Kind: L -/
theorem digitValue_lt {c : UInt8} (h : isDigit c = true) : digitValue c < 10 := by
  have := isDigit_iff.mp h
  unfold digitValue
  omega

/-- A digit is the byte of its value.
Source: none
Kind: L -/
theorem digitByte_digitValue {c : UInt8} (h : isDigit c = true) :
    digitByte (digitValue c) = c := by
  apply UInt8.toNat_inj.mp
  rw [toNat_digitByte (digitValue_lt h), digitValue]
  have := isDigit_iff.mp h
  omega

/-! ### The value of a digit string -/

/-- The value of a digit string read after `acc`.
Source: none
Kind: D -/
def valueFrom (acc : ℕ) (b : Bytes) : ℕ := b.foldl (fun n c => n * 10 + digitValue c) acc

/-- Equation lemma: no digits are left.
Source: none
Kind: L -/
@[simp] theorem valueFrom_nil (acc : ℕ) : valueFrom acc [] = acc := rfl

/-- Equation lemma: one digit is read.
Source: none
Kind: L -/
@[simp] theorem valueFrom_cons (acc : ℕ) (c : UInt8) (b : Bytes) :
    valueFrom acc (c :: b) = valueFrom (acc * 10 + digitValue c) b := by
  simp only [valueFrom, List.foldl_cons]

/-- Reading on never makes the value smaller.
Source: none
Kind: L -/
theorem le_valueFrom (b : Bytes) : ∀ acc, acc ≤ valueFrom acc b := by
  induction b with
  | nil => exact fun acc => le_rfl
  | cons c b ih =>
      intro acc
      rw [valueFrom_cons]
      exact le_trans (by omega) (ih _)

/-- The value read from left to right is the number with these digits.
Source: none
Kind: L -/
theorem valueFrom_eq_ofDigits (b : Bytes) :
    valueFrom 0 b = Nat.ofDigits 10 (b.map digitValue).reverse := by
  rw [Nat.ofDigits_eq_foldr, List.foldr_reverse, List.foldl_map, valueFrom]
  congr 1
  funext n c
  simp only [Nat.cast_id]
  ring

/-! ### Canonical numerals -/

/-- The decimal rendering of a natural number.
Source: none
Kind: D -/
def numeral (n : ℕ) : Bytes :=
  if n = 0 then [48] else ((Nat.digits 10 n).map digitByte).reverse

/-- The decimal rendering of an integer.
Source: none
Kind: D -/
def signedNumeral (z : ℤ) : Bytes :=
  if z < 0 then 45 :: numeral z.natAbs else numeral z.natAbs

/-- Digits, at least one, and no leading zero before another digit.
Source: none
Kind: D -/
structure Canonical (b : Bytes) : Prop where
  ne_nil : b ≠ []
  digits : ∀ c ∈ b, isDigit c = true
  lead : b.head? = some 48 → b = [48]

/-- Zero is written with one digit.
Source: none
Kind: L -/
theorem numeral_zero : numeral 0 = [48] := rfl

/-- A positive number is written with its decimal digits, the highest first.
Source: none
Kind: L -/
theorem numeral_of_pos {n : ℕ} (h : n ≠ 0) :
    numeral n = ((Nat.digits 10 n).map digitByte).reverse := if_neg h

/-- A numeral is made of digits.
Source: none
Kind: L -/
theorem isDigit_of_mem_numeral {n : ℕ} {c : UInt8} (h : c ∈ numeral n) : isDigit c = true := by
  by_cases hn : n = 0
  · subst hn
    rw [numeral_zero, List.mem_singleton] at h
    subst h
    rfl
  · rw [numeral_of_pos hn, List.mem_reverse, List.mem_map] at h
    obtain ⟨d, hd, rfl⟩ := h
    exact isDigit_digitByte (Nat.digits_lt_base (by decide) hd)

/-- A numeral has at least one digit.
Source: none
Kind: L -/
theorem numeral_ne_nil (n : ℕ) : numeral n ≠ [] := by
  by_cases hn : n = 0
  · subst hn
    exact List.cons_ne_nil _ _
  · rw [numeral_of_pos hn]
    simp [Nat.digits_ne_nil_iff_ne_zero.mpr hn]

/-- A numeral is read back as its number.
Source: none
Kind: L -/
theorem valueFrom_numeral (n : ℕ) : valueFrom 0 (numeral n) = n := by
  by_cases hn : n = 0
  · subst hn
    rfl
  · rw [numeral_of_pos hn, valueFrom_eq_ofDigits, List.map_reverse, List.reverse_reverse,
      List.map_map]
    have hmap : (Nat.digits 10 n).map (digitValue ∘ digitByte) = Nat.digits 10 n := by
      refine (List.map_congr_left fun d hd => ?_).trans (List.map_id _)
      exact digitValue_digitByte (Nat.digits_lt_base (by decide) hd)
    rw [hmap, Nat.ofDigits_digits]

/-- Different numbers have different numerals.
Source: none
Kind: L -/
theorem numeral_injective : Function.Injective numeral := by
  intro m n h
  rw [← valueFrom_numeral m, h, valueFrom_numeral]

/-- A natural number is written without a sign.
Source: none
Kind: L -/
theorem signedNumeral_natCast (n : ℕ) : signedNumeral n = numeral n := by simp [signedNumeral]

/-- A negative number is a minus sign and a numeral.
Source: none
Kind: L -/
theorem signedNumeral_neg {m : ℕ} (h : m ≠ 0) : signedNumeral (-(m : ℤ)) = 45 :: numeral m := by
  rw [signedNumeral, if_pos (by omega), Int.natAbs_neg, Int.natAbs_natCast]

/-- A signed numeral is made of digits and the minus sign.
Source: none
Kind: L -/
theorem isDigit_or_minus_of_mem_signedNumeral {z : ℤ} {c : UInt8} (h : c ∈ signedNumeral z) :
    isDigit c = true ∨ c = 45 := by
  unfold signedNumeral at h
  split_ifs at h with hz
  · rcases List.mem_cons.mp h with h | h
    · exact Or.inr h
    · exact Or.inl (isDigit_of_mem_numeral h)
  · exact Or.inl (isDigit_of_mem_numeral h)

/-- A numeral does not begin with a minus sign.
Source: none
Kind: L -/
theorem numeral_ne_minus (m : ℕ) (r : Bytes) : numeral m ≠ 45 :: r := by
  intro h
  have hdigit : isDigit 45 = true := isDigit_of_mem_numeral (h ▸ List.mem_cons_self)
  exact absurd hdigit (by decide)

/-- Different integers have different numerals.
Source: none
Kind: L -/
theorem signedNumeral_injective : Function.Injective signedNumeral := by
  intro y z h
  unfold signedNumeral at h
  split_ifs at h with hy hz hz
  · have := numeral_injective (List.cons.inj h).2
    omega
  · exact absurd h.symm (numeral_ne_minus _ _)
  · exact absurd h (numeral_ne_minus _ _)
  · have := numeral_injective h
    omega

/-- The value of a rendered integer.
Source: none
Kind: D -/
def signedValue : Bytes → ℤ
  | [] => 0
  | c :: b => if c = 45 then -(valueFrom 0 b : ℤ) else valueFrom 0 (c :: b)

/-- A signed numeral is read back as its integer.
Source: none
Kind: L -/
theorem signedValue_signedNumeral (z : ℤ) : signedValue (signedNumeral z) = z := by
  unfold signedNumeral
  split_ifs with hz
  · rw [signedValue, if_pos rfl, valueFrom_numeral]
    omega
  · cases hn : numeral z.natAbs with
    | nil => exact absurd hn (numeral_ne_nil _)
    | cons c b =>
        have hc : c ≠ 45 := fun h => numeral_ne_minus _ b (h ▸ hn)
        rw [signedValue, if_neg hc, ← hn, valueFrom_numeral]
        omega

/-- A numeral has no leading zero.
Source: none
Kind: L -/
theorem canonical_numeral (n : ℕ) : Canonical (numeral n) := by
  refine ⟨numeral_ne_nil n, fun c hc => isDigit_of_mem_numeral hc, fun hlead => ?_⟩
  by_cases hn : n = 0
  · subst hn
    rfl
  · have hne : Nat.digits 10 n ≠ [] := Nat.digits_ne_nil_iff_ne_zero.mpr hn
    rw [numeral_of_pos hn, List.head?_reverse, List.getLast?_map,
      List.getLast?_eq_some_getLast hne, Option.map_some, Option.some.injEq] at hlead
    have hlt : (Nat.digits 10 n).getLast hne < 10 :=
      Nat.digits_lt_base (by decide) (List.getLast_mem hne)
    have hval := congrArg digitValue hlead
    rw [digitValue_digitByte hlt] at hval
    exact absurd hval (Nat.getLast_digit_ne_zero 10 hn)

/-- A canonical string is the numeral of its value.
Source: none
Kind: L -/
theorem numeral_valueFrom {b : Bytes} (h : Canonical b) : numeral (valueFrom 0 b) = b := by
  by_cases hzero : b = [48]
  · subst hzero
    rfl
  have hback : (b.map digitValue).map digitByte = b := by
    rw [List.map_map]
    refine (List.map_congr_left fun c hc => ?_).trans (List.map_id _)
    exact digitByte_digitValue (h.digits c hc)
  have hdigits : Nat.digits 10 (valueFrom 0 b) = (b.map digitValue).reverse := by
    rw [valueFrom_eq_ofDigits]
    apply Nat.digits_ofDigits 10 (by decide)
    · intro d hd
      rw [List.mem_reverse, List.mem_map] at hd
      obtain ⟨c, hc, rfl⟩ := hd
      exact digitValue_lt (h.digits c hc)
    · intro hne hlast
      obtain ⟨c, b', rfl⟩ := List.exists_cons_of_ne_nil h.ne_nil
      have hc : digitValue c = 0 := by simpa using hlast
      have hc48 : c = 48 := by
        rw [← digitByte_digitValue (h.digits c List.mem_cons_self), hc]
        rfl
      exact hzero (h.lead (by rw [hc48]; rfl))
  have hpos : valueFrom 0 b ≠ 0 := by
    intro h0
    rw [h0, Nat.digits_zero, eq_comm, List.reverse_eq_nil_iff, List.map_eq_nil_iff] at hdigits
    exact h.ne_nil hdigits
  rw [numeral_of_pos hpos, hdigits, List.map_reverse, List.reverse_reverse, hback]

/-- A number below `10 ^ k` needs at most `k` digits.
Source: none
Kind: L -/
theorem length_numeral_le {n k : ℕ} (h : n < 10 ^ k) (hk : 0 < k) : (numeral n).length ≤ k := by
  by_cases hn : n = 0
  · subst hn
    exact hk
  · rw [numeral_of_pos hn, List.length_reverse, List.length_map]
    exact (Nat.digits_length_le_iff (by decide) n).mpr h

/-! ### The standard library's reading -/

/-- The sign in front of a number, and what follows it.
Source: none
Kind: D -/
def signOf : Bytes → Bool × Bytes
  | [] => (false, [])
  | c :: b => if c = 45 then (true, b) else if c = 43 then (false, b) else (false, c :: b)

/-- `strconv.Atoi(s)`, and `strconv.ParseInt(s, 10, 64)`: a sign or none, digits, 64 bits.
Source: none
Kind: D -/
def atoi (b : Bytes) : Option ℤ :=
  let (neg, ds) := signOf b
  if ds = [] ∨ ds.all isDigit = false then none
  else if neg then
    if valueFrom 0 ds ≤ 2 ^ 63 then some (-(valueFrom 0 ds : ℤ)) else none
  else
    if valueFrom 0 ds < 2 ^ 63 then some (valueFrom 0 ds : ℤ) else none

/-- The texts that are read as the natural number `n`: digits with leading zeros or none, a plus
sign or none, and zero also with a minus sign.
Source: none
Kind: D -/
def Loose (b : Bytes) (n : ℕ) : Prop :=
  ∃ ds : Bytes, ds ≠ [] ∧ (∀ c ∈ ds, isDigit c = true) ∧ valueFrom 0 ds = n ∧
    (b = ds ∨ b = 43 :: ds ∨ b = 45 :: ds ∧ n = 0)

/-- A text that begins with a digit has no sign.
Source: none
Kind: L -/
theorem signOf_digit {c : UInt8} (h : isDigit c = true) (ds : Bytes) :
    signOf (c :: ds) = (false, c :: ds) := by
  have hc := isDigit_iff.mp h
  have h45 : c ≠ 45 := by
    intro h45
    subst h45
    exact absurd hc.1 (by decide)
  have h43 : c ≠ 43 := by
    intro h43
    subst h43
    exact absurd hc.1 (by decide)
  rw [signOf, if_neg h45, if_neg h43]

/-- A text of digits has no sign.
Source: none
Kind: L -/
theorem signOf_digits {ds : Bytes} (h : ∀ c ∈ ds, isDigit c = true) : signOf ds = (false, ds) := by
  cases ds with
  | nil => rfl
  | cons c b => exact signOf_digit (h c List.mem_cons_self) b

/-- What is left when the sign is taken off, by cases of the sign.
Source: none
Kind: L -/
theorem signOf_eq {b ds : Bytes} {neg : Bool} (h : signOf b = (neg, ds)) :
    b = ds ∧ neg = false ∨ b = 43 :: ds ∧ neg = false ∨ b = 45 :: ds ∧ neg = true := by
  cases b with
  | nil =>
      obtain ⟨rfl, rfl⟩ := Prod.mk.inj h
      exact Or.inl ⟨rfl, rfl⟩
  | cons c b =>
      simp only [signOf] at h
      split_ifs at h with h45 h43
      · obtain ⟨rfl, rfl⟩ := Prod.mk.inj h
        exact Or.inr (Or.inr ⟨by rw [h45], rfl⟩)
      · obtain ⟨rfl, rfl⟩ := Prod.mk.inj h
        exact Or.inr (Or.inl ⟨by rw [h43], rfl⟩)
      · obtain ⟨rfl, rfl⟩ := Prod.mk.inj h
        exact Or.inl ⟨rfl, rfl⟩

/-- A text that begins with a digit has no sign, and `atoi` reads it only if all of it are digits.
Source: none
Kind: L -/
theorem digits_of_atoi {c : UInt8} {ds : Bytes} {z : ℤ} (hc : isDigit c = true)
    (h : atoi (c :: ds) = some z) : ∀ x ∈ c :: ds, isDigit x = true := by
  by_contra hbad
  have hall : ¬(c :: ds).all isDigit = true := fun hall => hbad (List.all_eq_true.mp hall)
  have hnone : atoi (c :: ds) = none := by
    unfold atoi
    simp only [signOf_digit hc]
    exact if_pos (Or.inr (Bool.not_eq_true _ ▸ hall))
  rw [hnone] at h
  exact absurd h (by simp)

/-- What `atoi` reads as a natural number.
Source: none
Kind: L -/
theorem atoi_eq_natCast_iff {b : Bytes} {n : ℕ} (hn : n < 2 ^ 63) :
    atoi b = some (n : ℤ) ↔ Loose b n := by
  constructor
  · intro h
    unfold atoi at h
    obtain ⟨neg, ds, hsign⟩ : ∃ neg ds, signOf b = (neg, ds) := ⟨_, _, rfl⟩
    simp only [hsign] at h
    split_ifs at h with hbad hneg hle hlt
    · rw [Option.some.injEq] at h
      rw [not_or, Bool.not_eq_false, List.all_eq_true] at hbad
      have hv : valueFrom 0 ds = n ∧ n = 0 := by omega
      refine ⟨ds, hbad.1, hbad.2, hv.1, ?_⟩
      rcases signOf_eq hsign with ⟨_, hf⟩ | ⟨_, hf⟩ | ⟨hb, _⟩
      · exact absurd (hf.symm.trans hneg) (by decide)
      · exact absurd (hf.symm.trans hneg) (by decide)
      · exact Or.inr (Or.inr ⟨hb, hv.2⟩)
    · rw [Option.some.injEq] at h
      rw [not_or, Bool.not_eq_false, List.all_eq_true] at hbad
      refine ⟨ds, hbad.1, hbad.2, by omega, ?_⟩
      rcases signOf_eq hsign with ⟨hb, _⟩ | ⟨hb, _⟩ | ⟨_, ht⟩
      · exact Or.inl hb
      · exact Or.inr (Or.inl hb)
      · exact absurd ht hneg
  · rintro ⟨ds, hne, hdigits, hval, hb⟩
    have hgood : ¬(ds = [] ∨ ds.all isDigit = false) := by
      rw [not_or, Bool.not_eq_false, List.all_eq_true]
      exact ⟨hne, hdigits⟩
    rcases hb with rfl | rfl | ⟨rfl, rfl⟩
    · simp only [atoi, signOf_digits hdigits, if_neg hgood, Bool.false_eq_true, if_false, hval,
        if_pos hn]
    · have hsign : signOf (43 :: ds) = (false, ds) := rfl
      simp only [atoi, hsign, if_neg hgood, Bool.false_eq_true, if_false, hval, if_pos hn]
    · have hsign : signOf (45 :: ds) = (true, ds) := rfl
      simp only [atoi, hsign, if_neg hgood, if_true, hval]
      rfl

/-- A numeral is a loose numeral of its number.
Source: none
Kind: L -/
theorem loose_numeral (n : ℕ) : Loose (numeral n) n :=
  ⟨numeral n, numeral_ne_nil n, fun _ hc => isDigit_of_mem_numeral hc, valueFrom_numeral n,
    Or.inl rfl⟩

/-- Only the size of a number keeps its numeral from being read back.
Source: none
Kind: L -/
theorem atoi_numeral (n : ℕ) : atoi (numeral n) = if n < 2 ^ 63 then some (n : ℤ) else none := by
  by_cases hn : n < 2 ^ 63
  · rw [if_pos hn, (atoi_eq_natCast_iff hn).mpr (loose_numeral n)]
  · have hdigits : ∀ c ∈ numeral n, isDigit c = true := fun c => isDigit_of_mem_numeral
    have hgood : ¬(numeral n = [] ∨ (numeral n).all isDigit = false) := by
      rw [not_or, Bool.not_eq_false, List.all_eq_true]
      exact ⟨numeral_ne_nil n, hdigits⟩
    unfold atoi
    rw [signOf_digits hdigits, if_neg hn]
    simp only [if_neg hgood, Bool.false_eq_true, if_false, valueFrom_numeral, if_neg hn]

/-- A loose numeral has at least one byte.
Source: none
Kind: L -/
theorem Loose.ne_nil {b : Bytes} {n : ℕ} (h : Loose b n) : b ≠ [] := by
  obtain ⟨ds, hne, -, -, hb⟩ := h
  rcases hb with rfl | rfl | ⟨rfl, -⟩
  · exact hne
  · exact List.cons_ne_nil _ _
  · exact List.cons_ne_nil _ _

/-- What such a text is made of.
Source: none
Kind: L -/
theorem Loose.mem {b : Bytes} {n : ℕ} (h : Loose b n) {c : UInt8} (hc : c ∈ b) :
    isDigit c = true ∨ c = 43 ∨ c = 45 := by
  obtain ⟨ds, -, hdigits, -, hb⟩ := h
  rcases hb with rfl | rfl | ⟨rfl, -⟩
  · exact Or.inl (hdigits c hc)
  · rcases List.mem_cons.mp hc with rfl | hc
    · exact Or.inr (Or.inl rfl)
    · exact Or.inl (hdigits c hc)
  · rcases List.mem_cons.mp hc with rfl | hc
    · exact Or.inr (Or.inr rfl)
    · exact Or.inl (hdigits c hc)

end CacheMoney.Found
