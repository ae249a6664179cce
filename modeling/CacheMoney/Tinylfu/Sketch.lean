import Mathlib.Data.Nat.Size
import CacheMoney.Found.CountMin
import CacheMoney.Found.Nibbles
import CacheMoney.Found.Outcome

/-!
# The frequency sketch

A count-min sketch of four rows of 4-bit counters, sixteen to a word. `increment` is the
conservative update: of the four counters of a fingerprint it raises those at the minimum.

* The model: `nextPow2`, `mix`, `newSketch` and the methods of `Sketch`. A sketch carries the facts
  that make its indexing safe, so the methods are total.
* `Sketch.counter` unpacks the words, and the methods are the operations of `Found.CountMin` on the
  unpacked table (`estimate_eq`, `counter_increment`, `counter_halve`).
* `estimate_sandwiched`: after any calls an estimate is at least the true count and at most the
  estimate of the sketch that raises all four counters.
-/

namespace CacheMoney.Tinylfu

open CacheMoney.Found

/-! ### Integer helpers -/

/-- The power of two at or above `n`. Above `2 ^ 63` the shift leaves nothing.
Source: `internal/tinylfu/doc.go` `nextPow2`
Kind: D -/
def nextPow2 (n : UInt64) : UInt64 :=
  if n ≤ 1 then 1 else UInt64.ofNat (2 ^ (n - 1).toNat.size)

/-- The splitmix64 finalizer.
Source: `internal/tinylfu/doc.go` `mix`
Kind: D -/
def mix (x : UInt64) : UInt64 :=
  let x := x ^^^ (x >>> 30)
  let x := x * 0xbf58476d1ce4e5b9
  let x := x ^^^ (x >>> 27)
  let x := x * 0x94d049bb133111eb
  x ^^^ (x >>> 31)

/-- The result is a power of two, unless it is out of range.
Source: `internal/tinylfu/doc.go` `nextPow2`
Kind: L -/
theorem nextPow2_eq (n : UInt64) : nextPow2 n = 0 ∨ ∃ k, (nextPow2 n).toNat = 2 ^ k := by
  unfold nextPow2
  split_ifs
  · exact Or.inr ⟨0, rfl⟩
  · by_cases hsize : (n - 1).toNat.size < 64
    · right
      refine ⟨(n - 1).toNat.size, UInt64.toNat_ofNat_of_lt' ?_⟩
      exact Nat.pow_lt_pow_right (by decide) hsize
    · -- Only a shift by 64 is left: the length of a word is at most that.
      left
      have hle : (n - 1).toNat.size ≤ 64 := Nat.size_le.mpr (n - 1).toNat_lt
      rw [show (n - 1).toNat.size = 64 by omega]
      rfl

/-- The rounding, in natural numbers.
Source: `internal/tinylfu/doc.go` `nextPow2`
Kind: L -/
theorem toNat_nextPow2 {n : UInt64} (hlow : 1 < n.toNat) (hhigh : n.toNat ≤ 2 ^ 63) :
    (nextPow2 n).toNat = 2 ^ (n.toNat - 1).size := by
  have hone : (1 : UInt64) ≤ n := UInt64.le_iff_toNat_le.mpr (Nat.le_of_lt hlow)
  have hsub : (n - 1).toNat = n.toNat - 1 := UInt64.toNat_sub_of_le _ _ hone
  have hsize : (n.toNat - 1).size ≤ 63 := Nat.size_le.mpr (by omega)
  have hgt : ¬ n ≤ 1 := fun h => absurd (UInt64.le_iff_toNat_le.mp h) (Nat.not_le.mpr hlow)
  unfold nextPow2
  rw [if_neg hgt, hsub]
  refine UInt64.toNat_ofNat_of_lt' ?_
  exact Nat.pow_lt_pow_right (a := 2) (n := 64) (by decide) (by omega)

/-- The rounding does not go down.
Source: `internal/tinylfu/doc.go` `nextPow2`
Kind: L -/
theorem le_nextPow2 {n : UInt64} (hlow : 1 < n.toNat) (hhigh : n.toNat ≤ 2 ^ 63) :
    n.toNat ≤ (nextPow2 n).toNat := by
  have hlt : n.toNat - 1 < 2 ^ (n.toNat - 1).size := Nat.lt_size_self _
  rw [toNat_nextPow2 hlow hhigh]
  omega

/-- The rounding stays within a power of two that bounds the number.
Source: `internal/tinylfu/doc.go` `nextPow2`
Kind: L -/
theorem nextPow2_le {n : UInt64} {k : ℕ} (hlow : 1 < n.toNat) (hk : k ≤ 63)
    (hhigh : n.toNat ≤ 2 ^ k) : (nextPow2 n).toNat ≤ 2 ^ k := by
  have hsize : (n.toNat - 1).size ≤ k := Nat.size_le.mpr (by omega)
  rw [toNat_nextPow2 hlow (hhigh.trans (Nat.pow_le_pow_right (by decide) hk))]
  exact Nat.pow_le_pow_right (by decide) hsize

/-! ### The sketch -/

/-- The number of rows.
Source: `internal/tinylfu/sketch.go` `depth`
Kind: D -/
abbrev depth : ℕ := 4

/-- Source: `internal/tinylfu/sketch.go` `nibblesPerWord`
Kind: D -/
abbrev nibblesPerWord : ℕ := 16

/-- Source: `internal/tinylfu/sketch.go` `nibbleMax`
Kind: D -/
def nibbleMax : UInt8 := 15

/-- Source: `internal/tinylfu/sketch.go` `minWidth`
Kind: D -/
def minWidth : Int64 := Int64.ofNat nibblesPerWord

/-- Source: `internal/tinylfu/sketch.go` `halfNibbles`
Kind: D -/
def halfNibbles : UInt64 := 0x7777777777777777

/-- Source: `internal/tinylfu/sketch.go` `rowSeeds`
Kind: D -/
def rowSeeds : Vector UInt64 depth :=
  #v[0x9e3779b97f4a7c15, 0xbf58476d1ce4e5b9, 0x94d049bb133111eb, 0xd6e8feb86659fd93]

/-- Source: `internal/tinylfu/sketch.go` `sketch`
Kind: D -/
structure Sketch where
  /-- Counters per row. -/
  wd : ℕ
  rows : Fin depth → Vector UInt64 (wd / nibblesPerWord)
  mask : UInt64
  seed : UInt64
  mask_succ : mask.toNat + 1 = wd
  packed_dvd : nibblesPerWord ∣ wd

/-- A counter index that the mask has brought into range.
Source: none
Kind: D -/
abbrev Sketch.Index (s : Sketch) : Type := { idx : UInt64 // idx ≤ s.mask }

/-- An index in range addresses a word of the row.
Source: `internal/tinylfu/sketch.go` `sketch.read`
Kind: L -/
theorem Sketch.word_lt (s : Sketch) (idx : s.Index) :
    (idx.1 >>> 4).toNat < s.wd / nibblesPerWord := by
  have hidx := UInt64.le_iff_toNat_le.mp idx.2
  have hmask := s.mask_succ
  have hdvd : 16 ∣ s.wd := s.packed_dvd
  rw [toNat_shiftRight_four]
  change _ < s.wd / 16
  omega

/-- A mask one below a power of two that holds a whole word.
Source: `internal/tinylfu/sketch.go` `newSketch`
Kind: L -/
theorem nextPow2_packed {n : UInt64} (hlow : 16 ≤ n.toNat) (hhigh : n.toNat ≤ 2 ^ 63) :
    (nextPow2 n - 1).toNat + 1 = (nextPow2 n).toNat ∧ nibblesPerWord ∣ (nextPow2 n).toNat := by
  have hle := le_nextPow2 (by omega) hhigh
  constructor
  · have hone : (1 : UInt64) ≤ nextPow2 n := by
      rw [UInt64.le_iff_toNat_le]
      exact le_trans (by decide) (hlow.trans hle)
    rw [UInt64.toNat_sub_of_le _ _ hone]
    have : (1 : UInt64).toNat = 1 := rfl
    omega
  · obtain hzero | ⟨k, hk⟩ := nextPow2_eq n
    · rw [hzero]
      exact Nat.dvd_zero _
    · have hfour : 4 ≤ k := by
        by_contra hlt
        have : 2 ^ k < 2 ^ 4 := Nat.pow_lt_pow_right (by decide) (by omega)
        omega
      rw [hk]
      exact Nat.pow_dvd_pow 2 hfour

/-- The width asked for, floored at one word.
Source: `internal/tinylfu/sketch.go` `newSketch`
Kind: D -/
def flooredWidth (width : Int64) : UInt64 :=
  (if width < minWidth then minWidth else width).toUInt64

/-- A width that is not negative is converted as it is.
Source: `internal/tinylfu/sketch.go` `newSketch`
Kind: L -/
theorem toNat_toUInt64 {x : Int64} (h : 0 ≤ x.toInt) : (x.toUInt64.toNat : ℤ) = x.toInt := by
  have htoInt : x.toInt = x.toBitVec.toInt := rfl
  have htoNat : x.toUInt64.toNat = x.toBitVec.toNat := rfl
  have hlt := x.toBitVec.isLt
  rw [htoInt, BitVec.toInt_eq_toNat_cond] at h ⊢
  rw [htoNat]
  split_ifs at h ⊢ with hsmall
  · rfl
  · omega

/-- The floored width, in integers.
Source: `internal/tinylfu/sketch.go` `newSketch`
Kind: L -/
theorem toNat_flooredWidth (width : Int64) :
    ((flooredWidth width).toNat : ℤ) = max 16 width.toInt := by
  have hmin : minWidth.toInt = 16 := rfl
  unfold flooredWidth
  split_ifs with hlt
  · rw [Int64.lt_iff_toInt_lt] at hlt
    rw [toNat_toUInt64 (by omega)]
    omega
  · rw [Int64.lt_iff_toInt_lt] at hlt
    rw [toNat_toUInt64 (by omega)]
    omega

/-- The floored width lies between 16 and `2 ^ 63`.
Source: `internal/tinylfu/sketch.go` `newSketch`
Kind: L -/
theorem flooredWidth_bounds (width : Int64) :
    16 ≤ (flooredWidth width).toNat ∧ (flooredWidth width).toNat ≤ 2 ^ 63 := by
  have hfloor := toNat_flooredWidth width
  have hlt := width.toInt_lt
  omega

/-- An empty sketch. Above `2 ^ 62` the width overflows, and `make` panics on the negative length. It
panics far below that too, for a row of more than `maxAlloc` bytes, which is not modelled.
Source: `internal/tinylfu/sketch.go` `newSketch`
Kind: D -/
def newSketch (width : Int64) (seed : UInt64) : Outcome Sketch :=
  let w := nextPow2 (flooredWidth width)
  if w.toInt64 < 0 then
    .error .panic
  else
    .ok {
      wd := w.toNat
      rows := fun _ => Vector.replicate _ 0
      mask := w - 1
      seed := seed
      mask_succ := (nextPow2_packed (flooredWidth_bounds width).1 (flooredWidth_bounds width).2).1
      packed_dvd := (nextPow2_packed (flooredWidth_bounds width).1 (flooredWidth_bounds width).2).2 }

/-- As far as the rows can be allocated, at two counters to a byte, a sketch of at least the width
asked for is built.
Source: `internal/tinylfu/sketch.go` `newSketch`
Kind: L -/
theorem newSketch_returns {width : Int64} (h : width.toInt ≤ 2 * maxAlloc) (seed : UInt64) :
    Returns (newSketch width seed) fun s =>
      width.toInt ≤ s.wd ∧ s.wd ≤ 2 * maxAlloc ∧ s.seed = seed := by
  have hmax : maxAlloc = 281474976710656 := rfl
  have hfloor := toNat_flooredWidth width
  have hle := le_nextPow2 (n := flooredWidth width) (by omega) (by omega)
  have hge := nextPow2_le (n := flooredWidth width) (k := 49) (by omega) (by decide) (by omega)
  have hnonneg : ¬ (nextPow2 (flooredWidth width)).toInt64 < 0 := by
    rw [Int64.lt_iff_toInt_lt]
    have htoInt : (nextPow2 (flooredWidth width)).toInt64.toInt =
      (nextPow2 (flooredWidth width)).toBitVec.toInt := rfl
    have htoNat : (nextPow2 (flooredWidth width)).toBitVec.toNat =
      (nextPow2 (flooredWidth width)).toNat := rfl
    have hzero : (0 : Int64).toInt = 0 := rfl
    rw [htoInt, BitVec.toInt_eq_toNat_of_lt (by omega)]
    omega
  unfold newSketch
  rw [if_neg hnonneg]
  exact ⟨_, rfl, by dsimp only; omega, by dsimp only; omega, rfl⟩

namespace Sketch

/-- Source: `internal/tinylfu/sketch.go` `sketch.width`
Kind: D -/
def width (s : Sketch) : ℕ := s.wd

/-- Source: `internal/tinylfu/sketch.go` `sketch.counterIndex`
Kind: D -/
def counterIndex (s : Sketch) (fp : UInt64) (row : Fin depth) : s.Index :=
  ⟨mix (fp ^^^ s.seed ^^^ rowSeeds.get row) &&& s.mask, UInt64.and_le_right⟩

/-- Source: `internal/tinylfu/sketch.go` `sketch.read`
Kind: D -/
def read (s : Sketch) (row : Fin depth) (idx : s.Index) : UInt8 :=
  let word := (s.rows row).get ⟨(idx.1 >>> 4).toNat, s.word_lt idx⟩
  let shift := (idx.1 &&& 15) * 4
  ((word >>> shift) &&& 15).toUInt8

/-- The words of the row after the counter at `idx` is raised by one.
Source: `internal/tinylfu/sketch.go` `sketch.raise`
Kind: D -/
def raise (s : Sketch) (row : Fin depth) (idx : s.Index) : Vector UInt64 (s.wd / nibblesPerWord) :=
  let w := (s.rows row).get ⟨(idx.1 >>> 4).toNat, s.word_lt idx⟩
  let shift := (idx.1 &&& 15) * 4
  (s.rows row).set (idx.1 >>> 4).toNat (w + ((1 : UInt64) <<< shift)) (s.word_lt idx)

/-- The least of four counters, from `nibbleMax` down: the first loop of `increment` and the loop of
`estimate`.
Source: `internal/tinylfu/sketch.go` `sketch.estimate`
Kind: D -/
def lowest (val : Fin depth → UInt8) : UInt8 :=
  (List.finRange depth).foldl (fun lo i => if val i < lo then val i else lo) nibbleMax

/-- The conservative update.
Source: `internal/tinylfu/sketch.go` `sketch.increment`
Kind: D -/
def increment (s : Sketch) (fp : UInt64) : Sketch :=
  let idx := s.counterIndex fp
  let val := fun i => s.read i (idx i)
  let lo := lowest val
  if lo ≥ nibbleMax then
    s
  else
    -- The four raises are on four rows.
    { s with rows := fun i => if val i = lo then s.raise i (idx i) else s.rows i }

/-- Source: `internal/tinylfu/sketch.go` `sketch.estimate`
Kind: D -/
def estimate (s : Sketch) (fp : UInt64) : UInt8 :=
  lowest fun i => s.read i (s.counterIndex fp i)

/-- Source: `internal/tinylfu/sketch.go` `sketch.halve`
Kind: D -/
def halve (s : Sketch) : Sketch :=
  { s with rows := fun i => (s.rows i).map fun word : UInt64 => (word >>> 1) &&& halfNibbles }

/-! ### The unpacked table -/

/-- Counter `j` of a row.
Source: none
Kind: D -/
def counter (s : Sketch) (row : Fin depth) (j : ℕ) : ℕ := packed (s.rows row) j

/-- The column of a fingerprint in a row.
Source: none
Kind: D -/
def column (s : Sketch) (row : Fin depth) (fp : UInt64) : ℕ := (s.counterIndex fp row).1.toNat

/-- The counters are those of the rows.
Source: none
Kind: L -/
theorem counter_with (s : Sketch) (rows : Fin depth → Vector UInt64 (s.wd / nibblesPerWord))
    (i : Fin depth) (j : ℕ) : { s with rows := rows }.counter i j = packed (rows i) j := rfl

/-- A read gives the counter at its index.
Source: `internal/tinylfu/sketch.go` `sketch.estimate`
Kind: L -/
theorem toNat_read (s : Sketch) (row : Fin depth) (idx : s.Index) :
    (s.read row idx).toNat = s.counter row idx.1.toNat :=
  packed_read (s.word_lt idx)

/-- The lowest of the counters, capped, as a greatest lower bound.
Source: `internal/tinylfu/sketch.go` `sketch.estimate`
Kind: L -/
theorem le_toNat_lowest_iff {val : Fin depth → UInt8} {c : ℕ} :
    c ≤ (lowest val).toNat ↔ c ≤ 15 ∧ ∀ i, c ≤ (val i).toNat := by
  have hloop : ∀ (l : List (Fin depth)) (lo : UInt8),
      c ≤ (l.foldl (fun lo i => if val i < lo then val i else lo) lo).toNat ↔
        c ≤ lo.toNat ∧ ∀ i ∈ l, c ≤ (val i).toNat := by
    intro l
    induction l with
    | nil =>
        intro lo
        simp only [List.foldl_nil, List.not_mem_nil, false_implies, implies_true, and_true]
    | cons i rest ih =>
        intro lo
        rw [List.foldl_cons, ih, List.forall_mem_cons, ← and_assoc]
        refine and_congr_left fun _ => ?_
        split_ifs with hlt
        · rw [UInt8.lt_iff_toNat_lt] at hlt
          omega
        · rw [UInt8.lt_iff_toNat_lt] at hlt
          omega
  unfold lowest
  rw [hloop]
  simp only [List.mem_finRange, true_implies]
  rfl

/-- The estimate is the count-min estimate of the unpacked table.
Source: `internal/tinylfu/sketch.go` `sketch.estimate`
Kind: L -/
theorem estimate_eq (s : Sketch) (fp : UInt64) :
    (s.estimate fp).toNat = CountMin.estimate s.column 15 s.counter fp := by
  refine eq_of_forall_le_iff fun c => ?_
  unfold estimate
  rw [le_toNat_lowest_iff, CountMin.le_estimate_iff]
  simp only [toNat_read, column]

/-- A full estimate is not incremented.
Source: `internal/tinylfu/sketch.go` `sketch.increment`
Kind: L -/
theorem increment_of_full {s : Sketch} {fp : UInt64} (h : nibbleMax ≤ s.estimate fp) :
    s.increment fp = s := by
  unfold estimate at h
  unfold increment
  exact if_pos h

/-- An increment raises the counters that hold the estimate.
Source: `internal/tinylfu/sketch.go` `sketch.increment`
Kind: L -/
theorem increment_of_not_full {s : Sketch} {fp : UInt64} (h : ¬ nibbleMax ≤ s.estimate fp) :
    s.increment fp = { s with
      rows := fun i =>
        if s.read i (s.counterIndex fp i) = s.estimate fp then s.raise i (s.counterIndex fp i)
        else s.rows i } := by
  unfold estimate at h ⊢
  unfold increment
  exact if_neg h

/-- `increment` writes counters and nothing else.
Source: `internal/tinylfu/sketch.go` `sketch.increment`
Kind: L -/
theorem increment_eq_with (s : Sketch) (fp : UInt64) :
    ∃ rows, s.increment fp = { s with rows := rows } := by
  by_cases hfull : nibbleMax ≤ s.estimate fp
  · exact ⟨s.rows, increment_of_full hfull⟩
  · exact ⟨_, increment_of_not_full hfull⟩

/-- An increment keeps the number of counters.
Source: `internal/tinylfu/sketch.go` `sketch.increment`
Kind: L -/
theorem wd_increment (s : Sketch) (fp : UInt64) : (s.increment fp).wd = s.wd := by
  obtain ⟨rows, hrows⟩ := s.increment_eq_with fp
  rw [hrows]

/-- An increment keeps the width.
Source: `internal/tinylfu/sketch.go` `sketch.increment`
Kind: L -/
theorem width_increment (s : Sketch) (fp : UInt64) : (s.increment fp).width = s.width := by
  obtain ⟨rows, hrows⟩ := s.increment_eq_with fp
  rw [hrows]
  rfl

/-- An increment keeps the columns.
Source: `internal/tinylfu/sketch.go` `sketch.increment`
Kind: L -/
theorem column_increment (s : Sketch) (fp : UInt64) : (s.increment fp).column = s.column := by
  obtain ⟨rows, hrows⟩ := s.increment_eq_with fp
  rw [hrows]
  rfl

/-- Halving keeps the columns.
Source: `internal/tinylfu/sketch.go` `sketch.halve`
Kind: L -/
theorem column_halve (s : Sketch) : s.halve.column = s.column := rfl

/-- Raising a counter adds one to it and keeps the others of the row.
Source: `internal/tinylfu/sketch.go` `sketch.increment`
Kind: L -/
theorem counter_raise {s : Sketch} {row : Fin depth} {fp : UInt64}
    (h : s.counter row (s.column row fp) < 15) (j : ℕ) :
    packed (s.raise row (s.counterIndex fp row)) j =
      s.counter row j + if j = s.column row fp then 1 else 0 :=
  packed_raise (s.word_lt _) h j

/-- `increment` is the conservative update of the unpacked table.
Source: `internal/tinylfu/sketch.go` `sketch.increment`
Kind: L -/
theorem counter_increment (s : Sketch) (fp : UInt64) :
    (s.increment fp).counter = CountMin.conservative s.column 15 s.counter fp := by
  funext i j
  have hlo := s.estimate_eq fp
  have hle := CountMin.estimate_le s.column 15 s.counter fp i
  have hread : (s.read i (s.counterIndex fp i)).toNat = s.counter i (s.column i fp) :=
    s.toNat_read i _
  unfold CountMin.conservative
  by_cases hfull : nibbleMax ≤ s.estimate fp
  · -- The minimum is at the maximum: no counter of `fp` is below it.
    have hmax : 15 ≤ (s.estimate fp).toNat := UInt8.le_iff_toNat_le.mp hfull
    rw [increment_of_full hfull, if_neg]
    rintro ⟨rfl, hmin, hroom⟩
    omega
  · have hmax : (s.estimate fp).toNat < 15 := UInt8.lt_iff_toNat_lt.mp (UInt8.not_le.mp hfull)
    rw [increment_of_not_full hfull, counter_with]
    by_cases hmin : s.read i (s.counterIndex fp i) = s.estimate fp
    · have hcounter : s.counter i (s.column i fp) = CountMin.estimate s.column 15 s.counter fp := by
        rw [← hread, hmin, hlo]
      rw [if_pos hmin, counter_raise (by omega)]
      by_cases hj : j = s.column i fp
      · subst hj
        rw [if_pos rfl, if_pos ⟨rfl, hcounter, by omega⟩]
      · rw [if_neg hj, if_neg fun h => hj h.1]
        rfl
    · rw [if_neg hmin, if_neg]
      · rfl
      · rintro ⟨rfl, hcounter, _⟩
        exact hmin (UInt8.toNat_inj.mp (by rw [hread, hcounter, hlo]))

/-- Halving halves every counter.
Source: `internal/tinylfu/sketch.go` `sketch.halve`
Kind: L -/
theorem counter_halve (s : Sketch) : s.halve.counter = CountMin.halve s.counter := by
  funext i j
  exact packed_halve (s.rows i) j

/-- The counters of a new sketch are zero.
Source: `internal/tinylfu/sketch.go` `newSketch`
Kind: L -/
theorem counter_newSketch {width : Int64} {seed : UInt64} {s : Sketch}
    (h : newSketch width seed = .ok s) : s.counter = fun _ _ => 0 := by
  unfold newSketch at h
  dsimp only at h
  split_ifs at h
  cases h
  funext i j
  exact packed_replicate j

/-! ### Sequences of calls -/

/-- Source: `internal/tinylfu/sketch.go` `sketch`
Kind: D -/
inductive Call where
  | increment (fp : UInt64)
  | halve

/-- Source: `internal/tinylfu/sketch.go` `sketch`
Kind: D -/
def call (s : Sketch) : Call → Sketch
  | .increment fp => s.increment fp
  | .halve => s.halve

/-- The true counts: one counter per fingerprint, saturating at 15 and halved as a whole.
Source: none
Kind: D -/
def reference (r : UInt64 → ℕ) : Call → UInt64 → ℕ
  | .increment fp => CountMin.tally 15 r fp
  | .halve => fun fp => r fp / 2

/-- The sketch that raises all four counters of a fingerprint.
Source: none
Kind: D -/
def plainCall (index : Fin depth → UInt64 → ℕ) (P : Fin depth → ℕ → ℕ) : Call → Fin depth → ℕ → ℕ
  | .increment fp => CountMin.plain index 15 P fp
  | .halve => CountMin.halve P

/-- A sketch between its reference counts and the plain sketch.
Source: none
Kind: D -/
structure Sandwiched (index : Fin depth → UInt64 → ℕ) (s : Sketch) (r : UInt64 → ℕ)
    (P : Fin depth → ℕ → ℕ) : Prop where
  column : s.column = index
  covers : CountMin.Covers index 15 s.counter r
  dominated : CountMin.Dominated 15 s.counter P

/-- One call keeps the sketch between the two.
Source: `internal/tinylfu/sketch.go` `sketch`
Kind: L -/
theorem Sandwiched.call {index : Fin depth → UInt64 → ℕ} {s : Sketch} {r : UInt64 → ℕ}
    {P : Fin depth → ℕ → ℕ} (h : Sandwiched index s r P) (c : Call) :
    Sandwiched index (s.call c) (reference r c) (plainCall index P c) := by
  obtain ⟨rfl, hcovers, hdominated⟩ := h
  cases c with
  | increment fp =>
      refine ⟨s.column_increment fp, ?_, ?_⟩
      · change CountMin.Covers s.column 15 (s.increment fp).counter _
        rw [counter_increment]
        exact hcovers.tally fp
      · change CountMin.Dominated 15 (s.increment fp).counter _
        rw [counter_increment]
        exact hdominated.conservative fp
  | halve =>
      refine ⟨s.column_halve, ?_, ?_⟩
      · change CountMin.Covers s.column 15 s.halve.counter _
        rw [counter_halve]
        exact hcovers.halve
      · change CountMin.Dominated 15 s.halve.counter _
        rw [counter_halve]
        exact hdominated.halve

/-- Along any calls the estimates stay between the counts and the plain sketch.
Source: `internal/tinylfu/sketch.go` `sketch`
Kind: L -/
theorem Sandwiched.calls {index : Fin depth → UInt64 → ℕ} {s : Sketch} {r : UInt64 → ℕ}
    {P : Fin depth → ℕ → ℕ} (h : Sandwiched index s r P) (calls : List Call) :
    Sandwiched index (calls.foldl Sketch.call s) (calls.foldl reference r)
      (calls.foldl (plainCall index) P) := by
  induction calls generalizing s r P with
  | nil => exact h
  | cons c rest ih => exact ih (h.call c)

end Sketch

/-- After any calls to a new sketch of any width and seed, the estimate of every fingerprint is at
least its reference count and at most the estimate of the plain count-min sketch with the same
indices.
Source: `internal/tinylfu/sketch.go` `sketch.increment`
Kind: P
Fidelity: exact -/
theorem estimate_sandwiched (width : Int64) (seed : UInt64) (s₀ : Sketch)
    (hnew : newSketch width seed = .ok s₀) (calls : List Sketch.Call) (fp : UInt64) :
    calls.foldl Sketch.reference (fun _ => 0) fp ≤
        ((calls.foldl Sketch.call s₀).estimate fp).toNat ∧
      ((calls.foldl Sketch.call s₀).estimate fp).toNat ≤
        CountMin.estimate s₀.column 15
          (calls.foldl (Sketch.plainCall s₀.column) fun _ _ => 0) fp := by
  have hzero := Sketch.counter_newSketch hnew
  have hstart : Sketch.Sandwiched s₀.column s₀ (fun _ => 0) (fun _ _ => 0) := by
    refine ⟨rfl, fun f => Nat.zero_le _, fun i j => ?_⟩
    rw [hzero]
    exact ⟨Nat.zero_le _, Nat.le_refl _⟩
  have hend := hstart.calls calls
  rw [Sketch.estimate_eq, hend.column]
  exact ⟨hend.covers fp, hend.dominated.estimate_le fp⟩

/-- Two increments and a halving on the smallest sketch.
Source: `internal/tinylfu/sketch_test.go` `TestSketchHalveDecaysEveryCounter`
Kind: C -/
theorem estimate_sandwiched_small :
    ∃ s₀, newSketch 16 7 = .ok s₀ ∧
      [Sketch.Call.increment 1, .increment 1, .halve].foldl Sketch.reference (fun _ => 0) 1 ≤
        (([Sketch.Call.increment 1, .increment 1, .halve].foldl Sketch.call s₀).estimate 1).toNat :=
  ⟨_, rfl, (estimate_sandwiched 16 7 _ rfl [.increment 1, .increment 1, .halve] 1).1⟩

end CacheMoney.Tinylfu
