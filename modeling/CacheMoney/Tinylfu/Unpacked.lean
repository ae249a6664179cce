import CacheMoney.Tinylfu.Sketch

/-!
# The sketch without packing

What the packed rows are for: four arrays of independent counters from 0 to 15. Here a counter has
no neighbours, so nothing can carry or bleed between two of them.

* `Unpacked`: the arrays, with `increment` and `halve` as the design states them.
* `Sketch.Unpacks`: a sketch holds the counters of such arrays. Every call keeps this
  (`Unpacks.call`).
* `sketch_refines_unpacked`: the two agree after any calls.
-/

namespace CacheMoney.Tinylfu

open CacheMoney.Found

/-! ### The arrays -/

/-- Four arrays of `w` counters.
Source: none
Kind: D -/
abbrev Unpacked (w : ℕ) : Type := Fin depth → Fin w → Fin 16

namespace Unpacked

variable {w : ℕ}

/-- The least of four counters, one in each array.
Source: none
Kind: D -/
def lowest (u : Unpacked w) (column : Fin depth → Fin w) : Fin 16 :=
  Finset.univ.inf' Finset.univ_nonempty fun i => u i (column i)

/-- Add one to those of four counters that are at their minimum, if that is below 15.
Source: none
Kind: D -/
def increment (u : Unpacked w) (column : Fin depth → Fin w) : Unpacked w := fun i j =>
  if h : j = column i ∧ u i j = u.lowest column ∧ u.lowest column < 15 then
    ⟨(u i j).val + 1, by have := h.2.1 ▸ h.2.2; omega⟩
  else u i j

/-- Replace every counter by its half, rounded down.
Source: none
Kind: D -/
def halve (u : Unpacked w) : Unpacked w := fun i j => ⟨(u i j).val / 2, by omega⟩

/-- One call, where `column` says which counters a fingerprint has.
Source: none
Kind: D -/
def call (column : UInt64 → Fin depth → Fin w) (u : Unpacked w) : Sketch.Call → Unpacked w
  | .increment fp => u.increment (column fp)
  | .halve => u.halve

/-- The lowest of the counters, as a greatest lower bound.
Source: none
Kind: L -/
theorem le_lowest_iff {u : Unpacked w} {column : Fin depth → Fin w} {c : Fin 16} :
    c ≤ u.lowest column ↔ ∀ i, c ≤ u i (column i) := by
  unfold lowest
  rw [Finset.le_inf'_iff]
  simp only [Finset.mem_univ, true_implies]

end Unpacked

namespace Sketch

/-! ### The packed rows hold the arrays -/

/-- A column lies in its row.
Source: `internal/tinylfu/sketch.go` `sketch.counterIndex`
Kind: L -/
theorem column_lt (s : Sketch) (i : Fin depth) (fp : UInt64) : s.column i fp < s.wd := by
  have hidx := UInt64.le_iff_toNat_le.mp (s.counterIndex fp i).2
  have hmask := s.mask_succ
  unfold column
  omega

/-- The counters of a fingerprint.
Source: `internal/tinylfu/sketch.go` `sketch.counterIndex`
Kind: D -/
def columns (s : Sketch) (fp : UInt64) (i : Fin depth) : Fin s.wd :=
  ⟨s.column i fp, s.column_lt i fp⟩

/-- The sketch `s` has the width and the columns of `s₀`, and its counters are those of `u`.
Source: none
Kind: D -/
structure Unpacks (s₀ s : Sketch) (u : Unpacked s₀.wd) : Prop where
  wd_eq : s.wd = s₀.wd
  column_eq : s.column = s₀.column
  counter_eq : ∀ i (j : Fin s₀.wd), s.counter i j = (u i j).val

variable {s₀ s : Sketch} {u : Unpacked s₀.wd}

/-- The estimate is the least of the four counters.
Source: `internal/tinylfu/sketch.go` `sketch.estimate`
Kind: L -/
theorem Unpacks.estimate_eq (h : Unpacks s₀ s u) (fp : UInt64) :
    CountMin.estimate s.column 15 s.counter fp = (u.lowest (s₀.columns fp)).val := by
  have hcounter : ∀ i, s.counter i (s.column i fp) = (u i (s₀.columns fp i)).val := by
    intro i
    rw [h.column_eq]
    exact h.counter_eq i (s₀.columns fp i)
  refine eq_of_forall_le_iff fun c => ?_
  rw [CountMin.le_estimate_iff]
  simp only [hcounter]
  constructor
  · rintro ⟨hc, hall⟩
    have hlow : (⟨c, by omega⟩ : Fin 16) ≤ u.lowest (s₀.columns fp) :=
      Unpacked.le_lowest_iff.mpr hall
    exact hlow
  · intro hc
    refine ⟨by omega, fun i => hc.trans ?_⟩
    exact Unpacked.le_lowest_iff.mp le_rfl i

/-- An increment of the packed counters is one of the unpacked ones.
Source: `internal/tinylfu/sketch.go` `sketch.increment`
Kind: L -/
theorem Unpacks.increment (h : Unpacks s₀ s u) (fp : UInt64) :
    Unpacks s₀ (s.increment fp) (u.increment (s₀.columns fp)) := by
  refine ⟨(s.wd_increment fp).trans h.wd_eq, (s.column_increment fp).trans h.column_eq, ?_⟩
  intro i j
  have hlow := h.estimate_eq fp
  have hcounter := h.counter_eq i j
  have hcol : (j : ℕ) = s.column i fp ↔ j = s₀.columns fp i := by
    rw [h.column_eq, Fin.ext_iff]
    rfl
  rw [counter_increment, CountMin.conservative, hlow, hcounter]
  unfold Unpacked.increment
  by_cases hraise : j = s₀.columns fp i ∧ u i j = u.lowest (s₀.columns fp) ∧
      u.lowest (s₀.columns fp) < 15
  · obtain ⟨hj, hmin, hroom⟩ := hraise
    rw [dif_pos ⟨hj, hmin, hroom⟩, if_pos ⟨hcol.mpr hj, congrArg Fin.val hmin, hmin ▸ hroom⟩]
  · rw [dif_neg hraise, if_neg]
    rintro ⟨hj, hmin, hroom⟩
    exact hraise ⟨hcol.mp hj, Fin.ext hmin, Fin.ext hmin ▸ hroom⟩

/-- Halving the packed counters halves the unpacked ones.
Source: `internal/tinylfu/sketch.go` `sketch.halve`
Kind: L -/
theorem Unpacks.halve (h : Unpacks s₀ s u) : Unpacks s₀ s.halve u.halve := by
  refine ⟨h.wd_eq, h.column_eq, fun i j => ?_⟩
  rw [counter_halve, CountMin.halve, h.counter_eq]
  rfl

/-- One call on the words is one call on the arrays.
Source: `internal/tinylfu/sketch.go` `sketch.increment`, `sketch.halve`
Kind: L -/
theorem Unpacks.call (h : Unpacks s₀ s u) (c : Call) :
    Unpacks s₀ (s.call c) (u.call s₀.columns c) := by
  cases c with
  | increment fp => exact h.increment fp
  | halve => exact h.halve

/-- Along any calls the packed counters unpack to the others.
Source: `internal/tinylfu/sketch.go` `sketch.increment`, `sketch.halve`
Kind: L -/
theorem Unpacks.calls (h : Unpacks s₀ s u) (calls : List Call) :
    Unpacks s₀ (calls.foldl Sketch.call s) (calls.foldl (Unpacked.call s₀.columns) u) := by
  induction calls generalizing s u with
  | nil => exact h
  | cons c rest ih => exact ih (h.call c)

/-- A call of `increment` leaves every counter that is not one of the fingerprint's.
Source: `internal/tinylfu/sketch.go` `sketch.raise`
Kind: L -/
theorem counter_increment_of_ne {fp : UInt64} {i : Fin depth} {j : ℕ} (h : j ≠ s.column i fp) :
    (s.increment fp).counter i j = s.counter i j := by
  rw [counter_increment, CountMin.conservative, if_neg fun hraise => h hraise.1]

end Sketch

/-- After any calls to a new sketch of any width and seed, the packed rows hold the counters that
the same calls make in four arrays of independent counters, and an estimate is the least of four of
them. The next addition changes no counter but the fingerprint's own, the next shift makes every
counter from its own value, and the word of every counter is in range. There is such a sketch as far
as its rows can be allocated, at two counters to a byte.
Source: `internal/tinylfu/sketch.go` `sketch.increment`, `sketch.halve`, `sketch.read`
Kind: P
Fidelity: exact -/
theorem sketch_refines_unpacked (width : Int64) (seed : UInt64) :
    (width.toInt ≤ 2 * maxAlloc →
      ∃ s₀, newSketch width seed = .ok s₀ ∧ width.toInt ≤ s₀.wd ∧ s₀.wd ≤ 2 * maxAlloc) ∧
    ∀ s₀, newSketch width seed = .ok s₀ → ∀ calls : List Sketch.Call,
      (∀ i (j : Fin s₀.wd), (calls.foldl Sketch.call s₀).counter i j =
          (calls.foldl (Unpacked.call s₀.columns) (fun _ _ => 0) i j).val) ∧
        (∀ fp, ((calls.foldl Sketch.call s₀).estimate fp).toNat =
          ((calls.foldl (Unpacked.call s₀.columns) fun _ _ => 0).lowest (s₀.columns fp)).val) ∧
        (∀ fp i j, j ≠ s₀.column i fp →
          ((calls.foldl Sketch.call s₀).increment fp).counter i j =
            (calls.foldl Sketch.call s₀).counter i j) ∧
        (∀ i j, (calls.foldl Sketch.call s₀).halve.counter i j =
          (calls.foldl Sketch.call s₀).counter i j / 2) ∧
        ∀ fp i, (((calls.foldl Sketch.call s₀).counterIndex fp i).1 >>> 4).toNat <
          ((calls.foldl Sketch.call s₀).rows i).toArray.size := by
  refine ⟨fun hwidth => (newSketch_returns hwidth seed).mono fun s hs => ⟨hs.1, hs.2.1⟩, ?_⟩
  intro s₀ hnew calls
  have hzero := Sketch.counter_newSketch hnew
  have hstart : Sketch.Unpacks s₀ s₀ (fun _ _ => 0) := ⟨rfl, rfl, fun i j => by rw [hzero]; rfl⟩
  have hend := hstart.calls calls
  refine ⟨hend.counter_eq, fun fp => ?_, fun fp i j hj => ?_, fun i j => ?_, fun fp i => ?_⟩
  · rw [Sketch.estimate_eq, hend.estimate_eq]
  · apply Sketch.counter_increment_of_ne
    rw [hend.column_eq]
    exact hj
  · rw [Sketch.counter_halve, CountMin.halve]
  · rw [Vector.size_toArray]
    exact Sketch.word_lt _ _

/-- Two additions for one fingerprint and a halving, in a sketch of 16 counters a row.
Source: `internal/tinylfu/sketch_test.go` `TestSketchHalveDecaysEveryCounter`
Kind: C -/
theorem sketch_refines_unpacked_small :
    ∃ s₀, newSketch 16 7 = .ok s₀ ∧ ∀ i (j : Fin s₀.wd),
      ([Sketch.Call.increment 1, .increment 1, .halve].foldl Sketch.call s₀).counter i j =
        ([Sketch.Call.increment 1, .increment 1, .halve].foldl (Unpacked.call s₀.columns)
          (fun _ _ => 0) i j).val := by
  obtain ⟨hbuilt, hrefines⟩ := sketch_refines_unpacked 16 7
  obtain ⟨s₀, hnew, -⟩ := hbuilt (by decide)
  exact ⟨s₀, hnew, (hrefines s₀ hnew [.increment 1, .increment 1, .halve]).1⟩

end CacheMoney.Tinylfu
