import CacheMoney.Found.Bits
import CacheMoney.Tinylfu.Sketch

/-!
# The doorkeeper

A Bloom filter that holds the fingerprints seen once. A fingerprint marks four bits; it counts as
present when all four are marked, so another fingerprint can be taken for one that was seen, but
one that was seen is never forgotten before `reset`.

* The model: `newDoorkeeper`, `putOrHas`, `reset`.
* `putOrHas_spec`: the answer is `Holds`, and afterwards exactly the four bits are added.
* `holds_putOrHas`, `Holds.putOrHas`: no false negatives.
* `doorkeeper_exact`: after any calls, the answer in terms of the fingerprints put since `reset`.
-/

namespace CacheMoney.Tinylfu

open CacheMoney.Found

/-! ### The filter -/

/-- Source: `internal/tinylfu/doorkeeper.go` `doorkeeperBitsPerEntry`
Kind: D -/
def doorkeeperBitsPerEntry : Int64 := 6

/-- Source: `internal/tinylfu/doorkeeper.go` `doorkeeperK`
Kind: D -/
def doorkeeperK : ℕ := 4

/-- Source: `internal/tinylfu/doorkeeper.go` `doorkeeper`
Kind: D -/
structure Doorkeeper where
  /-- The length of `bits`. -/
  words : ℕ
  bits : Vector UInt64 words
  mask : UInt64
  seed : UInt64
  mask_word : (mask >>> 6).toNat < words

/-- The number of bits of a filter for `entries` fingerprints.
Source: `internal/tinylfu/doorkeeper.go` `newDoorkeeper`
Kind: D -/
def numBits (entries : Int64) : UInt64 :=
  let entries := if entries < 0 then 0 else entries
  let n := nextPow2 (doorkeeperBitsPerEntry * entries).toUInt64
  if n < 64 then 64 else n

/-- The filter is a whole number of words.
Source: `internal/tinylfu/doorkeeper.go` `newDoorkeeper`
Kind: L -/
theorem numBits_eq (entries : Int64) : ∃ k, (numBits entries).toNat = 64 * 2 ^ k := by
  have hlarge : ∀ n : UInt64, ¬ nextPow2 n < 64 → ∃ k, (nextPow2 n).toNat = 64 * 2 ^ k := by
    intro n hn
    rw [UInt64.lt_iff_toNat_lt] at hn
    have h64 : (64 : UInt64).toNat = 2 ^ 6 := rfl
    obtain hzero | ⟨k, hk⟩ := nextPow2_eq n
    · rw [hzero] at hn
      exact absurd (by decide) hn
    · have hsix : 6 ≤ k := by
        by_contra hlt
        have : 2 ^ k < 2 ^ 6 := Nat.pow_lt_pow_right (by decide) (by omega)
        omega
      refine ⟨k - 6, ?_⟩
      rw [hk, show 64 = 2 ^ 6 from rfl, ← Nat.pow_add]
      congr 1
      omega
  unfold numBits
  dsimp only
  split_ifs with _ hsmall hsmall
  · exact ⟨0, rfl⟩
  · exact hlarge _ hsmall
  · exact ⟨0, rfl⟩
  · exact hlarge _ hsmall

/-- The highest bit lies in the last word.
Source: `internal/tinylfu/doorkeeper.go` `newDoorkeeper`
Kind: L -/
theorem numBits_words (entries : Int64) :
    ((numBits entries - 1) >>> 6).toNat < (numBits entries / 64).toNat := by
  obtain ⟨k, hk⟩ := numBits_eq entries
  have hpos : 0 < 2 ^ k := Nat.two_pow_pos k
  have hone : (1 : UInt64) ≤ numBits entries := by
    rw [UInt64.le_iff_toNat_le]
    have : (1 : UInt64).toNat = 1 := rfl
    omega
  rw [toNat_shiftRight_six, UInt64.toNat_div, UInt64.toNat_sub_of_le _ _ hone, hk]
  change (64 * 2 ^ k - 1) / 64 < 64 * 2 ^ k / 64
  omega

/-- Source: `internal/tinylfu/doorkeeper.go` `newDoorkeeper`
Kind: D -/
def newDoorkeeper (entries : Int64) (seed : UInt64) : Doorkeeper where
  words := (numBits entries / 64).toNat
  bits := Vector.replicate _ 0
  mask := numBits entries - 1
  seed := seed
  mask_word := numBits_words entries

namespace Doorkeeper

/-- Bit `i` of a fingerprint, by double hashing.
Source: `internal/tinylfu/doorkeeper.go` `doorkeeper.putOrHas`
Kind: D -/
def position (mask seed fp : UInt64) (i : ℕ) : UInt64 :=
  let h1 := fp ^^^ seed
  let h2 := mix fp ||| 1
  (h1 + UInt64.ofNat i * h2) &&& mask

/-- Every position lies in a word of the filter.
Source: `internal/tinylfu/doorkeeper.go` `doorkeeper.putOrHas`
Kind: L -/
theorem word_lt (d : Doorkeeper) (fp : UInt64) (i : ℕ) :
    (position d.mask d.seed fp i >>> 6).toNat < d.words := by
  have hle : position d.mask d.seed fp i ≤ d.mask := UInt64.and_le_right
  rw [UInt64.le_iff_toNat_le] at hle
  refine lt_of_le_of_lt ?_ d.mask_word
  rw [toNat_shiftRight_six, toNat_shiftRight_six]
  exact Nat.div_le_div_right hle

/-- One round of the loop: test a bit, and mark it if it is clear.
Source: `internal/tinylfu/doorkeeper.go` `doorkeeper.putOrHas`
Kind: D -/
def probe (fp : UInt64) (st : Bool × Doorkeeper) (i : ℕ) : Bool × Doorkeeper :=
  let d := st.2
  let bit := position d.mask d.seed fp i
  let old := d.bits.get ⟨(bit >>> 6).toNat, d.word_lt fp i⟩
  let b := (1 : UInt64) <<< (bit &&& 63)
  if old &&& b = 0 then
    (false, { d with bits := d.bits.set (bit >>> 6).toNat (old ||| b) (d.word_lt fp i) })
  else
    st

/-- Whether the fingerprint was present; it is afterwards.
Source: `internal/tinylfu/doorkeeper.go` `doorkeeper.putOrHas`
Kind: D -/
def putOrHas (d : Doorkeeper) (fp : UInt64) : Bool × Doorkeeper :=
  (List.range doorkeeperK).foldl (probe fp) (true, d)

/-- Source: `internal/tinylfu/doorkeeper.go` `doorkeeper.reset`
Kind: D -/
def reset (d : Doorkeeper) : Doorkeeper := { d with bits := Vector.replicate _ 0 }

/-! ### No false negatives -/

/-- All four bits of the fingerprint are marked.
Source: none
Kind: D -/
def Holds (d : Doorkeeper) (fp : UInt64) : Prop :=
  ∀ i < doorkeeperK, marked d.bits (position d.mask d.seed fp i).toNat = true

/-- What a round does to the bits.
Source: `internal/tinylfu/doorkeeper.go` `doorkeeper.putOrHas`
Kind: L -/
theorem probe_spec (fp : UInt64) (seen : Bool) (d : Doorkeeper) (i : ℕ) :
    ∃ bits, probe fp (seen, d) i =
        (seen && marked d.bits (position d.mask d.seed fp i).toNat, { d with bits := bits }) ∧
      ∀ j, marked bits j =
        (marked d.bits j || decide (j = (position d.mask d.seed fp i).toNat)) := by
  have htest := and_bit_eq_zero_iff (v := d.bits) (d.word_lt fp i)
  unfold probe
  dsimp only
  split_ifs with hclear
  · rw [htest.mp hclear, Bool.and_false]
    exact ⟨_, rfl, marked_set (d.word_lt fp i)⟩
  · have hset : marked d.bits (position d.mask d.seed fp i).toNat = true := by
      rw [← Bool.not_eq_false]
      exact fun h => hclear (htest.mpr h)
    refine ⟨d.bits, by rw [hset, Bool.and_true], fun j => ?_⟩
    by_cases hj : j = (position d.mask d.seed fp i).toNat
    · rw [hj, hset, Bool.true_or]
    · rw [decide_eq_false hj, Bool.or_false]

/-- Any number of rounds.
Source: `internal/tinylfu/doorkeeper.go` `doorkeeper.putOrHas`
Kind: L -/
theorem probes_spec (fp : UInt64) (l : List ℕ) (seen : Bool) (d : Doorkeeper) :
    ∃ bits, (l.foldl (probe fp) (seen, d)).2 = { d with bits := bits } ∧
      ((l.foldl (probe fp) (seen, d)).1 = true ↔
        seen = true ∧ ∀ i ∈ l, marked d.bits (position d.mask d.seed fp i).toNat = true) ∧
      ∀ j, marked bits j = true ↔
        marked d.bits j = true ∨ ∃ i ∈ l, j = (position d.mask d.seed fp i).toNat := by
  induction l generalizing seen d with
  | nil =>
      refine ⟨d.bits, rfl, ?_, ?_⟩
      · simp
      · simp
  | cons i rest ih =>
      obtain ⟨bits₁, hprobe, hbits₁⟩ := probe_spec fp seen d i
      rw [List.foldl_cons, hprobe]
      obtain ⟨bits₂, hd, hseen, hbits₂⟩ :=
        ih (seen && marked d.bits (position d.mask d.seed fp i).toNat) { d with bits := bits₁ }
      refine ⟨bits₂, hd, ?_, fun j => ?_⟩
      · -- While nothing was clear, the rounds left the bits as they were.
        rw [hseen, Bool.and_eq_true, List.forall_mem_cons, and_assoc]
        refine and_congr_right fun _ => and_congr_right fun hi => ?_
        refine forall₂_congr fun k _ => ?_
        rw [hbits₁, Bool.or_eq_true, decide_eq_true_eq]
        constructor
        · rintro (hk | hk)
          · exact hk
          · rw [hk]
            exact hi
        · exact Or.inl
      · rw [hbits₂, hbits₁, Bool.or_eq_true, decide_eq_true_eq, List.exists_mem_cons_iff, or_assoc]

/-- `putOrHas` answers whether the filter holds the fingerprint, and marks its four bits.
Source: `internal/tinylfu/doorkeeper.go` `doorkeeper.putOrHas`
Kind: L -/
theorem putOrHas_spec (d : Doorkeeper) (fp : UInt64) :
    ∃ bits, (d.putOrHas fp).2 = { d with bits := bits } ∧
      ((d.putOrHas fp).1 = true ↔ d.Holds fp) ∧
      ∀ j, marked bits j = true ↔
        marked d.bits j = true ∨
          ∃ i < doorkeeperK, j = (position d.mask d.seed fp i).toNat := by
  obtain ⟨bits, hd, hseen, hbits⟩ := probes_spec fp (List.range doorkeeperK) true d
  simp only [List.mem_range, true_and] at hseen hbits
  exact ⟨bits, hd, hseen, hbits⟩

/-- What was put is held.
Source: `internal/tinylfu/doorkeeper.go` `doorkeeper.putOrHas`
Kind: L -/
theorem holds_putOrHas (d : Doorkeeper) (fp : UInt64) : (d.putOrHas fp).2.Holds fp := by
  obtain ⟨bits, hd, -, hbits⟩ := d.putOrHas_spec fp
  rw [hd]
  intro i hi
  exact (hbits _).mpr (Or.inr ⟨i, hi, rfl⟩)

/-- What is held stays held.
Source: `internal/tinylfu/doorkeeper.go` `doorkeeper.putOrHas`
Kind: L -/
theorem Holds.putOrHas {d : Doorkeeper} {g : UInt64} (h : d.Holds g) (fp : UInt64) :
    (d.putOrHas fp).2.Holds g := by
  obtain ⟨bits, hd, -, hbits⟩ := d.putOrHas_spec fp
  rw [hd]
  intro i hi
  exact (hbits _).mpr (Or.inl (h i hi))

/-- What is held is reported.
Source: `internal/tinylfu/doorkeeper.go` `doorkeeper.putOrHas`
Kind: L -/
theorem Holds.putOrHas_fst {d : Doorkeeper} {fp : UInt64} (h : d.Holds fp) :
    (d.putOrHas fp).1 = true := by
  obtain ⟨_, -, hseen, -⟩ := d.putOrHas_spec fp
  exact hseen.mpr h

/-! ### Sequences of calls -/

/-- Source: `internal/tinylfu/doorkeeper.go` `doorkeeper`
Kind: D -/
inductive Call where
  | putOrHas (fp : UInt64)
  | reset

/-- Source: `internal/tinylfu/doorkeeper.go` `doorkeeper`
Kind: D -/
def call (d : Doorkeeper) : Call → Doorkeeper
  | .putOrHas fp => (d.putOrHas fp).2
  | .reset => d.reset

/-- The fingerprints put since the last `reset`, after one more call.
Source: none
Kind: D -/
def remember (put : List UInt64) : Call → List UInt64
  | .putOrHas fp => put ++ [fp]
  | .reset => []

/-- The fingerprints that the calls put after the last `reset` among them.
Source: none
Kind: D -/
def sinceReset (calls : List Call) : List UInt64 := calls.foldl remember []

/-- A new filter after some calls.
Source: `internal/tinylfu/doorkeeper.go` `doorkeeper`
Kind: D -/
def after (entries : Int64) (seed : UInt64) (calls : List Call) : Doorkeeper :=
  calls.foldl Doorkeeper.call (newDoorkeeper entries seed)

/-- The marked bits of a filter are those of the fingerprints `put`.
Source: none
Kind: D -/
structure Recalls (mask seed : UInt64) (d : Doorkeeper) (put : List UInt64) : Prop where
  mask_eq : d.mask = mask
  seed_eq : d.seed = seed
  marked_iff : ∀ j, marked d.bits j = true ↔
    ∃ g ∈ put, ∃ k < doorkeeperK, j = (position mask seed g k).toNat

variable {mask seed : UInt64} {d : Doorkeeper} {put : List UInt64}

/-- After a reset the filter recalls nothing.
Source: `internal/tinylfu/doorkeeper.go` `doorkeeper.reset`
Kind: L -/
theorem recalls_reset (d : Doorkeeper) : Recalls d.mask d.seed d.reset [] := by
  refine ⟨rfl, rfl, fun j => ?_⟩
  have hclear : marked d.reset.bits j = false := marked_replicate j
  simp [hclear]

/-- One call.
Source: `internal/tinylfu/doorkeeper.go` `doorkeeper.putOrHas`, `doorkeeper.reset`
Kind: L -/
theorem Recalls.call (h : Recalls mask seed d put) (c : Call) :
    Recalls mask seed (d.call c) (remember put c) := by
  obtain ⟨rfl, rfl, hmarked⟩ := h
  cases c with
  | putOrHas fp =>
      obtain ⟨bits, hd, -, hbits⟩ := d.putOrHas_spec fp
      change Recalls d.mask d.seed (d.putOrHas fp).2 (put ++ [fp])
      rw [hd]
      refine ⟨rfl, rfl, fun j => ?_⟩
      rw [hbits, hmarked]
      simp only [List.mem_append, List.mem_singleton, or_and_right, exists_or, exists_eq_left]
  | reset => exact recalls_reset d

/-- Along any calls the filter recalls what was put since the last reset.
Source: `internal/tinylfu/doorkeeper.go` `doorkeeper.putOrHas`, `doorkeeper.reset`
Kind: L -/
theorem Recalls.calls (h : Recalls mask seed d put) (calls : List Call) :
    Recalls mask seed (calls.foldl Doorkeeper.call d) (calls.foldl remember put) := by
  induction calls generalizing d put with
  | nil => exact h
  | cons c rest ih => exact ih (h.call c)

/-- The answer of `putOrHas`, in terms of the positions alone.
Source: `internal/tinylfu/doorkeeper.go` `doorkeeper.putOrHas`
Kind: L -/
theorem Recalls.putOrHas_fst (h : Recalls mask seed d put) (fp : UInt64) :
    (d.putOrHas fp).1 = true ↔ ∀ i < doorkeeperK, ∃ g ∈ put, ∃ k < doorkeeperK,
      position mask seed fp i = position mask seed g k := by
  obtain ⟨rfl, rfl, hmarked⟩ := h
  obtain ⟨_, -, hseen, -⟩ := d.putOrHas_spec fp
  rw [hseen]
  unfold Holds
  simp only [hmarked, UInt64.toNat_inj]

end Doorkeeper

/-- After any calls to a new filter, `putOrHas` answers whether each of the four bits of the
fingerprint is a bit of some fingerprint put since the last `reset`. So the answer is `false` for
the first one, and `true` for one that was put. The word of every bit is in range.
Source: `internal/tinylfu/doorkeeper.go` `doorkeeper.putOrHas`, `doorkeeper.reset`
Kind: P
Fidelity: exact -/
theorem doorkeeper_exact (entries : Int64) (seed : UInt64) (calls : List Doorkeeper.Call)
    (fp : UInt64) :
    (((Doorkeeper.after entries seed calls).putOrHas fp).1 = true ↔
        ∀ i < doorkeeperK, ∃ g ∈ Doorkeeper.sinceReset calls, ∃ k < doorkeeperK,
          Doorkeeper.position (numBits entries - 1) seed fp i =
            Doorkeeper.position (numBits entries - 1) seed g k) ∧
      (Doorkeeper.sinceReset calls = [] →
        ((Doorkeeper.after entries seed calls).putOrHas fp).1 = false) ∧
      (fp ∈ Doorkeeper.sinceReset calls →
        ((Doorkeeper.after entries seed calls).putOrHas fp).1 = true) ∧
      ∀ i < doorkeeperK, (Doorkeeper.position (numBits entries - 1) seed fp i >>> 6).toNat <
        (Doorkeeper.after entries seed calls).bits.toArray.size := by
  have hrecalls : Doorkeeper.Recalls (numBits entries - 1) seed
      (Doorkeeper.after entries seed calls) (Doorkeeper.sinceReset calls) :=
    (Doorkeeper.recalls_reset (newDoorkeeper entries seed)).calls calls
  have hanswer := hrecalls.putOrHas_fst fp
  refine ⟨hanswer, fun hnil => ?_, fun hmem => ?_, fun i _ => ?_⟩
  · rw [← Bool.not_eq_true, hanswer, hnil]
    intro hall
    obtain ⟨g, hg, -⟩ := hall 0 (by decide)
    exact absurd hg List.not_mem_nil
  · exact hanswer.mpr fun i hi => ⟨fp, hmem, i, hi, rfl⟩
  · have hword := (Doorkeeper.after entries seed calls).word_lt fp i
    rw [hrecalls.mask_eq, hrecalls.seed_eq] at hword
    rw [Vector.size_toArray]
    exact hword

/-- A fingerprint after a reset: not seen the first time, seen the second.
Source: `internal/tinylfu/doorkeeper_test.go` `TestDoorkeeperResetClears`
Kind: C -/
theorem doorkeeper_exact_again :
    ((Doorkeeper.after 0 7 [.putOrHas 3, .reset]).putOrHas 5).1 = false ∧
      ((Doorkeeper.after 0 7 [.putOrHas 3, .reset, .putOrHas 5]).putOrHas 5).1 = true :=
  ⟨(doorkeeper_exact 0 7 [.putOrHas 3, .reset] 5).2.1 rfl,
    (doorkeeper_exact 0 7 [.putOrHas 3, .reset, .putOrHas 5] 5).2.2.1 (by decide)⟩

end CacheMoney.Tinylfu
