import Mathlib.Algebra.Order.Ring.Abs
import CacheMoney.Engine.Refusal
import CacheMoney.Server.Frame

/-!
# Expiry options

`SET` with `EX`, `PX`, `EXAT` or `PXAT`, from the argument to the replies of the reads. The number
is guarded before it is turned into a lifetime, the lifetime is counted in 64 bits, and the engine
adds it to its own reading of the clock.

* `ExpireUnit.deadline`: what the option says, in integers without bounds.
* `parseExpireInt_canonical_iff`: the numbers are the canonical decimals of 64 bits, but for two
  texts.
* `runIn_parseSetExpiry`: the lifetime is the time from now to the deadline, and there is one
  exactly when the guard and the clock allow it.
* `ReadsUntil`: what `GET`, `PTTL` and `TTL` reply for a key with a deadline.
* `expiry_options`: the result, from every state that commands can lead to.
-/

set_option linter.unusedSectionVars false

namespace CacheMoney.Server

open CacheMoney.Found CacheMoney.Resp CacheMoney.Shardmap
open CacheMoney.Engine (World Env Entry timeSub)

variable {S : Type} {c : Conn} {w : World S} {unit : ExpireUnit} {now n : ℤ}

/-! ### What the options say -/

/-- Source: `internal/server/commands.go` `parseSetExpiry`
Kind: D -/
def ExpireUnit.word : ExpireUnit → Bytes
  | .ex => text "EX"
  | .px => text "PX"
  | .exat => text "EXAT"
  | .pxat => text "PXAT"

/-- The deadline in nanoseconds since the epoch: `n` seconds or milliseconds from now, or from the
epoch.
Source: `internal/server/commands.go` `parseSetExpiry`
Kind: D -/
def ExpireUnit.deadline (now n : ℤ) : ExpireUnit → ℤ
  | .ex => now + n * 1000000000
  | .px => now + n * 1000000
  | .exat => n * 1000000000
  | .pxat => n * 1000000

/-- The number is in the guarded range of its unit, and the deadline is later than now.
Source: `internal/server/commands.go` `parseSetExpiry`
Kind: D -/
def ExpireUnit.Accepts (unit : ExpireUnit) (now n : ℤ) : Prop :=
  |n| ≤ unit.limit.toInt ∧ now < unit.deadline now n

/-- The word of a unit names it.
Source: `internal/server/commands.go` `parseSetExpiry`
Kind: L -/
theorem expireUnit_word (unit : ExpireUnit) : expireUnit unit.word = some unit := by
  cases unit <;> rfl

/-- The guard keeps the product with the unit inside 64 bits.
Source: `internal/server/commands.go` `maxExpireSeconds`, `maxExpireMillis`
Kind: L -/
theorem limit_scale_lt :
    maxExpireSeconds.toInt * 1000000000 < 2 ^ 63 ∧ maxExpireMillis.toInt * 1000000 < 2 ^ 63 := by
  decide

/-! ### Reading the number -/

/-- A numeral is read as its value, with its sign, unless it needs more than 63 bits.
Source: `internal/server/commands.go` `parseExpireInt`
Kind: L -/
theorem parseExpireInt_numeral (neg : Bool) (m : ℕ) :
    parseExpireInt (if neg then 45 :: numeral m else numeral m) =
      if m < 2 ^ 63 then some (if neg then -Int64.ofInt m else Int64.ofInt m) else none := by
  obtain ⟨d, ds, hm⟩ := List.exists_cons_of_ne_nil (numeral_ne_nil m)
  have hdigit : isDigit d = true := isDigit_of_mem_numeral (n := m) (hm ▸ List.mem_cons_self)
  have hrange : ¬(d < 48 ∨ 57 < d) := by
    rw [isDigit_iff] at hdigit
    rw [UInt8.lt_iff_toNat_lt, UInt8.lt_iff_toNat_lt]
    change ¬(d.toNat < 48 ∨ 57 < d.toNat)
    omega
  have hlead : ¬(ds ≠ [] ∧ d = 48) := by
    rintro ⟨hds, rfl⟩
    have hone := (canonical_numeral m).lead (by rw [hm]; rfl)
    rw [hm] at hone
    exact hds (List.cons.inj hone).2
  have hminus : ¬d = 45 := by
    rintro rfl
    exact absurd hdigit (by decide)
  have hread := atoi_numeral m
  rw [hm] at hread
  cases neg with
  | true =>
      simp only [parseExpireInt, if_true, hm, List.head?_cons, List.drop_succ_cons, List.drop_zero,
        if_neg hrange, if_neg hlead, hread]
      by_cases hlt : m < 2 ^ 63
      · simp only [if_pos hlt]
      · simp only [if_neg hlt]
  | false =>
      simp only [parseExpireInt, hm, List.head?_cons, Option.some.injEq, hminus, if_false,
        if_neg hrange, if_neg hlead, hread, Bool.false_eq_true]
      by_cases hlt : m < 2 ^ 63
      · simp only [if_pos hlt]
      · simp only [if_neg hlt]

/-- A canonical decimal is read as its value, unless that needs more than 63 bits.
Source: `internal/server/commands.go` `parseExpireInt`
Kind: L -/
theorem parseExpireInt_signedNumeral (n : ℤ) :
    parseExpireInt (signedNumeral n) = if |n| < 2 ^ 63 then some (Int64.ofInt n) else none := by
  have habs : n.natAbs < 2 ^ 63 ↔ |n| < 2 ^ 63 := by
    rw [Int.abs_eq_natAbs]
    omega
  unfold signedNumeral
  by_cases hn : n < 0
  · have hval : -Int64.ofInt (n.natAbs : ℤ) = Int64.ofInt n := by
      rw [← Int64.ofInt_neg, Int.ofNat_natAbs_of_nonpos hn.le, neg_neg]
    have hread := parseExpireInt_numeral true n.natAbs
    simp only [if_true, habs, hval] at hread
    rw [if_pos hn, hread]
  · have hval : Int64.ofInt (n.natAbs : ℤ) = Int64.ofInt n := by
      rw [Int.natAbs_of_nonneg (not_lt.mp hn)]
    have hread := parseExpireInt_numeral false n.natAbs
    simp only [Bool.false_eq_true, if_false, habs, hval] at hread
    rw [if_neg hn, hread]

/-- A number of less than 63 bits is itself in 64 bits.
Source: none
Kind: L -/
theorem toInt_ofInt_of_abs_lt (h : |n| < 2 ^ 63) : (Int64.ofInt n).toInt = n := by
  rw [abs_lt] at h
  exact Int64.toInt_ofInt_of_le (by omega) (by omega)

/-- What is read at all is a numeral, with a minus sign or without.
Source: `internal/server/commands.go` `parseExpireInt`
Kind: L -/
theorem numeral_of_parseExpireInt {b : Bytes} {z : Int64} (h : parseExpireInt b = some z) :
    ∃ (neg : Bool) (m : ℕ), b = if neg then 45 :: numeral m else numeral m := by
  obtain ⟨s, hs⟩ : ∃ s, (if b.head? = some 45 then b.drop 1 else b) = s := ⟨_, rfl⟩
  have hnumeral : s = numeral (valueFrom 0 s) := by
    unfold parseExpireInt at h
    simp only [hs] at h
    cases s with
    | nil => exact absurd h (by simp)
    | cons c ds =>
        simp only at h
        by_cases hrange : c < 48 ∨ 57 < c
        · rw [if_pos hrange] at h
          exact absurd h (by simp)
        by_cases hlead : ds ≠ [] ∧ c = 48
        · rw [if_neg hrange, if_pos hlead] at h
          exact absurd h (by simp)
        rw [if_neg hrange, if_neg hlead] at h
        have hc : isDigit c = true := by
          rw [not_or, UInt8.not_lt, UInt8.not_lt] at hrange
          exact isDigit_iff.mpr
            ⟨UInt8.le_iff_toNat_le.mp hrange.1, UInt8.le_iff_toNat_le.mp hrange.2⟩
        cases hread : atoi (c :: ds) with
        | none =>
            rw [hread] at h
            exact absurd h (by simp)
        | some n =>
            refine (numeral_valueFrom ⟨List.cons_ne_nil c ds, digits_of_atoi hc hread, ?_⟩).symm
            intro h48
            have hc48 : c = 48 := Option.some.inj h48
            have hds : ds = [] := by
              by_contra hne
              exact hlead ⟨hne, hc48⟩
            rw [hc48, hds]
  by_cases hneg : b.head? = some 45
  · obtain ⟨t, rfl⟩ := List.head?_eq_some_iff.mp hneg
    rw [if_pos hneg] at hs
    refine ⟨true, valueFrom 0 s, ?_⟩
    rw [if_pos rfl, ← hnumeral, ← hs]
    rfl
  · rw [if_neg hneg] at hs
    subst hs
    exact ⟨false, _, hnumeral⟩

/-- The two texts that are read differently from `string2ll`.
Source: `internal/server/commands.go` `parseExpireInt`
Kind: L -/
theorem text_minus_zero : text "-0" = 45 :: numeral 0 := by decide

/-- The least 64-bit integer in decimals.
Source: `internal/server/commands.go` `parseExpireInt`
Kind: L -/
theorem text_int_min : text "-9223372036854775808" = signedNumeral (-2 ^ 63) := by
  have hcan : Canonical (text "9223372036854775808") :=
    ⟨by decide, by decide +kernel, by decide⟩
  have hval : valueFrom 0 (text "9223372036854775808") = 2 ^ 63 := by decide +kernel
  have hnum : numeral (2 ^ 63) = text "9223372036854775808" := by
    rw [← hval, numeral_valueFrom hcan]
  rw [signedNumeral, if_pos (by decide), show (-2 ^ 63 : ℤ).natAbs = 2 ^ 63 by decide, hnum]
  rfl

/-- A text without a minus sign before a zero is read as `n` only if it is the decimal rendering of
`n`.
Source: `internal/server/commands.go` `parseExpireInt`
Kind: L -/
theorem signedNumeral_of_parseExpireInt {b : Bytes} {z : Int64} (hb : b ≠ text "-0")
    (h : parseExpireInt b = some z) : |z.toInt| < 2 ^ 63 ∧ b = signedNumeral z.toInt := by
  obtain ⟨neg, m, rfl⟩ := numeral_of_parseExpireInt h
  rw [parseExpireInt_numeral] at h
  split_ifs at h with hm hneg
  · subst hneg
    have hm0 : m ≠ 0 := by
      rintro rfl
      exact hb text_minus_zero.symm
    have hz : z.toInt = -(m : ℤ) := by
      rw [← Option.some.inj h, ← Int64.ofInt_neg]
      exact Int64.toInt_ofInt_of_le (by omega) (by omega)
    rw [hz, signedNumeral_neg hm0, if_pos rfl, abs_neg, Nat.abs_cast]
    exact ⟨by omega, rfl⟩
  · have hz : z.toInt = m := by
      rw [← Option.some.inj h]
      exact Int64.toInt_ofInt_of_le (by omega) (by omega)
    rw [hz, signedNumeral_natCast, if_neg hneg, Nat.abs_cast]
    exact ⟨by omega, rfl⟩

/-- The reading succeeds with `n` exactly on the decimal rendering of `n`, for every `n` of 64 bits,
unless the text is a zero with a minus sign or the least integer.
Source: `internal/server/commands.go` `parseExpireInt`
Kind: P
Fidelity: exact -/
theorem parseExpireInt_canonical_iff (b : Bytes) :
    (∀ n : ℤ, (parseExpireInt b).map Int64.toInt = some n ↔
        -2 ^ 63 ≤ n ∧ n ≤ 2 ^ 63 - 1 ∧ b = signedNumeral n) ↔
      b ≠ text "-0" ∧ b ≠ text "-9223372036854775808" := by
  constructor
  · intro h
    constructor
    · rintro rfl
      have hzero := ((h 0).mp (by decide)).2.2
      exact absurd hzero (by decide)
    · rintro rfl
      have hread := (h (-2 ^ 63)).mpr ⟨by decide, by decide, text_int_min⟩
      rw [text_int_min, parseExpireInt_signedNumeral, if_neg (by decide)] at hread
      exact absurd hread (by simp)
  · rintro ⟨hzero, hmin⟩ n
    rw [Option.map_eq_some_iff]
    constructor
    · rintro ⟨z, hz, rfl⟩
      obtain ⟨habs, hb⟩ := signedNumeral_of_parseExpireInt hzero hz
      rw [abs_lt] at habs
      exact ⟨by omega, by omega, hb⟩
    · rintro ⟨hlow, hhigh, rfl⟩
      have hne : n ≠ -2 ^ 63 := by
        rintro rfl
        exact hmin text_int_min.symm
      have habs : |n| < 2 ^ 63 := by
        rw [abs_lt]
        omega
      refine ⟨Int64.ofInt n, ?_, toInt_ofInt_of_abs_lt habs⟩
      rw [parseExpireInt_signedNumeral, if_pos habs]

/-- `-0` is read as zero, and the least 64-bit integer is not read.
Source: `internal/server/commands.go` `parseExpireInt`
Kind: C -/
theorem parseExpireInt_not_canonical :
    (parseExpireInt (text "-0") = some 0 ∧ text "-0" ≠ signedNumeral 0) ∧
      parseExpireInt (text "-9223372036854775808") = none ∧
      text "-9223372036854775808" = signedNumeral (-2 ^ 63) :=
  ⟨⟨by decide, by decide⟩, by decide, text_int_min⟩

/-! ### The lifetime -/

/-- A number in the guarded range times its unit, without overflow.
Source: `internal/server/commands.go` `parseSetExpiry`
Kind: L -/
theorem scaled_lt {limit k : ℤ} (hk : 1 ≤ k) (hlimit : limit * k < 2 ^ 63) (hn : |n| ≤ limit) :
    |n| < 2 ^ 63 ∧ |n * k| < 2 ^ 63 := by
  have hscaled : |n * k| < 2 ^ 63 := by
    rw [abs_mul, abs_of_pos (by omega : 0 < k)]
    exact (mul_le_mul_of_nonneg_right hn (by omega)).trans_lt hlimit
  refine ⟨?_, hscaled⟩
  calc |n| ≤ |n| * k := le_mul_of_one_le_right (abs_nonneg n) hk
    _ = |n * k| := by rw [abs_mul, abs_of_pos (by omega : 0 < k)]
    _ < 2 ^ 63 := hscaled

/-- A product of less than 63 bits is exact in 64 bits.
Source: none
Kind: L -/
theorem toInt_ofInt_mul {k : Int64} {z : ℤ} (hk : k.toInt = z) (h : |n| < 2 ^ 63)
    (hmul : |n * z| < 2 ^ 63) : (Int64.ofInt n * k).toInt = n * z := by
  rw [abs_lt] at hmul
  rw [Int64.toInt_mul, toInt_ofInt_of_abs_lt h, hk]
  exact Int.bmod_eq_of_le (by omega) (by omega)

/-- A lifetime counted from the clock to a time that fits 64 bits.
Source: `internal/server/commands.go` `parseSetExpiry`
Kind: L -/
theorem toInt_timeSub {d : ℤ} (hepoch : 0 ≤ now) (hd : d < 2 ^ 63) :
    (now < d → (Int64.ofInt (timeSub d now)).toInt = d - now) ∧
      (d ≤ now → (Int64.ofInt (timeSub d now)).toInt ≤ 0) := by
  have hbounds := Engine.timeSub_bounds d now
  rw [Int64.toInt_ofInt_of_le hbounds.1 hbounds.2]
  unfold timeSub Engine.minDuration Engine.maxDuration
  omega

/-- The absolute units read the clock once.
Source: `internal/server/commands.go` `parseSetExpiry`
Kind: L -/
theorem runIn_ask_now {α : Type} (fuel : ℕ) (g : ℤ → α) :
    (ask .now >>= fun t => pure (g t) : CmdM α).runIn (backend fuel) c w =
      .ok (g w.env.clock.head, c, w.tick) := by
  unfold ask
  rw [Script.runIn_bind, Script.runIn_ask]
  rfl

/-- The number in the guarded range becomes the time from now to the deadline, if there is any.
Source: `internal/server/commands.go` `parseSetExpiry`
Kind: L -/
theorem runIn_lifetime (hepoch : 0 ≤ now) (hnow : w.env.clock.head = now)
    (hn : |n| ≤ unit.limit.toInt) : ∃ ttl w',
      (∀ fuel, (unit.lifetime (Int64.ofInt n)).runIn (backend fuel) c w = .ok (ttl, c, w')) ∧
      w'.cache = w.cache ∧ w'.env.clock.read = w.env.clock.read ∧
      (now < unit.deadline now n → ttl.toInt = unit.deadline now n - now) ∧
      (unit.deadline now n ≤ now → ttl.toInt ≤ 0) := by
  -- The relative units multiply in 64 bits, the absolute ones read the clock and subtract.
  have hsec : |n| ≤ maxExpireSeconds.toInt → |n| < 2 ^ 63 ∧ |n * 1000000000| < 2 ^ 63 :=
    scaled_lt (by decide) limit_scale_lt.1
  have hmilli : |n| ≤ maxExpireMillis.toInt → |n| < 2 ^ 63 ∧ |n * 1000000| < 2 ^ 63 :=
    scaled_lt (by decide) limit_scale_lt.2
  cases unit with
  | ex =>
      simp only [ExpireUnit.limit] at hn
      obtain ⟨hsmall, hscaled⟩ := hsec hn
      refine ⟨_, w, fun fuel => rfl, rfl, rfl, ?_⟩
      have hunit : (1000000000 : Int64).toInt = 1000000000 := rfl
      rw [toInt_ofInt_mul hunit hsmall hscaled, ExpireUnit.deadline]
      omega
  | px =>
      simp only [ExpireUnit.limit] at hn
      obtain ⟨hsmall, hscaled⟩ := hmilli hn
      refine ⟨_, w, fun fuel => rfl, rfl, rfl, ?_⟩
      have hunit : (1000000 : Int64).toInt = 1000000 := rfl
      rw [toInt_ofInt_mul hunit hsmall hscaled, ExpireUnit.deadline]
      omega
  | exat =>
      simp only [ExpireUnit.limit] at hn
      obtain ⟨hsmall, hscaled⟩ := hsec hn
      refine ⟨_, w.tick, fun fuel => runIn_ask_now fuel _, rfl, rfl, ?_⟩
      rw [hnow, toInt_ofInt_of_abs_lt hsmall]
      exact toInt_timeSub hepoch (abs_lt.mp hscaled).2
  | pxat =>
      simp only [ExpireUnit.limit] at hn
      obtain ⟨hsmall, hscaled⟩ := hmilli hn
      refine ⟨_, w.tick, fun fuel => runIn_ask_now fuel _, rfl, rfl, ?_⟩
      rw [hnow, toInt_ofInt_of_abs_lt hsmall]
      exact toInt_timeSub hepoch (abs_lt.mp hscaled).2

/-- The guard is on the size of the number.
Source: `internal/server/commands.go` `parseSetExpiry`
Kind: L -/
theorem guard_iff (hn : |n| < 2 ^ 63) :
    (unit.limit < Int64.ofInt n ∨ Int64.ofInt n < -unit.limit) ↔ ¬|n| ≤ unit.limit.toInt := by
  have hneg : (-unit.limit).toInt = -unit.limit.toInt := by
    cases unit <;> decide
  rw [Int64.lt_iff_toInt_lt, Int64.lt_iff_toInt_lt, hneg, toInt_ofInt_of_abs_lt hn, abs_le]
  omega

/-- A number in the guarded range has less than 63 bits.
Source: `internal/server/commands.go` `parseSetExpiry`
Kind: L -/
theorem abs_lt_of_limit (h : |n| ≤ unit.limit.toInt) : |n| < 2 ^ 63 :=
  h.trans_lt unit.limit.toInt_lt

/-- An option and its number, from the reading of the number on.
Source: `internal/server/commands.go` `parseSetExpiry`
Kind: L -/
theorem runIn_option {opt : Bytes} (hopt : asciiUpper opt = unit.word) (number : Bytes)
    (fuel : ℕ) :
    (parseSetExpiry [opt, number]).runIn (backend fuel) c w =
      (match parseExpireInt number with
        | none => return .error errNotInteger
        | some n =>
            if unit.limit < n ∨ n < -unit.limit then return .error errInvalidExpire
            else do
              let ttl ← unit.lifetime n
              if ttl ≤ 0 then return .error errInvalidExpire
              else return .ok ttl : CmdM (Except Bytes Int64)).runIn (backend fuel) c w := by
  have hzero : index [opt, number] 0 = .ok opt := rfl
  have hone : index [opt, number] 1 = .ok number := rfl
  unfold parseSetExpiry arg
  rw [if_neg (by simp), if_neg (by simp), Script.runIn_bind, Script.runIn_lift, hzero, ok_bind,
    ok_bind, hopt, expireUnit_word]
  simp only
  rw [Script.runIn_bind, Script.runIn_lift, hone]
  rfl

/-- What the options of `SET` come to: the time from now to the deadline, or an error.
Source: `internal/server/commands.go` `parseSetExpiry`
Kind: P -/
theorem runIn_parseSetExpiry (hepoch : 0 ≤ now) (hnow : w.env.clock.head = now) {opt : Bytes}
    (hopt : asciiUpper opt = unit.word) (n : ℤ) : ∃ res w',
      (∀ fuel, (parseSetExpiry [opt, signedNumeral n]).runIn (backend fuel) c w =
        .ok (res, c, w')) ∧
      w'.cache = w.cache ∧ w'.env.clock.read = w.env.clock.read ∧
      (unit.Accepts now n → ∃ ttl, res = .ok ttl ∧ ttl.toInt = unit.deadline now n - now) ∧
      (¬unit.Accepts now n → ∃ msg, res = .error msg) := by
  have hrun := runIn_option (c := c) (w := w) hopt (signedNumeral n)
  rw [parseExpireInt_signedNumeral] at hrun
  by_cases hsize : |n| < 2 ^ 63
  swap
  · simp only [if_neg hsize] at hrun
    exact ⟨_, w, hrun, rfl, rfl, fun h => absurd (abs_lt_of_limit h.1) hsize, fun _ => ⟨_, rfl⟩⟩
  simp only [if_pos hsize] at hrun
  by_cases hguard : |n| ≤ unit.limit.toInt
  swap
  · simp only [if_pos ((guard_iff hsize).mpr hguard)] at hrun
    exact ⟨_, w, hrun, rfl, rfl, fun h => absurd h.1 hguard, fun _ => ⟨_, rfl⟩⟩
  simp only [if_neg fun h => (guard_iff hsize).mp h hguard] at hrun
  obtain ⟨ttl, w', hlife, hcache, hread, hlater, hpast⟩ :=
    runIn_lifetime (c := c) hepoch hnow hguard
  simp only [Script.runIn_bind, hlife, ok_bind] at hrun
  by_cases hdeadline : now < unit.deadline now n
  · have hpos : ¬ttl ≤ 0 := by
      rw [Int64.le_iff_toInt_le, hlater hdeadline]
      change ¬unit.deadline now n - now ≤ 0
      omega
    simp only [if_neg hpos] at hrun
    exact ⟨_, w', hrun, hcache, hread, fun _ => ⟨ttl, rfl, hlater hdeadline⟩,
      fun h => absurd ⟨hguard, hdeadline⟩ h⟩
  · have hneg : ttl ≤ 0 := by
      rw [Int64.le_iff_toInt_le]
      exact hpast (not_lt.mp hdeadline)
    simp only [if_pos hneg] at hrun
    exact ⟨_, w', hrun, hcache, hread, fun h => absurd h.2 hdeadline, fun _ => ⟨_, rfl⟩⟩

/-! ### Storing -/

/-- `SET` with an option, from the result of the parser on.
Source: `internal/server/commands.go` `cmdSet`
Kind: L -/
theorem runIn_set {verb key value opt number : Bytes} (hverb : asciiUpper verb = text "SET")
    {fuel : ℕ} {res : Except Bytes Int64} {w' : World S}
    (hparse : (parseSetExpiry [opt, number]).runIn (backend fuel) c w = .ok (res, c, w')) :
    (dispatch [verb, key, value, opt, number]).runIn (backend fuel) c w =
      (finishSet [verb, key, value, opt, number] res).runIn (backend fuel) c w' >>= fun r =>
        .ok (r.1.isSome, r.2) := by
  have hlook : lookupCommand (asciiUpper verb) = some ⟨text "SET", 3, 5, .set⟩ := by
    rw [hverb]
    rfl
  have hopts : sliceFrom [verb, key, value, opt, number] 3 = .ok [opt, number] := rfl
  rw [runIn_dispatch hlook rfl]
  change (cmdSet _).runIn _ _ _ >>= _ = _
  unfold cmdSet argsFrom
  rw [Script.runIn_bind, Script.runIn_lift, hopts, ok_bind, ok_bind, Script.runIn_bind, hparse,
    ok_bind]

/-- After accepted options the engine's `Set` decides: what comes after it is run in the world it
left.
Source: `internal/server/commands.go` `cmdSet`
Kind: L -/
theorem runIn_finishSet {verb key value : Bytes} {more : List Bytes} {fuel : ℕ} {ttl : Int64} :
    (∀ w', backend fuel (.set key value ttl) w = .ok (.ok (), w') →
      (finishSet (verb :: key :: value :: more) (.ok ttl)).runIn (backend fuel) c w =
        (write (·.writeSimpleString (text "OK"))).runIn (backend fuel) c w') ∧
    ∀ e, backend fuel (.set key value ttl) w = .error e →
      (finishSet (verb :: key :: value :: more) (.ok ttl)).runIn (backend fuel) c w = .error e := by
  have hone : index (verb :: key :: value :: more) 1 = .ok key := rfl
  have htwo : index (verb :: key :: value :: more) 2 = .ok value := rfl
  unfold finishSet arg ask
  simp only [Script.runIn_bind, Script.runIn_lift, Script.runIn_ask, hone, htwo, ok_bind]
  constructor
  · intro w' hset
    rw [hset]
    rfl
  · intro e hset
    rw [hset]
    rfl

/-- A reply of one value.
Source: none
Kind: L -/
theorem runIn_write_value {W : Type} {exec : (o : EngineOp) → W → Outcome (o.Answer × W)} {w : W}
    (hc : c.Ready) {g : Writer → Writer} {v : Value} (hg : g c.w = c.w.append v.encode) :
    (write g).runIn exec c w = .ok (none, c.put v.encode, w) := by
  rw [runIn_write, hg, Writer.append_err, hc.err]
  rfl

/-- Options that are refused are replied to with their error, and nothing is stored.
Source: `internal/server/commands.go` `cmdSet`
Kind: L -/
theorem runIn_set_error (hc : c.Ready) {verb key value opt number msg : Bytes}
    (hverb : asciiUpper verb = text "SET") {fuel : ℕ} {w' : World S}
    (hparse : (parseSetExpiry [opt, number]).runIn (backend fuel) c w = .ok (.error msg, c, w')) :
    (dispatch [verb, key, value, opt, number]).runIn (backend fuel) c w =
      .ok (false, c.put (Value.error msg).encode, w') := by
  rw [runIn_set hverb hparse, finishSet,
    runIn_write_value hc (Writer.writeError_of_none hc.err msg)]
  rfl

/-- Without a ceiling, an accepted `SET` is as good as the engine's `Set`: it stores, and replies
`OK`.
Source: `internal/server/commands.go` `cmdSet`
Kind: L -/
theorem runIn_set_ok (hc : c.Ready) {verb key value opt number : Bytes}
    (hverb : asciiUpper verb = text "SET") {fuel : ℕ} {ttl : Int64} {w' w'' : World S}
    (hparse : (parseSetExpiry [opt, number]).runIn (backend fuel) c w = .ok (.ok ttl, c, w'))
    (hset : backend fuel (.set key value ttl) w' = .ok (.ok (), w'')) :
    (dispatch [verb, key, value, opt, number]).runIn (backend fuel) c w =
      .ok (false, c.put (Value.simple (text "OK")).encode, w'') := by
  rw [runIn_set hverb hparse, runIn_finishSet.1 w'' hset,
    runIn_write_value hc (Writer.writeSimpleString_of_none hc.err (text "OK"))]
  rfl

/-- What the engine's `Set` ensures when it succeeds, `SET` ensures.
Source: `internal/server/commands.go` `cmdSet`
Kind: L -/
theorem ensures_set (hc : c.Ready) {verb key value opt number : Bytes}
    (hverb : asciiUpper verb = text "SET") {fuel : ℕ} {ttl : Int64} {w' : World S}
    (hparse : (parseSetExpiry [opt, number]).runIn (backend fuel) c w = .ok (.ok ttl, c, w'))
    {Q : World S → Prop}
    (hset : Ensures (backend fuel (.set key value ttl) w') fun r => r.1 = .ok () ∧ Q r.2) :
    Ensures ((dispatch [verb, key, value, opt, number]).runIn (backend fuel) c w) fun r =>
      r.1 = false ∧ r.2.1 = c.put (Value.simple (text "OK")).encode ∧ Q r.2.2 := by
  cases hback : backend fuel (.set key value ttl) w' with
  | ok r =>
      obtain ⟨res, w''⟩ := r
      obtain ⟨hres, hQ⟩ := hset.of_ok hback
      simp only at hres
      subst hres
      rw [runIn_set_ok hc hverb hparse hback]
      exact ⟨rfl, rfl, hQ⟩
  | error e =>
      have hrun : (dispatch [verb, key, value, opt, number]).runIn (backend fuel) c w =
          .error e := by
        rw [runIn_set hverb hparse, runIn_finishSet.2 e hback]
        rfl
      rw [hrun]
      rw [hback] at hset
      exact hset.of_error

/-- The engine's `Set` without a ceiling.
Source: `internal/cache/cache.go` `Set`
Kind: L -/
theorem backend_set {f : FinMap Bytes Entry} (h : w.cache.Holds f) (hunset : w.cache.maxmemory ≤ 0)
    (fuel : ℕ) (key value : Bytes) (ttl : Int64) :
    Ensures (backend fuel (.set key value ttl) w) fun r => r.1 = .ok () ∧
      r.2.cache.maxmemory ≤ 0 ∧
      r.2.cache.Holds (f.insert key ⟨value, Engine.expiryAt w.env.clock.head ttl.toInt⟩) := by
  have hset : Ensures ((Engine.Cache.set fuel none key value ttl.toInt).run (Engine.exec fuel) w)
      fun r => r.1 = .ok () ∧ r.2.cache.maxmemory ≤ 0 ∧
        r.2.cache.Holds (f.insert key ⟨value, Engine.expiryAt w.env.clock.head ttl.toInt⟩) := by
    refine (Engine.set_spec h fuel key value ttl.toInt).mono ?_
    rintro r (⟨-, -, hpos, -⟩ | ⟨hr, -, f', hw⟩)
    · exact absurd hpos (not_lt.mpr hunset)
    · refine ⟨hr, hw.maxmemory_eq.le.trans hunset, ?_⟩
      rw [← hw.quiet (Or.inl hunset)]
      exact hw.holds
  refine Ensures.bind hset ?_
  rintro ⟨res, w'⟩ ⟨hres, hafter⟩
  simp only at hres
  subst hres
  exact ⟨rfl, hafter⟩

/-- Without a ceiling, the engine's `Set` returns with enough fuel if the hashes of the keys are
distinct.
Source: `internal/cache/cache.go` `Set`
Kind: L -/
theorem backend_set_returns {f : FinMap Bytes Entry} (h : w.cache.Holds f)
    (hunset : w.cache.maxmemory ≤ 0) (hdist : w.cache.Distinct) (key value : Bytes) (ttl : Int64) :
    ∃ fuel₀, ∀ fuel ≥ fuel₀, ∃ w', backend fuel (.set key value ttl) w = .ok (.ok (), w') := by
  obtain ⟨fuel₀, hset⟩ := Engine.set_returns_quiet h hdist (Or.inl hunset) key value ttl.toInt
  refine ⟨fuel₀, fun fuel hfuel => ?_⟩
  obtain ⟨⟨res, w'⟩, hrun⟩ := hset fuel fuel hfuel
  have hback : backend fuel (.set key value ttl) w = .ok (res.mapError engineErr, w') := by
    change ((Engine.Cache.set fuel none key value ttl.toInt).run (Engine.exec fuel) w >>= fun r =>
      pure (r.1.mapError engineErr, r.2)) = _
    rw [hrun]
    rfl
  have hok := ((backend_set h hunset fuel key value ttl).of_ok hback).1
  exact ⟨w', hok ▸ hback⟩

/-! ### Reading -/

/-- The null of a dialect.
Source: `internal/resp/writer.go` `WriteNull`
Kind: D -/
def nullReply (proto : ℤ) : Value := if 3 ≤ proto then .null else .nullBulk

/-- `GET` replies with what the engine found.
Source: `internal/server/commands.go` `cmdGet`
Kind: L -/
theorem runIn_dispatch_get {W : Type} {exec : (o : EngineOp) → W → Outcome (o.Answer × W)}
    (hc : c.Ready) {verb key : Bytes} (hverb : asciiUpper verb = text "GET") {w w' : W}
    {found : Option Bytes} (hexec : exec (.get key) w = .ok (.ok found, w')) :
    (dispatch [verb, key]).runIn exec c w =
      .ok (false, c.put (found.elim (nullReply c.w.proto) Value.bulk).encode, w') := by
  have hlook : lookupCommand (asciiUpper verb) = some ⟨text "GET", 2, 2, .get⟩ := by
    rw [hverb]
    rfl
  have hone : index [verb, key] 1 = .ok key := rfl
  rw [runIn_dispatch hlook rfl]
  change (cmdGet _).runIn _ _ _ >>= _ = _
  unfold cmdGet arg ask
  rw [Script.runIn_bind, Script.runIn_lift, hone, ok_bind, ok_bind, Script.runIn_bind,
    Script.runIn_ask, hexec, ok_bind, ok_bind]
  cases found with
  | none =>
      simp only
      rw [runIn_write_value hc (Writer.writeNull_of_none hc.err)]
      rfl
  | some v =>
      simp only
      rw [runIn_write_value hc (Writer.writeBulk_of_none hc.err v)]
      rfl

/-- The value of a key is read until the deadline: at every time from `since` on, `GET` replies the
value before the deadline and null from then on, `PTTL` the whole milliseconds that are left and
`TTL` these rounded half up to seconds, or `-2`.
Source: `internal/server/commands.go` `cmdGet`, `replyTTL`
Kind: D -/
def ReadsUntil (since deadline : ℤ) (key value : Bytes) (w : World S) : Prop :=
  ∀ fuel ≥ 256, ∀ t ≥ since, ∀ env : Env, (∀ i, env.clock.read i = t) → ∀ c : Conn, c.Ready →
    ∀ verb,
      (asciiUpper verb = text "GET" → ∃ w', (dispatch [verb, key]).runIn (backend fuel) c
        ⟨w.cache, env⟩ = .ok (false, c.put (if t < deadline then Value.bulk value
          else nullReply c.w.proto).encode, w')) ∧
      (asciiUpper verb = text "PTTL" → ∃ w', (dispatch [verb, key]).runIn (backend fuel) c
        ⟨w.cache, env⟩ = .ok (false, c.put (Value.int (if t < deadline then
          (deadline - t) / 1000000 else -2)).encode, w')) ∧
      (asciiUpper verb = text "TTL" → ∃ w', (dispatch [verb, key]).runIn (backend fuel) c
        ⟨w.cache, env⟩ = .ok (false, c.put (Value.int (if t < deadline then
          ((deadline - t) / 1000000 + 500) / 1000 else -2)).encode, w'))

section reading

variable {key value : Bytes} {d : ℤ}

/-- An entry with a deadline is dead from the deadline on.
Source: `internal/cache/cache.go` `expired`
Kind: L -/
theorem deadAt_iff (hd : 0 ≤ d) (t : ℤ) : (⟨value, d⟩ : Entry).deadAt t = !decide (t < d) := by
  have hzero : Engine.zeroTime < 0 := by decide
  have hne : d ≠ Engine.zeroTime := by omega
  simp [Entry.deadAt, hne]

/-- The engine's `Get` gives the value of a live entry.
Source: `internal/cache/cache.go` `Get`
Kind: L -/
theorem backend_get {f : FinMap Bytes Entry} (h : w.cache.Holds f) {fuel : ℕ} (hfuel : 256 ≤ fuel)
    (key : Bytes) : ∃ w', backend fuel (.get key) w =
      .ok (.ok (((f.lookup key).bind (Engine.liveAt w.env.clock.head)).map Entry.value), w') := by
  obtain ⟨⟨r, w'⟩, hrun, hr⟩ := Engine.get_returns h hfuel key
  simp only at hr
  subst hr
  refine ⟨w', ?_⟩
  change ((Engine.Cache.get none key).run (Engine.exec fuel) w >>= fun x =>
    pure (x.1.mapError engineErr, x.2)) = _
  rw [hrun]
  rfl

/-- The number replied for a key with a deadline, at a clock that stands still.
Source: `internal/server/commands.go` `replyTTL`
Kind: L -/
theorem ttlNumber_timeLeft (hd : 0 ≤ d) {t : ℤ} (hfit : d - t < 2 ^ 63) (unit : TTLUnit) :
    (ttlNumber unit (((⟨value, d⟩ : Entry).record.timeLeft t t).map Int64.ofInt)).toInt =
      if t < d then
        if unit = .seconds then ((d - t) / 1000000 + 500) / 1000 else (d - t) / 1000000
      else -2 := by
  have hzero : Engine.zeroTime < 0 := by decide
  have hne : d ≠ Engine.zeroTime := by omega
  have hrecord : (⟨value, d⟩ : Entry).record = ⟨value, some d⟩ := by simp [Entry.record, hne]
  rw [hrecord, Engine.Record.timeLeft]
  by_cases hlive : t < d
  · have hleft : timeSub d t = d - t := by
      unfold timeSub Engine.minDuration Engine.maxDuration
      omega
    have hint : (Int64.ofInt (d - t)).toInt = d - t :=
      Int64.toInt_ofInt_of_le (by omega) (by omega)
    simp only [if_pos hlive, hleft, Option.map_some]
    rw [toInt_ttlNumber unit (by omega), hint]
  · simp only [if_neg hlive, Option.map_none, ttlNumber_none]

/-- A stored key is read until its deadline, and not from then on.
Source: `internal/server/commands.go` `cmdGet`, `replyTTL`
Kind: P -/
theorem Stores.readsUntil {since : ℤ} (h : Stores key ⟨value, d⟩ w) (hd : 0 ≤ d)
    (hfit : d - since < 2 ^ 63) : ReadsUntil since d key value w := by
  intro fuel hfuel t ht env hstill c hc verb
  obtain ⟨-, f, hf, hlook⟩ := h
  have hf' : (⟨w.cache, env⟩ : World S).cache.Holds f := hf
  have hhead : env.clock.head = t := hstill _
  have htail : env.clock.tail.head = t := hstill _
  have httl : ∀ unit, AsksTTL verb unit → ∃ w', (dispatch [verb, key]).runIn (backend fuel) c
      ⟨w.cache, env⟩ = .ok (false, c.put (Value.int (if t < d then
        if unit = .seconds then ((d - t) / 1000000 + 500) / 1000 else (d - t) / 1000000
        else -2)).encode, w') := by
    intro unit hverb
    obtain ⟨w', hans⟩ := backend_ttl key hf' hfuel
    rw [hlook, Option.bind_some, hhead, htail] at hans
    refine ⟨w', ?_⟩
    rw [runIn_dispatch_ttl hc hverb hans, ttlNumber_timeLeft hd (by omega)]
  refine ⟨fun hverb => ?_, fun hverb => ?_, fun hverb => ?_⟩
  · obtain ⟨w', hans⟩ := backend_get hf' hfuel key
    rw [hlook, Option.bind_some, hhead, Engine.liveAt, deadAt_iff hd] at hans
    refine ⟨w', ?_⟩
    rw [runIn_dispatch_get hc hverb hans]
    by_cases hlive : t < d
    · simp [hlive]
    · simp [hlive]
  · exact httl .milliseconds (Or.inr ⟨hverb, rfl⟩)
  · exact httl .seconds (Or.inl ⟨hverb, rfl⟩)

end reading

/-! ### The main result -/

section options

variable {f : FinMap Bytes Entry} {verb opt key value : Bytes}

/-- An option that is not accepted.
Source: `internal/server/commands.go` `cmdSet`
Kind: L -/
theorem set_refused (hc : c.Ready) (hepoch : 0 ≤ now) (hstill : ∀ i, w.env.clock.read i = now)
    (hverb : asciiUpper verb = text "SET") (hopt : asciiUpper opt = unit.word)
    (hrefuse : ¬unit.Accepts now n) (fuel : ℕ) : ∃ msg w',
      (dispatch [verb, key, value, opt, signedNumeral n]).runIn (backend fuel) c w =
        .ok (false, c.put (Value.error msg).encode, w') ∧ w'.cache = w.cache := by
  obtain ⟨res, w', hparse, hcache, -, -, herror⟩ :=
    runIn_parseSetExpiry (c := c) hepoch (hstill w.env.clock.pos) hopt n
  obtain ⟨msg, rfl⟩ := herror hrefuse
  exact ⟨msg, w', runIn_set_error hc hverb (hparse fuel), hcache⟩

/-- An option that is accepted becomes a `Set` of the engine with the lifetime up to the deadline.
Source: `internal/server/commands.go` `cmdSet`
Kind: L -/
theorem set_accepted (hepoch : 0 ≤ now) (hstill : ∀ i, w.env.clock.read i = now)
    (hopt : asciiUpper opt = unit.word) (haccept : unit.Accepts now n) :
    ∃ (ttl : Int64) (w' : World S),
      (∀ fuel, (parseSetExpiry [opt, signedNumeral n]).runIn (backend fuel) c w =
        .ok (.ok ttl, c, w')) ∧ w'.cache = w.cache ∧
      Engine.expiryAt w'.env.clock.head ttl.toInt = unit.deadline now n ∧
      unit.deadline now n - now < 2 ^ 63 := by
  obtain ⟨res, w', hparse, hcache, hread, hok, -⟩ :=
    runIn_parseSetExpiry (c := c) hepoch (hstill w.env.clock.pos) hopt n
  obtain ⟨ttl, rfl, httl⟩ := hok haccept
  have hlater := haccept.2
  refine ⟨ttl, w', hparse, hcache, ?_, httl ▸ ttl.toInt_lt⟩
  have hhead : w'.env.clock.head = now := by
    rw [Tape.head, hread]
    exact hstill _
  rw [hhead, httl, Engine.expiryAt, if_pos (by omega)]
  omega

end options

/-- **Expiry options mean what they say.** From every state that commands of clients can lead to,
with no memory ceiling set and a clock that stands still during a command, at or after the epoch:
`SET` of any key and value with an option and a canonical decimal `n` replies an error and leaves
the cache as it was, unless `n` is in the guarded range and the deadline is later than now. Then
`SET` replies `OK`, stores the key with exactly that deadline and leaves the other keys; it returns
if the hashes of the stored keys are distinct. After any further commands that neither write the key
nor set a ceiling, the key is read until the deadline, and not from then on.
Source: `internal/server/commands.go` `cmdSet`, `parseSetExpiry`, `replyTTL`
Kind: P
Fidelity: exact -/
theorem expiry_options {ι : Type} [DecidableEq ι] (host : Host S) (hasher : S → Bytes → UInt64)
    (opts : List (Engine.CacheOpt S)) (hhost : host.gomaxprocs * 4 ≤ 2 ^ 62)
    (hopts : ∀ n, Engine.CacheOpt.withShards n ∈ opts → n ≤ 2 ^ 62) (env : Env)
    (before : List (Visit ι)) (fuel₀ : ℕ) (conns conns' : ι → Conn) (w : World S)
    (hbefore : attend (backend fuel₀) World.turn before conns
      ⟨Engine.Cache.new host hasher opts, env⟩ = .ok (conns', w))
    (hunset : w.cache.maxmemory ≤ 0) (now : ℤ) (hepoch : 0 ≤ now) (env₁ : Env)
    (hstill : ∀ i, env₁.clock.read i = now) (c : Conn) (hc : c.Ready) (verb opt : Bytes)
    (unit : ExpireUnit) (hverb : asciiUpper verb = text "SET") (hopt : asciiUpper opt = unit.word)
    (key value : Bytes) (n : ℤ) :
    (¬unit.Accepts now n → ∀ fuel, ∃ msg w',
      (dispatch [verb, key, value, opt, signedNumeral n]).runIn (backend fuel) c ⟨w.cache, env₁⟩ =
        .ok (false, c.put (Value.error msg).encode, w') ∧ w'.cache = w.cache) ∧
    (unit.Accepts now n →
      (∀ fuel, Ensures ((dispatch [verb, key, value, opt, signedNumeral n]).runIn (backend fuel) c
        ⟨w.cache, env₁⟩) fun r =>
          r.1 = false ∧ r.2.1 = c.put (Value.simple (text "OK")).encode ∧
          r.2.2.cache.m.contents =
            upsert key ⟨value, unit.deadline now n⟩ w.cache.m.contents ∧
          ∀ after : List (Visit ι), (∀ v ∈ after, ¬WritesKey key v.args ∧ ¬SetsCeiling v.args) →
            ∀ fuel' conns x, attend (backend fuel') World.turn after conns r.2.2 = .ok x →
              ReadsUntil now (unit.deadline now n) key value x.2) ∧
      (w.cache.Distinct → ∃ fuel₁, ∀ fuel ≥ fuel₁, ∃ r,
        (dispatch [verb, key, value, opt, signedNumeral n]).runIn (backend fuel) c
          ⟨w.cache, env₁⟩ = .ok r)) := by
  obtain ⟨f, hf⟩ := attend_holds ⟨∅, Engine.holds_new host hasher opts hhost hopts⟩ hbefore
  refine ⟨fun hrefuse fuel => set_refused (w := ⟨w.cache, env₁⟩) hc hepoch hstill hverb hopt
    hrefuse fuel, fun haccept => ?_⟩
  obtain ⟨ttl, w₁, hparse, hcache, hexpiry, hfit⟩ := set_accepted (c := c) (w := ⟨w.cache, env₁⟩)
    hepoch hstill hopt haccept
  have hf₁ : w₁.cache.Holds f := hcache ▸ hf
  have hunset₁ : w₁.cache.maxmemory ≤ 0 := hcache ▸ hunset
  constructor
  · intro fuel
    have hset := backend_set hf₁ hunset₁ fuel key value ttl
    rw [hexpiry] at hset
    have hlater : 0 ≤ unit.deadline now n := hepoch.trans haccept.2.le
    refine (ensures_set hc hverb (hparse fuel) (Q := fun w₂ => w₂.cache.maxmemory ≤ 0 ∧
      w₂.cache.Holds (f.insert key ⟨value, unit.deadline now n⟩)) hset).mono ?_
    rintro r ⟨hclose, hreply, hunset₂, hf₂⟩
    refine ⟨hclose, hreply, ?_, fun after hafter fuel' conns x hrun => ?_⟩
    · rw [hf₂.represents.contents_eq, hf.represents.contents_eq, pairs_insert]
    · have hstores : Stores key ⟨value, unit.deadline now n⟩ r.2.2 :=
        ⟨hunset₂, _, hf₂, Finmap.lookup_insert _⟩
      exact (attend_stores hafter hstores hrun).readsUntil hlater hfit
  · intro hdist
    obtain ⟨fuel₁, hset⟩ := backend_set_returns hf₁ hunset₁ (hcache ▸ hdist) key value ttl
    refine ⟨fuel₁, fun fuel hfuel => ?_⟩
    obtain ⟨w₂, hw₂⟩ := hset fuel hfuel
    exact ⟨_, runIn_set_ok hc hverb (hparse fuel) hw₂⟩

/-- `set k v ex 5` at time 0 on a new server, in lower case, and reads after a command for another
key.
Source: `internal/server/commands_test.go` `TestSetExpiryGuards`
Kind: C -/
theorem expiry_options_lower :
    ∃ r, (dispatch [text "set", text "k", text "v", text "ex", signedNumeral 5]).runIn (backend 9)
        (newConn ⟨[], true⟩ 1) ⟨Engine.Cache.new ⟨1, ()⟩ (fun _ _ => 0) [.withShards 1],
          clocked fun _ => 0⟩ = .ok r ∧
      r.2.1.w.out = text "+OK\r\n" ∧
      ∃ x, attend (backend 9) World.turn [⟨(), [text "DEL", text "other"], clocked fun _ => 3⟩]
          (fun _ => newConn ⟨[], true⟩ 2) r.2.2 = .ok x ∧
        ReadsUntil 0 5000000000 (text "k") (text "v") x.2 := by
  have hrun : ∃ r, (dispatch [text "set", text "k", text "v", text "ex", signedNumeral 5]).runIn
        (backend 9) (newConn ⟨[], true⟩ 1) ⟨Engine.Cache.new ⟨1, ()⟩ (fun _ _ => 0) [.withShards 1],
          clocked fun _ => 0⟩ = .ok r ∧
      r.2.1.w.out = text "+OK\r\n" ∧
      ∃ x, attend (backend 9) World.turn [⟨(), [text "DEL", text "other"], clocked fun _ => 3⟩]
          (fun _ => newConn ⟨[], true⟩ 2) r.2.2 = .ok x := ⟨_, rfl, rfl, _, rfl⟩
  obtain ⟨r, hr, hout, x, hx⟩ := hrun
  refine ⟨r, hr, hout, x, hx, ?_⟩
  have hmain := expiry_options (ι := Unit) ⟨1, ()⟩ (fun _ _ => 0) [.withShards 1] (by decide)
    (by simp) (clocked fun _ => 0) [] 9 (fun _ => newConn ⟨[], true⟩ 2) _ _ rfl le_rfl 0 le_rfl
    (clocked fun _ => 0) (fun _ => rfl) (newConn ⟨[], true⟩ 1) ⟨rfl, rfl, Or.inl rfl⟩ (text "set")
    (text "ex") .ex rfl rfl (text "k") (text "v") 5
  refine (((hmain.2 ⟨by decide, by decide⟩).1 9).of_ok hr).2.2.2 _ ?_ 9 _ x hx
  intro v hv
  rw [List.mem_singleton.mp hv]
  constructor
  · rintro ⟨verb, rest, hargs, hcase⟩
    obtain ⟨rfl, rfl⟩ := List.cons.inj hargs
    rcases hcase with ⟨hset, -⟩ | ⟨-, hmem⟩
    · exact absurd hset (by decide)
    · exact absurd hmem (by decide)
  · rintro ⟨verb, sub, param, val, m, hargs, -⟩
    cases hargs

end CacheMoney.Server
