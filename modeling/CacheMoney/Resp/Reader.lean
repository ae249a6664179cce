import CacheMoney.Found.Decimal
import CacheMoney.Resp.Grammar

/-!
# The request reader

`ReaderOn.readCommand` reads one request, over any two primitives that hand out lines and bytes.
`Reader.readCommand` is that code on a stream. The stream is the state: the bytes that the buffered
reader has not handed out yet. After them the source reports `io.EOF` or fails. The slices that the
reader allocates for a request are taken to be allocated, whatever the limits.

* `parseInt` is the reader's own number reading, on 64-bit integers; `parseInt_eq_some` says that
  it accepts the canonical numerals that fit, and nothing else. `parseIntExactly` is the same
  reading with every operation checked (`parseInt_recognises`).
-/

namespace CacheMoney.Resp

open CacheMoney.Found

/-! ### Errors -/

/-- The classification of a malformed request.
Source: `internal/resp/errors.go` `ErrKind`
Kind: D -/
inductive ErrKind where
  | expectedArray
  | expectedBulk
  | badLength
  | missingCRLF
  | bulkTooLong
  | multibulkTooLong
  | lineTooLong
  deriving DecidableEq, Repr

/-- Source: `internal/resp/errors.go` `kindMessages`
Kind: D -/
def ErrKind.message : ErrKind → Bytes
  | .expectedArray => text "expected '*' array header"
  | .expectedBulk => text "expected '$' bulk-string header"
  | .badLength => text "invalid length"
  | .missingCRLF => text "expected CRLF terminator"
  | .bulkTooLong => text "bulk length exceeds configured limit"
  | .multibulkTooLong => text "multibulk count exceeds configured limit"
  | .lineTooLong => text "header line exceeds limit"

/-- Source: `internal/resp/errors.go` `ProtocolError`
Kind: D -/
structure ProtocolError where
  kind : ErrKind
  msg : Bytes
  deriving DecidableEq

/-- Source: `internal/resp/errors.go` `newProtocolError`
Kind: D -/
def newProtocolError (kind : ErrKind) : ProtocolError := ⟨kind, kind.message⟩

/-- How a source ends after its last byte: `io.EOF`, or a transport error.
Source: none
Kind: D -/
inductive StreamEnd where
  | eof
  | fault (code : ℕ)
  deriving DecidableEq, Repr

/-- What a read may fail with.
Source: `internal/resp/reader.go` `ReadCommand`
Kind: D -/
inductive ReadErr where
  | eof
  | unexpectedEOF
  | protocol (e : ProtocolError)
  | transport (code : ℕ)
  deriving DecidableEq

/-! ### Limits -/

/-- Source: `internal/resp/limits.go` `Limits`
Kind: D -/
structure Limits where
  maxBulkLen : Int64
  maxMultibulkLen : Int64

/-- Source: `internal/resp/limits.go` `DefaultMaxBulkLen`
Kind: D -/
def defaultMaxBulkLen : Int64 := 512 * 1024 * 1024

/-- Source: `internal/resp/limits.go` `DefaultMaxMultibulkLen`
Kind: D -/
def defaultMaxMultibulkLen : Int64 := 1024 * 1024

/-- Source: `internal/resp/limits.go` `defaultBufferSize`
Kind: D -/
def defaultBufferSize : Int64 := 16 * 1024

/-- Source: `internal/resp/limits.go` `maxHeaderLine`
Kind: D -/
def maxHeaderLine : ℕ := 64

/-- Source: `internal/resp/limits.go` `config`
Kind: D -/
structure Config where
  limits : Limits
  bufferSize : Int64

/-- Source: `internal/resp/limits.go` `Option`
Kind: D -/
inductive ReaderOption where
  | withMaxBulkLen (n : Int64)
  | withMaxMultibulkLen (n : Int64)
  | withBufferSize (n : Int64)

/-- Source: `internal/resp/limits.go` `Option`
Kind: D -/
def ReaderOption.apply (c : Config) : ReaderOption → Config
  | .withMaxBulkLen n => { c with limits := { c.limits with maxBulkLen := n } }
  | .withMaxMultibulkLen n => { c with limits := { c.limits with maxMultibulkLen := n } }
  | .withBufferSize n => { c with bufferSize := n }

/-- A setting that is not positive resolves to its default.
Source: `internal/resp/limits.go` `resolveConfig`
Kind: D -/
def orDefault (n default : Int64) : Int64 := if n ≤ 0 then default else n

/-- Source: `internal/resp/limits.go` `resolveConfig`
Kind: D -/
def resolveConfig (opts : List ReaderOption) : Config :=
  let c := opts.foldl ReaderOption.apply
    ⟨⟨defaultMaxBulkLen, defaultMaxMultibulkLen⟩, defaultBufferSize⟩
  ⟨⟨orDefault c.limits.maxBulkLen defaultMaxBulkLen,
    orDefault c.limits.maxMultibulkLen defaultMaxMultibulkLen⟩,
    orDefault c.bufferSize defaultBufferSize⟩

/-! ### Reading -/

/-- What `bufio.Reader.ReadSlice('\n')` hands out: the line with its line feed, or what there was when
the buffer was full or the source ended, then with the end.
Source: none
Kind: D -/
inductive Slice where
  | line (line : Bytes)
  | bufferFull
  | ended (line : Bytes) (err : StreamEnd)

/-- The reader with its two ways to the bytes left open: `ReadSlice('\n')` of its `bufio.Reader`, and
`io.ReadFull` from it into a slice of some size. The code of the reader is written over these, so it
is the same code on a stream (`Reader.stream`) and on a buffer with a source below it
(`Bufio.buffer`).
Source: `internal/resp/reader.go` `Reader`
Kind: D -/
structure ReaderOn (σ : Type) where
  limits : Limits
  readSlice : EStateM ReadErr σ Slice
  readFull : ℕ → EStateM ReadErr σ Bytes

variable {σ : Type}

/-- Source: `internal/resp/reader.go` `normalizeEOF`
Kind: D -/
def normalizeEOF : ReadErr → ReadErr
  | .eof => .unexpectedEOF
  | e => e

/-- Source: `internal/resp/reader.go` `trimCRLF`
Kind: D -/
def trimCRLF (line : Bytes) : EStateM ReadErr σ Bytes :=
  if maxHeaderLine < line.length then throw (.protocol (newProtocolError .lineTooLong))
  else if line.length < 2 ∨ (line)[line.length - 2]? ≠ some 13 then
    throw (.protocol (newProtocolError .missingCRLF))
  else pure (line.take (line.length - 2))

/-- Source: `internal/resp/reader.go` `readHeaderLine`
Kind: D -/
def ReaderOn.readHeaderLine (r : ReaderOn σ) (atBoundary : Bool) : EStateM ReadErr σ Bytes := do
  match ← r.readSlice with
  | .line line => trimCRLF line
  | .bufferFull => throw (.protocol (newProtocolError .lineTooLong))
  | .ended line .eof => if atBoundary && line.isEmpty then throw .eof else throw .unexpectedEOF
  | .ended _ (.fault code) => throw (.transport code)

/-- The largest `int`.
Source: `internal/resp/reader.go` `maxInt`
Kind: D -/
def maxInt : Int64 := 9223372036854775807

/-- Source: `internal/resp/reader.go` `parseInt`
Kind: D -/
def parseIntLoop (n : Int64) : Bytes → Option Int64
  | [] => some n
  | c :: b =>
      if c < 48 || 57 < c then none
      else
        let d := Int64.ofNat (c - 48).toNat
        if (maxInt - d) / 10 < n then none
        else parseIntLoop (n * 10 + d) b

/-- Source: `internal/resp/reader.go` `parseInt`
Kind: D -/
def parseInt : Bytes → Option Int64
  | [] => none
  | c :: b =>
      if (c < 49 || 57 < c) && (b ≠ [] || c ≠ 48) then none
      else parseIntLoop 0 (c :: b)

/-- The loop of `parseInt` with every operation checked: the digit, the two of the guard, the
product and the sum.
Source: `internal/resp/reader.go` `parseInt`
Kind: D -/
def parseIntLoopExactly (n : Int64) : Bytes → Outcome (Option Int64)
  | [] => pure (some n)
  | c :: b =>
      if c < 48 || 57 < c then pure none
      else do
        let d ← exactly (Int64.ofNat (c - 48).toNat) (c.toNat - 48)
        let room ← exactly (maxInt - d) (maxInt.toInt - d.toInt)
        let most ← exactly (room / 10) (room.toInt / 10)
        if most < n then pure none
        else do
          let tens ← exactly (n * 10) (n.toInt * 10)
          let n ← exactly (tens + d) (tens.toInt + d.toInt)
          parseIntLoopExactly n b

/-- Source: `internal/resp/reader.go` `parseInt`
Kind: D -/
def parseIntExactly : Bytes → Outcome (Option Int64)
  | [] => pure none
  | c :: b =>
      if (c < 49 || 57 < c) && (b ≠ [] || c ≠ 48) then pure none
      else parseIntLoopExactly 0 (c :: b)

/-- The two headers of a request differ in their type byte, their limit and their errors.
Source: `internal/resp/reader.go` `ReadCommand`, `readBulkArg`
Kind: D -/
def ReaderOn.readLength (r : ReaderOn σ) (atBoundary : Bool) (type : UInt8) (wrong : ErrKind)
    (limit : Int64) (tooLong : ErrKind) : EStateM ReadErr σ Int64 := do
  let header ← r.readHeaderLine atBoundary
  if header.head? ≠ some type then throw (.protocol (newProtocolError wrong))
  match parseInt header.tail with
  | none => throw (.protocol (newProtocolError .badLength))
  | some n => if limit < n then throw (.protocol (newProtocolError tooLong)) else pure n

/-- Source: `internal/resp/reader.go` `ReadCommand`
Kind: D -/
def ReaderOn.readArrayHeader (r : ReaderOn σ) : EStateM ReadErr σ Int64 :=
  r.readLength true Marker.array.byte .expectedArray r.limits.maxMultibulkLen .multibulkTooLong

/-- Source: `internal/resp/reader.go` `readBulkArg`
Kind: D -/
def ReaderOn.readBulkHeader (r : ReaderOn σ) : EStateM ReadErr σ Int64 :=
  r.readLength false Marker.bulk.byte .expectedBulk r.limits.maxBulkLen .bulkTooLong

/-- The payload and its line end, two reads with the end of the source taken as a cut.
Source: `internal/resp/reader.go` `readBulkArg`
Kind: D -/
def ReaderOn.readPayload (r : ReaderOn σ) (n : ℕ) : EStateM ReadErr σ Bytes := do
  let buf ← EStateM.adaptExcept normalizeEOF (r.readFull n)
  let ends ← EStateM.adaptExcept normalizeEOF (r.readFull 2)
  if ends ≠ crlf then throw (.protocol (newProtocolError .missingCRLF))
  pure buf

/-- Source: `internal/resp/reader.go` `readBulkArg`
Kind: D -/
def ReaderOn.readBulkArg (r : ReaderOn σ) : EStateM ReadErr σ Bytes := do
  let n ← r.readBulkHeader
  r.readPayload n.toNatClampNeg

/-- Source: `internal/resp/reader.go` `ReadCommand`
Kind: D -/
def ReaderOn.readBulkArgs (r : ReaderOn σ) : ℕ → EStateM ReadErr σ (List Bytes)
  | 0 => pure []
  | n + 1 => do
      let arg ← r.readBulkArg
      let args ← r.readBulkArgs n
      pure (arg :: args)

/-- Source: `internal/resp/reader.go` `ReadCommand`
Kind: D -/
def ReaderOn.readCommand (r : ReaderOn σ) : EStateM ReadErr σ (List Bytes) := do
  let n ← r.readArrayHeader
  r.readBulkArgs n.toNatClampNeg

/-! ### The stream -/

/-- A reader over a source, without the bytes still to come. The buffer of `bufio` has at least
sixteen bytes.
Source: `internal/resp/reader.go` `Reader`
Kind: D -/
structure Reader where
  limits : Limits
  bufSize : ℕ
  ending : StreamEnd

/-- Source: `internal/resp/reader.go` `NewReader`
Kind: D -/
def newReader (ending : StreamEnd) (opts : List ReaderOption) : Reader :=
  let cfg := resolveConfig opts
  ⟨cfg.limits, max 16 cfg.bufferSize.toNatClampNeg, ending⟩

/-- Reads, over the bytes that are still unread.
Source: none
Kind: D -/
abbrev ReadM (α : Type) := EStateM ReadErr Bytes α

/-- `bufio.Reader.ReadSlice('\n')`, on the stream.
Source: none
Kind: D -/
def readSlice (r : Reader) : ReadM Slice := fun unread =>
  match (unread.take r.bufSize).idxOf? 10 with
  | some i => .ok (.line (unread.take (i + 1))) (unread.drop (i + 1))
  | none =>
      if r.bufSize ≤ unread.length then .ok .bufferFull (unread.drop r.bufSize)
      else .ok (.ended unread r.ending) []

/-- `io.ReadFull` into a slice of `n` bytes, on the stream.
Source: none
Kind: D -/
def readFull (r : Reader) (n : ℕ) : ReadM Bytes := fun unread =>
  if n ≤ unread.length then .ok (unread.take n) (unread.drop n)
  else
    match r.ending with
    | .eof => .error (if unread = [] then .eof else .unexpectedEOF) []
    | .fault code => .error (.transport code) []

/-- The reader on the bytes that are still unread.
Source: `internal/resp/reader.go` `Reader`
Kind: D -/
abbrev Reader.stream (r : Reader) : ReaderOn Bytes := ⟨r.limits, readSlice r, readFull r⟩

/-- Source: `internal/resp/reader.go` `ReadCommand`
Kind: D -/
def Reader.readCommand (r : Reader) : ReadM (List Bytes) := r.stream.readCommand

/-! ### Numbers -/

/-- The room above a digit is exact in 64 bits.
Source: `internal/resp/reader.go` `parseInt`
Kind: L -/
theorem toInt_maxInt_sub {d : ℕ} (hd : d < 10) :
    (maxInt - Int64.ofNat d).toInt = 9223372036854775807 - d := by
  rw [Int64.toInt_sub, Int64.toInt_ofNat_of_lt (by omega),
    show maxInt.toInt = 9223372036854775807 from rfl]
  exact Int.bmod_eq_of_le (by omega) (by omega)

/-- The bound of the guard is exact in 64 bits.
Source: `internal/resp/reader.go` `parseInt`
Kind: L -/
theorem toInt_maxInt_sub_div {d : ℕ} (hd : d < 10) :
    ((maxInt - Int64.ofNat d) / 10).toInt = (9223372036854775807 - d) / 10 := by
  have hsub := toInt_maxInt_sub hd
  have hne : maxInt - Int64.ofNat d ≠ Int64.minValue := by
    intro h
    rw [h, show Int64.minValue.toInt = -9223372036854775808 from rfl] at hsub
    omega
  rw [Int64.toInt_div_of_ne_left _ _ hne, hsub, show (10 : Int64).toInt = 10 from rfl,
    Int.tdiv_eq_ediv_of_nonneg (by omega)]

/-- The loop reads digits as long as the value fits, and no step of it wraps around.
Source: `internal/resp/reader.go` `parseInt`
Kind: L -/
theorem parseIntLoop_eq (b : Bytes) : ∀ n : ℕ, n < 2 ^ 63 →
    parseIntLoop (Int64.ofNat n) b =
      if b.all isDigit = true ∧ valueFrom n b < 2 ^ 63 then
        some (Int64.ofNat (valueFrom n b)) else none := by
  induction b with
  | nil =>
      intro n hn
      rw [parseIntLoop, if_pos ⟨rfl, hn⟩, valueFrom_nil]
  | cons c b ih =>
      intro n hn
      by_cases hc : isDigit c = true
      · have hdigit := isDigit_iff.mp hc
        have hd : (c - 48).toNat = digitValue c := by
          rw [UInt8.toNat_sub_of_le c 48 (UInt8.le_iff_toNat_le.mpr hdigit.1)]
          rfl
        have hrange : ¬((c < 48 || 57 < c) = true) := by
          simp only [Bool.or_eq_true, decide_eq_true_eq, UInt8.lt_iff_toNat_lt]
          have h48 : (48 : UInt8).toNat = 48 := rfl
          have h57 : (57 : UInt8).toNat = 57 := rfl
          omega
        have hlt := digitValue_lt hc
        have hguard : (maxInt - Int64.ofNat (digitValue c)) / 10 < Int64.ofNat n ↔
            2 ^ 63 ≤ n * 10 + digitValue c := by
          rw [Int64.lt_iff_toInt_lt, toInt_maxInt_sub_div hlt, Int64.toInt_ofNat_of_lt hn]
          omega
        have hnext : Int64.ofNat n * 10 + Int64.ofNat (digitValue c) =
            Int64.ofNat (n * 10 + digitValue c) := by
          rw [Int64.ofNat_add, Int64.ofNat_mul]
          rfl
        rw [parseIntLoop, if_neg hrange]
        simp only [hd]
        by_cases hover : 2 ^ 63 ≤ n * 10 + digitValue c
        · rw [if_pos (hguard.mpr hover), if_neg]
          intro hall
          rw [valueFrom_cons] at hall
          exact absurd (le_trans hover (le_valueFrom b _)) (Nat.not_le.mpr hall.2)
        · rw [if_neg (fun h => hover (hguard.mp h)), hnext, ih _ (Nat.not_le.mp hover),
            valueFrom_cons]
          simp only [List.all_cons, hc, Bool.true_and]
      · have hrange : (c < 48 || 57 < c) = true := by
          rw [isDigit_iff] at hc
          simp only [Bool.or_eq_true, decide_eq_true_eq, UInt8.lt_iff_toNat_lt]
          have h48 : (48 : UInt8).toNat = 48 := rfl
          have h57 : (57 : UInt8).toNat = 57 := rfl
          omega
        rw [parseIntLoop, if_pos hrange, if_neg]
        exact fun hall => hc (List.all_eq_true.mp hall.1 c List.mem_cons_self)

/-- The reader's numbers are the canonical numerals that fit.
Source: `internal/resp/reader.go` `parseInt`
Kind: L -/
theorem parseInt_eq_some {b : Bytes} {z : Int64} :
    parseInt b = some z ↔ ∃ n : ℕ, n < 2 ^ 63 ∧ z = Int64.ofNat n ∧ b = numeral n := by
  cases b with
  | nil =>
      constructor
      · intro h
        exact absurd h (by simp [parseInt])
      · rintro ⟨n, -, -, hb⟩
        exact absurd hb.symm (numeral_ne_nil n)
  | cons c b =>
      have hloop := parseIntLoop_eq (c :: b) 0 (by decide)
      rw [show Int64.ofNat 0 = 0 from rfl] at hloop
      constructor
      · intro h
        rw [parseInt] at h
        split_ifs at h with hlead
        rw [hloop] at h
        split_ifs at h with hall
        refine ⟨valueFrom 0 (c :: b), hall.2, (Option.some.inj h).symm, ?_⟩
        refine (numeral_valueFrom ⟨List.cons_ne_nil _ _, List.all_eq_true.mp hall.1,
          fun h48 => ?_⟩).symm
        rw [List.head?_cons, Option.some.injEq] at h48
        subst h48
        simpa using hlead
      · rintro ⟨n, hn, rfl, hb⟩
        have hcan := canonical_numeral n
        rw [← hb] at hcan
        have hlead : ¬(((c < 49 || 57 < c) && (b ≠ [] || c ≠ 48)) = true) := by
          intro hbad
          have hc := isDigit_iff.mp (hcan.digits c List.mem_cons_self)
          by_cases h48 : c = 48
          · have hb0 := hcan.lead (by rw [h48]; rfl)
            rw [List.cons.injEq] at hb0
            simp [h48, hb0.2] at hbad
          · have hne : c.toNat ≠ 48 := fun h => h48 (UInt8.toNat_inj.mp h)
            simp only [Bool.and_eq_true, Bool.or_eq_true, decide_eq_true_eq,
              UInt8.lt_iff_toNat_lt] at hbad
            have h49 : (49 : UInt8).toNat = 49 := rfl
            have h57 : (57 : UInt8).toNat = 57 := rfl
            omega
        have hval : valueFrom 0 (c :: b) = n := by rw [hb, valueFrom_numeral]
        have hall : (c :: b).all isDigit = true := List.all_eq_true.mpr hcan.digits
        rw [parseInt, if_neg hlead, hloop, if_pos ⟨hall, by rw [hval]; exact hn⟩, hval]

/-! ### No step wraps around -/

/-- The value of a digit.
Source: `internal/resp/reader.go` `parseInt`
Kind: L -/
theorem toNat_digit {c : UInt8} (h : ¬(c < 48 || 57 < c) = true) :
    48 ≤ c.toNat ∧ (c - 48).toNat = c.toNat - 48 ∧ (c - 48).toNat < 10 := by
  rw [Bool.or_eq_true, decide_eq_true_eq, decide_eq_true_eq, not_or, UInt8.not_lt, UInt8.not_lt,
    UInt8.le_iff_toNat_le, UInt8.le_iff_toNat_le] at h
  have h48 : (48 : UInt8).toNat = 48 := rfl
  have h57 : (57 : UInt8).toNat = 57 := rfl
  rw [UInt8.toNat_sub_of_le c 48 (UInt8.le_iff_toNat_le.mpr h.1)]
  omega

/-- Behind the guard, the product and the sum are exact.
Source: `internal/resp/reader.go` `parseInt`
Kind: L -/
theorem toInt_mul_add {n d : Int64} (hn : 0 ≤ n.toInt) (hd : 0 ≤ d.toInt)
    (h : n.toInt ≤ (9223372036854775807 - d.toInt) / 10) :
    (n * 10).toInt = n.toInt * 10 ∧ (n * 10 + d).toInt = n.toInt * 10 + d.toInt := by
  have hten : (n * 10).toInt = n.toInt * 10 := by
    rw [Int64.toInt_mul, show (10 : Int64).toInt = 10 from rfl]
    exact Int.bmod_eq_of_le (by omega) (by omega)
  refine ⟨hten, ?_⟩
  rw [Int64.toInt_add, hten]
  exact Int.bmod_eq_of_le (by omega) (by omega)

/-- The checked loop meets no fault, and computes what the loop computes.
Source: `internal/resp/reader.go` `parseInt`
Kind: L -/
theorem parseIntLoopExactly_eq (b : Bytes) : ∀ n : Int64, 0 ≤ n.toInt →
    parseIntLoopExactly n b = .ok (parseIntLoop n b) := by
  induction b with
  | nil =>
      intro n _
      rfl
  | cons c b ih =>
      intro n hn
      rw [parseIntLoopExactly, parseIntLoop]
      by_cases hrange : (c < 48 || 57 < c) = true
      · rw [if_pos hrange, if_pos hrange]
        rfl
      rw [if_neg hrange, if_neg hrange]
      obtain ⟨hlow, hsub, hlt⟩ := toNat_digit hrange
      have hd : (Int64.ofNat (c - 48).toNat).toInt = (c - 48).toNat :=
        Int64.toInt_ofNat_of_lt (by omega)
      have hroom := toInt_maxInt_sub hlt
      have hmost := toInt_maxInt_sub_div hlt
      rw [exactly_eq_ok (by rw [hd, hsub]; omega), ok_bind,
        exactly_eq_ok (by rw [hroom, hd]; rfl), ok_bind,
        exactly_eq_ok (by rw [hmost, hroom]), ok_bind]
      dsimp only
      by_cases hover : (maxInt - Int64.ofNat (c - 48).toNat) / 10 < n
      · rw [if_pos hover, if_pos hover]
        rfl
      · rw [if_neg hover, if_neg hover]
        rw [Int64.lt_iff_toInt_lt, hmost] at hover
        obtain ⟨htens, hnext⟩ := toInt_mul_add hn (d := Int64.ofNat (c - 48).toNat) (by omega)
          (by omega)
        rw [exactly_eq_ok htens, ok_bind, exactly_eq_ok (by rw [hnext, htens]), ok_bind]
        exact ih _ (by omega)

/-- The checked reading meets no fault.
Source: `internal/resp/reader.go` `parseInt`
Kind: L -/
theorem parseIntExactly_eq (b : Bytes) : parseIntExactly b = .ok (parseInt b) := by
  cases b with
  | nil => rfl
  | cons c b =>
      rw [parseIntExactly, parseInt]
      by_cases hlead : ((c < 49 || 57 < c) && (b ≠ [] || c ≠ 48)) = true
      · rw [if_pos hlead, if_pos hlead]
        rfl
      · rw [if_neg hlead, if_neg hlead]
        exact parseIntLoopExactly_eq (c :: b) 0 (by decide)

/-- The reading of a length field succeeds with `n` exactly on the decimal rendering of `n`, for `n`
up to the largest `int`, and no operation of it wraps around on any input.
Source: `internal/resp/reader.go` `parseInt`
Kind: P
Fidelity: exact -/
theorem parseInt_recognises (b : Bytes) (n : ℕ) :
    ((parseInt b).map Int64.toInt = some (n : ℤ) ↔ n ≤ 2 ^ 63 - 1 ∧ b = numeral n) ∧
      parseIntExactly b = .ok (parseInt b) := by
  refine ⟨?_, parseIntExactly_eq b⟩
  rw [Option.map_eq_some_iff]
  constructor
  · rintro ⟨z, hz, hzn⟩
    obtain ⟨m, hm, rfl, hb⟩ := parseInt_eq_some.mp hz
    rw [Int64.toInt_ofNat_of_lt hm, Int.natCast_inj] at hzn
    subst hzn
    exact ⟨by omega, hb⟩
  · rintro ⟨hn, hb⟩
    refine ⟨Int64.ofNat n, ?_, Int64.toInt_ofNat_of_lt (by omega)⟩
    exact parseInt_eq_some.mpr ⟨n, by omega, rfl, hb⟩

end CacheMoney.Resp
