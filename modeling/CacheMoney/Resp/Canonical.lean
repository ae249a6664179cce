import CacheMoney.Resp.Reader

/-!
# What the request reader accepts

* `scan` forgets which error a read ended with, and turns reads into scanners; `scan_bind` makes it
  commute with sequencing.
* `canonical r`: the numbers of the reader are the canonical numerals within its limits, and a
  header may still be completed while no line feed has come and the buffer is not full.
* `Reader.reads_canonical`, `Reader.scan_readCommand`: the reader is the scanner of requests with
  headers of that lexicon.
-/

namespace CacheMoney.Resp

open CacheMoney.Found

variable {α β : Type}

/-! ### Reads as scanners -/

/-- A read, up to the identity of its error.
Source: none
Kind: D -/
def scan (m : ReadM α) : Scanner α := fun b =>
  match m b with
  | .ok a r => .done a r
  | .error (.protocol _) _ => .malformed
  | .error .eof _ => .short
  | .error .unexpectedEOF _ => .short
  | .error (.transport _) _ => .short

/-- Reads in sequence scan in sequence.
Source: none
Kind: L -/
theorem scan_bind (m : ReadM α) (f : α → ReadM β) :
    scan (m >>= f) = (scan m).bind fun a => scan (f a) := by
  funext b
  simp only [scan, Scanner.bind, bind, EStateM.bind]
  cases m b with
  | ok a r => rfl
  | error e r => cases e <;> rfl

/-- A read of nothing is done at once.
Source: none
Kind: L -/
theorem scan_pure (a : α) : scan (pure a : ReadM α) = fun b => .done a b := rfl

/-- A read succeeds with what its scanner finds.
Source: none
Kind: L -/
theorem eq_ok_iff_scan {m : ReadM α} {b r : Bytes} {a : α} :
    m b = .ok a r ↔ scan m b = .done a r := by
  unfold scan
  cases m b with
  | ok a' r' =>
      constructor
      · intro h
        cases h
        rfl
      · intro h
        obtain ⟨rfl, rfl⟩ := Verdict.done.inj h
        rfl
  | error e r' =>
      cases e <;> simp

/-! ### Header lines -/

section lines

variable (r : Reader) (atBoundary : Bool)

/-- The first line feed after bytes without one.
Source: none
Kind: L -/
theorem idxOf?_lf {l rest : Bytes} (hl : 10 ∉ l) : (l ++ 10 :: rest).idxOf? 10 = some l.length := by
  rw [List.idxOf?_eq_some_iff]
  refine ⟨by simp, by simp, fun j hj hat => ?_⟩
  rw [List.getElem_append_left hj] at hat
  exact hl (hat ▸ List.getElem_mem hj)

/-- A line is taken if it is short enough and a carriage return ends it.
Source: `internal/resp/reader.go` `trimCRLF`
Kind: L -/
theorem trimCRLF_line (l rest : Bytes) :
    scan (trimCRLF (l ++ [10])) rest =
      if l.length < maxHeaderLine ∧ l.getLast? = some 13 then .done l.dropLast rest
      else .malformed := by
  unfold trimCRLF
  by_cases hlong : maxHeaderLine < (l ++ [10]).length
  · rw [if_pos hlong, if_neg]
    · rfl
    · rw [List.length_append, List.length_singleton] at hlong
      omega
  have hshort : l.length < maxHeaderLine := by
    rw [List.length_append, List.length_singleton] at hlong
    omega
  rw [if_neg hlong]
  rcases List.eq_nil_or_concat l with rfl | ⟨hd, c, rfl⟩
  · rw [if_pos (Or.inl (by decide)), if_neg (by simp)]
    rfl
  · rw [List.concat_eq_append] at hshort ⊢
    have hat : (hd ++ [c] ++ [10])[(hd ++ [c] ++ [10]).length - 2]? = some c := by
      simp
    have htake : (hd ++ [c] ++ [10]).take ((hd ++ [c] ++ [10]).length - 2) = hd := by
      simp
    rw [hat, htake]
    by_cases hc : c = 13
    · subst hc
      rw [if_neg (by simp), if_pos ⟨hshort, by simp⟩, scan_pure, List.dropLast_concat]
    · rw [if_pos (Or.inr (by simpa using hc)), if_neg (by simp [hc])]
      rfl

/-- A line that the buffer holds.
Source: `internal/resp/reader.go` `readHeaderLine`
Kind: L -/
theorem Reader.scan_readHeaderLine_line {l rest : Bytes} (hl : 10 ∉ l)
    (hbuf : l.length < r.bufSize) :
    scan (r.stream.readHeaderLine atBoundary) (l ++ 10 :: rest) =
      if l.length < maxHeaderLine ∧ l.getLast? = some 13 then .done l.dropLast rest
      else .malformed := by
  have htake : (l ++ 10 :: rest).take r.bufSize =
      l ++ 10 :: rest.take (r.bufSize - l.length - 1) := by
    rw [List.take_append, List.take_of_length_le (by omega),
      show r.bufSize - l.length = r.bufSize - l.length - 1 + 1 by omega, List.take_succ_cons]
    simp
  have hslice : scan (readSlice r) (l ++ 10 :: rest) = .done (.line (l ++ [10])) rest := by
    unfold scan readSlice
    rw [htake, idxOf?_lf hl]
    simp only
    rw [show l ++ 10 :: rest = l ++ [10] ++ rest by simp,
      show l.length + 1 = (l ++ [10]).length by simp, List.take_left, List.drop_left]
  unfold ReaderOn.readHeaderLine
  rw [scan_bind, Scanner.bind, hslice]
  exact trimCRLF_line l rest

/-- A buffer full of bytes without a line feed is malformed.
Source: `internal/resp/reader.go` `readHeaderLine`
Kind: L -/
theorem Reader.scan_readHeaderLine_full {b : Bytes} (hb : 10 ∉ b.take r.bufSize)
    (hlen : r.bufSize ≤ b.length) : scan (r.stream.readHeaderLine atBoundary) b = .malformed := by
  have hslice : scan (readSlice r) b = .done .bufferFull (b.drop r.bufSize) := by
    unfold scan readSlice
    rw [List.idxOf?_eq_none_iff.mpr hb]
    simp only
    rw [if_pos hlen]
  unfold ReaderOn.readHeaderLine
  rw [scan_bind, Scanner.bind, hslice]
  rfl

/-- A stream that ends before the line feed falls short.
Source: `internal/resp/reader.go` `readHeaderLine`
Kind: L -/
theorem Reader.scan_readHeaderLine_short {b : Bytes} (hb : 10 ∉ b) (hlen : b.length < r.bufSize) :
    scan (r.stream.readHeaderLine atBoundary) b = .short := by
  have hslice : scan (readSlice r) b = .done (.ended b r.ending) [] := by
    unfold scan readSlice
    rw [List.idxOf?_eq_none_iff.mpr fun h => hb (List.mem_of_mem_take h)]
    simp only
    rw [if_neg (Nat.not_le.mpr hlen)]
  unfold ReaderOn.readHeaderLine
  rw [scan_bind, Scanner.bind, hslice]
  simp only [Verdict.bind]
  cases r.ending with
  | eof =>
      simp only
      split_ifs
      · rfl
      · rfl
  | fault code => rfl

/-- The three things that a header line can be.
Source: none
Kind: L -/
theorem line_cases (b : Bytes) (size : ℕ) :
    (10 ∉ b ∧ b.length < size) ∨ (10 ∉ b.take size ∧ size ≤ b.length) ∨
      ∃ l rest, 10 ∉ l ∧ l.length < size ∧ b = l ++ 10 :: rest := by
  by_cases hmem : 10 ∈ b.take size
  · obtain ⟨l, rest, heq, hl⟩ := List.eq_append_cons_of_mem hmem
    refine Or.inr (Or.inr ⟨l, rest ++ b.drop size, hl, ?_, ?_⟩)
    · have hlen := congrArg List.length heq
      rw [List.length_append, List.length_cons, List.length_take] at hlen
      omega
    · rw [← List.cons_append, ← List.append_assoc, ← heq, List.take_append_drop]
  · by_cases hlen : size ≤ b.length
    · exact Or.inr (Or.inl ⟨hmem, hlen⟩)
    · rw [List.take_of_length_le (by omega)] at hmem
      exact Or.inl ⟨hmem, by omega⟩

end lines

/-! ### Headers -/

/-- The limit on a number of each kind.
Source: `internal/resp/limits.go` `Limits`
Kind: D -/
def Limits.of (limits : Limits) : Marker → Int64
  | .array => limits.maxMultibulkLen
  | .bulk => limits.maxBulkLen

/-- The numbers and unfinished headers of the reader.
Source: `internal/resp/reader.go` `readHeaderLine`, `parseInt`
Kind: D -/
def canonical (r : Reader) : Lexicon where
  number p ds n := ds = numeral n ∧ (n : ℤ) ≤ (r.limits.of p).toInt
  pending _ b := 10 ∉ b ∧ b.length < r.bufSize

/-- The header of each kind.
Source: `internal/resp/reader.go` `ReadCommand`, `readBulkArg`
Kind: D -/
def Reader.readHeader (r : Reader) : Marker → ReadM Int64
  | .array => r.stream.readArrayHeader
  | .bulk => r.stream.readBulkHeader

/-- The header of each kind, as a scanner of its number.
Source: `internal/resp/reader.go` `ReadCommand`, `readBulkArg`
Kind: D -/
def Reader.headers (r : Reader) (p : Marker) : Scanner ℕ :=
  (scan (r.readHeader p)).bind fun n b => .done n.toNatClampNeg b

/-- What is checked in a header line.
Source: `internal/resp/reader.go` `ReadCommand`, `readBulkArg`
Kind: D -/
def lengthOf (type : UInt8) (limit : Int64) (line rest : Bytes) : Verdict Int64 :=
  if line.head? ≠ some type then .malformed
  else match parseInt line.tail with
    | none => .malformed
    | some n => if limit < n then .malformed else .done n rest

/-- A length field is a header line and the reading of its number.
Source: `internal/resp/reader.go` `ReadCommand`, `readBulkArg`
Kind: L -/
theorem Reader.scan_readLength (r : Reader) (atBoundary : Bool) (type : UInt8) (wrong : ErrKind)
    (limit : Int64) (tooLong : ErrKind) :
    scan (r.stream.readLength atBoundary type wrong limit tooLong) =
      (scan (r.stream.readHeaderLine atBoundary)).bind (lengthOf type limit) := by
  unfold ReaderOn.readLength
  rw [scan_bind]
  congr 1
  funext line b
  unfold lengthOf
  by_cases htype : line.head? ≠ some type
  · rw [if_pos htype, if_pos htype]
    rfl
  · rw [if_neg htype, if_neg htype]
    simp only
    cases parseInt line.tail with
    | none => rfl
    | some n =>
        simp only
        split_ifs
        · rfl
        · rfl

/-- Both kinds of headers are length fields.
Source: `internal/resp/reader.go` `ReadCommand`, `readBulkArg`
Kind: L -/
theorem Reader.scan_readHeader (r : Reader) (p : Marker) : ∃ atBoundary,
    scan (r.readHeader p) =
      (scan (r.stream.readHeaderLine atBoundary)).bind (lengthOf p.byte (r.limits.of p)) := by
  cases p with
  | array => exact ⟨true, r.scan_readLength _ _ _ _ _⟩
  | bulk => exact ⟨false, r.scan_readLength _ _ _ _ _⟩

/-- A line passes the checks when it is a type byte and a canonical numeral within the limit.
Source: `internal/resp/reader.go` `ReadCommand`, `readBulkArg`
Kind: L -/
theorem lengthOf_eq_done {type : UInt8} {limit n : Int64} {line rest rest' : Bytes} :
    lengthOf type limit line rest = .done n rest' ↔
      rest = rest' ∧ ∃ m : ℕ, n = Int64.ofNat m ∧ (m : ℤ) ≤ limit.toInt ∧
        line = type :: numeral m := by
  unfold lengthOf
  constructor
  · intro h
    split_ifs at h with htype
    rw [ne_eq, not_not] at htype
    cases hparse : parseInt line.tail with
    | none =>
        rw [hparse] at h
        exact absurd h (by simp)
    | some z =>
        simp only [hparse] at h
        split_ifs at h with hlimit
        obtain ⟨rfl, rfl⟩ := Verdict.done.inj h
        obtain ⟨m, hm, rfl, htail⟩ := parseInt_eq_some.mp hparse
        rw [Int64.lt_iff_toInt_lt, Int64.toInt_ofNat_of_lt hm] at hlimit
        refine ⟨rfl, m, rfl, by omega, ?_⟩
        rw [← htail]
        exact (List.cons_head?_tail htype).symm
  · rintro ⟨rfl, m, rfl, hlimit, rfl⟩
    have hm : m < 2 ^ 63 := by
      have := limit.toInt_lt
      omega
    have hparse : parseInt (type :: numeral m).tail = some (Int64.ofNat m) :=
      parseInt_eq_some.mpr ⟨m, hm, rfl, rfl⟩
    have hle : ¬limit < Int64.ofNat m := by
      rw [Int64.lt_iff_toInt_lt, Int64.toInt_ofNat_of_lt hm]
      omega
    rw [if_neg (by simp), hparse]
    simp only
    rw [if_neg hle]

/-- A whole line never falls short.
Source: `internal/resp/reader.go` `ReadCommand`, `readBulkArg`
Kind: L -/
theorem lengthOf_ne_short {type : UInt8} {limit : Int64} {line rest : Bytes} :
    lengthOf type limit line rest ≠ .short := by
  unfold lengthOf
  split_ifs
  · simp
  · cases parseInt line.tail with
    | none => simp
    | some n =>
        simp only
        split_ifs <;> simp

/-- A canonical header line has no line feed inside.
Source: `internal/resp/reader.go` `ReadCommand`, `readBulkArg`
Kind: L -/
theorem lf_notMem_header (p : Marker) (n : ℕ) : 10 ∉ p.byte :: (numeral n ++ [13]) := by
  intro hmem
  rw [List.mem_cons, List.mem_append, List.mem_singleton] at hmem
  rcases hmem with hp | hd | hcr
  · cases p <;> exact absurd hp (by decide)
  · exact absurd (isDigit_of_mem_numeral hd) (by decide)
  · exact absurd hcr (by decide)

/-- The headers of the reader are those of its lexicon.
Source: `internal/resp/reader.go` `readHeaderLine`, `parseInt`
Kind: L -/
theorem Reader.reads_canonical (r : Reader) (hbuf : maxHeaderLine ≤ r.bufSize) :
    Reads r.headers (canonical r) := by
  constructor
  · intro p b n rest
    obtain ⟨atBoundary, hscan⟩ := r.scan_readHeader p
    unfold Reader.headers Scanner.bind
    rw [hscan, Scanner.bind]
    simp only [Verdict.bind_eq_done, Verdict.done.injEq, lengthOf_eq_done]
    constructor
    · rintro ⟨z, r₁, ⟨line, r₂, hline, rfl, m, rfl, hlimit, rfl⟩, rfl, rfl⟩
      have hm : m < 2 ^ 63 := by
        have := (r.limits.of p).toInt_lt
        omega
      rw [Int64.toNatClampNeg_ofNat_of_lt hm]
      refine ⟨numeral m, ⟨rfl, hlimit⟩, ?_⟩
      rcases line_cases b r.bufSize with ⟨hb, hlen⟩ | ⟨hb, hlen⟩ | ⟨l, rest, hl, hlen, rfl⟩
      · rw [r.scan_readHeaderLine_short atBoundary hb hlen] at hline
        exact absurd hline (by simp)
      · rw [r.scan_readHeaderLine_full atBoundary hb hlen] at hline
        exact absurd hline (by simp)
      · rw [r.scan_readHeaderLine_line atBoundary hl hlen] at hline
        split_ifs at hline with hok
        obtain ⟨hdrop, rfl⟩ := Verdict.done.inj hline
        have hl' : l = p.byte :: numeral m ++ [13] := by
          rw [← hdrop]
          exact (List.dropLast_append_getLast? 13 hok.2).symm
        rw [hl', header]
        simp [crlf]
    · rintro ⟨ds, ⟨rfl, hlimit⟩, rfl⟩
      have hm : n < 2 ^ 63 := by
        have := (r.limits.of p).toInt_lt
        omega
      have hlen : (p.byte :: (numeral n ++ [13])).length < maxHeaderLine := by
        have := length_numeral_le (n := n) (k := 19) (by omega) (by decide)
        rw [List.length_cons, List.length_append, List.length_singleton, maxHeaderLine]
        omega
      have hb : header p (numeral n) rest = p.byte :: (numeral n ++ [13]) ++ 10 :: rest := by
        simp [header, crlf]
      refine ⟨Int64.ofNat n, rest, ⟨p.byte :: numeral n, rest, ?_, rfl, n, rfl, hlimit, rfl⟩,
        Int64.toNatClampNeg_ofNat_of_lt hm, rfl⟩
      rw [hb, r.scan_readHeaderLine_line atBoundary (lf_notMem_header p n) (by omega),
        if_pos ⟨hlen, by rw [← List.cons_append, List.getLast?_concat]⟩, ← List.cons_append,
        List.dropLast_concat]
  · intro p b
    obtain ⟨atBoundary, hscan⟩ := r.scan_readHeader p
    unfold Reader.headers Scanner.bind
    rw [hscan, Scanner.bind]
    simp only [Verdict.bind_eq_short, lengthOf_ne_short, reduceCtorEq, and_false, exists_false,
      or_false]
    constructor
    · intro hline
      rcases line_cases b r.bufSize with hshort | ⟨hb, hlen⟩ | ⟨l, rest, hl, hlen, rfl⟩
      · exact hshort
      · rw [r.scan_readHeaderLine_full atBoundary hb hlen] at hline
        exact absurd hline (by simp)
      · rw [r.scan_readHeaderLine_line atBoundary hl hlen] at hline
        split_ifs at hline
    · rintro ⟨hb, hlen⟩
      exact r.scan_readHeaderLine_short atBoundary hb hlen

/-! ### Requests -/

/-- The reader scans for a payload of the length it was told.
Source: `internal/resp/reader.go` `readBulkArg`
Kind: L -/
theorem Reader.scan_readPayload (r : Reader) (n : ℕ) : scan (r.stream.readPayload n) = payload n := by
  have hfull : ∀ k, scan (EStateM.adaptExcept normalizeEOF (readFull r k)) = fun b =>
      if k ≤ b.length then .done (b.take k) (b.drop k) else .short := by
    intro k
    funext b
    unfold scan EStateM.adaptExcept readFull
    by_cases hk : k ≤ b.length
    · simp only [if_pos hk]
    · simp only [if_neg hk]
      cases r.ending with
      | eof =>
          simp only
          split_ifs
          · rfl
          · rfl
      | fault code => rfl
  funext b
  unfold ReaderOn.readPayload payload
  simp only [scan_bind, Scanner.bind, hfull]
  by_cases hn : n ≤ b.length
  · rw [if_pos hn]
    simp only [Verdict.bind, Scanner.bind]
    by_cases h2 : 2 ≤ (b.drop n).length
    · rw [if_pos h2]
      rw [List.length_drop] at h2
      rw [if_neg (by omega)]
      simp only
      by_cases hend : (b.drop n).take 2 = crlf
      · rw [if_neg (not_not.mpr hend), if_pos hend, List.drop_drop]
        rfl
      · rw [if_pos hend, if_neg hend]
        rfl
    · rw [if_neg h2]
      rw [List.length_drop] at h2
      rw [if_pos (by omega)]
  · rw [if_neg hn, if_pos (by omega)]
    rfl

/-- The reader scans for an argument.
Source: `internal/resp/reader.go` `readBulkArg`
Kind: L -/
theorem Reader.scan_readBulkArg (r : Reader) : scan r.stream.readBulkArg = item r.headers := by
  funext b
  unfold ReaderOn.readBulkArg item Reader.headers Reader.readHeader
  simp only [scan_bind, Scanner.bind, scan_readPayload]
  cases scan r.stream.readBulkHeader b <;> rfl

/-- The reader scans for arguments in sequence.
Source: `internal/resp/reader.go` `ReadCommand`
Kind: L -/
theorem Reader.scan_readBulkArgs (r : Reader) (n : ℕ) :
    scan (r.stream.readBulkArgs n) = (item r.headers).times n := by
  induction n with
  | zero => rfl
  | succ n ih =>
      unfold ReaderOn.readBulkArgs Scanner.times
      rw [scan_bind, scan_readBulkArg]
      congr 1
      funext a
      rw [scan_bind, ih]
      rfl

/-- The reader scans for requests.
Source: `internal/resp/reader.go` `ReadCommand`
Kind: L -/
theorem Reader.scan_readCommand (r : Reader) : scan r.readCommand = frame r.headers := by
  funext b
  unfold Reader.readCommand ReaderOn.readCommand frame Reader.headers Reader.readHeader
  simp only [scan_bind, Scanner.bind, scan_readBulkArgs]
  cases scan r.stream.readArrayHeader b <;> rfl

/-! ### Ends of the source -/

/-- A read that does not report a transport error.
Source: none
Kind: D -/
def NoTransport (m : ReadM α) : Prop := ∀ b code rest, m b ≠ .error (.transport code) rest

/-- Reads in sequence report no transport error if neither does.
Source: none
Kind: L -/
theorem NoTransport.bind {m : ReadM α} {f : α → ReadM β} (hm : NoTransport m)
    (hf : ∀ a, NoTransport (f a)) : NoTransport (m >>= f) := by
  intro b code rest h
  have hmb := hm b
  simp only [Bind.bind, EStateM.bind] at h
  cases hres : m b with
  | ok a r =>
      rw [hres] at h
      exact hf a r code rest h
  | error e r =>
      rw [hres] at h
      cases h
      exact hmb code rest hres

/-- A read of nothing reports no error.
Source: none
Kind: L -/
theorem noTransport_pure (a : α) : NoTransport (pure a : ReadM α) := by
  intro b code rest h
  cases h

/-- An error that is no transport error.
Source: none
Kind: L -/
theorem noTransport_throw {e : ReadErr} (he : ∀ code, e ≠ .transport code) :
    NoTransport (throw e : ReadM α) := by
  intro b code rest h
  cases h
  exact he code rfl

/-- Trimming a line reports protocol errors only.
Source: `internal/resp/reader.go` `trimCRLF`
Kind: L -/
theorem noTransport_trimCRLF (line : Bytes) : NoTransport (trimCRLF line) := by
  unfold trimCRLF
  split_ifs
  · exact noTransport_throw (by simp)
  · exact noTransport_throw (by simp)
  · exact noTransport_pure _

/-- A line is always handed out, and what ends it is the end of the source.
Source: none
Kind: L -/
theorem readSlice_ok (r : Reader) (b : Bytes) : ∃ slice rest,
    readSlice r b = .ok slice rest ∧ ∀ l e, slice = .ended l e → e = r.ending := by
  unfold readSlice
  cases (b.take r.bufSize).idxOf? 10 with
  | some i => exact ⟨_, _, rfl, nofun⟩
  | none =>
      simp only
      split_ifs
      · exact ⟨_, _, rfl, nofun⟩
      · exact ⟨_, _, rfl, fun l e h => (Slice.ended.inj h).2.symm⟩

section eof

variable {r : Reader} (hend : r.ending = .eof)

include hend

/-- A header line of a source that ends properly gives no transport error.
Source: `internal/resp/reader.go` `readHeaderLine`
Kind: L -/
theorem Reader.noTransport_readHeaderLine (atBoundary : Bool) :
    NoTransport (r.stream.readHeaderLine atBoundary) := by
  intro b code rest h
  obtain ⟨slice, rest', hslice, hended⟩ := readSlice_ok r b
  unfold ReaderOn.readHeaderLine at h
  simp only [bind, EStateM.bind, hslice] at h
  cases slice with
  | line l => exact noTransport_trimCRLF l rest' code rest h
  | bufferFull => cases h
  | ended l e =>
      rw [hended l e rfl, hend] at h
      simp only at h
      split_ifs at h <;> cases h

/-- Nor does a length field.
Source: `internal/resp/reader.go` `ReadCommand`, `readBulkArg`
Kind: L -/
theorem Reader.noTransport_readLength (atBoundary : Bool) (type : UInt8) (wrong : ErrKind)
    (limit : Int64) (tooLong : ErrKind) :
    NoTransport (r.stream.readLength atBoundary type wrong limit tooLong) := by
  unfold ReaderOn.readLength
  apply NoTransport.bind (Reader.noTransport_readHeaderLine hend atBoundary)
  intro line
  have hnumber : NoTransport (match parseInt line.tail with
      | none => throw (.protocol (newProtocolError .badLength))
      | some n => if limit < n then throw (.protocol (newProtocolError tooLong)) else pure n) := by
    cases parseInt line.tail with
    | none => exact noTransport_throw (by simp)
    | some n =>
        simp only
        split_ifs
        · exact noTransport_throw (by simp)
        · exact noTransport_pure _
  by_cases htype : line.head? ≠ some type
  · rw [if_pos htype]
    exact NoTransport.bind (noTransport_throw (by simp)) fun _ => hnumber
  · rw [if_neg htype]
    exact hnumber

/-- Nor does an argument.
Source: `internal/resp/reader.go` `readBulkArg`
Kind: L -/
theorem Reader.noTransport_readBulkArg : NoTransport r.stream.readBulkArg := by
  have hfull : ∀ n, NoTransport (EStateM.adaptExcept normalizeEOF (readFull r n)) := by
    intro n b code rest h
    unfold EStateM.adaptExcept readFull at h
    simp only [hend] at h
    split_ifs at h <;> cases h
  apply NoTransport.bind (Reader.noTransport_readLength hend _ _ _ _ _)
  intro n
  unfold ReaderOn.readPayload
  refine (hfull _).bind fun buf => (hfull _).bind fun ends => ?_
  by_cases hends : ends ≠ crlf
  · rw [if_pos hends]
    exact NoTransport.bind (noTransport_throw (by simp)) fun _ => noTransport_pure _
  · rw [if_neg hends]
    exact noTransport_pure _

/-- A source that ends properly never gives a transport error.
Source: `internal/resp/reader.go` `ReadCommand`
Kind: L -/
theorem Reader.noTransport_readCommand : NoTransport r.readCommand := by
  apply NoTransport.bind (Reader.noTransport_readLength hend _ _ _ _ _)
  intro n
  induction n.toNatClampNeg with
  | zero => exact noTransport_pure _
  | succ n ih =>
      exact (Reader.noTransport_readBulkArg hend).bind fun a => ih.bind fun as => noTransport_pure _

end eof

/-- The reader succeeds exactly on a request of its lexicon.
Source: `internal/resp/reader.go` `ReadCommand`
Kind: L -/
theorem Reader.readCommand_eq_ok_iff (r : Reader) (hbuf : maxHeaderLine ≤ r.bufSize) {b rest : Bytes}
    {args : List Bytes} : r.readCommand b = .ok args rest ↔ Frame (canonical r) b args rest := by
  rw [eq_ok_iff_scan, r.scan_readCommand, (r.reads_canonical hbuf).frame_done_iff]

end CacheMoney.Resp
