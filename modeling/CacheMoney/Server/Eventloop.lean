import CacheMoney.Resp.Canonical

/-!
# The incremental request parser of the event loop

`parseCommand` looks at the unread bytes of a connection and returns a request, asks for more bytes
or reports a fault. Its arguments alias the buffer, so a request is a list of spans of it.

* `loose`: the numbers of this parser are those of `strconv.Atoi`, and a header without a line end
  may be completed while it has at most 64 bytes.
* `parseCommand_spec`: the parser never reads outside the buffer, and it is the scanner of requests
  with headers of that lexicon.
* `parseCommand_progress`: a complete request takes at least four bytes, and its arguments lie one
  after the other in them.
-/

namespace CacheMoney.Server

open CacheMoney.Found CacheMoney.Resp

/-! ### Definitions -/

/-- Source: `internal/server/eventloop.go` `evMaxHeaderLine`
Kind: D -/
def evMaxHeaderLine : ℕ := 64

/-- The faults of a request.
Source: `internal/server/eventloop.go` `parseCommand`
Kind: D -/
inductive ParseErr where
  | expectedArray (got : UInt8)
  | multibulkHeaderTooLong
  | invalidMultibulkCount
  | expectedBulk (got : UInt8)
  | bulkHeaderTooLong
  | invalidBulkLength
  | bulkNotTerminated
  deriving DecidableEq, Repr

/-- A lower-case hexadecimal digit.
Source: none
Kind: D -/
def hexDigit (d : UInt8) : UInt8 := if d < 10 then 48 + d else 87 + d

/-- The verb `%q` on a byte: a quoted character, escaped where it is not printable.
Source: none
Kind: D -/
def quoteByte (c : UInt8) : Bytes :=
  let hex := [hexDigit (c >>> 4), hexDigit (c &&& 15)]
  let escaped : Bytes :=
    if c = 39 ∨ c = 92 then [92, c]
    else if 32 ≤ c ∧ c < 127 then [c]
    else if 161 ≤ c ∧ c ≠ 173 then [(192 : UInt8) ||| (c >>> 6), (128 : UInt8) ||| (c &&& 63)]
    else if c = 7 then text "\\a"
    else if c = 8 then text "\\b"
    else if c = 12 then text "\\f"
    else if c = 10 then text "\\n"
    else if c = 13 then text "\\r"
    else if c = 9 then text "\\t"
    else if c = 11 then text "\\v"
    else if c < 32 ∨ c = 127 then text "\\x" ++ hex
    else text "\\u00" ++ hex
  39 :: (escaped ++ [39])

/-- Source: `internal/server/eventloop.go` `parseCommand`
Kind: D -/
def ParseErr.message : ParseErr → Bytes
  | .expectedArray got => text "expected '*', got " ++ quoteByte got
  | .multibulkHeaderTooLong => text "multibulk header too long"
  | .invalidMultibulkCount => text "invalid multibulk count"
  | .expectedBulk got => text "expected '$', got " ++ quoteByte got
  | .bulkHeaderTooLong => text "bulk header too long"
  | .invalidBulkLength => text "invalid bulk length"
  | .bulkNotTerminated => text "bulk not CRLF-terminated"

/-- A part of a buffer, `b[lo:hi]`.
Source: `internal/server/eventloop.go` `parseCommand`
Kind: D -/
structure Span where
  lo : ℕ
  hi : ℕ
  deriving DecidableEq, Repr

/-- The bytes of a span.
Source: none
Kind: D -/
def Span.of (b : Bytes) (s : Span) : Bytes := (b.take s.hi).drop s.lo

/-- `b[lo:hi]`, which panics outside the buffer.
Source: none
Kind: D -/
def slice (b : Bytes) (lo hi : ℕ) : Outcome Bytes :=
  if lo ≤ hi ∧ hi ≤ b.length then .ok (Span.of b ⟨lo, hi⟩) else .error .panic

/-- The first `\r\n`.
Source: `internal/server/eventloop.go` `indexCRLF`
Kind: D -/
def indexCRLF : Bytes → Option ℕ
  | [] => none
  | [_] => none
  | a :: c :: b =>
      if a = 13 ∧ c = 10 then some 0 else (indexCRLF (c :: b)).map (· + 1)

/-- The loop of `indexCRLF` from position `i` on, with every access checked.
Source: `internal/server/eventloop.go` `indexCRLF`
Kind: D -/
def indexCRLFFrom (b : Bytes) : ℕ → ℕ → Outcome (Option ℕ)
  | 0, _ => throw .outOfFuel
  | fuel + 1, i =>
      if i + 1 < b.length then do
        let c₁ ← index b i
        if c₁ = 13 then do
          let c₂ ← index b (i + 1)
          if c₂ = 10 then pure (some i) else indexCRLFFrom b fuel (i + 1)
        else indexCRLFFrom b fuel (i + 1)
      else pure none

/-- What `parseCommand` returns: a request and the bytes it takes, `need`, or a fault.
Source: `internal/server/eventloop.go` `parseCommand`
Kind: D -/
inductive Parsed where
  | command (args : List Span) (consumed : ℕ)
  | need
  | fault (e : ParseErr)
  deriving DecidableEq, Repr

/-- The number of a header, with the check of its range.
Source: `internal/server/eventloop.go` `parseCommand`
Kind: D -/
def checkedAtoi (ds : Bytes) (limit : Int64) : Option ℕ :=
  match atoi ds with
  | none => none
  | some n => if n < 0 ∨ limit.toInt < n then none else some n.toNat

/-- The loop over the bulk strings from position `i` on; `out` has the arguments so far. A complete
request becomes the new scratch.
Source: `internal/server/eventloop.go` `parseCommand`
Kind: D -/
def parseItems (b : Bytes) (scratch : List Span) :
    ℕ → ℕ → List Span → Outcome (Parsed × List Span)
  | 0, i, out => pure (.command out i, out)
  | e + 1, i, out =>
      if b.length ≤ i then pure (.need, scratch)
      else do
        let c ← index b i
        if c ≠ 36 then return (.fault (.expectedBulk c), scratch)
        let tail ← slice b i b.length
        match indexCRLF tail with
        | none =>
            if evMaxHeaderLine < b.length - i then return (.fault .bulkHeaderTooLong, scratch)
            return (.need, scratch)
        | some rel => do
            let ds ← slice b (i + 1) (i + rel)
            match checkedAtoi ds defaultMaxBulkLen with
            | none => return (.fault .invalidBulkLength, scratch)
            | some blen => do
                let i := i + (rel + 2)
                if b.length < i + blen + 2 then return (.need, scratch)
                let c₁ ← index b (i + blen)
                let c₂ ← index b (i + blen + 1)
                if c₁ ≠ 13 ∨ c₂ ≠ 10 then return (.fault .bulkNotTerminated, scratch)
                let _ ← slice b i (i + blen)
                parseItems b scratch e (i + blen + 2) (out ++ [⟨i, i + blen⟩])

/-- Source: `internal/server/eventloop.go` `parseCommand`
Kind: D -/
def parseCommand (b : Bytes) (scratch : List Span) : Outcome (Parsed × List Span) :=
  if b.length = 0 then pure (.need, scratch)
  else do
    let c ← index b 0
    if c ≠ 42 then return (.fault (.expectedArray c), scratch)
    match indexCRLF b with
    | none =>
        if evMaxHeaderLine < b.length then return (.fault .multibulkHeaderTooLong, scratch)
        return (.need, scratch)
    | some nl => do
        let ds ← slice b 1 nl
        match checkedAtoi ds defaultMaxMultibulkLen with
        | none => return (.fault .invalidMultibulkCount, scratch)
        | some count => parseItems b scratch count (nl + 2) (scratch.take 0)

/-! ### The lexicon -/

/-- The limits of this parser.
Source: `internal/server/eventloop.go` `parseCommand`
Kind: D -/
def defaultLimits : Limits := ⟨defaultMaxBulkLen, defaultMaxMultibulkLen⟩

/-- The numbers and unfinished headers of this parser.
Source: `internal/server/eventloop.go` `parseCommand`
Kind: D -/
def loose : Lexicon where
  number p ds n := Loose ds n ∧ (n : ℤ) ≤ (defaultLimits.of p).toInt
  pending p b := b = [] ∨ b.head? = some p.byte ∧ ¬crlf <:+: b ∧ b.length ≤ evMaxHeaderLine

/-- A header, as this parser reads it at the start of `b`.
Source: `internal/server/eventloop.go` `parseCommand`
Kind: D -/
def loopHeader (p : Marker) : Scanner ℕ := fun b =>
  if b = [] then .short
  else if b.head? ≠ some p.byte then .malformed
  else match indexCRLF b with
    | none => if evMaxHeaderLine < b.length then .malformed else .short
    | some k =>
        match checkedAtoi (Span.of b ⟨1, k⟩) (defaultLimits.of p) with
        | none => .malformed
        | some n => .done n (b.drop (k + 2))

/-! ### Line ends -/

/-- No line end is found exactly if there is none.
Source: `internal/server/eventloop.go` `indexCRLF`
Kind: L -/
theorem indexCRLF_eq_none_iff {b : Bytes} : indexCRLF b = none ↔ ¬crlf <:+: b := by
  induction b with
  | nil => simp [indexCRLF, crlf]
  | cons a b ih =>
      cases b with
      | nil => simp [indexCRLF, crlf, List.infix_cons_iff]
      | cons c b =>
          rw [indexCRLF, List.infix_cons_iff]
          by_cases h : a = 13 ∧ c = 10
          · obtain ⟨rfl, rfl⟩ := h
            simp [crlf]
          · rw [if_neg h, Option.map_eq_none_iff, ih]
            simp only [crlf, List.cons_prefix_cons, List.nil_prefix, and_true, not_or]
            constructor
            · intro hnot
              exact ⟨fun hac => h ⟨hac.1.symm, hac.2.symm⟩, hnot⟩
            · exact fun hnot => hnot.2

/-- A line end right after bytes without a carriage return is the first one.
Source: `internal/server/eventloop.go` `indexCRLF`
Kind: L -/
theorem indexCRLF_append {u v : Bytes} (hu : 13 ∉ u) :
    indexCRLF (u ++ (crlf ++ v)) = some u.length := by
  induction u with
  | nil => simp [crlf, indexCRLF]
  | cons a u ih =>
      have ha : a ≠ 13 := fun h => hu (by rw [h]; exact List.mem_cons_self)
      have ih' := ih fun h => hu (List.mem_cons_of_mem a h)
      obtain ⟨c, t, ht⟩ : ∃ c t, u ++ (crlf ++ v) = c :: t := by
        cases u with
        | nil => exact ⟨13, 10 :: v, rfl⟩
        | cons c u => exact ⟨c, u ++ (crlf ++ v), rfl⟩
      rw [List.cons_append, ht, indexCRLF, if_neg (fun h => ha h.1), ← ht, ih']
      rfl

/-- The bytes before and after the line end that is found.
Source: `internal/server/eventloop.go` `indexCRLF`
Kind: L -/
theorem eq_append_of_indexCRLF {b : Bytes} : ∀ {k : ℕ}, indexCRLF b = some k →
    b = b.take k ++ (crlf ++ b.drop (k + 2)) ∧ k + 2 ≤ b.length := by
  induction b with
  | nil =>
      intro k h
      exact absurd h (by simp [indexCRLF])
  | cons a b ih =>
      intro k h
      cases b with
      | nil => exact absurd h (by simp [indexCRLF])
      | cons c b =>
          rw [indexCRLF] at h
          split_ifs at h with hac
          · obtain ⟨rfl, rfl⟩ := hac
            obtain rfl := Option.some.inj h
            exact ⟨rfl, by simp⟩
          · obtain ⟨j, hj, rfl⟩ := Option.map_eq_some_iff.mp h
            obtain ⟨heq, hlen⟩ := ih hj
            refine ⟨?_, by simpa using hlen⟩
            rw [List.take_succ_cons, List.cons_append, show j + 1 + 2 = j + 2 + 1 by omega,
              List.drop_succ_cons, ← heq]

/-- A loose numeral has no carriage return.
Source: none
Kind: L -/
theorem cr_notMem_of_loose {ds : Bytes} {n : ℕ} (h : Loose ds n) : 13 ∉ ds := by
  intro hmem
  rcases h.mem hmem with h | h | h
  · exact absurd h (by decide)
  · exact absurd h (by decide)
  · exact absurd h (by decide)

/-- A header line has no carriage return inside.
Source: none
Kind: L -/
theorem cr_notMem_header {p : Marker} {ds : Bytes} (h : 13 ∉ ds) : 13 ∉ p.byte :: ds := by
  rw [List.mem_cons, not_or]
  refine ⟨?_, h⟩
  cases p <;> decide

/-! ### Headers -/

/-- The event loop reads the loose numerals within its limit.
Source: `internal/server/eventloop.go` `parseCommand`
Kind: L -/
theorem checkedAtoi_eq_some {ds : Bytes} {limit : Int64} {n : ℕ} :
    checkedAtoi ds limit = some n ↔ Loose ds n ∧ (n : ℤ) ≤ limit.toInt := by
  have hlimit := limit.toInt_lt
  constructor
  · intro h
    unfold checkedAtoi at h
    cases hz : atoi ds with
    | none =>
        rw [hz] at h
        exact absurd h (by simp)
    | some z =>
        simp only [hz] at h
        split_ifs at h with hbad
        obtain rfl := Option.some.inj h
        have hcast : ((z.toNat : ℕ) : ℤ) = z := Int.toNat_of_nonneg (by omega)
        refine ⟨(atoi_eq_natCast_iff (by omega)).mp (by rw [hcast]; exact hz), by omega⟩
  · rintro ⟨hds, hn⟩
    have hz := (atoi_eq_natCast_iff (by omega)).mpr hds
    unfold checkedAtoi
    simp only [hz]
    rw [if_neg (by omega)]
    simp

/-- The digits of a header, as a span.
Source: `internal/server/eventloop.go` `parseCommand`
Kind: L -/
theorem span_header (p : Marker) (ds r : Bytes) :
    Span.of (header p ds r) ⟨1, (p.byte :: ds).length⟩ = ds := by
  simp [Span.of, header]

/-- Where a header succeeds: the marker, a line end, and between them a number.
Source: `internal/server/eventloop.go` `parseCommand`
Kind: L -/
theorem loopHeader_eq_done_iff {p : Marker} {b r : Bytes} {n : ℕ} :
    loopHeader p b = .done n r ↔ b.head? = some p.byte ∧ ∃ k, indexCRLF b = some k ∧
      checkedAtoi (Span.of b ⟨1, k⟩) (defaultLimits.of p) = some n ∧ b.drop (k + 2) = r := by
  unfold loopHeader
  by_cases hnil : b = []
  · simp [hnil]
  by_cases htype : b.head? = some p.byte
  · rw [if_neg hnil, if_neg (not_not.mpr htype)]
    cases hk : indexCRLF b with
    | none => split_ifs <;> simp
    | some k => cases hn : checkedAtoi (Span.of b ⟨1, k⟩) (defaultLimits.of p) <;> simp [htype, hn]
  · rw [if_neg hnil, if_pos htype]
    simp [htype]

/-- Where a header waits for more: at the end of the buffer, or before a line end that may come.
Source: `internal/server/eventloop.go` `parseCommand`
Kind: L -/
theorem loopHeader_eq_short_iff {p : Marker} {b : Bytes} :
    loopHeader p b = .short ↔
      b = [] ∨ b.head? = some p.byte ∧ indexCRLF b = none ∧ b.length ≤ evMaxHeaderLine := by
  unfold loopHeader
  by_cases hnil : b = []
  · simp [hnil]
  by_cases htype : b.head? = some p.byte
  · rw [if_neg hnil, if_neg (not_not.mpr htype)]
    cases hk : indexCRLF b with
    | none => simp [hnil, htype]
    | some k => cases hn : checkedAtoi (Span.of b ⟨1, k⟩) (defaultLimits.of p) <;> simp [hnil, hn]
  · rw [if_neg hnil, if_pos htype]
    simp [hnil, htype]

/-- A marker and a line end cut a header out of the buffer.
Source: none
Kind: L -/
theorem eq_header_of_indexCRLF {p : Marker} {b : Bytes} {k : ℕ} (htype : b.head? = some p.byte)
    (hk : indexCRLF b = some k) : b = header p (Span.of b ⟨1, k⟩) (b.drop (k + 2)) := by
  obtain ⟨heq, hlen⟩ := eq_append_of_indexCRLF hk
  obtain ⟨b, rfl⟩ := List.head?_eq_some_iff.mp htype
  cases k with
  | zero => cases p <;> exact absurd (List.cons.inj heq).1 (by decide)
  | succ k =>
      rw [List.take_succ_cons, List.cons_append] at heq
      rw [Span.of, List.take_succ_cons, List.drop_succ_cons, List.drop_zero, header]
      exact heq

/-- The headers of this parser are those of its lexicon.
Source: `internal/server/eventloop.go` `parseCommand`
Kind: L -/
theorem reads_loose : Reads loopHeader loose := by
  constructor
  · intro p b n r
    rw [loopHeader_eq_done_iff]
    constructor
    · rintro ⟨htype, k, hk, hn, rfl⟩
      exact ⟨Span.of b ⟨1, k⟩, checkedAtoi_eq_some.mp hn, eq_header_of_indexCRLF htype hk⟩
    · rintro ⟨ds, hds, rfl⟩
      have hk := indexCRLF_append (v := r) (cr_notMem_header (p := p) (cr_notMem_of_loose hds.1))
      have hb : header p ds r = p.byte :: ds ++ (crlf ++ r) := rfl
      refine ⟨rfl, (p.byte :: ds).length, hk, ?_, ?_⟩
      · rw [span_header]
        exact checkedAtoi_eq_some.mpr hds
      · rw [hb, ← List.append_assoc,
          show (p.byte :: ds).length + 2 = (p.byte :: ds ++ crlf).length by simp [crlf],
          List.drop_left]
  · intro p b
    rw [loopHeader_eq_short_iff, indexCRLF_eq_none_iff]
    rfl

/-! ### Requests -/

/-- What a result says about the buffer.
Source: none
Kind: D -/
def Parsed.verdict (b : Bytes) : Parsed → Verdict (List Bytes)
  | .command args consumed => .done (args.map (Span.of b)) (b.drop consumed)
  | .need => .short
  | .fault _ => .malformed

/-- A span of the later bytes is a span of all, moved.
Source: none
Kind: L -/
theorem span_drop (b : Bytes) (i lo hi : ℕ) :
    Span.of (b.drop i) ⟨lo, hi⟩ = Span.of b ⟨i + lo, i + hi⟩ := by
  simp only [Span.of, List.drop_take, List.drop_drop]
  rw [Nat.add_sub_add_left]

/-- A slice inside the bytes.
Source: none
Kind: L -/
theorem slice_eq_ok {b : Bytes} {lo hi : ℕ} (hlo : lo ≤ hi) (hhi : hi ≤ b.length) :
    slice b lo hi = .ok (Span.of b ⟨lo, hi⟩) := if_pos ⟨hlo, hhi⟩

/-- A line end does not come before the type byte.
Source: `internal/server/eventloop.go` `indexCRLF`
Kind: L -/
theorem indexCRLF_ne_zero {b : Bytes} {p : Marker} (h : b.head? = some p.byte) {k : ℕ}
    (hk : indexCRLF b = some k) : 1 ≤ k := by
  rcases Nat.eq_zero_or_pos k with rfl | hpos
  · obtain ⟨heq, -⟩ := eq_append_of_indexCRLF hk
    rw [heq] at h
    cases p <;> exact absurd h (by simp [crlf, Marker.byte])
  · exact hpos

/-- A span by its beginning and its length.
Source: none
Kind: L -/
theorem span_eq_take_drop (b : Bytes) (j n : ℕ) : Span.of b ⟨j, j + n⟩ = (b.drop j).take n := by
  simp [Span.of, List.drop_take]

/-- The payload at a position of the buffer that has room for it.
Source: `internal/server/eventloop.go` `parseCommand`
Kind: L -/
theorem payload_at {b : Bytes} {j n : ℕ} (h : j + n + 2 ≤ b.length) :
    payload n (b.drop j) =
      if b[j + n] = 13 ∧ b[j + n + 1] = 10 then
        .done (Span.of b ⟨j, j + n⟩) (b.drop (j + n + 2)) else .malformed := by
  have hends : ((b.drop j).drop n).take 2 = crlf ↔ b[j + n] = 13 ∧ b[j + n + 1] = 10 := by
    have hdrop : (b.drop j).drop n = b[j + n] :: b[j + n + 1] :: b.drop (j + n + 1 + 1) := by
      rw [List.drop_drop, List.drop_eq_getElem_cons (show j + n < b.length by omega),
        List.drop_eq_getElem_cons (show j + n + 1 < b.length by omega)]
    rw [hdrop, crlf, List.take_succ_cons, List.take_succ_cons, List.take_zero, List.cons.injEq,
      List.cons.injEq]
    exact ⟨fun h => ⟨h.1, h.2.1⟩, fun h => ⟨h.1, h.2, rfl⟩⟩
  have hrest : (b.drop j).drop (n + 2) = b.drop (j + n + 2) := by
    rw [List.drop_drop, Nat.add_assoc]
  rw [payload, List.length_drop, if_neg (by omega), span_eq_take_drop, hrest]
  by_cases hgood : b[j + n] = 13 ∧ b[j + n + 1] = 10
  · rw [if_pos (hends.mpr hgood), if_pos hgood]
  · rw [if_neg (fun h => hgood (hends.mp h)), if_neg hgood]

/-- What the parser does at the header of a bulk string, in the order of its checks.
Source: `internal/server/eventloop.go` `parseCommand`
Kind: L -/
theorem loopHeader_bulk {b : Bytes} {i : ℕ} (hi : i < b.length) :
    loopHeader .bulk (b.drop i) =
      if b[i] ≠ 36 then .malformed
      else match indexCRLF (b.drop i) with
        | none => if evMaxHeaderLine < b.length - i then .malformed else .short
        | some rel =>
            match checkedAtoi (Span.of b ⟨i + 1, i + rel⟩) defaultMaxBulkLen with
            | none => .malformed
            | some blen => .done blen (b.drop (i + (rel + 2))) := by
  have hhead : (b.drop i).head? = some b[i] := by
    rw [List.head?_drop, List.getElem?_eq_getElem hi]
  have hne : b.drop i ≠ [] := by
    intro h
    rw [h] at hhead
    exact absurd hhead (by simp)
  unfold loopHeader
  rw [if_neg hne, hhead, List.length_drop]
  simp only [ne_eq, Option.some.injEq, Marker.byte, span_drop, List.drop_drop, defaultLimits,
    Limits.of]

/-- The loop over the bulk strings scans for them.
Source: `internal/server/eventloop.go` `parseCommand`
Kind: L -/
theorem parseItems_spec (b : Bytes) (scratch : List Span) (e : ℕ) :
    ∀ (i : ℕ) (out : List Span), i ≤ b.length → Returns (parseItems b scratch e i out) fun x =>
      x.1.verdict b = ((item loopHeader).times e (b.drop i)).bind (fun args rest =>
        .done (out.map (Span.of b) ++ args) rest) ∧
      ∀ args n, x.1 = .command args n → n ≤ b.length := by
  induction e with
  | zero =>
      intro i out hi
      refine ⟨_, rfl, by simp [Parsed.verdict, Scanner.times, Verdict.bind], ?_⟩
      intro args n h
      cases h
      exact hi
  | succ e ih =>
      intro i out hi
      have hitem : item loopHeader (b.drop i) = (loopHeader .bulk (b.drop i)).bind payload := rfl
      rw [Scanner.times_succ, hitem]
      unfold parseItems
      by_cases hend : b.length ≤ i
      · rw [if_pos hend, List.drop_of_length_le hend]
        exact ⟨_, rfl, rfl, by simp⟩
      have hlt : i < b.length := Nat.not_le.mp hend
      have hscan := loopHeader_bulk hlt
      rw [if_neg hend, index_eq_ok hlt]
      simp only [ok_bind]
      by_cases htype : b[i] ≠ 36
      · rw [if_pos htype] at hscan ⊢
        rw [hscan]
        exact ⟨_, rfl, rfl, by simp⟩
      have hhead : (b.drop i).head? = some Marker.bulk.byte := by
        rw [List.head?_drop, List.getElem?_eq_getElem hlt, not_not.mp htype]
        rfl
      have htail : slice b i b.length = .ok (b.drop i) := by
        rw [slice_eq_ok hi le_rfl, Span.of, List.take_length]
      rw [if_neg htype] at hscan ⊢
      simp only [htail, ok_bind]
      cases hk : indexCRLF (b.drop i) with
      | none =>
          simp only [hk] at hscan ⊢
          by_cases hlong : evMaxHeaderLine < b.length - i
          · rw [if_pos hlong] at hscan ⊢
            rw [hscan]
            exact ⟨_, rfl, rfl, by simp⟩
          · rw [if_neg hlong] at hscan ⊢
            rw [hscan]
            exact ⟨_, rfl, rfl, by simp⟩
      | some rel =>
          have hrel := (eq_append_of_indexCRLF hk).2
          have hrel₁ := indexCRLF_ne_zero hhead hk
          rw [List.length_drop] at hrel
          simp only [hk] at hscan ⊢
          rw [slice_eq_ok (by omega) (by omega)]
          simp only [ok_bind]
          cases hn : checkedAtoi (Span.of b ⟨i + 1, i + rel⟩) defaultMaxBulkLen with
          | none =>
              simp only [hn] at hscan ⊢
              rw [hscan]
              exact ⟨_, rfl, rfl, by simp⟩
          | some blen =>
              simp only [hn] at hscan ⊢
              rw [hscan]
              by_cases hshort : b.length < i + (rel + 2) + blen + 2
              · have hpay : payload blen (b.drop (i + (rel + 2))) = .short := by
                  rw [payload_eq_short, List.length_drop]
                  omega
                rw [if_pos hshort]
                simp only [Verdict.bind, hpay]
                exact ⟨_, rfl, rfl, by simp⟩
              have hpay := payload_at (Nat.not_lt.mp hshort)
              rw [if_neg hshort, index_eq_ok (by omega), index_eq_ok (by omega)]
              simp only [ok_bind, Verdict.bind]
              by_cases hends : b[i + (rel + 2) + blen] = 13 ∧ b[i + (rel + 2) + blen + 1] = 10
              · rw [if_pos hends] at hpay
                rw [if_neg (by rw [← not_and_or, not_not]; exact hends),
                  slice_eq_ok (by omega) (by omega), hpay]
                obtain ⟨x, hx, hverdict, hcons⟩ := ih (i + (rel + 2) + blen + 2)
                  (out ++ [⟨i + (rel + 2), i + (rel + 2) + blen⟩]) (by omega)
                refine ⟨x, hx, ?_, hcons⟩
                rw [hverdict]
                simp only [Verdict.bind]
                cases (item loopHeader).times e (b.drop (i + (rel + 2) + blen + 2)) with
                | done args rest => simp
                | malformed => rfl
                | short => rfl
              · rw [if_neg hends] at hpay
                rw [if_pos (not_and_or.mp hends), hpay]
                exact ⟨_, rfl, rfl, by simp⟩

/-- The parser returns on every buffer, and it scans for requests.
Source: `internal/server/eventloop.go` `parseCommand`
Kind: L -/
theorem parseCommand_spec (b : Bytes) (scratch : List Span) :
    Returns (parseCommand b scratch) fun x => x.1.verdict b = frame loopHeader b ∧
      ∀ args n, x.1 = .command args n → n ≤ b.length := by
  have hitems := parseItems_spec b scratch
  unfold parseCommand frame Scanner.bind
  generalize (item loopHeader).times = items at hitems ⊢
  unfold loopHeader
  by_cases hnil : b = []
  · subst hnil
    exact ⟨_, rfl, rfl, by simp⟩
  have hpos : 0 < b.length := List.length_pos_of_ne_nil hnil
  have hhead : b.head? = some b[0] := by rw [List.head?_eq_getElem?, List.getElem?_eq_getElem hpos]
  rw [if_neg (by omega), if_neg hnil, index_eq_ok hpos, hhead]
  simp only [ok_bind, ne_eq, Option.some.injEq, Marker.byte, defaultLimits, Limits.of]
  by_cases htype : ¬b[0] = 42
  · rw [if_pos htype, if_pos htype]
    exact ⟨_, rfl, rfl, by simp⟩
  rw [if_neg htype, if_neg htype]
  cases hk : indexCRLF b with
  | none =>
      simp only
      by_cases hlong : evMaxHeaderLine < b.length
      · rw [if_pos hlong, if_pos hlong]
        exact ⟨_, rfl, rfl, by simp⟩
      · rw [if_neg hlong, if_neg hlong]
        exact ⟨_, rfl, rfl, by simp⟩
  | some nl =>
      have hnl := (eq_append_of_indexCRLF hk).2
      have hnl₁ : 1 ≤ nl := by
        apply indexCRLF_ne_zero (p := .array) _ hk
        rw [hhead, not_not.mp htype]
        rfl
      simp only
      rw [slice_eq_ok hnl₁ (by omega)]
      simp only [ok_bind]
      cases hn : checkedAtoi (Span.of b ⟨1, nl⟩) defaultMaxMultibulkLen with
      | none => exact ⟨_, rfl, rfl, by simp⟩
      | some count =>
          obtain ⟨x, hx, hverdict, hcons⟩ :=
            hitems count (nl + 2) (scratch.take 0) hnl
          refine ⟨x, hx, ?_, hcons⟩
          rw [hverdict]
          simp only [Verdict.bind, List.take_zero, List.map_nil, List.nil_append]
          cases items count (b.drop (nl + 2)) <;> rfl

/-! ### Safety and progress -/

/-- Spans one after the other, up to position `stop`.
Source: none
Kind: D -/
structure InOrder (spans : List Span) (stop : ℕ) : Prop where
  bounded : ∀ s ∈ spans, s.lo ≤ s.hi ∧ s.hi ≤ stop
  apart : spans.Pairwise fun s t => s.hi ≤ t.lo

/-- One byte is no line end.
Source: `internal/server/eventloop.go` `indexCRLF`
Kind: L -/
theorem indexCRLF_of_length_le {b : Bytes} (h : b.length ≤ 1) : indexCRLF b = none := by
  match b, h with
  | [], _ => rfl
  | [_], _ => rfl

/-- The loop of `indexCRLF` stays in the buffer and ends.
Source: `internal/server/eventloop.go` `indexCRLF`
Kind: L -/
theorem indexCRLFFrom_eq (b : Bytes) (fuel : ℕ) : ∀ i, b.length ≤ i + fuel →
    indexCRLFFrom b (fuel + 1) i = .ok ((indexCRLF (b.drop i)).map (· + i)) := by
  induction fuel with
  | zero =>
      intro i hi
      have hshort : (b.drop i).length ≤ 1 := by
        rw [List.length_drop]
        omega
      rw [indexCRLFFrom, if_neg (by omega), indexCRLF_of_length_le hshort]
      rfl
  | succ fuel ih =>
      intro i hi
      rw [indexCRLFFrom]
      by_cases hend : i + 1 < b.length
      · have hdrop : b.drop i = b[i] :: b[i + 1] :: b.drop (i + 1 + 1) := by
          rw [List.drop_eq_getElem_cons (show i < b.length by omega),
            List.drop_eq_getElem_cons hend]
        have hshift : ((indexCRLF (b.drop (i + 1))).map (· + 1)).map (· + i) =
            (indexCRLF (b.drop (i + 1))).map (· + (i + 1)) := by
          rw [Option.map_map]
          congr 1
          funext k
          simp only [Function.comp_apply]
          omega
        rw [if_pos hend, index_eq_ok (by omega), index_eq_ok hend, ok_bind, ok_bind,
          ih (i + 1) (by omega), hdrop, indexCRLF, ← List.drop_eq_getElem_cons hend]
        by_cases hcr : b[i] = 13
        · by_cases hlf : b[i + 1] = 10
          · rw [if_pos hcr, if_pos hlf, if_pos ⟨hcr, hlf⟩, Option.map_some, Nat.zero_add]
            rfl
          · rw [if_pos hcr, if_neg hlf, if_neg fun h => hlf h.2, hshift]
        · rw [if_neg hcr, if_neg fun h => hcr h.1, hshift]
      · rw [if_neg hend, indexCRLF_of_length_le (by rw [List.length_drop]; omega)]
        rfl

/-- The search from the beginning, with fuel for every byte, is the search.
Source: `internal/server/eventloop.go` `indexCRLF`
Kind: L -/
theorem indexCRLFFrom_zero (b : Bytes) :
    indexCRLFFrom b (b.length + 1) 0 = .ok (indexCRLF b) := by
  rw [indexCRLFFrom_eq b b.length 0 (by omega), List.drop_zero, show (· + 0) = @id ℕ from rfl,
    Option.map_id_apply]

/-- A span behind the others.
Source: none
Kind: L -/
theorem InOrder.append {spans : List Span} {i lo hi stop : ℕ} (h : InOrder spans i) (hlo : i ≤ lo)
    (hle : lo ≤ hi) (hstop : hi ≤ stop) : InOrder (spans ++ [⟨lo, hi⟩]) stop := by
  constructor
  · intro s hs
    rcases List.mem_append.mp hs with hs | hs
    · have := h.bounded s hs
      omega
    · rw [List.mem_singleton.mp hs]
      exact ⟨hle, hstop⟩
  · rw [List.pairwise_append]
    refine ⟨h.apart, List.pairwise_singleton _ _, fun s hs t ht => ?_⟩
    rw [List.mem_singleton.mp ht]
    exact (h.bounded s hs).2.trans hlo

/-- A round of the loop over the bulk strings that leads to a complete request.
Source: `internal/server/eventloop.go` `parseCommand`
Kind: L -/
theorem parseItems_eq_command {b : Bytes} {scratch kept out args : List Span} {e i n : ℕ}
    (h : parseItems b scratch (e + 1) i out = .ok (.command args n, kept)) :
    ∃ lo hi, i ≤ lo ∧ lo ≤ hi ∧
      parseItems b scratch e (hi + 2) (out ++ [⟨lo, hi⟩]) = .ok (.command args n, kept) := by
  rw [parseItems] at h
  by_cases hend : b.length ≤ i
  · rw [if_pos hend] at h
    exact absurd h (by simp [pure, Except.pure])
  rw [if_neg hend] at h
  obtain ⟨c, -, h⟩ := bind_eq_ok_iff.mp h
  by_cases htype : c ≠ 36
  · rw [if_pos htype] at h
    exact absurd h (by simp [pure, Except.pure])
  rw [if_neg htype] at h
  obtain ⟨tail, -, h⟩ := bind_eq_ok_iff.mp h
  cases hk : indexCRLF tail with
  | none =>
      simp only [hk] at h
      split_ifs at h
      · exact absurd h (by simp [pure, Except.pure])
      · exact absurd h (by simp [pure, Except.pure])
  | some rel =>
      simp only [hk] at h
      obtain ⟨ds, -, h⟩ := bind_eq_ok_iff.mp h
      cases hn : checkedAtoi ds defaultMaxBulkLen with
      | none =>
          simp only [hn] at h
          exact absurd h (by simp [pure, Except.pure])
      | some blen =>
          simp only [hn] at h
          by_cases hshort : b.length < i + (rel + 2) + blen + 2
          · rw [if_pos hshort] at h
            exact absurd h (by simp [pure, Except.pure])
          rw [if_neg hshort] at h
          obtain ⟨c₁, -, h⟩ := bind_eq_ok_iff.mp h
          obtain ⟨c₂, -, h⟩ := bind_eq_ok_iff.mp h
          by_cases hends : c₁ ≠ 13 ∨ c₂ ≠ 10
          · rw [if_pos hends] at h
            exact absurd h (by simp [pure, Except.pure])
          rw [if_neg hends] at h
          obtain ⟨_, -, h⟩ := bind_eq_ok_iff.mp h
          exact ⟨i + (rel + 2), i + (rel + 2) + blen, by omega, by omega, h⟩

/-- The arguments of a complete request lie one after the other in the bytes it takes.
Source: `internal/server/eventloop.go` `parseCommand`
Kind: L -/
theorem parseItems_inOrder {b : Bytes} {scratch kept args : List Span} {n : ℕ} (e : ℕ) :
    ∀ (i : ℕ) (out : List Span), InOrder out i →
      parseItems b scratch e i out = .ok (.command args n, kept) → i ≤ n ∧ InOrder args n := by
  induction e with
  | zero =>
      intro i out hout h
      rw [parseItems] at h
      cases h
      exact ⟨le_rfl, hout⟩
  | succ e ih =>
      intro i out hout h
      obtain ⟨lo, hi, hlo, hle, hrest⟩ := parseItems_eq_command h
      obtain ⟨hn, hargs⟩ := ih (hi + 2) _ (hout.append hlo hle (Nat.le_add_right hi 2)) hrest
      exact ⟨by omega, hargs⟩

/-- The header of a complete request: a type byte, at least one digit and the line end.
Source: `internal/server/eventloop.go` `parseCommand`
Kind: L -/
theorem parseCommand_eq_command {b : Bytes} {scratch kept args : List Span} {n : ℕ}
    (h : parseCommand b scratch = .ok (.command args n, kept)) :
    ∃ nl count, 2 ≤ nl ∧ parseItems b scratch count (nl + 2) [] = .ok (.command args n, kept) := by
  unfold parseCommand at h
  by_cases hnil : b.length = 0
  · rw [if_pos hnil] at h
    exact absurd h (by simp [pure, Except.pure])
  rw [if_neg hnil] at h
  obtain ⟨c, -, h⟩ := bind_eq_ok_iff.mp h
  by_cases htype : c ≠ 42
  · rw [if_pos htype] at h
    exact absurd h (by simp [pure, Except.pure])
  rw [if_neg htype] at h
  cases hk : indexCRLF b with
  | none =>
      simp only [hk] at h
      split_ifs at h
      · exact absurd h (by simp [pure, Except.pure])
      · exact absurd h (by simp [pure, Except.pure])
  | some nl =>
      simp only [hk] at h
      obtain ⟨ds, hds, h⟩ := bind_eq_ok_iff.mp h
      cases hn : checkedAtoi ds defaultMaxMultibulkLen with
      | none =>
          simp only [hn] at h
          exact absurd h (by simp [pure, Except.pure])
      | some count =>
          simp only [hn] at h
          refine ⟨nl, count, ?_, h⟩
          -- A number has a digit, so the line end is not right behind the type byte.
          have hne := (checkedAtoi_eq_some.mp hn).1.ne_nil
          unfold slice at hds
          split_ifs at hds with hrange
          rw [← Except.ok.inj hds, Span.of, ne_eq, List.drop_eq_nil_iff, List.length_take] at hne
          dsimp only at hne
          omega

/-- The parser stays in the buffer, and a complete request takes at least four bytes.
Source: `internal/server/eventloop.go` `parseCommand`
Kind: L -/
theorem parseCommand_progress (b : Bytes) (scratch : List Span) :
    Returns (parseCommand b scratch) fun x => ∀ args n, x.1 = .command args n →
      4 ≤ n ∧ n ≤ b.length ∧ InOrder args n := by
  obtain ⟨⟨parsed, kept⟩, hx, -, hlen⟩ := parseCommand_spec b scratch
  refine ⟨_, hx, fun args n hcommand => ?_⟩
  obtain rfl : parsed = .command args n := hcommand
  obtain ⟨nl, count, hnl, hitems⟩ := parseCommand_eq_command hx
  obtain ⟨hn, hargs⟩ := parseItems_inOrder count (nl + 2) [] ⟨by simp, List.Pairwise.nil⟩ hitems
  exact ⟨by omega, hlen args n rfl, hargs⟩

end CacheMoney.Server
