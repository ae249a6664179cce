import CacheMoney.Resp.RoundTrip
import CacheMoney.Resp.Value

/-!
# Truncated requests

A source that ends inside a canonical frame. The reader meets the end in one of two primitives: in
a header line (`readSlice`), or in a payload or the line end after it (`readFull`); each has its own
convention for an end without any byte, and the reader makes them agree.

* `Reader.cutErr`: the error for an end at a request boundary or inside a request.
* `Reader.Chokes u`: the buffer is full before the line feed of the header that begins at `u`. A
  header line has at most 22 bytes, so only a smaller buffer can be choked (`not_chokes`).
* `readBulkArgs_cut`, `readCommand_cut`: on a strict beginning of a frame the reader reports the end
  of the source, unless a header that is due chokes it.
-/

namespace CacheMoney.Resp

open CacheMoney.Found

/-! ### The end of the source -/

variable {r : Reader}

/-- The error for the end of the source, at a boundary or inside a request.
Source: `internal/resp/reader.go` `readHeaderLine`, `normalizeEOF`
Kind: D -/
def Reader.cutErr (r : Reader) (boundary : Bool) : ReadErr :=
  match r.ending with
  | .eof => if boundary then .eof else .unexpectedEOF
  | .fault code => .transport code

/-- The buffer is full before a line feed has come.
Source: `internal/resp/reader.go` `readHeaderLine`
Kind: D -/
def Reader.Chokes (r : Reader) (u : Bytes) : Prop :=
  10 ∉ u.take r.bufSize ∧ r.bufSize ≤ u.length

/-- The error of a header line that the buffer cannot hold.
Source: `internal/resp/reader.go` `readHeaderLine`
Kind: D -/
def lineTooLong : ReadErr := .protocol (newProtocolError .lineTooLong)

/-- A line cut by the end of the source gives the error of a cut.
Source: `internal/resp/reader.go` `readHeaderLine`
Kind: L -/
theorem Reader.readHeaderLine_ended {u : Bytes} (hlf : 10 ∉ u) (hlen : u.length < r.bufSize)
    (atBoundary : Bool) :
    r.stream.readHeaderLine atBoundary u = .error (r.cutErr (atBoundary && u.isEmpty)) [] := by
  have hslice : readSlice r u = .ok (.ended u r.ending) [] := by
    unfold readSlice
    rw [List.idxOf?_eq_none_iff.mpr fun h => hlf (List.mem_of_mem_take h)]
    exact if_neg (Nat.not_le.mpr hlen)
  unfold ReaderOn.readHeaderLine Reader.cutErr
  simp only [bind, EStateM.bind, hslice]
  cases r.ending with
  | fault code => rfl
  | eof =>
      simp only
      split_ifs
      · rfl
      · rfl

/-- A line that the buffer cannot hold is too long.
Source: `internal/resp/reader.go` `readHeaderLine`
Kind: L -/
theorem Reader.readHeaderLine_choked {u : Bytes} (h : r.Chokes u) (atBoundary : Bool) :
    ∃ rest, r.stream.readHeaderLine atBoundary u = .error lineTooLong rest := by
  have hslice : readSlice r u = .ok .bufferFull (u.drop r.bufSize) := by
    unfold readSlice
    rw [List.idxOf?_eq_none_iff.mpr h.1]
    exact if_pos h.2
  refine ⟨u.drop r.bufSize, ?_⟩
  unfold ReaderOn.readHeaderLine
  simp only [bind, EStateM.bind, hslice]
  rfl

/-- Which header may stand at a boundary.
Source: `internal/resp/reader.go` `ReadCommand`, `readBulkArg`
Kind: D -/
def Marker.boundary : Marker → Bool
  | .array => true
  | .bulk => false

/-- The error of a header line is the error of the header.
Source: `internal/resp/reader.go` `ReadCommand`, `readBulkArg`
Kind: L -/
theorem Reader.readHeader_error (p : Marker) {u rest : Bytes} {e : ReadErr}
    (h : r.stream.readHeaderLine p.boundary u = .error e rest) :
    r.readHeader p u = .error e rest := by
  cases p with
  | array =>
      show r.stream.readLength _ _ _ _ _ u = _
      unfold ReaderOn.readLength
      simp only [bind, EStateM.bind]
      rw [show r.stream.readHeaderLine true u = .error e rest from h]
  | bulk =>
      show r.stream.readLength _ _ _ _ _ u = _
      unfold ReaderOn.readLength
      simp only [bind, EStateM.bind]
      rw [show r.stream.readHeaderLine false u = .error e rest from h]

/-- A complete header that the buffer holds.
Source: `internal/resp/reader.go` `readHeaderLine`, `parseInt`
Kind: L -/
theorem Reader.readHeader_line {p : Marker} {n : ℕ} (hn : (n : ℤ) ≤ (r.limits.of p).toInt)
    (hbuf : (p.byte :: (numeral n ++ [13])).length < r.bufSize) (v : Bytes) :
    r.readHeader p (header p (numeral n) v) = .ok (Int64.ofNat n) v := by
  have hlen : (numeral n).length ≤ 19 := by
    refine length_numeral_le ?_ (by decide)
    have := (r.limits.of p).toInt_lt
    omega
  have hline : ∀ atBoundary, scan (r.stream.readHeaderLine atBoundary) (header p (numeral n) v) =
      .done (p.byte :: numeral n) v := by
    intro atBoundary
    have hwhole : header p (numeral n) v = p.byte :: (numeral n ++ [13]) ++ 10 :: v := by
      simp [header, crlf]
    have hcap : (p.byte :: (numeral n ++ [13])).length < maxHeaderLine := by
      simp only [List.length_cons, List.length_append, List.length_nil]
      unfold maxHeaderLine
      omega
    rw [hwhole, r.scan_readHeaderLine_line atBoundary (lf_notMem_header p n) hbuf,
      if_pos ⟨hcap, by rw [← List.cons_append]; exact List.getLast?_concat⟩,
      ← List.cons_append, List.dropLast_concat]
  obtain ⟨atBoundary, hscan⟩ := r.scan_readHeader p
  rw [eq_ok_iff_scan, hscan, Scanner.bind, hline]
  exact lengthOf_eq_done.mpr ⟨rfl, n, rfl, hn, rfl⟩

/-- A header line has at most 22 bytes, so it can only choke a smaller buffer.
Source: `internal/resp/limits.go` `maxHeaderLine`
Kind: L -/
theorem Reader.lt_of_chokes {p : Marker} {n : ℕ} (hn : (n : ℤ) ≤ (r.limits.of p).toInt)
    {u v : Bytes} (hu : u <+: header p (numeral n) v) (h : r.Chokes u) : r.bufSize < 22 := by
  have hlen : (numeral n).length ≤ 19 := by
    refine length_numeral_le ?_ (by decide)
    have := (r.limits.of p).toInt_lt
    omega
  by_contra hbig
  apply h.1
  have hline : p.byte :: (numeral n ++ crlf) <+: header p (numeral n) v :=
    ⟨v, by simp [header]⟩
  have hbytes : (p.byte :: (numeral n ++ crlf)).length ≤ 22 := by
    simp only [List.length_cons, List.length_append, crlf, List.length_nil]
    omega
  have hfirst : p.byte :: (numeral n ++ crlf) <+: u :=
    List.prefix_of_prefix_length_le hline hu (by have := h.2; omega)
  have hheld : p.byte :: (numeral n ++ crlf) <+: u.take r.bufSize := by
    rw [List.prefix_take_iff]
    exact ⟨hfirst, by omega⟩
  exact hheld.subset (by simp [crlf])

/-- A beginning of a header and what follows it: the buffer is choked, the source ends inside the
header, or the header is read.
Source: `internal/resp/reader.go` `readHeaderLine`
Kind: P -/
theorem Reader.readHeader_cases {p : Marker} {n : ℕ} (hn : (n : ℤ) ≤ (r.limits.of p).toInt)
    {u v : Bytes} (hu : u <+: header p (numeral n) v) :
    (r.Chokes u ∧ r.bufSize < 22 ∧ ∃ rest, r.readHeader p u = .error lineTooLong rest) ∨
    (¬r.Chokes u ∧ r.readHeader p u = .error (r.cutErr (p.boundary && u.isEmpty)) [] ∧
      ∀ m w, u ≠ header p (numeral m) w) ∨
    ∃ v', u = header p (numeral n) v' ∧ v' <+: v ∧ ¬r.Chokes u ∧
      r.readHeader p u = .ok (Int64.ofNat n) v' := by
  rcases line_cases u r.bufSize with ⟨hlf, hlen⟩ | hchoke | ⟨l, rest, hl, hlen, rfl⟩
  · refine Or.inr (Or.inl ⟨fun h => absurd h.2 (Nat.not_le.mpr hlen), ?_, ?_⟩)
    · exact Reader.readHeader_error p (Reader.readHeaderLine_ended hlf hlen _)
    · rintro m w rfl
      exact hlf (by simp [header, crlf])
  · obtain ⟨rest, hrest⟩ := Reader.readHeaderLine_choked hchoke p.boundary
    exact Or.inl ⟨hchoke, Reader.lt_of_chokes hn hu hchoke, rest,
      Reader.readHeader_error p hrest⟩
  · -- The line feed is there: the line is the whole header.
    have hwhole : header p (numeral n) v = p.byte :: (numeral n ++ [13]) ++ 10 :: v := by
      simp [header, crlf]
    have hline : l = p.byte :: (numeral n ++ [13]) ∧ rest <+: v := by
      obtain ⟨x, hx⟩ := hu
      rw [hwhole, List.append_assoc, List.cons_append] at hx
      have hat := congrArg (List.idxOf? (10 : UInt8)) hx
      rw [idxOf?_lf hl, idxOf?_lf (lf_notMem_header p n), Option.some.injEq] at hat
      obtain ⟨hl, hrest⟩ := List.append_inj hx hat
      exact ⟨hl, x, (List.cons.inj hrest).2⟩
    obtain ⟨rfl, hrest⟩ := hline
    have hu' : p.byte :: (numeral n ++ [13]) ++ 10 :: rest = header p (numeral n) rest := by
      simp [header, crlf]
    refine Or.inr (Or.inr ⟨rest, hu', hrest, ?_, ?_⟩)
    · intro hchoke
      apply hchoke.1
      rw [List.take_append, List.take_of_length_le (by omega),
        show r.bufSize - (p.byte :: (numeral n ++ [13])).length =
          r.bufSize - (p.byte :: (numeral n ++ [13])).length - 1 + 1 by omega, List.take_succ_cons]
      simp
    · rw [hu']
      exact Reader.readHeader_line hn hlen rest

/-! ### Payloads -/

/-- A payload cut by the end of the source gives the error of a cut.
Source: `internal/resp/reader.go` `readBulkArg`
Kind: L -/
theorem adaptExcept_readFull_cut {n : ℕ} {u : Bytes} (h : u.length < n) :
    EStateM.adaptExcept normalizeEOF (readFull r n) u = .error (r.cutErr false) [] := by
  unfold EStateM.adaptExcept readFull Reader.cutErr
  rw [if_neg (Nat.not_le.mpr h)]
  cases r.ending with
  | fault code => rfl
  | eof =>
      by_cases hu : u = []
      · subst hu
        rfl
      · simp only [if_neg hu]
        rfl

/-- Bytes that are there are read.
Source: `internal/resp/reader.go` `readBulkArg`
Kind: L -/
theorem adaptExcept_readFull {n : ℕ} {u : Bytes} (h : n ≤ u.length) :
    EStateM.adaptExcept normalizeEOF (readFull r n) u = .ok (u.take n) (u.drop n) := by
  unfold EStateM.adaptExcept readFull
  rw [if_pos h]

/-- The source ends inside the payload or inside the line end after it.
Source: `internal/resp/reader.go` `readBulkArg`
Kind: L -/
theorem Reader.readPayload_cut {n : ℕ} {u : Bytes} (h : u.length < n + 2) :
    r.stream.readPayload n u = .error (r.cutErr false) [] := by
  unfold ReaderOn.readPayload
  simp only [bind, EStateM.bind]
  by_cases hn : n ≤ u.length
  · have hends : (u.drop n).length < 2 := by
      rw [List.length_drop]
      omega
    rw [adaptExcept_readFull hn]
    simp only
    rw [adaptExcept_readFull_cut hends]
  · rw [adaptExcept_readFull_cut (Nat.not_le.mp hn)]

/-- A whole payload is read with its line end taken off.
Source: `internal/resp/reader.go` `readBulkArg`
Kind: L -/
theorem Reader.readPayload_whole (a v : Bytes) :
    r.stream.readPayload a.length (a ++ (crlf ++ v)) = .ok a v := by
  rw [eq_ok_iff_scan, r.scan_readPayload]
  exact payload_eq_done.mpr ⟨rfl, rfl⟩

/-! ### Frames -/

/-- Among `n` bulk strings due in `u`, a header is reached that chokes the reader.
Source: `internal/resp/reader.go` `readHeaderLine`
Kind: D -/
def Reader.ItemsChoke (r : Reader) (n : ℕ) (u : Bytes) : Prop :=
  ∃ args w, args.length < n ∧ Items (canonical r) args u w ∧ r.Chokes w

/-- A header that is due in `b` chokes the reader.
Source: `internal/resp/reader.go` `readHeaderLine`
Kind: D -/
def Reader.FrameChokes (r : Reader) (b : Bytes) : Prop :=
  ∃ p u, HeaderAt (canonical r) b p u ∧ r.Chokes u

/-- After an argument that the buffer holds, the rest decides whether the buffer chokes.
Source: `internal/resp/reader.go` `readHeaderLine`
Kind: L -/
theorem Reader.itemsChoke_header {n : ℕ} {a v : Bytes}
    (ha : (a.length : ℤ) ≤ r.limits.maxBulkLen.toInt)
    (hfree : ¬r.Chokes (header .bulk (numeral a.length) (a ++ (crlf ++ v)))) :
    r.ItemsChoke (n + 1) (header .bulk (numeral a.length) (a ++ (crlf ++ v))) ↔
      r.ItemsChoke n v := by
  constructor
  · rintro ⟨args, w, hlen, hitems, hchoke⟩
    cases args with
    | nil =>
        rw [show header .bulk (numeral a.length) (a ++ (crlf ++ v)) = w from hitems] at hfree
        exact absurd hchoke hfree
    | cons a' args =>
        obtain ⟨ds, v', ⟨rfl, -⟩, heq, hrest⟩ := hitems
        obtain ⟨hsize, hbody⟩ := numeral_line_cancel (List.cons.inj heq).2
        obtain ⟨rfl, hend⟩ := List.append_inj hbody hsize
        obtain rfl := List.append_cancel_left hend
        exact ⟨args, w, Nat.lt_of_succ_lt_succ hlen, hrest, hchoke⟩
  · rintro ⟨args, w, hlen, hitems, hchoke⟩
    exact ⟨a :: args, w, Nat.succ_lt_succ hlen, ⟨_, v, ⟨rfl, ha⟩, rfl, hitems⟩, hchoke⟩

/-- A header that cannot be read ends the loop over the arguments.
Source: `internal/resp/reader.go` `readBulkArg`
Kind: L -/
theorem Reader.readBulkArgs_of_error {u rest : Bytes} {e : ReadErr} (count : ℕ)
    (h : r.readHeader .bulk u = .error e rest) :
    r.stream.readBulkArgs (count + 1) u = .error e rest := by
  rw [ReaderOn.readBulkArgs]
  unfold ReaderOn.readBulkArg
  simp only [bind, EStateM.bind]
  rw [show r.stream.readBulkHeader u = .error e rest from h]

/-- The loop over the arguments after a header.
Source: `internal/resp/reader.go` `readBulkArg`
Kind: L -/
theorem Reader.readBulkArgs_of_header {u v a : Bytes} (count : ℕ)
    (ha : (a.length : ℤ) ≤ r.limits.maxBulkLen.toInt)
    (h : r.readHeader .bulk u = .ok (Int64.ofNat a.length) v) :
    r.stream.readBulkArgs (count + 1) u =
      (r.stream.readPayload a.length >>= fun arg => do
        let more ← r.stream.readBulkArgs count
        pure (arg :: more)) v := by
  have hm : (Int64.ofNat a.length).toNatClampNeg = a.length := by
    have := r.limits.maxBulkLen.toInt_lt
    rw [Int64.toNatClampNeg, Int64.toInt_ofNat_of_lt (by omega)]
    rfl
  rw [ReaderOn.readBulkArgs]
  unfold ReaderOn.readBulkArg
  simp only [bind, EStateM.bind]
  rw [show r.stream.readBulkHeader u = .ok (Int64.ofNat a.length) v from h]
  simp only [hm]

/-- Inside a payload no header line is due.
Source: `internal/resp/reader.go` `readBulkArg`
Kind: L -/
theorem Reader.not_itemsChoke_of_short {a v : Bytes} {count : ℕ} (hshort : v.length < a.length + 2)
    (hfree : ¬r.Chokes (header .bulk (numeral a.length) v)) :
    ¬r.ItemsChoke count (header .bulk (numeral a.length) v) := by
  rintro ⟨done, w, -, hitems, hchoke⟩
  cases done with
  | nil => exact hfree ((show _ = w from hitems) ▸ hchoke)
  | cons a' done =>
      obtain ⟨ds, v', ⟨rfl, -⟩, hv, -⟩ := hitems
      obtain ⟨hsize, rfl⟩ := numeral_line_cancel (List.cons.inj hv).2
      rw [List.length_append, List.length_append] at hshort
      have hcrlf : crlf.length = 2 := rfl
      omega

/-- How the loop over the arguments ends on a strict beginning of their encoding.
Source: `internal/resp/reader.go` `ReadCommand`
Kind: P -/
theorem Reader.readBulkArgs_cut {args : List Bytes} :
    ∀ {u : Bytes}, (∀ a ∈ args, (a.length : ℤ) ≤ r.limits.maxBulkLen.toInt) →
      u <+: args.flatMap encodeBulk → u ≠ args.flatMap encodeBulk →
      (r.ItemsChoke args.length u ∧ r.bufSize < 22 ∧
        ∃ rest, r.stream.readBulkArgs args.length u = .error lineTooLong rest) ∨
      (¬r.ItemsChoke args.length u ∧
        ∃ rest, r.stream.readBulkArgs args.length u = .error (r.cutErr false) rest) := by
  induction args with
  | nil =>
      intro u _ hu hne
      exact absurd (List.prefix_nil.mp hu) hne
  | cons a args ih =>
      intro u hsizes hu hne
      have ha := hsizes a List.mem_cons_self
      have hwhole : (a :: args).flatMap encodeBulk =
          header .bulk (numeral a.length) (a ++ (crlf ++ args.flatMap encodeBulk)) := by
        simp [encodeBulk, header]
      rw [hwhole] at hu hne
      rw [List.length_cons]
      rcases r.readHeader_cases (p := .bulk) ha hu with
        ⟨hchoke, hsmall, rest, hread⟩ | ⟨hfree, hread, hpart⟩ | ⟨v', rfl, hv', hfree, hread⟩
      · exact Or.inl ⟨⟨[], u, Nat.succ_pos _, rfl, hchoke⟩, hsmall, rest,
          Reader.readBulkArgs_of_error _ hread⟩
      · refine Or.inr ⟨?_, [], Reader.readBulkArgs_of_error _ hread⟩
        rintro ⟨done, w, -, hitems, hchoke⟩
        cases done with
        | nil => exact hfree (show r.Chokes u from (show u = w from hitems) ▸ hchoke)
        | cons a' done =>
            obtain ⟨ds, v, ⟨rfl, -⟩, hv, -⟩ := hitems
            exact hpart _ _ hv
      · have hstep := Reader.readBulkArgs_of_header args.length ha hread
        by_cases hshort : v'.length < a.length + 2
        · refine Or.inr ⟨Reader.not_itemsChoke_of_short hshort hfree, [], ?_⟩
          rw [hstep]
          simp only [bind, EStateM.bind, Reader.readPayload_cut hshort]
        · -- The payload and its line end are all there.
          obtain ⟨w, rfl, hw⟩ : ∃ w, v' = a ++ (crlf ++ w) ∧ w <+: args.flatMap encodeBulk := by
            rw [← List.append_assoc] at hv'
            have hpre : a ++ crlf <+: v' := List.prefix_of_prefix_length_le
              (List.prefix_append _ _) hv' (by simpa [crlf] using hshort)
            obtain ⟨w, rfl⟩ := hpre
            exact ⟨w, List.append_assoc _ _ _, (List.prefix_append_right_inj _).mp hv'⟩
          have hne' : w ≠ args.flatMap encodeBulk := by
            rintro rfl
            exact hne rfl
          rw [Reader.itemsChoke_header ha hfree, hstep]
          simp only [bind, EStateM.bind, Reader.readPayload_whole]
          rcases ih (fun a' ha' => hsizes a' (List.mem_cons_of_mem a ha')) hw hne' with
            ⟨hchoke, hsmall, rest, hrest⟩ | ⟨hnone, rest, hrest⟩
          · exact Or.inl ⟨hchoke, hsmall, rest, by rw [hrest]⟩
          · exact Or.inr ⟨hnone, rest, by rw [hrest]⟩

/-- How the reader ends on a strict beginning of a frame.
Source: `internal/resp/reader.go` `ReadCommand`
Kind: P -/
theorem Reader.readCommand_cut {args : List Bytes} (hfits : Fits r.limits args) {b : Bytes}
    (hb : b <+: encode args) (hne : b ≠ encode args) :
    (r.FrameChokes b ∧ r.bufSize < 22 ∧ ∃ rest, r.readCommand b = .error lineTooLong rest) ∨
    (¬r.FrameChokes b ∧ ∃ rest, r.readCommand b = .error (r.cutErr b.isEmpty) rest) := by
  rw [encode_eq] at hb hne
  have herr : ∀ {e rest}, r.readHeader .array b = .error e rest →
      r.readCommand b = .error e rest := by
    intro e rest h
    unfold Reader.readCommand ReaderOn.readCommand
    simp only [bind, EStateM.bind]
    rw [show r.stream.readArrayHeader b = .error e rest from h]
  rcases r.readHeader_cases (p := .array) hfits.count hb with
    ⟨hchoke, hsmall, rest, hread⟩ | ⟨hfree, hread, hpart⟩ | ⟨v, rfl, hv, hfree, hread⟩
  · exact Or.inl ⟨⟨.array, b, rfl, hchoke⟩, hsmall, rest, herr hread⟩
  · refine Or.inr ⟨?_, [], herr hread⟩
    rintro ⟨p, u, hat, hchoke⟩
    cases p with
    | array => exact hfree ((show u = b from hat) ▸ hchoke)
    | bulk =>
        obtain ⟨ds, n, v, done, ⟨rfl, -⟩, heq, -⟩ := hat
        exact hpart _ _ heq
  · have hstep : r.readCommand (header .array (numeral args.length) v) =
        r.stream.readBulkArgs args.length v := by
      have hm : (Int64.ofNat args.length).toNatClampNeg = args.length := by
        refine Int64.toNatClampNeg_ofNat_of_lt ?_
        have hcount := hfits.count
        have := r.limits.maxMultibulkLen.toInt_lt
        omega
      unfold Reader.readCommand ReaderOn.readCommand
      simp only [bind, EStateM.bind]
      rw [show r.stream.readArrayHeader _ = .ok (Int64.ofNat args.length) v from hread]
      simp only [hm]
    have hchokes : r.FrameChokes (header .array (numeral args.length) v) ↔
        r.ItemsChoke args.length v := by
      constructor
      · rintro ⟨p, u, hat, hchoke⟩
        cases p with
        | array => exact absurd ((show u = _ from hat) ▸ hchoke) hfree
        | bulk =>
            obtain ⟨ds, n, v', done, ⟨rfl, -⟩, heq, hlen, hitems⟩ := hat
            obtain ⟨rfl, rfl⟩ := numeral_line_cancel (List.cons.inj heq).2
            exact ⟨done, u, hlen, hitems, hchoke⟩
      · rintro ⟨done, u, hlen, hitems, hchoke⟩
        exact ⟨.bulk, u, ⟨_, args.length, v, done, ⟨rfl, hfits.count⟩, rfl, hlen, hitems⟩, hchoke⟩
    have hne' : v ≠ args.flatMap encodeBulk := by
      rintro rfl
      exact hne rfl
    rw [hstep, hchokes]
    exact Reader.readBulkArgs_cut hfits.sizes hv hne'

/-- Limits under which no `make` of the reader can panic: a payload takes a byte for each byte, and
the vector of the arguments a slice header of 24 bytes for each argument.
Source: `internal/resp/reader.go` `ReadCommand`, `readBulkArg`
Kind: D -/
structure Limits.Allocatable (limits : Limits) : Prop where
  bulk : limits.maxBulkLen.toInt ≤ maxAlloc
  multibulk : 24 * limits.maxMultibulkLen.toInt ≤ maxAlloc

/-- **A truncated request is reported as the end of the source.** For every configuration of the
reader with limits that `make` can allocate, every argument vector within them and every strict
beginning of its frame, no `make` of the call panics. As long as no header that is due fills the
buffer, the reader returns `io.EOF` for an empty beginning and `io.ErrUnexpectedEOF` for any other,
and the error of the transport if that is how the source ends. A header that fills the buffer
before its line feed is a protocol error; no header does if the buffer has at least 22 bytes.
Source: `internal/resp/reader.go` `ReadCommand`, `normalizeEOF`
Kind: P
Fidelity: exact -/
theorem truncation_reported (opts : List ReaderOption) (ending : StreamEnd) (args : List Bytes)
    (hlimits : (resolveConfig opts).limits.Allocatable)
    (hfits : Fits (resolveConfig opts).limits args) (b : Bytes) (hb : b <+: encode args)
    (hne : b ≠ encode args) :
    (24 * args.length ≤ maxAlloc ∧ ∀ a ∈ args, a.length ≤ maxAlloc) ∧
    (¬(newReader ending opts).FrameChokes b →
      ∃ rest, (newReader ending opts).readCommand b = .error
        (match ending with
          | .eof => if b = [] then .eof else .unexpectedEOF
          | .fault code => .transport code) rest) ∧
    ((newReader ending opts).FrameChokes b →
      ∃ rest, (newReader ending opts).readCommand b =
        .error (.protocol (newProtocolError .lineTooLong)) rest) ∧
    (22 ≤ (newReader ending opts).bufSize → ¬(newReader ending opts).FrameChokes b) := by
  have hmade : 24 * args.length ≤ maxAlloc ∧ ∀ a ∈ args, a.length ≤ maxAlloc := by
    have hcount := hfits.count
    have hmulti := hlimits.multibulk
    refine ⟨by omega, fun a ha => ?_⟩
    have hsize := hfits.sizes a ha
    have hbulk := hlimits.bulk
    omega
  have hcut : (newReader ending opts).cutErr b.isEmpty = (match ending with
      | .eof => if b = [] then .eof else .unexpectedEOF
      | .fault code => .transport code) := by
    cases ending with
    | fault code => rfl
    | eof => cases b <;> rfl
  refine ⟨hmade, ?_⟩
  rcases Reader.readCommand_cut (r := newReader ending opts) hfits hb hne with
    ⟨hchoke, hsmall, hread⟩ | ⟨hfree, hread⟩
  · exact ⟨fun h => absurd hchoke h, fun _ => hread, fun h => absurd hsmall (Nat.not_lt.mpr h)⟩
  · rw [hcut] at hread
    exact ⟨fun _ => hread, fun h => absurd h hfree, fun _ => hfree⟩

/-- A frame cut between the two bytes of its last line end, with the default configuration.
Source: `internal/resp/errors_test.go` `TestTruncatedMidFrameIsUnexpectedEOF`
Kind: C -/
theorem truncation_reported_cr :
    ∃ rest, (newReader .eof []).readCommand (text "*1\r\n$4\r\nPING\r") =
      .error .unexpectedEOF rest := by
  obtain ⟨-, hread, -, hfree⟩ := truncation_reported [] .eof [text "PING"] ⟨by decide, by decide⟩
    ⟨by decide, by decide⟩ (text "*1\r\n$4\r\nPING\r") ⟨[10], by decide +kernel⟩
    (by decide +kernel)
  exact hread (hfree (by decide))

/-- A reader with the smallest buffer and the largest limit that `make` can allocate, and a frame
with an argument of ten million million bytes: cut before the line feed of the argument's header,
it is called malformed.
Source: `internal/resp/limits.go` `WithBufferSize`
Kind: C -/
theorem truncation_malformed :
    Fits (resolveConfig [.withBufferSize 16, .withMaxBulkLen 281474976710656]).limits
        [List.replicate 10000000000000 0] ∧
      text "*1\r\n$10000000000000\r" <+: encode [List.replicate 10000000000000 0] ∧
      text "*1\r\n$10000000000000\r" ≠ encode [List.replicate 10000000000000 0] ∧
      ∃ rest, (newReader .eof [.withBufferSize 16, .withMaxBulkLen 281474976710656]).readCommand
        (text "*1\r\n$10000000000000\r") =
          .error (.protocol (newProtocolError .lineTooLong)) rest := by
  have hnum : numeral 10000000000000 = text "10000000000000" := by decide +kernel
  have henc : encode [List.replicate 10000000000000 0] = text "*1\r\n$10000000000000\r" ++
      10 :: (List.replicate 10000000000000 0 ++ crlf) := by
    rw [encode_eq, List.flatMap_singleton, encodeBulk, List.length_replicate, hnum]
    rfl
  refine ⟨⟨by decide, ?_⟩, ⟨_, henc.symm⟩, ?_, ?_⟩
  · intro a ha
    rw [List.mem_singleton.mp ha, List.length_replicate]
    decide
  · rw [henc]
    intro h
    have hlen := congrArg List.length h
    rw [List.length_append, List.length_cons] at hlen
    omega
  · exact ⟨[], by rfl⟩

end CacheMoney.Resp
