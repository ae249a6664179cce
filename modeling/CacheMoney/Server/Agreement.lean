import CacheMoney.Server.Eventloop

/-!
# Where the two request decoders agree

The goroutine backend reads requests with `resp.Reader`, the event loop with `parseCommand`. Both
have the shape of `frame`, so they can part only at a header that is due.

* `Agrees b`: both find the same request and the same end of it, or both find a fault, or both want
  more than `b`.
* `Disputed b`: at a header that is due after a canonical beginning, `b` has an unfinished header
  that the event loop already gives up, a line feed without a carriage return, or a number with a
  sign or leading zeros in bytes that the event loop finds no fault in.
* `decoders_agree_iff`: the decoders agree exactly on the undisputed inputs.
-/

namespace CacheMoney.Server

open CacheMoney.Found CacheMoney.Resp

/-! ### Agreement -/

/-- The reader with default limits and buffer, on a source that ends properly.
Source: `internal/resp/reader.go` `NewReader`
Kind: D -/
def stdReader : Reader := newReader .eof []

/-- The decoders say the same about `b`.
Source: `internal/server/eventloop.go` `parseCommand`
Kind: D -/
structure Agrees (b : Bytes) : Prop where
  complete : ∀ scratch args n,
    (∃ spans kept, parseCommand b scratch = .ok (.command spans n, kept) ∧
      spans.map (Span.of b) = args) ↔
      n ≤ b.length ∧ stdReader.readCommand b = .ok args (b.drop n)
  fault : ∀ scratch e kept, parseCommand b scratch = .ok (.fault e, kept) →
    ∃ pe rest, stdReader.readCommand b = .error (.protocol pe) rest
  need : ∀ scratch kept, parseCommand b scratch = .ok (.need, kept) →
    ∃ rest, stdReader.readCommand b = .error .eof rest ∨
      stdReader.readCommand b = .error .unexpectedEOF rest

/-- The goroutine reader reads canonical headers.
Source: `internal/resp/reader.go` `ReadCommand`
Kind: L -/
theorem reads_strict : Reads stdReader.headers (canonical stdReader) :=
  stdReader.reads_canonical (by decide)

/-- Malformed bytes are a protocol error of the goroutine reader.
Source: `internal/resp/reader.go` `ReadCommand`
Kind: L -/
theorem scan_stdReader_malformed {b : Bytes} (h : frame stdReader.headers b = .malformed) :
    ∃ pe rest, stdReader.readCommand b = .error (.protocol pe) rest := by
  rw [← Reader.scan_readCommand, scan] at h
  cases hres : stdReader.readCommand b with
  | ok a r =>
      rw [hres] at h
      exact absurd h (by simp)
  | error e r =>
      cases e with
      | protocol pe => exact ⟨pe, r, rfl⟩
      | _ =>
          rw [hres] at h
          exact absurd h (by simp)

/-- Bytes that fall short are an end of the stream for the goroutine reader.
Source: `internal/resp/reader.go` `ReadCommand`
Kind: L -/
theorem scan_stdReader_short {b : Bytes} (h : frame stdReader.headers b = .short) :
    ∃ rest, stdReader.readCommand b = .error .eof rest ∨
      stdReader.readCommand b = .error .unexpectedEOF rest := by
  rw [← Reader.scan_readCommand, scan] at h
  have hno := Reader.noTransport_readCommand (r := stdReader) rfl b
  cases hres : stdReader.readCommand b with
  | ok a r =>
      rw [hres] at h
      exact absurd h (by simp)
  | error e r =>
      cases e with
      | eof => exact ⟨r, Or.inl rfl⟩
      | unexpectedEOF => exact ⟨r, Or.inr rfl⟩
      | protocol pe =>
          rw [hres] at h
          exact absurd h (by simp)
      | transport code => exact absurd hres (hno code r)

/-- The decoders agree when their scanners do.
Source: none
Kind: L -/
theorem agrees_iff {b : Bytes} : Agrees b ↔ frame stdReader.headers b = frame loopHeader b := by
  constructor
  · intro h
    obtain ⟨⟨x, kept⟩, hx, hverdict, -⟩ := parseCommand_spec b []
    rw [← hverdict, ← Reader.scan_readCommand]
    cases x with
    | command spans n =>
        obtain ⟨-, hread⟩ := (h.complete [] _ n).mp ⟨spans, kept, hx, rfl⟩
        exact eq_ok_iff_scan.mp hread
    | need =>
        obtain ⟨rest, hread | hread⟩ := h.need [] kept hx
        · simp only [scan, hread, Parsed.verdict]
        · simp only [scan, hread, Parsed.verdict]
    | fault e =>
        obtain ⟨pe, rest, hread⟩ := h.fault [] e kept hx
        simp only [scan, hread, Parsed.verdict]
  · intro h
    refine ⟨fun scratch args n => ?_, fun scratch e kept hx => ?_, fun scratch kept hx => ?_⟩
    · obtain ⟨⟨x, kept⟩, hx, hverdict, hle⟩ := parseCommand_spec b scratch
      rw [eq_ok_iff_scan, Reader.scan_readCommand, h, ← hverdict]
      constructor
      · rintro ⟨spans, kept', hx', rfl⟩
        obtain ⟨rfl, -⟩ := Prod.mk.inj (Except.ok.inj (hx.symm.trans hx'))
        exact ⟨hle _ _ rfl, rfl⟩
      · rintro ⟨hn, hdone⟩
        cases x with
        | need => exact absurd hdone (by simp [Parsed.verdict])
        | fault e => exact absurd hdone (by simp [Parsed.verdict])
        | command spans n' =>
            obtain ⟨hargs, hdrop⟩ := Verdict.done.inj hdone
            have hlen := congrArg List.length hdrop
            have hn' := hle _ _ rfl
            rw [List.length_drop, List.length_drop] at hlen
            obtain rfl : n' = n := by omega
            exact ⟨spans, kept, hx, hargs⟩
    · obtain ⟨x, hx', hverdict, -⟩ := parseCommand_spec b scratch
      obtain rfl := Except.ok.inj (hx.symm.trans hx')
      exact scan_stdReader_malformed (h.trans hverdict.symm)
    · obtain ⟨x, hx', hverdict, -⟩ := parseCommand_spec b scratch
      obtain rfl := Except.ok.inj (hx.symm.trans hx')
      exact scan_stdReader_short (h.trans hverdict.symm)

/-! ### Disputed inputs -/

/-- The inputs that the decoders read differently, each by the header at which they part.
Source: `internal/server/eventloop.go` `parseCommand`; `internal/resp/reader.go` `readHeaderLine`
Kind: D -/
inductive Disputed (b : Bytes) : Prop where
  /-- An unfinished header with the wrong type byte, or with more than 64 bytes. -/
  | hopeless {p : Marker} {u : Bytes} (hat : HeaderAt (canonical stdReader) b p u) (hne : u ≠ [])
      (hlf : 10 ∉ u) (hbuf : u.length < 16384)
      (hbad : u.head? ≠ some p.byte ∨ evMaxHeaderLine < u.length)
  /-- A line feed, but no line end yet. -/
  | bareLF {p : Marker} {u : Bytes} (hat : HeaderAt (canonical stdReader) b p u)
      (htype : u.head? = some p.byte) (hlf : 10 ∈ u) (hcrlf : ¬crlf <:+: u)
      (hlen : u.length ≤ evMaxHeaderLine)
  /-- A number with a sign or with leading zeros. -/
  | number {p : Marker} {u ds v : Bytes} {n : ℕ} (hat : HeaderAt (canonical stdReader) b p u)
      (hu : u = header p ds v) (hds : Loose ds n) (hlimit : (n : ℤ) ≤ (defaultLimits.of p).toInt)
      (hnot : ds ≠ numeral n) (hread : Faultless loose b)

/-- How the two decoders can part at one header.
Source: none
Kind: D -/
inductive Parts (p : Marker) (u : Bytes) : Prop where
  | hopeless (hr : stdReader.headers p u = .short) (hl : loopHeader p u = .malformed) (hne : u ≠ [])
      (hlf : 10 ∉ u) (hbuf : u.length < 16384)
      (hbad : u.head? ≠ some p.byte ∨ evMaxHeaderLine < u.length)
  | bareLF (hr : stdReader.headers p u = .malformed) (hl : loopHeader p u = .short)
      (htype : u.head? = some p.byte) (hlf : 10 ∈ u) (hcrlf : ¬crlf <:+: u)
      (hlen : u.length ≤ evMaxHeaderLine)
  | number {ds v : Bytes} {n : ℕ} (hr : stdReader.headers p u = .malformed)
      (hu : u = header p ds v) (hds : Loose ds n) (hlimit : (n : ℤ) ≤ (defaultLimits.of p).toInt)
      (hnot : ds ≠ numeral n)

/-- Every canonical number is a loose one.
Source: none
Kind: L -/
theorem strict_le_loose (p : Marker) (ds : Bytes) (n : ℕ)
    (h : (canonical stdReader).number p ds n) : loose.number p ds n := by
  obtain ⟨rfl, hn⟩ := h
  refine ⟨loose_numeral n, ?_⟩
  cases p <;> exact hn

/-- Bytes without a line feed have no line end.
Source: none
Kind: L -/
theorem not_crlf_of_notMem_lf {u : Bytes} (h : 10 ∉ u) : ¬crlf <:+: u := by
  intro hin
  exact h (hin.subset (by simp [crlf]))

/-- A header has a line feed.
Source: none
Kind: L -/
theorem lf_mem_header (p : Marker) (ds v : Bytes) : 10 ∈ header p ds v := by
  simp [header, crlf]

/-- Where the two readers differ on a header, the header is one of those on which they part.
Source: none
Kind: L -/
theorem parts_of_ne {p : Marker} {u : Bytes} (hne : stdReader.headers p u ≠ loopHeader p u) :
    Parts p u := by
  cases hr : stdReader.headers p u with
  | done n v =>
      obtain ⟨ds, hds, hu⟩ := (reads_strict.done_iff p u n v).mp hr
      have hl := (reads_loose.done_iff p u n v).mpr ⟨ds, strict_le_loose p ds n hds, hu⟩
      exact absurd (hr.trans hl.symm) hne
  | short =>
      obtain ⟨hlf, hbuf⟩ := (reads_strict.short_iff p u).mp hr
      cases hl : loopHeader p u with
      | short => exact absurd (hr.trans hl.symm) hne
      | done n v =>
          obtain ⟨ds, -, rfl⟩ := (reads_loose.done_iff p u n v).mp hl
          exact absurd (lf_mem_header p ds v) hlf
      | malformed =>
          refine .hopeless hr hl ?_ hlf hbuf ?_
          · intro hnil
            rw [(reads_loose.short_iff p u).mpr (Or.inl hnil)] at hl
            exact absurd hl (by simp)
          · by_contra hgood
            rw [not_or, ne_eq, not_not, Nat.not_lt] at hgood
            rw [(reads_loose.short_iff p u).mpr
              (Or.inr ⟨hgood.1, not_crlf_of_notMem_lf hlf, hgood.2⟩)] at hl
            exact absurd hl (by simp)
  | malformed =>
      cases hl : loopHeader p u with
      | malformed => exact absurd (hr.trans hl.symm) hne
      | done n v =>
          obtain ⟨ds, hds, hu⟩ := (reads_loose.done_iff p u n v).mp hl
          refine .number hr hu hds.1 hds.2 ?_
          rintro rfl
          have hcan : (canonical stdReader).number p (numeral n) n := by
            refine ⟨rfl, ?_⟩
            cases p <;> exact hds.2
          rw [(reads_strict.done_iff p u n v).mpr ⟨_, hcan, hu⟩] at hr
          exact absurd hr (by simp)
      | short =>
          have hshort : 10 ∉ u → ¬u.length < 16384 := by
            intro hlf hbuf
            rw [(reads_strict.short_iff p u).mpr ⟨hlf, hbuf⟩] at hr
            exact absurd hr (by simp)
          rcases (reads_loose.short_iff p u).mp hl with rfl | ⟨htype, hcrlf, hlen⟩
          · exact absurd (by decide) (hshort (by simp))
          · refine .bareLF hr hl htype ?_ hcrlf hlen
            by_contra hlf
            have hlen' : u.length ≤ 64 := hlen
            exact hshort hlf (by omega)

/-- Two runs over bulk strings part at a header that is due.
Source: none
Kind: L -/
theorem items_ne {m : ℕ} : ∀ {u : Bytes},
    (item stdReader.headers).times m u ≠ (item loopHeader).times m u →
    ∃ args u', args.length < m ∧ Items (canonical stdReader) args u u' ∧
      stdReader.headers .bulk u' ≠ loopHeader .bulk u' := by
  induction m with
  | zero =>
      intro u hne
      exact absurd rfl hne
  | succ m ih =>
      intro u hne
      by_cases hhead : stdReader.headers .bulk u = loopHeader .bulk u
      · have hitem : item stdReader.headers u = item loopHeader u := by
          unfold item Scanner.bind
          rw [hhead]
        rw [Scanner.times_succ, Scanner.times_succ, ← hitem] at hne
        cases hres : item stdReader.headers u with
        | short =>
            rw [hres] at hne
            exact absurd rfl hne
        | malformed =>
            rw [hres] at hne
            exact absurd rfl hne
        | done a r =>
            have hrest : (item stdReader.headers).times m r ≠ (item loopHeader).times m r := by
              intro heq
              simp only [hres, Verdict.bind, heq] at hne
              exact absurd rfl hne
            obtain ⟨args, u', hlen, hitems, hu'⟩ := ih hrest
            obtain ⟨ds, hds, hb⟩ := reads_strict.item_done_iff.mp hres
            exact ⟨a :: args, u', Nat.succ_lt_succ hlen, ⟨ds, r, hds, hb, hitems⟩, hu'⟩
      · exact ⟨[], u, Nat.succ_pos m, rfl, hhead⟩

/-- Where the two readers differ on a request, they differ on a header of it.
Source: none
Kind: L -/
theorem exists_headerAt_of_ne {b : Bytes} (hne : frame stdReader.headers b ≠ frame loopHeader b) :
    ∃ p u, HeaderAt (canonical stdReader) b p u ∧ stdReader.headers p u ≠ loopHeader p u := by
  by_cases hhead : stdReader.headers .array b = loopHeader .array b
  · unfold frame Scanner.bind at hne
    rw [← hhead] at hne
    cases hres : stdReader.headers .array b with
    | short =>
        rw [hres] at hne
        exact absurd rfl hne
    | malformed =>
        rw [hres] at hne
        exact absurd rfl hne
    | done n v =>
        simp only [hres, Verdict.bind] at hne
        obtain ⟨args, u, hlen, hitems, hu⟩ := items_ne hne
        obtain ⟨ds, hds, hb⟩ := (reads_strict.done_iff _ _ _ _).mp hres
        exact ⟨.bulk, u, ⟨ds, n, v, args, hds, hb, hlen, hitems⟩, hu⟩
  · exact ⟨.array, b, rfl, hhead⟩

/-- On disputed bytes the two readers differ.
Source: none
Kind: L -/
theorem Disputed.ne {b : Bytes} (h : Disputed b) :
    frame stdReader.headers b ≠ frame loopHeader b := by
  cases h with
  | @hopeless p u hat hne hlf hbuf hbad =>
      have hr := (reads_strict.short_iff p u).mpr ⟨hlf, hbuf⟩
      have hl : loopHeader p u = .malformed := by
        cases hl : loopHeader p u with
        | malformed => rfl
        | done n v =>
            obtain ⟨ds, -, rfl⟩ := (reads_loose.done_iff p u n v).mp hl
            exact absurd (lf_mem_header p ds v) hlf
        | short =>
            rcases (reads_loose.short_iff p u).mp hl with hnil | ⟨htype, -, hlen⟩
            · exact absurd hnil hne
            · rcases hbad with hbad | hbad
              · exact absurd htype hbad
              · exact absurd hlen (Nat.not_le.mpr hbad)
      rw [reads_strict.frame_of_short hat hr,
        reads_loose.frame_of_malformed (hat.mono strict_le_loose) hl]
      simp
  | @bareLF p u hat htype hlf hcrlf hlen =>
      have hl := (reads_loose.short_iff p u).mpr (Or.inr ⟨htype, hcrlf, hlen⟩)
      have hr : stdReader.headers p u = .malformed := by
        cases hr : stdReader.headers p u with
        | malformed => rfl
        | done n v =>
            obtain ⟨ds, hds, hu⟩ := (reads_strict.done_iff p u n v).mp hr
            rw [(reads_loose.done_iff p u n v).mpr ⟨ds, strict_le_loose _ _ _ hds, hu⟩] at hl
            exact absurd hl (by simp)
        | short => exact absurd hlf ((reads_strict.short_iff p u).mp hr).1
      rw [reads_strict.frame_of_malformed hat hr,
        reads_loose.frame_of_short (hat.mono strict_le_loose) hl]
      simp
  | @number p u ds v n hat hu hds hlimit hnot hread =>
      have hl := (reads_loose.done_iff p u n v).mpr ⟨ds, ⟨hds, hlimit⟩, hu⟩
      have hr : stdReader.headers p u = .malformed := by
        cases hr : stdReader.headers p u with
        | malformed => rfl
        | done m w =>
            -- Both headers end at the first line end, so their numbers are the same text.
            obtain ⟨ds', hds', hu'⟩ := (reads_strict.done_iff p u m w).mp hr
            have hl' := (reads_loose.done_iff p u m w).mpr ⟨ds', strict_le_loose _ _ _ hds', hu'⟩
            obtain ⟨rfl, rfl⟩ := Verdict.done.inj (hl.symm.trans hl')
            rw [hu'] at hu
            have htext : ds' = ds := List.append_cancel_right (List.cons.inj hu).2
            exact absurd (htext.symm.trans hds'.1) hnot
        | short =>
            rw [hu] at hr
            exact absurd (lf_mem_header p ds v) ((reads_strict.short_iff _ _).mp hr).1
      rw [reads_strict.frame_of_malformed hat hr]
      exact (reads_loose.frame_ne_malformed_iff.mpr hread).symm

/-- The decoders agree on an input exactly when it is not disputed.
Source: `internal/server/eventloop.go` `parseCommand`; `internal/resp/reader.go` `ReadCommand`
Kind: P
Fidelity: exact -/
theorem decoders_agree_iff (b : Bytes) : Agrees b ↔ ¬Disputed b := by
  rw [agrees_iff]
  constructor
  · intro heq hdisputed
    exact hdisputed.ne heq
  · intro hnot
    by_contra hne
    apply hnot
    obtain ⟨p, u, hat, hhead⟩ := exists_headerAt_of_ne hne
    cases parts_of_ne hhead with
    | hopeless hr hl hnil hlf hbuf hbad => exact .hopeless hat hnil hlf hbuf hbad
    | bareLF hr hl htype hlf hcrlf hlen => exact .bareLF hat htype hlf hcrlf hlen
    | number hr hu hds hlimit hcan =>
        refine .number hat hu hds hlimit hcan
          (reads_loose.frame_ne_malformed_iff.mp fun hbad => hne ?_)
        rw [reads_strict.frame_of_malformed hat hr, hbad]

/-- A plus sign in front of the count: the event loop takes the request, the reader refuses it.
Source: `internal/server/eventloop.go` `parseCommand`
Kind: C -/
theorem plus_sign_disputed : ¬Agrees (text "*+1\r\n$1\r\na\r\n") := by
  intro h
  obtain ⟨-, hread⟩ := (h.complete [] [[97]] 12).mp ⟨[⟨9, 10⟩], [⟨9, 10⟩], rfl, rfl⟩
  have hrefused : ∃ e rest, stdReader.readCommand (text "*+1\r\n$1\r\na\r\n") = .error e rest :=
    ⟨_, _, rfl⟩
  obtain ⟨e, rest, hrefused⟩ := hrefused
  rw [hrefused] at hread
  cases hread

end CacheMoney.Server
