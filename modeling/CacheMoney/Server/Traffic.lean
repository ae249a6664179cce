import CacheMoney.Server.Eventloop

/-!
# Deliveries to the event loop

`onTraffic` is called whenever bytes have come in for a connection. It parses and dispatches every
complete request of the unread bytes, discards what it consumed, and closes the connection after a
protocol error or when `dispatch` asks for it.

* `Handler`: what `onTraffic` uses of the server. Its writes do not fail, so a flush between two
  deliveries changes nothing that `dispatch` sees.
* `deliverAll` follows a connection over successive deliveries; `dispatched` records the requests
  handed to `dispatch`.
* `parser_safe`: the parser stays in its buffer and makes progress, so the loop of `onTraffic` ends.
* `capped`: the numbers of the parser with fewer than 63 characters, whose headers never have more
  than 64 bytes before their line end is complete.
* `cuts_irrelevant_iff`: the requests dispatched and the protocol error do not depend on the cuts
  between deliveries exactly when, wherever a request begins, bytes without a fault have only such
  numbers.
-/

namespace CacheMoney.Server

open CacheMoney.Found CacheMoney.Resp

/-! ### The event handler -/

/-- The part of the server that the event handler calls: `dispatch` with the flag to close, and the
error reply.
Source: `internal/server/eventloop.go` `evHandler`
Kind: D -/
structure Handler (σ : Type) where
  dispatch : σ → List Bytes → σ × Bool
  writeError : σ → Bytes → σ

/-- A connection: its unread bytes, its state, the scratch of the parser, the requests dispatched so
far, and whether it is open (`waiting`) or why it was closed.
Source: `internal/server/eventloop.go` `evConn`
Kind: D -/
structure EvConn (σ : Type) where
  inbound : Bytes
  conn : σ
  scratch : List Span
  dispatched : List (List Bytes)
  status : Ending

variable {σ : Type}

/-- Source: `internal/server/eventloop.go` `OnOpen`
Kind: D -/
def onOpen (st : σ) : EvConn σ := ⟨[], st, [], [], .waiting⟩

/-- The loop of `OnTraffic` over the peeked bytes.
Source: `internal/server/eventloop.go` `OnTraffic`
Kind: D -/
def trafficLoop (h : Handler σ) (data : Bytes) : ℕ → ℕ → EvConn σ → Outcome (ℕ × EvConn σ)
  | 0, _, _ => throw .outOfFuel
  | fuel + 1, consumed, ec => do
      let rest ← slice data consumed data.length
      let (parsed, scratch) ← parseCommand rest ec.scratch
      let ec := { ec with scratch := scratch }
      match parsed with
      | .fault e =>
          let conn := h.writeError ec.conn (text "ERR Protocol error: " ++ e.message)
          return (consumed, { ec with conn := conn, status := .faulted })
      | .need => return (consumed, ec)
      | .command spans n =>
          let args := spans.map (Span.of rest)
          let (conn, stop) := h.dispatch ec.conn args
          let ec := { ec with conn := conn, dispatched := ec.dispatched ++ [args] }
          if stop then return (consumed + n, { ec with status := .stopped })
          trafficLoop h data fuel (consumed + n) ec

/-- Source: `internal/server/eventloop.go` `OnTraffic`
Kind: D -/
def onTraffic (h : Handler σ) (fuel : ℕ) (ec : EvConn σ) : Outcome (EvConn σ) := do
  let (consumed, ec) ← trafficLoop h ec.inbound fuel 0 ec
  return { ec with inbound := ec.inbound.drop consumed }

/-- Bytes come in. A closed connection gets no more calls.
Source: `internal/server/eventloop.go` `OnTraffic`
Kind: D -/
def deliver (h : Handler σ) (fuel : ℕ) (ec : EvConn σ) (d : Bytes) : Outcome (EvConn σ) :=
  if ec.status ≠ .waiting then pure ec
  else onTraffic h fuel { ec with inbound := ec.inbound ++ d }

/-- Successive deliveries.
Source: `internal/server/eventloop.go` `OnTraffic`
Kind: D -/
def deliverAll (h : Handler σ) (fuel : ℕ) : EvConn σ → List Bytes → Outcome (EvConn σ)
  | ec, [] => pure ec
  | ec, d :: ds => do
      let ec ← deliver h fuel ec d
      deliverAll h fuel ec ds

/-! ### The handler drains its buffer -/

section drains

variable (h : Handler σ)

/-- Equation lemma: one request is parsed, and the result decides.
Source: `internal/server/eventloop.go` `OnTraffic`
Kind: L -/
theorem trafficLoop_succ {data : Bytes} {consumed : ℕ} (hle : consumed ≤ data.length) (fuel : ℕ)
    (ec : EvConn σ) :
    trafficLoop h data (fuel + 1) consumed ec =
      (parseCommand (data.drop consumed) ec.scratch).bind fun (parsed, scratch) =>
        match parsed with
        | .fault e =>
            .ok (consumed, { ec with
              conn := h.writeError ec.conn (text "ERR Protocol error: " ++ e.message),
              scratch := scratch, status := .faulted })
        | .need => .ok (consumed, { ec with scratch := scratch })
        | .command spans n =>
            let args := spans.map (Span.of (data.drop consumed))
            let ec' := { ec with
              conn := (h.dispatch ec.conn args).1, scratch := scratch,
              dispatched := ec.dispatched ++ [args] }
            if (h.dispatch ec.conn args).2 = true then
              .ok (consumed + n, { ec' with status := .stopped })
            else trafficLoop h data fuel (consumed + n) ec' := by
  rw [trafficLoop, slice_eq_ok hle le_rfl, Span.of, List.take_length, ok_bind]
  rfl

/-- On bytes that fall short the loop keeps them and waits.
Source: `internal/server/eventloop.go` `OnTraffic`
Kind: L -/
theorem trafficLoop_short {data : Bytes} {consumed : ℕ} (hle : consumed ≤ data.length)
    (hs : frame loopHeader (data.drop consumed) = .short) (fuel : ℕ) (ec : EvConn σ) :
    ∃ kept, trafficLoop h data (fuel + 1) consumed ec = .ok (consumed, { ec with scratch := kept }) := by
  obtain ⟨⟨x, kept⟩, hx, hverdict, -⟩ := parseCommand_spec (data.drop consumed) ec.scratch
  rw [trafficLoop_succ h hle, hx]
  rw [hs] at hverdict
  cases x with
  | command spans n => exact absurd hverdict (by simp [Parsed.verdict])
  | fault e => exact absurd hverdict (by simp [Parsed.verdict])
  | need => exact ⟨kept, rfl⟩

/-- On malformed bytes the loop replies and closes.
Source: `internal/server/eventloop.go` `OnTraffic`
Kind: L -/
theorem trafficLoop_malformed {data : Bytes} {consumed : ℕ} (hle : consumed ≤ data.length)
    (hs : frame loopHeader (data.drop consumed) = .malformed) (fuel : ℕ) (ec : EvConn σ) :
    ∃ conn kept, trafficLoop h data (fuel + 1) consumed ec =
      .ok (consumed, { ec with conn := conn, scratch := kept, status := .faulted }) := by
  obtain ⟨⟨x, kept⟩, hx, hverdict, -⟩ := parseCommand_spec (data.drop consumed) ec.scratch
  rw [trafficLoop_succ h hle, hx]
  rw [hs] at hverdict
  cases x with
  | command spans n => exact absurd hverdict (by simp [Parsed.verdict])
  | need => exact absurd hverdict (by simp [Parsed.verdict])
  | fault e => exact ⟨_, kept, rfl⟩

/-- On a whole request the loop dispatches it and goes on behind it.
Source: `internal/server/eventloop.go` `OnTraffic`
Kind: L -/
theorem trafficLoop_done {data : Bytes} {consumed : ℕ} (hle : consumed ≤ data.length)
    {args : List Bytes} {r : Bytes} (hs : frame loopHeader (data.drop consumed) = .done args r)
    {st' : σ} {stop : Bool} (ec : EvConn σ) (hact : h.dispatch ec.conn args = (st', stop)) (fuel : ℕ) :
    ∃ n kept, consumed + n ≤ data.length ∧ data.drop (consumed + n) = r ∧
      trafficLoop h data (fuel + 1) consumed ec =
        let ec' := { ec with
          conn := st', scratch := kept, dispatched := ec.dispatched ++ [args] }
        if stop = true then .ok (consumed + n, { ec' with status := .stopped })
        else trafficLoop h data fuel (consumed + n) ec' := by
  obtain ⟨⟨x, kept⟩, hx, hverdict, hn⟩ := parseCommand_spec (data.drop consumed) ec.scratch
  rw [trafficLoop_succ h hle, hx]
  rw [hs] at hverdict
  cases x with
  | need => exact absurd hverdict (by simp [Parsed.verdict])
  | fault e => exact absurd hverdict (by simp [Parsed.verdict])
  | command spans n =>
      obtain ⟨rfl, hr⟩ := Verdict.done.inj hverdict
      have hn' := hn spans n rfl
      rw [List.length_drop] at hn'
      rw [List.drop_drop] at hr
      refine ⟨n, kept, by omega, hr, ?_⟩
      simp only [Except.bind, hact]

/-- The loop does what the abstract one does.
Source: `internal/server/eventloop.go` `OnTraffic`
Kind: L -/
theorem trafficLoop_spec (data : Bytes) {st st' : σ} {b b' : Bytes} {log : List (List Bytes)}
    {e : Ending} (hd : Drains (frame loopHeader) h.dispatch st b log st' b' e) :
    ∀ (fuel consumed : ℕ) (ec : EvConn σ), ec.conn = st → data.drop consumed = b →
      consumed ≤ data.length → b.length < fuel → ec.status = .waiting →
      Returns (trafficLoop h data fuel consumed ec) fun x =>
        data.drop x.1 = b' ∧ x.2.inbound = ec.inbound ∧ x.2.dispatched = ec.dispatched ++ log ∧
          x.2.status = e ∧ (e = .waiting → x.2.conn = st') := by
  induction hd with
  | wait hs =>
      intro fuel consumed ec hconn hb hle hfuel hstatus
      obtain ⟨fuel, rfl⟩ := Nat.exists_eq_succ_of_ne_zero (Nat.ne_of_gt (Nat.zero_lt_of_lt hfuel))
      subst hb
      obtain ⟨kept, hrun⟩ := trafficLoop_short h hle hs fuel ec
      exact ⟨_, hrun, rfl, rfl, (List.append_nil _).symm, hstatus, fun _ => hconn⟩
  | fault hs =>
      intro fuel consumed ec hconn hb hle hfuel hstatus
      obtain ⟨fuel, rfl⟩ := Nat.exists_eq_succ_of_ne_zero (Nat.ne_of_gt (Nat.zero_lt_of_lt hfuel))
      subst hb
      obtain ⟨conn, kept, hrun⟩ := trafficLoop_malformed h hle hs fuel ec
      exact ⟨_, hrun, rfl, rfl, (List.append_nil _).symm, rfl, fun he => absurd he (by decide)⟩
  | stop hs hact =>
      intro fuel consumed ec hconn hb hle hfuel hstatus
      obtain ⟨fuel, rfl⟩ := Nat.exists_eq_succ_of_ne_zero (Nat.ne_of_gt (Nat.zero_lt_of_lt hfuel))
      subst hb hconn
      obtain ⟨n, kept, -, hr, hrun⟩ := trafficLoop_done h hle hs ec hact fuel
      exact ⟨_, hrun, hr, rfl, rfl, rfl, fun he => absurd he (by decide)⟩
  | @go st st' st'' b r r' args log e hs hact hrest ih =>
      intro fuel consumed ec hconn hb hle hfuel hstatus
      obtain ⟨fuel, rfl⟩ := Nat.exists_eq_succ_of_ne_zero (Nat.ne_of_gt (Nat.zero_lt_of_lt hfuel))
      subst hb hconn
      -- A request takes at least one byte, so the fuel left is enough.
      obtain ⟨c, hc, hcr, -⟩ := reads_loose.frame_local _ _ _ hs
      have hcpos := List.length_pos_of_ne_nil hc
      have hclen := congrArg List.length hcr
      rw [List.length_append] at hclen
      obtain ⟨n, kept, hn, hr, hrun⟩ := trafficLoop_done h hle hs ec hact fuel
      rw [hrun]
      obtain ⟨y, hy, hdrop, hin, hlog, hst, hconn⟩ := ih fuel (consumed + n)
        { ec with conn := st', scratch := kept, dispatched := ec.dispatched ++ [args] }
        rfl hr hn (by omega) hstatus
      refine ⟨y, hy, hdrop, hin, ?_, hst, hconn⟩
      rw [hlog, List.append_assoc]
      rfl

/-- One delivery drains what was kept and what is new.
Source: `internal/server/eventloop.go` `OnTraffic`
Kind: L -/
theorem deliver_spec {st' : σ} {b' d : Bytes} {log : List (List Bytes)} {e : Ending}
    {ec : EvConn σ}
    (hd : Drains (frame loopHeader) h.dispatch ec.conn (ec.inbound ++ d) log st' b' e) (fuel : ℕ)
    (hfuel : (ec.inbound ++ d).length < fuel) (hstatus : ec.status = .waiting) :
    Returns (deliver h fuel ec d) fun ec' =>
      ec'.inbound = b' ∧ ec'.dispatched = ec.dispatched ++ log ∧ ec'.status = e ∧
        (e = .waiting → ec'.conn = st') := by
  obtain ⟨⟨consumed, ec'⟩, hx, hdrop, hin, hlog, hst, hconn⟩ :=
    trafficLoop_spec h (ec.inbound ++ d) hd fuel 0 { ec with inbound := ec.inbound ++ d } rfl rfl
      (Nat.zero_le _) hfuel hstatus
  unfold deliver onTraffic
  rw [if_neg (not_not.mpr hstatus)]
  simp only [hx, ok_bind]
  simp only at hdrop hin hlog hst hconn
  exact ⟨_, rfl, by rw [hin]; exact hdrop, hlog, hst, hconn⟩

/-- A connection that is closed takes no more bytes.
Source: `internal/server/eventloop.go` `OnTraffic`
Kind: L -/
theorem deliverAll_closed {fuel : ℕ} {ec : EvConn σ} (hstatus : ec.status ≠ .waiting)
    (ds : List Bytes) : deliverAll h fuel ec ds = .ok ec := by
  induction ds with
  | nil => rfl
  | cons d ds ih =>
      unfold deliverAll deliver
      rw [if_pos hstatus]
      exact ih

/-- A drain leaves no more bytes than there were.
Source: none
Kind: L -/
theorem drains_length_le {st st' : σ} {b b' : Bytes} {log : List (List Bytes)} {e : Ending}
    (hd : Drains (frame loopHeader) h.dispatch st b log st' b' e) : b'.length ≤ b.length := by
  induction hd with
  | wait => exact le_rfl
  | fault => exact le_rfl
  | stop hs hact =>
      obtain ⟨c, -, rfl, -⟩ := reads_loose.frame_local _ _ _ hs
      simp
  | go hs hact hrest ih =>
      obtain ⟨c, -, rfl, -⟩ := reads_loose.frame_local _ _ _ hs
      rw [List.length_append]
      omega

/-- The event handler is the abstract delivery loop with its parser for the scanner.
Source: `internal/server/eventloop.go` `OnTraffic`
Kind: L -/
theorem deliverAll_spec {st : σ} {b : Bytes} {ds : List Bytes} {log : List (List Bytes)}
    {e : Ending} (hd : Delivers (frame loopHeader) h.dispatch st b ds log e) :
    ∀ (fuel : ℕ) (ec : EvConn σ), ec.conn = st → ec.inbound = b →
      (b ++ ds.flatten).length < fuel → ec.status = .waiting →
      Returns (deliverAll h fuel ec ds) fun ec' =>
        ec'.dispatched = ec.dispatched ++ log ∧ ec'.status = e := by
  induction hd with
  | nil =>
      intro fuel ec _ _ _ hstatus
      exact ⟨ec, rfl, (List.append_nil _).symm, hstatus⟩
  | @closed st st' b b' d ds log e hd he =>
      intro fuel ec hconn hb hfuel hstatus
      subst hconn hb
      rw [List.flatten_cons, ← List.append_assoc, List.length_append] at hfuel
      obtain ⟨ec', hec', -, hlog, hst, -⟩ := deliver_spec h hd fuel (by omega) hstatus
      unfold deliverAll
      rw [hec', ok_bind, deliverAll_closed h (by rw [hst]; exact he) ds]
      exact ⟨ec', rfl, hlog, hst⟩
  | @more st st' b b' d ds log log' e hd hmore ih =>
      intro fuel ec hconn hb hfuel hstatus
      subst hconn hb
      rw [List.flatten_cons, ← List.append_assoc, List.length_append] at hfuel
      have hlen := drains_length_le h hd
      obtain ⟨ec', hec', hin, hlog, hst, hconn'⟩ :=
        deliver_spec h hd fuel (by omega) hstatus
      unfold deliverAll
      rw [hec', ok_bind]
      obtain ⟨ec'', hec'', hlog'', hst''⟩ := ih fuel ec' (hconn' rfl) hin
        (by rw [List.length_append]; omega) hst
      refine ⟨ec'', hec'', ?_, hst''⟩
      rw [hlog'', hlog, List.append_assoc]

end drains

/-! ### The loop ends -/

/-- The loop over the peeked bytes ends, and has consumed no more than there are.
Source: `internal/server/eventloop.go` `OnTraffic`
Kind: L -/
theorem trafficLoop_returns {σ : Type} (h : Handler σ) (data : Bytes) (fuel : ℕ) :
    ∀ (consumed : ℕ) (ec : EvConn σ), consumed ≤ data.length →
      data.length - consumed < 4 * fuel →
      Returns (trafficLoop h data fuel consumed ec) fun x =>
        x.1 ≤ data.length ∧ x.2.inbound = ec.inbound := by
  induction fuel with
  | zero =>
      intro consumed ec _ hfuel
      exact absurd hfuel (Nat.not_lt_zero _)
  | succ fuel ih =>
      intro consumed ec hle hfuel
      obtain ⟨⟨parsed, kept⟩, hx, hprogress⟩ :=
        parseCommand_progress (data.drop consumed) ec.scratch
      rw [trafficLoop_succ h hle, hx]
      cases parsed with
      | fault e => exact ⟨_, rfl, hle, rfl⟩
      | need => exact ⟨_, rfl, hle, rfl⟩
      | command spans n =>
          obtain ⟨hfour, hn, -⟩ := hprogress spans n rfl
          rw [List.length_drop] at hn
          simp only [Except.bind]
          split_ifs
          · exact ⟨_, rfl, by dsimp only; omega, rfl⟩
          · exact ih (consumed + n) _ (by omega) (by omega)

/-- On every buffer and scratch the parser returns without an access outside the buffer. A complete
request takes at least four bytes of the buffer, and its arguments are apart and in order in
these bytes. The loop of `OnTraffic` ends on every inbound buffer, after at most one round for every
four bytes and one more, and discards no more than the buffer holds.
Source: `internal/server/eventloop.go` `parseCommand`, `indexCRLF`, `OnTraffic`
Kind: P
Fidelity: exact -/
theorem parser_safe {σ : Type} (h : Handler σ) (b : Bytes) (scratch : List Span) (ec : EvConn σ) :
    Returns (parseCommand b scratch) (fun x => ∀ args n, x.1 = .command args n →
        4 ≤ n ∧ n ≤ b.length ∧ InOrder args n) ∧
      (∀ i, indexCRLFFrom (b.drop i) ((b.drop i).length + 1) 0 = .ok (indexCRLF (b.drop i))) ∧
      ∀ fuel, ec.inbound.length < 4 * fuel →
        ∃ consumed ec', trafficLoop h ec.inbound fuel 0 ec = .ok (consumed, ec') ∧
          consumed ≤ ec.inbound.length ∧
          onTraffic h fuel ec = .ok { ec' with inbound := ec.inbound.drop consumed } := by
  refine ⟨parseCommand_progress b scratch, fun i => indexCRLFFrom_zero (b.drop i), ?_⟩
  intro fuel hfuel
  obtain ⟨⟨consumed, ec'⟩, hrun, hle, hinbound⟩ :=
    trafficLoop_returns h ec.inbound fuel 0 ec (Nat.zero_le _) (by omega)
  refine ⟨consumed, ec', hrun, hle, ?_⟩
  unfold onTraffic
  rw [hrun, ← hinbound]
  rfl

/-- A request of one argument and the first byte of the next one.
Source: `internal/server/eventloop.go` `parseCommand`
Kind: L -/
theorem parser_safe_ping :
    ∃ consumed ec',
      trafficLoop ⟨fun st _ => (st, false), fun st _ => st⟩ (text "*1\r\n$4\r\nPING\r\n*") 5 0
        { onOpen () with inbound := text "*1\r\n$4\r\nPING\r\n*" } = .ok (consumed, ec') ∧
      consumed ≤ (text "*1\r\n$4\r\nPING\r\n*").length := by
  obtain ⟨consumed, ec', hrun, hle, -⟩ :=
    (parser_safe ⟨fun st _ => (st, false), fun st _ => st⟩ [] []
      { onOpen () with inbound := text "*1\r\n$4\r\nPING\r\n*" }).2.2 5 (by decide)
  exact ⟨consumed, ec', hrun, hle⟩

/-! ### Cuts and headers -/

/-- The numbers whose header fits the bound on unfinished headers up to its last byte.
Source: `internal/server/eventloop.go` `evMaxHeaderLine`
Kind: D -/
def capped : Lexicon where
  number p ds n := loose.number p ds n ∧ ds.length + 2 ≤ evMaxHeaderLine
  pending := loose.pending

/-- A loose numeral has no line feed.
Source: none
Kind: L -/
theorem lf_notMem_of_loose {ds : Bytes} {n : ℕ} (h : Loose ds n) : 10 ∉ ds := by
  intro hmem
  rcases h.mem hmem with h | h | h
  · exact absurd h (by decide)
  · exact absurd h (by decide)
  · exact absurd h (by decide)

/-- A header without its line feed has no line end.
Source: none
Kind: L -/
theorem not_crlf_unfinished {p : Marker} {ds : Bytes} {n : ℕ} (h : Loose ds n) :
    ¬crlf <:+: p.byte :: (ds ++ [13]) := by
  intro hin
  have hlf : (10 : UInt8) ∈ p.byte :: (ds ++ [13]) := hin.subset (by simp [crlf])
  rcases List.mem_cons.mp hlf with hp | hlf
  · cases p <;> exact absurd hp (by decide)
  rcases List.mem_append.mp hlf with hds | hcr
  · exact lf_notMem_of_loose h hds
  · exact absurd hcr (by decide)

/-- A beginning of a pending header is pending.
Source: none
Kind: L -/
theorem pending_cut {p : Marker} {b b' : Bytes} (h : loose.pending p b) (hb : b' <+: b) :
    loose.pending p b' := by
  cases b' with
  | nil => exact Or.inl rfl
  | cons c b' =>
      obtain ⟨x, rfl⟩ := hb
      rcases h with h | ⟨hhead, hcrlf, hlen⟩
      · exact absurd h (by simp)
      · refine Or.inr ⟨hhead, fun hin => hcrlf (hin.trans (List.prefix_append _ x).isInfix), ?_⟩
        rw [List.length_append] at hlen
        omega

/-- A beginning of two texts ends in the first, or in the second.
Source: none
Kind: L -/
theorem prefix_append_cases {a b c : Bytes} (h : a <+: b ++ c) :
    a <+: b ∨ ∃ d, a = b ++ d ∧ d <+: c := by
  rcases List.prefix_or_prefix_of_prefix h (List.prefix_append b c) with hab | hba
  · exact Or.inl hab
  · obtain ⟨d, rfl⟩ := hba
    exact Or.inr ⟨d, rfl, (List.prefix_append_right_inj b).mp h⟩

/-- A cut inside a capped header leaves an unfinished header.
Source: `internal/server/eventloop.go` `parseCommand`
Kind: L -/
theorem capped_header_cut {p : Marker} {ds b' r : Bytes} {n : ℕ} (h : capped.number p ds n)
    (hb : b' <+: header p ds r) :
    loose.pending p b' ∨ ∃ r', b' = header p ds r' ∧ r' <+: r := by
  obtain ⟨⟨hloose, -⟩, hlen⟩ := h
  have hwhole : ∀ r', header p ds r' = p.byte :: (ds ++ [13]) ++ [10] ++ r' := by
    intro r'
    simp [header, crlf]
  have hunfinished : loose.pending p (p.byte :: (ds ++ [13])) := by
    refine Or.inr ⟨rfl, not_crlf_unfinished hloose, ?_⟩
    simp only [List.length_cons, List.length_append, List.length_nil]
    omega
  rw [hwhole] at hb
  rcases prefix_append_cases hb with hb | ⟨r', rfl, hr'⟩
  · rcases List.prefix_concat_iff.mp hb with rfl | hb
    · exact Or.inr ⟨[], by rw [hwhole, List.append_nil], List.nil_prefix⟩
    · exact Or.inl (pending_cut hunfinished hb)
  · exact Or.inr ⟨r', (hwhole r').symm, hr'⟩

/-- A beginning of arguments without a fault has none.
Source: `internal/server/eventloop.go` `parseCommand`
Kind: L -/
theorem faultlessItems_cut {m : ℕ} :
    ∀ {b b' : Bytes}, FaultlessItems capped m b → b' <+: b → FaultlessItems loose m b' := by
  induction m with
  | zero =>
      intro b b' _ _
      trivial
  | succ m ih =>
      intro b b' h hb
      rcases h with (hp | ⟨ds, n, v, hds, rfl, hshort⟩) | ⟨ds, a, v, hds, rfl, hv⟩
      · exact Or.inl (Or.inl (pending_cut hp hb))
      · rcases capped_header_cut hds hb with hp | ⟨v', rfl, hv'⟩
        · exact Or.inl (Or.inl hp)
        · exact Or.inl (Or.inr ⟨ds, n, v', hds.1, rfl, Nat.lt_of_le_of_lt hv'.length_le hshort⟩)
      · rcases capped_header_cut hds hb with hp | ⟨u, rfl, hu⟩
        · exact Or.inl (Or.inl hp)
        by_cases hshort : u.length < a.length + 2
        · exact Or.inl (Or.inr ⟨ds, a.length, u, hds.1, rfl, hshort⟩)
        -- The payload and its line end are all there.
        rw [← List.append_assoc] at hu
        rcases prefix_append_cases hu with hu | ⟨v', rfl, hv'⟩
        · have hwhole : u = a ++ crlf := hu.eq_of_length_le (by simpa [crlf] using hshort)
          refine Or.inr ⟨ds, a, [], hds.1, ?_, ih hv List.nil_prefix⟩
          rw [hwhole, List.append_nil]
        · exact Or.inr ⟨ds, a, v', hds.1, by rw [List.append_assoc], ih hv hv'⟩

/-- A beginning of a request without a fault has none.
Source: `internal/server/eventloop.go` `parseCommand`
Kind: L -/
theorem faultless_cut {b b' : Bytes} (h : Faultless capped b) (hb : b' <+: b) :
    Faultless loose b' := by
  rcases h with hp | ⟨ds, n, v, hds, rfl, hv⟩
  · exact Or.inl (pending_cut hp hb)
  · rcases capped_header_cut hds hb with hp | ⟨v', rfl, hv'⟩
    · exact Or.inl hp
    · exact Or.inr ⟨ds, n, v', hds.1, rfl, faultlessItems_cut hv hv'⟩

/-- If a header is not condemned when all but its last byte is there, it is capped.
Source: `internal/server/eventloop.go` `parseCommand`
Kind: L -/
theorem capped_of_uncondemned {p : Marker} {ds : Bytes} {n : ℕ} (h : loose.number p ds n)
    (hne : loopHeader p (p.byte :: (ds ++ [13])) ≠ .malformed) : capped.number p ds n := by
  refine ⟨h, ?_⟩
  by_contra hlong
  apply hne
  have hcrlf := indexCRLF_eq_none_iff.mpr (not_crlf_unfinished (p := p) h.1)
  have hlen : evMaxHeaderLine < (p.byte :: (ds ++ [13])).length := by
    simp only [List.length_cons, List.length_append, List.length_nil]
    omega
  unfold loopHeader
  rw [if_neg (by simp), if_neg (by simp), hcrlf]
  exact if_pos hlen

/-- A header without its line feed is a beginning of the header.
Source: none
Kind: L -/
theorem unfinished_beginning (p : Marker) (ds v : Bytes) :
    p.byte :: (ds ++ [13]) <+: header p ds v := ⟨10 :: v, by simp [header, crlf]⟩

/-- Arguments no beginning of which is malformed are within the cap.
Source: `internal/server/eventloop.go` `parseCommand`
Kind: L -/
theorem cappedItems_of_uncondemned {m : ℕ} :
    ∀ {b : Bytes}, (∀ b', b' <+: b → (item loopHeader).times m b' ≠ .malformed) →
      FaultlessItems capped m b := by
  induction m with
  | zero =>
      intro b _
      trivial
  | succ m ih =>
      intro b hall
      have hcap : ∀ ds n v, loose.number .bulk ds n → b = header .bulk ds v →
          capped.number .bulk ds n := by
        intro ds n v hds hb
        apply capped_of_uncondemned hds
        intro hbad
        refine hall _ (hb ▸ unfinished_beginning .bulk ds v) ?_
        rw [Scanner.times_succ, item, Scanner.bind, hbad]
        rfl
      rcases reads_loose.items_ne_malformed_iff.mp (hall b List.prefix_rfl) with
        (hp | ⟨ds, n, v, hds, hb, hshort⟩) | ⟨ds, a, v, hds, hb, hv⟩
      · exact Or.inl (Or.inl hp)
      · exact Or.inl (Or.inr ⟨ds, n, v, hcap ds n v hds hb, hb, hshort⟩)
      · refine Or.inr ⟨ds, a, v, hcap ds _ _ hds hb, hb, ih fun v' hv' hbad => ?_⟩
        have hprefix : header .bulk ds (a ++ (crlf ++ v')) <+: b := by
          obtain ⟨x, rfl⟩ := hv'
          exact ⟨x, by simp [hb, header]⟩
        apply hall _ hprefix
        rw [Scanner.times_succ, reads_loose.item_done_iff.mpr ⟨ds, hds, rfl⟩]
        simp only [Verdict.bind, hbad]

/-- A request no beginning of which is malformed is within the cap.
Source: `internal/server/eventloop.go` `parseCommand`
Kind: L -/
theorem capped_of_all_uncondemned {b : Bytes}
    (hall : ∀ b', b' <+: b → frame loopHeader b' ≠ .malformed) : Faultless capped b := by
  rcases reads_loose.frame_ne_malformed_iff.mp (hall b List.prefix_rfl) with
    hp | ⟨ds, n, v, hds, hb, hv⟩
  · exact Or.inl hp
  · have hcap : capped.number .array ds n := by
      apply capped_of_uncondemned hds
      intro hbad
      refine hall _ (hb ▸ unfinished_beginning .array ds v) ?_
      rw [frame, Scanner.bind, hbad]
      rfl
    refine Or.inr ⟨ds, n, v, hcap, hb, cappedItems_of_uncondemned fun v' hv' hbad => ?_⟩
    have hprefix : header .array ds v' <+: b := by
      obtain ⟨x, rfl⟩ := hv'
      exact ⟨x, by simp [hb, header]⟩
    apply hall _ hprefix
    rw [frame, Scanner.bind, (reads_loose.done_iff _ _ _ _).mpr ⟨ds, hds, rfl⟩]
    exact hbad

/-- Cuts inside a request do no harm exactly when its headers are capped.
Source: `internal/server/eventloop.go` `parseCommand`
Kind: L -/
theorem firm_iff {t : Bytes} :
    (frame loopHeader).Firm t ↔ (Faultless loose t → Faultless capped t) := by
  constructor
  · intro hfirm ht
    apply capped_of_all_uncondemned
    intro b' hb' hbad
    exact reads_loose.frame_ne_malformed_iff.mpr ht (hfirm b' hb' hbad)
  · intro himp b' hb' hbad
    by_contra ht
    have hcapped := himp (reads_loose.frame_ne_malformed_iff.mp ht)
    exact reads_loose.frame_ne_malformed_iff.mpr (faultless_cut hcapped hb') hbad

/-! ### Cuts between deliveries -/

/-- Dispatching the requests one after another never asks to close the connection.
Source: `internal/server/dispatch.go` `dispatch`
Kind: D -/
def Handler.proceeds (h : Handler σ) : σ → List (List Bytes) → Bool
  | _, [] => true
  | st, args :: more =>
      let (st, stop) := h.dispatch st args
      !stop && h.proceeds st more

/-- Dispatching proceeds past a request if it does not ask to close.
Source: `internal/server/dispatch.go` `dispatch`
Kind: L -/
theorem Handler.proceeds_cons {h : Handler σ} {st : σ} {args : List Bytes}
    {more : List (List Bytes)} : h.proceeds st (args :: more) = true ↔
      ∃ st', h.dispatch st args = (st', false) ∧ h.proceeds st' more = true := by
  rw [Handler.proceeds]
  obtain ⟨st', stop⟩ := h.dispatch st args
  cases stop <;> simp

/-- What a drain reaches lies behind whole requests.
Source: `internal/server/dispatch.go` `dispatch`
Kind: L -/
theorem exists_reached_iff {h : Handler σ} {b t : Bytes} {st : σ} :
    (∃ st', Reached (frame loopHeader) h.dispatch st b st' t) ↔
      ∃ requests, Frames loose requests b t ∧ h.proceeds st requests = true := by
  constructor
  · rintro ⟨st', hreach⟩
    induction hreach with
    | here => exact ⟨[], rfl, rfl⟩
    | next hs hact _ ih =>
        obtain ⟨requests, hframes, hproceeds⟩ := ih
        exact ⟨_ :: requests, ⟨_, reads_loose.frame_done_iff.mp hs, hframes⟩,
          Handler.proceeds_cons.mpr ⟨_, hact, hproceeds⟩⟩
  · rintro ⟨requests, hframes, hproceeds⟩
    induction requests generalizing st b with
    | nil =>
        rw [show b = t from hframes]
        exact ⟨st, .here⟩
    | cons args more ih =>
        obtain ⟨v, hframe, hmore⟩ := hframes
        obtain ⟨st₁, hact, hproceeds⟩ := Handler.proceeds_cons.mp hproceeds
        obtain ⟨st', hreach⟩ := ih hmore hproceeds
        exact ⟨st', .next (reads_loose.frame_done_iff.mpr hframe) hact hreach⟩

/-- Every sequence of deliveries has its outcome.
Source: `internal/server/dispatch.go` `dispatch`
Kind: L -/
theorem exists_delivers (h : Handler σ) (ds : List Bytes) :
    ∀ (st : σ) (b : Bytes), ∃ log e, Delivers (frame loopHeader) h.dispatch st b ds log e := by
  induction ds with
  | nil =>
      intro st b
      exact ⟨[], .waiting, .nil⟩
  | cons d ds ih =>
      intro st b
      obtain ⟨log, st', b', e, hd⟩ :=
        exists_drains h.dispatch reads_loose.frame_local _ st (b ++ d) le_rfl
      by_cases he : e = .waiting
      · subst he
        obtain ⟨log', e', hrest⟩ := ih st' b'
        exact ⟨_, _, .more hd hrest⟩
      · exact ⟨log, e, .closed hd he⟩

/-- On a new connection the deliveries have the outcome that the stream describes.
Source: `internal/server/eventloop.go` `OnOpen`, `OnTraffic`
Kind: L -/
theorem deliverAll_onOpen (h : Handler σ) (st : σ) {ds : List Bytes} {log : List (List Bytes)}
    {e : Ending} (hd : Delivers (frame loopHeader) h.dispatch st [] ds log e) {stream : Bytes}
    (hds : ds.flatten = stream) {fuel : ℕ} (hfuel : stream.length < fuel) :
    Returns (deliverAll h fuel (onOpen st) ds) fun ec => ec.dispatched = log ∧ ec.status = e := by
  subst hds
  exact deliverAll_spec h hd fuel (onOpen st) rfl rfl hfuel rfl

/-- For a stream, whatever way it is cut into deliveries: the handler returns, the same requests are
dispatched with the same arguments, and there is a protocol error for one cutting if and only if
there is one for the other. This holds exactly when, at every place of the stream where the handler
starts to parse a request, bytes that have no fault have capped headers only.
Source: `internal/server/eventloop.go` `OnTraffic`
Kind: P
Fidelity: exact -/
theorem cuts_irrelevant_iff (h : Handler σ) (st : σ) (stream : Bytes) :
    (∀ fuel, stream.length < fuel → ∀ ds ds', ds.flatten = stream → ds'.flatten = stream →
        ∃ ec ec', deliverAll h fuel (onOpen st) ds = .ok ec ∧
          deliverAll h fuel (onOpen st) ds' = .ok ec' ∧ ec.dispatched = ec'.dispatched ∧
          (ec.status = .faulted ↔ ec'.status = .faulted)) ↔
      ∀ requests t, Frames loose requests stream t → h.proceeds st requests = true →
        Faultless loose t → Faultless capped t := by
  have hreached : (∀ requests t, Frames loose requests stream t → h.proceeds st requests = true →
      Faultless loose t → Faultless capped t) ↔
      ∀ st' t, Reached (frame loopHeader) h.dispatch st stream st' t →
        (frame loopHeader).Firm t := by
    constructor
    · intro hall st' t hreach
      obtain ⟨requests, hframes, hproceeds⟩ := exists_reached_iff.mp ⟨st', hreach⟩
      exact firm_iff.mpr (hall requests t hframes hproceeds)
    · intro hall requests t hframes hproceeds
      obtain ⟨st', hreach⟩ := exists_reached_iff.mpr ⟨requests, hframes, hproceeds⟩
      exact firm_iff.mp (hall st' t hreach)
  rw [hreached, ← insensitive_iff reads_loose.frame_local rfl]
  constructor
  · intro hall ds ds' log log' e e' hds hds' hd hd'
    obtain ⟨ec, ec', hec, hec', hlog, hfault⟩ := hall _ (Nat.lt_succ_self _) ds ds' hds hds'
    obtain ⟨_, heq, rfl, rfl⟩ := deliverAll_onOpen h st hd hds (Nat.lt_succ_self _)
    obtain ⟨_, heq', rfl, rfl⟩ := deliverAll_onOpen h st hd' hds' (Nat.lt_succ_self _)
    cases hec.symm.trans heq
    cases hec'.symm.trans heq'
    exact ⟨hlog, hfault⟩
  · intro hall fuel hfuel ds ds' hds hds'
    obtain ⟨log, e, hd⟩ := exists_delivers h ds st []
    obtain ⟨log', e', hd'⟩ := exists_delivers h ds' st []
    obtain ⟨ec, hec, rfl, rfl⟩ := deliverAll_onOpen h st hd hds hfuel
    obtain ⟨ec', hec', rfl, rfl⟩ := deliverAll_onOpen h st hd' hds' hfuel
    exact ⟨ec, ec', hec, hec', hall ds ds' _ _ _ _ hds hds' hd hd'⟩

/-- A `PING` whose count is written with 62 leading zeros.
Source: `internal/server/eventloop.go` `parseCommand`
Kind: D -/
def paddedPing : Bytes := text "*" ++ List.replicate 62 48 ++ text "1\r\n$4\r\nPING\r\n"

/-- A handler that only counts requests.
Source: none
Kind: D -/
def counting : Handler ℕ := ⟨fun n _ => (n + 1, false), fun n _ => n⟩

/-- In one delivery the padded `PING` is dispatched; cut before the line feed of its first header it
is a protocol error.
Source: `internal/server/eventloop.go` `OnTraffic`
Kind: C -/
theorem padded_ping_cut :
    ((deliverAll counting 100 (onOpen 0) [paddedPing]).map fun ec => (ec.dispatched, ec.status)) =
        .ok ([[text "PING"]], .waiting) ∧
      ((deliverAll counting 100 (onOpen 0) [paddedPing.take 65, paddedPing.drop 65]).map
        fun ec => (ec.dispatched, ec.status)) = .ok ([], .faulted) := by
  decide +kernel

end CacheMoney.Server
