import CacheMoney.Resp.RoundTrip
import CacheMoney.Server.Replies
import CacheMoney.Server.Traffic

/-!
# The event loop inverts the encoding

Requests are encoded one after another and arrive in pieces. Whatever the pieces are, the event
loop dispatches exactly these requests.

* `frame_encode`, `frame_cut`: a canonical frame is read in full where it is complete, and every
  strict beginning of it asks for more. Its headers have fewer than 64 bytes, so none of them is
  condemned before its line end has come.
* `drains_encoded`: what one delivery does with a beginning of the stream, and what it leaves.
* `serverHandler`: the dispatcher of the server over any engine. It asks to close only for `QUIT`.
-/

namespace CacheMoney.Server

open CacheMoney.Found CacheMoney.Resp

/-! ### Canonical frames and their beginnings -/

variable {args : List Bytes}

/-- A number within the default limits is written with at most ten digits.
Source: `internal/server/eventloop.go` `evMaxHeaderLine`
Kind: L -/
theorem capped_numeral {p : Marker} {n : ℕ} (h : (n : ℤ) ≤ (defaultLimits.of p).toInt) :
    capped.number p (numeral n) n := by
  have hmax : (defaultLimits.of p).toInt ≤ 536870912 := by cases p <;> decide
  have hlen : (numeral n).length ≤ 10 := length_numeral_le (by omega) (by decide)
  refine ⟨⟨loose_numeral n, h⟩, ?_⟩
  unfold evMaxHeaderLine
  omega

/-- Encoded arguments are arguments of the capped lexicon.
Source: `internal/resp/writer.go` `WriteBulk`
Kind: L -/
theorem items_capped : ∀ {args : List Bytes} (_ : ∀ a ∈ args,
    (a.length : ℤ) ≤ defaultLimits.maxBulkLen.toInt) (rest : Bytes),
    Items capped args (args.flatMap encodeBulk ++ rest) rest := by
  intro args
  induction args with
  | nil => exact fun _ _ => rfl
  | cons a args ih =>
      intro hsizes rest
      refine ⟨numeral a.length, args.flatMap encodeBulk ++ rest,
        capped_numeral (hsizes a List.mem_cons_self), by simp [encodeBulk, header], ?_⟩
      exact ih (fun a' ha' => hsizes a' (List.mem_cons_of_mem a ha')) rest

/-- An encoded request is a request of the capped lexicon.
Source: `internal/resp/writer.go` `WriteBulk`
Kind: L -/
theorem frame_capped (h : Fits defaultLimits args) (rest : Bytes) :
    Frame capped (encode args ++ rest) args rest :=
  ⟨numeral args.length, args.flatMap encodeBulk ++ rest, capped_numeral h.count,
    by simp [encode_eq, header], items_capped h.sizes rest⟩

/-- A complete canonical frame is read in full.
Source: `internal/server/eventloop.go` `parseCommand`
Kind: L -/
theorem frame_encode (h : Fits defaultLimits args) (rest : Bytes) :
    frame loopHeader (encode args ++ rest) = .done args rest := by
  have hle : ∀ p ds n, capped.number p ds n → loose.number p ds n := fun _ _ _ hn => hn.1
  obtain ⟨ds, v, hds, hb, hitems⟩ := frame_capped h rest
  exact reads_loose.frame_done_iff.mpr ⟨ds, v, hds.1, hb, hitems.mono hle⟩

/-- Whole arguments have no fault.
Source: `internal/server/eventloop.go` `parseCommand`
Kind: L -/
theorem faultlessItems_of_items {lx : Lexicon} : ∀ {args : List Bytes} {b r : Bytes},
    Items lx args b r → FaultlessItems lx args.length b := by
  intro args
  induction args with
  | nil => exact fun _ => trivial
  | cons a args ih =>
      rintro b r ⟨ds, v, hds, hb, hv⟩
      exact Or.inr ⟨ds, a, v, hds, hb, ih hv⟩

/-- Every strict beginning of a canonical frame asks for more.
Source: `internal/server/eventloop.go` `parseCommand`
Kind: P -/
theorem frame_cut (h : Fits defaultLimits args) {b : Bytes} (hb : b <+: encode args)
    (hne : b ≠ encode args) : frame loopHeader b = .short := by
  have hwhole : Faultless capped (encode args) := by
    obtain ⟨ds, v, hds, heq, hitems⟩ := frame_capped h []
    rw [List.append_nil] at heq
    exact Or.inr ⟨ds, args.length, v, hds, heq, faultlessItems_of_items hitems⟩
  cases hread : frame loopHeader b with
  | short => rfl
  | malformed =>
      exact absurd hread (reads_loose.frame_ne_malformed_iff.mpr (faultless_cut hwhole hb))
  | done args' r =>
      -- A request found in `b` would be found in the whole frame, with bytes left after it.
      exfalso
      obtain ⟨x, hx⟩ := hb
      obtain ⟨c, -, rfl, hc⟩ := reads_loose.frame_local b args' r hread
      have hdone := frame_encode h []
      rw [List.append_nil, ← hx, List.append_assoc, hc] at hdone
      have hrest := (Verdict.done.inj hdone).2
      rw [(List.append_eq_nil_iff.mp hrest).2, List.append_nil] at hx
      exact hne hx

/-! ### Deliveries -/

section deliveries

variable {σ : Type} {h : Handler σ}

/-- One delivery on a beginning `b` of the encoded requests: the complete frames of it are
dispatched, and what is left is a beginning of the others.
Source: `internal/server/eventloop.go` `OnTraffic`
Kind: P -/
theorem drains_encoded {requests : List (List Bytes)} :
    ∀ {st : σ} {b : Bytes}, (∀ args ∈ requests, Fits defaultLimits args) →
      h.proceeds st requests = true → b <+: requests.flatMap encode →
      ∃ now later st' b', requests = now ++ later ∧ b = now.flatMap encode ++ b' ∧
        h.proceeds st' later = true ∧ b' <+: later.flatMap encode ∧
        frame loopHeader b' = .short ∧
        Drains (frame loopHeader) h.dispatch st b now st' b' .waiting := by
  induction requests with
  | nil =>
      intro st b _ hgo hb
      obtain rfl : b = [] := List.prefix_nil.mp hb
      exact ⟨[], [], st, [], rfl, rfl, hgo, List.prefix_rfl, rfl, .wait rfl⟩
  | cons args requests ih =>
      intro st b hfits hgo hb
      have hargs := hfits args List.mem_cons_self
      rw [List.flatMap_cons] at hb
      -- Either the first frame is complete in `b`, or `b` ends inside it.
      have hsplit : (∃ d, b = encode args ++ d ∧ d <+: requests.flatMap encode) ∨
          b <+: encode args ∧ b ≠ encode args := by
        rcases prefix_append_cases hb with hcut | hdone
        · by_cases heq : b = encode args
          · exact Or.inl ⟨[], by rw [heq, List.append_nil], List.nil_prefix⟩
          · exact Or.inr ⟨hcut, heq⟩
        · exact Or.inl hdone
      rcases hsplit with ⟨d, rfl, hd⟩ | ⟨hcut, hne⟩
      · obtain ⟨st₁, hact, hgo₁⟩ := Handler.proceeds_cons.mp hgo
        obtain ⟨now, later, st', b', hreq, hd', hgo', hb', hshort, hdrain⟩ :=
          ih (fun args' h' => hfits args' (List.mem_cons_of_mem args h')) hgo₁ hd
        refine ⟨args :: now, later, st', b', by rw [hreq, List.cons_append], ?_, hgo', hb', hshort,
          .go (frame_encode hargs d) hact hdrain⟩
        rw [hd', List.flatMap_cons, List.append_assoc]
      · have hshort := frame_cut hargs hcut hne
        exact ⟨[], args :: requests, st, b, rfl, rfl, hgo, hb, hshort, .wait hshort⟩

/-- All deliveries. `b` is what is unread before them.
Source: `internal/server/eventloop.go` `OnTraffic`
Kind: P -/
theorem deliverAll_encoded (ds : List Bytes) :
    ∀ {requests : List (List Bytes)} (ec : EvConn σ) {fuel : ℕ},
      (∀ args ∈ requests, Fits defaultLimits args) → h.proceeds ec.conn requests = true →
      ec.inbound ++ ds.flatten = requests.flatMap encode →
      frame loopHeader ec.inbound = .short → (ec.inbound ++ ds.flatten).length < fuel →
      ec.status = .waiting →
      Returns (deliverAll h fuel ec ds) fun ec' =>
        ec'.dispatched = ec.dispatched ++ requests ∧ ec'.status = .waiting ∧
          ec'.inbound = [] := by
  induction ds with
  | nil =>
      intro requests ec fuel hfits hgo hstream hshort _ hstatus
      rw [List.flatten_nil, List.append_nil] at hstream
      -- The unread bytes are all that is left, and no complete frame is among them.
      cases requests with
      | nil => exact ⟨ec, rfl, (List.append_nil _).symm, hstatus, hstream⟩
      | cons args requests =>
          rw [hstream, List.flatMap_cons, frame_encode (hfits args List.mem_cons_self)] at hshort
          cases hshort
  | cons d ds ih =>
      intro requests ec fuel hfits hgo hstream _ hfuel hstatus
      rw [List.flatten_cons, ← List.append_assoc] at hstream hfuel
      have hfirst : ec.inbound ++ d <+: requests.flatMap encode := ⟨_, hstream⟩
      obtain ⟨now, later, st', b', rfl, hb, hgo', hb', hshort, hdrain⟩ :=
        drains_encoded hfits hgo hfirst
      rw [List.length_append] at hfuel
      obtain ⟨ec', hec', hin, hlog, hst, hconn⟩ :=
        deliver_spec h hdrain fuel (by omega) hstatus
      have hleft : ec'.inbound ++ ds.flatten = later.flatMap encode := by
        rw [hb, List.flatMap_append, List.append_assoc] at hstream
        rw [hin]
        exact List.append_cancel_left hstream
      have hlen : (ec'.inbound ++ ds.flatten).length < fuel := by
        have hle := drains_length_le h hdrain
        rw [List.length_append, hin]
        omega
      obtain ⟨ec'', hec'', hlog', hst', hin'⟩ :=
        ih ec' (fun args ha => hfits args (List.mem_append_right now ha))
          (by rw [hconn rfl]; exact hgo') hleft (by rw [hin]; exact hshort) hlen hst
      unfold deliverAll
      rw [hec', ok_bind]
      refine ⟨ec'', hec'', ?_, hst', hin'⟩
      rw [hlog', hlog, List.append_assoc]

end deliveries

/-! ### The server -/

/-- The dispatcher of the server over an engine, with the error reply of `OnTraffic`. A panic would
end the process; `dispatch_stepped` says that there is none.
Source: `internal/server/eventloop.go` `evHandler`
Kind: D -/
def serverHandler {W : Type} (engine : (o : EngineOp) → W → o.Answer × W) : Handler (Conn × W) where
  dispatch st args :=
    match (dispatch args).runIn (fun o w => .ok (engine o w)) st.1 st.2 with
    | .ok (close, c, w) => ((c, w), close)
    | .error _ => (st, true)
  writeError st msg := ({ st.1 with w := st.1.w.writeError msg }, st.2)

/-- The server goes on after every request but `QUIT`.
Source: `internal/server/dispatch.go` `dispatch`
Kind: L -/
theorem serverHandler_proceeds {W : Type} (engine : (o : EngineOp) → W → o.Answer × W)
    {requests : List (List Bytes)} : ∀ {st : Conn × W}, st.1.Ready →
      (∀ args ∈ requests, ¬Quits args) → (serverHandler engine).proceeds st requests = true := by
  induction requests with
  | nil => exact fun _ _ => rfl
  | cons args requests ih =>
      intro st hready hquit
      obtain ⟨⟨close, c, w⟩, hrun, hstep⟩ :=
        (dispatch_stepped hready args).runIn (fun o w => ⟨engine o w, rfl⟩) st.2
      have hclose : close = false :=
        Bool.eq_false_iff.mpr fun h => hquit args List.mem_cons_self (hstep.close.mp h)
      subst hclose
      refine Handler.proceeds_cons.mpr ⟨(c, w), ?_, ih (hstep.replied hready).1 fun args' h' =>
        hquit args' (List.mem_cons_of_mem args h')⟩
      simp only [serverHandler, hrun]

/-- **The event loop inverts the canonical encoding under any delivery.** Requests within the
default limits, none of them `QUIT`, are encoded one after another and delivered in any pieces to a
new connection of the server, over any engine. All calls of the handler return, exactly these
requests are dispatched, in order, there is no protocol error, and no byte is left unconsumed.
Source: `internal/server/eventloop.go` `OnTraffic`
Kind: P
Fidelity: exact -/
theorem deliveries_inverted {W : Type} (engine : (o : EngineOp) → W → o.Answer × W) (world : W)
    (srv : Srv) (id : UInt64) (requests : List (List Bytes))
    (hfits : ∀ args ∈ requests, Fits defaultLimits args)
    (hquit : ∀ args ∈ requests, ¬Quits args) (ds : List Bytes)
    (hds : ds.flatten = requests.flatMap encode) (fuel : ℕ) (hfuel : ds.flatten.length < fuel) :
    ∃ ec, deliverAll (serverHandler engine) fuel (onOpen (newConn srv id, world)) ds = .ok ec ∧
      ec.dispatched = requests ∧ ec.status = .waiting ∧ ec.inbound = [] := by
  have hready : (newConn srv id).Ready := ⟨rfl, rfl, Or.inl rfl⟩
  exact deliverAll_encoded ds (onOpen (newConn srv id, world)) hfits
    (serverHandler_proceeds engine hready hquit) hds rfl hfuel rfl

/-- An engine that stores nothing.
Source: none
Kind: D -/
def emptyEngine : (o : EngineOp) → Unit → o.Answer × Unit
  | .get _, w => (.ok none, w)
  | .set _ _ _, w => (.ok (), w)
  | .del _, w => (.ok false, w)
  | .ttl _, w => (.ok none, w)
  | .maxMemory, w => ((0 : Int64), w)
  | .setMaxMemory _, w => ((), w)
  | .evictionPolicy, w => (.noEviction, w)
  | .setEvictionPolicy _, w => ((), w)
  | .now, w => ((0 : ℤ), w)

/-- A request with a line end and a type byte in its payload and another one, cut inside that
payload and between the two bytes of a line end.
Source: `internal/server/eventloop_test.go` `TestParseCommand`
Kind: C -/
theorem deliveries_inverted_split :
    ∃ ec, deliverAll (serverHandler emptyEngine) 100
        (onOpen (newConn ⟨text "1", true⟩ 0, ()))
        [text "*2\r\n$4\r\necho\r\n$3\r\n\r", text "\n$\r\n*1\r", text "\n$4\r\nPING\r\n"] =
          .ok ec ∧
      ec.dispatched = [[text "echo", [13, 10, 36]], [text "PING"]] ∧ ec.status = .waiting ∧
        ec.inbound = [] := by
  refine deliveries_inverted emptyEngine () ⟨text "1", true⟩ 0
    [[text "echo", [13, 10, 36]], [text "PING"]] ?_ ?_ _ ?_ 100 ?_
  · intro args hargs
    simp only [List.mem_cons, List.not_mem_nil, or_false] at hargs
    rcases hargs with rfl | rfl
    · exact ⟨by decide, by decide⟩
    · exact ⟨by decide, by decide⟩
  · intro args hargs
    simp only [List.mem_cons, List.not_mem_nil, or_false] at hargs
    rcases hargs with rfl | rfl
    · rintro ⟨raw, hraw, -⟩
      cases hraw
    · rintro ⟨raw, hraw, hquit⟩
      obtain ⟨rfl, -⟩ := List.cons.inj hraw
      exact absurd hquit (by decide)
  · decide +kernel
  · decide

end CacheMoney.Server
