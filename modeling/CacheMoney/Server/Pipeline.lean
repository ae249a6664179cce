import CacheMoney.Server.Serving

/-!
# What a client of the goroutine backend sees

`serveConn` with the dispatcher of the server, over any engine: requests go in as a stream in any
pieces, and the output is one reply after another.

* `serveConn_replies`: on every stream and in all surroundings, the output is in step with the
  requests dispatched, and a malformed request adds one error reply that names its fault.
* `pipeline_answered`: requests that were encoded one after another are all dispatched and answered,
  up to the first `QUIT`.
-/

namespace CacheMoney.Server

open CacheMoney.Found CacheMoney.Resp

/-! ### Protocol errors -/

section faults

variable {α β : Type}

/-- A read whose protocol errors carry the message of their kind.
Source: `internal/resp/errors.go` `newProtocolError`
Kind: D -/
def Worded (m : ReadM α) : Prop :=
  ∀ b pe rest, m b = .error (.protocol pe) rest → ∃ kind, pe = newProtocolError kind

/-- Reads in sequence are worded if both are.
Source: `internal/resp/errors.go` `newProtocolError`
Kind: L -/
theorem Worded.bind {m : ReadM α} {f : α → ReadM β} (hm : Worded m) (hf : ∀ a, Worded (f a)) :
    Worded (m >>= f) := by
  intro b pe rest h
  simp only [Bind.bind, EStateM.bind] at h
  cases hres : m b with
  | ok a r =>
      rw [hres] at h
      exact hf a r pe rest h
  | error e r =>
      rw [hres] at h
      cases h
      exact hm b pe rest hres

/-- A read of nothing has no error to word.
Source: `internal/resp/errors.go` `newProtocolError`
Kind: L -/
theorem worded_pure (a : α) : Worded (pure a : ReadM α) := by
  intro b pe rest h
  cases h

/-- An error that is worded if it is a protocol error.
Source: `internal/resp/errors.go` `newProtocolError`
Kind: L -/
theorem worded_throw {e : ReadErr} (he : ∀ pe, e = .protocol pe → ∃ kind, pe = newProtocolError kind) :
    Worded (throw e : ReadM α) := by
  intro b pe rest h
  cases h
  exact he pe rfl

/-- The protocol errors of the reader are worded by their kind.
Source: `internal/resp/errors.go` `newProtocolError`
Kind: L -/
theorem worded_kind (kind : ErrKind) :
    Worded (throw (.protocol (newProtocolError kind)) : ReadM α) := by
  refine worded_throw fun pe h => ⟨kind, ?_⟩
  cases h
  rfl

/-- An error that is no protocol error.
Source: `internal/resp/errors.go` `newProtocolError`
Kind: L -/
theorem worded_end {e : ReadErr} (he : ∀ pe, e ≠ .protocol pe) : Worded (throw e : ReadM α) :=
  worded_throw fun pe h => absurd h (he pe)

/-- The errors of a line are worded.
Source: `internal/resp/reader.go` `trimCRLF`
Kind: L -/
theorem worded_trimCRLF (line : Bytes) : Worded (trimCRLF line) := by
  unfold trimCRLF
  split_ifs
  · exact worded_kind _
  · exact worded_kind _
  · exact worded_pure _

/-- The errors of a header line are worded.
Source: `internal/resp/reader.go` `readHeaderLine`
Kind: L -/
theorem worded_readHeaderLine (r : Reader) (atBoundary : Bool) :
    Worded (r.stream.readHeaderLine atBoundary) := by
  unfold ReaderOn.readHeaderLine
  apply Worded.bind
  · intro b pe rest h
    obtain ⟨slice, rest', hslice, -⟩ := readSlice_ok r b
    cases hslice.symm.trans h
  · intro s
    cases s with
    | line l => exact worded_trimCRLF l
    | bufferFull => exact worded_kind _
    | ended l e =>
        cases e with
        | fault code => exact worded_end (by simp)
        | eof =>
            simp only
            split_ifs
            · exact worded_end (by simp)
            · exact worded_end (by simp)

/-- The errors of a length field are worded.
Source: `internal/resp/reader.go` `ReadCommand`, `readBulkArg`
Kind: L -/
theorem worded_readLength (r : Reader) (atBoundary : Bool) (type : UInt8) (wrong : ErrKind)
    (limit : Int64) (tooLong : ErrKind) :
    Worded (r.stream.readLength atBoundary type wrong limit tooLong) := by
  unfold ReaderOn.readLength
  apply Worded.bind (worded_readHeaderLine r atBoundary)
  intro line
  cases parseInt line.tail with
  | none =>
      by_cases htype : line.head? ≠ some type
      · rw [if_pos htype]
        exact Worded.bind (worded_kind _) fun _ => worded_kind _
      · rw [if_neg htype]
        exact worded_kind _
  | some n =>
      have hlimit : Worded (if limit < n then throw (.protocol (newProtocolError tooLong))
          else pure n) := by
        split_ifs
        · exact worded_kind _
        · exact worded_pure _
      by_cases htype : line.head? ≠ some type
      · rw [if_pos htype]
        exact Worded.bind (worded_kind _) fun _ => hlimit
      · rw [if_neg htype]
        exact hlimit

/-- The errors of an argument are worded.
Source: `internal/resp/reader.go` `readBulkArg`
Kind: L -/
theorem worded_readBulkArg (r : Reader) : Worded r.stream.readBulkArg := by
  have hfull : ∀ n, Worded (EStateM.adaptExcept normalizeEOF (readFull r n)) := by
    intro n b pe rest h
    unfold EStateM.adaptExcept readFull at h
    by_cases hn : n ≤ b.length
    · simp only [if_pos hn] at h
      cases h
    · simp only [if_neg hn] at h
      cases hend : r.ending with
      | eof =>
          rw [hend] at h
          simp only at h
          split_ifs at h <;> cases h
      | fault code =>
          rw [hend] at h
          cases h
  apply Worded.bind (worded_readLength r _ _ _ _ _)
  intro n
  unfold ReaderOn.readPayload
  refine (hfull _).bind fun buf => (hfull _).bind fun ends => ?_
  by_cases hends : ends ≠ crlf
  · rw [if_pos hends]
    exact Worded.bind (worded_kind _) fun _ => worded_pure _
  · rw [if_neg hends]
    exact worded_pure _

/-- The errors of a request are worded.
Source: `internal/resp/reader.go` `ReadCommand`
Kind: L -/
theorem worded_readCommand (r : Reader) : Worded r.readCommand := by
  apply Worded.bind (worded_readLength r _ _ _ _ _)
  intro n
  induction n.toNatClampNeg with
  | zero => exact worded_pure _
  | succ n ih => exact (worded_readBulkArg r).bind fun a => ih.bind fun as => worded_pure _

/-- The reply to a protocol error is one line.
Source: `internal/resp/errors.go` `kindMessages`
Kind: L -/
theorem oneLine_protocolError (kind : ErrKind) :
    OneLine (text "ERR Protocol error: " ++ kind.message) := by
  cases kind <;> decide +kernel

end faults

/-! ### The dispatcher over a run of requests -/

section dispatcher

variable {W : Type} (engine : (o : EngineOp) → W → o.Answer × W)

/-- The handler of the server dispatches, and leaves a ready connection.
Source: `internal/server/dispatch.go` `dispatch`
Kind: L -/
theorem serverHandler_dispatch {st : Conn × W} (hready : st.1.Ready) (args : List Bytes) :
    ∃ c w close, (serverHandler engine).dispatch st args = ((c, w), close) ∧
      Stepped args st.1 close c := by
  obtain ⟨⟨close, c, w⟩, hrun, hstep⟩ :=
    (dispatch_stepped hready args).runIn (fun o w => ⟨engine o w, rfl⟩) st.2
  refine ⟨c, w, close, ?_, hstep⟩
  simp only [serverHandler, hrun]

/-- Requests one after another: the connection stays ready, its output is in step with them, and it
goes on until a `QUIT`.
Source: `internal/server/dispatch.go` `dispatch`
Kind: L -/
theorem serverHandler_replay (requests : List (List Bytes)) : ∀ {st : Conn × W}, st.1.Ready →
    ((serverHandler engine).replay st requests).1.Ready ∧
      (∃ seen out, ((serverHandler engine).replay st requests).1.w.out = st.1.w.out ++ out ∧
        InStep st.1.w.proto requests seen out) ∧
      ((serverHandler engine).proceeds st requests = true ↔ ∀ args ∈ requests, ¬Quits args) := by
  induction requests with
  | nil =>
      intro st hready
      refine ⟨hready, ⟨[], [], (List.append_nil _).symm, rfl⟩, fun _ => ?_, fun _ => rfl⟩
      exact fun args hargs => absurd hargs List.not_mem_nil
  | cons args requests ih =>
      intro st hready
      obtain ⟨c, w, close, hact, hstep⟩ := serverHandler_dispatch engine hready args
      obtain ⟨hc, reply, hreply, hreplied⟩ := hstep.replied hready
      obtain ⟨hready', ⟨seen, out, hout, hinstep⟩, hproceeds⟩ := @ih (c, w) hc
      have hreplay : (serverHandler engine).replay st (args :: requests) =
          (serverHandler engine).replay (c, w) requests := by
        rw [Handler.replay, List.foldl_cons, hact]
        rfl
      rw [hreplay]
      refine ⟨hready', ⟨⟨close, c.w.proto⟩ :: seen, reply ++ out, ?_, reply, out, rfl, hreplied,
        hinstep⟩, ?_⟩
      · rw [hout, hreply, List.append_assoc]
      · rw [Handler.proceeds_cons, List.forall_mem_cons, ← hproceeds]
        constructor
        · rintro ⟨st', hact', hgo⟩
          obtain ⟨rfl, hclose⟩ := Prod.mk.inj (hact.symm.trans hact')
          refine ⟨fun hquits => ?_, hgo⟩
          exact absurd ((hstep.close.mpr hquits).symm.trans hclose) (by decide)
        · rintro ⟨hquits, hgo⟩
          have hclose : close = false := Bool.eq_false_iff.mpr fun h => hquits (hstep.close.mp h)
          rw [hclose] at hact
          exact ⟨(c, w), hact, hgo⟩

end dispatcher

/-! ### Replies -/

/-- The last value is encoded last.
Source: none
Kind: L -/
theorem encodeAll_snoc (vs : List Value) (v : Value) :
    encodeAll (vs ++ [v]) = encodeAll vs ++ v.encode := by
  induction vs with
  | nil => exact List.append_nil _
  | cons v' vs ih => rw [List.cons_append, encodeAll, ih, encodeAll, List.append_assoc]

/-- A sound value after sound ones.
Source: none
Kind: L -/
theorem soundAll_snoc {vs : List Value} {v : Value} (h : SoundAll vs) (hv : v.Sound) :
    SoundAll (vs ++ [v]) := by
  induction vs with
  | nil => exact ⟨hv, trivial⟩
  | cons v' vs ih => exact ⟨h.1, ih h.2⟩

/-- The output of a connection that dispatched `requests`: one reply after another in step with
them, and after a protocol error one that names it.
Source: `internal/server/conn.go` `serveConn`
Kind: D -/
inductive Output (r : Reader) (requests : List (List Bytes)) (rest : Bytes) :
    Departure → Bytes → Prop where
  | plain {why : Departure} {seen : List Dispatched} {out : Bytes} (hwhy : why ≠ .protocolError)
      (hstep : InStep 2 requests seen out) : Output r requests rest why out
  | error {seen : List Dispatched} {out left : Bytes} {kind : ErrKind}
      (hstep : InStep 2 requests seen out)
      (hbad : r.readCommand rest = .error (.protocol (newProtocolError kind)) left) :
      Output r requests rest .protocolError
        (out ++ (Value.error (text "ERR Protocol error: " ++ kind.message)).encode)

/-- However such an output is read as sound values, there is one for each request that is not empty
and one more after a protocol error.
Source: none
Kind: L -/
theorem Output.count {r : Reader} {requests : List (List Bytes)} {rest out : Bytes}
    {why : Departure} (h : Output r requests rest why out) {vs : List Value} (hsound : SoundAll vs)
    (hvs : encodeAll vs = out) :
    vs.length = (requests.filter (· ≠ [])).length + if why = .protocolError then 1 else 0 := by
  cases h with
  | plain hwhy hstep =>
      obtain ⟨vs', hvs', hsound', hlen⟩ := hstep.values
      rw [encodeAll_injective hsound hsound' (hvs.trans hvs'), hlen, if_neg hwhy, Nat.add_zero]
  | @error seen out left kind hstep hbad =>
      obtain ⟨vs', rfl, hsound', hlen⟩ := hstep.values
      have hone : (Value.error (text "ERR Protocol error: " ++ kind.message)).Sound :=
        oneLine_protocolError kind
      rw [← encodeAll_snoc] at hvs
      rw [encodeAll_injective hsound (soundAll_snoc hsound' hone) hvs, List.length_append, hlen,
        if_pos rfl]
      rfl

/-- Unless a protocol error ends the connection, its output is in step with its requests.
Source: none
Kind: L -/
theorem Output.inStep {r : Reader} {requests : List (List Bytes)} {rest out : Bytes}
    {why : Departure} (h : Output r requests rest why out) (hne : why ≠ .protocolError) :
    ∃ seen, InStep 2 requests seen out := by
  cases h with
  | plain _ hstep => exact ⟨_, hstep⟩
  | error => exact absurd rfl hne

section runs

variable {W : Type} (engine : (o : EngineOp) → W → o.Answer × W) {env : Surroundings} {r : Reader}
  {st conn : Conn × W} {rest : Bytes} {requests : List (List Bytes)} {why : Departure} {n : ℕ}

/-- What a connection has written when it departs.
Source: `internal/server/conn.go` `serveConn`
Kind: L -/
theorem Departs.output (hready : st.1.Ready) (hnew : st.1.w.out = [] ∧ st.1.w.proto = 2)
    (hd : Departs (serverHandler engine) env r n st rest requests conn why) :
    Output r requests rest why conn.1.w.out := by
  obtain ⟨hready', ⟨seen, out, hout, hstep⟩, -⟩ := serverHandler_replay engine requests hready
  rw [hnew.1, List.nil_append] at hout
  rw [hnew.2] at hstep
  by_cases hwhy : why = .protocolError
  · subst hwhy
    cases hd with
    | @protocolError _ pe left hp hflush hon hbad =>
        obtain ⟨kind, rfl⟩ := worded_readCommand r _ _ _ hbad
        have hwritten : ((serverHandler engine).writeError
            ((serverHandler engine).replay st requests)
            (text "ERR Protocol error: " ++ (newProtocolError kind).msg)).1.w.out =
            out ++ (Value.error (text "ERR Protocol error: " ++ kind.message)).encode := by
          change (((serverHandler engine).replay st requests).1.w.writeError _).out = _
          rw [Writer.writeError_of_none hready'.err, Writer.append_out]
          exact congrArg (· ++ _) hout
        rw [hwritten]
        exact .error hstep hbad
  · rw [hd.conn_eq hwhy, hout]
    exact .plain hwhy hstep

/-- The connection is closed on request exactly by the first `QUIT`, which is then the last request.
Source: `internal/server/conn.go` `serveConn`; `internal/server/commands.go` `cmdQuit`
Kind: L -/
theorem Departs.quits (hready : st.1.Ready)
    (hd : Departs (serverHandler engine) env r n st rest requests conn why) :
    (∀ args ∈ requests.dropLast, ¬Quits args) ∧
      (why = .quit ↔ ∃ args ∈ requests, Quits args) := by
  have hproceeds := fun l => (serverHandler_replay engine l hready).2.2
  have hgo : (serverHandler engine).proceeds st requests = true → why ≠ .quit →
      (∀ args ∈ requests.dropLast, ¬Quits args) ∧
        (why = .quit ↔ ∃ args ∈ requests, Quits args) := by
    intro hp hwhy
    have hnone := (hproceeds requests).mp hp
    refine ⟨fun args hargs => hnone args (List.dropLast_subset requests hargs),
      fun h => absurd h hwhy, ?_⟩
    rintro ⟨args, hargs, hquits⟩
    exact absurd hquits (hnone args hargs)
  cases hd with
  | shutdown hp => exact hgo hp (by decide)
  | silent hp => exact hgo hp (by decide)
  | protocolError hp => exact hgo hp (by decide)
  | clientGone hp => exact hgo hp (by decide)
  | @quit before last hp hflush hstop =>
      rw [List.dropLast_concat]
      refine ⟨(hproceeds before).mp hp, fun _ => ⟨last, by simp, ?_⟩, fun _ => rfl⟩
      obtain ⟨hready', -, -⟩ := serverHandler_replay engine before hready
      obtain ⟨c, w, close, hact, hstep⟩ := serverHandler_dispatch engine hready' last
      rw [hact] at hstop
      exact hstep.close.mp hstop

end runs

/-- The goroutine backend on every stream, over every engine, whatever it sees of a shutdown and of
failed flushes. It ends. The requests dispatched are an initial part of those of the stream, and a
`QUIT` is the last of them. The output is one proper reply for each request that is not empty, in
order and in the dialect in force, and after a malformed request one more error reply, which
names the fault that the reader found.
Source: `internal/server/conn.go` `serveConn`; `internal/server/dispatch.go` `dispatch`
Kind: P
Fidelity: exact -/
theorem serveConn_replies {W : Type} (engine : (o : EngineOp) → W → o.Answer × W) (world : W)
    (srv : Srv) (id : UInt64) (env : Surroundings) (ending : StreamEnd) {pieces : List Bytes}
    (hsteady : Steady pieces) {fuel : ℕ} (hfuel : pieces.flatten.length < fuel) :
    ∃ c why rest, serveConn (serverHandler engine) env fuel (newBufio pieces ending [])
        ⟨(newConn srv id, world), []⟩ = .ok (c, why) ∧
      Frames (canonical (newReader ending [])) c.dispatched pieces.flatten rest ∧
      (∀ args ∈ c.dispatched.dropLast, ¬Quits args) ∧
      (why = .quit ↔ ∃ args ∈ c.dispatched, Quits args) ∧
      Output (newReader ending []) c.dispatched rest why c.conn.1.w.out ∧
      ∀ vs, SoundAll vs → encodeAll vs = c.conn.1.w.out → vs.length =
        (c.dispatched.filter (· ≠ [])).length + if why = .protocolError then 1 else 0 := by
  have hready : (newConn srv id).Ready := ⟨rfl, rfl, Or.inl rfl⟩
  obtain ⟨new, conn, why, rest, hrun, hframes, -, hdeparts⟩ :=
    serveConn_departs (serverHandler engine) env (bufSize_newReader ending) fuel
      ⟨(newConn srv id, world), []⟩ (buffers_newBufio hsteady ending) hfuel
  obtain ⟨hbefore, hquit⟩ := hdeparts.quits engine hready
  have hout := hdeparts.output engine hready ⟨rfl, rfl⟩
  exact ⟨_, why, rest, hrun, hframes, hbefore, hquit, hout, fun vs => hout.count⟩

/-- A request and the beginning of one that is malformed, while a shutdown begins.
Source: `internal/server/conn.go` `serveConn`
Kind: C -/
theorem serveConn_replies_malformed :
    ∃ c why rest, serveConn (serverHandler emptyEngine) ⟨fun n => n == 2, fun _ => false⟩ 30
        (newBufio [text "*1\r\n$4\r\nPI", text "NG\r\n+OK\r\n"] .eof [])
        ⟨(newConn ⟨text "1", true⟩ 0, ()), []⟩ = .ok (c, why) ∧
      Output (newReader .eof []) c.dispatched rest why c.conn.1.w.out := by
  have hsteady : Steady [text "*1\r\n$4\r\nPI", text "NG\r\n+OK\r\n"] :=
    steady_of_length_lt (by decide)
  obtain ⟨c, why, rest, hrun, -, -, -, hout, -⟩ := serveConn_replies emptyEngine () ⟨text "1", true⟩ 0
    ⟨fun n => n == 2, fun _ => false⟩ .eof hsteady (show _ < 30 by decide)
  exact ⟨c, why, rest, hrun, hout⟩

/-! ### Pipelines -/

/-- The requests found in encoded requests are the first of them.
Source: `internal/resp/reader.go` `ReadCommand`
Kind: L -/
theorem frames_encoded {r : Reader} (hbuf : maxHeaderLine ≤ r.bufSize) (found : List (List Bytes)) :
    ∀ {requests : List (List Bytes)} {rest : Bytes}, (∀ args ∈ requests, Fits r.limits args) →
      Frames (canonical r) found (requests.flatMap encode) rest →
      ∃ later, requests = found ++ later ∧ rest = later.flatMap encode := by
  have hr := r.reads_canonical hbuf
  induction found with
  | nil => exact fun {requests rest} _ hframes => ⟨requests, rfl, (show _ = rest from hframes).symm⟩
  | cons args found ih =>
      rintro requests rest hfits ⟨v, hframe, hmore⟩
      cases requests with
      | nil =>
          have hshort : frame r.headers [] = .short := hr.frame_short_iff.mpr
            (Or.inl ⟨List.not_mem_nil, lt_of_lt_of_le (by decide) hbuf⟩)
          exact absurd (hshort.symm.trans (hr.frame_done_iff.mpr hframe)) (by simp)
      | cons first requests =>
          have hfirst : Frame (canonical r) ((first :: requests).flatMap encode) first
              (requests.flatMap encode) :=
            frame_canonical_iff.mpr ⟨List.flatMap_cons, hfits first List.mem_cons_self⟩
          obtain ⟨rfl, rfl⟩ := Verdict.done.inj
            ((hr.frame_done_iff.mpr hframe).symm.trans (hr.frame_done_iff.mpr hfirst))
          obtain ⟨later, rfl, hrest⟩ :=
            ih (fun args' h' => hfits args' (List.mem_cons_of_mem args h')) hmore
          exact ⟨later, rfl, hrest⟩

/-- Requests within the default limits are encoded one after another and arrive in any pieces; then
the stream ends. Left in peace, the goroutine dispatches exactly these requests, up to the first
`QUIT`, and answers each of them.
Source: `internal/server/conn.go` `serveConn`
Kind: P
Fidelity: exact -/
theorem pipeline_answered {W : Type} (engine : (o : EngineOp) → W → o.Answer × W) (world : W)
    (srv : Srv) (id : UInt64) (ending : StreamEnd) (requests : List (List Bytes))
    (hfits : ∀ args ∈ requests, Fits defaultLimits args) {pieces : List Bytes}
    (hsteady : Steady pieces) (hpieces : pieces.flatten = requests.flatMap encode) {fuel : ℕ}
    (hfuel : pieces.flatten.length < fuel) :
    ∃ c why seen, serveConn (serverHandler engine) calm fuel (newBufio pieces ending [])
        ⟨(newConn srv id, world), []⟩ = .ok (c, why) ∧
      InStep 2 c.dispatched seen c.conn.1.w.out ∧
      ((c.dispatched = requests ∧ why = .silent ∧ ∀ args ∈ requests, ¬Quits args) ∨
        ∃ before last later, requests = before ++ last :: later ∧
          c.dispatched = before ++ [last] ∧ why = .quit ∧ (∀ args ∈ before, ¬Quits args) ∧
          Quits last) := by
  have hready : (newConn srv id).Ready := ⟨rfl, rfl, Or.inl rfl⟩
  have hbuf := bufSize_newReader ending
  have hr := (newReader ending []).reads_canonical hbuf
  obtain ⟨new, conn, why, rest, hrun, hframes, -, hdeparts⟩ :=
    serveConn_departs (serverHandler engine) calm hbuf fuel ⟨(newConn srv id, world), []⟩
      (buffers_newBufio hsteady ending) hfuel
  rw [hpieces] at hframes
  obtain ⟨later, hlater, hrest⟩ := frames_encoded hbuf new hfits hframes
  obtain ⟨hbefore, hquit⟩ := hdeparts.quits engine hready
  -- What is left is nothing or begins with a request.
  have hleft : frame (newReader ending []).headers rest = .short ∧ later = [] ∨
      ∃ args v, frame (newReader ending []).headers rest = .done args v := by
    cases later with
    | nil =>
        refine Or.inl ⟨?_, rfl⟩
        rw [hrest]
        exact hr.frame_short_iff.mpr
          (Or.inl ⟨List.not_mem_nil, lt_of_lt_of_le (by decide) hbuf⟩)
    | cons args later =>
        have hargs := hfits args (by rw [hlater]; simp)
        refine Or.inr ⟨args, later.flatMap encode, hr.frame_done_iff.mpr ?_⟩
        exact frame_canonical_iff.mpr ⟨by rw [hrest, List.flatMap_cons], hargs⟩
  have hne : why ≠ .protocolError := by
    rintro rfl
    cases hdeparts with
    | protocolError hp hflush hon hbad =>
        have hmalformed : frame (newReader ending []).headers rest = .malformed := by
          rw [← Reader.scan_readCommand, scan, hbad]
        rcases hleft with ⟨hshort, -⟩ | ⟨args, v, hdone⟩
        · exact absurd (hmalformed.symm.trans hshort) (by simp)
        · exact absurd (hmalformed.symm.trans hdone) (by simp)
  obtain ⟨seen, hstep⟩ := (hdeparts.output engine hready ⟨rfl, rfl⟩).inStep hne
  refine ⟨_, why, seen, hrun, hstep, ?_⟩
  cases hdeparts with
  | shutdown hp hflush hseen => exact absurd hseen (by simp [calm])
  | clientGone hp hflush hgone => exact absurd hgone (by simp [calm])
  | protocolError => exact absurd rfl hne
  | silent hp hflush hon hcut =>
      have hshort := hr.frame_short_iff.mpr hcut
      obtain rfl : later = [] := by
        rcases hleft with ⟨-, hnil⟩ | ⟨args, v, hdone⟩
        · exact hnil
        · exact absurd (hshort.symm.trans hdone) (by simp)
      rw [List.append_nil] at hlater
      subst hlater
      exact Or.inl ⟨rfl, rfl, (serverHandler_replay engine requests hready).2.2.mp hp⟩
  | @quit before last hp hflush hstop =>
      rw [List.dropLast_concat] at hbefore
      obtain ⟨args, hargs, hquits⟩ := hquit.mp rfl
      rcases List.mem_append.mp hargs with hargs | hargs
      · exact absurd hquits (hbefore args hargs)
      · obtain rfl := List.mem_singleton.mp hargs
        refine Or.inr ⟨before, args, later, ?_, rfl, rfl, hbefore, hquits⟩
        rw [hlater, List.append_assoc, List.singleton_append]

/-- A request after `QUIT` is dropped.
Source: `internal/server/conn.go` `serveConn`
Kind: C -/
theorem pipeline_answered_quit :
    ∃ c why seen, serveConn (serverHandler emptyEngine) calm 60
        (newBufio [text "*1\r\n$4\r\nPI", text "NG\r\n*1\r\n$4\r\nquit\r\n*1\r\n$4\r\nPING\r\n"]
          .eof [])
        ⟨(newConn ⟨text "1", true⟩ 0, ()), []⟩ = .ok (c, why) ∧
      InStep 2 c.dispatched seen c.conn.1.w.out := by
  have hsteady : Steady [text "*1\r\n$4\r\nPI",
      text "NG\r\n*1\r\n$4\r\nquit\r\n*1\r\n$4\r\nPING\r\n"] := steady_of_length_lt (by decide)
  have hfits : ∀ args ∈ [[text "PING"], [text "quit"], [text "PING"]],
      Fits defaultLimits args := by
    intro args hargs
    simp only [List.mem_cons, List.not_mem_nil, or_false] at hargs
    rcases hargs with rfl | rfl | rfl
    · exact ⟨by decide, by decide⟩
    · exact ⟨by decide, by decide⟩
    · exact ⟨by decide, by decide⟩
  obtain ⟨c, why, seen, hrun, hstep, -⟩ := pipeline_answered emptyEngine () ⟨text "1", true⟩ 0 .eof
    [[text "PING"], [text "quit"], [text "PING"]] hfits hsteady (by decide +kernel)
    (show _ < 60 by decide)
  exact ⟨c, why, seen, hrun, hstep⟩

end CacheMoney.Server
