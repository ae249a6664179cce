import CacheMoney.Resp.Buffered
import CacheMoney.Server.Agreement
import CacheMoney.Server.Inversion

/-!
# The goroutine of a connection

`serveConn` reads a request, dispatches it and flushes, until the stream ends or is malformed, the
dispatcher asks to close, a flush fails or the server shuts down.

* `Surroundings`: what the loop meets beside the bytes, which it does not control.
* `serveConn_serves`: every run ends, and has dispatched an initial part of the requests of the
  stream, each once and in order; `Departs` says why it ended there and in which state.
* `backends_agree_iff`: the goroutine and the event loop dispatch the same requests of a stream, for
  all ways in which it may arrive, exactly when no request of it is disputed between the decoders.
-/

namespace CacheMoney.Server

open CacheMoney.Found CacheMoney.Resp

variable {σ : Type}

/-! ### The loop -/

/-- Source: `internal/server/conn.go` `readOutcome`
Kind: D -/
inductive ReadOutcome where
  | dispatch
  | closeSilent
  | protocolError
  deriving DecidableEq, Repr

/-- Source: `internal/server/conn.go` `classify`
Kind: D -/
def classify : Option ReadErr → ReadOutcome × Option ProtocolError
  | none => (.dispatch, none)
  | some .eof => (.closeSilent, none)
  | some .unexpectedEOF => (.closeSilent, none)
  | some (.protocol pe) => (.protocolError, some pe)
  | some (.transport _) => (.closeSilent, none)

/-- What the round after `n` requests reads from `inShutdown`, and whether its flush fails.
Source: `internal/server/conn.go` `serveConn`
Kind: D -/
structure Surroundings where
  inShutdown : ℕ → Bool
  flushFails : ℕ → Bool

/-- No shutdown, and no flush fails.
Source: none
Kind: D -/
def calm : Surroundings := ⟨fun _ => false, fun _ => false⟩

/-- Which of its returns the loop took.
Source: `internal/server/conn.go` `serveConn`
Kind: D -/
inductive Departure where
  | shutdown
  | silent
  | protocolError
  | quit
  | clientGone
  deriving DecidableEq, Repr

/-- The state of the connection, and the requests dispatched so far.
Source: `internal/server/conn.go` `conn`
Kind: D -/
structure Session (σ : Type) where
  conn : σ
  dispatched : List (List Bytes)

/-- An expired read deadline is an end of the source with a transport error. The flag `active`,
which only `Shutdown` reads, is part of the model of the server's life.
Source: `internal/server/conn.go` `serveConn`
Kind: D -/
def serveConn (h : Handler σ) (env : Surroundings) :
    ℕ → Bufio → Session σ → Outcome (Session σ × Departure)
  | 0, _, _ => throw .outOfFuel
  | fuel + 1, b, c =>
      if env.inShutdown c.dispatched.length = true then return (c, .shutdown)
      else
        match outcomeOf Bufio.readCommand b with
        | (.error err, _) =>
            match classify (some err) with
            | (.protocolError, some pe) =>
                let conn := h.writeError c.conn (text "ERR Protocol error: " ++ pe.msg)
                return ({ c with conn := conn }, .protocolError)
            | _ => return (c, .silent)
        | (.ok args, b) =>
            let (conn, stop) := h.dispatch c.conn args
            let c' := { conn := conn, dispatched := c.dispatched ++ [args] : Session σ }
            if stop = true then return (c', .quit)
            else if env.flushFails c.dispatched.length = true then return (c', .clientGone)
            else serveConn h env fuel b c'

/-! ### Why it ends -/

/-- The state after some requests.
Source: `internal/server/dispatch.go` `dispatch`
Kind: D -/
def Handler.replay (h : Handler σ) (st : σ) (requests : List (List Bytes)) : σ :=
  requests.foldl (fun st args => (h.dispatch st args).1) st

/-- The loop leaves `rest` unread after the requests `new`, of which the first one is the `n`th of
the connection, in a state and for a reason.
Source: `internal/server/conn.go` `serveConn`
Kind: D -/
inductive Departs (h : Handler σ) (env : Surroundings) (r : Reader) (n : ℕ) (st : σ)
    (rest : Bytes) : List (List Bytes) → σ → Departure → Prop where
  /-- Shutdown was seen before the next request was read. -/
  | shutdown {new : List (List Bytes)} (hp : h.proceeds st new = true)
      (hflush : ∀ i < new.length, env.flushFails (n + i) = false)
      (hseen : env.inShutdown (n + new.length) = true) :
      Departs h env r n st rest new (h.replay st new) .shutdown
  /-- The stream ended between two requests or in one. -/
  | silent {new : List (List Bytes)} (hp : h.proceeds st new = true)
      (hflush : ∀ i < new.length, env.flushFails (n + i) = false)
      (hon : env.inShutdown (n + new.length) = false)
      (hcut : CutFrame (canonical r) rest) :
      Departs h env r n st rest new (h.replay st new) .silent
  /-- What follows is not a request. The reply names the error. -/
  | protocolError {new : List (List Bytes)} {pe : ProtocolError} {left : Bytes}
      (hp : h.proceeds st new = true)
      (hflush : ∀ i < new.length, env.flushFails (n + i) = false)
      (hon : env.inShutdown (n + new.length) = false)
      (hbad : r.readCommand rest = .error (.protocol pe) left) :
      Departs h env r n st rest new
        (h.writeError (h.replay st new) (text "ERR Protocol error: " ++ pe.msg)) .protocolError
  /-- The dispatcher asked to close at the last request. -/
  | quit {before : List (List Bytes)} {last : List Bytes} (hp : h.proceeds st before = true)
      (hflush : ∀ i < before.length, env.flushFails (n + i) = false)
      (hstop : (h.dispatch (h.replay st before) last).2 = true) :
      Departs h env r n st rest (before ++ [last]) (h.replay st (before ++ [last])) .quit
  /-- The reply to the last request could not be sent. -/
  | clientGone {before : List (List Bytes)} {last : List Bytes}
      (hp : h.proceeds st (before ++ [last]) = true)
      (hflush : ∀ i < before.length, env.flushFails (n + i) = false)
      (hgone : env.flushFails (n + before.length) = true) :
      Departs h env r n st rest (before ++ [last]) (h.replay st (before ++ [last])) .clientGone

section serves

variable {h : Handler σ} {env : Surroundings} {r : Reader}

/-- Flushes that succeed, with one more before them.
Source: `internal/server/conn.go` `serveConn`
Kind: L -/
theorem flushed_cons {n : ℕ} {args : List Bytes} {new : List (List Bytes)}
    (hnow : env.flushFails n = false)
    (hflush : ∀ i < new.length, env.flushFails (n + 1 + i) = false) :
    ∀ i < (args :: new).length, env.flushFails (n + i) = false := by
  intro i hi
  cases i with
  | zero => exact hnow
  | succ i =>
      rw [show n + (i + 1) = n + 1 + i by omega]
      exact hflush i (Nat.lt_of_succ_lt_succ hi)

/-- A round that goes on.
Source: `internal/server/conn.go` `serveConn`
Kind: L -/
theorem Departs.cons {n : ℕ} {st st' conn : σ} {rest : Bytes} {args : List Bytes}
    {new : List (List Bytes)} {why : Departure} (hact : h.dispatch st args = (st', false))
    (hnow : env.flushFails n = false) (hd : Departs h env r (n + 1) st' rest new conn why) :
    Departs h env r n st rest (args :: new) conn why := by
  have hreplay : ∀ l, h.replay st' l = h.replay st (args :: l) := by
    intro l
    rw [Handler.replay, Handler.replay, List.foldl_cons, hact]
  have hround : ∀ k, n + 1 + k = n + (k + 1) := by
    intro k
    omega
  cases hd with
  | shutdown hp hflush hseen =>
      rw [hreplay]
      rw [hround] at hseen
      exact .shutdown (Handler.proceeds_cons.mpr ⟨_, hact, hp⟩) (flushed_cons hnow hflush) hseen
  | silent hp hflush hon hcut =>
      rw [hreplay]
      rw [hround] at hon
      exact .silent (Handler.proceeds_cons.mpr ⟨_, hact, hp⟩) (flushed_cons hnow hflush) hon hcut
  | protocolError hp hflush hon hbad =>
      rw [hreplay]
      rw [hround] at hon
      exact .protocolError (Handler.proceeds_cons.mpr ⟨_, hact, hp⟩) (flushed_cons hnow hflush)
        hon hbad
  | @quit before last hp hflush hstop =>
      rw [hreplay, ← List.cons_append]
      rw [hreplay] at hstop
      exact .quit (Handler.proceeds_cons.mpr ⟨_, hact, hp⟩) (flushed_cons hnow hflush) hstop
  | @clientGone before last hp hflush hgone =>
      rw [hreplay, ← List.cons_append]
      rw [hround] at hgone
      exact .clientGone (Handler.proceeds_cons.mpr ⟨_, hact, hp⟩) (flushed_cons hnow hflush) hgone

/-- An error that is no protocol error is a cut.
Source: `internal/resp/reader.go` `ReadCommand`
Kind: L -/
theorem cutFrame_of_error (hbuf : maxHeaderLine ≤ r.bufSize) {u left : Bytes} {err : ReadErr}
    (hread : r.readCommand u = .error err left) (hproto : ∀ pe, err ≠ .protocol pe) :
    CutFrame (canonical r) u := by
  rw [← (r.reads_canonical hbuf).frame_short_iff, ← r.scan_readCommand, scan, hread]
  cases err with
  | protocol pe => exact absurd rfl (hproto pe)
  | eof => rfl
  | unexpectedEOF => rfl
  | transport code => rfl

variable (h env) in
/-- The loop from any round on.
Source: `internal/server/conn.go` `serveConn`
Kind: L -/
theorem serveConn_departs (hbuf : maxHeaderLine ≤ r.bufSize) (fuel : ℕ) :
    ∀ {b : Bufio} {u : Bytes} (c : Session σ), Buffers r b u → u.length < fuel →
      ∃ new conn why rest,
        serveConn h env fuel b c = .ok (⟨conn, c.dispatched ++ new⟩, why) ∧
        Frames (canonical r) new u rest ∧
        (∀ i < new.length, env.inShutdown (c.dispatched.length + i) = false) ∧
        Departs h env r c.dispatched.length c.conn rest new conn why := by
  induction fuel with
  | zero =>
      intro b u c _ hfuel
      exact absurd hfuel (Nat.not_lt_zero _)
  | succ fuel ih =>
      intro b u c hb hfuel
      unfold serveConn
      by_cases hseen : env.inShutdown c.dispatched.length = true
      · rw [if_pos hseen]
        refine ⟨[], c.conn, .shutdown, u, ?_, rfl, fun i hi => absurd hi (Nat.not_lt_zero i), ?_⟩
        · rw [List.append_nil]
          rfl
        · exact .shutdown rfl (fun i hi => absurd hi (Nat.not_lt_zero i)) hseen
      rw [if_neg hseen]
      have hon : env.inShutdown c.dispatched.length = false := Bool.eq_false_iff.mpr hseen
      have hread := readCommand_refines b u hb
      unfold outcomeOf
      match hx : Bufio.readCommand b, hy : r.readCommand u, hread with
      | .error err b', .error _ left, ⟨rfl, _⟩ =>
          have hnone : ∀ i < ([] : List (List Bytes)).length,
              env.flushFails (c.dispatched.length + i) = false :=
            fun i hi => absurd hi (Nat.not_lt_zero i)
          cases err with
          | protocol pe =>
              refine ⟨[], _, .protocolError, u, by rw [List.append_nil]; rfl, rfl,
                fun i hi => absurd hi (Nat.not_lt_zero i), ?_⟩
              exact .protocolError rfl hnone hon hy
          | eof | unexpectedEOF | transport code =>
              refine ⟨[], c.conn, .silent, u, by rw [List.append_nil]; rfl, rfl,
                fun i hi => absurd hi (Nat.not_lt_zero i), ?_⟩
              exact .silent rfl hnone hon (cutFrame_of_error hbuf hy (by simp))
      | .ok args b', .ok _ v, ⟨rfl, hb'⟩ =>
          have hframe := (r.readCommand_eq_ok_iff hbuf).mp hy
          have hfirst : Frames (canonical r) [args] u v := ⟨v, hframe, rfl⟩
          obtain ⟨st', stop, hact⟩ : ∃ st' stop, h.dispatch c.conn args = (st', stop) :=
            ⟨_, _, rfl⟩
          simp only [hact]
          have hone : ∀ i < [args].length,
              env.inShutdown (c.dispatched.length + i) = false := by
            intro i hi
            obtain rfl : i = 0 := Nat.lt_one_iff.mp hi
            exact hon
          have hreplay : st' = h.replay c.conn ([] ++ [args]) := by
            rw [Handler.replay, List.nil_append, List.foldl_cons, hact]
            rfl
          by_cases hstop : stop = true
          · rw [if_pos hstop]
            refine ⟨[] ++ [args], st', .quit, v, rfl, hfirst, hone, ?_⟩
            rw [hreplay]
            refine .quit rfl (fun i hi => absurd hi (Nat.not_lt_zero i)) ?_
            rw [← hstop]
            exact congrArg Prod.snd hact
          rw [if_neg hstop]
          rw [Bool.eq_false_iff.mpr hstop] at hact
          by_cases hgone : env.flushFails c.dispatched.length = true
          · rw [if_pos hgone]
            refine ⟨[] ++ [args], st', .clientGone, v, rfl, hfirst, hone, ?_⟩
            rw [hreplay]
            exact .clientGone (Handler.proceeds_cons.mpr ⟨_, hact, rfl⟩)
              (fun i hi => absurd hi (Nat.not_lt_zero i)) hgone
          rw [if_neg hgone]
          -- A request takes at least one byte, so the fuel left is enough.
          have hr := r.reads_canonical hbuf
          obtain ⟨k, hk, hkv, -⟩ := hr.frame_local _ _ _ (hr.frame_done_iff.mpr hframe)
          have hklen := congrArg List.length hkv
          have hkpos := List.length_pos_of_ne_nil hk
          rw [List.length_append] at hklen
          obtain ⟨new, conn, why, rest, hrun, hframes, hup, hdeparts⟩ :=
            ih ⟨st', c.dispatched ++ [args]⟩ hb' (by omega)
          rw [List.length_append] at hup hdeparts
          refine ⟨args :: new, conn, why, rest, ?_, ⟨v, hframe, hframes⟩, ?_, ?_⟩
          · rw [hrun, List.append_assoc]
            rfl
          · intro i hi
            cases i with
            | zero => exact hon
            | succ i =>
                rw [show c.dispatched.length + (i + 1) = c.dispatched.length + 1 + i by omega]
                exact hup i (Nat.lt_of_succ_lt_succ hi)
          · exact hdeparts.cons hact (Bool.eq_false_iff.mpr hgone)

end serves

/-- The default buffer holds every header line that is accepted.
Source: `internal/resp/limits.go` `defaultBufferSize`
Kind: L -/
theorem bufSize_newReader (ending : StreamEnd) :
    maxHeaderLine ≤ (newReader ending []).bufSize :=
  show maxHeaderLine ≤ stdReader.bufSize by decide

/-- A new buffer holds the stream that its pieces make up.
Source: `internal/resp/reader.go` `NewReader`
Kind: L -/
theorem buffers_newBufio {pieces : List Bytes} (hsteady : Steady pieces) (ending : StreamEnd) :
    Buffers (newReader ending []) (newBufio pieces ending []) pieces.flatten :=
  ⟨rfl, rfl, rfl, rfl, Nat.zero_le _, hsteady, rfl⟩

/-- A connection's goroutine ends on every stream, in whatever pieces it arrives and however it ends.
Whatever it sees of a shutdown and of failed flushes, it has dispatched an initial part of the
requests of the stream, each once and in order, and saw no shutdown before any of them. It left for
a reason that holds: a shutdown, an end of the stream inside a request or between two, a request that
is malformed, whose error it replied, a dispatcher that asked to close, or a failed flush.
Source: `internal/server/conn.go` `serveConn`, `classify`
Kind: P
Fidelity: exact -/
theorem serveConn_serves (h : Handler σ) (env : Surroundings) (st : σ) (ending : StreamEnd)
    {pieces : List Bytes} (hsteady : Steady pieces) {fuel : ℕ}
    (hfuel : pieces.flatten.length < fuel) :
    ∃ c why rest, serveConn h env fuel (newBufio pieces ending []) ⟨st, []⟩ = .ok (c, why) ∧
      Frames (canonical (newReader ending [])) c.dispatched pieces.flatten rest ∧
      (∀ i < c.dispatched.length, env.inShutdown i = false) ∧
      Departs h env (newReader ending []) 0 st rest c.dispatched c.conn why := by
  obtain ⟨new, conn, why, rest, hrun, hframes, hup, hdeparts⟩ :=
    serveConn_departs h env (bufSize_newReader ending) fuel ⟨st, []⟩ (buffers_newBufio hsteady ending)
      hfuel
  refine ⟨_, why, rest, hrun, hframes, ?_, hdeparts⟩
  intro i hi
  have := hup i hi
  rwa [show ([] : List (List Bytes)).length + i = i from Nat.zero_add i] at this

/-- A request in three pieces, one of them empty, and the beginning of another.
Source: `internal/resp/reader_test.go` `TestPipelineTrailingPartialResumes`
Kind: C -/
theorem serveConn_serves_ping :
    ∃ c why rest, serveConn ⟨fun st _ => (st, false), fun st _ => st⟩ calm 20
        (newBufio [text "*1\r\n$4\r", [], text "\nPING\r\n*"] .eof []) ⟨(), []⟩ = .ok (c, why) ∧
      Frames (canonical (newReader .eof [])) c.dispatched
        [text "*1\r\n$4\r", [], text "\nPING\r\n*"].flatten rest := by
  have hsteady : Steady [text "*1\r\n$4\r", [], text "\nPING\r\n*"] :=
    steady_of_length_lt (by decide)
  obtain ⟨c, why, rest, hrun, hframes, -, -⟩ :=
    serveConn_serves ⟨fun st _ => (st, false), fun st _ => st⟩ calm () .eof hsteady
      (show _ < 20 by decide)
  exact ⟨c, why, rest, hrun, hframes⟩

/-! ### The two backends -/

/-- The end of the event loop's connection that corresponds to a return of the goroutine.
Source: `internal/server/conn.go` `serveConn`; `internal/server/eventloop.go` `OnTraffic`
Kind: D -/
def Departure.ending : Departure → Ending
  | .protocolError => .faulted
  | .quit => .stopped
  | _ => .waiting

/-- How a stream ends does not matter for its headers.
Source: `internal/resp/reader.go` `NewReader`
Kind: L -/
theorem headers_newReader (ending : StreamEnd) : (newReader ending []).headers = stdReader.headers :=
  ((newReader ending []).reads_canonical (bufSize_newReader ending)).unique reads_strict

section backends

variable {h : Handler σ}

/-- Requests that are dispatched first, and then the drain of the rest.
Source: `internal/server/conn.go` `serveConn`; `internal/server/eventloop.go` `OnTraffic`
Kind: L -/
theorem drains_of_frames {lx : Lexicon} {hd : Marker → Scanner ℕ} (hr : Reads hd lx)
    {rest : Bytes} {st₁ : σ} {b₁ : Bytes} {log : List (List Bytes)} {e : Ending}
    (requests : List (List Bytes)) : ∀ {st : σ} {b : Bytes}, Frames lx requests b rest →
      h.proceeds st requests = true →
      Drains (frame hd) h.dispatch (h.replay st requests) rest log st₁ b₁ e →
      Drains (frame hd) h.dispatch st b (requests ++ log) st₁ b₁ e := by
  induction requests with
  | nil =>
      intro st b hframes _ hdrains
      rw [show b = rest from hframes]
      exact hdrains
  | cons args more ih =>
      intro st b hframes hproceeds hdrains
      obtain ⟨v, hframe, hmore⟩ := hframes
      obtain ⟨st', hact, hproceeds'⟩ := Handler.proceeds_cons.mp hproceeds
      rw [Handler.replay, List.foldl_cons, hact] at hdrains
      exact .go (hr.frame_done_iff.mpr hframe) hact (ih hmore hproceeds' hdrains)

/-- The last of several requests.
Source: `internal/server/conn.go` `serveConn`; `internal/server/eventloop.go` `OnTraffic`
Kind: L -/
theorem frames_snoc {lx : Lexicon} (before : List (List Bytes)) {last : List Bytes} {rest : Bytes} :
    ∀ {b : Bytes}, Frames lx (before ++ [last]) b rest →
      ∃ v, Frames lx before b v ∧ Frame lx v last rest := by
  induction before with
  | nil =>
      rintro b ⟨v, hframe, hv⟩
      rw [show v = rest from hv] at hframe
      exact ⟨b, rfl, hframe⟩
  | cons args more ih =>
      rintro b ⟨v, hframe, hmore⟩
      obtain ⟨w, hbefore, hlast⟩ := ih hmore
      exact ⟨w, ⟨v, hframe, hbefore⟩, hlast⟩

/-- Left in peace, the goroutine is the loop over the whole stream.
Source: `internal/server/conn.go` `serveConn`
Kind: L -/
theorem Departs.drains {r : Reader} (hbuf : maxHeaderLine ≤ r.bufSize) {st conn : σ}
    {stream rest : Bytes} {new : List (List Bytes)} {why : Departure}
    (hd : Departs h calm r 0 st rest new conn why)
    (hframes : Frames (canonical r) new stream rest) :
    ∃ st' b', Drains (frame r.headers) h.dispatch st stream new st' b' why.ending := by
  have hr := r.reads_canonical hbuf
  cases hd with
  | shutdown hp hflush hseen => exact absurd hseen (by simp [calm])
  | clientGone hp hflush hgone => exact absurd hgone (by simp [calm])
  | silent hp hflush hon hcut =>
      have hend := drains_of_frames hr new hframes hp (.wait (hr.frame_short_iff.mpr hcut))
      rw [List.append_nil] at hend
      exact ⟨_, _, hend⟩
  | protocolError hp hflush hon hbad =>
      have hmalformed : frame r.headers rest = .malformed := by
        rw [← r.scan_readCommand, scan, hbad]
      have hend := drains_of_frames hr new hframes hp (.fault hmalformed)
      rw [List.append_nil] at hend
      exact ⟨_, _, hend⟩
  | @quit before last hp hflush hstop =>
      obtain ⟨v, hbefore, hlast⟩ := frames_snoc before hframes
      have hact : h.dispatch (h.replay st before) last =
          ((h.dispatch (h.replay st before) last).1, true) := Prod.ext rfl hstop
      exact ⟨_, _, drains_of_frames hr before hbefore hp
        (.stop (hr.frame_done_iff.mpr hlast) hact)⟩

/-- Unless a protocol error is replied to, a connection departs as its requests left it.
Source: `internal/server/conn.go` `serveConn`
Kind: L -/
theorem Departs.conn_eq {env : Surroundings} {r : Reader} {n : ℕ} {st conn : σ} {rest : Bytes}
    {new : List (List Bytes)} {why : Departure} (hd : Departs h env r n st rest new conn why)
    (hwhy : why ≠ .protocolError) : conn = h.replay st new := by
  cases hd with
  | protocolError => exact absurd rfl hwhy
  | _ => rfl

/-- A connection of the event loop that was not closed by a protocol error is in the state that its
requests lead to.
Source: `internal/server/eventloop.go` `OnTraffic`
Kind: D -/
def EvConn.Settled (h : Handler σ) (st : σ) (ec : EvConn σ) : Prop :=
  ec.status ≠ .faulted → ec.conn = h.replay st ec.dispatched

/-- Unless it faults, the loop leaves the connection in the state that its requests lead to.
Source: `internal/server/eventloop.go` `OnTraffic`
Kind: L -/
theorem trafficLoop_settled (data : Bytes) (st : σ) (fuel : ℕ) :
    ∀ {consumed n : ℕ} {ec ec' : EvConn σ}, consumed ≤ data.length → ec.status = .waiting →
      EvConn.Settled h st ec → trafficLoop h data fuel consumed ec = .ok (n, ec') →
      EvConn.Settled h st ec' := by
  induction fuel with
  | zero =>
      intro consumed n ec ec' _ _ _ hrun
      exact absurd hrun (by simp [trafficLoop])
  | succ fuel ih =>
      intro consumed n ec ec' hle hstatus hsettled hrun
      have hconn := hsettled (by rw [hstatus]; decide)
      obtain ⟨⟨parsed, kept⟩, hx, hprogress⟩ :=
        parseCommand_progress (data.drop consumed) ec.scratch
      rw [trafficLoop_succ h hle, hx] at hrun
      cases parsed with
      | fault e =>
          obtain ⟨-, rfl⟩ := Prod.mk.inj (Except.ok.inj hrun)
          exact fun hne => absurd rfl hne
      | need =>
          obtain ⟨-, rfl⟩ := Prod.mk.inj (Except.ok.inj hrun)
          exact fun _ => hconn
      | command spans k =>
          obtain ⟨-, hk, -⟩ := hprogress spans k rfl
          rw [List.length_drop] at hk
          have hnext : (h.dispatch ec.conn (spans.map (Span.of (data.drop consumed)))).1 =
              h.replay st (ec.dispatched ++ [spans.map (Span.of (data.drop consumed))]) := by
            rw [hconn, Handler.replay, Handler.replay, List.foldl_append]
            rfl
          simp only [Except.bind] at hrun
          split_ifs at hrun with hstop
          · obtain ⟨-, rfl⟩ := Prod.mk.inj (Except.ok.inj hrun)
            exact fun _ => hnext
          · exact ih (by omega) (by exact hstatus) (fun _ => by exact hnext) hrun

/-- So does every sequence of deliveries.
Source: `internal/server/eventloop.go` `OnTraffic`
Kind: L -/
theorem deliverAll_settled (st : σ) (fuel : ℕ) (ds : List Bytes) : ∀ {ec ec' : EvConn σ},
    EvConn.Settled h st ec → deliverAll h fuel ec ds = .ok ec' → EvConn.Settled h st ec' := by
  induction ds with
  | nil =>
      intro ec ec' hsettled hrun
      obtain rfl := Except.ok.inj hrun
      exact hsettled
  | cons d ds ih =>
      intro ec ec' hsettled hrun
      unfold deliverAll at hrun
      obtain ⟨ec₁, hone, hrest⟩ := bind_eq_ok_iff.mp hrun
      refine ih ?_ hrest
      unfold deliver at hone
      by_cases hclosed : ec.status ≠ .waiting
      · rw [if_pos hclosed] at hone
        obtain rfl := Except.ok.inj hone
        exact hsettled
      · rw [if_neg hclosed] at hone
        unfold onTraffic at hone
        obtain ⟨⟨consumed, ec₂⟩, hloop, hec₁⟩ := bind_eq_ok_iff.mp hone
        obtain rfl := Except.ok.inj hec₁
        have hopen : EvConn.Settled h st { ec with inbound := ec.inbound ++ d } := hsettled
        have hloop' : EvConn.Settled h st ec₂ :=
          trafficLoop_settled _ st fuel (Nat.zero_le _) (by exact not_not.mp hclosed) hopen hloop
        exact hloop'

end backends

/-! ### Agreement of the decoders carries over to cuts -/

/-- A header has a line end.
Source: none
Kind: L -/
theorem crlf_header (p : Marker) (ds v : Bytes) : crlf <:+: header p ds v :=
  ⟨p.byte :: ds, v, by simp [header]⟩

/-- A canonical and a loose reading of one header agree.
Source: none
Kind: L -/
theorem header_unique {p : Marker} {ds ds' v v' : Bytes} {n n' : ℕ}
    (hds : (canonical stdReader).number p ds n) (hds' : loose.number p ds' n')
    (heq : header p ds v = header p ds' v') : n = n' ∧ v = v' := by
  have h₁ := (reads_loose.done_iff p _ n v).mpr ⟨ds, strict_le_loose p ds n hds, rfl⟩
  have h₂ := (reads_loose.done_iff p _ n' v').mpr ⟨ds', hds', rfl⟩
  rw [heq] at h₁
  exact Verdict.done.inj (h₁.symm.trans h₂)

/-- Canonical numbers are within the cap.
Source: `internal/server/eventloop.go` `evMaxHeaderLine`
Kind: L -/
theorem capped_of_canonical {p : Marker} {ds : Bytes} {n : ℕ}
    (h : (canonical stdReader).number p ds n) : capped.number p ds n := by
  obtain ⟨rfl, hn⟩ := h
  apply capped_numeral
  cases p <;> exact hn

/-- Arguments without a fault for both readers have none under the cap.
Source: `internal/server/eventloop.go` `evMaxHeaderLine`
Kind: L -/
theorem faultlessItems_capped {m : ℕ} : ∀ {b : Bytes},
    FaultlessItems (canonical stdReader) m b → FaultlessItems loose m b →
    FaultlessItems capped m b := by
  induction m with
  | zero =>
      intro b _ _
      trivial
  | succ m ih =>
      intro b hc hl
      rcases hc with (hp | ⟨ds, n, v, hds, rfl, hshort⟩) | ⟨ds, a, v, hds, rfl, hv⟩
      · -- An unfinished header has no line feed, so the other decoder has not read it either.
        rcases hl with (hp' | ⟨ds, n, v, _, rfl, _⟩) | ⟨ds, a, v, _, rfl, _⟩
        · exact Or.inl (Or.inl hp')
        · exact absurd (lf_mem_header _ _ _) hp.1
        · exact absurd (lf_mem_header _ _ _) hp.1
      · exact Or.inl (Or.inr ⟨ds, n, v, capped_of_canonical hds, rfl, hshort⟩)
      · refine Or.inr ⟨ds, a, v, capped_of_canonical hds, rfl, ih hv ?_⟩
        rcases hl with (hp' | ⟨ds', n', v', hds', heq, hshort⟩) | ⟨ds', a', v', hds', heq, hv'⟩
        · rcases hp' with hnil | ⟨-, hcrlf, -⟩
          · exact absurd hnil (by simp [header])
          · exact absurd (crlf_header _ _ _) hcrlf
        · obtain ⟨rfl, rfl⟩ := header_unique hds hds' heq
          simp only [List.length_append, crlf, List.length_cons, List.length_nil] at hshort
          omega
        · obtain ⟨hlen, hpayload⟩ := header_unique hds hds' heq
          have hrest := (List.append_inj hpayload hlen).2
          rw [List.append_cancel_left hrest]
          exact hv'

/-- Where neither decoder finds a fault, all headers are capped.
Source: `internal/server/eventloop.go` `evMaxHeaderLine`
Kind: L -/
theorem faultless_capped {b : Bytes} (hc : Faultless (canonical stdReader) b)
    (hl : Faultless loose b) : Faultless capped b := by
  rcases hc with hp | ⟨ds, n, v, hds, rfl, hv⟩
  · rcases hl with hp' | ⟨ds, n, v, _, rfl, _⟩
    · exact Or.inl hp'
    · exact absurd (lf_mem_header _ _ _) hp.1
  · refine Or.inr ⟨ds, n, v, capped_of_canonical hds, rfl, faultlessItems_capped hv ?_⟩
    rcases hl with hp' | ⟨ds', n', v', hds', heq, hv'⟩
    · rcases hp' with hnil | ⟨-, hcrlf, -⟩
      · exact absurd hnil (by simp [header])
      · exact absurd (crlf_header _ _ _) hcrlf
    · obtain ⟨rfl, rfl⟩ := header_unique hds hds' heq
      exact hv'

/-- Bytes on which the decoders agree as a whole do not mislead the event loop when they arrive in
parts.
Source: `internal/server/eventloop.go` `parseCommand`
Kind: L -/
theorem Agrees.firm {t : Bytes} (h : Agrees t) : (frame loopHeader).Firm t := by
  rw [firm_iff]
  intro hl
  refine faultless_capped ?_ hl
  rw [← reads_strict.frame_ne_malformed_iff, agrees_iff.mp h]
  exact reads_loose.frame_ne_malformed_iff.mpr hl

/-- The goroutine and the event loop treat a stream alike, in whatever pieces the one and in whatever
deliveries the other gets it, exactly when the decoders agree at every place of the stream where the
event loop starts to parse a request. Alike means: both return, dispatch the same requests in the
same order, both find a protocol error, both are asked to close or both reach the end of the stream,
and unless there was a protocol error the connections are in the same state.
Source: `internal/server/conn.go` `serveConn`; `internal/server/eventloop.go` `OnTraffic`
Kind: P
Fidelity: exact -/
theorem backends_agree_iff (h : Handler σ) (st : σ) (ending : StreamEnd) (stream : Bytes) :
    (∀ fuel, stream.length < fuel → ∀ pieces ds, Steady pieces → pieces.flatten = stream →
        ds.flatten = stream →
        ∃ c why ec, serveConn h calm fuel (newBufio pieces ending []) ⟨st, []⟩ = .ok (c, why) ∧
          deliverAll h fuel (onOpen st) ds = .ok ec ∧ c.dispatched = ec.dispatched ∧
          why.ending = ec.status ∧ (why ≠ .protocolError → c.conn = ec.conn)) ↔
      ∀ requests t, Frames loose requests stream t → h.proceeds st requests = true → Agrees t := by
  have hbuf := bufSize_newReader ending
  have hreached : (∀ requests t, Frames loose requests stream t →
      h.proceeds st requests = true → Agrees t) ↔
      ∀ st' t, Reached (frame loopHeader) h.dispatch st stream st' t →
        frame stdReader.headers t = frame loopHeader t ∧ (frame loopHeader).Firm t := by
    constructor
    · intro hall st' t hreach
      obtain ⟨requests, hframes, hproceeds⟩ := exists_reached_iff.mp ⟨st', hreach⟩
      have hagrees := hall requests t hframes hproceeds
      exact ⟨agrees_iff.mp hagrees, hagrees.firm⟩
    · intro hall requests t hframes hproceeds
      obtain ⟨st', hreach⟩ := exists_reached_iff.mpr ⟨requests, hframes, hproceeds⟩
      exact agrees_iff.mpr (hall st' t hreach).1
  have hle : ∀ b args r, frame stdReader.headers b = .done args r →
      frame loopHeader b = .done args r := by
    intro b args r hdone
    obtain ⟨ds, v, hds, hb, hitems⟩ := reads_strict.frame_done_iff.mp hdone
    exact reads_loose.frame_done_iff.mpr
      ⟨ds, v, strict_le_loose _ _ _ hds, hb, hitems.mono strict_le_loose⟩
  have hserves : ∀ {fuel : ℕ} {pieces : List Bytes}, stream.length < fuel → Steady pieces →
      pieces.flatten = stream → ∃ c why st' b',
        serveConn h calm fuel (newBufio pieces ending []) ⟨st, []⟩ = .ok (c, why) ∧
        Drains (frame stdReader.headers) h.dispatch st stream c.dispatched st' b' why.ending ∧
        (why ≠ .protocolError → c.conn = h.replay st c.dispatched) := by
    rintro fuel pieces hfuel hsteady rfl
    obtain ⟨new, conn, why, rest, hrun, hframes, -, hdeparts⟩ :=
      serveConn_departs h calm hbuf fuel ⟨st, []⟩ (buffers_newBufio hsteady ending) hfuel
    obtain ⟨st', b', hdrains⟩ := hdeparts.drains hbuf hframes
    rw [headers_newReader] at hdrains
    exact ⟨_, why, st', b', hrun, hdrains, hdeparts.conn_eq⟩
  rw [hreached]
  constructor
  · intro hall
    have hone : Steady [stream] := steady_of_length_lt (show 1 < 100 by decide)
    obtain ⟨c, why, st₁, b₁, hrun, hdrains, -⟩ :=
      hserves (Nat.lt_succ_self _) hone (by simp)
    refine (alike_iff reads_loose.frame_local rfl hle hdrains).mp ?_
    intro ds log e hds hd
    obtain ⟨c', why', ec, hrun', hec, hlog, hend, -⟩ :=
      hall _ (Nat.lt_succ_self _) [stream] ds hone (by simp) hds
    obtain ⟨_, hec', rfl, rfl⟩ := deliverAll_onOpen h st hd hds (Nat.lt_succ_self _)
    cases hec.symm.trans hec'
    cases hrun.symm.trans hrun'
    exact ⟨hlog.symm, hend.symm⟩
  · intro hall fuel hfuel pieces ds hsteady hpieces hds
    obtain ⟨c, why, st₁, b₁, hrun, hdrains, hconn⟩ := hserves hfuel hsteady hpieces
    obtain ⟨log, e, hd⟩ := exists_delivers h ds st []
    obtain ⟨ec, hec, rfl, rfl⟩ := deliverAll_onOpen h st hd hds hfuel
    obtain ⟨hlog, hend⟩ :=
      (alike_iff reads_loose.frame_local rfl hle hdrains).mpr hall ds _ _ hds hd
    refine ⟨c, why, ec, hrun, hec, hlog.symm, hend.symm, fun hwhy => ?_⟩
    have hsettled := deliverAll_settled (h := h) st fuel ds (fun _ => rfl) hec
    rw [hconn hwhy, hsettled ?_, hlog]
    rw [hend]
    cases why with
    | protocolError => exact absurd rfl hwhy
    | _ => decide

end CacheMoney.Server
