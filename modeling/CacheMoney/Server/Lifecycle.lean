import Mathlib.Data.Finset.Basic
import Mathlib.Logic.Function.Basic
import Mathlib.Logic.Relation
import CacheMoney.Found.Outcome

/-!
# Accepting, serving and shutting down

The goroutine-per-connection backend as a transition system: the accept loop of `Serve`, one
`serveConn` goroutine per connection, and `Shutdown`. Every load and store of a shared atomic,
every critical section of the server's mutex and every call on a socket is a step, and the steps
of the goroutines come in any order. `closeIdleConns` keeps the mutex over its whole loop, so its
loads and closes are steps of their own while registering and dropping wait.

* `ServeStep`: the loop of `serveConn`. What the peer sends is arbitrary.
* `Step maxConns ok`: the whole server; `ok s c` restricts when `closeIdleConns` may close `c`.
* The counters of `ConnState` and the log of `State` are for statements only: no step reads them.
-/

namespace CacheMoney.Server.Lifecycle

open CacheMoney.Found

/-! ### The state -/

/-- Where the goroutine of a connection stands.
Source: `internal/server/conn.go` `serveConn`
Kind: D -/
inductive ServePC where
  /-- The goroutine has not been started. -/
  | starting
  /-- Before `s.inShutdown.Load()`. -/
  | checking
  /-- Before `c.active.Store(false)`. -/
  | parking
  /-- In `c.r.ReadCommand()`. -/
  | reading
  /-- Before `c.active.Store(true)`, with what `ReadCommand` returned; `none` is an error. -/
  | returned (args : Option (List Bytes))
  /-- Before `s.dispatch(c, args)`, or before the reply to a read error. -/
  | handling (args : Option (List Bytes))
  /-- Before `c.w.Flush()`; `stop` is what `dispatch` returned. -/
  | flushing (stop : Bool)
  /-- Before `c.nc.Close()` in `dropConn`. -/
  | closing
  /-- Before the removal from the connection set in `dropConn`. -/
  | dropping
  /-- Before the slot is given back. -/
  | releasing
  | ended
  deriving DecidableEq

/-- A connection. The last two fields count what the goroutine has done.
Source: `internal/server/conn.go` `conn`
Kind: D -/
structure ConnState where
  pc : ServePC := .starting
  active : Bool := false
  /-- The complete commands in the buffer of the connection's reader. -/
  buffered : List (List Bytes) := []
  /-- The server has closed the socket. -/
  closed : Bool := false
  /-- Commands that were dispatched. -/
  dispatched : ℕ := 0
  /-- Replies that were flushed to a socket that the server had not closed. -/
  flushed : ℕ := 0

/-- Where the accept loop stands.
Source: `internal/server/server.go` `Serve`
Kind: D -/
inductive AcceptPC where
  | notServing
  /-- Before the section that publishes the listener. -/
  | publishing
  /-- In `ln.Accept()`. -/
  | accepting
  /-- Before the `select` on the semaphore. -/
  | accepted
  /-- Before `newConn`. -/
  | slotted
  /-- Before `addConn`. -/
  | created (c : ℕ)
  /-- Before the `go` statement. -/
  | added (c : ℕ)
  | returned
  deriving DecidableEq

/-- Where `Shutdown` stands.
Source: `internal/server/shutdown.go` `Shutdown`
Kind: D -/
inductive ShutdownPC where
  | notCalled
  /-- Before `ln.Close()`; `ln` says whether a listener was published. -/
  | closingLn (ln : Bool)
  /-- Before `closeIdleConns`. -/
  | looping
  /-- In `closeIdleConns`, or in `closeAllConns` if `all`, with the mutex held. -/
  | sweeping (all : Bool) (rest : Finset ℕ)
  /-- Before `c.nc.Close()` in such a loop. -/
  | closing (all : Bool) (c : ℕ) (rest : Finset ℕ)
  /-- Before `connCount`. -/
  | counting
  /-- In the `select` between the deadline and the ticker. -/
  | waiting
  /-- `deadline` for `ctx.Err()`; otherwise the error of closing the listener, if any. -/
  | returned (deadline : Bool)
  deriving DecidableEq

/-- Source: `internal/server/server.go` `Server`
Kind: D -/
structure State where
  inShutdown : Bool := false
  /-- `s.ln` is set. -/
  lnPublished : Bool := false
  lnClosed : Bool := false
  /-- Slots taken. -/
  sem : ℕ := 0
  nextID : ℕ := 0
  /-- Every connection that was ever made, by its id. -/
  made : ℕ → Option ConnState := fun _ => none
  /-- The connection set `s.conns`. -/
  conns : Finset ℕ := ∅
  accept : AcceptPC := .notServing
  shutdown : ShutdownPC := .notCalled
  /-- The commands dispatched so far, with their connections. -/
  log : List (ℕ × List Bytes) := []

/-- `Shutdown` holds the mutex from step to step only inside its loops over the connections.
Source: `internal/server/server.go` `closeIdleConns`, `closeAllConns`
Kind: D -/
def ShutdownPC.locks : ShutdownPC → Bool
  | .sweeping _ _ => true
  | .closing _ _ _ => true
  | _ => false

/-- Source: none
Kind: D -/
def State.put (s : State) (c : ℕ) (k : ConnState) : State :=
  { s with made := Function.update s.made c (some k) }

/-! ### The steps -/

/-- One step of `serveConn`, and the command it dispatched if it did. `inShutdown` is the flag at
the time of the step.
Source: `internal/server/conn.go` `serveConn`
Kind: D -/
inductive ServeStep (inShutdown : Bool) : ConnState → Option (List Bytes) → ConnState → Prop where
  | stop (k : ConnState) (hpc : k.pc = .checking) (hflag : inShutdown = true) :
      ServeStep inShutdown k none { k with pc := .closing }
  | goOn (k : ConnState) (hpc : k.pc = .checking) (hflag : inShutdown = false) :
      ServeStep inShutdown k none { k with pc := .parking }
  | park (k : ConnState) (hpc : k.pc = .parking) :
      ServeStep inShutdown k none { k with pc := .reading, active := false }
  /-- The reader takes bytes from the socket. -/
  | fill (k : ConnState) (cmds : List (List Bytes)) (hpc : k.pc = .reading)
      (hopen : k.closed = false) :
      ServeStep inShutdown k none { k with buffered := k.buffered ++ cmds }
  | readCommand (k : ConnState) (args : List Bytes) (rest : List (List Bytes))
      (hpc : k.pc = .reading) (hbuf : k.buffered = args :: rest) :
      ServeStep inShutdown k none { k with pc := .returned (some args), buffered := rest }
  /-- The end of the stream, a timeout, a malformed command, or a closed socket. -/
  | readFail (k : ConnState) (hpc : k.pc = .reading) (hbuf : k.buffered = []) :
      ServeStep inShutdown k none { k with pc := .returned none }
  | unpark (k : ConnState) (r : Option (List Bytes)) (hpc : k.pc = .returned r) :
      ServeStep inShutdown k none { k with pc := .handling r, active := true }
  | refuse (k : ConnState) (hpc : k.pc = .handling none) :
      ServeStep inShutdown k none { k with pc := .closing }
  | dispatch (k : ConnState) (args : List Bytes) (stop : Bool) (hpc : k.pc = .handling (some args)) :
      ServeStep inShutdown k (some args)
        { k with pc := .flushing stop, dispatched := k.dispatched + 1 }
  /-- `gone` if the write failed because the client went away. -/
  | flush (k : ConnState) (stop gone : Bool) (hpc : k.pc = .flushing stop)
      (hopen : k.closed = false) :
      ServeStep inShutdown k none
        { k with pc := if stop || gone then .closing else .checking, flushed := k.flushed + 1 }
  | flushFail (k : ConnState) (stop : Bool) (hpc : k.pc = .flushing stop)
      (hclosed : k.closed = true) :
      ServeStep inShutdown k none { k with pc := .closing }
  | close (k : ConnState) (hpc : k.pc = .closing) :
      ServeStep inShutdown k none { k with pc := .dropping, closed := true }

/-- One step of the server. `ok s c` has to hold where `closeIdleConns` closes `c`.
Source: `internal/server/server.go` `Serve`; `internal/server/conn.go` `serveConn`;
`internal/server/shutdown.go` `Shutdown`
Kind: D -/
inductive Step (maxConns : ℕ) (ok : State → ℕ → Prop) : State → State → Prop where
  -- The accept loop.
  | serve (s : State) (hpc : s.accept = .notServing) :
      Step maxConns ok s { s with accept := .publishing }
  | serveRefused (s : State) (hpc : s.accept = .publishing) (hmu : s.shutdown.locks = false)
      (hflag : s.inShutdown = true) :
      Step maxConns ok s { s with accept := .returned, lnClosed := true }
  | publish (s : State) (hpc : s.accept = .publishing) (hmu : s.shutdown.locks = false)
      (hflag : s.inShutdown = false) :
      Step maxConns ok s { s with accept := .accepting, lnPublished := true }
  | accept (s : State) (hpc : s.accept = .accepting) (hopen : s.lnClosed = false) :
      Step maxConns ok s { s with accept := .accepted }
  | acceptFail (s : State) (hpc : s.accept = .accepting) :
      Step maxConns ok s { s with accept := .returned }
  | takeSlot (s : State) (hpc : s.accept = .accepted) (hfree : s.sem < maxConns) :
      Step maxConns ok s { s with accept := .slotted, sem := s.sem + 1 }
  | rejectConn (s : State) (hpc : s.accept = .accepted) (hfull : ¬s.sem < maxConns) :
      Step maxConns ok s { s with accept := .accepting }
  | newConn (s : State) (hpc : s.accept = .slotted) :
      Step maxConns ok s { s.put (s.nextID + 1) {} with
        accept := .created (s.nextID + 1), nextID := s.nextID + 1 }
  | addConn (s : State) (c : ℕ) (hpc : s.accept = .created c) (hmu : s.shutdown.locks = false) :
      Step maxConns ok s { s with accept := .added c, conns := insert c s.conns }
  | spawn (s : State) (c : ℕ) (k : ConnState) (hpc : s.accept = .added c)
      (hk : s.made c = some k) :
      Step maxConns ok s { s.put c { k with pc := .checking } with accept := .accepting }
  -- The goroutine of a connection.
  | conn (s : State) (c : ℕ) (k k' : ConnState) (e : Option (List Bytes))
      (hk : s.made c = some k) (hstep : ServeStep s.inShutdown k e k') :
      Step maxConns ok s { s.put c k' with log := s.log ++ e.toList.map fun args => (c, args) }
  | drop (s : State) (c : ℕ) (k : ConnState) (hk : s.made c = some k) (hpc : k.pc = .dropping)
      (hmu : s.shutdown.locks = false) :
      Step maxConns ok s
        { s.put c { k with pc := .releasing } with conns := s.conns.erase c }
  | release (s : State) (c : ℕ) (k : ConnState) (hk : s.made c = some k)
      (hpc : k.pc = .releasing) :
      Step maxConns ok s { s.put c { k with pc := .ended } with sem := s.sem - 1 }
  -- Shutdown.
  | shutdown (s : State) (hpc : s.shutdown = .notCalled) :
      Step maxConns ok s { s with inShutdown := true, shutdown := .closingLn s.lnPublished }
  | closeLn (s : State) (ln : Bool) (hpc : s.shutdown = .closingLn ln) :
      Step maxConns ok s { s with shutdown := .looping, lnClosed := s.lnClosed || ln }
  | sweep (s : State) (hpc : s.shutdown = .looping) :
      Step maxConns ok s { s with shutdown := .sweeping false s.conns }
  | skipActive (s : State) (c : ℕ) (k : ConnState) (rest : Finset ℕ)
      (hpc : s.shutdown = .sweeping false rest) (hc : c ∈ rest) (hk : s.made c = some k)
      (hactive : k.active = true) :
      Step maxConns ok s { s with shutdown := .sweeping false (rest.erase c) }
  | findIdle (s : State) (c : ℕ) (k : ConnState) (rest : Finset ℕ)
      (hpc : s.shutdown = .sweeping false rest) (hc : c ∈ rest) (hk : s.made c = some k)
      (hidle : k.active = false) :
      Step maxConns ok s { s with shutdown := .closing false c (rest.erase c) }
  | closeIdle (s : State) (c : ℕ) (k : ConnState) (rest : Finset ℕ)
      (hpc : s.shutdown = .closing false c rest) (hk : s.made c = some k) (hok : ok s c) :
      Step maxConns ok s { s.put c { k with closed := true } with shutdown := .sweeping false rest }
  | swept (s : State) (hpc : s.shutdown = .sweeping false ∅) :
      Step maxConns ok s { s with shutdown := .counting }
  | countNone (s : State) (hpc : s.shutdown = .counting) (hnone : s.conns = ∅) :
      Step maxConns ok s { s with shutdown := .returned false }
  | countSome (s : State) (hpc : s.shutdown = .counting) (hsome : s.conns ≠ ∅) :
      Step maxConns ok s { s with shutdown := .waiting }
  | tick (s : State) (hpc : s.shutdown = .waiting) :
      Step maxConns ok s { s with shutdown := .looping }
  | deadline (s : State) (hpc : s.shutdown = .waiting) :
      Step maxConns ok s { s with shutdown := .sweeping true s.conns }
  | findAny (s : State) (c : ℕ) (rest : Finset ℕ) (hpc : s.shutdown = .sweeping true rest)
      (hc : c ∈ rest) :
      Step maxConns ok s { s with shutdown := .closing true c (rest.erase c) }
  | closeAny (s : State) (c : ℕ) (k : ConnState) (rest : Finset ℕ)
      (hpc : s.shutdown = .closing true c rest) (hk : s.made c = some k) :
      Step maxConns ok s { s.put c { k with closed := true } with shutdown := .sweeping true rest }
  | sweptAll (s : State) (hpc : s.shutdown = .sweeping true ∅) :
      Step maxConns ok s { s with shutdown := .returned true }

/-- Source: none
Kind: D -/
def Reachable (maxConns : ℕ) (ok : State → ℕ → Prop) : State → State → Prop :=
  Relation.ReflTransGen (Step maxConns ok)

end CacheMoney.Server.Lifecycle
