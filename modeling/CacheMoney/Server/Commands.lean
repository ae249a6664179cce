import CacheMoney.Engine.Cache
import CacheMoney.Found.Decimal
import CacheMoney.Found.Script
import CacheMoney.Resp.Writer

/-!
# Commands

The twelve commands of the server and their dispatch. A handler is a script: it reads its argument
vector with bounds checks, asks the engine, and writes to the connection.

* `EngineOp`: what a handler asks of the engine and of the clock, with the answers the interfaces
  allow. An engine may or may not be tunable.
* `dispatch` looks up the command, checks the number of arguments and runs the handler; its result
  says whether to close the connection.
* A handler's result is `none` for a nil error.
-/

namespace CacheMoney.Server

open CacheMoney.Found CacheMoney.Resp
open CacheMoney.Engine (EvictionPolicy timeSub)

/-! ### The engine -/

/-- An error of the engine: whether it is `ErrOOM`, and its text.
Source: `internal/cache/policy.go` `ErrOOM`
Kind: D -/
structure EngineErr where
  oom : Bool
  text : Bytes

/-- Source: `internal/cache/engine.go` `Engine`; `internal/cache/policy.go` `Tunable`;
`internal/server/config.go` `Config`
Kind: D -/
inductive EngineOp where
  | get (key : Bytes)
  | set (key value : Bytes) (ttl : Int64)
  | del (key : Bytes)
  | ttl (key : Bytes)
  | now
  | maxMemory
  | setMaxMemory (bytes : Int64)
  | evictionPolicy
  | setEvictionPolicy (p : EvictionPolicy)

/-- Source: `internal/cache/engine.go` `Engine`; `internal/cache/policy.go` `Tunable`
Kind: D -/
def EngineOp.Answer : EngineOp → Type
  | .get _ => Except EngineErr (Option Bytes)
  | .set _ _ _ => Except EngineErr Unit
  | .del _ => Except EngineErr Bool
  | .ttl _ => Except EngineErr (Option Int64)
  | .now => ℤ
  | .maxMemory => Int64
  | .setMaxMemory _ => Unit
  | .evictionPolicy => EvictionPolicy
  | .setEvictionPolicy _ => Unit

/-- Source: `internal/cache/policy.go` `String`
Kind: D -/
def policyName : EvictionPolicy → Bytes
  | .allKeysLFU => text "allkeys-lfu"
  | .allKeysRandom => text "allkeys-random"
  | .noEviction => text "noeviction"

/-- Source: `internal/cache/policy.go` `ParsePolicy`
Kind: D -/
def parsePolicy (name : Bytes) : Option EvictionPolicy :=
  if name = text "allkeys-lfu" then some .allKeysLFU
  else if name = text "allkeys-random" then some .allKeysRandom
  else if name = text "noeviction" then some .noEviction
  else none

/-! ### Connections -/

/-- What the handlers use of the server: the version it reports, and whether its engine is tunable.
Source: `internal/server/server.go` `Server`
Kind: D -/
structure Srv where
  version : Bytes
  tunable : Bool

/-- Source: `internal/server/conn.go` `conn`
Kind: D -/
structure Conn where
  srv : Srv
  w : Writer
  proto : ℤ
  id : UInt64

/-- Source: `internal/server/server.go` `newConn`; `internal/server/eventloop.go` `newConnWriter`
Kind: D -/
def newConn (srv : Srv) (id : UInt64) : Conn := ⟨srv, newWriter, 2, id⟩

/-- The error of a handler.
Source: `internal/server/reply.go` `errClientQuit`
Kind: D -/
inductive HandlerErr where
  | clientQuit
  /-- The sticky error of the writer. -/
  | write (e : ℕ)

/-- Source: none
Kind: D -/
abbrev CmdM := Script EngineOp EngineOp.Answer Conn

/-- Source: none
Kind: D -/
def ask (o : EngineOp) : CmdM o.Answer := Script.ask o

/-- `args[i]`.
Source: none
Kind: D -/
def arg (args : List Bytes) (i : ℕ) : CmdM Bytes := Script.lift (index args i)

/-- `args[i:]`.
Source: none
Kind: D -/
def argsFrom (args : List Bytes) (i : ℕ) : CmdM (List Bytes) := Script.lift (sliceFrom args i)

/-- A method of the writer, which returns the sticky error.
Source: `internal/resp/writer.go` `Writer`
Kind: D -/
def write (f : Writer → Writer) : CmdM (Option HandlerErr) := do
  modify fun c => { c with w := f c.w }
  let c ← get
  return c.w.err.map .write

/-! ### Texts -/

/-- Source: `internal/server/dispatch.go` `asciiUpper`
Kind: D -/
def asciiUpper (b : Bytes) : Bytes := b.map fun ch => if 97 ≤ ch ∧ ch ≤ 122 then ch - 32 else ch

/-- `strings.ToLower`, of which only equality with ASCII names is used: besides the ASCII letters two
other characters have an ASCII letter for their lower case, the Kelvin sign and the dotted capital I.
Source: `internal/server/handshake.go` `configSet`; `internal/server/reply.go` `replyWrongArity`
Kind: D -/
def toLower : Bytes → Bytes
  | [] => []
  | 0xE2 :: 0x84 :: 0xAA :: b => 107 :: toLower b
  | 0xC4 :: 0xB0 :: b => 105 :: toLower b
  | ch :: b => (if 65 ≤ ch ∧ ch ≤ 90 then ch + 32 else ch) :: toLower b

/-- Source: `internal/server/reply.go` `maxErrEchoLen`
Kind: D -/
def maxErrEchoLen : ℕ := 128

/-- Source: `internal/server/reply.go` `sanitizeText`
Kind: D -/
def sanitizeText (b : Bytes) : Bytes :=
  let b := if maxErrEchoLen < b.length then b.take maxErrEchoLen else b
  b.map fun ch => if ch < 0x20 ∨ ch = 0x7f then 63 else ch

/-! ### Error replies -/

/-- Source: `internal/server/reply.go` `replyUnknownCommand`
Kind: D -/
def replyUnknownCommand (raw : Bytes) : CmdM (Option HandlerErr) :=
  write (·.writeError
    (text "ERR unknown command '" ++ sanitizeText raw ++ text "', with args beginning with: "))

/-- Source: `internal/server/reply.go` `replyWrongArity`
Kind: D -/
def wrongArity (name : Bytes) : Bytes :=
  text "ERR wrong number of arguments for '" ++ toLower name ++ text "'"

/-- Source: `internal/server/reply.go` `replyWrongArity`
Kind: D -/
def replyWrongArity (name : Bytes) : CmdM (Option HandlerErr) := write (·.writeError (wrongArity name))

/-- Source: `internal/server/reply.go` `replyEngineErr`
Kind: D -/
def replyEngineErr (e : EngineErr) : CmdM (Option HandlerErr) :=
  write (·.writeError (text "ERR " ++ sanitizeText e.text))

/-- Source: `internal/server/reply.go` `writeOOM`
Kind: D -/
def writeOOM : CmdM (Option HandlerErr) :=
  write (·.writeError (text "OOM command not allowed when used memory > 'maxmemory'"))

/-- Source: `internal/server/commands.go` `errSyntax`
Kind: D -/
def errSyntax : Bytes := text "ERR syntax error"

/-- Source: `internal/server/commands.go` `errNotInteger`
Kind: D -/
def errNotInteger : Bytes := text "ERR value is not an integer or out of range"

/-- Source: `internal/server/commands.go` `errInvalidExpire`
Kind: D -/
def errInvalidExpire : Bytes := text "ERR invalid expire time in 'set' command"

/-! ### Values -/

/-- Source: `internal/server/commands.go` `cmdPing`
Kind: D -/
def cmdPing (args : List Bytes) : CmdM (Option HandlerErr) :=
  if args.length = 2 then do
    let msg ← arg args 1
    write (·.writeBulk msg)
  else write (·.writeSimpleString (text "PONG"))

/-- Source: `internal/server/commands.go` `cmdQuit`
Kind: D -/
def cmdQuit (_ : List Bytes) : CmdM (Option HandlerErr) := do
  let _ ← write (·.writeSimpleString (text "OK"))
  return some .clientQuit

/-- Source: `internal/server/commands.go` `cmdGet`
Kind: D -/
def cmdGet (args : List Bytes) : CmdM (Option HandlerErr) := do
  let key ← arg args 1
  let answer ← ask (.get key)
  match answer with
  | .error e => replyEngineErr e
  | .ok none => write (·.writeNull)
  | .ok (some v) => write (·.writeBulk v)

/-! ### Expiry options -/

/-- Source: `internal/server/commands.go` `parseSetExpiry`
Kind: D -/
inductive ExpireUnit where
  | ex
  | px
  | exat
  | pxat

/-- Source: `internal/server/commands.go` `parseSetExpiry`
Kind: D -/
def expireUnit (unit : Bytes) : Option ExpireUnit :=
  if unit = text "EX" then some .ex
  else if unit = text "PX" then some .px
  else if unit = text "EXAT" then some .exat
  else if unit = text "PXAT" then some .pxat
  else none

/-- Source: `internal/server/commands.go` `maxExpireSeconds`
Kind: D -/
def maxExpireSeconds : Int64 := Int64.maxValue / 1000000000

/-- Source: `internal/server/commands.go` `maxExpireMillis`
Kind: D -/
def maxExpireMillis : Int64 := Int64.maxValue / 1000000

/-- Source: `internal/server/commands.go` `parseSetExpiry`
Kind: D -/
def ExpireUnit.limit : ExpireUnit → Int64
  | .ex => maxExpireSeconds
  | .px => maxExpireMillis
  | .exat => maxExpireSeconds
  | .pxat => maxExpireMillis

/-- The lifetime that a number in the unit stands for.
Source: `internal/server/commands.go` `parseSetExpiry`
Kind: D -/
def ExpireUnit.lifetime (n : Int64) : ExpireUnit → CmdM Int64
  | .ex => return n * 1000000000
  | .px => return n * 1000000
  | .exat => do
      let now ← ask .now
      return Int64.ofInt (timeSub (n.toInt * 1000000000) now)
  | .pxat => do
      let now ← ask .now
      return Int64.ofInt (timeSub (n.toInt * 1000000) now)

/-- Source: `internal/server/commands.go` `parseExpireInt`
Kind: D -/
def parseExpireInt (b : Bytes) : Option Int64 :=
  let neg := b.head? = some 45
  let s := if neg then b.drop 1 else b
  match s with
  | [] => none
  | c :: ds =>
      if c < 48 ∨ 57 < c then none
      else if ds ≠ [] ∧ c = 48 then none
      else match atoi s with
        | none => none
        | some n => some (if neg then -Int64.ofInt n else Int64.ofInt n)

/-- The lifetime of the options, or the text of the error.
Source: `internal/server/commands.go` `parseSetExpiry`
Kind: D -/
def parseSetExpiry (opts : List Bytes) : CmdM (Except Bytes Int64) :=
  if opts.length = 0 then return .ok 0
  else if opts.length ≠ 2 then return .error errSyntax
  else do
    let unit ← arg opts 0
    match expireUnit (asciiUpper unit) with
    | none => return .error errSyntax
    | some unit =>
        let number ← arg opts 1
        match parseExpireInt number with
        | none => return .error errNotInteger
        | some n =>
            if unit.limit < n ∨ n < -unit.limit then return .error errInvalidExpire
            else do
              let ttl ← unit.lifetime n
              if ttl ≤ 0 then return .error errInvalidExpire
              else return .ok ttl

/-- The part of `cmdSet` after its options: the store and its reply, or the error of the options.
Source: `internal/server/commands.go` `cmdSet`
Kind: D -/
def finishSet (args : List Bytes) : Except Bytes Int64 → CmdM (Option HandlerErr)
  | .error msg => write (·.writeError msg)
  | .ok ttl => do
      let key ← arg args 1
      let value ← arg args 2
      let answer ← ask (.set key value ttl)
      match answer with
      | .error e => if e.oom then writeOOM else replyEngineErr e
      | .ok () => write (·.writeSimpleString (text "OK"))

/-- Source: `internal/server/commands.go` `cmdSet`
Kind: D -/
def cmdSet (args : List Bytes) : CmdM (Option HandlerErr) := do
  let opts ← argsFrom args 3
  let expiry ← parseSetExpiry opts
  finishSet args expiry

/-! ### Keys -/

/-- The loop of `cmdDel` and of `cmdExists`: ask about each key and reply with the number of
positive answers.
Source: `internal/server/commands.go` `cmdDel`, `cmdExists`
Kind: D -/
def countKeys (probe : Bytes → CmdM (Except EngineErr Bool)) :
    List Bytes → Int64 → CmdM (Option HandlerErr)
  | [], n => write (·.writeInt n.toInt)
  | key :: keys, n => do
      let answer ← probe key
      match answer with
      | .error e => replyEngineErr e
      | .ok true => countKeys probe keys (n + 1)
      | .ok false => countKeys probe keys n

/-- Source: `internal/server/commands.go` `cmdDel`
Kind: D -/
def cmdDel (args : List Bytes) : CmdM (Option HandlerErr) := do
  let keys ← argsFrom args 1
  countKeys (fun key => ask (.del key)) keys 0

/-- Source: `internal/server/commands.go` `cmdExists`
Kind: D -/
def cmdExists (args : List Bytes) : CmdM (Option HandlerErr) := do
  let keys ← argsFrom args 1
  let probe : Bytes → CmdM (Except EngineErr Bool) := fun key => do
    let answer ← ask (.get key)
    return (answer : Except EngineErr (Option Bytes)).map Option.isSome
  countKeys probe keys 0

/-- Source: `internal/server/commands.go` `ttlUnit`
Kind: D -/
inductive TTLUnit where
  | seconds
  | milliseconds
  deriving DecidableEq

/-- The number that `replyTTL` writes for what the engine answered.
Source: `internal/server/commands.go` `replyTTL`
Kind: D -/
def ttlNumber (unit : TTLUnit) : Option Int64 → Int64
  | none => -2
  | some remaining =>
      if remaining < 0 then -1
      else if unit = .seconds then (remaining / 1000000 + 500) / 1000
      else remaining / 1000000

/-- Source: `internal/server/commands.go` `replyTTL`
Kind: D -/
def replyTTL (key : Bytes) (unit : TTLUnit) : CmdM (Option HandlerErr) := do
  let answer ← ask (.ttl key)
  match answer with
  | .error e => replyEngineErr e
  | .ok remaining => write (·.writeInt (ttlNumber unit remaining).toInt)

/-- Source: `internal/server/commands.go` `cmdTTL`
Kind: D -/
def cmdTTL (args : List Bytes) : CmdM (Option HandlerErr) := do
  let key ← arg args 1
  replyTTL key .seconds

/-- Source: `internal/server/commands.go` `cmdPTTL`
Kind: D -/
def cmdPTTL (args : List Bytes) : CmdM (Option HandlerErr) := do
  let key ← arg args 1
  replyTTL key .milliseconds

/-! ### Handshake -/

/-- Source: `internal/server/handshake.go` `writeHelloMap`
Kind: D -/
def writeHelloMap (proto : ℤ) : CmdM (Option HandlerErr) := do
  let c ← get
  let _ ← write (·.writeMapHeader 7)
  let _ ← write (·.writeBulk (text "server"))
  let _ ← write (·.writeBulk (text "cachemoney"))
  let _ ← write (·.writeBulk (text "version"))
  let _ ← write (·.writeBulk c.srv.version)
  let _ ← write (·.writeBulk (text "proto"))
  let _ ← write (·.writeInt proto)
  let _ ← write (·.writeBulk (text "id"))
  let _ ← write (·.writeInt c.id.toInt64.toInt)
  let _ ← write (·.writeBulk (text "mode"))
  let _ ← write (·.writeBulk (text "standalone"))
  let _ ← write (·.writeBulk (text "role"))
  let _ ← write (·.writeBulk (text "master"))
  let _ ← write (·.writeBulk (text "modules"))
  write (·.writeArrayHeader 0)

/-- The loop over the options from position `i` on; the text of the error, if there is one.
Source: `internal/server/handshake.go` `cmdHello`
Kind: D -/
def helloOptions (rest : List Bytes) : ℕ → ℕ → CmdM (Option Bytes)
  | 0, _ => Script.lift (throw .outOfFuel)
  | fuel + 1, i =>
      if rest.length ≤ i then return none
      else do
        let opt ← arg rest i
        if asciiUpper opt = text "AUTH" then
          return some (text "ERR Client sent AUTH, but no password is set")
        else if asciiUpper opt = text "SETNAME" then
          if rest.length ≤ i + 1 then return some errSyntax
          else helloOptions rest fuel (i + 2)
        else return some errSyntax

/-- The part of `cmdHello` after the version.
Source: `internal/server/handshake.go` `cmdHello`
Kind: D -/
def finishHello (proto : ℤ) (flip : Bool) (rest : List Bytes) : CmdM (Option HandlerErr) := do
  let fault ← helloOptions rest (rest.length + 1) 0
  match fault with
  | some msg => write (·.writeError msg)
  | none =>
      if flip then
        modify fun c => { c with w := c.w.setProto proto, proto := proto }
        writeHelloMap proto
      else writeHelloMap proto

/-- Source: `internal/server/handshake.go` `cmdHello`
Kind: D -/
def cmdHello (args : List Bytes) : CmdM (Option HandlerErr) := do
  let c ← get
  let rest ← argsFrom args 1
  if 0 < rest.length then
    let version ← arg rest 0
    match atoi version with
    | none => write (·.writeError (text "NOPROTO unsupported protocol version"))
    | some v =>
        if v < 2 ∨ 3 < v then write (·.writeError (text "NOPROTO unsupported protocol version"))
        else do
          let rest ← argsFrom rest 1
          finishHello v true rest
  else finishHello c.proto false rest

/-- Source: `internal/server/handshake.go` `cmdSelect`
Kind: D -/
def cmdSelect (args : List Bytes) : CmdM (Option HandlerErr) := do
  let n ← arg args 1
  match atoi n with
  | none => write (·.writeError errNotInteger)
  | some n =>
      if n ≠ 0 then write (·.writeError (text "ERR DB index is out of range"))
      else write (·.writeSimpleString (text "OK"))

/-! ### Configuration -/

/-- Source: `internal/server/handshake.go` `writeConfigPair`
Kind: D -/
def writeConfigPair (key value : Bytes) : CmdM (Option HandlerErr) := do
  let _ ← write (·.writeArrayHeader 2)
  let _ ← write (·.writeBulk key)
  write (·.writeBulk value)

/-- Source: `internal/server/handshake.go` `configGet`
Kind: D -/
def configGet (param : Bytes) : CmdM (Option HandlerErr) := do
  let c ← get
  if asciiUpper param = text "MAXMEMORY" then
    if c.srv.tunable then
      let v ← ask .maxMemory
      writeConfigPair (text "maxmemory") (signedNumeral (v : Int64).toInt)
    else writeConfigPair (text "maxmemory") (signedNumeral 0)
  else if asciiUpper param = text "MAXMEMORY-POLICY" then
    if c.srv.tunable then
      let p ← ask .evictionPolicy
      writeConfigPair (text "maxmemory-policy") (policyName p)
    else writeConfigPair (text "maxmemory-policy") (policyName .allKeysLFU)
  else write (·.writeArrayHeader 0)

/-- Source: `internal/server/handshake.go` `configSet`
Kind: D -/
def invalidArgument (val param : Bytes) : Bytes :=
  text "ERR Invalid argument '" ++ sanitizeText val ++
    (text "' for CONFIG SET '" ++ param ++ text "'")

/-- Source: `internal/server/handshake.go` `configSet`
Kind: D -/
def notSupported (param : Bytes) : Bytes :=
  text "ERR CONFIG SET " ++ param ++ text " is not supported by this engine"

/-- Source: `internal/server/handshake.go` `configSet`
Kind: D -/
def configSet (param val : Bytes) : CmdM (Option HandlerErr) := do
  let c ← get
  if asciiUpper param = text "MAXMEMORY" then
    if c.srv.tunable then
      match atoi val with
      | none => write (·.writeError (invalidArgument val (text "maxmemory")))
      | some n =>
          if n < 0 then write (·.writeError (invalidArgument val (text "maxmemory")))
          else do
            let _ ← ask (.setMaxMemory (Int64.ofInt n))
            write (·.writeSimpleString (text "OK"))
    else write (·.writeError (notSupported (text "maxmemory")))
  else if asciiUpper param = text "MAXMEMORY-POLICY" then
    if c.srv.tunable then
      match parsePolicy (toLower val) with
      | none => write (·.writeError (invalidArgument val (text "maxmemory-policy")))
      | some p => do
          let _ ← ask (.setEvictionPolicy p)
          write (·.writeSimpleString (text "OK"))
    else write (·.writeError (notSupported (text "maxmemory-policy")))
  else write (·.writeSimpleString (text "OK"))

/-- Source: `internal/server/handshake.go` `cmdConfig`
Kind: D -/
def errConfig : Bytes := text "ERR Unknown CONFIG subcommand or wrong number of arguments"

/-- Source: `internal/server/handshake.go` `cmdConfig`
Kind: D -/
def cmdConfig (args : List Bytes) : CmdM (Option HandlerErr) := do
  let sub ← arg args 1
  if asciiUpper sub = text "GET" then
    if args.length ≠ 3 then write (·.writeError errConfig)
    else do
      let param ← arg args 2
      configGet param
  else if asciiUpper sub = text "SET" then
    if args.length ≠ 4 then write (·.writeError errConfig)
    else do
      let param ← arg args 2
      let val ← arg args 3
      configSet param val
  else write (·.writeError errConfig)

/-! ### Dispatch -/

/-- Source: `internal/server/dispatch.go` `commandTable`
Kind: D -/
inductive Verb where
  | ping
  | quit
  | get
  | set
  | del
  | exists
  | ttl
  | pttl
  | hello
  | command
  | config
  | select
  deriving DecidableEq

/-- A row of the table; the verb stands for the handler, and a negative `maxArgs` for no maximum.
Source: `internal/server/dispatch.go` `command`
Kind: D -/
structure Command where
  name : Bytes
  minArgs : ℤ
  maxArgs : ℤ
  verb : Verb

/-- Source: `internal/server/dispatch.go` `commandTable`
Kind: D -/
def commandTable : List Command :=
  [⟨text "PING", 1, 2, .ping⟩,
    ⟨text "QUIT", 1, 1, .quit⟩,
    ⟨text "GET", 2, 2, .get⟩,
    ⟨text "SET", 3, 5, .set⟩,
    ⟨text "DEL", 2, -1, .del⟩,
    ⟨text "EXISTS", 2, -1, .exists⟩,
    ⟨text "TTL", 2, 2, .ttl⟩,
    ⟨text "PTTL", 2, 2, .pttl⟩,
    ⟨text "HELLO", 1, -1, .hello⟩,
    ⟨text "COMMAND", 1, -1, .command⟩,
    ⟨text "CONFIG", 2, -1, .config⟩,
    ⟨text "SELECT", 2, 2, .select⟩]

/-- Source: `internal/server/handshake.go` `cmdCommand`
Kind: D -/
def cmdCommand (args : List Bytes) : CmdM (Option HandlerErr) :=
  if args.length = 1 then write (·.writeArrayHeader 0)
  else do
    let sub ← arg args 1
    if asciiUpper sub = text "DOCS" then write (·.writeArrayHeader 0)
    else if asciiUpper sub = text "COUNT" then write (·.writeInt commandTable.length)
    else write (·.writeError
      (text "ERR Unknown COMMAND subcommand or wrong number of arguments"))

/-- Source: `internal/server/dispatch.go` `commandTable`
Kind: D -/
def Verb.handler : Verb → List Bytes → CmdM (Option HandlerErr)
  | .ping => cmdPing
  | .quit => cmdQuit
  | .get => cmdGet
  | .set => cmdSet
  | .del => cmdDel
  | .exists => cmdExists
  | .ttl => cmdTTL
  | .pttl => cmdPTTL
  | .hello => cmdHello
  | .command => cmdCommand
  | .config => cmdConfig
  | .select => cmdSelect

/-- The number of arguments is outside the window of the command.
Source: `internal/server/dispatch.go` `dispatch`
Kind: D -/
def Command.refuses (cmd : Command) (args : List Bytes) : Bool :=
  decide ((args.length : ℤ) < cmd.minArgs) ||
    (decide (0 ≤ cmd.maxArgs) && decide (cmd.maxArgs < args.length))

/-- Source: `internal/server/dispatch.go` `dispatch`
Kind: D -/
def lookupCommand (verb : Bytes) : Option Command := commandTable.find? fun cmd => cmd.name == verb

/-- Source: `internal/server/dispatch.go` `dispatch`
Kind: D -/
def dispatch (args : List Bytes) : CmdM Bool :=
  if args.length = 0 then return false
  else do
    let raw ← arg args 0
    match lookupCommand (asciiUpper raw) with
    | none => do
        let _ ← replyUnknownCommand raw
        return false
    | some cmd =>
        if cmd.refuses args then do
          let _ ← replyWrongArity cmd.name
          return false
        else do
          let err ← cmd.verb.handler args
          return err.isSome

/-- What is seen of one dispatch: its result, and the dialect of the writer at its end.
Source: `internal/server/dispatch.go` `dispatch`
Kind: D -/
structure Dispatched where
  close : Bool
  dialect : ℤ

/-- Argument vectors dispatched one after another on a connection.
Source: `internal/server/conn.go` `serveConn`; `internal/server/eventloop.go` `OnTraffic`
Kind: D -/
def dispatchAll : List (List Bytes) → CmdM (List Dispatched)
  | [] => return []
  | args :: more => do
      let close ← dispatch args
      let c ← get
      let rest ← dispatchAll more
      return ⟨close, c.w.proto⟩ :: rest

end CacheMoney.Server
