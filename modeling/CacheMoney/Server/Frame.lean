import CacheMoney.Server.Expiry

/-!
# What a command leaves alone

The frame rule of the server: a command that does not name a key to `SET` or `DEL` leaves the entry
of the key as it is, as long as no memory ceiling is set. It is read off the actions that the
handlers ask of the engine.

* `WritesKey`, `SetsCeiling`: what a command writes, by its arguments.
* `dispatch_asks`: a command asks the engine to store or remove only keys it writes, and for a
  ceiling only if it sets one.
* `attend`: commands of any number of clients, one after another; `attend_keeps` is its run lemma,
  `attend_holds` and `attend_stores` what a run keeps of the cache.
-/

set_option linter.unusedSectionVars false

namespace CacheMoney.Server

open CacheMoney.Found CacheMoney.Resp CacheMoney.Shardmap
open CacheMoney.Engine (World Env Entry)

variable {S : Type} {key : Bytes} {args : List Bytes}

/-! ### What a command may ask -/

/-- The command stores or removes the key.
Source: `internal/server/commands.go` `cmdSet`, `cmdDel`
Kind: D -/
def WritesKey (key : Bytes) (args : List Bytes) : Prop :=
  ∃ verb rest, args = verb :: rest ∧
    (asciiUpper verb = text "SET" ∧ rest.head? = some key ∨
      asciiUpper verb = text "DEL" ∧ key ∈ rest)

/-- The command sets a memory ceiling.
Source: `internal/server/handshake.go` `configSet`
Kind: D -/
def SetsCeiling (args : List Bytes) : Prop :=
  ∃ verb sub param val n, args = [verb, sub, param, val] ∧ asciiUpper verb = text "CONFIG" ∧
    asciiUpper sub = text "SET" ∧ asciiUpper param = text "MAXMEMORY" ∧ atoi val = some n ∧ 0 < n

/-- What a command may ask of the engine: to store and remove keys that it writes, for a ceiling if
it sets one, and whatever leaves entries and ceiling alone.
Source: `internal/cache/engine.go` `Engine`; `internal/cache/policy.go` `Tunable`
Kind: D -/
def MayAsk (args : List Bytes) : EngineOp → Prop
  | .set k _ _ => WritesKey k args
  | .del k => WritesKey k args
  | .setMaxMemory bytes => 0 < bytes → SetsCeiling args
  | _ => True

section handlers

variable {P : EngineOp → Prop}

/-- Writing asks nothing of the engine.
Source: `internal/resp/writer.go` `Writer`
Kind: L -/
theorem asks_write (f : Writer → Writer) : Asks P (write f) :=
  (asks_modify _).bind fun _ => asks_get.bind fun _ => asks_pure _

/-- Reading an argument asks nothing of the engine.
Source: none
Kind: L -/
theorem asks_arg (i : ℕ) : Asks P (arg args i) := asks_lift _

/-- Reading the rest of the arguments asks nothing of the engine.
Source: none
Kind: L -/
theorem asks_argsFrom (i : ℕ) : Asks P (argsFrom args i) := asks_lift _

/-- `PING` asks nothing.
Source: `internal/server/commands.go` `cmdPing`
Kind: L -/
theorem cmdPing_asks : Asks P (cmdPing args) := by
  unfold cmdPing
  split_ifs
  · exact (asks_arg 1).bind fun _ => asks_write _
  · exact asks_write _

/-- `QUIT` asks nothing.
Source: `internal/server/commands.go` `cmdQuit`
Kind: L -/
theorem cmdQuit_asks (args : List Bytes) : Asks P (cmdQuit args) :=
  (asks_write _).bind fun _ => asks_pure _

/-- Replying an engine error asks nothing.
Source: `internal/server/reply.go` `replyEngineErr`
Kind: L -/
theorem replyEngineErr_asks (e : EngineErr) : Asks P (replyEngineErr e) := asks_write _

/-- `GET` asks for a key.
Source: `internal/server/commands.go` `cmdGet`
Kind: L -/
theorem cmdGet_asks (hP : ∀ k, P (.get k)) : Asks P (cmdGet args) := by
  refine (asks_arg 1).bind fun k => (asks_ask (hP k)).bind fun answer => ?_
  match answer with
  | .error e => exact replyEngineErr_asks e
  | .ok none => exact asks_write _
  | .ok (some v) => exact asks_write _

/-- The options of `SET` ask for the time at most.
Source: `internal/server/commands.go` `parseSetExpiry`
Kind: L -/
theorem parseSetExpiry_asks (hP : P .now) (opts : List Bytes) : Asks P (parseSetExpiry opts) := by
  have hlifetime : ∀ (unit : ExpireUnit) n, Asks P (unit.lifetime n) := by
    intro unit n
    cases unit with
    | ex => exact asks_pure _
    | px => exact asks_pure _
    | exat => exact (asks_ask hP).bind fun _ => asks_pure _
    | pxat => exact (asks_ask hP).bind fun _ => asks_pure _
  unfold parseSetExpiry
  split_ifs with hnone htwo
  · exact asks_pure _
  · exact asks_pure _
  refine (asks_arg 0).bind fun unit => ?_
  cases expireUnit (asciiUpper unit) with
  | none => exact asks_pure _
  | some unit =>
      refine (asks_arg 1).bind fun number => ?_
      cases parseExpireInt number with
      | none => exact asks_pure _
      | some n =>
          simp only
          split_ifs with hrange
          · exact asks_pure _
          refine (hlifetime unit n).bind fun ttl => ?_
          split_ifs
          · exact asks_pure _
          · exact asks_pure _

/-- `SET` asks for the time, and to store its first argument.
Source: `internal/server/commands.go` `cmdSet`
Kind: L -/
theorem cmdSet_asks (hnow : P .now) (hset : ∀ k, args[1]? = some k → ∀ v ttl, P (.set k v ttl)) :
    Asks P (cmdSet args) := by
  refine (asks_argsFrom 3).bind fun opts => (parseSetExpiry_asks hnow opts).bind fun expiry => ?_
  unfold finishSet
  cases expiry with
  | error msg => exact asks_write _
  | ok ttl =>
      refine asks_lift_bind fun k hk => (asks_arg 2).bind fun v => ?_
      refine (asks_ask (hset k (index_eq_ok_iff.mp hk) v ttl)).bind fun answer => ?_
      match answer with
      | .ok () => exact asks_write _
      | .error e =>
          simp only
          split_ifs
          · exact asks_write _
          · exact replyEngineErr_asks e

/-- The loop over the keys asks what its probes ask.
Source: `internal/server/commands.go` `cmdDel`, `cmdExists`
Kind: L -/
theorem countKeys_asks {probe : Bytes → CmdM (Except EngineErr Bool)} (keys : List Bytes) :
    (∀ k ∈ keys, Asks P (probe k)) → ∀ n, Asks P (countKeys probe keys n) := by
  induction keys with
  | nil => exact fun _ n => asks_write _
  | cons k keys ih =>
      intro hprobe n
      have hrest := ih fun k' hk' => hprobe k' (List.mem_cons_of_mem _ hk')
      refine (hprobe k List.mem_cons_self).bind fun answer => ?_
      match answer with
      | .error e => exact replyEngineErr_asks e
      | .ok true => exact hrest (n + 1)
      | .ok false => exact hrest n

/-- `DEL` asks to remove its arguments.
Source: `internal/server/commands.go` `cmdDel`
Kind: L -/
theorem cmdDel_asks (hdel : ∀ k ∈ args.drop 1, P (.del k)) : Asks P (cmdDel args) := by
  refine asks_lift_bind fun keys hkeys => countKeys_asks keys (fun k hk => asks_ask (hdel k ?_)) 0
  unfold sliceFrom at hkeys
  split_ifs at hkeys
  cases hkeys
  exact hk

/-- `EXISTS` asks for keys.
Source: `internal/server/commands.go` `cmdExists`
Kind: L -/
theorem cmdExists_asks (hP : ∀ k, P (.get k)) : Asks P (cmdExists args) := by
  refine (asks_argsFrom 1).bind fun keys => countKeys_asks keys (fun k _ => ?_) 0
  exact (asks_ask (hP k)).bind fun _ => asks_pure _

/-- `TTL` and `PTTL` ask for the time left.
Source: `internal/server/commands.go` `replyTTL`
Kind: L -/
theorem replyTTL_asks (hP : ∀ k, P (.ttl k)) (k : Bytes) (unit : TTLUnit) :
    Asks P (replyTTL k unit) := by
  refine (asks_ask (hP k)).bind fun answer => ?_
  match answer with
  | .error e => exact replyEngineErr_asks e
  | .ok remaining => exact asks_write _

/-- The options of `HELLO` ask nothing.
Source: `internal/server/handshake.go` `cmdHello`
Kind: L -/
theorem helloOptions_asks (rest : List Bytes) (fuel : ℕ) :
    ∀ i, Asks P (helloOptions rest fuel i) := by
  induction fuel with
  | zero => exact fun i => asks_lift _
  | succ fuel ih =>
      intro i
      unfold helloOptions
      by_cases hend : rest.length ≤ i
      · rw [if_pos hend]
        exact asks_pure _
      rw [if_neg hend]
      refine (asks_arg i).bind fun opt => ?_
      split_ifs
      · exact asks_pure _
      · exact asks_pure _
      · exact ih (i + 2)
      · exact asks_pure _

/-- The reply to `HELLO` asks nothing.
Source: `internal/server/handshake.go` `writeHelloMap`
Kind: L -/
theorem writeHelloMap_asks (proto : ℤ) : Asks P (writeHelloMap proto) := by
  refine asks_get.bind fun c => ?_
  repeat refine (asks_write _).bind fun _ => ?_
  exact asks_write _

/-- The part of `HELLO` after the version asks nothing.
Source: `internal/server/handshake.go` `cmdHello`
Kind: L -/
theorem finishHello_asks (proto : ℤ) (flip : Bool) (rest : List Bytes) :
    Asks P (finishHello proto flip rest) := by
  refine (helloOptions_asks rest _ 0).bind fun fault => ?_
  cases fault with
  | some msg => exact asks_write _
  | none =>
      simp only
      split_ifs
      · exact (asks_modify _).bind fun _ => writeHelloMap_asks proto
      · exact writeHelloMap_asks proto

/-- `HELLO` asks nothing.
Source: `internal/server/handshake.go` `cmdHello`
Kind: L -/
theorem cmdHello_asks : Asks P (cmdHello args) := by
  refine asks_get.bind fun c => (asks_argsFrom 1).bind fun rest => ?_
  split_ifs
  · refine (asks_arg 0).bind fun version => ?_
    cases atoi version with
    | none => exact asks_write _
    | some v =>
        simp only
        split_ifs
        · exact asks_write _
        · exact (asks_argsFrom 1).bind fun rest => finishHello_asks v true rest
  · exact finishHello_asks c.proto false rest

/-- `SELECT` asks nothing.
Source: `internal/server/handshake.go` `cmdSelect`
Kind: L -/
theorem cmdSelect_asks : Asks P (cmdSelect args) := by
  refine (asks_arg 1).bind fun n => ?_
  cases atoi n with
  | none => exact asks_write _
  | some n =>
      simp only
      split_ifs
      · exact asks_write _
      · exact asks_write _

/-- `COMMAND` asks nothing.
Source: `internal/server/handshake.go` `cmdCommand`
Kind: L -/
theorem cmdCommand_asks : Asks P (cmdCommand args) := by
  unfold cmdCommand
  split_ifs
  · exact asks_write _
  refine (asks_arg 1).bind fun sub => ?_
  split_ifs
  · exact asks_write _
  · exact asks_write _
  · exact asks_write _

/-- A pair of the configuration asks nothing.
Source: `internal/server/handshake.go` `writeConfigPair`
Kind: L -/
theorem writeConfigPair_asks (k v : Bytes) : Asks P (writeConfigPair k v) :=
  (asks_write _).bind fun _ => (asks_write _).bind fun _ => asks_write _

/-- `CONFIG GET` asks for a setting.
Source: `internal/server/handshake.go` `configGet`
Kind: L -/
theorem configGet_asks (hmm : P .maxMemory) (hpol : P .evictionPolicy) (param : Bytes) :
    Asks P (configGet param) := by
  refine asks_get.bind fun c => ?_
  split_ifs
  · exact (asks_ask hmm).bind fun v => writeConfigPair_asks _ _
  · exact writeConfigPair_asks _ _
  · exact (asks_ask hpol).bind fun p => writeConfigPair_asks _ _
  · exact writeConfigPair_asks _ _
  · exact asks_write _

/-- `CONFIG SET` asks for a policy, or for a ceiling that is not negative.
Source: `internal/server/handshake.go` `configSet`
Kind: L -/
theorem configSet_asks (param val : Bytes) (hpol : ∀ p, P (.setEvictionPolicy p))
    (hmm : asciiUpper param = text "MAXMEMORY" → ∀ n, atoi val = some n → 0 ≤ n →
      P (.setMaxMemory (Int64.ofInt n))) : Asks P (configSet param val) := by
  refine asks_get.bind fun c => ?_
  split_ifs with hparam htunable hparam' htunable'
  · cases hval : atoi val with
    | none => exact asks_write _
    | some n =>
        simp only
        split_ifs with hneg
        · exact asks_write _
        · exact (asks_ask (hmm hparam n hval (not_lt.mp hneg))).bind fun _ => asks_write _
  · exact asks_write _
  · cases parsePolicy (toLower val) with
    | none => exact asks_write _
    | some p => exact (asks_ask (hpol p)).bind fun _ => asks_write _
  · exact asks_write _
  · exact asks_write _

end handlers

/-! ### The commands -/

/-- The three handlers that write run under the verbs of their names only.
Source: `internal/server/dispatch.go` `commandTable`
Kind: L -/
theorem name_of_writer : ∀ cmd ∈ commandTable, (cmd.verb = .set → cmd.name = text "SET") ∧
    (cmd.verb = .del → cmd.name = text "DEL") ∧
    (cmd.verb = .config → cmd.name = text "CONFIG") := by
  decide +kernel

/-- `SET` stores its first argument only.
Source: `internal/server/commands.go` `cmdSet`
Kind: L -/
theorem cmdSet_mayAsk {verb : Bytes} (rest : List Bytes) (hverb : asciiUpper verb = text "SET") :
    Asks (MayAsk (verb :: rest)) (cmdSet (verb :: rest)) := by
  refine cmdSet_asks trivial fun k hk v ttl => ⟨verb, rest, rfl, Or.inl ⟨hverb, ?_⟩⟩
  rw [List.head?_eq_getElem?]
  exact hk

/-- `DEL` removes its arguments only.
Source: `internal/server/commands.go` `cmdDel`
Kind: L -/
theorem cmdDel_mayAsk {verb : Bytes} (rest : List Bytes) (hverb : asciiUpper verb = text "DEL") :
    Asks (MayAsk (verb :: rest)) (cmdDel (verb :: rest)) :=
  cmdDel_asks fun _ hk => ⟨verb, rest, rfl, Or.inr ⟨hverb, hk⟩⟩

/-- `CONFIG` sets a ceiling only as `CONFIG SET maxmemory` with a positive number.
Source: `internal/server/handshake.go` `cmdConfig`
Kind: L -/
theorem cmdConfig_mayAsk {verb : Bytes} (rest : List Bytes)
    (hverb : asciiUpper verb = text "CONFIG") :
    Asks (MayAsk (verb :: rest)) (cmdConfig (verb :: rest)) := by
  refine asks_lift_bind fun sub hsub => ?_
  by_cases hget : asciiUpper sub = text "GET"
  · rw [if_pos hget]
    split_ifs
    · exact asks_write _
    · exact (asks_arg 2).bind fun param => configGet_asks trivial trivial param
  rw [if_neg hget]
  by_cases hset : asciiUpper sub = text "SET"
  swap
  · rw [if_neg hset]
    exact asks_write _
  rw [if_pos hset]
  by_cases hlen : (verb :: rest).length ≠ 4
  · rw [if_pos hlen]
    exact asks_write _
  rw [if_neg hlen]
  refine asks_lift_bind fun param hparam => asks_lift_bind fun val hval => ?_
  refine configSet_asks param val (fun _ => trivial) fun hname n hn hnonneg hpos => ?_
  -- The vector has four arguments, and they are the ones that were read.
  have hargs : verb :: rest = [verb, sub, param, val] := by
    rw [index_eq_ok_iff] at hsub hparam hval
    match rest, hlen with
    | [a, b, c], _ =>
        simp only [List.getElem?_cons_succ, List.getElem?_cons_zero, Option.some.injEq] at *
        rw [hsub, hparam, hval]
    | [], hlen => exact absurd (by simp) hlen
    | [_], hlen => exact absurd (by simp) hlen
    | [_, _], hlen => exact absurd (by simp) hlen
    | _ :: _ :: _ :: _ :: _, hlen => exact absurd (by simp) hlen
  have hne : n ≠ 0 := by
    rintro rfl
    exact absurd hpos (by decide)
  exact ⟨verb, sub, param, val, n, hargs, hverb, hset, hname, hn, by omega⟩

/-- **What a command asks of the engine**, read off its arguments: one traversal of the handlers, for
all that is said about their actions.
Source: `internal/server/dispatch.go` `dispatch`
Kind: P -/
theorem dispatch_asks (args : List Bytes) : Asks (MayAsk args) (dispatch args) := by
  unfold dispatch
  cases args with
  | nil =>
      rw [if_pos List.length_nil]
      exact asks_pure _
  | cons verb rest =>
      rw [if_neg (by simp)]
      refine asks_lift_bind fun raw hraw => ?_
      cases hraw
      cases hlook : lookupCommand (asciiUpper verb) with
      | none => exact (asks_write _).bind fun _ => asks_pure _
      | some cmd =>
          obtain ⟨hcmd, hname⟩ := lookupCommand_eq_some hlook
          obtain ⟨hset, hdel, hconfig⟩ := name_of_writer cmd hcmd
          simp only
          split_ifs
          · exact (asks_write _).bind fun _ => asks_pure _
          refine Asks.bind ?_ fun _ => asks_pure _
          cases hverb : cmd.verb with
          | ping => exact cmdPing_asks
          | quit => exact cmdQuit_asks (verb :: rest)
          | get => exact cmdGet_asks fun _ => trivial
          | set => exact cmdSet_mayAsk rest (hname.symm.trans (hset hverb))
          | del => exact cmdDel_mayAsk rest (hname.symm.trans (hdel hverb))
          | «exists» => exact cmdExists_asks fun _ => trivial
          | ttl => exact (asks_arg 1).bind fun k => replyTTL_asks (fun _ => trivial) k _
          | pttl => exact (asks_arg 1).bind fun k => replyTTL_asks (fun _ => trivial) k _
          | hello => exact cmdHello_asks
          | command => exact cmdCommand_asks
          | config => exact cmdConfig_mayAsk rest (hname.symm.trans (hconfig hverb))
          | select => exact cmdSelect_asks

/-- A key that a command writes is among its arguments.
Source: `internal/server/commands.go` `cmdSet`, `cmdDel`
Kind: L -/
theorem WritesKey.mem (h : WritesKey key args) : key ∈ args := by
  obtain ⟨verb, rest, rfl, ⟨-, hhead⟩ | ⟨-, hmem⟩⟩ := h
  · exact List.mem_cons_of_mem verb (List.mem_of_head? hhead)
  · exact List.mem_cons_of_mem verb hmem

/-- The action does not write the key and sets no ceiling.
Source: `internal/cache/engine.go` `Engine`; `internal/cache/policy.go` `Tunable`
Kind: D -/
def Spares (key : Bytes) : EngineOp → Prop
  | .set k _ _ => k ≠ key
  | .del k => k ≠ key
  | .setMaxMemory bytes => bytes ≤ 0
  | _ => True

/-- What a command asks that neither writes the key nor sets a ceiling, spares the key.
Source: `internal/server/dispatch.go` `dispatch`
Kind: L -/
theorem MayAsk.spares {o : EngineOp} (h : MayAsk args o) (hkey : ¬WritesKey key args)
    (hceiling : ¬SetsCeiling args) : Spares key o := by
  cases o with
  | set k value ttl =>
      rintro rfl
      exact hkey h
  | del k =>
      rintro rfl
      exact hkey h
  | setMaxMemory bytes => exact Int64.not_lt.mp fun hpos => hceiling (h hpos)
  | _ => trivial

/-! ### The cache behind the actions -/

/-- The method of the cache that an action runs, if it is one.
Source: `internal/cache/engine.go` `Engine`; `internal/cache/policy.go` `Tunable`
Kind: D -/
def EngineOp.call : EngineOp → Option Engine.Call
  | .get k => some (.get none k)
  | .set k value life => some (.set none k value life.toInt)
  | .del k => some (.del none k)
  | .ttl k => some (.ttl none k)
  | .setMaxMemory bytes => some (.setMaxMemory bytes.toInt)
  | .setEvictionPolicy p => some (.setEvictionPolicy p)
  | .now => none
  | .maxMemory => none
  | .evictionPolicy => none

section backend

variable {fuel : ℕ} {w w' : World S} {f : FinMap Bytes Entry} {o : EngineOp} {r : o.Answer}

/-- A method that ran is a call that returned.
Source: `internal/cache/engine.go` `Engine`; `internal/cache/policy.go` `Tunable`
Kind: L -/
theorem call_of_run {α : Type} {p : Engine.CacheM α} {c : Engine.Call} {g : α → Engine.Reply}
    (hprog : c.prog fuel = p >>= fun a => pure (g a)) {a : α}
    (h : p.run (Engine.exec fuel) w = .ok (a, w')) : Engine.call fuel w c = .ok (g a, w') := by
  unfold Engine.call
  rw [hprog, Prog.run_bind, h]
  rfl

/-- An action is a method of the cache, or does not touch the cache.
Source: `internal/cache/engine.go` `Engine`
Kind: L -/
theorem backend_call (h : backend fuel o w = .ok (r, w')) :
    (∃ c out, o.call = some c ∧ Engine.call fuel w c = .ok (out, w')) ∨
      o.call = none ∧ w'.cache = w.cache := by
  cases o with
  | get k =>
      obtain ⟨⟨a, w₁⟩, hrun, hr⟩ := bind_eq_ok_iff.mp h
      cases hr
      exact Or.inl ⟨_, _, rfl, call_of_run (g := .value) rfl hrun⟩
  | set k value ttl =>
      obtain ⟨⟨a, w₁⟩, hrun, hr⟩ := bind_eq_ok_iff.mp h
      cases hr
      exact Or.inl ⟨_, _, rfl, call_of_run (g := .stored) rfl hrun⟩
  | del k =>
      obtain ⟨⟨a, w₁⟩, hrun, hr⟩ := bind_eq_ok_iff.mp h
      cases hr
      exact Or.inl ⟨_, _, rfl, call_of_run (g := .existed) rfl hrun⟩
  | ttl k =>
      obtain ⟨⟨a, w₁⟩, hrun, hr⟩ := bind_eq_ok_iff.mp h
      cases hr
      exact Or.inl ⟨_, _, rfl, call_of_run (g := .remaining) rfl hrun⟩
  | setMaxMemory bytes => exact Or.inl ⟨_, _, rfl, call_of_run (g := fun _ => .done) rfl h⟩
  | setEvictionPolicy p => exact Or.inl ⟨_, _, rfl, call_of_run (g := fun _ => .done) rfl h⟩
  | now =>
      cases h
      exact Or.inr ⟨rfl, rfl⟩
  | maxMemory =>
      cases h
      exact Or.inr ⟨rfl, rfl⟩
  | evictionPolicy =>
      cases h
      exact Or.inr ⟨rfl, rfl⟩

/-- Every action leaves a cache that holds a finite map.
Source: `internal/cache/engine.go` `Engine`
Kind: L -/
theorem backend_holds (hw : ∃ f, w.cache.Holds f) (h : backend fuel o w = .ok (r, w')) :
    ∃ f, w'.cache.Holds f := by
  obtain ⟨f, hf⟩ := hw
  rcases backend_call h with ⟨c, out, -, hcall⟩ | ⟨-, hcache⟩
  · exact (hf.call c).of_ok hcall
  · exact ⟨f, hcache ▸ hf⟩

/-- No ceiling is set, and the entry is stored under the key.
Source: `internal/cache/cache.go` `Cache`
Kind: D -/
def Stores (key : Bytes) (e : Entry) (w : World S) : Prop :=
  w.cache.maxmemory ≤ 0 ∧ ∃ f, w.cache.Holds f ∧ f.lookup key = some e

/-- The step lemma of the frame rule.
Source: `internal/cache/engine.go` `Engine`
Kind: L -/
theorem backend_stores {e : Entry} (ho : Spares key o) (hw : Stores key e w)
    (h : backend fuel o w = .ok (r, w')) : Stores key e w' := by
  obtain ⟨hunset, f, hf, hlook⟩ := hw
  rcases backend_call h with ⟨c, out, hc, hcall⟩ | ⟨-, hcache⟩
  swap
  · rw [Stores, hcache]
    exact ⟨hunset, f, hf, hlook⟩
  obtain ⟨f', hf', hmm, -, heffect⟩ := (hf.call_effect c).of_ok hcall
  have hceiling : c.ceiling w.cache.maxmemory ≤ 0 := by
    cases o <;> cases hc
    case setMaxMemory bytes => exact Int64.le_iff_toInt_le.mp ho
    all_goals exact hunset
  refine ⟨hmm.le.trans hceiling, f', hf', ?_⟩
  rw [heffect.lookup_eq hunset hceiling ?_ ?_, hlook]
  · rintro value ttl rfl
    cases o <;> cases hc
    exact ho rfl
  · rintro rfl
    cases o <;> cases hc
    exact ho rfl

end backend

/-! ### Runs of commands -/

section runs

variable {ι : Type} [DecidableEq ι]

/-- A command of a client, and what the engine reads from outside while it is served.
Source: `internal/server/dispatch.go` `dispatch`
Kind: D -/
structure Visit (ι : Type) where
  client : ι
  args : List Bytes
  env : Env

/-- The commands of any number of clients over an engine, one after another. The engine is any;
`turn` brings what it reads from outside during a command into its world.
Source: `internal/server/dispatch.go` `dispatch`
Kind: D -/
def attend {W : Type} (engine : (o : EngineOp) → W → Outcome (o.Answer × W)) (turn : Env → W → W) :
    List (Visit ι) → (ι → Conn) → W → Outcome ((ι → Conn) × W)
  | [], conns, w => .ok (conns, w)
  | v :: visits, conns, w => do
      let (_, c, w) ← (dispatch v.args).runIn engine (conns v.client) (turn v.env w)
      attend engine turn visits (Function.update conns v.client c) w

/-- The cache with what it reads during a command.
Source: `internal/cache/cache.go` `Cache`
Kind: D -/
def World.turn (env : Env) (w : World S) : World S := { w with env := env }

/-- What every action of the commands keeps, a run of them keeps.
Source: none
Kind: L -/
theorem attend_keeps {W : Type} {engine : (o : EngineOp) → W → Outcome (o.Answer × W)}
    {turn : Env → W → W} {I : W → Prop} (hturn : ∀ env w, I w → I (turn env w))
    (visits : List (Visit ι)) :
    (∀ v ∈ visits, ∀ o, MayAsk v.args o → ∀ w r w', I w → engine o w = .ok (r, w') → I w') →
      ∀ {conns : ι → Conn} {w : W} {x : (ι → Conn) × W}, I w →
        attend engine turn visits conns w = .ok x → I x.2 := by
  induction visits with
  | nil =>
      intro _ conns w x hw hrun
      cases hrun
      exact hw
  | cons v visits ih =>
      intro hstep conns w x hw hrun
      obtain ⟨y, hy, hrest⟩ := bind_eq_ok_iff.mp hrun
      have hw' : I y.2.2 :=
        (dispatch_asks v.args).runIn (hstep v List.mem_cons_self) (hturn v.env w hw) hy
      exact ih (fun v' hv' => hstep v' (List.mem_cons_of_mem _ hv')) hw' hrest

variable {fuel : ℕ} {visits : List (Visit ι)} {conns : ι → Conn} {w : World S}
  {x : (ι → Conn) × World S}

/-- Between commands the cache holds a finite map.
Source: `internal/server/server.go` `Server`
Kind: P -/
theorem attend_holds (hw : ∃ f, w.cache.Holds f)
    (hrun : attend (backend fuel) World.turn visits conns w = .ok x) :
    ∃ f, x.2.cache.Holds f := by
  let I : World S → Prop := fun w => ∃ f, w.cache.Holds f
  have hturn : ∀ env w, I w → I (World.turn env w) := fun _ _ h => h
  exact attend_keeps hturn visits (fun _ _ _ _ _ _ _ hw h => backend_holds hw h) hw hrun

/-- The frame rule: commands that neither write the key nor set a ceiling leave its entry.
Source: `internal/server/server.go` `Server`
Kind: P -/
theorem attend_stores {e : Entry}
    (hvisits : ∀ v ∈ visits, ¬WritesKey key v.args ∧ ¬SetsCeiling v.args) (hw : Stores key e w)
    (hrun : attend (backend fuel) World.turn visits conns w = .ok x) : Stores key e x.2 := by
  have hturn : ∀ env (w : World S), Stores key e w → Stores key e (World.turn env w) :=
    fun _ _ h => h
  refine attend_keeps hturn visits ?_ hw hrun
  intro v hv o ho w r w' hw h
  obtain ⟨hkey, hceiling⟩ := hvisits v hv
  exact backend_stores (ho.spares hkey hceiling) hw h

end runs

end CacheMoney.Server
