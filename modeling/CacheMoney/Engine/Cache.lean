import CacheMoney.Shardmap.Sample

/-!
# The cache engine

`internal/cache`: the methods of `Cache` as programs over its atomic actions. An action is one
call of the backing map, one atomic load, store or add of a counter, one clock reading or one
question to the frequency policy.

* Times are nanoseconds since the Unix epoch; `zeroTime` is Go's zero `time.Time`, which an
  entry without expiry carries.
* `Env` is what the engine does not control: the clock, the random source of `Sample` and the
  estimates of the frequency policy. Each is an arbitrary tape.
* The loop of `evictUntilUnder` runs on a fuel clock.
-/

namespace CacheMoney.Engine

open CacheMoney.Found CacheMoney.Shardmap

/-! ### Times and entries -/

/-- January 1 of year 1, the zero `time.Time`.
Source: `internal/cache/cache.go` `entry`
Kind: D -/
def zeroTime : ℤ := -62135596800 * 10 ^ 9

/-- The largest `time.Duration`.
Source: `internal/cache/cache.go` `TTL`
Kind: D -/
def maxDuration : ℤ := 2 ^ 63 - 1

/-- Source: `internal/cache/cache.go` `TTL`
Kind: D -/
def minDuration : ℤ := -2 ^ 63

/-- `t.Sub(u)`, which saturates.
Source: `internal/cache/cache.go` `TTL`
Kind: D -/
def timeSub (t u : ℤ) : ℤ := max minDuration (min maxDuration (t - u))

/-- Source: `internal/cache/cache.go` `entry`
Kind: D -/
structure Entry where
  value : Bytes
  /-- `zeroTime` for an entry that never expires. -/
  expiresAt : ℤ
  deriving DecidableEq, Repr

instance : Inhabited Entry := ⟨⟨[], zeroTime⟩⟩

/-- Source: `internal/cache/cost.go` `entryOverhead`
Kind: D -/
def entryOverhead : ℕ := 64

/-- Source: `internal/cache/cost.go` `costOf`
Kind: D -/
def costOf (key value : Bytes) : ℤ := (key.length + value.length + entryOverhead : ℕ)

/-- Source: `internal/cache/policy.go` `EvictionPolicy`
Kind: D -/
inductive EvictionPolicy where
  | allKeysLFU
  | allKeysRandom
  | noEviction
  deriving DecidableEq, Repr

/-- What `ctx.Err()` returns of a context that is done.
Source: `internal/cache/cache.go` `Get`, `Set`, `Del`, `TTL`, `Len`
Kind: D -/
inductive CtxErr where
  | canceled
  | deadlineExceeded
  deriving DecidableEq, Repr

/-- Source: `internal/cache/policy.go` `ErrOOM`
Kind: D -/
inductive Err where
  | ctx (e : CtxErr)
  | oom
  deriving DecidableEq, Repr

/-- The answer of the entry check `ctx.Err()`.
Source: `internal/cache/cache.go` `Get`, `Set`, `Del`, `TTL`, `Len`
Kind: D -/
abbrev Ctx := Option CtxErr

/-! ### Atomic actions -/

/-- Source: `internal/cache/cache.go` `Cache`
Kind: D -/
inductive Action where
  | now
  | get (key : Bytes)
  | swap (key : Bytes) (e : Entry)
  | delete (key : Bytes)
  | sample (n : ℤ)
  | range
  | loadUsage
  | addUsage (d : ℤ)
  | loadMaxmemory
  | storeMaxmemory (bytes : ℤ)
  | loadEvictPol
  | storeEvictPol (p : EvictionPolicy)
  | swapPolicyCounters (n : ℤ)
  | storeSketch (counters : ℤ)
  | storeDoorkeeper (counters : ℤ)
  | setActive (on : Bool)
  | record (key : Bytes)
  | estimate (key : Bytes)
  | addHits
  | addMisses
  | addEvictions
  deriving DecidableEq, Repr

/-- What an action answers.
Source: `internal/cache/cache.go` `Cache`
Kind: D -/
@[reducible] def Action.Answer : Action → Type
  | .now => ℤ
  | .get _ => Option Entry
  | .swap _ _ => Option Entry
  | .delete _ => Option Entry
  | .sample _ => List (Bytes × Entry)
  | .range => List (Bytes × Entry)
  | .loadUsage => ℤ
  | .loadMaxmemory => ℤ
  | .loadEvictPol => EvictionPolicy
  | .swapPolicyCounters _ => ℤ
  | .estimate _ => UInt8
  | .addUsage _ => Unit
  | .storeMaxmemory _ => Unit
  | .storeEvictPol _ => Unit
  | .storeSketch _ => Unit
  | .storeDoorkeeper _ => Unit
  | .setActive _ => Unit
  | .record _ => Unit
  | .addHits => Unit
  | .addMisses => Unit
  | .addEvictions => Unit

/-- Source: none
Kind: D -/
abbrev CacheM := Prog Action Action.Answer

/-- Source: none
Kind: D -/
def ask (a : Action) : CacheM a.Answer := Prog.perform a

/-- The fields of `Cache`. Of the frequency policy only what the engine sets is kept: the active
flag and the counter counts its sketch and doorkeeper were built for.
Source: `internal/cache/cache.go` `Cache`
Kind: D -/
structure Cache (S : Type) where
  m : Map S Bytes Entry
  usage : ℤ
  maxmemory : ℤ
  evictPol : EvictionPolicy
  policyCounters : ℤ
  sketch : ℤ
  doorkeeper : ℤ
  active : Bool
  hits : ℕ := 0
  misses : ℕ := 0
  evictions : ℕ := 0

/-- What the engine reads from outside.
Source: none
Kind: D -/
structure Env where
  clock : Tape ℤ
  rand : Tape UInt64
  /-- The answers of `policy.Estimate`. -/
  freq : Tape UInt8

/-- Source: none
Kind: D -/
structure World (S : Type) where
  cache : Cache S
  env : Env

variable {S : Type}

/-- What each action does. `fuel` bounds the loops inside the map.
Source: `internal/cache/cache.go` `Cache`
Kind: D -/
def exec (fuel : ℕ) : (a : Action) → World S → Outcome (a.Answer × World S)
  | .now, w => pure (w.env.clock.head, { w with env := { w.env with clock := w.env.clock.tail } })
  | .get key, w => do
      let e ← w.cache.m.get fuel key
      pure (e, w)
  | .swap key e, w => do
      let (old, m) ← w.cache.m.swap fuel key e
      pure (old, { w with cache := { w.cache with m := m } })
  | .delete key, w => do
      let (old, m) ← w.cache.m.delete fuel key
      pure (old, { w with cache := { w.cache with m := m } })
  | .sample n, w => do
      let (out, rand) ← w.cache.m.sample fuel n w.env.rand
      pure (out, { w with env := { w.env with rand := rand } })
  | .range, w => do
      let l ← w.cache.m.range (fun l k v => (l ++ [(k, v)], true)) []
      pure (l, w)
  | .loadUsage, w => pure (w.cache.usage, w)
  | .addUsage d, w => pure ((), { w with cache := { w.cache with usage := w.cache.usage + d } })
  | .loadMaxmemory, w => pure (w.cache.maxmemory, w)
  | .storeMaxmemory b, w => pure ((), { w with cache := { w.cache with maxmemory := b } })
  | .loadEvictPol, w => pure (w.cache.evictPol, w)
  | .storeEvictPol p, w => pure ((), { w with cache := { w.cache with evictPol := p } })
  | .swapPolicyCounters n, w =>
      pure (w.cache.policyCounters, { w with cache := { w.cache with policyCounters := n } })
  | .storeSketch n, w => pure ((), { w with cache := { w.cache with sketch := n } })
  | .storeDoorkeeper n, w => pure ((), { w with cache := { w.cache with doorkeeper := n } })
  | .setActive on, w => pure ((), { w with cache := { w.cache with active := on } })
  | .record _, w => pure ((), w)
  | .estimate _, w => pure (w.env.freq.head, { w with env := { w.env with freq := w.env.freq.tail } })
  | .addHits, w => pure ((), { w with cache := { w.cache with hits := w.cache.hits + 1 } })
  | .addMisses, w => pure ((), { w with cache := { w.cache with misses := w.cache.misses + 1 } })
  | .addEvictions, w =>
      pure ((), { w with cache := { w.cache with evictions := w.cache.evictions + 1 } })

/-! ### Construction -/

/-- Source: `internal/cache/cache.go` `assumedAvgEntryCost`
Kind: D -/
def assumedAvgEntryCost : ℤ := 256

/-- Source: `internal/cache/cache.go` `policyCountersMin`
Kind: D -/
def policyCountersMin : ℤ := 1024

/-- Source: `internal/cache/cache.go` `policyCountersMax`
Kind: D -/
def policyCountersMax : ℤ := 1 <<< 22

/-- The sketch size for a ceiling.
Source: `internal/cache/cache.go` `policyConfig`
Kind: D -/
def countersFor (mm : ℤ) : ℤ :=
  if 0 < mm then
    let counters := mm / assumedAvgEntryCost
    let counters := if counters < policyCountersMin then policyCountersMin else counters
    if policyCountersMax < counters then policyCountersMax else counters
  else policyCountersMin

/-- An option of `New`. The clock of `WithClock` is in `Env`.
Source: `internal/cache/cache.go` `Option`
Kind: D -/
inductive CacheOpt (S : Type) where
  | withShards (n : ℤ)
  | withSeed (seed : S)
  | withMaxMemory (bytes : ℤ)
  | withEvictionPolicy (p : EvictionPolicy)

/-- Source: `internal/cache/cache.go` `config`
Kind: D -/
structure Config (S : Type) where
  shardOpts : List (Opt S) := []
  maxmemory : ℤ := 0
  policy : EvictionPolicy := .allKeysLFU

/-- Source: `internal/cache/cache.go` `WithShards`, `WithSeed`, `WithMaxMemory`, `WithEvictionPolicy`
Kind: D -/
def CacheOpt.apply (cfg : Config S) : CacheOpt S → Config S
  | .withShards n => { cfg with shardOpts := cfg.shardOpts ++ [.withShards n] }
  | .withSeed seed => { cfg with shardOpts := cfg.shardOpts ++ [.withSeed seed] }
  | .withMaxMemory bytes => { cfg with maxmemory := bytes }
  | .withEvictionPolicy p => { cfg with policy := p }

/-- Source: `internal/cache/cache.go` `New`
Kind: D -/
def Cache.new (host : Host S) (hasher : S → Bytes → UInt64) (opts : List (CacheOpt S)) : Cache S :=
  let cfg := opts.foldl CacheOpt.apply {}
  let counters := countersFor cfg.maxmemory
  { m := Map.new host hasher cfg.shardOpts
    usage := 0
    maxmemory := cfg.maxmemory
    evictPol := cfg.policy
    policyCounters := counters
    sketch := counters
    doorkeeper := counters
    active := cfg.policy == .allKeysLFU && 0 < cfg.maxmemory }

/-! ### Reads -/

namespace Cache

/-- Source: `internal/cache/cache.go` `expired`
Kind: D -/
def expired (e : Entry) : CacheM Bool :=
  if e.expiresAt = zeroTime then pure false else do
    let t ← ask .now
    pure (!decide (t < e.expiresAt))

/-- Source: `internal/cache/cache.go` `Get`
Kind: D -/
def miss : CacheM (Except Err (Option Bytes)) := do
  ask .addMisses
  pure (.ok none)

/-- A live value, or `none` for an absent or expired key.
Source: `internal/cache/cache.go` `Get`
Kind: D -/
def get (ctx : Ctx) (key : Bytes) : CacheM (Except Err (Option Bytes)) :=
  match ctx with
  | some err => pure (.error (.ctx err))
  | none => do
      let found ← ask (.get key)
      match found with
      | none => miss
      | some e => do
          let dead ← expired e
          if dead then miss else do
            ask .addHits
            ask (.record key)
            pure (.ok (some e.value))

/-- The remaining lifetime of a live key, `-1` if it has no expiry, `none` for an absent or
expired key.
Source: `internal/cache/cache.go` `TTL`
Kind: D -/
def ttl (ctx : Ctx) (key : Bytes) : CacheM (Except Err (Option ℤ)) :=
  match ctx with
  | some err => pure (.error (.ctx err))
  | none => do
      let found ← ask (.get key)
      match found with
      | none => pure (.ok none)
      | some e => do
          let dead ← expired e
          if dead then pure (.ok none)
          else if e.expiresAt = zeroTime then pure (.ok (some (-1)))
          else do
            let t ← ask .now
            pure (.ok (some (timeSub e.expiresAt t)))

/-- The `Range` callback of `Len`, over the visited entries.
Source: `internal/cache/cache.go` `Len`
Kind: D -/
def countLive : List (Bytes × Entry) → ℕ → CacheM ℕ
  | [], count => pure count
  | (_, e) :: l, count => do
      let dead ← expired e
      if dead then countLive l count else countLive l (count + 1)

/-- Source: `internal/cache/cache.go` `Len`
Kind: D -/
def len (ctx : Ctx) : CacheM (Except Err ℕ) :=
  match ctx with
  | some err => pure (.error (.ctx err))
  | none => do
      let l ← ask .range
      let n ← countLive l 0
      pure (.ok n)

/-! ### Eviction -/

/-- Source: `internal/cache/evict.go` `sampleN`
Kind: D -/
def sampleN : ℤ := 5

/-- Source: `internal/cache/evict.go` `maxEvictMisses`
Kind: D -/
def maxEvictMisses : ℕ := 100

/-- The candidate loop of `pickVictim`; `best` is the best candidate so far with its frequency.
Source: `internal/cache/evict.go` `pickVictim`
Kind: D -/
def pickVictimLoop (pol : EvictionPolicy) (exclude : Bytes) (hasExclude : Bool) :
    List (Bytes × Entry) → Option (Bytes × UInt8) → CacheM (Option Bytes)
  | [], best => pure (best.map Prod.fst)
  | (key, _) :: cands, best =>
      if hasExclude ∧ key = exclude then pickVictimLoop pol exclude hasExclude cands best
      else if pol = .allKeysRandom then pure (some key)
      else do
        let f ← ask (.estimate key)
        if best.all fun b => f < b.2 then
          pickVictimLoop pol exclude hasExclude cands (some (key, f))
        else pickVictimLoop pol exclude hasExclude cands best

/-- Source: `internal/cache/evict.go` `pickVictim`
Kind: D -/
def pickVictim (cands : List (Bytes × Entry)) (pol : EvictionPolicy) (exclude : Bytes)
    (hasExclude : Bool) : CacheM (Option Bytes) :=
  pickVictimLoop pol exclude hasExclude cands none

/-- The accounting of a removed victim.
Source: `internal/cache/evict.go` `evictUntilUnder`
Kind: D -/
def settleVictim (victim : Bytes) : Option Entry → CacheM Unit
  | none => pure ()
  | some e => do
      ask (.addUsage (-costOf victim e.value))
      ask .addEvictions

/-- The loop of `evictUntilUnder`, with the misses so far.
Source: `internal/cache/evict.go` `evictUntilUnder`
Kind: D -/
def evictLoop (ceiling : ℤ) (pol : EvictionPolicy) (exclude : Bytes) (hasExclude : Bool) :
    ℕ → ℕ → CacheM Unit
  | 0, _ => .stop
  | fuel + 1, misses => do
      let usage ← ask .loadUsage
      if ceiling < usage then do
        let cands ← ask (.sample sampleN)
        let victim ← pickVictim cands pol exclude hasExclude
        match victim with
        | none =>
            if maxEvictMisses < misses + 1 then pure ()
            else evictLoop ceiling pol exclude hasExclude fuel (misses + 1)
        | some victim => do
            let e ← ask (.delete victim)
            settleVictim victim e
            evictLoop ceiling pol exclude hasExclude fuel misses
      else pure ()

/-- Source: `internal/cache/evict.go` `evictUntilUnder`
Kind: D -/
def evictUntilUnder (fuel : ℕ) (ceiling : ℤ) (pol : EvictionPolicy) (exclude : Bytes)
    (hasExclude : Bool) : CacheM Unit :=
  evictLoop ceiling pol exclude hasExclude fuel 0

/-! ### Writes -/

/-- The expiry of an entry stored with `ttl`.
Source: `internal/cache/cache.go` `Set`
Kind: D -/
def expiry (ttl : ℤ) : CacheM ℤ :=
  if 0 < ttl then do
    let t ← ask .now
    pure (t + ttl)
  else pure zeroTime

/-- The cost of the entry a call found, `0` if it found none.
Source: `internal/cache/cache.go` `Set`
Kind: D -/
def foundCost (key : Bytes) : Option Entry → ℤ
  | none => 0
  | some old => costOf key old.value

/-- The noeviction guard of `Set`: whether the write is rejected.
Source: `internal/cache/cache.go` `Set`
Kind: D -/
def rejects (ceiling : ℤ) (pol : EvictionPolicy) (key : Bytes) (newCost : ℤ) : CacheM Bool :=
  if 0 < ceiling ∧ pol = .noEviction then do
    let old ← ask (.get key)
    if 0 < newCost - foundCost key old then do
      let usage ← ask .loadUsage
      pure (decide (ceiling < usage + (newCost - foundCost key old)))
    else pure false
  else pure false

/-- The eviction at the end of `Set` and of `SetMaxMemory`.
Source: `internal/cache/cache.go` `Set`, `SetMaxMemory`
Kind: D -/
def evictIfOver (fuel : ℕ) (ceiling : ℤ) (pol : EvictionPolicy) (exclude : Bytes)
    (hasExclude : Bool) : CacheM Unit :=
  if 0 < ceiling ∧ pol ≠ .noEviction then do
    let usage ← ask .loadUsage
    if ceiling < usage then evictUntilUnder fuel ceiling pol exclude hasExclude else pure ()
  else pure ()

/-- Source: `internal/cache/cache.go` `Set`
Kind: D -/
def set (fuel : ℕ) (ctx : Ctx) (key value : Bytes) (ttl : ℤ) : CacheM (Except Err Unit) :=
  match ctx with
  | some err => pure (.error (.ctx err))
  | none => do
      let expiresAt ← expiry ttl
      let ceiling ← ask .loadMaxmemory
      let pol ← ask .loadEvictPol
      let oom ← rejects ceiling pol key (costOf key value)
      if oom then pure (.error .oom) else do
        let old ← ask (.swap key ⟨value, expiresAt⟩)
        ask (.addUsage (costOf key value - foundCost key old))
        evictIfOver fuel ceiling pol key true
        pure (.ok ())

/-- Source: `internal/cache/cache.go` `Del`
Kind: D -/
def del (ctx : Ctx) (key : Bytes) : CacheM (Except Err Bool) :=
  match ctx with
  | some err => pure (.error (.ctx err))
  | none => do
      let found ← ask (.delete key)
      match found with
      | none => pure (.ok false)
      | some e => do
          ask (.addUsage (-costOf key e.value))
          let dead ← expired e
          pure (.ok (!dead))

/-! ### Live tuning -/

/-- Source: `internal/cache/cache.go` `refreshActive`
Kind: D -/
def refreshActive : CacheM Unit := do
  let pol ← ask .loadEvictPol
  if pol = .allKeysLFU then do
    let mm ← ask .loadMaxmemory
    ask (.setActive (decide (0 < mm)))
  else ask (.setActive false)

/-- The sketch rebuild of `SetMaxMemory`, skipped when the size did not change.
Source: `internal/cache/cache.go` `SetMaxMemory`; `internal/tinylfu/policy.go` `Resize`
Kind: D -/
def resizePolicy (counters old : ℤ) : CacheM Unit :=
  if counters ≠ old then do
    ask (.storeSketch counters)
    ask (.storeDoorkeeper counters)
  else pure ()

/-- The eviction pass of `SetMaxMemory`; the policy is read only for a positive ceiling.
Source: `internal/cache/cache.go` `SetMaxMemory`
Kind: D -/
def evictDown (fuel : ℕ) (bytes : ℤ) : CacheM Unit :=
  if 0 < bytes then do
    let pol ← ask .loadEvictPol
    evictIfOver fuel bytes pol [] false
  else pure ()

/-- Source: `internal/cache/cache.go` `SetMaxMemory`
Kind: D -/
def setMaxMemory (fuel : ℕ) (bytes : ℤ) : CacheM Unit := do
  ask (.storeMaxmemory bytes)
  let mm ← ask .loadMaxmemory
  let old ← ask (.swapPolicyCounters (countersFor mm))
  resizePolicy (countersFor mm) old
  refreshActive
  evictDown fuel bytes

/-- Source: `internal/cache/cache.go` `SetEvictionPolicy`
Kind: D -/
def setEvictionPolicy (p : EvictionPolicy) : CacheM Unit := do
  ask (.storeEvictPol p)
  refreshActive

end Cache

/-! ### Calls -/

/-- A call of a client.
Source: `internal/cache/engine.go` `Engine`; `internal/cache/policy.go` `Tunable`
Kind: D -/
inductive Call where
  | get (ctx : Ctx) (key : Bytes)
  | set (ctx : Ctx) (key value : Bytes) (ttl : ℤ)
  | del (ctx : Ctx) (key : Bytes)
  | ttl (ctx : Ctx) (key : Bytes)
  | len (ctx : Ctx)
  | setMaxMemory (bytes : ℤ)
  | setEvictionPolicy (p : EvictionPolicy)
  deriving DecidableEq, Repr

/-- What a call returned.
Source: `internal/cache/engine.go` `Engine`; `internal/cache/policy.go` `Tunable`
Kind: D -/
inductive Reply where
  | value (r : Except Err (Option Bytes))
  | stored (r : Except Err Unit)
  | existed (r : Except Err Bool)
  | remaining (r : Except Err (Option ℤ))
  | size (r : Except Err ℕ)
  | done
  deriving DecidableEq

/-- The program of a call.
Source: `internal/cache/engine.go` `Engine`; `internal/cache/policy.go` `Tunable`
Kind: D -/
def Call.prog (fuel : ℕ) : Call → CacheM Reply
  | .get ctx key => do
      let r ← Cache.get ctx key
      pure (.value r)
  | .set ctx key value life => do
      let r ← Cache.set fuel ctx key value life
      pure (.stored r)
  | .del ctx key => do
      let r ← Cache.del ctx key
      pure (.existed r)
  | .ttl ctx key => do
      let r ← Cache.ttl ctx key
      pure (.remaining r)
  | .len ctx => do
      let r ← Cache.len ctx
      pure (.size r)
  | .setMaxMemory bytes => do
      Cache.setMaxMemory fuel bytes
      pure .done
  | .setEvictionPolicy p => do
      Cache.setEvictionPolicy p
      pure .done

/-- One call, alone.
Source: `internal/cache/engine.go` `Engine`
Kind: D -/
def call (fuel : ℕ) (w : World S) (c : Call) : Outcome (Reply × World S) :=
  (c.prog fuel).run (exec fuel) w

end CacheMoney.Engine
